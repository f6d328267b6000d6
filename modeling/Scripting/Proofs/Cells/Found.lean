import Scripting.Proofs.Cells.Own
import Scripting.Proofs.Cells.Runs

/-!
# Code finds captured variables

`FunDecl.vars` gives the captured variables of a function: those of its own have slots of their own in
its frame, and those from outside are among the cells of its closures. The code of the function finds
each of them in its place: `FunDecl.finds`. The script of a batch has none: `Source.finds`.
-/

namespace Scripting

variable {N C T W : Type}

/-- The captured variables that the code of a function works with. -/
def FunDecl.vars (p : Program) (d : FunDecl (.slotted N C T W)) : Vars where
  own n := d.own.find? fun b => (p.binding b).captured && (p.binding b).index == n
  free := d.info.free.map (·.binding)

/-- Whether captured variables are at hand in a region, and the slots of no others hold cells. -/
structure Vars.Fits (V : Vars) (p : Program) (R : Region) (own : List BindingId) : Prop where
  free : V.free = R.free
  cell : ∀ b ∈ own, (p.binding b).captured = true → V.own (p.binding b).index = some b
  plain : ∀ b ∈ own, (p.binding b).captured = false → V.own (p.binding b).index = none

theorem Vars.Fits.empty (p : Program) : Vars.empty.Fits p .top [] := ⟨rfl, nofun, nofun⟩

namespace FunDecl

variable {p : Program} {d : FunDecl (.slotted N C T W)}

theorem vars_own {n : Nat} {b : BindingId} (h : (d.vars p).own n = some b) :
    b ∈ d.own ∧ (p.binding b).captured = true ∧ (p.binding b).index = n := by
  have hb := List.find?_some h
  rw [Bool.and_eq_true, beq_iff_eq] at hb
  exact ⟨List.mem_of_find?_eq_some h, hb⟩

theorem Separate.fits (h : d.Separate p) : (d.vars p).Fits p d.region d.own := by
  refine ⟨rfl, fun b hb hcaptured => ?_, fun b hb hplain => ?_⟩
  · cases hown : (d.vars p).own (p.binding b).index with
    | none =>
      have hnot := List.find?_eq_none.mp hown b hb
      simp [hcaptured] at hnot
    | some c =>
      obtain ⟨hc, -, hindex⟩ := vars_own hown
      rw [h.single c hc b hb hindex]
  · cases hown : (d.vars p).own (p.binding b).index with
    | none => rfl
    | some c =>
      obtain ⟨hc, hcaptured, hindex⟩ := vars_own hown
      rw [h.single c hc b hb hindex, hplain] at hcaptured
      cases hcaptured

theorem Separate.apart (h : d.Separate p) (hthreads : d.Threads p) (hplaces : d.Places p)
    (hframed : d.Framed p) : (d.vars p).Apart := by
  refine ⟨fun m n b hm hn => ?_, fun n b hn hfree => ?_, hthreads.distinct⟩
  · exact (vars_own hm).2.2.symm.trans (vars_own hn).2.2
  · obtain ⟨hb, -, -⟩ := vars_own hn
    rcases List.mem_append.mp hb with hparam | hdeclared
    · obtain ⟨j, hj⟩ := List.mem_iff_getElem?.mp hparam
      exact (hframed.params j b hj).2.2 hfree
    · obtain ⟨i, hi, hib⟩ := List.mem_filterMap.mp hdeclared
      cases i with
      | declares c =>
        obtain rfl := Option.some.inj hib
        exact hplaces.items _ hi (h.frame c hb) hfree
      | uses | makes => cases hib

end FunDecl

/-- Whether a function has its captured variables where its code looks for those that it names. -/
structure FunDecl.Locates (p : Program) (d : FunDecl (.slotted N C T W)) : Prop where
  uses : ∀ s, .uses s ∈ Items.block d.body → match s.place with
    | .global => (p.binding s.binding).storage = .global
    | .frame => s.binding ∈ d.own ∧ (p.binding s.binding).index = s.index
    | .free => (d.vars p).free[s.index]? = some s.binding
  own : ∀ b ∈ d.own, (d.vars p).own (p.binding b).index
    = if (p.binding b).captured then some b else none

theorem FunDecl.vars_congr {p q : Program} (h : ∀ b, q.binding b = p.binding b)
    (d : FunDecl (.slotted N C T W)) : d.vars q = d.vars p := by
  simp only [FunDecl.vars, h]

theorem FunDecl.Locates.congr {p q : Program} {d : FunDecl (.slotted N C T W)} (hd : d.Locates p)
    (h : ∀ b, q.binding b = p.binding b) : d.Locates q := by
  refine ⟨fun s hs => ?_, fun b hb => ?_⟩
  · rw [h, FunDecl.vars_congr h]
    exact hd.uses s hs
  · rw [h, FunDecl.vars_congr h]
    exact hd.own b hb

theorem FunDecl.Separate.locates {p : Program} {d : FunDecl (.slotted N C T W)} (h : d.Separate p)
    (hthreads : d.Threads p) (hplaces : d.Places p) : d.Locates p := by
  refine ⟨fun s hs => ?_, fun b hb => ?_⟩
  · have hthreaded := hthreads.items _ hs
    have hplaced := hplaces.items _ hs
    rw [Item.Threaded] at hthreaded
    rw [Item.Placed] at hplaced
    cases hplace : s.place with
    | global =>
      rw [hplace] at hplaced
      exact hplaced.1
    | frame =>
      rw [hplace] at hplaced
      exact hplaced
    | free => exact hthreaded hplace
  · split
    · rename_i hcaptured
      exact h.fits.cell b hb hcaptured
    · rename_i hplain
      exact h.fits.plain b hb (Bool.eq_false_iff.mpr hplain)

/-- Whether code can find captured variables in their places: it uses and makes closures of what is at
hand, and what it declares in its frame is the function's own. -/
structure Touches.Housed (vars : Ref → Option Vars) (p : Program) (R : Region) (own : List BindingId)
    (u : Touches) : Prop where
  items : ∀ i ∈ u.items, i.Threaded p R own ∧ i.Placed p R own
  stores : ∀ b ∈ Stores.declared u.stores, (p.binding b).storage = .frame → b ∈ own
  makes : ∀ info, .makes info ∈ u.items → ∀ f, p.funs[info.id]? = some f → ∃ r W, f.ref = some r ∧
    vars r = some W ∧ W.free = info.free.map (·.binding) ∧
      ∀ v ∈ info.free, (p.binding v.binding).captured = true

namespace Lowering

variable {vars : Ref → Option Vars} {K : Lowering} {V : Vars} {R : Region} {own : List BindingId}
  {u : Touches}

theorem finds_loadOp {b : BindingId} (hV : V.Fits K.program R own)
    (hb : (K.program.binding b).storage = .frame → b ∈ own) :
    V.Finds vars K.pool (.op (loadOp (K.program.binding b)) [(K.program.binding b).index]) := by
  rw [loadOp]
  split
  · trivial
  · rename_i hframe hcaptured
    exact ⟨b, hV.cell b (hb hframe) hcaptured⟩
  · trivial

theorem finds_declareOp {b : BindingId} (hV : V.Fits K.program R own)
    (hb : (K.program.binding b).storage = .frame → b ∈ own) :
    V.Finds vars K.pool (.op (declareOp (K.program.binding b)) [(K.program.binding b).index]) := by
  rw [declareOp]
  split
  · trivial
  · rename_i hframe hcaptured
    exact ⟨b, hV.cell b (hb hframe) hcaptured⟩
  · rename_i hframe hplain
    exact hV.plain b (hb hframe) hplain

theorem finds_assignOp {b : BindingId} (hV : V.Fits K.program R own)
    (hb : (K.program.binding b).storage = .frame → b ∈ own) :
    V.Finds vars K.pool (.op (assignOp (K.program.binding b)) [(K.program.binding b).index]) := by
  rw [assignOp]
  split
  · trivial
  · rename_i hframe hcaptured
    exact ⟨b, hV.cell b (hb hframe) hcaptured⟩
  · rename_i hframe hplain
    exact hV.plain b (hb hframe) hplain

theorem declared_of_mem {ss : List Store} {b : BindingId} (h : .declares b ∈ ss ∨ .names b ∈ ss) :
    b ∈ Stores.declared ss := by
  rcases h with h | h <;> exact List.mem_filterMap.mpr ⟨_, h, rfl⟩

theorem Does.finds {a : Asm} (h : K.Does u a) (hV : V.Fits K.program R own)
    (hu : u.Housed vars K.program R own) : V.Finds vars K.pool a := by
  cases h with
  | quiet hquiet =>
    cases a with
    | op c ns =>
      have hquiet : c.touches = false := hquiet
      cases c <;> trivial
    | closure => cases hquiet
    | _ => trivial
  | @reads s hused =>
    obtain ⟨hthreaded, hplaced⟩ := hu.items _ hused
    rw [loadSlotOp]
    rw [Item.Threaded] at hthreaded
    rw [Item.Placed] at hplaced
    cases hplace : s.place with
    | global => trivial
    | free =>
      show s.index < V.free.length
      rw [hV.free]
      exact (List.getElem?_eq_some_iff.mp (hthreaded hplace)).1
    | frame =>
      rw [hplace] at hplaced
      obtain ⟨hown, hindex⟩ := hplaced
      dsimp only
      split
      · rename_i hcaptured
        exact ⟨s.binding, hindex ▸ hV.cell _ hown hcaptured⟩
      · trivial
  | @writes s hused _ =>
    obtain ⟨hthreaded, hplaced⟩ := hu.items _ hused
    rw [storeSlotOp]
    rw [Item.Threaded] at hthreaded
    rw [Item.Placed] at hplaced
    cases hplace : s.place with
    | global => trivial
    | free =>
      show s.index < V.free.length
      rw [hV.free]
      exact (List.getElem?_eq_some_iff.mp (hthreaded hplace)).1
    | frame =>
      rw [hplace] at hplaced
      obtain ⟨hown, hindex⟩ := hplaced
      dsimp only
      split
      · rename_i hcaptured
        exact ⟨s.binding, hindex ▸ hV.cell _ hown hcaptured⟩
      · rename_i hplain
        exact hindex ▸ hV.plain _ hown (Bool.eq_false_iff.mpr hplain)
  | loads hdeclared => exact finds_loadOp hV (hu.stores _ (declared_of_mem (.inl hdeclared)))
  | declares hdeclared => exact finds_declareOp hV (hu.stores _ (declared_of_mem (.inl hdeclared)))
  | assigns hdeclared => exact finds_assignOp hV (hu.stores _ (declared_of_mem (.inl hdeclared)))
  | takes => trivial
  | names hnamed _ hstores =>
    have hown := hu.stores _ (declared_of_mem (.inr hnamed))
    rcases hstores with rfl | rfl
    · exact finds_declareOp hV hown
    · exact finds_assignOp hV hown
  | @makes info f k hmade hlisted hheld =>
    obtain ⟨r, W, hr, hW, hfree, hcaptured⟩ := hu.makes info hmade f hlisted
    obtain ⟨w, hw, hkey⟩ := hheld
    rw [hr] at hkey
    obtain rfl := Value.eq_of_constKey_func hkey
    refine ⟨r, W, hw, hW, ?_⟩
    rw [hfree, List.forall₂_map_left_iff, List.forall₂_map_right_iff, List.forall₂_same]
    intro v hv
    have hthreaded := (hu.items _ hmade).1 v hv
    rw [Vars.Gives]
    dsimp only
    split
    · rename_i hframe
      rw [if_pos hframe] at hthreaded
      rw [hthreaded.2]
      exact hV.cell _ hthreaded.1 (hcaptured v hv)
    · rename_i hframe
      rw [if_neg hframe] at hthreaded
      rw [hV.free]
      exact hthreaded

theorem DoesAll.finds {c : Assembly} (h : K.DoesAll u c) (hV : V.Fits K.program R own)
    (hu : u.Housed vars K.program R own) : ∀ a ∈ c.map (·.asm), V.Finds vars K.pool a := by
  intro a ha
  obtain ⟨l, hl, rfl⟩ := List.mem_map.mp ha
  exact (h l hl).finds hV hu

end Lowering

end Scripting

import Mathlib.Data.Set.Function
import Scripting.Proofs.Bundle.Collected

/-!
# Bundles keep the graph of a script

`ofScript_collects` says what a bundle holds: each function that the script reaches, once. Linking
makes a function for each of them, and `Pictured` says that it is like the original, with constants
that are `Alike` position by position. Functions are made before the first constant is read, so a
constant can lead to any of them; from then on linking only adds instances and fills in bodies. The
two graphs then have the same edges, and `ofScript_link` puts this together.
-/

namespace Scripting.Bundle

variable {h g g' : Heap} {resolve : String → StateM Heap (Option Value)} {image : Ref → Ref}

theorem mem_of_reaches {order : List Ref} {script r : Ref} (hs : script ∈ order)
    (hstored : ∀ q ∈ order, ∃ f, Stores h order q f) (hr : h.Reaches script r) : r ∈ order := by
  induction hr with
  | refl => exact hs
  | tail _ huses ih =>
    obtain ⟨f, c, hb, v, hv, hholds⟩ := huses
    obtain ⟨g, hg⟩ := hstored _ ih
    obtain ⟨f', c', hb', -, -, -, -, -, -, -, hconstants⟩ := hg.body
    obtain ⟨rfl, rfl⟩ := hb.unique hb'
    obtain ⟨k, hk, rfl⟩ := Array.mem_iff_getElem.mp hv
    have hlength := hconstants.length_eq
    have hcoded := (List.forall₂_iff_get.mp hconstants).2 k (by simpa using hk) (by simp at hlength; omega)
    exact Coded.mem_of_holds hcoded (by simpa using hholds)

theorem ofScript_collects {script : Ref} (hready : ∀ r, h.Reaches script r → h.Ready r)
    (globals : List String) (file : String) :
    ∃ (order : List Ref) (functions : List Function) (i : Nat),
      ofScript h script globals file
          = .ok { sourceFile := file, globals, functions, script := (i : Int) } ∧
        order.Nodup ∧ (∀ r, r ∈ order ↔ h.Reaches script r) ∧ order[i]? = some script ∧
          List.Forall₂ (Stores h order) order functions := by
  have hempty : ({} : Collected).Sound h := ⟨rfl, by simp, by simp⟩
  have hone : ∀ v, h.Storable v → h.Clear v → Collects h (depthBound h) (h.insts.size + 1)
      (fun q => ∃ p, h.Holds v (.func p) ∧ h.Reaches p q) (constant h (depthBound h) v)
        fun refs c => Coded h refs v c := fun v hv hc => constant_collects _ hv.nested hc
  have hroom : ({} : Collected).left h * (h.insts.size + 2) + 0 ≤ depthBound h := by
    simp only [Collected.left, depthBound, Array.size_empty, Nat.sub_zero, Nat.add_zero]
    exact Nat.mul_le_mul_right _ (Nat.le_succ _)
  obtain ⟨i, s, hrun, hadds, hi⟩ := store_collects hready hone {} hempty hroom
  have hstored : ∀ (k : Nat) r, s.refs.toList[k]? = some r → h.Reaches script r ∧
      ∃ f, s.functions.toList[k]? = some f ∧ Stores h s.refs.toList r f := fun k r hk => by
    simpa using hadds.new k r (Nat.zero_le _) (by simpa using hk)
  have hlength : s.refs.toList.length = s.functions.toList.length := by simp [hadds.sound.size]
  refine ⟨s.refs.toList, s.functions.toList, i, ?_, hadds.sound.distinct, fun r => ⟨fun hr => ?_, ?_⟩,
    hi, List.forall₂_iff_get.mpr ⟨hlength, fun k hk hk' => ?_⟩⟩
  · simp only [ofScript, hrun]
  · obtain ⟨k, hk⟩ := List.mem_iff_getElem?.mp hr
    exact (hstored k r hk).1
  · refine mem_of_reaches (List.mem_of_getElem? hi) fun q hq => ?_
    obtain ⟨k, hk⟩ := List.mem_iff_getElem?.mp hq
    obtain ⟨f, -, hf⟩ := (hstored k q hk).2
    exact ⟨f, hf⟩
  · obtain ⟨f, hf, hstores⟩ := (hstored k _ (List.getElem?_eq_getElem hk)).2
    obtain rfl := Option.some.inj ((List.getElem?_eq_getElem hk').symm.trans hf)
    exact hstores

/-- Whether a linker finds a function of the host. It may take identities for it, but makes no function
and no instance. -/
def Finds (resolve : String → StateM Heap (Option Value)) (name : String) : Prop :=
  ∀ g : Heap, ∃ i b g', (resolve name).run g = (some (.builtin i b), g') ∧
    g'.funcs = g.funcs ∧ g'.insts = g.insts

/-- Whether a value of another heap is like one of the first, when the functions have these images.
Functions of the host are those that the linker gives for their names. -/
inductive Alike (h : Heap) (resolve : String → StateM Heap (Option Value)) (image : Ref → Ref)
    (g : Heap) : Value → Value → Prop
  | int (n : Int64) : Alike h resolve image g (.int n) (.int n)
  | float (x : Double) : Alike h resolve image g (.float x) (.float x)
  | str (s : String) : Alike h resolve image g (.str s) (.str s)
  | bool (b : Bool) : Alike h resolve image g (.bool b) (.bool b)
  | char (c : Int32) : Alike h resolve image g (.char c) (.char c)
  | unit : Alike h resolve image g .unit .unit
  | func (r : Ref) : Alike h resolve image g (.func r) (.func (image r))
  | builtin (i : Nat) {j : Nat} {b c : Builtin} {a a' : Heap}
      (hc : (resolve b.name).run a = (some (.builtin j c), a')) :
      Alike h resolve image g (.builtin i b) (.builtin j c)
  | ctor (i j : Nat) (c : Ctor) : Alike h resolve image g (.ctor i c) (.ctor j c)
  | type (i j : Nat) {t u : Ty} (htext : u.text = t.text) :
      Alike h resolve image g (.type i t) (.type j u)
  | inst {i j : Ref} {x y : Instance} (hx : h.inst? i = some x) (hy : g.inst? j = some y)
      (htype : y.typeName = x.typeName) (htag : y.tag = x.tag) (hnames : y.fieldNames = x.fieldNames)
      (hsize : y.fields.size = x.fields.size)
      (hfields : ∀ (k : Nat) v w, x.fields[k]? = some v → y.fields[k]? = some w →
        Alike h resolve image g v w) :
      Alike h resolve image g (.inst i) (.inst j)

/-- Whether the image of a function is a function like it. -/
def Pictured (h : Heap) (resolve : String → StateM Heap (Option Value)) (image : Ref → Ref) (g : Heap)
    (r : Ref) : Prop :=
  ∃ f c f' c', h.Body r f c ∧ g.Body (image r) f' c' ∧ f'.name = f.name ∧ f'.arity = f.arity ∧
    f'.localCount = f.localCount ∧ f'.freeCount = f.freeCount ∧ c'.code = c.code ∧
      c'.lines = c.lines ∧ c'.file = c.file ∧
        List.Forall₂ (Alike h resolve image g) c.constants.toList c'.constants.toList

def Keeps (g g' : Heap) : Prop := g.insts.toList <+: g'.insts.toList

theorem Keeps.inst {i : Ref} {x : Instance} (hk : Keeps g g') (hx : g.inst? i = some x) :
    g'.inst? i = some x := by
  rw [Heap.inst?, ← Array.getElem?_toList] at *
  exact get?_of_isPrefix hk hx

theorem Keeps.withFuncs {funcs : Array Scripting.Function} : Keeps g { g with funcs } :=
  List.prefix_rfl

theorem Alike.later {v w : Value} (hk : Keeps g g') (ha : Alike h resolve image g v w) :
    Alike h resolve image g' v w := by
  induction ha with
  | inst hx hy htype htag hnames hsize _ ih =>
    exact .inst hx (hk.inst hy) htype htag hnames hsize ih
  | builtin i hc => exact .builtin i hc
  | type i j htext => exact .type i j htext
  | _ => constructor

theorem Pictured.later {r : Ref} (hk : Keeps g g') (hfunc : g'.func? (image r) = g.func? (image r))
    (hp : Pictured h resolve image g r) : Pictured h resolve image g' r := by
  obtain ⟨f, c, f', c', hb, hb', hname, harity, hlocals, hfree, hcode, hlines, hfile, hcs⟩ := hp
  exact ⟨f, c, f', c', hb, ⟨hfunc.trans hb'.1, hb'.2⟩, hname, harity, hlocals, hfree, hcode, hlines,
    hfile, hcs.imp fun _ _ => .later hk⟩

theorem Alike.holds {v w : Value} (ha : Alike h resolve image g v w) {r : Ref}
    (hr : h.Holds v (.func r)) : g.Holds w (.func (image r)) := by
  induction ha with
  | func q =>
    cases hr
    exact .self _
  | inst hx hy _ _ _ hsize _ ih =>
    cases hr with
    | inst hx' hv hw =>
      obtain rfl := Option.some.inj (hx'.symm.trans hx)
      obtain ⟨k, hk, rfl⟩ := Array.mem_iff_getElem.mp hv
      have hky := hsize ▸ hk
      exact .inst hy (Array.getElem_mem hky)
        (ih k _ _ (Array.getElem?_eq_getElem hk) (Array.getElem?_eq_getElem hky) hw)
  | _ => cases hr

theorem Alike.of_holds {v w : Value} (ha : Alike h resolve image g v w) {s : Ref}
    (hs : g.Holds w (.func s)) : ∃ r, h.Holds v (.func r) ∧ image r = s := by
  induction ha with
  | func q =>
    cases hs
    exact ⟨q, .self _, rfl⟩
  | inst hx hy _ _ _ hsize _ ih =>
    cases hs with
    | inst hy' hw hv =>
      obtain rfl := Option.some.inj (hy'.symm.trans hy)
      obtain ⟨k, hk, rfl⟩ := Array.mem_iff_getElem.mp hw
      have hkx := hsize ▸ hk
      obtain ⟨r, hr, himage⟩ :=
        ih k _ _ (Array.getElem?_eq_getElem hkx) (Array.getElem?_eq_getElem hk) hv
      exact ⟨r, .inst hx (Array.getElem_mem hkx) hr, himage⟩
  | _ => cases hs

theorem Pictured.uses {r s : Ref} (hp : Pictured h resolve image g r) :
    g.Uses (image r) s ↔ ∃ q, h.Uses r q ∧ image q = s := by
  obtain ⟨f, c, f', c', hb, hb', -, -, -, -, -, -, -, hcs⟩ := hp
  constructor
  · rintro ⟨f₁, c₁, hb₁, w, hw, hs⟩
    obtain ⟨rfl, rfl⟩ := hb'.unique hb₁
    obtain ⟨k, hk, rfl⟩ := List.mem_iff_getElem.mp (Array.mem_toList_iff.mpr hw)
    have hkc : k < c.constants.toList.length := hcs.length_eq ▸ hk
    obtain ⟨q, hq, himage⟩ := ((List.forall₂_iff_get.mp hcs).2 k hkc hk).of_holds hs
    exact ⟨q, ⟨f, c, hb, _, Array.mem_toList_iff.mp (List.getElem_mem hkc), hq⟩, himage⟩
  · rintro ⟨q, ⟨f₁, c₁, hb₁, v, hv, hq⟩, rfl⟩
    obtain ⟨rfl, rfl⟩ := hb.unique hb₁
    obtain ⟨k, hk, rfl⟩ := List.mem_iff_getElem.mp (Array.mem_toList_iff.mpr hv)
    have hkc : k < c'.constants.toList.length := hcs.length_eq ▸ hk
    have halike := (List.forall₂_iff_get.mp hcs).2 k hk hkc
    exact ⟨f', c', hb', _, Array.mem_toList_iff.mp (List.getElem_mem hkc), halike.holds hq⟩

theorem reaches_image {script : Ref} (hp : ∀ r, h.Reaches script r → Pictured h resolve image g r)
    {s : Ref} : g.Reaches (image script) s ↔ ∃ r, h.Reaches script r ∧ image r = s := by
  constructor
  · intro hs
    induction hs with
    | refl => exact ⟨script, .refl, rfl⟩
    | tail _ huses ih =>
      obtain ⟨r, hr, rfl⟩ := ih
      obtain ⟨q, hq, rfl⟩ := (hp r hr).uses.mp huses
      exact ⟨q, hr.tail hq, rfl⟩
  · rintro ⟨r, hr, rfl⟩
    induction hr with
    | refl => exact .refl
    | tail hr huses ih => exact ih.tail ((hp _ hr).uses.mpr ⟨_, huses, rfl⟩)

/-- Whether a stored constant is loaded as a value like another, in every heap, adding only
instances. -/
def Loads (h : Heap) (resolve : String → StateM Heap (Option Value)) (image : Ref → Ref)
    (funcs : Array Ref) (v : Value) (c : Constant) : Prop :=
  ∀ g : Heap, ∃ w g', (load resolve funcs c).run.run g = (.ok w, g') ∧ g'.funcs = g.funcs ∧
    Keeps g g' ∧ Alike h resolve image g' v w

theorem mapM_load {funcs : Array Ref} {vs : List Value} {cs : List Constant}
    (hcs : List.Forall₂ (Loads h resolve image funcs) vs cs) (g : Heap) :
    ∃ ws g', (cs.mapM (load resolve funcs)).run.run g = (.ok ws, g') ∧ g'.funcs = g.funcs ∧
      Keeps g g' ∧ List.Forall₂ (Alike h resolve image g') vs ws := by
  induction hcs generalizing g with
  | nil => exact ⟨[], g, rfl, rfl, List.prefix_rfl, .nil⟩
  | cons hc _ ih =>
    obtain ⟨w, g₁, hrun, hfuncs, hkeeps, hw⟩ := hc g
    obtain ⟨ws, g₂, hrun', hfuncs', hkeeps', hws⟩ := ih g₁
    refine ⟨w :: ws, g₂, ?_, hfuncs'.trans hfuncs, hkeeps.trans hkeeps', .cons (hw.later hkeeps') hws⟩
    rw [List.mapM_cons, run_bind hrun, run_bind hrun']
    rfl

theorem loadAll_eq (funcs : Array Ref) (cs : List Constant) :
    load.loadAll resolve funcs cs = cs.mapM (load resolve funcs) := by
  induction cs with
  | nil => rfl
  | cons c cs ih => rw [load.loadAll, List.mapM_cons, ih]

theorem run_monadLift {α : Type} {m : StateM Heap α} {a : α} (hm : m.run g = (a, g')) :
    (monadLift m : Linking α).run.run g = (.ok a, g') := by
  have hrun : (monadLift m : Linking α).run.run g = (.ok (m.run g).1, (m.run g).2) := rfl
  rw [hrun, hm]

theorem Coded.loads {order : List Ref} {funcs : Array Ref}
    (hfuncs : ∀ (i : Nat) r, order[i]? = some r → funcs[i]? = some (image r)) {v : Value} {c : Constant}
    (hc : Coded h order v c)
    (hfinds : ∀ i b, h.Holds v (.builtin i b) → Finds resolve b.name) :
    Loads h resolve image funcs v c := by
  induction hc with
  | func hi =>
    intro g
    refine ⟨_, g, ?_, rfl, List.prefix_rfl, .func _⟩
    simp only [load, hfuncs _ _ hi, Int.toNat_natCast]
    rfl
  | char c =>
    intro g
    exact ⟨_, g, by rw [load, Int32.toInt32_toInt64]; rfl, rfl, List.prefix_rfl, .char c⟩
  | builtin i b =>
    intro g
    obtain ⟨j, b', g', hrun, hkept, hinsts⟩ := hfinds i b (.self _) g
    refine ⟨.builtin j b', g', ?_, hkept, by rw [Keeps, hinsts], .builtin i hrun⟩
    rw [load, run_bind (run_monadLift hrun)]
    rfl
  | ctor i c => exact fun g => ⟨_, _, rfl, rfl, List.prefix_rfl, .ctor ..⟩
  | type i t => exact fun g => ⟨_, _, rfl, rfl, List.prefix_rfl, .type _ _ rfl⟩
  | @inst i x cs hx hlength _ ih =>
    intro g
    have hfields : List.Forall₂ (Loads h resolve image funcs) x.fields.toList cs := by
      refine List.forall₂_iff_get.mpr ⟨by simp [hlength], fun k hk hk' => ?_⟩
      refine ih k _ _ (by simp) (List.getElem?_eq_getElem hk') fun i b hib => ?_
      exact hfinds i b (.inst hx (by simp) hib)
    obtain ⟨ws, g₁, hrun, hkept, hkeeps, hws⟩ := mapM_load hfields g
    let y : Instance := ⟨x.typeName, x.tag, x.fieldNames, ws.toArray⟩
    have hkeeps' : Keeps g₁ (g₁.newInst y).2 := by simp [Keeps, Heap.newInst]
    refine ⟨.inst g₁.insts.size, (g₁.newInst y).2, ?_, hkept, hkeeps.trans hkeeps', ?_⟩
    · rw [load, loadAll_eq, run_bind hrun]
      rfl
    · have hy : (g₁.newInst y).2.inst? g₁.insts.size = some y := by simp [Heap.inst?, Heap.newInst]
      refine .inst hx hy rfl rfl rfl (by simpa [y] using hws.length_eq.symm) fun k v w hv hw => ?_
      obtain ⟨hkv, rfl⟩ := Array.getElem?_eq_some_iff.mp hv
      obtain ⟨hkw, rfl⟩ := Array.getElem?_eq_some_iff.mp hw
      exact ((List.forall₂_iff_get.mp hws).2 k (by simpa using hkv) (by simpa [y] using hkw)).later hkeeps'
  | _ => exact fun g => ⟨_, g, rfl, rfl, List.prefix_rfl, by constructor⟩

def shell (f : Function) : Scripting.Function :=
  { name := f.name, arity := f.arity, localCount := f.localCount, freeCount := f.freeCount }

theorem shells_run (fs : List Function) (g : Heap) :
    (fs.mapM fun f => (modifyGet fun h => h.newFunc (shell f) : Linking Ref)).run.run g
      = (.ok (List.range' g.funcs.size fs.length),
          { g with funcs := g.funcs ++ (fs.map shell).toArray }) := by
  induction fs generalizing g with
  | nil => simp; rfl
  | cons f fs ih =>
    have hone : (modifyGet fun h => h.newFunc (shell f) : Linking Ref).run.run g
        = (.ok g.funcs.size, (g.newFunc (shell f)).2) := rfl
    rw [List.mapM_cons, run_bind hone, run_bind (ih _)]
    simp [Heap.newFunc, List.range'_succ]
    rfl

def bodyOf (f : Function) (ws : List Value) : Chunk :=
  { code := f.code.toArray, spare := [], lines := f.lines.toArray, constants := ws.toArray, file := f.file }

theorem loadBody_run {funcs : Array Ref} {f : Function} {q : Ref} {ws : List Value}
    (hrun : (f.constants.mapM (load resolve funcs)).run.run g = (.ok ws, g')) :
    (loadBody resolve funcs f q).run.run g = (.ok (),
      { g' with funcs := g'.funcs.modify q fun x => { x with chunk := some (bodyOf f ws) } }) := by
  rw [loadBody, run_bind (run_tryCatch_ok hrun)]
  rfl

theorem loadBody_pictured {order : List Ref} {funcs : Array Ref} {r : Ref} {f : Function}
    (hfuncs : ∀ (i : Nat) r, order[i]? = some r → funcs[i]? = some (image r)) (hf : Stores h order r f)
    (hfinds : ∀ f c, h.Body r f c → ∀ v ∈ c.constants, ∀ i b, h.Holds v (.builtin i b) →
      Finds resolve b.name)
    (hshell : g.func? (image r) = some (shell f)) :
    ∃ g', (loadBody resolve funcs f (image r)).run.run g = (.ok (), g') ∧ Keeps g g' ∧
      Pictured h resolve image g' r ∧ ∀ q, q ≠ image r → g'.func? q = g.func? q := by
  obtain ⟨o, c, hb, hname, harity, hlocals, hfree, hcode, hlines, hfile, hcs⟩ := hf.body
  have hloads : List.Forall₂ (Loads h resolve image funcs) c.constants.toList f.constants := by
    refine List.forall₂_iff_get.mpr ⟨hcs.length_eq, fun k hk hk' => ?_⟩
    exact ((List.forall₂_iff_get.mp hcs).2 k hk hk').loads hfuncs fun i b hib =>
      hfinds o c hb _ (by simp) i b hib
  obtain ⟨ws, g₁, hrun, hkept, hkeeps, hws⟩ := mapM_load hloads g
  refine ⟨_, loadBody_run hrun, hkeeps, ?_, fun q hq => ?_⟩
  · have hfunc : g₁.funcs[image r]? = some (shell f) := by rw [hkept]; exact hshell
    refine ⟨o, c, { shell f with chunk := some (bodyOf f ws) }, bodyOf f ws, hb, ⟨?_, rfl⟩, hname,
      harity, hlocals, hfree, ?_, ?_, hfile, ?_⟩
    · simp [Heap.func?, Array.getElem?_modify, hfunc]
    · simp [bodyOf, hcode]
    · simp [bodyOf, hlines]
    · exact hws.imp fun v w => .later .withFuncs
  · simp only [Heap.func?, Array.getElem?_modify, if_neg hq.symm, hkept]

theorem bodies_pictured {order : List Ref} {funcs : Array Ref}
    (hfuncs : ∀ (i : Nat) r, order[i]? = some r → funcs[i]? = some (image r)) {rs : List Ref}
    {fs : List Function} (hstores : List.Forall₂ (Stores h order) rs fs)
    (hfinds : ∀ r ∈ rs, ∀ f c, h.Body r f c → ∀ v ∈ c.constants, ∀ i b, h.Holds v (.builtin i b) →
      Finds resolve b.name) (hnodup : (rs.map image).Nodup) (g : Heap)
    (hshells : List.Forall₂ (fun r f => g.func? (image r) = some (shell f)) rs fs) :
    ∃ g', ((fs.zip (rs.map image)).forM fun (f, q) => loadBody resolve funcs f q).run.run g
        = (.ok (), g') ∧ Keeps g g' ∧ (∀ r ∈ rs, Pictured h resolve image g' r) ∧
          ∀ q, q ∉ rs.map image → g'.func? q = g.func? q := by
  induction hstores generalizing g with
  | nil => exact ⟨g, rfl, List.prefix_rfl, by simp, fun _ _ => rfl⟩
  | @cons r f rs fs hf _ ih =>
    obtain ⟨hshell, hrest⟩ := List.forall₂_cons.mp hshells
    obtain ⟨hnew, hnodup⟩ := List.nodup_cons.mp hnodup
    obtain ⟨g₁, hrun, hkeeps, hpictured, hothers⟩ :=
      loadBody_pictured hfuncs hf (hfinds r List.mem_cons_self) hshell
    have hrest' : List.Forall₂ (fun r f => g₁.func? (image r) = some (shell f)) rs fs := by
      refine List.forall₂_iff_get.mpr ⟨hrest.length_eq, fun k hk hk' => ?_⟩
      have hne : image (rs[k]) ≠ image r := fun he =>
        hnew (he ▸ List.mem_map_of_mem (List.getElem_mem hk))
      exact (hothers _ hne).trans ((List.forall₂_iff_get.mp hrest).2 k hk hk')
    obtain ⟨g₂, hrun', hkeeps', hpictured', hothers'⟩ :=
      ih (fun q hq => hfinds q (List.mem_cons_of_mem _ hq)) hnodup g₁ hrest'
    refine ⟨g₂, ?_, hkeeps.trans hkeeps', fun q hq => ?_, fun q hq => ?_⟩
    · exact (run_bind hrun).trans hrun'
    · rcases List.mem_cons.mp hq with rfl | hq
      · exact hpictured.later hkeeps' (hothers' _ hnew)
      · exact hpictured' q hq
    · rw [List.map_cons, List.mem_cons, not_or] at hq
      exact (hothers' q hq.2).trans (hothers q hq.1)

/-- Linking gives every function of a bundle its picture. The images are the places behind the
functions that are there. -/
theorem link_pictured {order : List Ref} {b : Bundle} {i : Nat} {script : Ref}
    (hnodup : order.Nodup) (hstores : List.Forall₂ (Stores h order) order b.functions)
    (hi : b.script = (i : Int)) (hscript : order[i]? = some script)
    (hfinds : ∀ r ∈ order, ∀ f c, h.Body r f c → ∀ v ∈ c.constants, ∀ i b, h.Holds v (.builtin i b) →
      Finds resolve b.name) (g : Heap) :
    ∃ image g', (b.link resolve).run.run g = (.ok (image script), g') ∧
      (order.map image).Nodup ∧ ∀ r ∈ order, Pictured h resolve image g' r := by
  let image : Ref → Ref := fun r => g.funcs.size + order.idxOf r
  have hplaces : order.map image = List.range' g.funcs.size b.functions.length := by
    refine List.ext_getElem (by simp [hstores.length_eq]) fun k hk _ => ?_
    simp only [image, List.getElem_map, List.getElem_range', Nat.one_mul]
    rw [List.Nodup.idxOf_getElem hnodup]
  have hfuncs : ∀ (i : Nat) r, order[i]? = some r →
      (List.range' g.funcs.size b.functions.length).toArray[i]? = some (image r) := fun i r hi => by
    rw [← hplaces]
    simp [hi]
  have hshells : List.Forall₂ (fun r f =>
      ({ g with funcs := g.funcs ++ (b.functions.map shell).toArray } : Heap).func? (image r)
        = some (shell f)) order b.functions := by
    refine List.forall₂_iff_get.mpr ⟨hstores.length_eq, fun k hk hk' => ?_⟩
    simp only [List.get_eq_getElem, image, List.Nodup.idxOf_getElem hnodup, Heap.func?]
    rw [Array.getElem?_append_right (by omega)]
    simp only [Nat.add_sub_cancel_left, List.getElem?_toArray, List.getElem?_map,
      List.getElem?_eq_getElem hk', Option.map_some]
  have hnodup' : (order.map image).Nodup := hplaces ▸ List.nodup_range'
  obtain ⟨g', hrun, -, hpictured, -⟩ := bodies_pictured hfuncs hstores hfinds hnodup' _ hshells
  refine ⟨image, g', ?_, hnodup', hpictured⟩
  rw [hplaces] at hrun
  refine (run_bind (shells_run b.functions g)).trans ((run_bind hrun).trans ?_)
  simp only [hi, Int.toNat_natCast, Array.getD_eq_getD_getElem?, hfuncs i script hscript, Option.getD_some]
  rfl

/-- Storing a script and linking it again. Functions may refer to each other in any way, and constants
may share instances; each function that the script reaches is stored once and gets one picture, and the
pictures are what the linked script reaches. -/
theorem ofScript_link {script : Ref} (hready : ∀ r, h.Reaches script r → h.Ready r)
    (hfinds : ∀ name, h.Mentions script name → Finds resolve name) (globals : List String)
    (file : String) (g : Heap) :
    ∃ (b : Bundle) (order : List Ref) (image : Ref → Ref) (g' : Heap),
      ofScript h script globals file = .ok b ∧
        order.Nodup ∧ (∀ r, r ∈ order ↔ h.Reaches script r) ∧
          List.Forall₂ (Stores h order) order b.functions ∧
        (b.link resolve).run.run g = (.ok (image script), g') ∧
          Set.BijOn image {r | h.Reaches script r} {s | g'.Reaches (image script) s} ∧
            ∀ r, h.Reaches script r → Pictured h resolve image g' r := by
  obtain ⟨order, functions, i, hrun, hnodup, hmem, hscript, hstores⟩ :=
    ofScript_collects hready globals file
  obtain ⟨image, g', hlink, himages, hpictured⟩ :=
    link_pictured (b := { sourceFile := file, globals, functions, script := (i : Int) }) hnodup hstores
      rfl hscript (fun r hr f c hb v hv i b hib =>
      hfinds b.name ⟨r, f, c, (hmem r).mp hr, hb, v, hv, i, b, hib, rfl⟩) g
  have hall : ∀ r, h.Reaches script r → Pictured h resolve image g' r := fun r hr =>
    hpictured r ((hmem r).mpr hr)
  refine ⟨_, order, image, g', hrun, hnodup, hmem, hstores, hlink, ⟨?_, ?_, ?_⟩, hall⟩
  · exact fun r hr => (reaches_image hall).mpr ⟨r, hr, rfl⟩
  · exact fun r hr q hq he =>
      List.inj_on_of_nodup_map himages ((hmem r).mpr hr) ((hmem q).mpr hq) he
  · exact fun s hs => (reaches_image hall).mp hs

/-- A script with two functions that call each other. One of them is also reached through an instance
that it shares with the script. -/
def ring : Heap :=
  { insts := #[⟨"Pair", "", ["left", "right"], #[.func 2, .builtin 5 ⟨"print", some .print⟩]⟩]
    funcs := #[
      { name := "<script>", chunk := some { constants := #[.func 1, .inst 0] } },
      { name := "even", arity := 1, chunk := some { constants := #[.func 2, .inst 0] } },
      { name := "odd", arity := 1, chunk := some { constants := #[.func 1] } }] }

/-- A linker that knows one function. -/
def onlyPrint (name : String) : StateM Heap (Option Value) :=
  if name = "print" then modifyGet fun h => (some (.builtin h.nextId ⟨name, some .print⟩), h.newId.2)
  else pure none

theorem ring_constant {r : Nat} {f : Scripting.Function} {c : Chunk} (hb : ring.Body r f c) {v : Value}
    (hv : v ∈ c.constants) : v = .func 1 ∨ v = .func 2 ∨ v = .inst 0 := by
  obtain ⟨hf, hc⟩ := hb
  have hr : r < 3 := (Array.getElem?_eq_some_iff.mp hf).1
  obtain rfl | rfl | rfl : r = 0 ∨ r = 1 ∨ r = 2 := by omega
  all_goals
    cases hf
    cases hc
    simp only [List.mem_toArray, List.mem_cons, List.not_mem_nil, or_false] at hv
    tauto

theorem ring_holds {v w : Value} (hv : v = .func 1 ∨ v = .func 2 ∨ v = .inst 0)
    (hw : ring.Holds v w) : w = .func 1 ∨ w = .func 2 ∨ w = .inst 0 ∨
      w = .builtin 5 ⟨"print", some .print⟩ := by
  cases hw with
  | self => tauto
  | @inst i x u _ hx hu hw =>
    obtain rfl : i = 0 := by simpa using hv
    cases hx
    have hu' : u = .func 2 ∨ u = .builtin 5 ⟨"print", some .print⟩ := by simpa [ring] using hu
    rcases hu' with rfl | rfl <;> cases hw <;> simp

theorem ring_ready {r : Nat} (hr : r < 3) : ring.Ready r := by
  have hbody : ∃ f c, ring.Body r f c := by
    obtain rfl | rfl | rfl : r = 0 ∨ r = 1 ∨ r = 2 := by omega
    all_goals exact ⟨_, _, rfl, rfl⟩
  obtain ⟨f, c, hb⟩ := hbody
  refine ⟨f, c, hb, fun v hv => ?_⟩
  rcases ring_constant hb hv with rfl | rfl | rfl
  · exact .func 1
  · exact .func 2
  · refine .inst (x := ⟨"Pair", "", ["left", "right"], #[.func 2, .builtin 5 ⟨"print", some .print⟩]⟩)
      rfl ?_
    simp only [List.mem_toArray, List.mem_cons, List.not_mem_nil, or_false]
    rintro v (rfl | rfl) <;> constructor

theorem ring_reaches {r : Nat} (hr : ring.Reaches 0 r) : r < 3 := by
  induction hr with
  | refl => decide
  | tail _ huses _ =>
    obtain ⟨f, c, hb, v, hv, hholds⟩ := huses
    rcases ring_holds (ring_constant hb hv) hholds with h | h | h | h <;> cases h <;> decide

theorem ring_mentions {name : String} (hname : ring.Mentions 0 name) : Finds onlyPrint name := by
  obtain ⟨r, f, c, -, hb, v, hv, i, b, hib, rfl⟩ := hname
  have hprint := ring_holds (ring_constant hb hv) hib
  simp only [reduceCtorEq, Value.builtin.injEq, false_or] at hprint
  obtain ⟨-, rfl⟩ := hprint
  exact fun g => ⟨_, _, _, rfl, rfl, rfl⟩

/-- The ring is stored and linked into the heap of a new program. -/
theorem ofScript_link_ring :
    ∃ (b : Bundle) (order : List Ref) (image : Ref → Ref) (g' : Heap),
      ofScript ring 0 ["x"] "a.jz" = .ok b ∧
        order.Nodup ∧ (∀ r, r ∈ order ↔ ring.Reaches 0 r) ∧
          List.Forall₂ (Stores ring order) order b.functions ∧
        (b.link onlyPrint).run.run .initial = (.ok (image 0), g') ∧
          Set.BijOn image {r | ring.Reaches 0 r} {s | g'.Reaches (image 0) s} ∧
            ∀ r, ring.Reaches 0 r → Pictured ring onlyPrint image g' r :=
  ofScript_link (fun _ hr => ring_ready (ring_reaches hr)) (fun _ => ring_mentions) ["x"] "a.jz" .initial

end Scripting.Bundle

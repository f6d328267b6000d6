import Scripting.Proofs.Machine.Globals
import Scripting.Proofs.Script.Compiled
import Scripting.Proofs.Script.Inner
import Scripting.Proofs.Script.Variables
import Scripting.Proofs.Slots.Filled

/-!
# What code does with global slots

The global slots that code reads and writes are those of bindings, and it stores into no slot of a
binding whose value is known: `Lowering.DoesAll.reaches`. The script of a batch is different only in that
it first stores what is known of the globals that wait: `script_minds`.
-/

namespace Scripting

open Program

def Opcode.isGlobal : Opcode → Bool
  | .getGlobal | .setGlobal => true
  | _ => false

/-- Whether code reads and writes slots of globals only, and writes none whose value is known. -/
def Reaches (p : Program) (as : List Asm) : Prop :=
  ∀ c n, .op c [n] ∈ as → c.isGlobal = true → ∃ b, (p.binding b).storage = .global ∧
    (p.binding b).index = n ∧ (c = .setGlobal → b < p.bindings.size ∧ (p.binding b).Plain)

def Touches.Found (p : Program) (u : Touches) : Prop :=
  ∀ s, .uses s ∈ u.items → s.place = .global →
    (p.binding s.binding).storage = .global ∧ (p.binding s.binding).index = s.index

/-- Whether the globals that code uses are found, and it stores into none whose value is known. -/
structure Touches.Open (p : Program) (u : Touches) : Prop where
  found : u.Found p
  fair : ∀ s ∈ u.stores, s.Fair p

namespace Lowering

variable {K : Lowering} {u : Touches}

theorem global_of_declareOp {x : Binding} (h : (declareOp x).isGlobal = true) : x.storage = .global := by
  rw [declareOp] at h
  split at h
  · assumption
  · cases h
  · cases h

theorem global_of_assignOp {x : Binding} (h : (assignOp x).isGlobal = true) : x.storage = .global := by
  rw [assignOp] at h
  split at h
  · assumption
  · cases h
  · cases h

theorem Does.global {a : Asm} (h : K.Does u a) (hu : u.Found K.program) {c : Opcode} {n : Nat}
    (ha : a = .op c [n]) (hc : c.isGlobal = true) : ∃ b, (K.program.binding b).storage = .global ∧
      (K.program.binding b).index = n ∧ (c = .setGlobal → .declares b ∈ u.stores ∨
        ∃ s, .assigns s ∈ u.stores ∧ s.place = .global ∧ s.binding = b) := by
  cases h with
  | quiet htouches =>
    subst ha
    have hquiet : c.touches = false := htouches
    cases c <;> first | exact absurd hc (by decide) | exact absurd hquiet (by decide)
  | @reads s hused =>
    obtain ⟨rfl, hn⟩ := Asm.op.inj ha
    obtain ⟨rfl, -⟩ := List.cons.inj hn
    rw [loadSlotOp] at hc ⊢
    cases hplace : s.place with
    | global =>
      obtain ⟨hstorage, hindex⟩ := hu s hused hplace
      exact ⟨s.binding, hstorage, hindex, fun hset => by cases hset⟩
    | free =>
      rw [hplace] at hc
      cases hc
    | frame =>
      rw [hplace] at hc
      dsimp only at hc
      split at hc <;> cases hc
  | @writes s hused hstored =>
    obtain ⟨rfl, hn⟩ := Asm.op.inj ha
    obtain ⟨rfl, -⟩ := List.cons.inj hn
    rw [storeSlotOp] at hc ⊢
    cases hplace : s.place with
    | global =>
      obtain ⟨hstorage, hindex⟩ := hu s hused hplace
      exact ⟨s.binding, hstorage, hindex, fun _ => .inr ⟨s, hstored, hplace, rfl⟩⟩
    | free =>
      rw [hplace] at hc
      cases hc
    | frame =>
      rw [hplace] at hc
      dsimp only at hc
      split at hc <;> cases hc
  | @loads b hdeclared =>
    obtain ⟨rfl, hn⟩ := Asm.op.inj ha
    obtain ⟨rfl, -⟩ := List.cons.inj hn
    refine ⟨b, ?_, rfl, fun _ => .inl hdeclared⟩
    rw [loadOp] at hc
    split at hc
    · assumption
    · cases hc
    · cases hc
  | @declares b hdeclared =>
    obtain ⟨rfl, hn⟩ := Asm.op.inj ha
    obtain ⟨rfl, -⟩ := List.cons.inj hn
    exact ⟨b, global_of_declareOp hc, rfl, fun _ => .inl hdeclared⟩
  | @assigns b hdeclared =>
    obtain ⟨rfl, hn⟩ := Asm.op.inj ha
    obtain ⟨rfl, -⟩ := List.cons.inj hn
    exact ⟨b, global_of_assignOp hc, rfl, fun _ => .inl hdeclared⟩
  | takes =>
    obtain ⟨rfl, -⟩ := Asm.op.inj ha
    cases hc
  | @names b c' _ hframe hstores =>
    obtain ⟨rfl, -⟩ := Asm.op.inj ha
    rcases hstores with rfl | rfl
    · cases (global_of_declareOp hc).symm.trans hframe
    · cases (global_of_assignOp hc).symm.trans hframe
  | makes => cases ha

theorem Does.reaches {a : Asm} (h : K.Does u a) (hu : u.Open K.program) : Reaches K.program [a] := by
  intro c n hmem hc
  obtain ⟨b, hstorage, hindex, hstores⟩ := h.global hu.found (List.mem_singleton.mp hmem).symm hc
  refine ⟨b, hstorage, hindex, fun hset => ?_⟩
  rcases hstores hset with hdeclared | ⟨s, hassigned, hplace, rfl⟩
  · exact hu.fair _ hdeclared
  · obtain ⟨hshown, hplain⟩ := hu.fair _ hassigned
    exact ⟨hshown.1, hplain hplace⟩

theorem DoesAll.reaches {c : Assembly} (h : K.DoesAll u c) (hu : u.Open K.program) :
    Reaches K.program (c.map (·.asm)) := by
  intro o n hmem
  obtain ⟨l, hl, hasm⟩ := List.mem_map.mp hmem
  exact (h l hl).reaches hu o n (hasm ▸ List.mem_singleton_self _)

end Lowering

section

variable {p : Program} {ss : List (Stmt .typed)}

theorem Touches.stmts_found (hscoped : Scoped.stmts p .top (fun _ => none) ss) :
    (Touches.stmts ss).Found p := by
  intro s hs hplace
  have hplaced := ((Threads.top_found hscoped).items _ hs).2
  rw [Item.Placed, hplace] at hplaced
  exact hplaced

theorem Touches.func_found (hscoped : Scoped.stmts p .top (fun _ => none) ss)
    {d : FunDecl .typed} (hd : d ∈ Decls.stmts ss) : (Touches.func d).Found p := by
  intro s hs hplace
  have hplaced := ((Threads.top_found hscoped).decls d hd).2.items _ hs
  rw [Item.Placed, hplace] at hplaced
  exact hplaced

theorem Touches.stmts_open (hscoped : Scoped.stmts p .top (fun _ => none) ss)
    (hfair : Fair p (Stores.stmts ss) (Decls.stmts ss)) : (Touches.stmts ss).Open p :=
  ⟨Touches.stmts_found hscoped, hfair.stores⟩

theorem Touches.func_open (hscoped : Scoped.stmts p .top (fun _ => none) ss)
    (hfair : Fair p (Stores.stmts ss) (Decls.stmts ss)) {d : FunDecl .typed} (hd : d ∈ Decls.stmts ss) :
    (Touches.func d).Open p :=
  ⟨Touches.func_found hscoped hd, hfair.inner d hd⟩

end

theorem Ends.listed {C : Limits} {code : Assembly} {entry : Shape} (h : Ends C Exits.none code entry)
    {file : String} (hshort : (code.chunk C.pool file).code.size < 256 ^ 4) :
    ∃ L : Listing, L.Sound ∧ L.code = code ∧ L.limits = C := by
  have hsize := Assembly.chunk_size h.fits C.pool file
  obtain ⟨-, f, hf⟩ := h
  obtain ⟨-, hsits⟩ := hf code.length f 0 (by simp) fun j _ => by rw [Nat.zero_add]
  exact ⟨⟨C, code, f⟩, ⟨hsits, hsize ▸ hshort⟩, rfl, rfl⟩

variable {May : Nat → Value → Prop} {p : Program}

theorem Ends.minds {C : Limits} {code : Assembly} {entry : Shape} (h : Ends C Exits.none code entry)
    {file : String} (hshort : (code.chunk C.pool file).code.size < 256 ^ 4)
    (hm : Minds May C.pool (code.map (·.asm))) : (code.chunk C.pool file).Minds May := by
  obtain ⟨L, hL, rfl, rfl⟩ := h.listed hshort
  exact ⟨L, hL, by rw [Assembly.chunk_file], hm⟩

theorem Reaches.minds {as : List Asm} (h : Reaches p as)
    (hmay : ∀ b, p.IsGlobal b → (p.binding b).Plain → ∀ v, May (p.binding b).index v)
    (pool : Array Value) : Minds May pool as := by
  intro j n hj
  obtain ⟨b, hstorage, rfl, hplain⟩ := h .setGlobal n (List.mem_of_getElem? hj) rfl
  obtain ⟨hlt, hplain⟩ := hplain rfl
  exact .inl (hmay b ⟨hlt, hstorage⟩ hplain)

theorem Lowers.stored.at {pool : Array Value} {line : Int} : {known : List (Nat × Value)} →
    {c : Assembly} → Lowers.stored pool line known c → ∀ j a, (c.map (·.asm))[j]? = some a →
      (∃ k, a = .op .const [k]) ∨ ∃ i k x, j = i + 1 ∧ x ∈ known ∧ a = .op .setGlobal [x.1] ∧
        (c.map (·.asm))[i]? = some (.op .const [k]) ∧ pool[k]? = some x.2
  | [], _, h, _, _, hj => by
    obtain rfl := h
    cases hj
  | (n, v) :: known, _, ⟨_, k, b, hk, _, hb, hc⟩, j, a, hj => by
    subst hc
    match j with
    | 0 => exact .inl ⟨k, (Option.some.inj hj).symm⟩
    | 1 => exact .inr ⟨0, k, (n, v), rfl, List.mem_cons_self, (Option.some.inj hj).symm, rfl, hk⟩
    | j + 2 =>
      rcases hb.at j a hj with hconst | ⟨i, k', x, rfl, hx, ha, hi, hx'⟩
      · exact .inl hconst
      · exact .inr ⟨i + 2, k', x, rfl, List.mem_cons_of_mem _ hx, ha, hi, hx'⟩

theorem Lowers.stored.from {L : Listing} {line : Int} : {known : List (Nat × Value)} → {c : Assembly} →
    Lowers.stored L.limits.pool line known c → (before behind : Assembly) →
      L.code = before ++ (c ++ behind) → L.StoresFrom before.length known
  | [], _, _, _, _, _ => trivial
  | (n, v) :: known, _, ⟨_, k, b, hk, _, hb, hc⟩, before, behind, hcode => by
    subst hc
    have hrest := hb.from (before ++ (Lowering.word .const k line ++ Lowering.word .setGlobal n line))
      behind (by simp [hcode])
    rw [List.length_append] at hrest
    refine ⟨⟨k, ?_, hk⟩, ?_, hrest⟩
    · simp [Listing.asms, hcode, Lowering.word]
    · simp [Listing.asms, hcode, Lowering.word]

/-- A script that stores constants first: it goes back to none of these stores, so a value that is stored
there is the constant. -/
theorem script_minds {code a b : Assembly} {pool : Array Value} {line : Int}
    {known : List (Nat × Value)} (ha : Lowers.stored pool line known a) (hcode : code = a ++ b)
    (hb : Reaches p (b.map (·.asm))) (hback : ∀ (r : Nat) (l : Asm.Line) (n : Nat),
      b[r]? = some l → l.asm = .back n → n ≤ r)
    (hmay : ∀ d, p.IsGlobal d → (p.binding d).Plain → ∀ v, May (p.binding d).index v)
    (hknown : ∀ x ∈ known, May x.1 x.2) : Minds May pool (code.map (·.asm)) := by
  subst hcode
  intro j n hj
  rw [List.map_append] at hj ⊢
  rcases Nat.lt_or_ge j (a.map (·.asm)).length with hlt | hge
  · rw [List.getElem?_append_left hlt] at hj
    rcases ha.at j _ hj with ⟨k, hconst⟩ | ⟨i, k, x, rfl, hx, hop, hi, hv⟩
    · cases hconst
    · obtain rfl : n = x.1 := by
        obtain ⟨-, hn⟩ := Asm.op.inj hop
        exact (List.cons.inj hn).1
      refine .inr ⟨i, k, x.2, rfl, ?_, hv, hknown x hx, fun i' g hg hgoes => ?_⟩
      · rw [List.getElem?_append_left (by omega)]
        exact hi
      · rcases Nat.lt_or_ge i' (a.map (·.asm)).length with hlt' | hge'
        · rw [List.getElem?_append_left hlt'] at hg
          rcases ha.at i' g hg with ⟨k', rfl⟩ | ⟨i₁, k', x', rfl, -, rfl, -⟩
          · exact (Nat.succ.inj hgoes).symm
          · exact (Nat.succ.inj hgoes).symm
        · rw [List.getElem?_append_right hge', List.getElem?_map] at hg
          obtain ⟨l, hl, rfl⟩ := Option.map_eq_some_iff.mp hg
          cases hasm : l.asm with
          | back n =>
            have hle := hback _ l n hl hasm
            rw [hasm] at hgoes
            have hgoes : i + 1 = i' - n := hgoes
            omega
          | skip n =>
            rw [hasm] at hgoes
            have hgoes : i + 1 = i' + 1 + n := hgoes
            omega
          | skipIfFalse n =>
            rw [hasm] at hgoes
            have hgoes : i + 1 = i' + 1 ∨ i + 1 = i' + 1 + n := hgoes
            omega
          | _ =>
            rw [hasm] at hgoes
            have hgoes : i + 1 = i' + 1 := hgoes
            omega
  · rw [List.getElem?_append_right hge] at hj
    obtain ⟨d, hstorage, rfl, hplain⟩ := hb .setGlobal n (List.mem_of_getElem? hj) rfl
    obtain ⟨hlt, hplain⟩ := hplain rfl
    exact .inl (hmay d ⟨hlt, hstorage⟩ hplain)

theorem Ends.back_le {C : Limits} {code : Assembly} {entry : Shape}
    (h : Ends C Exits.none code entry) {r n : Nat} {l : Asm.Line} (hl : code[r]? = some l)
    (hasm : l.asm = .back n) : n ≤ r := by
  obtain ⟨-, f, hf⟩ := h
  obtain ⟨-, hsits⟩ := hf code.length f 0 (by simp) fun j _ => by rw [Nat.zero_add]
  have hgood := hsits r l hl
  rw [hasm] at hgood
  have hle : n ≤ 0 + r := hgood.1
  omega

end Scripting

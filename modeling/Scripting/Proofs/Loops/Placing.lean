import Scripting.Proofs.Loops.Control
import Scripting.Proofs.Script.Globals

/-!
# Where loops stand in code

The code of a loop over a range or an array that stands as one piece in other code has its parts at the
places that `EachParts.walk` gives, and is entered and left as it should be. What stores into its hidden
variables is the loop itself, if the code that it runs stores into no variable with the place of one of them.
-/

namespace Scripting

theorem Asm.GoesTo.hops {a : Asm} {i j : Nat} (h : a.GoesTo i j) :
    j = i + 1 ∨ ∃ x, a.hop? = some x ∧ (j : Int) = max 0 (i + x) := by
  cases a with
  | skip n => exact .inr ⟨_, rfl, by have hj : j = i + 1 + n := h; omega⟩
  | back n => exact .inr ⟨_, rfl, by have hj : j = i - n := h; omega⟩
  | skipIfFalse n => exact h.imp id fun hj => ⟨_, rfl, by omega⟩
  | op | closure | exit => exact .inl h

theorem Asm.spares_of_hop? {a : Asm} {x : Int} (h : a.hop? = some x) (v : Binding) : a.Spares v := by
  cases a with
  | op => cases h
  | _ => trivial

theorem Value.eq_of_constKey_int {w : Value} {n : Int64} (h : w.constKey = (Value.int n).constKey) :
    w = .int n := by
  cases w with
  | int m => exact congrArg Value.int (Int64.toBitVec_inj.mp (congrArg UInt64.toBitVec (ConstKey.int.inj h)))
  | _ => cases h

namespace Assembly

variable {c d : Assembly} {o i j : Nat} {a : Asm}

theorem Holds.asm (h : c.Holds d o) (hj : j < d.length) (ha : (c.map (·.asm))[o + j]? = some a) :
    ∃ b, (d.map (·.asm))[j]? = some b ∧
      (a = b ∨ b.IsExit ∧ ∃ x, a.hop? = some x ∧ Around o d.length (o + j + x)) := by
  obtain ⟨l', hl', hsame⟩ := h.kept j _ (List.getElem?_eq_getElem hj)
  rw [List.getElem?_map, hl'] at ha
  obtain rfl := Option.some.inj ha
  exact ⟨_, by rw [List.getElem?_map, List.getElem?_eq_getElem hj]; rfl,
    hsame.imp_left (congrArg Asm.Line.asm)⟩

theorem getElem?_middle {α : Type} (as bs cs : List α) {k : Nat} (hk : k < bs.length) :
    (as ++ bs ++ cs)[as.length + k]? = bs[k]? := by
  rw [List.append_assoc, List.getElem?_append_right (Nat.le_add_right _ _), Nat.add_sub_cancel_left,
    List.getElem?_append_left hk]

theorem Holds.placed (h : c.Holds d o) {as bs cs : List Asm} (hd : d.map (·.asm) = as ++ bs ++ cs)
    (hbs : ∀ b ∈ bs, ¬ b.IsExit) : Placed (c.map (·.asm)) (o + as.length) bs := by
  intro k b hk
  have hlt := (List.getElem?_eq_some_iff.mp hk).1
  have hlength := congrArg List.length hd
  simp only [List.length_map, List.length_append] at hlength
  have hroom := h.room
  have ha := List.getElem?_eq_getElem (l := c.map (·.asm)) (i := o + (as.length + k))
    (by rw [List.length_map]; omega)
  obtain ⟨b', hb', hsame⟩ := h.asm (by omega) ha
  rw [hd, getElem?_middle as bs cs hlt, hk] at hb'
  obtain rfl := Option.some.inj hb'
  rcases hsame with hsame | ⟨hexit, -⟩
  · rw [Nat.add_assoc, ha, hsame]
  · exact absurd hexit (hbs _ (List.mem_of_getElem? hk))

end Assembly

namespace EachParts

variable (r : EachParts) (K : Lowering) (o : Nat)

def inner : Assembly := Assembly.round (K.eachStep r.slots r.one r.line) r.body fun _ behind => .skip behind

@[simp] theorem length_inner : (r.inner K).length = r.body.length := by
  simp [inner, Assembly.round]

theorem code_asms (hplain : (r.walk K o).index.captured = false) : (r.code K).map (·.asm)
    = r.lead.map (·.asm) ++ [Walk.declare (r.walk K o).first] ++ r.between.map (·.asm)
      ++ [Walk.declare (r.walk K o).second] ++ (r.walk K o).round ++ (r.inner K).map (·.asm)
        ++ (r.walk K o).count := by
  obtain ⟨slots, isRange, line, one, lead, between, body⟩ := r
  have hassign : Lowering.assignOp (K.program.binding slots.index)
      = Lowering.declareOp (K.program.binding slots.index) := by
    have hplain : (K.program.binding slots.index).captured = false := hplain
    rw [Lowering.assignOp, Lowering.declareOp, hplain]
    cases (K.program.binding slots.index).storage <;> rfl
  rw [code, start, loop, Assembly.countLoop_eq, Assembly.loop_eq]
  cases isRange <;>
    simp [EachParts.walk, EachParts.inner, Walk.round, Walk.test, Walk.head, Walk.count, Walk.first,
      Walk.second,
      Walk.declare, Walk.load, Walk.exitAt, Walk.stepAt, Walk.bodyAt, Walk.itemAt, Walk.checkAt,
        Lowering.declare,
      Lowering.word, Lowering.load, Lowering.eachTest, Lowering.eachHead, Lowering.eachStep, Lowering.assign,
      EachParts.first, EachParts.second, Assembly.op, hassign] <;>
    omega

section

variable {r K o} (hplain : (r.walk K o).index.captured = false)
include hplain

theorem exitAt_eq : (r.walk K o).exitAt = o + (r.code K).length := by
  have hlength := congrArg List.length (r.code_asms K o hplain)
  have hbody := (r.walk K o).bodyAt_eq
  have hexit := (r.walk K o).exitAt_eq
  simp only [List.length_map, List.length_append, List.length_singleton, length_inner] at hlength
  have hcount : (r.walk K o).count.length = 5 := rfl
  have hstep : (r.walk K o).stepAt = (r.walk K o).bodyAt + r.body.length := rfl
  have htest : (r.walk K o).testAt = o + r.lead.length + 1 + r.between.length + 1 := rfl
  omega

theorem asm_between {k : Nat} (hk : k < r.between.length) :
    ((r.code K).map (·.asm))[r.lead.length + 1 + k]? = (r.between.map (·.asm))[k]? := by
  have hmiddle := Assembly.getElem?_middle (r.lead.map (·.asm) ++ [Walk.declare (r.walk K o).first])
    (r.between.map (·.asm)) ([Walk.declare (r.walk K o).second] ++ (r.walk K o).round ++ (r.inner K).map (·.asm)
        ++ (r.walk K o).count) (k := k) (by rwa [List.length_map])
  rw [r.code_asms K o hplain, ← hmiddle]
  simp only [List.append_assoc, List.length_append, List.length_map, List.length_singleton]

theorem asm_inner {k : Nat} (hk : k < r.body.length) :
    ((r.code K).map (·.asm))[(r.walk K o).bodyAt - o + k]? = ((r.inner K).map (·.asm))[k]? := by
  have hbody := (r.walk K o).bodyAt_eq
  have htest : (r.walk K o).testAt = o + r.lead.length + 1 + r.between.length + 1 := rfl
  have hmiddle := Assembly.getElem?_middle (r.lead.map (·.asm) ++ [Walk.declare (r.walk K o).first]
    ++ r.between.map (·.asm) ++ [Walk.declare (r.walk K o).second] ++ (r.walk K o).round)
      ((r.inner K).map (·.asm))
      (r.walk K o).count (k := k) (by rwa [List.length_map, length_inner])
  rw [r.code_asms K o hplain, ← hmiddle]
  congr 1
  simp only [List.length_append, List.length_map, List.length_singleton]
  omega

end

theorem inner_jumps {r : EachParts} (h : r.Whole) (p : Nat) : (r.inner K).Jumps
    (fun t => (p ≤ t ∧ t ≤ p + r.body.length) ∨ t = p + r.body.length + 5) p :=
  Assembly.round_jumps (show Assembly.Rounds [] [] _ _ from .count) h.body
    (fun _ hlow hhigh => .inl ⟨hlow, hhigh⟩)
    (.inr rfl) fun _ hstep => nomatch hstep

theorem inner_settled {r : EachParts} (h : r.Whole) : ∀ l ∈ r.inner K, ¬ l.asm.IsExit := by
  have hlacks : ∀ k, (r.inner K).Lacks k
    | .leave => (Assembly.Lacks.settled (by simp)).settle (by simp)
    | .next => .settled (by simp)
    | .miss => (h.exits.settle (by simp)).settle (by simp)
  rintro ⟨line, a⟩ hl hexit
  cases a with
  | exit k => exact hlacks k _ hl rfl
  | _ => exact hexit

end EachParts

def Place.storage? : Place → Option Storage
  | .global => some .global
  | .frame => some .frame
  | .free => none

/-- The variables with places that code stores into where it declares them. Only some functions are stored
where they are declared. -/
def Stores.placed (stored : BindingId → Bool) (ss : List Store) : List BindingId := ss.filterMap fun
  | .declares b => some b
  | .names b => if stored b then some b else none
  | .counts _ | .assigns _ => none

/-- Whether a function is stored where it is declared: it is a variable of a frame. -/
def Program.framed (p : Program) (b : BindingId) : Bool := (p.binding b).storage = .frame

/-- Whether code stores into no variable that has the place of a certain one. -/
structure Touches.Avoids (p : Program) (u : Touches) (x : Binding) : Prop where
  declared : ∀ b ∈ Stores.placed p.framed u.stores,
    ((p.binding b).storage, (p.binding b).index) ≠ (x.storage, x.index)
  assigned : ∀ s, .uses s ∈ u.items → .assigns s ∈ u.stores → s.place.storage? = some x.storage →
    s.index ≠ x.index

namespace Stores

variable {stored : BindingId → Bool} {ss : List Store} {b : BindingId}

theorem mem_placed_of_declares (h : .declares b ∈ ss) : b ∈ placed stored ss :=
  List.mem_filterMap.mpr ⟨_, h, rfl⟩

theorem mem_placed_of_names (h : .names b ∈ ss) (hb : stored b = true) : b ∈ placed stored ss :=
  List.mem_filterMap.mpr ⟨_, h, if_pos hb⟩

end Stores

/-- What a loop over a range or an array runs: the code of its bounds and of its body. -/
def Stmt.runs : Stmt .typed → Touches
  | .each _ _ _ e b => ⟨Items.expr e ++ Items.block b, Stores.expr e ++ Stores.block b⟩
  | _ => ⟨[], []⟩

namespace Lowering

variable {K : Lowering} {u : Touches} {x : Binding}

theorem spares_of_storage {c : Opcode} {n : Nat} {y : Binding}
    (hc : c = declareOp y ∨ c = assignOp y) (hy : (y.storage, n) ≠ (x.storage, x.index)) :
    (Asm.op c [n]).Spares x := by
  have hne : y.storage = x.storage → n ≠ x.index := fun hs hn => hy (by rw [hs, hn])
  unfold Asm.Spares
  rcases hc with rfl | rfl
  · unfold declareOp
    cases hs : y.storage <;> cases hx : x.storage <;> cases y.captured <;> simp [hs, hx] at hne ⊢ <;> exact hne
  · unfold assignOp
    cases hs : y.storage <;> cases hx : x.storage <;> cases y.captured <;> simp [hs, hx] at hne ⊢ <;> exact hne

theorem Does.operand {a : Asm} (h : K.Does u a) {c : Opcode} {ns : List Nat} (ha : a = .op c ns)
    (hc : c.touches = true) : ∃ n, ns = [n] := by
  subst ha
  cases h with
  | quiet hquiet =>
    have hquiet : c.touches = false := hquiet
    rw [hc] at hquiet
    cases hquiet
  | _ => exact ⟨_, rfl⟩

theorem Does.spares {a : Asm} (h : K.Does u a) (hu : u.Avoids K.program x) : a.Spares x := by
  cases h with
  | quiet hquiet =>
    cases a with
    | op c ns =>
      have hquiet : c.touches = false := hquiet
      unfold Asm.Spares
      cases x.storage <;> cases c <;> simp [Opcode.touches] at hquiet ⊢
    | _ => trivial
  | reads =>
    unfold Asm.Spares loadSlotOp
    cases x.storage <;> dsimp only <;> split <;> simp <;> split <;> simp
  | @writes s hused hstored =>
    have hassigned := hu.assigned s hused hstored
    unfold Asm.Spares storeSlotOp
    cases hplace : s.place with
    | free => cases x.storage <;> simp
    | global =>
      rw [hplace] at hassigned
      cases hs : x.storage with
      | global => exact fun _ => hassigned (by rw [hs]; rfl)
      | frame => simp
    | frame =>
      rw [hplace] at hassigned
      cases hs : x.storage with
      | global =>
        dsimp only
        split <;> simp
      | frame => exact fun _ => hassigned (by rw [hs]; rfl)
  | loads =>
    unfold Asm.Spares loadOp
    cases x.storage <;> dsimp only <;> split <;> simp
  | @declares b hdeclared =>
    exact spares_of_storage (.inl rfl) (hu.declared b (Stores.mem_placed_of_declares hdeclared))
  | @assigns b hdeclared =>
    exact spares_of_storage (.inr rfl) (hu.declared b (Stores.mem_placed_of_declares hdeclared))
  | takes =>
    unfold Asm.Spares
    cases x.storage <;> simp
  | @names b c hnamed hframe hstores =>
    exact spares_of_storage hstores (hu.declared b (Stores.mem_placed_of_names hnamed (decide_eq_true hframe)))
  | makes => trivial

end Lowering

namespace Lowers.Each

variable {K : Lowering} {s : Stmt .typed} {r : EachParts}

theorem does (h : Lowers.Each K s r) : K.DoesAll s.runs r.between ∧ K.DoesAll s.runs r.body := by
  cases s with
  | each tok item slots series b =>
    obtain ⟨-, -, -, hbody, -, -, -, inLoop, hbounds⟩ := h
    have hwithin : Touches.Within ⟨Items.expr series ++ Items.block b, Stores.expr series ++ Stores.block b⟩
        (Stmt.runs (.each tok item slots series b)) := ⟨List.Subset.refl _, List.Subset.refl _⟩
    refine ⟨?_, Lowers.block_does b hbody hwithin.right⟩
    split at hbounds
    · rename_i hsome
      exact (Lowers.bounds_does series hsome hwithin.left).2 _ hbounds.2
    · exact .const hbounds.2
  | _ => exact h.elim

theorem zero (h : Lowers.Each K s r) (hr : r.isRange = false) : ∃ k, K.Holds k (.int 0) ∧
    ∃ line, r.between = Lowering.word .const k line := by
  cases s with
  | each tok _ slots series b =>
    obtain ⟨-, hrange, -, -, -, -, -, inLoop, hbounds⟩ := h
    split at hbounds
    · rename_i hsome
      rw [Lowers.bounds_isSome true inLoop, hsome, hr] at hrange
      cases hrange
    · obtain ⟨k, hk, -, hcode⟩ := hbounds.2
      exact ⟨k, hk, _, hcode⟩
  | _ => exact h.elim

theorem one (h : Lowers.Each K s r) : K.Holds r.one (.int 1) := by
  cases s with
  | each => exact h.2.2.2.2.2.1
  | _ => exact h.elim

end Lowers.Each

/-- Whether the variables of a loop have places of their own, and the code that it runs stores into no other
variable with the place of a hidden one. -/
structure LoopSlots.Apart (p : Program) (l : LoopSlots) (u : Touches) : Prop where
  plain : (p.binding l.index).captured = false ∧ (p.binding l.limit).captured = false
  apart : [p.binding l.index, p.binding l.limit, p.binding l.item].Pairwise fun x y =>
    (x.storage, x.index) ≠ (y.storage, y.index)
  index : u.Avoids p (p.binding l.index)
  limit : u.Avoids p (p.binding l.limit)

def Stmt.Apart (p : Program) : Stmt .typed → Prop
  | .each tok x l e b => l.Apart p (Stmt.runs (.each tok x l e b))
  | _ => True

namespace EachParts

variable {K : Lowering} {code : Assembly} {s : Stmt .typed} {r : EachParts} {o i j : Nat} {a : Asm}

theorem slots_apart (hr : Lowers.Each K s r) (hs : s.Apart K.program) : r.slots.Apart K.program s.runs := by
  cases s with
  | each => exact hr.1 ▸ hs
  | _ => exact hr.elim

section

variable (hplain : (r.walk K o).index.captured = false) (hc : code.Holds (r.code K) o)
include hplain hc

theorem between_at (ha : (code.map (·.asm))[i]? = some a) (hlow : (r.walk K o).firstAt < i)
    (hhigh : i < (r.walk K o).secondAt) : ∃ l, r.between[i - (r.walk K o).firstAt - 1]? = some l ∧
      (a = l.asm ∨ ∃ x, a.hop? = some x ∧ Around o (r.code K).length (i + x)) := by
  have hfirst : (r.walk K o).firstAt = o + r.lead.length := rfl
  have hsecond : (r.walk K o).secondAt = o + r.lead.length + 1 + r.between.length := rfl
  obtain ⟨k, rfl⟩ : ∃ k, i = o + (r.lead.length + 1 + k) := ⟨i - (o + (r.lead.length + 1)), by omega⟩
  have hk : k < r.between.length := by omega
  have hroom := exitAt_eq hplain
  have hexit : (r.walk K o).secondAt < (r.walk K o).exitAt := by
    have hplaces := (r.walk K o).places
    omega
  obtain ⟨b, hb, hsame⟩ := hc.asm (j := r.lead.length + 1 + k) (by omega) ha
  rw [asm_between hplain hk, List.getElem?_map] at hb
  obtain ⟨l, hl, rfl⟩ := Option.map_eq_some_iff.mp hb
  refine ⟨l, by rw [show o + (r.lead.length + 1 + k) - (r.walk K o).firstAt - 1 = k by omega]; exact hl, ?_⟩
  exact hsame.imp_right fun ⟨_, x, hx, haround⟩ => ⟨x, hx, by push_cast; exact haround⟩

theorem inner_at (hwhole : r.Whole) (ha : (code.map (·.asm))[i]? = some a) (hlow : (r.walk K o).bodyAt ≤ i)
    (hhigh : i < (r.walk K o).stepAt) :
    ∃ l, (r.inner K)[i - (r.walk K o).bodyAt]? = some l ∧ a = l.asm := by
  have hbody := (r.walk K o).bodyAt_eq
  have htest : (r.walk K o).testAt = o + r.lead.length + 1 + r.between.length + 1 := rfl
  have hstep : (r.walk K o).stepAt = (r.walk K o).bodyAt + r.body.length := rfl
  have hexit := (r.walk K o).exitAt_eq
  have hroom := exitAt_eq hplain
  obtain ⟨k, rfl⟩ : ∃ k, i = o + ((r.walk K o).bodyAt - o + k) := ⟨i - (r.walk K o).bodyAt, by omega⟩
  have hk : k < r.body.length := by omega
  obtain ⟨b, hb, hsame⟩ := hc.asm (j := (r.walk K o).bodyAt - o + k) (by omega) ha
  rw [asm_inner hplain hk, List.getElem?_map] at hb
  obtain ⟨l, hl, rfl⟩ := Option.map_eq_some_iff.mp hb
  refine ⟨l, by rw [show o + ((r.walk K o).bodyAt - o + k) - (r.walk K o).bodyAt = k by omega]; exact hl, ?_⟩
  rcases hsame with hsame | ⟨hsettled, -⟩
  · exact hsame
  · exact absurd hsettled (inner_settled K hwhole l (List.mem_of_getElem? hl))

theorem bound_goes (hwhole : r.Whole) (ha : (code.map (·.asm))[i]? = some a) (hlow : (r.walk K o).firstAt < i)
    (hhigh : i < (r.walk K o).secondAt) (hgo : a.GoesTo i j) :
    j ≤ (r.walk K o).secondAt ∨ (r.walk K o).exitAt ≤ j := by
  have hfirst : (r.walk K o).firstAt = o + r.lead.length := rfl
  have hsecond : (r.walk K o).secondAt = (r.walk K o).firstAt + 1 + r.between.length := rfl
  have hexit := exitAt_eq hplain
  obtain ⟨l, hl, hsame⟩ := between_at hplain hc ha hlow hhigh
  rcases hgo.hops with rfl | ⟨x, hx, hj⟩
  · exact .inl hhigh
  · rcases hsame with rfl | ⟨x', hx', haround⟩
    · have hamong := hwhole.between _ l x hl hx
      unfold Among at hamong
      omega
    · obtain rfl := Option.some.inj (hx.symm.trans hx')
      unfold Around at haround
      omega

theorem inner_goes (hwhole : r.Whole) (ha : (code.map (·.asm))[i]? = some a) (hlow : (r.walk K o).bodyAt ≤ i)
    (hhigh : i < (r.walk K o).stepAt) (hgo : a.GoesTo i j) :
    ((r.walk K o).bodyAt ≤ j ∧ j ≤ (r.walk K o).stepAt) ∨ j = (r.walk K o).exitAt := by
  have hstep : (r.walk K o).stepAt = (r.walk K o).bodyAt + r.body.length := rfl
  have hexit := (r.walk K o).exitAt_eq
  obtain ⟨l, hl, rfl⟩ := inner_at hplain hc hwhole ha hlow hhigh
  rcases hgo.hops with rfl | ⟨x, hx, hj⟩
  · omega
  · have hjumps := inner_jumps K hwhole (r.walk K o).bodyAt _ l x hl hx
    omega

theorem outer_goes (hwhole : r.Whole) (ha : (code.map (·.asm))[i]? = some a)
    (hi : i < (r.walk K o).firstAt ∨ (r.walk K o).exitAt ≤ i) (hgo : a.GoesTo i j) :
    j ≤ (r.walk K o).firstAt ∨ (r.walk K o).exitAt ≤ j := by
  have hfirst : (r.walk K o).firstAt = o + r.lead.length := rfl
  have hexit := exitAt_eq hplain
  rcases hgo.hops with rfl | ⟨x, hx, hj⟩
  · omega
  · by_cases hlead : o ≤ i ∧ i < (r.walk K o).firstAt
    · -- In front of the first store, where exits lead out of the loop.
      obtain ⟨k, rfl⟩ : ∃ k, i = o + k := ⟨i - o, by omega⟩
      have hk : k < r.lead.length := by omega
      have hlength := congrArg List.length (r.code_asms K o hplain)
      simp only [List.length_map, List.length_append, List.length_singleton] at hlength
      obtain ⟨b, hb, hsame⟩ := hc.asm (j := k) (by omega) ha
      rw [r.code_asms K o hplain] at hb
      simp only [List.append_assoc] at hb
      rw [List.getElem?_append_left (by rwa [List.length_map]), List.getElem?_map] at hb
      obtain ⟨l, hl, rfl⟩ := Option.map_eq_some_iff.mp hb
      rcases hsame with rfl | ⟨-, x', hx', haround⟩
      · have hamong := hwhole.lead _ l x hl hx
        unfold Among at hamong
        omega
      · obtain rfl := Option.some.inj (hx.symm.trans hx')
        unfold Around at haround
        omega
    · rw [List.getElem?_map] at ha
      obtain ⟨l, hl, rfl⟩ := Option.map_eq_some_iff.mp ha
      have haround := hc.entry i l x hl hx (by omega)
      unfold Around at haround
      omega

omit hplain in
theorem placed (as : List Asm) {bs cs : List Asm} (hd : (r.code K).map (·.asm) = as ++ (bs ++ cs))
    (hcalm : ∀ b ∈ bs, b.Calm) (hi : o + as.length = i) : Placed (code.map (·.asm)) i bs := by
  rw [← List.append_assoc] at hd
  exact hi ▸ hc.placed hd fun b hb => (hcalm b hb).settled

omit hplain in
theorem declare_at (as : List Asm) {cs : List Asm} {x : Binding}
    (hd : (r.code K).map (·.asm) = as ++ ([Walk.declare x] ++ cs)) (hi : o + as.length = i) :
    (code.map (·.asm))[i]? = some (Walk.declare x) :=
  placed hc as hd (List.forall_mem_singleton.mpr (Walk.calm_declare x)) hi 0 _ rfl

theorem first_at : (code.map (·.asm))[(r.walk K o).firstAt]? = some (Walk.declare (r.walk K o).first) := by
  refine declare_at hc (r.lead.map (·.asm))
    (by rw [r.code_asms K o hplain]; simp only [List.append_assoc]; rfl) ?_
  rw [List.length_map]
  rfl

theorem second_at : (code.map (·.asm))[(r.walk K o).secondAt]? = some (Walk.declare (r.walk K o).second) := by
  have hsecond : (r.walk K o).secondAt = o + r.lead.length + 1 + r.between.length := rfl
  refine declare_at hc (r.lead.map (·.asm) ++ [Walk.declare (r.walk K o).first] ++ r.between.map (·.asm))
    (by rw [r.code_asms K o hplain]; simp only [List.append_assoc]; rfl) ?_
  simp only [List.length_append, List.length_map, List.length_singleton]
  omega

theorem round_at : Placed (code.map (·.asm)) (r.walk K o).testAt (r.walk K o).round := by
  have htest : (r.walk K o).testAt = o + r.lead.length + 1 + r.between.length + 1 := rfl
  refine placed hc (r.lead.map (·.asm) ++ [Walk.declare (r.walk K o).first] ++ r.between.map (·.asm)
    ++ [Walk.declare (r.walk K o).second]) (by rw [r.code_asms K o hplain]; simp only [List.append_assoc]; rfl)
      Walk.calm_round ?_
  simp only [List.length_append, List.length_map, List.length_singleton]
  omega

theorem count_at : Placed (code.map (·.asm)) (r.walk K o).stepAt (r.walk K o).count := by
  have htest : (r.walk K o).testAt = o + r.lead.length + 1 + r.between.length + 1 := rfl
  have hbody := (r.walk K o).bodyAt_eq
  have hstep : (r.walk K o).stepAt = (r.walk K o).bodyAt + r.body.length := rfl
  refine placed hc (r.lead.map (·.asm) ++ [Walk.declare (r.walk K o).first] ++ r.between.map (·.asm)
    ++ [Walk.declare (r.walk K o).second] ++ (r.walk K o).round ++ (r.inner K).map (·.asm))
      (by rw [r.code_asms K o hplain, List.append_nil]) Walk.calm_count ?_
  simp only [List.length_append, List.length_map, List.length_singleton, length_inner]
  omega

theorem zero_at (hr : Lowers.Each K s r) (hrange : r.isRange = false) : r.between.length = 1 ∧
    ∃ k, (code.map (·.asm))[(r.walk K o).firstAt + 1]? = some (.op .const [k]) ∧
      K.pool[k]? = some (.int 0) := by
  obtain ⟨k, ⟨v, hv, hkey⟩, line, hcode⟩ := hr.zero hrange
  rw [Value.eq_of_constKey_int hkey] at hv
  have hone : r.between.length = 1 := by rw [hcode]; rfl
  refine ⟨hone, k, ?_, hv⟩
  refine placed hc (r.lead.map (·.asm) ++ [Walk.declare (r.walk K o).first])
    (by rw [r.code_asms K o hplain, hcode]; simp only [List.append_assoc]; rfl)
      (List.forall_mem_singleton.mpr (by simp : Asm.Calm (.op .const [k]))) ?_ 0 _ rfl
  simp only [List.length_append, List.length_map, List.length_singleton]
  rfl

theorem spares_at (hr : Lowers.Each K s r) (hwhole : r.Whole) {x : Binding} (hx : s.runs.Avoids K.program x)
    (ha : (code.map (·.asm))[i]? = some a) (hi : ((r.walk K o).firstAt < i ∧ i < (r.walk K o).secondAt) ∨
      ((r.walk K o).bodyAt ≤ i ∧ i < (r.walk K o).stepAt)) : a.Spares x := by
  obtain ⟨hbetween, hbody⟩ := hr.does
  rcases hi with ⟨hlow, hhigh⟩ | ⟨hlow, hhigh⟩
  · obtain ⟨l, hl, rfl | ⟨_, hhop, -⟩⟩ := between_at hplain hc ha hlow hhigh
    · exact (hbetween l (List.mem_of_getElem? hl)).spares hx
    · exact Asm.spares_of_hop? hhop x
  · have hinner : K.DoesAll s.runs (r.inner K) :=
      (hbody.settle .leave (j := fun _ behind => .skip (behind + (K.eachStep r.slots r.one r.line).length + 1))
        fun _ _ => trivial).settle .next (j := fun _ behind => .skip behind) fun _ _ => trivial
    obtain ⟨l, hl, rfl⟩ := inner_at hplain hc hwhole ha hlow hhigh
    exact (hinner l (List.mem_of_getElem? hl)).spares hx

end

end EachParts

theorem Lowering.Walks.stands {K : Lowering} {code : Assembly} {s : Stmt .typed} {w : Walk}
    (h : K.Walks code s w) (hs : s.Apart K.program) : w.Stands K.pool (code.map (·.asm)) := by
  obtain ⟨r, o, hr, hwhole, hc, rfl⟩ := h
  have hslots := EachParts.slots_apart hr hs
  have hplain : (r.walk K o).index.captured = false := hslots.plain.1
  have hone : K.pool[r.one]? = some (.int 1) := by
    obtain ⟨v, hv, hkey⟩ := hr.one
    rwa [Value.eq_of_constKey_int hkey] at hv
  exact {
    first := EachParts.first_at hplain hc
    second := EachParts.second_at hplain hc
    round := EachParts.round_at hplain hc
    count := EachParts.count_at hplain hc
    one := hone
    zero := EachParts.zero_at hplain hc hr
    bound := fun _ _ _ ha hlow hhigh hgo => EachParts.bound_goes hplain hc hwhole ha hlow hhigh hgo
    inner := fun _ _ _ ha hlow hhigh hgo => EachParts.inner_goes hplain hc hwhole ha hlow hhigh hgo
    outer := fun _ _ _ ha hi hgo => EachParts.outer_goes hplain hc hwhole ha hi hgo
    spares := fun _ _ ha hi => ⟨EachParts.spares_at hplain hc hr hwhole hslots.index ha hi,
      EachParts.spares_at hplain hc hr hwhole hslots.limit ha hi⟩
    apart := hslots.apart
    plain := hslots.plain }

end Scripting

import Scripting.Proofs.Code.Constants
import Scripting.Proofs.Machine.Coding
import Scripting.Proofs.Script.Lowers
import Scripting.Proofs.Values.Equality

/-!
# Programs that compare

A program compares values with the instructions for equality, with literal patterns and with the functions
that search an array. `EqualityLaws` sums up what comparing promises: it is symmetric, and an equivalence
on values without doubles that arrays and instances keep; and a program that compares cannot tell two equal
values of this kind apart, which `Interchangeable` says for each of the ways. A literal pattern is followed
through its code: `Lowering.Takes` says that some code takes one stack to another one.
-/

namespace Scripting

namespace Heap

variable {h : Heap} {v w : Value}

/-- Whether comparing anything with one of two values is comparing it with the other one. -/
def Indistinct (h : Heap) (v w : Value) : Prop := ∀ u, h.equal u v = h.equal u w

theorem Indistinct.left (hvw : h.Indistinct v w) (u : Value) : h.equal v u = h.equal w u := by
  rw [equal_comm, hvw, equal_comm]

theorem Indistinct.refl (v : Value) : h.Indistinct v v := fun _ => rfl

theorem indistinct_items (hv : h.Exact v) (hw : h.Exact w) (hvw : h.Equal v w) :
    List.Forall₂ h.Indistinct (h.items v) (h.items w) := by
  have hitems := (equal_iff.mp hvw).2
  rw [List.forall₂_iff_get] at *
  exact ⟨hitems.1, fun i hi hi' =>
    equal_congr (hv.parts (List.get_mem _ _)) (hw.parts (List.get_mem _ _)) (hitems.2 i hi hi')⟩

theorem findEqual_congr {vs ws : List Value} (hvw : h.Indistinct v w) (hvs : List.Forall₂ h.Indistinct vs ws) :
    h.findEqual v vs = h.findEqual w ws := by
  induction hvs with
  | nil => rfl
  | cons hab _ ih => rw [findEqual, findEqual, ih, hvw, hab.left]

end Heap

def Machine.withStack (m : Machine) (st : List Value) : Machine := { m with stack := st }

namespace Exec

variable {m : Machine} {u v w : Value} {st : List Value}

theorem eq_run (hm : m.stack = w :: v :: st) : (operate .eq).run m =
    match m.world.heap.equal v w with
    | some b => (.ok (), m.withStack (.bool b :: st))
    | none => (.error (.fault .endless), m.withStack st) := by
  obtain ⟨W, gs, st', fs, b⟩ := m
  obtain rfl : st' = w :: v :: st := hm
  have hrun : (operate .eq).run ⟨W, gs, w :: v :: st, fs, b⟩ =
      (do push (.bool (← orFault (HostFault.answered (W.heap.equal v w))))).run ⟨W, gs, st, fs, b⟩ := rfl
  rw [hrun]
  cases W.heap.equal v w <;> rfl

theorem ne_run (hm : m.stack = w :: v :: st) : (operate .ne).run m =
    match m.world.heap.equal v w with
    | some b => (.ok (), m.withStack (.bool (!b) :: st))
    | none => (.error (.fault .endless), m.withStack st) := by
  obtain ⟨W, gs, st', fs, b⟩ := m
  obtain rfl : st' = w :: v :: st := hm
  have hrun : (operate .ne).run ⟨W, gs, w :: v :: st, fs, b⟩ =
      (do push (.bool (!(← orFault (HostFault.answered (W.heap.equal v w)))))).run ⟨W, gs, st, fs, b⟩ := rfl
  rw [hrun]
  cases W.heap.equal v w <;> rfl

theorem operate_congr {a : Opcode} (ha : a ∈ [Opcode.eq, .ne]) {v' w' : Value}
    (hsame : m.world.heap.equal v w = m.world.heap.equal v' w') :
    (operate a).run (m.withStack (w :: v :: st)) = (operate a).run (m.withStack (w' :: v' :: st)) := by
  have hheap (st : List Value) : (m.withStack st).world.heap = m.world.heap := rfl
  rcases List.mem_pair.mp ha with rfl | rfl
  · rw [eq_run (m := m.withStack (w :: v :: st)) rfl, eq_run (m := m.withStack (w' :: v' :: st)) rfl, hheap,
      hheap, hsame]
    rfl
  · rw [ne_run (m := m.withStack (w :: v :: st)) rfl, ne_run (m := m.withStack (w' :: v' :: st)) rfl, hheap,
      hheap, hsame]
    rfl

end Exec

namespace Call

variable {α β : Type} {W : World}

theorem bind_congr {x y : Call α} (f : α → Call β) (hxy : x.run.run W = y.run.run W) :
    (x >>= f).run.run W = (y >>= f).run.run W := by
  have hbind (z : Call α) : (z >>= f).run.run W = ExceptT.bindCont f (z.run.run W).1 (z.run.run W).2 := rfl
  rw [hbind, hbind, hxy]

theorem asArray_array_bind (r : Ref) (f : Ref → Call α) : (asArray (.array r) >>= f) = f r := rfl

theorem asArray_bind_congr {f g : Ref → Call α} (hfg : ∀ r, (f r).run.run W = (g r).run.run W) (u : Value) :
    (asArray u >>= f).run.run W = (asArray u >>= g).run.run W := by
  cases u with
  | array r => exact hfg r
  | _ => rfl

theorem asArray_congr {f : Ref → Call α} {v w : Value} (hvw : W.heap.agree v w = true) (hv : ¬ v.isDouble)
    (hw : ¬ w.isDouble) (hf : ∀ r s, v = .array r → w = .array s → (f r).run.run W = (f s).run.run W) :
    (asArray v >>= f).run.run W = (asArray w >>= f).run.run W := by
  cases v with
  | array r =>
    cases w with
    | array s => exact hf r s rfl rfl
    | _ => cases hvw
  | float x => exact absurd rfl hv
  | _ =>
    cases w with
    | float x => exact absurd rfl hw
    | _ => first | rfl | cases hvw

theorem findItem_run (W : World) (r : Ref) (v : Value) : (findItem r v).run.run W =
    (orFault (HostFault.answered (W.heap.findEqual v (W.heap.items (.array r))))).run.run W := by
  show (orFault (HostFault.answered (W.heap.findEqual v (Array.toList _)))).run.run W = _
  dsimp only [Heap.items]
  cases W.heap.array? r <;> rfl

theorem findItem_congr {r s : Ref} {v w : Value} (hvw : W.heap.Indistinct v w)
    (hitems : List.Forall₂ W.heap.Indistinct (W.heap.items (.array r)) (W.heap.items (.array s))) :
    (findItem r v).run.run W = (findItem s w).run.run W := by
  rw [findItem_run, findItem_run, Heap.findEqual_congr hvw hitems]

end Call

namespace Prim

variable {p : Prim} {W : World} {v w : Value}

theorem run_equals (W : World) (v w : Value) :
    (Prim.equals.run [v, w]).run.run W =
      (Call.orFault (HostFault.answered (W.heap.equal v w)) >>= fun b => pure (.bool b) :
        Call Value).run.run W :=
  rfl

theorem run_search (hp : p ∈ [Prim.arrayContains, .indexOf]) : ∃ answer : Option Nat → Call Value,
    ∀ u v, p.run [u, v] = (Call.asArray u >>= fun r => Call.findItem r v >>= answer) := by
  rcases List.mem_pair.mp hp with rfl | rfl
  · exact ⟨_, fun _ _ => rfl⟩
  · exact ⟨_, fun _ _ => rfl⟩

theorem run_congr_right (hp : p ∈ [Prim.equals, .arrayContains, .indexOf]) (hvw : W.heap.Indistinct v w)
    (u : Value) : (p.run [u, v]).run.run W = (p.run [u, w]).run.run W := by
  rcases List.mem_cons.mp hp with rfl | hp
  · rw [run_equals, run_equals, hvw]
  · obtain ⟨answer, hrun⟩ := run_search hp
    have hfind (r : Ref) : (Call.findItem r v).run.run W = (Call.findItem r w).run.run W :=
      Call.findItem_congr hvw (List.forall₂_same.mpr fun a _ => Heap.Indistinct.refl a)
    rw [hrun, hrun]
    exact Call.asArray_bind_congr (fun r => Call.bind_congr answer (hfind r)) u

theorem run_congr_left (hp : p ∈ [Prim.equals, .arrayContains, .indexOf]) (hv : W.heap.Exact v)
    (hw : W.heap.Exact w) (hvw : W.heap.Equal v w) (u : Value) :
    (p.run [v, u]).run.run W = (p.run [w, u]).run.run W := by
  have hindistinct : W.heap.Indistinct v w := Heap.equal_congr hv hw hvw
  rcases List.mem_cons.mp hp with rfl | hp
  · rw [run_equals, run_equals, hindistinct.left]
  · obtain ⟨answer, hrun⟩ := run_search hp
    have hitems := Heap.indistinct_items hv hw hvw
    rw [hrun, hrun]
    refine Call.asArray_congr (Heap.equal_iff.mp hvw).1 hv.here hw.here fun r s hr hs => ?_
    rw [hr, hs] at hitems
    exact Call.bind_congr answer (Call.findItem_congr (.refl u) hitems)

theorem run_congr_item (hp : p ∈ [Prim.arrayContains, .indexOf]) (hvw : W.heap.Indistinct v w) {r s : Ref}
    {before after : List Value} (hr : W.heap.items (.array r) = before ++ v :: after)
    (hs : W.heap.items (.array s) = before ++ w :: after) (u : Value) :
    (p.run [.array r, u]).run.run W = (p.run [.array s, u]).run.run W := by
  obtain ⟨answer, hrun⟩ := run_search hp
  have hsame (vs : List Value) : List.Forall₂ W.heap.Indistinct vs vs :=
    List.forall₂_same.mpr fun a _ => .refl a
  have hitems : List.Forall₂ W.heap.Indistinct (W.heap.items (.array r)) (W.heap.items (.array s)) := by
    rw [hr, hs]
    exact List.rel_append (hsame before) (.cons hvw (hsame after))
  rw [hrun, hrun, Call.asArray_array_bind, Call.asArray_array_bind]
  exact Call.bind_congr answer (Call.findItem_congr (.refl u) hitems)

end Prim

def Value.negated? : Value → Option Value
  | .int n => some (.int (-n))
  | .float x => some (.float x.neg)
  | _ => none

theorem Value.Alike.negated?_isSome {v w : Value} (hw : w.Alike v) : w.negated?.isSome = v.negated?.isSome := by
  cases hw <;> simp only [Value.negated?, Option.isSome_some, Option.isSome_none]

theorem Machine.after_add {m m' : Machine} {a : Nat} (h : m.after a = .inl m') (b : Nat) :
    m.after (a + b) = m'.after b := by
  induction a generalizing m with
  | zero =>
    obtain rfl := Sum.inl.inj h
    rw [Nat.zero_add]
  | succ a ih =>
    rw [after] at h
    rw [Nat.add_right_comm, after]
    split at h
    · exact ih h
    · cases h

theorem Assembly.bytesFrom_append (start : Nat → Nat) (i : Nat) (c d : Assembly) :
    bytesFrom start i (c ++ d) = bytesFrom start i c ++ bytesFrom start (i + c.length) d := by
  induction c generalizing i with
  | nil => rfl
  | cons l c ih =>
    rw [List.cons_append, bytesFrom, bytesFrom, ih, List.append_assoc, List.length_cons, Nat.add_right_comm,
      Nat.add_assoc]

namespace Exec

variable {m m' : Machine} {f : Frame} {fs : List Frame}

theorem next_of_operate (hm : m.frames = f :: fs) {a : Opcode} {bs : List UInt8} (h : f.Ahead (a.byte :: bs))
    (hret : a ≠ .ret) (hunwrap : a ≠ .unwrapOrReturn)
    (hrun : (operate a).run (m.withFrames (f.skip 1 :: fs)) = (.ok (), m')) : m.next = .inl m' := by
  have hstep : step.run m = (.ok none, m') := by
    rw [step_run hm h, execute_eq hret hunwrap, bind_run_of_ok hrun]
    rfl
  rw [Machine.next, hstep]

theorem const_run (hm : m.frames = f :: fs) {k : Nat} {v : Value} {bs : List UInt8}
    (h : f.Ahead (littleEndian 2 k ++ bs)) (hk : k < 256 ^ 2) (hv : f.chunk.constants[k]? = some v) :
    (operate .const).run m = (.ok (), (m.withStack (v :: m.stack)).withFrames (f.skip 2 :: fs)) := by
  have hconstant : readConstant.run m = (.ok v, m.withFrames (f.skip 2 :: fs)) := by
    rw [readConstant_eq, bind_run_of_ok (readWord_run hm (by decide) hk h)]
    exact (constantAt_run (f := f.skip 2) rfl).mpr ⟨hv, rfl⟩
  rw [operate, bind_run_of_ok hconstant]
  rfl

theorem neg_run {v w : Value} {st : List Value} (hm : m.stack = v :: st) (hv : v.negated? = some w) :
    (operate .neg).run m = (.ok (), m.withStack (w :: st)) := by
  obtain ⟨W, gs, st', fs, b⟩ := m
  obtain rfl : st' = v :: st := hm
  cases v <;> cases hv <;> rfl

end Exec

def Expr.literal? {P : Phase} : Expr P → Option Value
  | .int _ _ n => some (.int n)
  | .float _ _ x => some (.float (.ofFloat x))
  | .string _ _ s => some (.str s)
  | .char _ _ c => some (.char (Int32.ofNat c.toNat))
  | .bool _ _ b => some (.bool b)
  | _ => none

/-- Which value a literal has, or a number with a sign in front. A constant that is kept once for two
values does for both. -/
inductive Expr.Means {P : Phase} : Expr P → Value → Prop
  | plain {e : Expr P} {v w : Value} (literal : e.literal? = some v) (alike : w.Alike v) : Means e w
  | signed {note : P.Note} {tok : Token} {e : Expr P} {v w u : Value} (literal : e.literal? = some v)
      (alike : w.Alike v) (sign : w.negated? = some u) : Means (.unary note tok .neg e) u

namespace Lowering

open Assembly (op)

/-- Whether some code takes one stack to another one, and changes nothing else but where the running call
stands in its code. -/
def Takes (K : Lowering) (h : Heap) (c : Assembly) (st st' : List Value) : Prop :=
  ∀ (m : Machine) (f : Frame) (fs : List Frame) (start : Nat → Nat) (i : Nat), m.world.heap = h →
    m.stack = st → m.frames = f :: fs → f.chunk.constants = K.pool → f.Ahead (Assembly.bytesFrom start i c) →
      m.after c.length =
        .inl ((m.withStack st').withFrames (f.skip (Assembly.bytesFrom start i c).length :: fs))

variable {K : Lowering} {h : Heap} {c d : Assembly} {st st' st'' : List Value} {v w : Value} {line : Int}

theorem Takes.append (hc : K.Takes h c st st') (hd : K.Takes h d st' st'') : K.Takes h (c ++ d) st st'' := by
  intro m f fs start i hheap hstack hframes hpool hahead
  rw [Assembly.bytesFrom_append] at hahead ⊢
  rw [List.length_append, Machine.after_add (hc m f fs start i hheap hstack hframes hpool hahead.left)]
  rw [hd ((m.withStack st').withFrames _) (f.skip _) fs start _ hheap rfl rfl hpool hahead.right,
    Frame.skip_skip, List.length_append]
  rfl

theorem takes_of_operate {a : Opcode} {ns : List Nat} (hret : a ≠ .ret) (hunwrap : a ≠ .unwrapOrReturn)
    (hrun : ∀ (m : Machine) (f : Frame) (fs : List Frame), m.world.heap = h → m.stack = st →
      m.frames = f :: fs → f.chunk.constants = K.pool → f.Ahead (Exec.operandBytes a ns) →
        (Exec.operate a).run m =
          (.ok (), (m.withStack st').withFrames (f.skip (Exec.operandBytes a ns).length :: fs))) :
    K.Takes h [⟨line, .op a ns⟩] st st' := by
  intro m f fs start i hheap hstack hframes hpool hahead
  have hbytes : Assembly.bytesFrom start i [⟨line, .op a ns⟩] = a.byte :: Exec.operandBytes a ns :=
    List.append_nil _
  rw [hbytes] at hahead ⊢
  have hoperate := hrun (m.withFrames (f.skip 1 :: fs)) (f.skip 1) fs hheap hstack rfl hpool hahead.tail
  rw [List.length_singleton, Machine.after, Exec.next_of_operate hframes hahead hret hunwrap hoperate,
    Frame.skip_skip, List.length_cons, Nat.add_comm 1]
  rfl

theorem takes_const {k : Nat} (hk : k ≤ Emit.maxWord) (hv : K.pool[k]? = some v) :
    K.Takes h (word .const k line) st (v :: st) := by
  refine takes_of_operate nofun nofun fun m f fs _ hstack hframes hpool hahead => ?_
  rw [Exec.const_run hframes hahead (Nat.lt_succ_of_le hk) (hpool ▸ hv), hstack]
  rfl

theorem takes_neg (hv : v.negated? = some w) : K.Takes h (op .neg line) (v :: st) (w :: st) := by
  refine takes_of_operate nofun nofun fun m f fs _ hstack hframes _ _ => ?_
  rw [Exec.neg_run hstack hv]
  exact congrArg (Except.ok (), ·) (Machine.withFrames_self (m := m.withStack (w :: st)) hframes).symm

theorem takes_eq {b : Bool} (hb : h.equal v w = some b) :
    K.Takes h (op .eq line) (w :: v :: st) (.bool b :: st) := by
  refine takes_of_operate nofun nofun fun m f fs hheap hstack hframes _ _ => ?_
  rw [Exec.eq_run hstack, hheap, hb]
  exact congrArg (Except.ok (), ·) (Machine.withFrames_self (m := m.withStack (.bool b :: st)) hframes).symm

variable {inLoop : Bool} {e : Expr .typed}

theorem takes_literal (he : e.literal? = some v) (hc : Lowers.expr K inLoop e c) :
    ∃ w, w.Alike v ∧ ∀ h st, K.Takes h c st (w :: st) := by
  have hconst (line : Int) (hv : K.Const v line c) : ∃ w, w.Alike v ∧ ∀ h st, K.Takes h c st (w :: st) := by
    obtain ⟨k, ⟨w, hw, hkey⟩, hk, rfl⟩ := hv
    exact ⟨w, Value.constKey_eq_iff.mp hkey, fun _ _ => takes_const hk hw⟩
  cases e with
  | int | float | string | char | bool =>
    obtain rfl := Option.some.inj he
    rw [Lowers.expr] at hc
    exact hconst _ hc
  | _ => cases he

theorem takes_of_means (he : e.Means v) (hc : Lowers.expr K inLoop e c) :
    ∃ w, e.Means w ∧ ∀ h st, K.Takes h c st (w :: st) := by
  cases he with
  | plain hliteral _ =>
    obtain ⟨w, hw, htakes⟩ := takes_literal hliteral hc
    exact ⟨w, .plain hliteral hw, htakes⟩
  | signed hliteral halike hsign =>
    rw [Lowers.expr] at hc
    obtain ⟨a, ha, rfl⟩ := hc
    obtain ⟨w, hw, htakes⟩ := takes_literal hliteral ha
    have hsome := hw.negated?_isSome.trans halike.negated?_isSome.symm
    rw [hsign] at hsome
    obtain ⟨u, hu⟩ := Option.isSome_iff_exists.mp hsome
    exact ⟨u, .signed hliteral hw hu, fun h st => (htakes h st).append (takes_neg hu)⟩

theorem takes_pattern {tok : Token} {subject : Assembly → Prop} (he : e.Means v)
    (hc : Lowers.pattern K inLoop subject (.literal tok e) c) :
    ∃ load test w, e.Means w ∧ subject load ∧ c = load ++ test ++ [⟨tok.line, .exit .miss⟩] ∧
      ∀ h x b st, h.equal x w = some b → K.Takes h test (x :: st) (.bool b :: st) := by
  rw [Lowers.pattern] at hc
  obtain ⟨load, a, hload, ha, rfl⟩ := hc
  obtain ⟨w, hw, htakes⟩ := takes_of_means he ha
  refine ⟨load, a ++ op .eq tok.line, w, hw, hload, by simp, fun h x b st hb => ?_⟩
  exact (htakes h (x :: st)).append (takes_eq hb)

end Lowering

namespace Heap

/-- What it means that programs that compare cannot tell two values of a heap apart. -/
structure Interchangeable (h : Heap) (v w : Value) : Prop where
  /-- Comparing gives the same answers, on either side. -/
  compared : ∀ u, h.equal u v = h.equal u w ∧ h.equal v u = h.equal w u
  /-- The instructions for equality do the same, with either operand. -/
  operand : ∀ a ∈ [Opcode.eq, .ne], ∀ (m : Machine) (u : Value) (st : List Value), m.world.heap = h →
    (Exec.operate a).run (m.withStack (v :: u :: st)) = (Exec.operate a).run (m.withStack (w :: u :: st)) ∧
    (Exec.operate a).run (m.withStack (u :: v :: st)) = (Exec.operate a).run (m.withStack (u :: w :: st))
  /-- The test of a literal pattern pushes the same answer: whether they equal the literal. -/
  matched : ∀ (K : Lowering) (inLoop : Bool) (subject : Assembly → Prop) (tok : Token) (e : Expr .typed)
    (c : Assembly), (∃ x, e.Means x) → Lowers.pattern K inLoop subject (.literal tok e) c →
      ∃ load test x b, e.Means x ∧ h.equal v x = some b ∧ subject load ∧
        c = load ++ test ++ [⟨tok.line, .exit .miss⟩] ∧
        ∀ st, K.Takes h test (v :: st) (.bool b :: st) ∧ K.Takes h test (w :: st) (.bool b :: st)
  /-- Functions find the same when they look for one of the two. -/
  sought : ∀ p ∈ [Prim.equals, .arrayContains, .indexOf], ∀ W : World, W.heap = h → ∀ u,
    (p.run [u, v]).run.run W = (p.run [u, w]).run.run W
  /-- They find the same when they look through one of the two. -/
  searched : ∀ p ∈ [Prim.equals, .arrayContains, .indexOf], ∀ W : World, W.heap = h → ∀ u,
    (p.run [v, u]).run.run W = (p.run [w, u]).run.run W
  /-- They find the same when they look through arrays of which one holds the one where the other one
  holds the other. -/
  held : ∀ p ∈ [Prim.arrayContains, .indexOf], ∀ W : World, W.heap = h → ∀ (r s : Ref)
    (before after : List Value), h.items (.array r) = before ++ v :: after →
      h.items (.array s) = before ++ w :: after → ∀ u,
        (p.run [.array r, u]).run.run W = (p.run [.array s, u]).run.run W

theorem interchangeable_of_equal {h : Heap} {v w : Value} (hv : h.Exact v) (hw : h.Exact w)
    (hvw : h.Equal v w) : h.Interchangeable v w where
  compared u := ⟨equal_congr hv hw hvw u, Indistinct.left (equal_congr hv hw hvw) u⟩
  operand a ha m u st hm := by
    subst hm
    exact ⟨Exec.operate_congr ha (equal_congr hv hw hvw u),
      Exec.operate_congr ha (Indistinct.left (equal_congr hv hw hvw) u)⟩
  matched K inLoop subject tok e c := fun ⟨x, hx⟩ hc => by
    obtain ⟨load, test, y, hy, hload, hcode, htakes⟩ := Lowering.takes_pattern hx hc
    obtain ⟨b, hb⟩ := Option.isSome_iff_exists.mp (equal_isSome hv.finite y)
    have hb' : h.equal w y = some b := (Indistinct.left (equal_congr hv hw hvw) y).symm.trans hb
    exact ⟨load, test, y, b, hy, hb, hload, hcode, fun st => ⟨htakes h v b st hb, htakes h w b st hb'⟩⟩
  sought p hp W hW u := by
    subst hW
    exact Prim.run_congr_right hp (equal_congr hv hw hvw) u
  searched p hp W hW u := by
    subst hW
    exact Prim.run_congr_left hp hv hw hvw u
  held p hp W hW r s before after hr hs u := by
    subst hW
    exact Prim.run_congr_item hp (equal_congr hv hw hvw) hr hs u

/-- What comparing the values of a heap promises. -/
structure EqualityLaws (h : Heap) : Prop where
  /-- Two values are equal exactly if they agree in what they are and their parts are equal in pairs. -/
  structural : ∀ v w, h.Equal v w ↔ h.agree v w = true ∧ List.Forall₂ h.Equal (h.items v) (h.items w)
  /-- Comparing a finite value with anything comes to an answer. -/
  answered : ∀ v, h.Finite v → ∀ w, (h.equal v w).isSome
  /-- The order does not matter. -/
  symmetric : ∀ v w, h.equal v w = h.equal w v
  /-- On values without doubles it is an equivalence. -/
  equivalence : Equivalence fun v w : {v // h.Exact v} => h.Equal v w
  /-- Arrays are equal exactly if their items are in pairs. -/
  arrays : ∀ (r s : Ref) (a b : ArrayObject), h.array? r = some a → h.array? s = some b →
    (h.Equal (.array r) (.array s) ↔ List.Forall₂ h.Equal a.items.toList b.items.toList)
  /-- Records and variants are equal exactly if they are of one type and tag and their fields are equal. -/
  instances : ∀ (r s : Ref) (i j : Instance), h.inst? r = some i → h.inst? s = some j →
    (h.Equal (.inst r) (.inst s) ↔
      (i.typeName = j.typeName ∧ i.tag = j.tag) ∧ List.Forall₂ h.Equal i.fields.toList j.fields.toList)
  /-- So they are when they are made. -/
  newArrays : ∀ a b : ArrayObject, List.Forall₂ h.Equal a.items.toList b.items.toList →
    ((h.newArray a).2.newArray b).2.Equal (h.newArray a).1 ((h.newArray a).2.newArray b).1
  newInstances : ∀ i j : Instance, i.typeName = j.typeName → i.tag = j.tag →
    List.Forall₂ h.Equal i.fields.toList j.fields.toList →
      ((h.newInst i).2.newInst j).2.Equal (h.newInst i).1 ((h.newInst i).2.newInst j).1
  /-- Equal values without doubles are the same to a program that compares. -/
  interchangeable : ∀ v w, h.Exact v → h.Exact w → h.Equal v w → h.Interchangeable v w

theorem equality_lawful (h : Heap) : h.EqualityLaws where
  structural _ _ := equal_iff
  answered _ hv w := equal_isSome hv w
  symmetric := equal_comm h
  equivalence := ⟨fun v => v.2.equal_self, Equal.symm, fun {_ v w} huv hvw => huv.trans v.2 w.2 hvw⟩
  arrays _ _ _ _ ha hb := equal_array_iff ha hb
  instances _ _ _ _ hi hj := equal_inst_iff hi hj
  newArrays _ _ hitems := equal_newArray hitems
  newInstances _ _ hname htag hfields := equal_newInst hname htag hfields
  interchangeable _ _ hv hw hvw := interchangeable_of_equal hv hw hvw

/-- Two arrays of a text and a variant. -/
def paired : Heap where
  arrays := #[⟨.unknown, #[.str "a", .inst 0]⟩, ⟨.unknown, #[.str "a", .inst 1]⟩]
  insts := #[⟨"Shape", "Circle", ["radius"], #[.int 1]⟩, ⟨"Shape", "Circle", ["radius"], #[.int 1]⟩]

theorem equality_lawful_paired : paired.Exact (.array 0) ∧ paired.Exact (.array 1) ∧
    paired.Equal (.array 0) (.array 1) ∧ paired.Interchangeable (.array 0) (.array 1) := by
  have hlaws := equality_lawful paired
  have hleaf (v : Value) (hdouble : ¬ v.isDouble) (hknown : paired.Known v) (hitems : paired.items v = []) :
      paired.Exact v := .intro hdouble hknown (by simp [hitems])
  have hint : paired.Exact (.int 1) := hleaf _ nofun trivial rfl
  have hstr : paired.Exact (.str "a") := hleaf _ nofun trivial rfl
  have hinst (r : Ref) (hr : paired.inst? r = some ⟨"Shape", "Circle", ["radius"], #[.int 1]⟩) :
      paired.Exact (.inst r) :=
    .intro nofun (Option.isSome_iff_exists.mpr ⟨_, hr⟩) (by
      rw [items_inst hr]
      exact List.forall_mem_singleton.mpr hint)
  have harray (r s : Ref) (hr : paired.array? r = some ⟨.unknown, #[.str "a", .inst s]⟩)
      (hs : paired.Exact (.inst s)) : paired.Exact (.array r) :=
    .intro nofun (Option.isSome_iff_exists.mpr ⟨_, hr⟩) (by
      rw [items_array hr]
      exact List.forall_mem_cons.mpr ⟨hstr, List.forall_mem_singleton.mpr hs⟩)
  have hcircles : paired.Equal (.inst 0) (.inst 1) :=
    (hlaws.instances 0 1 _ _ rfl rfl).mpr ⟨⟨rfl, rfl⟩, .cons (hlaws.equivalence.refl ⟨_, hint⟩) .nil⟩
  have hequal : paired.Equal (.array 0) (.array 1) :=
    (hlaws.arrays 0 1 _ _ rfl rfl).mpr (.cons (hlaws.equivalence.refl ⟨_, hstr⟩) (.cons hcircles .nil))
  have hfirst := harray 0 0 rfl (hinst 0 rfl)
  have hsecond := harray 1 1 rfl (hinst 1 rfl)
  exact ⟨hfirst, hsecond, hequal, hlaws.interchangeable _ _ hfirst hsecond hequal⟩

end Heap
end Scripting

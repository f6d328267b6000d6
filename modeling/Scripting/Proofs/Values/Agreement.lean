import Mathlib.Data.List.Forall2
import Scripting.Proofs.Types.Join
import Scripting.Value.Equal

/-!
# What comparing two values asks

Comparing two values looks at what they are first (`Heap.agree`) and then, for arrays and instances, at
their parts in pairs: `equalFrom_succ`. It does not depend on the order of the two (`equalFrom_comm`), and
more levels give no other answer (`equalFrom_le`).
-/

namespace Scripting

open Float.Model in
theorem compare_swap (x y : UnpackedFloat) : y.compare x = (x.compare y).map Ordering.swap := by
  have hdigits (e f : Int) (m n : Nat) :
      (compare f e).then (compare n m) = ((compare e f).then (compare m n)).swap := by
    rw [Ordering.swap_then, ← Std.OrientedOrd.eq_swap, ← Std.OrientedOrd.eq_swap]
  -- Only two finite numbers of one sign are told apart by their digits.
  rcases x with ⟨_ | _⟩ | _ | _ | ⟨_ | _, m, e, _⟩ <;>
    rcases y with ⟨_ | _⟩ | _ | _ | ⟨_ | _, n, f, _⟩ <;> try rfl
  · exact congrArg (some ·.swap) (hdigits e f m n)
  · exact congrArg some (hdigits e f m n)

open Float.Model in
theorem compare_eq_comm (x y : UnpackedFloat) : x.compare y = some .eq ↔ y.compare x = some .eq := by
  rw [compare_swap x y]
  rcases x.compare y with _ | _ | _ | _ <;> decide

theorem float_beq_iff (x y : Float) :
    (x == y) = true ↔ x.toModel.unpack.compare y.toModel.unpack = some .eq := by
  show (x.toModel.unpack.compare y.toModel.unpack == some .eq) = true ↔ _
  exact beq_iff_eq

theorem float_beq_comm (x y : Float) : (x == y) = (y == x) := by
  rw [Bool.eq_iff_iff, float_beq_iff, float_beq_iff, compare_eq_comm]

def Value.isDouble : Value → Bool
  | .float _ => true
  | _ => false

namespace Heap

def items (h : Heap) : Value → List Value
  | .inst r => ((h.inst? r).map fun i => i.fields.toList).getD []
  | .array r => ((h.array? r).map fun a => a.items.toList).getD []
  | _ => []

def agree (h : Heap) : Value → Value → Bool
  | .absent, .absent => true
  | .int a, .int b => a == b
  | .int a, .float b => a.toFloat == b.toFloat
  | .float a, .float b => a.toFloat == b.toFloat
  | .float a, .int b => a.toFloat == b.toFloat
  | .str a, .str b => a == b
  | .bool a, .bool b => a == b
  | .char a, .char b => a == b
  | .unit, .unit => true
  | .type _ t, .type _ u => t.same u
  | .cell r, .cell s => r == s
  | .host r, .host s => r == s
  | .func r, .func s => r == s
  | .builtin i _, .builtin j _ => i == j
  | .ctor i _, .ctor j _ => i == j
  | .closure i _ _, .closure j _ _ => i == j
  | .array r, .array s =>
    match h.array? r, h.array? s with
    | some a, some b => a.items.size == b.items.size
    | _, _ => false
  | .inst r, .inst s =>
    match h.inst? r, h.inst? s with
    | some a, some b => a.typeName == b.typeName && a.tag == b.tag && a.fields.size == b.fields.size
    | _, _ => false
  | _, _ => false

variable {h : Heap} {u v w : Value} {n : Nat}

theorem items_array {r : Ref} {a : ArrayObject} (ha : h.array? r = some a) :
    h.items (.array r) = a.items.toList := by
  rw [items, ha]
  rfl

theorem items_inst {r : Ref} {i : Instance} (hi : h.inst? r = some i) :
    h.items (.inst r) = i.fields.toList := by
  rw [items, hi]
  rfl

theorem equalFrom_succ (h : Heap) (n : Nat) (v w : Value) : h.equalFrom (n + 1) v w =
    if h.agree v w then equalParts (h.equalFrom n) (h.items v) (h.items w) else some false := by
  have hleaf (b : Bool) : (if b then equalParts (h.equalFrom n) [] [] else some false) = some b := by
    cases b <;> rfl
  cases v <;> cases w <;> try exact (hleaf _).symm
  case array.array r s =>
    rw [equalFrom, agree, items, items]
    cases h.array? r <;> cases h.array? s <;> rfl
  case inst.inst r s =>
    rw [equalFrom, agree, items, items]
    cases h.inst? r <;> cases h.inst? s <;> rfl

theorem agree_comm (h : Heap) (v w : Value) : h.agree v w = h.agree w v := by
  cases v <;> cases w <;> try rfl
  case int.int => exact Bool.beq_comm
  case int.float => exact float_beq_comm _ _
  case float.int => exact float_beq_comm _ _
  case float.float => exact float_beq_comm _ _
  case type.type => exact Ty.same_comm _ _
  case array.array r s =>
    rw [agree, agree]
    cases h.array? r <;> cases h.array? s <;> try rfl
    exact Bool.beq_comm
  case inst.inst r s =>
    rw [agree, agree]
    cases h.inst? r <;> cases h.inst? s <;> try rfl
    rename_i a b
    dsimp only
    rw [Bool.beq_comm (a := a.typeName), Bool.beq_comm (a := a.tag), Bool.beq_comm (a := a.fields.size)]
  all_goals exact Bool.beq_comm

def Known (h : Heap) : Value → Prop
  | .inst r => (h.inst? r).isSome
  | .array r => (h.array? r).isSome
  | _ => True

theorem agree_self (hknown : h.Known v) (hv : ¬ v.isDouble) : h.agree v v = true := by
  cases v with
  | float x => exact absurd rfl hv
  | array r =>
    obtain ⟨a, ha⟩ := Option.isSome_iff_exists.mp hknown
    rw [agree, ha]
    exact beq_self_eq_true _
  | inst r =>
    obtain ⟨i, hi⟩ := Option.isSome_iff_exists.mp hknown
    rw [agree, hi]
    simp
  | type _ t => exact Ty.same_refl t
  | absent => rfl
  | unit => rfl
  | _ => exact beq_self_eq_true _

theorem agree_array_iff {r s : Ref} : h.agree (.array r) (.array s) = true ↔
    ∃ a b, h.array? r = some a ∧ h.array? s = some b ∧ a.items.size = b.items.size := by
  rw [agree]
  cases h.array? r <;> cases h.array? s <;> simp

theorem agree_inst_iff {r s : Ref} : h.agree (.inst r) (.inst s) = true ↔
    ∃ i j, h.inst? r = some i ∧ h.inst? s = some j ∧ i.typeName = j.typeName ∧ i.tag = j.tag ∧
      i.fields.size = j.fields.size := by
  rw [agree]
  cases h.inst? r <;> cases h.inst? s <;> simp [and_assoc]

theorem known_of_agree (hvw : h.agree v w = true) : h.Known v := by
  cases v <;> cases w <;> try first | trivial | cases hvw
  case array.array r s =>
    obtain ⟨a, -, ha, -⟩ := agree_array_iff.mp hvw
    exact Option.isSome_iff_exists.mpr ⟨a, ha⟩
  case inst.inst r s =>
    obtain ⟨i, -, hi, -⟩ := agree_inst_iff.mp hvw
    exact Option.isSome_iff_exists.mpr ⟨i, hi⟩

theorem length_items_of_agree (hvw : h.agree v w = true) : (h.items v).length = (h.items w).length := by
  cases v <;> cases w <;> try first | rfl | cases hvw
  case array.array r s =>
    obtain ⟨a, b, ha, hb, hsize⟩ := agree_array_iff.mp hvw
    simpa [items_array ha, items_array hb] using hsize
  case inst.inst r s =>
    obtain ⟨i, j, hi, hj, -, -, hsize⟩ := agree_inst_iff.mp hvw
    simpa [items_inst hi, items_inst hj] using hsize

theorem agree_congr (hvw : h.agree v w = true) (hv : ¬ v.isDouble) (hw : ¬ w.isDouble)
    (u : Value) : h.agree u v = h.agree u w := by
  cases v <;> cases w <;> try first | cases hvw | exact absurd rfl hv | exact absurd rfl hw
  case absent.absent | unit.unit => rfl
  case type.type _ t _ t' =>
    have hsame : t.same t' = true := hvw
    cases u with
    | type _ x =>
      have hiff : x.same t = true ↔ x.same t' = true :=
        ⟨fun hx => Ty.same_trans hx hsame, fun hx => Ty.same_trans hx (Ty.same_symm hsame)⟩
      exact Bool.eq_iff_iff.mpr hiff
    | _ => rfl
  case builtin.builtin | ctor.ctor | closure.closure =>
    obtain rfl := beq_iff_eq.mp hvw
    cases u <;> rfl
  case array.array r s =>
    cases u with
    | array q =>
      obtain ⟨a, b, ha, hb, hsize⟩ := agree_array_iff.mp hvw
      rw [agree, agree, ha, hb]
      cases h.array? q with
      | none => rfl
      | some c => exact congrArg (c.items.size == ·) hsize
    | _ => rfl
  case inst.inst r s =>
    cases u with
    | inst q =>
      obtain ⟨i, j, hi, hj, hname, htag, hsize⟩ := agree_inst_iff.mp hvw
      rw [agree, agree, hi, hj]
      cases h.inst? q with
      | none => rfl
      | some k => simp only [hname, htag, hsize]
    | _ => rfl
  all_goals
    obtain rfl := beq_iff_eq.mp hvw
    rfl

section Parts

variable {eq other : Value → Value → Option Bool} {vs ws : List Value}

theorem equalParts_isSome : {vs ws : List Value} → (heq : ∀ v ∈ vs, ∀ w ∈ ws, (eq v w).isSome) →
    (equalParts eq vs ws).isSome
  | [], ws, _ => by cases ws <;> rfl
  | v :: vs, [], _ => rfl
  | v :: vs, w :: ws, heq => by
    obtain ⟨b, hb⟩ := Option.isSome_iff_exists.mp (heq v List.mem_cons_self w List.mem_cons_self)
    have hrest : (equalParts eq vs ws).isSome := equalParts_isSome fun v hv w hw =>
      heq v (List.mem_cons_of_mem _ hv) w (List.mem_cons_of_mem _ hw)
    rw [equalParts, hb]
    cases b
    · rfl
    · exact hrest

theorem equalParts_comm (heq : ∀ v w, eq v w = eq w v) : (vs ws : List Value) →
    equalParts eq vs ws = equalParts eq ws vs
  | [], [] => rfl
  | [], _ :: _ => rfl
  | _ :: _, [] => rfl
  | v :: vs, w :: ws => by rw [equalParts, equalParts, heq, equalParts_comm heq vs ws]

theorem equalParts_eq_true_iff (hlength : vs.length = ws.length) :
    equalParts eq vs ws = some true ↔ List.Forall₂ (fun v w => eq v w = some true) vs ws := by
  induction vs generalizing ws with
  | nil =>
    obtain rfl := List.length_eq_zero_iff.mp hlength.symm
    exact ⟨fun _ => .nil, fun _ => rfl⟩
  | cons v vs ih =>
    obtain ⟨w, ws, rfl⟩ := List.exists_of_length_succ ws hlength.symm
    rw [List.forall₂_cons, ← ih (Nat.succ.inj hlength), equalParts]
    cases eq v w with
    | none => simp
    | some b => cases b <;> simp

theorem equalParts_mono (heq : ∀ v w b, eq v w = some b → other v w = some b) {b : Bool}
    (hvs : equalParts eq vs ws = some b) : equalParts other vs ws = some b := by
  induction vs generalizing ws with
  | nil => exact hvs
  | cons v vs ih =>
    cases ws with
    | nil => exact hvs
    | cons w ws =>
      obtain ⟨c, hc, hrest⟩ := Option.bind_eq_some_iff.mp hvs
      rw [equalParts, heq v w c hc]
      cases c with
      | false => exact hrest
      | true => exact ih hrest

theorem equalParts_congr {R : Value → Value → Prop} (hvs : List.Forall₂ R vs ws)
    (heq : ∀ v ∈ vs, ∀ w ∈ ws, R v w → ∀ u, eq u v = eq u w) (us : List Value) :
    equalParts eq us vs = equalParts eq us ws := by
  induction hvs generalizing us with
  | nil => rfl
  | cons hvw _ ih =>
    cases us with
    | nil => rfl
    | cons u us =>
      rw [equalParts, equalParts, heq _ List.mem_cons_self _ List.mem_cons_self hvw,
        ih fun v hv w hw => heq v (List.mem_cons_of_mem _ hv) w (List.mem_cons_of_mem _ hw)]

end Parts

theorem equalFrom_comm (h : Heap) (n : Nat) (v w : Value) : h.equalFrom n v w = h.equalFrom n w v := by
  induction n generalizing v w with
  | zero => rfl
  | succ n ih => rw [equalFrom_succ, equalFrom_succ, agree_comm, equalParts_comm ih]

theorem equalFrom_eq_true_iff : h.equalFrom (n + 1) v w = some true ↔ h.agree v w = true ∧
    List.Forall₂ (fun a b => h.equalFrom n a b = some true) (h.items v) (h.items w) := by
  rw [equalFrom_succ]
  cases hvw : h.agree v w with
  | false => simp
  | true => simp [equalParts_eq_true_iff (length_items_of_agree hvw)]

theorem equalFrom_le {m : Nat} (hnm : n ≤ m) {b : Bool} (hb : h.equalFrom n v w = some b) :
    h.equalFrom m v w = some b := by
  induction n generalizing m v w b with
  | zero => cases hb
  | succ n ih =>
    obtain ⟨m, rfl⟩ := Nat.exists_eq_add_of_le' hnm
    rw [← Nat.add_assoc, equalFrom_succ] at *
    split at hb
    · rename_i hvw
      rw [if_pos hvw]
      exact equalParts_mono (fun v w b hb => ih (by omega) hb) hb
    · rename_i hvw
      rw [if_neg hvw]
      exact hb

end Heap
end Scripting

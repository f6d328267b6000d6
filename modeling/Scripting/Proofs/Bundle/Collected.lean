import Mathlib.Data.List.Forall2
import Mathlib.Data.List.Perm.Subperm
import Scripting.Proofs.Bundle.Graph

/-!
# Collecting the functions of a script

A function gets its place when it is first met, before its constants are stored, so that functions
may refer to each other. `Coded` relates a constant and its stored form once all places are given.
`Collects` says what a step of collecting adds: functions that were not there, each with its stored
form complete. The induction is on the depth that is left; every function that is entered uses up
as much of it as instances can take.
-/

namespace Scripting.Bundle

variable {h : Heap}

/-- Whether a constant has a stored form when the functions have the places of a list. -/
inductive Coded (h : Heap) (refs : List Ref) : Value → Constant → Prop
  | int (n : Int64) : Coded h refs (.int n) (.int n)
  | float (x : Double) : Coded h refs (.float x) (.float x)
  | str (s : String) : Coded h refs (.str s) (.str s)
  | bool (b : Bool) : Coded h refs (.bool b) (.bool b)
  | char (c : Int32) : Coded h refs (.char c) (.char c.toInt64)
  | unit : Coded h refs .unit .unit
  | func {r : Ref} {i : Nat} (hi : refs[i]? = some r) : Coded h refs (.func r) (.func i)
  | builtin (i : Nat) (b : Builtin) : Coded h refs (.builtin i b) (.builtin b.name)
  | ctor (i : Nat) (c : Ctor) : Coded h refs (.ctor i c) (.ctor c.typeName c.tag c.fields)
  | type (i : Nat) (t : Ty) : Coded h refs (.type i t) (.type t.text)
  | inst {i : Ref} {x : Instance} {cs : List Constant} (hx : h.inst? i = some x)
      (hlength : cs.length = x.fields.size)
      (hfields : ∀ (k : Nat) v c, x.fields[k]? = some v → cs[k]? = some c → Coded h refs v c) :
      Coded h refs (.inst i) (.inst x.typeName x.tag x.fieldNames cs)

/-- A stored function. -/
structure Stores (h : Heap) (refs : List Ref) (r : Ref) (g : Function) : Prop where
  body : ∃ f c, h.Body r f c ∧ g.name = f.name ∧ g.arity = f.arity ∧ g.localCount = f.localCount ∧
    g.freeCount = f.freeCount ∧ g.code = c.code.toList ∧ g.lines = c.lines.toList ∧ g.file = c.file ∧
      List.Forall₂ (Coded h refs) c.constants.toList g.constants

theorem get?_of_isPrefix {α : Type} {xs ys : List α} (hp : xs <+: ys) {i : Nat} {a : α}
    (hi : xs[i]? = some a) : ys[i]? = some a := by
  obtain ⟨zs, rfl⟩ := hp
  rw [List.getElem?_append_left (List.getElem?_eq_some_iff.mp hi).1, hi]

theorem Coded.later {xs ys : List Ref} (hp : xs <+: ys) {v : Value} {c : Constant}
    (hc : Coded h xs v c) : Coded h ys v c := by
  induction hc with
  | func hi => exact .func (get?_of_isPrefix hp hi)
  | inst hx hlength _ ih => exact .inst hx hlength ih
  | _ => constructor

theorem Stores.later {xs ys : List Ref} (hp : xs <+: ys) {r : Ref} {g : Function}
    (hg : Stores h xs r g) : Stores h ys r g := by
  obtain ⟨f, c, hb, hname, harity, hlocals, hfree, hcode, hlines, hfile, hconstants⟩ := hg.body
  exact ⟨f, c, hb, hname, harity, hlocals, hfree, hcode, hlines, hfile,
    hconstants.imp fun _ _ => .later hp⟩

theorem Coded.part {refs : List Ref} {v w : Value} (hw : h.Holds v w) {c : Constant}
    (hc : Coded h refs v c) : ∃ d, Coded h refs w d := by
  induction hw generalizing c with
  | self v => exact ⟨c, hc⟩
  | inst hx hv _ ih =>
    cases hc with
    | @inst _ _ cs hx' hlength hfields =>
      obtain rfl := Option.some.inj (hx'.symm.trans hx)
      obtain ⟨k, hk, rfl⟩ := Array.mem_iff_getElem.mp hv
      have hkc : cs[k]? = some (cs[k]) := List.getElem?_eq_getElem (by omega)
      exact ih (hfields k _ _ (Array.getElem?_eq_getElem hk) hkc)

theorem Coded.mem_of_holds {refs : List Ref} {v : Value} {r : Ref} {c : Constant}
    (hc : Coded h refs v c) (hr : h.Holds v (.func r)) : r ∈ refs := by
  obtain ⟨d, hd⟩ := hc.part hr
  cases hd with
  | func hi => exact List.mem_of_getElem? hi

/-- What holds of the functions met so far. -/
structure Collected.Sound (h : Heap) (s : Collected) : Prop where
  size : s.functions.size = s.refs.size
  distinct : s.refs.toList.Nodup
  there : ∀ r ∈ s.refs, r < h.funcs.size

def Collected.left (h : Heap) (s : Collected) : Nat := h.funcs.size - s.refs.size

/-- What a step leaves behind: places stay, and every function that the step met is one of `P` and
is stored. -/
structure Collected.Adds (h : Heap) (P : Ref → Prop) (s t : Collected) : Prop where
  sound : t.Sound h
  places : s.refs.toList <+: t.refs.toList
  kept : ∀ i < s.refs.size, t.functions[i]? = s.functions[i]?
  new : ∀ (i : Nat) r, s.refs.size ≤ i → t.refs[i]? = some r →
    P r ∧ ∃ g, t.functions[i]? = some g ∧ Stores h t.refs.toList r g

namespace Collected

variable {P P' : Ref → Prop} {s t u : Collected}

theorem Sound.count (hs : s.Sound h) : s.refs.size ≤ h.funcs.size := by
  have hsub : s.refs.toList ⊆ List.range h.funcs.size := fun r hr =>
    List.mem_range.mpr (hs.there r (by simpa using hr))
  simpa using (List.subperm_of_subset hs.distinct hsub).length_le

theorem Adds.refl (hs : s.Sound h) : s.Adds h P s where
  sound := hs
  places := List.prefix_rfl
  kept _ _ := rfl
  new i r hi hr := absurd (Array.getElem?_eq_some_iff.mp hr).1 (by omega)

theorem Adds.size (ht : s.Adds h P t) : s.refs.size ≤ t.refs.size := by
  simpa using ht.places.length_le

theorem Adds.left (ht : s.Adds h P t) : t.left h ≤ s.left h :=
  Nat.sub_le_sub_left ht.size _

theorem Adds.mono (ht : s.Adds h P t) (hP : ∀ r, P r → P' r) : s.Adds h P' t :=
  ⟨ht.sound, ht.places, ht.kept, fun i r hi hr => ⟨hP r (ht.new i r hi hr).1, (ht.new i r hi hr).2⟩⟩

theorem Adds.trans (ht : s.Adds h P t) (hu : t.Adds h P u) : s.Adds h P u where
  sound := hu.sound
  places := ht.places.trans hu.places
  kept i hi := (hu.kept i (Nat.lt_of_lt_of_le hi ht.size)).trans (ht.kept i hi)
  new i r hi hr := by
    by_cases hlt : i < t.refs.size
    · -- Met by the first step, whose functions the second one keeps.
      have hold : t.refs[i]? = some (t.refs[i]) := Array.getElem?_eq_getElem hlt
      have hsame : u.refs[i]? = some (t.refs[i]) := by
        rw [← Array.getElem?_toList] at hold ⊢
        exact get?_of_isPrefix hu.places hold
      obtain rfl : r = t.refs[i] := Option.some.inj (hr.symm.trans hsame)
      obtain ⟨hP, g, hg, hstores⟩ := ht.new i _ hi hold
      exact ⟨hP, g, (hu.kept i hlt).trans hg, hstores.later hu.places⟩
    · exact hu.new i r (Nat.le_of_not_lt hlt) hr

end Collected

/-- Whether a step of collecting succeeds where at least `n` levels are left above what the functions
that were not met can take. It adds functions of `P`, and its result is right for their places. -/
def Collects {α : Type} (h : Heap) (levels n : Nat) (P : Ref → Prop) (m : Collect α)
    (Q : List Ref → α → Prop) : Prop :=
  ∀ s : Collected, s.Sound h → s.left h * (h.insts.size + 2) + n ≤ levels →
    ∃ a t, m.run.run s = (.ok a, t) ∧ s.Adds h P t ∧ Q t.refs.toList a

section Running

variable {ε σ α β : Type}

theorem run_bind {m : ExceptT ε (StateM σ) α} {f : α → ExceptT ε (StateM σ) β} {s t : σ} {a : α}
    (hm : m.run.run s = (.ok a, t)) : (m >>= f).run.run s = (f a).run.run t := by
  have hrun : (m >>= f).run.run s = ExceptT.bindCont f (m.run.run s).1 (m.run.run s).2 := rfl
  rw [hrun, hm]
  rfl

theorem exists_of_run_bind {m : ExceptT ε (StateM σ) α} {f : α → ExceptT ε (StateM σ) β} {s u : σ} {b : β}
    (h : (m >>= f).run.run s = (.ok b, u)) :
    ∃ a t, m.run.run s = (.ok a, t) ∧ (f a).run.run t = (.ok b, u) := by
  have hrun : (m >>= f).run.run s = ExceptT.bindCont f (m.run.run s).1 (m.run.run s).2 := rfl
  rw [hrun] at h
  cases hm : m.run.run s with
  | mk r t =>
    rw [hm] at h
    cases r with
    | ok a => exact ⟨a, t, rfl, h⟩
    | error e => cases h

theorem run_tryCatch_ok {m : ExceptT ε (StateM σ) α} {f : ε → ExceptT ε (StateM σ) α} {s t : σ} {a : α}
    (hm : m.run.run s = (.ok a, t)) : (tryCatch m f).run.run s = (.ok a, t) := by
  have hrun : (tryCatch m f).run.run s = (match (m.run.run s).1 with
      | .ok a => (pure (.ok a) : StateM σ (Except ε α))
      | .error e => f e) (m.run.run s).2 := rfl
  rw [hrun, hm]
  rfl

theorem run_tryCatch_error {m : ExceptT ε (StateM σ) α} {f : ε → ExceptT ε (StateM σ) α} {s t : σ} {e : ε}
    (hm : m.run.run s = (.error e, t)) : (tryCatch m f).run.run s = (f e).run.run t := by
  have hrun : (tryCatch m f).run.run s = (match (m.run.run s).1 with
      | .ok a => (pure (.ok a) : StateM σ (Except ε α))
      | .error e => f e) (m.run.run s).2 := rfl
  rw [hrun, hm]
  rfl

end Running

namespace Collects

variable {α β : Type} {levels n : Nat} {P P' : Ref → Prop} {m : Collect α} {Q : List Ref → α → Prop}

theorem pure {a : α} (ha : ∀ refs, Q refs a) : Collects h levels n P (Pure.pure a) Q :=
  fun s hs _ => ⟨a, s, rfl, .refl hs, ha _⟩

theorem map {f : α → β} {Q' : List Ref → β → Prop} (hm : Collects h levels n P m Q)
    (hf : ∀ refs a, Q refs a → Q' refs (f a)) :
    Collects h levels n P (m >>= fun a => Pure.pure (f a)) Q' := by
  intro s hs hlevels
  obtain ⟨a, t, hrun, hadds, ha⟩ := hm s hs hlevels
  exact ⟨f a, t, run_bind hrun, hadds, hf _ a ha⟩

theorem mapM {one : Value → Collect Constant} : {vs : List Value} →
    (∀ v ∈ vs, Collects h levels n P (one v) fun refs c => Coded h refs v c) →
    Collects h levels n P (vs.mapM one) fun refs cs => List.Forall₂ (Coded h refs) vs cs
  | [], _ => fun s hs _ => ⟨[], s, rfl, .refl hs, .nil⟩
  | v :: vs, hone => by
    intro s hs hlevels
    obtain ⟨c, t, hrun, hadds, hc⟩ := hone v List.mem_cons_self s hs hlevels
    have hleft := Nat.mul_le_mul_right (h.insts.size + 2) hadds.left
    obtain ⟨cs, u, hrun', hadds', hcs⟩ :=
      mapM (fun w hw => hone w (List.mem_cons_of_mem _ hw)) t hadds.sound (by omega)
    refine ⟨c :: cs, u, ?_, hadds.trans hadds', .cons (hc.later hadds'.places) hcs⟩
    rw [List.mapM_cons, run_bind hrun, run_bind hrun']
    rfl

end Collects

theorem within_run {α : Type} {name : String} {x : Collect α} {s t : Collected} {a : α}
    (hx : x.run.run s = (.ok a, t)) : (within name x).run.run s = (.ok a, t) :=
  run_tryCatch_ok hx

theorem findIdx?_refs {refs : Array Ref} {r : Ref} :
    (refs.findIdx? (· == r) = none → r ∉ refs) ∧
      ∀ i, refs.findIdx? (· == r) = some i → refs[i]? = some r := by
  constructor
  · intro hnone hr
    have := Array.findIdx?_eq_none_iff.mp hnone r hr
    simp at this
  · intro i hi
    obtain ⟨hlt, hir, -⟩ := Array.findIdx?_eq_some_iff_getElem.mp hi
    rw [Array.getElem?_eq_getElem hlt, eq_of_beq hir]

/-- The state once a function has its place. -/
def Collected.enter (s : Collected) (r : Ref) : Collected :=
  { s with refs := s.refs.push r, functions := s.functions.push default }

theorem Collected.Sound.enter {s : Collected} {r : Ref} (hs : s.Sound h) (hr : r < h.funcs.size)
    (hnew : r ∉ s.refs) : (s.enter r).Sound h where
  size := by simp [Collected.enter, hs.size]
  distinct := by
    simp only [Collected.enter, Array.toList_push]
    exact List.nodup_append.mpr ⟨hs.distinct, by simp, by rintro a ha b hb rfl; simp_all⟩
  there q hq := by
    rcases Array.mem_push.mp hq with hq | rfl
    · exact hs.there q hq
    · exact hr

theorem Collected.Sound.left_enter {s : Collected} {r : Ref} (hs : (s.enter r).Sound h) :
    (s.enter r).left h + 1 = s.left h := by
  have hcount := hs.count
  simp only [Collected.enter, Array.size_push] at hcount
  simp only [Collected.left, Collected.enter, Array.size_push]
  omega

def storedAs (f : Scripting.Function) (c : Chunk) (constants : List Constant) : Function :=
  { name := f.name, arity := f.arity, localCount := f.localCount, freeCount := f.freeCount
    code := c.code.toList, lines := c.lines.toList, constants, file := c.file }

theorem store_eq (one : Value → Collect Constant) (r : Ref) (s : Collected) :
    (store h one r).run.run s = (match s.refs.findIdx? (· == r), h.func? r with
      | some i, _ => return i
      | none, none => throw .fault
      | none, some f =>
        match f.chunk with
        | none => throw (.message ("function " ++ f.name ++ " has no compiled body"))
        | some c => do
          set (s.enter r)
          let constants ← within f.name (c.constants.toList.mapM one)
          modify fun t => { t with
            functions := t.functions.setIfInBounds s.refs.size (storedAs f c constants) }
          return s.refs.size : Collect Nat).run.run s := by
  rw [store, run_bind (show (get : Collect Collected).run.run s = (.ok s, s) from rfl)]
  rfl

theorem store_run (one : Value → Collect Constant) {r : Ref} {f : Scripting.Function} {c : Chunk}
    {s t : Collected} {cs : List Constant} (hb : h.Body r f c) (hnew : s.refs.findIdx? (· == r) = none)
    (hcs : (c.constants.toList.mapM one).run.run (s.enter r) = (.ok cs, t)) :
    (store h one r).run.run s = (.ok s.refs.size,
      { t with functions := t.functions.setIfInBounds s.refs.size (storedAs f c cs) }) := by
  rw [store_eq, hnew, hb.1]
  simp only [hb.2]
  rw [run_bind (show (set (s.enter r) : Collect PUnit).run.run s = (.ok ⟨⟩, s.enter r) from rfl),
    run_bind (within_run hcs)]
  rfl

theorem Collected.Adds.finish {P : Ref → Prop} {r : Ref} {f : Scripting.Function} {c : Chunk}
    {s t : Collected} {cs : List Constant} (hs : s.Sound h) (hP : P r) (hb : h.Body r f c)
    (hadds : (s.enter r).Adds h P t) (hcs : List.Forall₂ (Coded h t.refs.toList) c.constants.toList cs) :
    s.Adds h P { t with
      functions := t.functions.setIfInBounds s.refs.size (storedAs f c cs) } where
  sound := ⟨by simp [hadds.sound.size], hadds.sound.distinct, hadds.sound.there⟩
  places := by
    refine List.IsPrefix.trans ?_ hadds.places
    simp [Collected.enter]
  kept i hi := by
    have hsize : s.functions.size = s.refs.size := hs.size
    rw [Array.getElem?_setIfInBounds_ne (by omega), hadds.kept i (by simp [Collected.enter]; omega)]
    simp [Collected.enter, Array.getElem?_push, show i ≠ s.functions.size by omega]
  new i q hi hq := by
    have hsize := hadds.size
    simp only [Collected.enter, Array.size_push] at hsize
    by_cases heq : i = s.refs.size
    · subst heq
      have hplace : t.refs[s.refs.size]? = some r := by
        rw [← Array.getElem?_toList]
        exact get?_of_isPrefix hadds.places (by simp [Collected.enter])
      obtain rfl : q = r := Option.some.inj (hq.symm.trans hplace)
      refine ⟨hP, storedAs f c cs, ?_, f, c, hb, rfl, rfl, rfl, rfl, rfl, rfl, rfl, hcs⟩
      rw [Array.getElem?_setIfInBounds_self_of_lt (by rw [hadds.sound.size]; omega)]
    · obtain ⟨hPq, g, hg, hstores⟩ := hadds.new i q (by simp [Collected.enter]; omega) hq
      exact ⟨hPq, g, by rw [Array.getElem?_setIfInBounds_ne (by omega), hg], hstores⟩

/-- Storing a function from which only functions that can be stored are reached. The levels it needs
are those that its constants need below it. -/
theorem store_collects {levels : Nat} {one : Value → Collect Constant} {r : Ref}
    (hr : ∀ q, h.Reaches r q → h.Ready q)
    (hone : ∀ v, h.Storable v → h.Clear v → Collects h levels (h.insts.size + 1)
      (fun q => ∃ p, h.Holds v (.func p) ∧ h.Reaches p q) (one v) fun refs c => Coded h refs v c) :
    Collects h levels 0 (h.Reaches r) (store h one r) fun refs i => refs[i]? = some r := by
  intro s hs hlevels
  obtain ⟨f, c, hb, hstorable⟩ := hr r .refl
  cases hfound : s.refs.findIdx? (· == r) with
  | some i =>
    refine ⟨i, s, ?_, .refl hs, ?_⟩
    · rw [store, run_bind (show (get : Collect Collected).run.run s = (.ok s, s) from rfl)]
      simp only [hfound]
      rfl
    · simpa using findIdx?_refs.2 i hfound
  | none =>
    have hlt : r < h.funcs.size := (Array.getElem?_eq_some_iff.mp hb.1).1
    have hsound := hs.enter hlt (findIdx?_refs.1 hfound)
    have hleft := hsound.left_enter
    have hconstants : Collects h levels (h.insts.size + 1) (h.Reaches r)
        (c.constants.toList.mapM one) fun refs cs =>
          List.Forall₂ (Coded h refs) c.constants.toList cs := by
      refine .mapM fun v hv => ?_
      rw [Array.mem_toList_iff] at hv
      intro t ht hl
      obtain ⟨a, u, hrun, hadds, ha⟩ := hone v (hstorable v hv) (.constant hr hb hv) t ht hl
      exact ⟨a, u, hrun, hadds.mono fun q ⟨p, hp, hq⟩ => .head ⟨f, c, hb, v, hv, hp⟩ hq, ha⟩
    have hroom : (s.enter r).left h * (h.insts.size + 2) + (h.insts.size + 1) ≤ levels := by
      rw [← hleft, Nat.succ_mul] at hlevels
      omega
    obtain ⟨cs, t, hrun, hadds, hcs⟩ := hconstants (s.enter r) hsound hroom
    refine ⟨s.refs.size, _, store_run one hb hfound hrun, hadds.finish hs .refl hb hcs, ?_⟩
    exact get?_of_isPrefix hadds.places (by simp [Collected.enter])

theorem constant_collects (levels : Nat) : ∀ {n : Nat} {v : Value}, h.Nested n v → h.Clear v →
    Collects h levels (n + 1) (fun q => ∃ p, h.Holds v (.func p) ∧ h.Reaches p q) (constant h levels v)
      fun refs c => Coded h refs v c := by
  induction levels with
  | zero => intro n v _ _ s _ hlevels; omega
  | succ levels ih =>
    intro n v hv hclear
    cases hv with
    | plain hstorable hne =>
      cases hstorable with
      | func r =>
        intro s hs hlevels
        have hone : ∀ v, h.Storable v → h.Clear v → Collects h levels (h.insts.size + 1)
            (fun q => ∃ p, h.Holds v (.func p) ∧ h.Reaches p q) (constant h levels v)
              fun refs c => Coded h refs v c := fun v hv hc => ih hv.nested hc
        obtain ⟨i, t, hrun, hadds, hi⟩ :=
          store_collects (fun q hq => hclear r q (.self _) hq) hone s hs (by omega)
        refine ⟨.func i, t, ?_, hadds.mono fun q hq => ⟨r, .self _, hq⟩, .func hi⟩
        rw [constant, run_bind hrun]
        rfl
      | inst hx _ => exact absurd rfl (hne _)
      | type i ht =>
        rw [constant, if_pos ht]
        exact .pure fun _ => .type ..
      | _ =>
        rw [constant]
        exact .pure fun _ => by constructor
    | @inst n i x hx hfields =>
      rw [constant, hx]
      refine Collects.map (Q := fun refs cs => List.Forall₂ (Coded h refs) x.fields.toList cs) ?_ ?_
      · intro s hs hlevels
        have hone : ∀ v ∈ x.fields.toList, Collects h levels (n + 1)
            (fun q => ∃ p, h.Holds (.inst i) (.func p) ∧ h.Reaches p q) (constant h levels v)
              fun refs c => Coded h refs v c := by
          intro v hv t ht hl
          rw [Array.mem_toList_iff] at hv
          obtain ⟨a, u, hrun, hadds, ha⟩ := ih (hfields v hv) (hclear.field hx hv) t ht hl
          exact ⟨a, u, hrun, hadds.mono fun q ⟨p, hp, hq⟩ => ⟨p, .inst hx hv hp, hq⟩, ha⟩
        exact Collects.mapM hone s hs (by omega)
      · intro refs cs hcs
        refine .inst hx (by simpa using hcs.length_eq.symm) fun k v c hk hc => ?_
        rw [← Array.getElem?_toList] at hk
        obtain ⟨hkv, rfl⟩ := List.getElem?_eq_some_iff.mp hk
        obtain ⟨hkc, rfl⟩ := List.getElem?_eq_some_iff.mp hc
        exact List.forall₂_iff_get.mp hcs |>.2 k hkv hkc

end Scripting.Bundle

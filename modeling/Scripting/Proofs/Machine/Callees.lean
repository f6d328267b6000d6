import Scripting.Proofs.Machine.Acting
import Scripting.Proofs.Machine.Ending

/-!
# What values call

A function is called through a value, and code makes such values from its constants only. So if all
values of a machine call functions of some kind, and so do the constants of all code, a run never calls
another one.
-/

namespace Scripting

/-- Whether a value calls functions of a kind only. -/
def Value.Only (S : Ref → Prop) : Value → Prop
  | .func r | .closure _ r _ => S r
  | _ => True

def HostObject.values : HostObject → Array Value
  | .list _ items => items
  | .builder _ => #[]

def Chunk.Only (S : Ref → Prop) (c : Chunk) : Prop := ∀ v ∈ c.constants, v.Only S

/-- Whether all values of a heap call functions of a kind only. -/
structure Heap.Only (S : Ref → Prop) (h : Heap) : Prop where
  arrays : ∀ a ∈ h.arrays, ∀ v ∈ a.items, v.Only S
  insts : ∀ i ∈ h.insts, ∀ v ∈ i.fields, v.Only S
  cells : ∀ v ∈ h.cells, v.Only S
  hosts : ∀ o ∈ h.hosts, ∀ v ∈ o.values, v.Only S
  funcs : ∀ f ∈ h.funcs, ∀ c, f.chunk = some c → c.Only S

/-- Whether all values of a frame call functions of a kind only. -/
structure Frame.Only (S : Ref → Prop) (f : Frame) : Prop where
  chunk : f.chunk.Only S
  locals : ∀ v ∈ f.locals, v.Only S

/-- Whether all values of a machine call functions of a kind only. -/
structure Machine.Only (S : Ref → Prop) (m : Machine) : Prop where
  heap : m.world.heap.Only S
  globals : ∀ v ∈ m.globals, v.Only S
  stack : ∀ v ∈ m.stack, v.Only S
  frames : ∀ f ∈ m.frames, f.Only S

variable {S T : Ref → Prop} {α β : Type}

theorem Value.Only.mono {v : Value} (h : v.Only S) (hST : ∀ r, S r → T r) : v.Only T := by
  cases v <;> first | trivial | exact hST _ h

theorem Heap.Only.mono {h : Heap} (hh : h.Only S) (hST : ∀ r, S r → T r) : h.Only T where
  arrays a ha v hv := (hh.arrays a ha v hv).mono hST
  insts i hi v hv := (hh.insts i hi v hv).mono hST
  cells v hv := (hh.cells v hv).mono hST
  hosts o ho v hv := (hh.hosts o ho v hv).mono hST
  funcs f hf c hc v hv := (hh.funcs f hf c hc v hv).mono hST

theorem Machine.Only.mono {m : Machine} (hm : m.Only S) (hST : ∀ r, S r → T r) : m.Only T where
  heap := hm.heap.mono hST
  globals v hv := (hm.globals v hv).mono hST
  stack v hv := (hm.stack v hv).mono hST
  frames f hf := ⟨fun v hv => ((hm.frames f hf).chunk v hv).mono hST,
    fun v hv => ((hm.frames f hf).locals v hv).mono hST⟩

theorem forall_mem_push {P : α → Prop} {as : Array α} {a : α} (h : ∀ x ∈ as, P x) (ha : P a) :
    ∀ x ∈ as.push a, P x := by
  intro x hx
  rcases Array.mem_push.mp hx with hx | rfl
  · exact h x hx
  · exact ha

theorem forall_mem_set {P : α → Prop} {as : Array α} {a : α} (h : ∀ x ∈ as, P x) (ha : P a) (i : Nat) :
    ∀ x ∈ as.setIfInBounds i a, P x := by
  intro x hx
  rcases Array.mem_or_eq_of_mem_setIfInBounds hx with hx | rfl
  · exact h x hx
  · exact ha

theorem forall_mem_modify {P : α → Prop} {as : Array α} {f : α → α} (h : ∀ x ∈ as, P x)
    (hf : ∀ x ∈ as, P (f x)) (i : Nat) : ∀ x ∈ as.modify i f, P x := by
  intro x hx
  obtain ⟨j, hj⟩ := Array.mem_iff_getElem?.mp hx
  rw [Array.getElem?_modify] at hj
  split at hj
  · obtain ⟨y, hy, rfl⟩ := Option.map_eq_some_iff.mp hj
    exact hf y (Array.mem_of_getElem? hy)
  · exact h x (Array.mem_of_getElem? hj)

theorem forall_mem_get {P : α → Prop} {as : Array α} (h : ∀ x ∈ as, P x) {i : Nat} {a : α}
    (ha : as[i]? = some a) : P a := h a (Array.mem_of_getElem? ha)

namespace Heap.Only

variable {h : Heap}

theorem items (hh : h.Only S) {r : Ref} {a : ArrayObject} (ha : h.array? r = some a) :
    ∀ v ∈ a.items, v.Only S := hh.arrays a (Array.mem_of_getElem? ha)

theorem fields (hh : h.Only S) {r : Ref} {i : Instance} (hi : h.inst? r = some i) :
    ∀ v ∈ i.fields, v.Only S := hh.insts i (Array.mem_of_getElem? hi)

theorem hostValues (hh : h.Only S) {r : Ref} {o : HostObject} (ho : h.host? r = some o) :
    ∀ v ∈ o.values, v.Only S := hh.hosts o (Array.mem_of_getElem? ho)

theorem cell (hh : h.Only S) (r : Ref) : (h.cells.getD r .absent).Only S := by
  rw [Array.getD_eq_getD_getElem?]
  cases hr : h.cells[r]? with
  | none => trivial
  | some v => exact hh.cells v (Array.mem_of_getElem? hr)

theorem newArray (hh : h.Only S) {a : ArrayObject} (ha : ∀ v ∈ a.items, v.Only S) :
    (h.newArray a).2.Only S := { hh with arrays := forall_mem_push hh.arrays ha }

theorem newInst (hh : h.Only S) {i : Instance} (hi : ∀ v ∈ i.fields, v.Only S) : (h.newInst i).2.Only S :=
  { hh with insts := forall_mem_push hh.insts hi }

theorem newCell (hh : h.Only S) {v : Value} (hv : v.Only S) : (h.newCell v).2.Only S :=
  { hh with cells := forall_mem_push hh.cells hv }

theorem newHost (hh : h.Only S) {o : HostObject} (ho : ∀ v ∈ o.values, v.Only S) : (h.newHost o).2.Only S :=
  { hh with hosts := forall_mem_push hh.hosts ho }

theorem newId (hh : h.Only S) : h.newId.2.Only S := { hh with }

theorem setCell (hh : h.Only S) (r : Ref) {v : Value} (hv : v.Only S) :
    ({ h with cells := h.cells.setIfInBounds r v } : Heap).Only S :=
  { hh with cells := forall_mem_set hh.cells hv r }

theorem setField (hh : h.Only S) (r : Ref) (k : Nat) {v : Value} (hv : v.Only S) :
    ({ h with insts := h.insts.modify r fun i => { i with fields := i.fields.setIfInBounds k v } } :
      Heap).Only S := by
  refine { hh with insts := ?_ }
  dsimp only
  apply forall_mem_modify hh.insts
  exact fun i hi => forall_mem_set (hh.insts i hi) hv k

theorem pushItem (hh : h.Only S) (r : Ref) {v : Value} (hv : v.Only S) :
    ({ h with arrays := h.arrays.modify r fun a => { a with items := a.items.push v } } : Heap).Only S := by
  refine { hh with arrays := ?_ }
  dsimp only
  apply forall_mem_modify hh.arrays
  exact fun a ha => forall_mem_push (hh.arrays a ha) hv

theorem setHost (hh : h.Only S) (r : Ref) {o : HostObject} (ho : ∀ v ∈ o.values, v.Only S) :
    ({ h with hosts := h.hosts.setIfInBounds r o } : Heap).Only S :=
  { hh with hosts := forall_mem_set hh.hosts ho r }

theorem pushListItem (hh : h.Only S) (r : Ref) {v : Value} (hv : v.Only S) :
    ({ h with hosts := h.hosts.modify r fun
      | .list elem items => .list elem (items.push v)
      | o => o } : Heap).Only S := by
  refine { hh with hosts := ?_ }
  dsimp only
  apply forall_mem_modify hh.hosts
  intro o ho
  cases o with
  | list elem items => exact forall_mem_push (show ∀ x ∈ items, Value.Only S x from hh.hosts _ ho) hv
  | builder s => exact hh.hosts _ ho

end Heap.Only

namespace Call

/-- Whether a host computation keeps what values call, and its result is as asked. -/
def Guards (S : Ref → Prop) (x : Call α) (Q : α → Prop) : Prop :=
  ∀ w : World, w.heap.Only S → (x.run.run w).2.heap.Only S ∧ ∀ a, (x.run.run w).1 = .ok a → Q a

variable {x : Call α} {Q : α → Prop}

namespace Guards

theorem pure {a : α} (h : Q a) : Guards S (pure a) Q := fun _ hw => ⟨hw, fun _ ha => Except.ok.inj ha ▸ h⟩

theorem bind {f : α → Call β} {R : β → Prop} (hx : Guards S x Q) (hf : ∀ a, Q a → Guards S (f a) R) :
    Guards S (x >>= f) R := by
  intro w hw
  have hrun : (x >>= f).run.run w = ExceptT.bindCont f (x.run.run w).1 (x.run.run w).2 := rfl
  have h := hx w hw
  rw [hrun]
  generalize x.run.run w = y at h
  obtain ⟨r, w'⟩ := y
  cases r with
  | error e => exact ⟨h.1, nofun⟩
  | ok a => exact hf a (h.2 a rfl) w' h.1

theorem fail (msg : String) : Guards S (Call.fail msg : Call α) Q := fun _ hw => ⟨hw, nofun⟩

theorem fault (cause : HostFault) : Guards S (Call.fault cause : Call α) Q := fun _ hw => ⟨hw, nofun⟩

theorem look {f : Heap → α} (hf : ∀ h : Heap, h.Only S → Q (f h)) : Guards S (Call.look f) Q :=
  fun w hw => ⟨hw, fun _ ha => Except.ok.inj ha ▸ hf w.heap hw⟩

theorem make {f : Heap → α × Heap} (hf : ∀ h : Heap, h.Only S → (f h).2.Only S ∧ Q (f h).1) :
    Guards S (Call.make f) Q :=
  fun w hw => ⟨(hf w.heap hw).1, fun _ ha => Except.ok.inj ha ▸ (hf w.heap hw).2⟩

theorem mapM {f : α → Call β} (hf : ∀ a, Guards S (f a) fun _ => True) (as : List α) :
    Guards S (as.mapM f) fun _ => True := by
  induction as with
  | nil => exact pure trivial
  | cons a as ih =>
    rw [List.mapM_cons]
    exact (hf a).bind fun _ _ => ih.bind fun _ _ => pure trivial

theorem orFault (r : Except HostFault α) : Guards S (Call.orFault r) fun _ => True := by
  cases r with
  | ok a => exact pure trivial
  | error cause => exact fault cause

theorem textOf (v : Value) : Guards S (Call.textOf v) fun _ => True :=
  (look fun _ _ => trivial).bind fun r (_ : True) => orFault r

theorem presentText (v : Value) : Guards S (Call.presentText v) fun _ => True := by
  cases v with
  | absent => exact fault _
  | _ => exact textOf _

theorem emit (s : String) : Guards S (Call.emit s) fun _ => True := fun _ hw => ⟨hw, fun _ _ => trivial⟩

theorem arg {args : List Value} (hargs : ∀ v ∈ args, v.Only S) (i : Nat) :
    Guards S (Call.arg args i) fun v => v.Only S := by
  rw [Call.arg]
  split
  · rename_i v hv
    exact pure (hargs v (List.mem_of_getElem? hv))
  · exact fault _

theorem asInt (v : Value) : Guards S (Call.asInt v) fun _ => True := by
  cases v with
  | int n => exact pure trivial
  | _ => exact fault _

theorem asArray (v : Value) : Guards S (Call.asArray v) fun _ => True := by
  cases v with
  | array r => exact pure trivial
  | _ => exact fault _

theorem itemsOf (r : Ref) : Guards S (Call.itemsOf r) fun items => ∀ v ∈ items, v.Only S := by
  refine look fun h hh => ?_
  cases hr : h.array? r with
  | none => exact fun v hv => absurd hv (Array.not_mem_empty v)
  | some a => exact hh.items hr

theorem textFail (v : Value) (msg : String → String) :
    Guards S (do Call.fail (msg (← Call.presentText v)) : Call α) Q :=
  (presentText v).bind fun _ _ => fail _

theorem host (r : Ref) : Guards S (Call.look fun h => h.host? r) fun o =>
    ∀ x, o = some x → ∀ v ∈ x.values, v.Only S := look fun _ hh _ hx => hh.hostValues hx

theorem asList (v : Value) : Guards S (Call.asList v) fun x => ∀ v ∈ x.2, v.Only S := by
  cases v with
  | host r =>
    refine (host r).bind fun o ho => ?_
    split
    · exact pure (ho _ rfl)
    · exact textFail _ _
  | _ => exact textFail _ _

theorem asBuilder (v : Value) : Guards S (Call.asBuilder v) fun _ => True := by
  cases v with
  | host r =>
    refine (host r).bind fun o _ => ?_
    split
    · exact pure trivial
    · exact textFail _ _
  | _ => exact textFail _ _

theorem enumerate (v : Value) : Guards S (Call.enumerate v) fun items => ∀ v ∈ items, v.Only S := by
  cases v with
  | array r => exact itemsOf r
  | host r =>
    refine (host r).bind fun o ho => ?_
    split
    · exact pure (ho _ rfl)
    · exact textFail _ _
  | _ => exact textFail _ _

theorem onNumber (f : Float → Float) {args : List Value} (hargs : ∀ v ∈ args, v.Only S) :
    Guards S (Call.onNumber f args) fun v => v.Only S := by
  refine (arg hargs 0).bind fun v _ => ?_
  split
  · exact pure trivial
  · exact textFail _ _

theorem onText {f : String → Value} (hf : ∀ s, (f s).Only S) {args : List Value}
    (hargs : ∀ v ∈ args, v.Only S) : Guards S (Call.onText f args) fun v => v.Only S :=
  (arg hargs 0).bind fun _ _ => (textOf _).bind fun _ _ => pure (hf _)

theorem onTexts (f : String → String → Bool) {args : List Value} (hargs : ∀ v ∈ args, v.Only S) :
    Guards S (Call.onTexts f args) fun v => v.Only S :=
  (arg hargs 0).bind fun _ _ => (textOf _).bind fun _ _ => (arg hargs 1).bind fun _ _ =>
    (textOf _).bind fun _ _ => pure trivial

theorem order (v w : Value) : Guards S (Call.order v w) fun _ => True := by
  rw [order.eq_def]
  split
  · exact (textOf _).bind fun _ _ => (textOf _).bind fun _ _ => fail _
  · split
    · exact pure trivial
    · exact (presentText _).bind fun _ _ => (presentText _).bind fun _ _ => fail _

theorem pick (keep : Ordering → Bool) {args : List Value} (hargs : ∀ v ∈ args, v.Only S) :
    Guards S (Call.pick keep args) fun v => v.Only S := by
  refine (arg hargs 0).bind fun v hv => (arg hargs 1).bind fun w hw => (order v w).bind fun o _ => pure ?_
  split
  · exact hv
  · exact hw

theorem findItem (r : Ref) (v : Value) : Guards S (Call.findItem r v) fun _ => True :=
  (itemsOf r).bind fun _ _ => (look fun _ _ => trivial).bind fun x (_ : True) => orFault x

theorem setBuilder (r : Ref) (s : String) : Guards S (Call.setHost r (.builder s)) fun _ => True :=
  fun _ hw => ⟨hw.setHost r (o := .builder s) fun v hv => absurd hv (Array.not_mem_empty v),
    fun _ _ => trivial⟩

theorem pushItem (r : Ref) {v : Value} (hv : v.Only S) : Guards S (Call.pushItem r v) fun _ => True :=
  fun _ hw => ⟨hw.pushItem r hv, fun _ _ => trivial⟩

theorem pushListItem (r : Ref) {v : Value} (hv : v.Only S) :
    Guards S (Call.pushListItem r v) fun _ => True :=
  fun _ hw => ⟨hw.pushListItem r hv, fun _ _ => trivial⟩

end Guards

end Call

open Call in
theorem Prim.run_guards (p : Prim) {args : List Value} (hargs : ∀ v ∈ args, v.Only S) :
    Guards S (p.run args) fun v => v.Only S := by
  have first := Guards.arg hargs 0
  have second := Guards.arg hargs 1
  cases p with
  | print => exact (Guards.mapM Guards.textOf _).bind fun _ _ => (Guards.emit _).bind fun _ _ => .pure trivial
  | concat => exact (Guards.mapM Guards.textOf _).bind fun _ _ => .pure trivial
  | toText => exact first.bind fun _ _ => (Guards.textOf _).bind fun _ _ => .pure trivial
  | len =>
    refine first.bind fun v _ => ?_
    split
    · exact .pure trivial
    · exact (Guards.itemsOf _).bind fun _ _ => .pure trivial
    · exact .fault _
    · exact .fail _
  | panic => exact first.bind fun _ _ => (Guards.textOf _).bind fun _ _ => .fail _
  | equals =>
    exact first.bind fun _ _ => second.bind fun _ _ => (Guards.look fun _ _ => trivial).bind fun r (_ : True) =>
      (Guards.orFault r).bind fun _ _ => .pure trivial
  | typeName =>
    refine first.bind fun v _ => (Guards.look fun _ _ => trivial).bind fun t (_ : True) => ?_
    split
    · split
      · exact .pure trivial
      · exact .fault _
    · exact .fault _
  | absInt => exact first.bind fun _ _ => (Guards.asInt _).bind fun _ _ => .pure trivial
  | abs | sqrt | floor => exact Guards.onNumber _ hargs
  | pow => exact first.bind fun _ _ => second.bind fun _ _ => .pure trivial
  | max | min => exact Guards.pick _ hargs
  | writeLine | write =>
    exact first.bind fun _ _ => (Guards.textOf _).bind fun _ _ => (Guards.emit _).bind fun _ _ => .pure trivial
  | upper | lower | trim | length => exact Guards.onText (fun _ => by trivial) hargs
  | contains | startsWith | endsWith => exact Guards.onTexts _ hargs
  | split =>
    refine first.bind fun _ _ => (Guards.textOf _).bind fun _ _ => second.bind fun _ _ =>
      (Guards.textOf _).bind fun _ _ => .make fun h hh => ⟨hh.newArray fun v hv => ?_, trivial⟩
    obtain ⟨s, -, rfl⟩ := List.mem_map.mp (List.mem_toArray.mp hv)
    trivial
  | push =>
    exact first.bind fun _ _ => (Guards.asArray _).bind fun _ _ => second.bind fun _ hv =>
      (Guards.pushItem _ hv).bind fun _ _ => .pure trivial
  | count =>
    exact first.bind fun _ _ => (Guards.asArray _).bind fun _ _ => (Guards.itemsOf _).bind fun _ _ =>
      .pure trivial
  | arrayContains =>
    exact first.bind fun _ _ => (Guards.asArray _).bind fun _ _ => second.bind fun _ _ =>
      (Guards.findItem _ _).bind fun _ _ => .pure trivial
  | indexOf =>
    refine first.bind fun _ _ => (Guards.asArray _).bind fun _ _ => second.bind fun _ _ =>
      (Guards.findItem _ _).bind fun i _ => ?_
    cases i with
    | some i => exact .pure trivial
    | none => exact .pure trivial
  | newBuilder | emptyList =>
    exact .make fun _ hh => ⟨hh.newHost fun v hv => absurd hv (Array.not_mem_empty v), trivial⟩
  | append =>
    exact first.bind fun _ hv => (Guards.asBuilder _).bind fun _ _ => second.bind fun _ _ =>
      (Guards.textOf _).bind fun _ _ => (Guards.setBuilder _ _).bind fun _ _ => .pure hv
  | builderLength | build => exact first.bind fun _ _ => (Guards.asBuilder _).bind fun _ _ => .pure trivial
  | listOf =>
    refine first.bind fun _ _ => (Guards.asArray _).bind fun r _ =>
      (Guards.look (Q := fun a : ArrayObject => ∀ v ∈ a.items, v.Only S) fun h hh => ?_).bind fun a ha =>
        .make fun _ hh => ⟨hh.newHost ha, trivial⟩
    cases hr : h.array? r with
    | none => exact fun v hv => absurd hv (Array.not_mem_empty v)
    | some a => exact hh.items hr
  | add =>
    exact first.bind fun _ _ => (Guards.asList _).bind fun _ _ => second.bind fun _ hv =>
      (Guards.pushListItem _ hv).bind fun _ _ => .pure trivial
  | get =>
    refine first.bind fun _ _ => (Guards.asList _).bind fun x hx => second.bind fun _ _ =>
      (Guards.asInt _).bind fun i _ => ?_
    by_cases hi : i < 0
    · rw [if_pos hi]
      exact .fail _
    · rw [if_neg hi]
      split
      · rename_i v hv
        exact .pure (forall_mem_get hx hv)
      · exact .fail _
  | enumCount => exact first.bind fun _ _ => (Guards.enumerate _).bind fun _ _ => .pure trivial
  | enumFirst =>
    refine first.bind fun _ _ => (Guards.enumerate _).bind fun items hitems => ?_
    split
    · rename_i v hv
      exact .pure (forall_mem_get hitems hv)
    · exact .fail _
  | missing key => exact .fail _

namespace Exec

/-- Whether a piece of an instruction keeps what values call, and its result is as asked. -/
def Guards (S : Ref → Prop) (x : Exec α) (Q : α → Prop) : Prop :=
  ∀ m : Machine, m.Only S → (x.run m).2.Only S ∧ ∀ a, (x.run m).1 = .ok a → Q a

variable {x : Exec α} {Q : α → Prop}

namespace Guards

theorem pure {a : α} (h : Q a) : Guards S (pure a) Q := fun _ hm => ⟨hm, fun _ ha => Except.ok.inj ha ▸ h⟩

theorem bind {f : α → Exec β} {R : β → Prop} (hx : Guards S x Q) (hf : ∀ a, Q a → Guards S (f a) R) :
    Guards S (x >>= f) R := by
  intro m hm
  have h := hx m hm
  rw [bind_run]
  generalize x.run m = y at h
  obtain ⟨r, m'⟩ := y
  cases r with
  | error e => exact ⟨h.1, nofun⟩
  | ok a => exact hf a (h.2 a rfl) m' h.1

theorem reads (h : Keeps Eq x) : Guards S x fun _ => True := fun m hm => ⟨h m ▸ hm, fun _ _ => trivial⟩

theorem fail (msg : String) : Guards S (Exec.fail msg : Exec α) Q := fun _ hm => ⟨hm, nofun⟩

theorem fault (cause : HostFault) : Guards S (Exec.fault cause : Exec α) Q := fun _ hm => ⟨hm, nofun⟩

theorem broken (msg : String) : Guards S (Exec.broken msg : Exec α) Q := fun _ hm => ⟨hm, nofun⟩

theorem get : Guards S (get : Exec Machine) fun m => m.Only S :=
  fun _ hm => ⟨hm, fun _ ha => Except.ok.inj ha ▸ hm⟩

theorem modify {f : Machine → Machine} (hf : ∀ m, m.Only S → (f m).Only S) :
    Guards S (modify f : Exec Unit) fun _ => True := fun m hm => ⟨hf m hm, fun _ _ => trivial⟩

theorem modifyGet {f : Machine → α × Machine} (hf : ∀ m : Machine, m.Only S → (f m).2.Only S ∧ Q (f m).1) :
    Guards S (modifyGet f : Exec α) Q := fun m hm => ⟨(hf m hm).1, fun _ ha => Except.ok.inj ha ▸ (hf m hm).2⟩

theorem look {f : Heap → α} (hf : ∀ h : Heap, h.Only S → Q (f h)) : Guards S (Exec.look f) Q :=
  get.bind fun m hm => pure (hf m.world.heap hm.heap)

theorem onHeap {f : Heap → α × Heap} (hf : ∀ h : Heap, h.Only S → (f h).2.Only S ∧ Q (f h).1) :
    Guards S (Exec.onHeap f) Q := modifyGet fun _ hm => ⟨{ hm with heap := (hf _ hm.heap).1 }, (hf _ hm.heap).2⟩

theorem push {v : Value} (hv : v.Only S) : Guards S (Exec.push v) fun _ => True :=
  modify fun _ hm => { hm with stack := List.forall_mem_cons.mpr ⟨hv, hm.stack⟩ }

theorem pop : Guards S Exec.pop fun v => v.Only S := by
  refine (modifyGet (Q := fun o : Option Value => ∀ v ∈ o, v.Only S) fun m hm => ?_).bind fun o ho => ?_
  · split
    · rename_i v vs hstack
      have hboth := List.forall_mem_cons.mp (hstack ▸ hm.stack)
      exact ⟨{ hm with stack := hboth.2 }, fun w hw => Option.some.inj hw ▸ hboth.1⟩
    · exact ⟨hm, nofun⟩
  · cases o with
    | some v => exact pure (ho v rfl)
    | none => exact broken _

theorem top : Guards S Exec.top fun v => v.Only S := by
  refine get.bind fun m hm => ?_
  split
  · rename_i v vs hstack
    exact pure (List.forall_mem_cons.mp (hstack ▸ hm.stack)).1
  · exact broken _

theorem takeFrom_only : (n : Nat) → {taken stack vs rest : List Value} → (∀ v ∈ taken, v.Only S) →
    (∀ v ∈ stack, v.Only S) → takeFrom n taken stack = some (vs, rest) →
      (∀ v ∈ vs, v.Only S) ∧ ∀ v ∈ rest, v.Only S
  | 0, _, _, _, _, ht, hs, h => by
    obtain ⟨rfl, rfl⟩ := Prod.mk.inj (Option.some.inj h)
    exact ⟨ht, hs⟩
  | _ + 1, _, [], _, _, _, _, h => nomatch h
  | n + 1, _, _ :: _, _, _, ht, hs, h =>
    takeFrom_only n (List.forall_mem_cons.mpr ⟨(List.forall_mem_cons.mp hs).1, ht⟩)
      (List.forall_mem_cons.mp hs).2 h

theorem popMany (n : Nat) : Guards S (Exec.popMany n) fun vs => ∀ v ∈ vs, v.Only S := by
  refine get.bind fun m hm => ?_
  split
  · rename_i vs rest htake
    obtain ⟨hvs, hrest⟩ := takeFrom_only n (fun _ h => absurd h List.not_mem_nil) hm.stack htake
    refine (modify fun m' hm' => ?_).bind fun _ _ => pure hvs
    exact { hm' with stack := hrest }
  · exact broken _

theorem frame : Guards S Exec.frame fun f => f.Only S := by
  refine get.bind fun m hm => ?_
  split
  · rename_i f fs hframes
    exact pure (List.forall_mem_cons.mp (hframes ▸ hm.frames)).1
  · exact fault _

theorem setFrame {g : Frame → Frame} (hg : ∀ f : Frame, f.Only S → (g f).Only S) :
    Guards S (Exec.setFrame g) fun _ => True := by
  refine modify fun m hm => ?_
  obtain ⟨w, gs, st, fs, b⟩ := m
  cases fs with
  | nil => exact hm
  | cons f fs =>
    obtain ⟨hf, hfs⟩ := List.forall_mem_cons.mp hm.frames
    exact { hm with frames := List.forall_mem_cons.mpr ⟨hg f hf, hfs⟩ }

theorem jumpTo (t : Nat) : Guards S (Exec.jumpTo t) fun _ => True := setFrame fun _ hf => { hf with }

theorem readWord (width : Nat) : Guards S (Exec.readWord width) fun _ => True := by
  refine frame.bind fun f _ => ?_
  split
  · exact (jumpTo _).bind fun _ _ => pure trivial
  · exact broken _

theorem readByte : Guards S Exec.readByte fun _ => True := by
  refine frame.bind fun f _ => ?_
  split
  · exact (jumpTo _).bind fun _ _ => pure trivial
  · exact broken _

theorem operandAt {P : α → Prop} {items : Array α} (h : ∀ a ∈ items, P a) (i : Nat) :
    Guards S (Exec.operandAt items i) P := by
  rw [Exec.operandAt]
  split
  · rename_i a ha
    exact pure (forall_mem_get h ha)
  · exact broken _

theorem readConstant : Guards S Exec.readConstant fun v => v.Only S :=
  (readWord 2).bind fun i _ => frame.bind fun _ hf => operandAt hf.chunk i

theorem readName : Guards S Exec.readName fun _ => True := by
  refine readConstant.bind fun v _ => ?_
  split
  · exact pure trivial
  · exact broken _

theorem getLocal (i : Nat) : Guards S (Exec.getLocal i) fun v => v.Only S :=
  frame.bind fun _ hf => operandAt hf.locals i

theorem setLocal (i : Nat) {v : Value} (hv : v.Only S) : Guards S (Exec.setLocal i v) fun _ => True := by
  refine frame.bind fun f _ => ?_
  dsimp only
  split
  · exact setFrame fun g hg => { hg with locals := forall_mem_set hg.locals hv i }
  · exact broken _

theorem getCell (r : Ref) : Guards S (Exec.getCell r) fun v => v.Only S := look fun _ hh => hh.cell r

theorem setCell (r : Ref) {v : Value} (hv : v.Only S) : Guards S (Exec.setCell r v) fun _ => True :=
  onHeap fun _ hh => ⟨hh.setCell r hv, trivial⟩

theorem newInst {i : Instance} (hi : ∀ v ∈ i.fields, v.Only S) :
    Guards S (Exec.onHeap fun h => h.newInst i) fun v => v.Only S :=
  onHeap fun _ hh => ⟨hh.newInst hi, trivial⟩

end Guards

theorem arith_guards (op : Opcode) : Guards S (arith op) fun _ => True := by
  refine Guards.pop.bind fun right _ => Guards.pop.bind fun left _ => ?_
  split
  · exact (Guards.reads (.textOf _)).bind fun _ _ => (Guards.reads
      (.textOf _)).bind fun _ _ => Guards.push trivial
  · split
    · refine Guards.bind (Q := fun v : Value => v.Only S) ?_ fun v hv => Guards.push hv
      rw [intArith.eq_def]
      split
      case h_4 | h_5 =>
        split
        · exact .fail _
        · exact .pure trivial
      all_goals exact .pure trivial
    · split
      · exact Guards.push trivial
      · exact (Guards.reads (.typeText _)).bind fun _ _ => (Guards.reads (.typeText _)).bind fun _ _ => .fail _

theorem comparison_guards (op : Opcode) : Guards S (comparison op) fun _ => True := by
  refine Guards.pop.bind fun right _ => Guards.pop.bind fun left _ => ?_
  split
  · exact (Guards.reads (.look _)).bind fun _ _ => (Guards.reads
      (.orFault _)).bind fun _ _ => Guards.push trivial
  · exact (Guards.reads (.look _)).bind fun _ _ => (Guards.reads
      (.orFault _)).bind fun _ _ => Guards.push trivial
  · split
    · exact Guards.push trivial
    · exact (Guards.reads (.typeText _)).bind fun _ _ => (Guards.reads (.typeText _)).bind fun _ _ => .fail _

theorem bitOr_guards : Guards S bitOr fun _ => True := by
  refine Guards.pop.bind fun right _ => Guards.pop.bind fun left _ => ?_
  split
  · exact Guards.push trivial
  · exact Guards.push trivial
  · exact (Guards.reads (.typeText _)).bind fun _ _ => (Guards.reads (.typeText _)).bind fun _ _ => .fail _

theorem negate_guards : Guards S negate fun _ => True := by
  refine Guards.pop.bind fun v _ => ?_
  split
  · exact Guards.push trivial
  · exact Guards.push trivial
  · exact (Guards.reads (.typeText _)).bind fun _ _ => .fail _

theorem getField_guards (name : String) : Guards S (getField name) fun _ => True := by
  refine Guards.pop.bind fun v _ => (Guards.reads (.fieldOf v name)).bind fun x _ =>
    (Guards.look (Q := fun fields : Array Value => ∀ v ∈ fields, v.Only S) fun h hh => ?_).bind
      fun fields hfields => ?_
  · cases hr : h.inst? x.1 with
    | none => exact fun v hv => absurd hv (Array.not_mem_empty v)
    | some i => exact hh.fields hr
  · refine Guards.bind (Q := fun v : Value => v.Only S) ?_ fun v hv => Guards.push hv
    rw [itemAt]
    split
    · rename_i v hv
      exact .pure (forall_mem_get hfields hv)
    · exact .fault _

theorem setField_guards (name : String) : Guards S (setField name) fun _ => True := by
  refine Guards.pop.bind fun v hv => Guards.pop.bind fun t _ => (Guards.reads (.fieldOf _ _)).bind fun x _ =>
    (Guards.reads (.look _)).bind fun size _ => ?_
  split
  · exact (Guards.onHeap fun h hh => ⟨hh.setField _ _ hv, trivial⟩).bind fun _ (_ : True) => Guards.push hv
  · exact .fault _

theorem element_guards (checked : Bool) : Guards S (element checked) fun _ => True := by
  refine Guards.pop.bind fun index _ => Guards.pop.bind fun target _ => ?_
  split
  · rename_i r
    split
    · refine (Guards.look (Q := fun items : Option (Array Value) => ∀ vs ∈ items, ∀ v ∈ vs, v.Only S)
        fun h hh => ?_).bind fun items hitems => ?_
      · intro vs hvs
        obtain ⟨a, ha, rfl⟩ := Option.map_eq_some_iff.mp hvs
        exact hh.items ha
      · have hall : ∀ v ∈ items.getD #[], v.Only S := by
          cases items with
          | none => exact fun v hv => absurd hv (Array.not_mem_empty v)
          | some vs => exact hitems vs rfl
        dsimp only
        split
        · rename_i v hv
          have hvalue : v.Only S := by
            split at hv
            · cases hv
            · exact forall_mem_get hall hv
          split
          · exact (Guards.newInst (forall_mem_push (fun w hw => absurd hw (Array.not_mem_empty w)) hvalue)).bind
              fun _ hw => Guards.push hw
          · exact Guards.push hvalue
        · split
          · exact Guards.push trivial
          · exact .fail _
    · exact (Guards.reads (.typeText _)).bind fun _ _ => .fail _
  · exact (Guards.reads (.typeText _)).bind fun _ _ => .fail _

theorem length_guards : Guards S length fun _ => True := by
  refine Guards.pop.bind fun v _ => ?_
  split
  · exact (Guards.reads (.look _)).bind fun _ _ => Guards.push trivial
  · exact Guards.push trivial
  · exact (Guards.reads (.typeText _)).bind fun _ _ => .fail _

theorem construct_guards (c : Ctor) (n : Nat) : Guards S (construct c n) fun _ => True := by
  refine (Guards.popMany n).bind fun vs hvs => ?_
  split
  · rename_i i hi
    refine (Guards.newInst ?_).bind fun _ hv => Guards.push hv
    rw [Ctor.construct] at hi
    split at hi
    · obtain rfl := Except.ok.inj hi
      exact fun v hv => hvs v (List.mem_toArray.mp hv)
    · cases hi
  · exact .fail _

theorem captureCells_guards : (n : Nat) → Guards S (captureCells n) fun _ => True
  | 0 => .pure trivial
  | n + 1 => by
    refine Guards.readByte.bind fun b _ => (Guards.readWord 2).bind fun i _ => ?_
    have hrest : Guards S (captureCells n) fun _ => True := captureCells_guards n
    dsimp only
    split
    · exact (Guards.reads (.localCell _)).bind fun _ _ => hrest.bind fun _ _ => .pure trivial
    · exact (Guards.reads (.freeCell _)).bind fun _ _ => hrest.bind fun _ _ => .pure trivial

theorem makeClosure_guards : Guards S makeClosure fun _ => True := by
  refine Guards.readConstant.bind fun f hf => Guards.readByte.bind fun n _ => ?_
  split
  · exact (captureCells_guards _).bind fun cells _ =>
      (Guards.onHeap fun _ hh => ⟨hh.newId, trivial⟩).bind fun _ (_ : True) => Guards.push hf
  · exact .broken _

theorem enter_guards (name : String) {chunk : Chunk} (hchunk : chunk.Only S) (count : Int) (free : List Ref)
    {args : List Value} (hargs : ∀ v ∈ args, v.Only S) :
    Guards S (enter name chunk count free args) fun _ => True := by
  refine Guards.get.bind fun m _ => ?_
  split
  · exact .fail _
  · refine Guards.modify fun m hm => { hm with frames := List.forall_mem_cons.mpr ⟨⟨hchunk, ?_⟩, hm.frames⟩ }
    intro v hv
    rcases Array.mem_append.mp hv with hv | hv
    · exact hargs v (List.mem_toArray.mp hv)
    · rw [(Array.mem_replicate.mp hv).2]
      trivial

theorem callFunction_guards {f : Function} (hf : ∀ c, f.chunk = some c → c.Only S)
    (free : List Ref) (argc : Nat) :
    Guards S (callFunction f free argc) fun _ => True := by
  rw [callFunction]
  split
  · exact .fail _
  · split
    · exact .fail _
    · rename_i chunk hchunk
      split
      · exact .fail _
      · exact (Guards.popMany argc).bind fun args hargs => enter_guards _ (hf chunk hchunk) _ _ hargs

theorem functionAt_guards (r : Ref) : Guards S (functionAt r) fun f => ∀ c, f.chunk = some c → c.Only S := by
  refine (Guards.look (Q := fun f : Option Function => ∀ x ∈ f, ∀ c, x.chunk = some c → c.Only S)
    fun h hh f hf => hh.funcs f (Array.mem_of_getElem? hf)).bind fun f hf => ?_
  split
  · exact .pure (hf _ rfl)
  · exact .fault _

theorem callHost_guards (p : Prim) {args : List Value} (hargs : ∀ v ∈ args, v.Only S) :
    Guards S (callHost p args) fun r => ∀ v, r = .ok v → v.Only S := by
  refine Guards.modifyGet fun m hm => ?_
  obtain ⟨hheap, hresult⟩ := p.run_guards hargs m.world hm.heap
  exact ⟨{ hm with heap := hheap }, hresult⟩

theorem call_guards (argc : Nat) : Guards S (call argc) fun _ => True := by
  refine Guards.pop.bind fun callee _ => Guards.get.bind fun m _ => ?_
  split
  · exact .broken _
  · split
    · exact (functionAt_guards _).bind fun f hf => callFunction_guards hf _ _
    · exact (functionAt_guards _).bind fun f hf => callFunction_guards hf _ _
    · split
      · exact .fail _
      · refine (Guards.popMany argc).bind fun args hargs => (callHost_guards _ hargs).bind fun r hr => ?_
        split
        · exact Guards.push trivial
        · exact Guards.push (hr _ rfl)
        · exact .fail _
        · exact .fault _
    · exact construct_guards _ _
    · exact (Guards.reads (.presentText _)).bind fun _ _ => .fail _

theorem leave_guards {v : Value} (hv : v.Only S) : Guards S (leave v) fun _ => True := by
  refine Guards.frame.bind fun f _ => (Guards.modify fun m hm => ?_).bind fun _ _ => Guards.get.bind
    fun _ _ => .pure trivial
  refine { hm with
    stack := List.forall_mem_cons.mpr ⟨hv, fun w hw => ?_⟩
    frames := fun g hg => hm.frames g (List.mem_of_mem_tail hg) }
  rcases List.mem_append.mp hw with hw | hw
  · rw [(List.mem_replicate.mp hw).2]
    trivial
  · exact hm.stack w (List.mem_of_mem_drop hw)

theorem loop_guards : Guards S loop fun _ => True := by
  refine (Guards.readWord 4).bind fun t _ => (Guards.jumpTo t).bind fun _ _ =>
    (Guards.modifyGet (Q := fun _ => True) fun m hm => ?_).bind fun b _ => ?_
  · split
    · exact ⟨hm, trivial⟩
    · exact ⟨{ hm with }, trivial⟩
  · cases b with
    | true => exact .pure trivial
    | false => exact .fail _

theorem storeGlobal_only {gs : Array Value} (hgs : ∀ v ∈ gs, v.Only S) (i : Nat) {v : Value} (hv : v.Only S) :
    ∀ w ∈ storeGlobal gs i v, w.Only S := by
  rw [storeGlobal]
  split
  · exact forall_mem_set hgs hv i
  · refine forall_mem_push (fun w hw => ?_) hv
    rcases Array.mem_append.mp hw with hw | hw
    · exact hgs w hw
    · rw [(Array.mem_replicate.mp hw).2]
      trivial

theorem operate_guards (op : Opcode) : Guards S (operate op) fun _ => True := by
  cases op with
  | const => exact Guards.readConstant.bind fun _ hv => Guards.push hv
  | pop => exact Guards.pop.bind fun _ _ => .pure trivial
  | popBelow => exact Guards.pop.bind fun _ hv => Guards.pop.bind fun _ _ => Guards.push hv
  | dup => exact Guards.top.bind fun _ hv => Guards.push hv
  | unit => exact Guards.push trivial
  | add => exact arith_guards .add
  | sub => exact arith_guards .sub
  | mul => exact arith_guards .mul
  | div => exact arith_guards .div
  | mod => exact arith_guards .mod
  | eq => exact comparison_guards .eq
  | ne => exact comparison_guards .ne
  | lt => exact comparison_guards .lt
  | le => exact comparison_guards .le
  | gt => exact comparison_guards .gt
  | ge => exact comparison_guards .ge
  | bitOr => exact bitOr_guards
  | neg => exact negate_guards
  | not => exact Guards.pop.bind fun _ _ => Guards.push trivial
  | getLocal => exact (Guards.readWord 2).bind fun _ _ => (Guards.getLocal _).bind fun _ hv => Guards.push hv
  | setLocal => exact (Guards.readWord 2).bind fun _ _ => Guards.pop.bind fun _ hv => Guards.setLocal _ hv
  | getGlobal =>
    refine (Guards.readWord 2).bind fun i _ => Guards.get.bind fun m hm => ?_
    split
    · rename_i v hv
      refine Guards.push ?_
      rw [Machine.global?] at hv
      split at hv
      · cases hv
      · exact forall_mem_get hm.globals hv
    · exact .fail _
  | setGlobal =>
    exact (Guards.readWord 2).bind fun i _ => Guards.pop.bind fun v hv => Guards.modify fun _ hm =>
      ⟨hm.heap, storeGlobal_only hm.globals i hv, hm.stack, hm.frames⟩
  | makeCell =>
    exact (Guards.readWord 2).bind fun _ _ => Guards.pop.bind fun _ hv =>
      (Guards.onHeap fun _ hh => ⟨hh.newCell hv, trivial⟩).bind fun _ (_ : True) => Guards.setLocal _ trivial
  | getCell =>
    exact (Guards.readWord 2).bind fun _ _ => (Guards.reads (.localCell _)).bind fun _ _ =>
      (Guards.getCell _).bind fun _ hv => Guards.push hv
  | setCell =>
    exact (Guards.readWord 2).bind fun _ _ => (Guards.reads (.localCell _)).bind
      fun _ _ => Guards.pop.bind fun _ hv => Guards.setCell _ hv
  | getUpvalue =>
    exact (Guards.readWord 2).bind fun _ _ => (Guards.reads (.freeCell _)).bind fun _ _ =>
      (Guards.getCell _).bind fun _ hv => Guards.push hv
  | setUpvalue =>
    exact (Guards.readWord 2).bind fun _ _ => Guards.pop.bind fun _ hv => (Guards.reads
      (.freeCell _)).bind fun _ _ => Guards.setCell _ hv
  | closure => exact makeClosure_guards
  | jump => exact (Guards.readWord 4).bind fun _ _ => Guards.jumpTo _
  | jumpIfFalse =>
    refine (Guards.readWord 4).bind fun _ _ => Guards.pop.bind fun v _ => ?_
    split
    · exact Guards.jumpTo _
    · exact .pure trivial
  | loop => exact loop_guards
  | call => exact Guards.readByte.bind fun _ _ => call_guards _
  | getField => exact Guards.readName.bind fun _ _ => getField_guards _
  | setField => exact Guards.readName.bind fun _ _ => setField_guards _
  | new =>
    refine Guards.readConstant.bind fun t _ => Guards.readByte.bind fun n _ => ?_
    split
    · exact construct_guards _ _
    · exact .broken _
  | makeArray =>
    exact (Guards.readWord 2).bind fun _ _ => (Guards.popMany _).bind fun vs hvs =>
      (Guards.onHeap (Q := fun v : Value => v.Only S) fun _ hh =>
        ⟨hh.newArray fun v hv => hvs v (List.mem_toArray.mp hv), trivial⟩).bind fun _ hv => Guards.push hv
  | getIndex => exact element_guards true
  | getElem => exact element_guards false
  | len => exact length_guards
  | checkType =>
    refine Guards.readName.bind fun tag _ => Guards.pop.bind fun v _ => (Guards.reads
      (.look _)).bind fun b _ => ?_
    split
    · exact Guards.push trivial
    · exact .fault _
  | toText => exact Guards.pop.bind fun _ _ => (Guards.reads (.textOf _)).bind fun _ _ => Guards.push trivial
  | ret | unwrapOrReturn => exact .pure trivial

theorem unwrap_only {h : Heap} (hh : h.Only S) {v : Value} (hv : v.Only S) :
    ∀ w, h.unwrap v = .payload w ∨ h.unwrap v = .failure w → w.Only S := by
  intro w hw
  have hsame : ∀ u : Value, u.Only S →
      Heap.Unwrapped.payload u = .payload w ∨ Heap.Unwrapped.payload u = .failure w →
      w.Only S := by
    rintro u hu (h | h)
    · exact Heap.Unwrapped.payload.inj h ▸ hu
    · cases h
  cases v with
  | inst r =>
    rw [Heap.unwrap] at hw
    split at hw
    · rename_i i hi
      split at hw
      · split at hw
        · rename_i p hp
          exact hsame p (forall_mem_get (hh.fields hi) hp) hw
        · rcases hw with h | h <;> cases h
      · split at hw
        · rcases hw with h | h
          · cases h
          · exact Heap.Unwrapped.failure.inj h ▸ hv
        · exact hsame _ hv hw
    · exact hsame _ hv hw
  | _ => exact hsame _ hv hw

theorem execute_guards (op : Opcode) : Guards S (execute op) fun _ => True := by
  have hother : ∀ op : Opcode, Guards S (do operate op; return (none : Option Value)) fun _ => True :=
    fun op => (operate_guards op).bind fun _ _ => .pure trivial
  cases op with
  | ret => exact Guards.pop.bind fun _ hv => leave_guards hv
  | unwrapOrReturn =>
    refine Guards.pop.bind fun v hv => (Guards.look (Q := fun u : Heap.Unwrapped =>
      ∀ w, u = .payload w ∨ u = .failure w → w.Only S) fun h hh => ?_).bind fun u hu => ?_
    · exact unwrap_only hh hv
    · split
      · exact (Guards.push (hu _ (.inl rfl))).bind fun _ _ => .pure trivial
      · exact leave_guards (hu _ (.inr rfl))
      · exact .fault _
  | _ => exact hother _

theorem step_guards : Guards S step fun _ => True := by
  refine Guards.readByte.bind fun b _ => ?_
  split
  · exact execute_guards _
  · exact .broken _

end Exec

theorem Value.Closes.only {a : Value} {r : Ref} {free : List Ref} (h : a.Closes r free) (ha : a.Only S) :
    S r := by
  rcases h with ⟨rfl, -⟩ | ⟨id, rfl⟩
  · exact ha
  · exact ha

namespace Machine

variable {m m' : Machine}

theorem Only.next (hm : m.Only S) (hnext : m.next = .inl m') : m'.Only S := by
  have h := (Exec.step_guards m hm).1
  rw [Machine.next] at hnext
  split at hnext
  · rename_i m₁ hrun
    rw [hrun] at h
    exact Sum.inl.inj hnext ▸ h
  · cases hnext
  · cases hnext

theorem Only.stops (hm : m.Only S) {o : Outcome} (hnext : m.next = .inr (o, m')) : m'.Only S := by
  have h := (Exec.step_guards m hm).1
  rw [Machine.next] at hnext
  split at hnext
  · cases hnext
  · rename_i v m₁ hrun
    rw [hrun] at h
    exact (Prod.mk.inj (Sum.inr.inj hnext)).2 ▸ h
  · rename_i e m₁ hrun
    rw [hrun] at h
    exact (Prod.mk.inj (Sum.inr.inj hnext)).2 ▸ h

theorem Only.enter (hm : m.Only S) {script : Function} {chunk : Chunk} (hscript : script ∈ m.world.heap.funcs)
    (hchunk : script.chunk = some chunk) (budget : Nat) : (m.enter script chunk budget).Only S :=
  ⟨hm.heap, hm.globals, nofun, List.forall_mem_singleton.mpr
    ⟨hm.heap.funcs script hscript chunk hchunk, fun _ hv => (Array.mem_replicate.mp hv).2 ▸ trivial⟩⟩

theorem Ends.only {n : Nat} {o : Outcome} (h : m.Ends n o m') (hm : m.Only S) : m'.Only S := by
  induction h with
  | last hstop => exact hm.stops hstop
  | next hnext _ ih => exact ih (hm.next hnext)

end Machine

end Scripting

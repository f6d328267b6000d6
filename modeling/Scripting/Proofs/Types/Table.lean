import Mathlib.Data.List.Nodup
import Scripting.Program.Basic
import Scripting.Program.Types
import Scripting.Proofs.Slots.Numbered

/-!
# The type table

Types are looked up by qualified name, by simple name and by number. `Program.Coherent` says that the
three ways see one set of types. It holds behind any series of changes of a new program
(`TableChange.run_coherent`), whether they are kept, taken back or fail halfway, and a number that a
type had once never means another one.
-/

namespace Scripting

namespace Program

variable {o p q : Program}

/-- Whether the types of a later program with numbers that were given before were there before. -/
structure Evolves (p q : Program) : Prop where
  later : p.nextType ≤ q.nextType
  old : ∀ e ∈ q.types.defs, e.id < p.nextType → ∃ d ∈ p.types.defs, d.id = e.id ∧ d.name = e.name

theorem Evolves.refl (p : Program) : p.Evolves p := ⟨Nat.le_refl _, fun e he _ => ⟨e, he, rfl, rfl⟩⟩

theorem Evolves.trans (h : o.Evolves p) (k : p.Evolves q) : o.Evolves q := by
  refine ⟨Nat.le_trans h.later k.later, fun e he hlt => ?_⟩
  obtain ⟨d, hd, hid, hname⟩ := k.old e he (Nat.lt_of_lt_of_le hlt h.later)
  obtain ⟨c, hc, hid', hname'⟩ := h.old d hd (hid ▸ hlt)
  exact ⟨c, hc, hid'.trans hid, hname'.trans hname⟩

theorem Evolves.of_sameKeys (h : p.types.SameKeys q.types) (hn : q.nextType = p.nextType) :
    p.Evolves q := ⟨Nat.le_of_eq hn.symm, fun _ he _ => h.mem he⟩

/-- Whether the types that some changes added are the last ones of a table of size `n`, the latest type
first. -/
def Undo.Latest : Nat → List Undo → Prop
  | _, [] => True
  | n, u :: us => match u.place? with
    | none => Latest n us
    | some place => place + 1 = n ∧ Latest place us

def Rewinds (p : Program) : Prop := ∀ b, p.batch = some b → Undo.Latest p.types.defs.size b.undo

theorem Rewinds.of_eq (h : p.Rewinds) (hs : q.types.defs.size = p.types.defs.size)
    (hb : q.batch = p.batch) : q.Rewinds := fun b hqb => by
  rw [hs]
  exact h b (hb ▸ hqb)

theorem Rewinds.record (h : p.Rewinds) {u : Undo} (hu : u.place? = none) : (p.record u).Rewinds := by
  intro b hb
  obtain ⟨c, hc, rfl⟩ := Option.map_eq_some_iff.mp hb
  rw [Undo.Latest, hu]
  exact h c hc

/-- Whether a change keeps the maps in step with the table, and the types apart. -/
def Separates (p q : Program) : Prop := p.Indexed ∧ p.Rewinds → (q.Indexed ∧ q.Rewinds) ∧ p.Evolves q

theorem Separates.refl (p : Program) : p.Separates p := fun h => ⟨h, .refl p⟩

theorem Separates.trans (h : o.Separates p) (k : p.Separates q) : o.Separates q := fun ho =>
  have hp := h ho
  have hq := k hp.1
  ⟨hq.1, hp.2.trans hq.2⟩

theorem Separates.of_sameKeys (k : p.types.SameKeys q.types) (hn : q.nextType = p.nextType)
    (hb : p.Rewinds → q.Rewinds) : p.Separates q := fun h =>
  ⟨⟨h.1.of_sameKeys k (Nat.le_of_eq hn.symm), hb h.2⟩, .of_sameKeys k hn⟩

theorem Separates.of_types (ht : q.types = p.types) (hn : q.nextType = p.nextType)
    (hb : p.Rewinds → q.Rewinds) : p.Separates q :=
  .of_sameKeys (ht ▸ .refl _) hn hb

theorem modifyType_separates (p : Program) (id : TypeId) {f : TypeDef → TypeDef}
    (hf : ∀ d, (f d).id = d.id ∧ (f d).name = d.name) : p.Separates (p.modifyType id f) :=
  have hsame := p.modifyType_sameKeys id hf
  .of_sameKeys hsame rfl fun h => h.of_eq hsame.size.symm rfl

theorem addType_separates {d : TypeDef} {id : TypeId} (hd : d.id = 0)
    (hadd : p.addType d = .ok (id, q)) : p.Separates q := by
  rintro ⟨hp, hlatest⟩
  have hq := hp.addType hd hadd
  obtain ⟨-, -, rfl⟩ := addType_eq hd hadd
  refine ⟨⟨hq, fun b hb => ?_⟩, Nat.le_succ _, fun e he hlt => ?_⟩
  · obtain ⟨c, hc, rfl⟩ := Option.map_eq_some_iff.mp hb
    refine ⟨?_, hlatest c hc⟩
    rw [record, TypeTable.add_defs, Array.size_push]
  · rcases Array.mem_push.mp he with he | rfl
    · exact ⟨e, he, rfl, rfl⟩
    · exact absurd hlt (Nat.lt_irrefl _)

theorem undoAll_separates : (us : List Undo) → (p : Program) → p.Indexed →
    Undo.Latest p.types.defs.size us → (us.foldl undo p).Indexed ∧ p.Evolves (us.foldl undo p)
  | [], p, hp, _ => ⟨hp, .refl p⟩
  | u :: us, p, hp, hlatest => by
    obtain ⟨hu, hevolves, hlatest⟩ : (p.undo u).Indexed ∧ p.Evolves (p.undo u) ∧
        Undo.Latest (p.undo u).types.defs.size us := by
      rw [Undo.Latest] at hlatest
      cases hplace : u.place? with
      | none =>
        rw [hplace] at hlatest
        have hsame := p.undo_sameKeys hplace
        have hnext := p.undo_nextType u
        exact ⟨hp.of_sameKeys hsame (Nat.le_of_eq hnext.symm), .of_sameKeys hsame hnext,
          hsame.size ▸ hlatest⟩
      | some place =>
        rw [hplace] at hlatest
        obtain ⟨hlast, hlatest⟩ := hlatest
        obtain rfl : u = .type place := by
          cases u <;> cases hplace
          rfl
        have hsize : (p.types.remove place).defs.size = place := by
          rw [TypeTable.remove_defs (Array.getElem?_eq_getElem (hlast ▸ Nat.lt_succ_self place)),
            Array.take_eq_extract, Array.size_extract]
          omega
        exact ⟨⟨hp.table.remove hlast, fun d hd => hp.given d (TypeTable.mem_of_mem_remove hd)⟩,
          ⟨Nat.le_refl _, fun e he _ => ⟨e, TypeTable.mem_of_mem_remove he, rfl, rfl⟩⟩,
          hsize.symm ▸ hlatest⟩
    obtain ⟨hq, hevolves'⟩ := undoAll_separates us (p.undo u) hu hlatest
    exact ⟨hq, hevolves.trans hevolves'⟩

theorem rollback_separates (p : Program) : p.Separates p.rollback := by
  rw [rollback]
  split
  · exact .refl p
  · rename_i b hb
    rintro ⟨hp, hlatest⟩
    obtain ⟨hq, hevolves⟩ := undoAll_separates b.undo p hp (hlatest b hb)
    exact ⟨⟨hq.of_types rfl (Nat.le_refl _), by simp [Rewinds]⟩, ⟨hevolves.later, hevolves.old⟩⟩

theorem foldl_separates {α : Type} {f : Program → α → Program} (hf : ∀ p x, Separates p (f p x)) :
    (xs : List α) → (p : Program) → p.Separates (xs.foldl f p)
  | [], p => .refl p
  | x :: xs, p => (hf p x).trans (foldl_separates hf xs (f p x))

theorem declareGlobal_separates (p : Program) (name : String) (tok : Token) :
    p.Separates (p.declareGlobal name tok).2 :=
  .of_types rfl rfl fun h => Rewinds.record (h.of_eq rfl rfl) rfl

theorem bindNative_separates (p : Program) (f : Native) : p.Separates (p.bindNative f) :=
  (p.declareGlobal_separates f.name Token.blank).trans (.of_types rfl rfl fun h => h.of_eq rfl rfl)

theorem bindVariants_separates (p : Program) (id : TypeId) (tok : Token) :
    p.Separates (p.bindVariants id tok) := by
  rw [bindVariants]
  split
  · exact .refl p
  · refine foldl_separates (fun p i => ?_) _ p
    split
    · exact .refl p
    · rename_i v _
      have hmodify := modifyType_separates (p.declareGlobal v.tag tok).2 id (f := fun d => { d with
        variants := d.variants.modify i fun w => { w with
          binding := some (p.declareGlobal v.tag tok).1 } }) fun _ => ⟨rfl, rfl⟩
      exact ((p.declareGlobal_separates v.tag tok).trans hmodify).trans
        (.of_types rfl rfl fun h => h.of_eq rfl rfl)

theorem initial_indexed : initial.Indexed ∧ initial.Rewinds := by
  have hbase : ({ types := .ofList builtinTypes } : Program).Indexed := by
    refine ⟨.ofList (by decide) (by decide), fun d hd => ?_⟩
    have hall : ∀ d ∈ builtinTypes, d.id < ({} : Program).nextType := by decide
    rw [← Array.mem_toList_iff, TypeTable.ofList_defs] at hd
    exact hall d hd
  have hnative := foldl_separates bindNative_separates Native.globals { types := .ofList builtinTypes }
  exact (((hnative.trans (bindVariants_separates _ Ty.optionCon.id Token.blank)).trans
    (bindVariants_separates _ Ty.resultCon.id Token.blank)) ⟨hbase, by simp [Rewinds]⟩).1

theorem addHost_separates (p : Program) (f : HostFunction) : p.Separates (p.addHost f).2 := by
  rw [addHost, registerKey]
  split
  · exact .of_types rfl rfl fun h => h.of_eq rfl rfl
  · exact .of_types rfl rfl fun h => Rewinds.record (h.of_eq rfl rfl) rfl

theorem attachHost_separates (p : Program) (id : TypeId) (f : HostFunction) :
    p.Separates (p.attachHost id f).2 :=
  (p.addHost_separates f).trans (modifyType_separates _ id
    (f := fun d => d.addHostMethod (Text.lower f.name) (p.addHost f).1) fun _ => ⟨rfl, rfl⟩)

end Program

/-- Whether the types of all modules are new: none has a number yet. -/
def Fresh (load : String → Except LoadError HostModule) : Prop :=
  ∀ name m, load name = .ok m → ∀ x ∈ m.types, x.1.id = 0

open Program in
theorem useModule_separates {load : String → Except LoadError HostModule} (hload : Fresh load)
    (name : String) (p : Program) : p.Separates ((useModule load name).run.run p).2 := by
  refine Loading.useModule_leads ⟨⟨.refl, .trans⟩, attachHost_separates, addHost_separates,
    fun hu => .of_types rfl rfl fun h => Rewinds.record (h.of_eq rfl rfl) hu⟩ name
    (fun m hm x hx p id q hadd => ?_) p
  exact addType_separates (d := { x.1 with module := m.name }) (hload name m hm x hx) hadd

namespace Program

variable {p : Program} {d e : TypeDef}

theorem Indexed.type?_iff (h : p.Indexed) {name : String} :
    p.type? name = some d ↔ d ∈ p.types.defs ∧ d.name = name := h.table.byName?_iff

theorem Indexed.typeById?_iff (h : p.Indexed) {id : TypeId} :
    p.typeById? id = some d ↔ d ∈ p.types.defs ∧ d.id = id := h.table.byId?_iff

theorem Indexed.mem_typesNamed (h : p.Indexed) {name : String} :
    d ∈ p.typesNamed name ↔ d ∈ p.types.defs ∧ d.simpleName = name := h.table.mem_named

theorem not_dotted {name : String} (h : ¬ name.contains '.') : '.' ∉ name.toList := by
  rwa [String.contains_char_eq, decide_eq_true_eq] at h

/-- Whether the lookups by qualified name, by simple name and by number see one set of types. -/
structure Coherent (p : Program) : Prop where
  byName : ∀ {name d}, p.type? name = some d →
    d.name = name ∧ p.typeById? d.id = some d ∧ d ∈ p.typesNamed d.simpleName
  byId : ∀ {id d}, p.typeById? id = some d →
    d.id = id ∧ p.type? d.name = some d ∧ d ∈ p.typesNamed d.simpleName
  bySimpleName : ∀ {name d}, d ∈ p.typesNamed name →
    d.simpleName = name ∧ p.type? d.name = some d ∧ p.typeById? d.id = some d
  once : ∀ name, (p.typesNamed name).Nodup
  /-- A type is found by its constructor. -/
  defined : ∀ {d}, p.type? d.name = some d → p.defOf? (.con d.con) = some d ∧ p.defOf? d.type = some d
  unique : ∀ {name d}, ¬ name.contains '.' → p.type? d.name = some d → d.simpleName = name →
    (∀ e, p.type? e.name = some e → e.simpleName = name → e = d) →
      p.resolveTypeName name = .ok (some d)
  ambiguous : ∀ {name d e}, ¬ name.contains '.' → p.type? d.name = some d → p.type? e.name = some e →
    d.simpleName = name → e.simpleName = name → d ≠ e →
      ∃ names, p.resolveTypeName name = .error ⟨name, names⟩ ∧ names.Nodup ∧
        ∀ s, s ∈ names ↔ ∃ c, p.type? s = some c ∧ c.simpleName = name
  unknown : ∀ {name}, ¬ name.contains '.' →
    (∀ d, p.type? d.name = some d → d.simpleName ≠ name) → p.resolveTypeName name = .ok none

theorem Indexed.typesNamed_nodup (h : p.Indexed) (name : String) :
    ((p.typesNamed name).map TypeDef.name).Nodup := by
  rw [typesNamed, h.table.named_eq]
  exact h.table.nodup_names.sublist (List.filter_sublist.map _)

theorem Indexed.defOf? (h : p.Indexed) (hd : d ∈ p.types.defs) {t : Ty} (ht : t.con? = some d.con) :
    p.defOf? t = some d := by
  rw [Program.defOf?, ht, Option.bind_eq_bind, Option.bind_some, TypeDef.con]
  split
  · rename_i e he
    split at he
    · cases he
    · rw [h.typeById?_iff.mpr ⟨hd, rfl⟩] at he
      exact he.symm
  · exact h.type?_iff.mpr ⟨hd, rfl⟩

theorem Indexed.coherent (h : p.Indexed) : p.Coherent where
  byName hd := by
    obtain ⟨hmem, hname⟩ := h.type?_iff.mp hd
    exact ⟨hname, h.typeById?_iff.mpr ⟨hmem, rfl⟩, h.mem_typesNamed.mpr ⟨hmem, rfl⟩⟩
  byId hd := by
    obtain ⟨hmem, hid⟩ := h.typeById?_iff.mp hd
    exact ⟨hid, h.type?_iff.mpr ⟨hmem, rfl⟩, h.mem_typesNamed.mpr ⟨hmem, rfl⟩⟩
  bySimpleName hd := by
    obtain ⟨hmem, hname⟩ := h.mem_typesNamed.mp hd
    exact ⟨hname, h.type?_iff.mpr ⟨hmem, rfl⟩, h.typeById?_iff.mpr ⟨hmem, rfl⟩⟩
  once name := (h.typesNamed_nodup name).of_map _
  defined {d} hd := by
    have hmem := (h.type?_iff.mp hd).1
    refine ⟨h.defOf? hmem rfl, h.defOf? hmem ?_⟩
    rw [TypeDef.type]
    split <;> rfl
  unique {name d} hdot hd hname honly := by
    have hmem : d ∈ p.typesNamed name := h.mem_typesNamed.mpr ⟨(h.type?_iff.mp hd).1, hname⟩
    have hnodup : (p.typesNamed name).Nodup := (h.typesNamed_nodup name).of_map _
    have hone : p.typesNamed name = [d] := by
      refine List.perm_singleton.mp ((List.perm_ext_iff_of_nodup hnodup (List.nodup_singleton d)).mpr
        fun e => ⟨fun he => List.mem_singleton.mpr ?_, fun he => List.mem_singleton.mp he ▸ hmem⟩)
      obtain ⟨he, hsimple⟩ := h.mem_typesNamed.mp he
      exact honly e (h.type?_iff.mpr ⟨he, rfl⟩) hsimple
    rw [resolveTypeName, if_neg (not_dotted hdot), hone]
  ambiguous {name d e} hdot hd he hdname hename hne := by
    have hdmem : d ∈ p.typesNamed name := h.mem_typesNamed.mpr ⟨(h.type?_iff.mp hd).1, hdname⟩
    have hemem : e ∈ p.typesNamed name := h.mem_typesNamed.mpr ⟨(h.type?_iff.mp he).1, hename⟩
    refine ⟨((p.typesNamed name).map TypeDef.name).mergeSort fun a b => a ≤ b, ?_, ?_, fun s => ?_⟩
    · rw [resolveTypeName, if_neg (not_dotted hdot)]
      split
      · rename_i hnil
        rw [hnil] at hdmem
        cases hdmem
      · rename_i c hone
        rw [hone, List.mem_singleton] at hdmem hemem
        exact absurd (hdmem.trans hemem.symm) hne
      · rfl
    · exact (List.mergeSort_perm _ _).nodup_iff.mpr (h.typesNamed_nodup name)
    · rw [(List.mergeSort_perm _ _).mem_iff, List.mem_map]
      constructor
      · rintro ⟨c, hc, rfl⟩
        obtain ⟨hmem, hsimple⟩ := h.mem_typesNamed.mp hc
        exact ⟨c, h.type?_iff.mpr ⟨hmem, rfl⟩, hsimple⟩
      · rintro ⟨c, hc, hsimple⟩
        obtain ⟨hmem, rfl⟩ := h.type?_iff.mp hc
        exact ⟨c, h.mem_typesNamed.mpr ⟨hmem, hsimple⟩, rfl⟩
  unknown {name} hdot hnone := by
    have hnil : p.typesNamed name = [] := List.eq_nil_iff_forall_not_mem.mpr fun d hd => by
      obtain ⟨hmem, hsimple⟩ := h.mem_typesNamed.mp hd
      exact hnone d (h.type?_iff.mpr ⟨hmem, rfl⟩) hsimple
    rw [resolveTypeName, if_neg (not_dotted hdot), hnil]

end Program

/-- A change of a program that concerns types. -/
inductive TableChange where
  | add (d : TypeDef)
  | use (module : String)
  | begin
  | commit
  | rollback

namespace TableChange

/-- A change of a program, also one that fails halfway. -/
def apply (load : String → Except LoadError HostModule) (p : Program) : TableChange → Program
  | add d => match p.addType d with
    | .ok (_, q) => q
    | .error _ => p
  | use module => ((Program.useModule load module).run.run p).2
  | begin => p.begin
  | commit => p.commit
  | rollback => p.rollback

def run (load : String → Except LoadError HostModule) (p : Program) (cs : List TableChange) : Program :=
  cs.foldl (apply load) p

/-- Whether the change adds no type that has a number already. -/
def New : TableChange → Prop
  | add d => d.id = 0
  | _ => True

variable {load : String → Except LoadError HostModule}

theorem apply_separates (hload : Fresh load) (p : Program) (c : TableChange) (hc : c.New) :
    p.Separates (apply load p c) := by
  cases c with
  | add d =>
    rw [apply]
    split
    · exact Program.addType_separates hc ‹_›
    · exact .refl p
  | use module => exact useModule_separates hload module p
  | begin =>
    refine .of_types rfl rfl fun _ b hb => ?_
    obtain rfl := Option.some.inj hb
    trivial
  | commit => exact .of_types rfl rfl fun _ b hb => absurd hb (Option.some_ne_none b ∘ Eq.symm)
  | rollback => exact p.rollback_separates

theorem run_separates (hload : Fresh load) : (cs : List TableChange) → (∀ c ∈ cs, c.New) →
    (p : Program) → p.Separates (run load p cs)
  | [], _, p => .refl p
  | c :: cs, hcs, p => (apply_separates hload p c (hcs c List.mem_cons_self)).trans
      (run_separates hload cs (fun d hd => hcs d (List.mem_cons_of_mem c hd)) (apply load p c))

theorem run_append (load : String → Except LoadError HostModule) (p : Program)
    (cs later : List TableChange) : run load p (cs ++ later) = run load (run load p cs) later :=
  List.foldl_append

/-- Whatever changes are made of a new program and whatever becomes of them, the three ways to look types
up agree, and a number that was given means the type it meant, or none from when that was taken back. -/
theorem lookups_agree (hload : Fresh load) (cs later : List TableChange)
    (hnew : ∀ c ∈ cs ++ later, c.New) : (run load .initial cs).Coherent ∧
      (∀ id d, (run load .initial cs).typeById? id = some d → id < (run load .initial cs).nextType) ∧
        (run load .initial cs).nextType ≤ (run load .initial (cs ++ later)).nextType ∧
          ∀ id < (run load .initial cs).nextType, ∀ e,
            (run load .initial (cs ++ later)).typeById? id = some e →
              ∃ d, (run load .initial cs).typeById? id = some d ∧ d.name = e.name := by
  obtain ⟨hp, -⟩ := run_separates hload cs (fun c hc => hnew c (List.mem_append_left later hc)) .initial
    Program.initial_indexed
  obtain ⟨hq, hlater, hold⟩ := run_separates hload later
    (fun c hc => hnew c (List.mem_append_right cs hc)) (run load .initial cs) hp
  rw [run_append]
  refine ⟨hp.1.coherent, fun id d hd => ?_, hlater, fun id hid e he => ?_⟩
  · obtain ⟨hmem, rfl⟩ := hp.1.typeById?_iff.mp hd
    exact hp.1.given d hmem
  · obtain ⟨hmem, rfl⟩ := hq.1.typeById?_iff.mp he
    obtain ⟨d, hd, hdid, hname⟩ := hold e hmem hid
    exact ⟨d, hp.1.typeById?_iff.mpr ⟨hd, hdid⟩, hname⟩

/-- A module that declares a type `Geo.Point`, and methods for a type that is not there. -/
def geo : HostModule where
  name := "Geo"
  types := [({ name := "Geo.Point", kind := .host }, [])]
  methods := [("Geo.Line",
    { name := "Length", key := "Geo.Line.Length", owner := "Geo.Line", result := .unknown, impl := none })]

/-- The module fails halfway and leaves its type to a batch that is given up; a record takes the simple
name after that, and both are there once the module is used again. -/
def geoChanges : List TableChange :=
  [.begin, .use "Geo", .rollback, .begin, .add { name := "Point", kind := .record }, .commit, .use "Geo"]

theorem lookups_agree_geo : Fresh (fun _ => .ok geo) ∧ (∀ c ∈ geoChanges ++ [.rollback], c.New) ∧
    (run (fun _ => .ok geo) .initial geoChanges).Coherent := by
  have hload : Fresh fun _ => .ok geo := by
    rintro _ _ h x hx
    obtain rfl := Except.ok.inj h
    obtain rfl := List.mem_singleton.mp hx
    rfl
  have hnew : ∀ c ∈ geoChanges ++ [.rollback], c.New := by
    simp [geoChanges, New]
  exact ⟨hload, hnew, (lookups_agree hload geoChanges [.rollback] hnew).1⟩

end TableChange

end Scripting

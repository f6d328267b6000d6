import Scripting.Engine.Bundle
import Scripting.Proofs.Batch.Resolving
import Scripting.Proofs.Script.Compiled
import Scripting.Proofs.Script.Inner
import Scripting.Proofs.Script.Objects
import Scripting.Proofs.Typed.Batch

/-!
# Batches of an engine

The programs that an engine comes to have are tidy. `Engine.analyze_follows` says of the analysis of a
batch that it can be taken back wherever it stops, and what is known of a tree that it accepts.
`Engine.givenUp_untouched` draws the conclusion for batches that are given up.
-/

namespace Scripting

open Program

namespace Program

theorem builtinTypes_plain : ∀ d ∈ builtinTypes, d.binding = none ∧
    (∀ v ∈ d.variants, v.binding = none) ∧ d.methods = [] ∧ d.hostMethods = [] ∧
      d.id < Ty.builtinCons.length + 1 := by
  decide

theorem builtinTypes_tidy : ({ types := .ofList builtinTypes } : Program).Tidy := by
  have hplain : ∀ d ∈ (TypeTable.ofList builtinTypes).defs, d ∈ builtinTypes := fun d hd => by
    rwa [← Array.mem_toList_iff, TypeTable.ofList_defs] at hd
  refine ⟨⟨fun name b hb => ?_, fun d hd b hb => ?_, fun d hd v hv b hb => ?_⟩,
    ⟨.ofList (by decide) (by decide), fun d hd => ?_⟩, fun d hd f hf => ?_, fun d hd x hx => ?_,
    fun x hx => by simp at hx⟩
  · simp [Scope.get?, Scope.top] at hb
  · rw [(builtinTypes_plain d (hplain d hd)).1] at hb
    cases hb
  · rw [(builtinTypes_plain d (hplain d hd)).2.1 v hv] at hb
    cases hb
  · exact (builtinTypes_plain d (hplain d hd)).2.2.2.2
  · rw [(builtinTypes_plain d (hplain d hd)).2.2.1] at hf
    simp at hf
  · rw [(builtinTypes_plain d (hplain d hd)).2.2.2.1] at hx
    simp at hx

theorem bindNative_follows {o p : Program} (h : Follows o p) (f : Native) :
    Follows o (p.bindNative f) := by
  have hbound := (h.declareGlobal f.name Token.blank).modifyBinding (b := p.bindings.size)
    (f := fun x => { x with
      callable := some (.native f.name), type := .func f.params f.result f.variadic })
    h.longer.bindings fun _ => ⟨rfl, rfl, rfl, fun h => h⟩
  exact hbound.addPending p.bindings.size

theorem initial_follows : Follows { nextType := 0 } initial := by
  have hbase : Follows { nextType := 0 } { types := .ofList builtinTypes } := by
    refine ⟨rfl, fun b hb => (nomatch hb), ?_, builtinTypes_tidy⟩
    exact ⟨Nat.zero_le _, Nat.zero_le _, Nat.zero_le _, Nat.zero_le _, List.prefix_rfl,
      Nat.zero_le _, fun _ => rfl⟩
  have hnative := foldl_keeps (I := Follows { nextType := 0 }) (fun p f hp => bindNative_follows hp f)
    Native.globals _ hbase
  exact bindVariants_follows (bindVariants_follows hnative (Nat.zero_le _) _) (Nat.zero_le _) _

theorem Tidy.commit {p : Program} (h : p.Tidy) : p.commit.Tidy :=
  ⟨⟨h.names, h.types, h.variants⟩, h.indexed.of_types rfl (Nat.le_refl _), h.methods, h.hostMethods,
    h.extensionIds⟩

theorem Restored.tidy {o p : Program} (h : o.Tidy) (hr : o.Restored p) : p.Tidy := by
  have hglobal : ∀ b, o.IsGlobal b → p.IsGlobal b := fun b hb => by
    rwa [IsGlobal, binding, hr.bindings]
  refine ⟨⟨fun name b hb => hglobal b (h.names name b (hr.names name ▸ hb)),
    fun d hd b hb => hglobal b (h.types d (hr.types ▸ hd) b hb),
    fun d hd v hv b hb => hglobal b (h.variants d (hr.types ▸ hd) v hv b hb)⟩,
    h.indexed.of_types hr.types hr.nextType,
    fun d hd f hf => hr.funs ▸ h.methods d (hr.types ▸ hd) f hf,
    fun d hd x hx => hr.hosts ▸ h.hostMethods d (hr.types ▸ hd) x hx,
    fun x hx => hr.hosts ▸ h.extensionIds x (hr.extensions ▸ hx)⟩

theorem Compiles.grows {p q : Program} (h : p.Compiles q) : p.Grows q := by
  have hbinding := h.binding
  refine ⟨Nat.le_of_eq (by rw [h.bindings]), fun b _ => by rw [hbinding], fun b _ => by rw [hbinding],
    fun b _ => by rw [hbinding], fun b _ hb => by rwa [hbinding], fun i f hf => ?_,
    fun hk => by rwa [h.rest]⟩
  have hfuns := h.funs i
  rw [hf] at hfuns
  obtain ⟨g, hg, hbare⟩ := Option.map_eq_some_iff.mp hfuns
  exact ⟨g, hg, (congrArg UserFunction.arity hbare : g.bare.arity = f.bare.arity)⟩

theorem Compiles.tidy {p q : Program} (hp : p.Tidy) (h : p.Compiles q) : q.Tidy := by
  refine hp.grow h.grows ?_ ?_ (Nat.le_of_eq ?_) (Nat.le_of_eq ?_) ?_ <;> rw [h.rest]

end Program

namespace Engine

theorem preloaded_follows {o : Program} {r : Registry} : (names : List String) → {p q : Program} →
    Follows o p → preloaded r p names = .ok q → Follows o q
  | [], _, _, hp, h => Except.ok.inj h ▸ hp
  | name :: names, p, q, hp, h => by
    have hload := (Loading.useModule_stays (Loading.loader_bare r) name).follows hp
    rw [preloaded] at h
    split at h
    · rename_i p' heq
      rw [heq] at hload
      exact preloaded_follows names hload h
    · cases h

theorem exists_preloaded {s : Setup} {e : Engine} (h : new s = .ok e) : ∃ r p,
    preloaded r .initial s.preload = .ok p ∧ e = ⟨r, p, .initial .initial⟩ := by
  obtain ⟨r, -, h⟩ := Loading.exists_of_bind_ok h
  obtain ⟨p, hp, h⟩ := Loading.exists_of_bind_ok h
  exact ⟨r, p, hp, (Except.ok.inj h).symm⟩

theorem new_func? {s : Setup} {e : Engine} (h : new s = .ok e) (r : Ref) : e.heap.funcs[r]? = none := by
  obtain ⟨_, _, -, rfl⟩ := exists_preloaded h
  rfl

theorem new_tidy {s : Setup} {e : Engine} (h : new s = .ok e) : e.program.Tidy := by
  obtain ⟨r, p, hp, rfl⟩ := exists_preloaded h
  exact (preloaded_follows s.preload initial_follows hp).tidy

theorem begun_old {o p : Program} (h : Follows o.begin p) :
    p.oldBindings = o.bindings.size ∧ p.oldFuns = o.funs.size := by
  obtain ⟨b, hb⟩ : ∃ b, p.batch = some b := Option.isSome_iff_exists.mp (h.batch.trans rfl)
  obtain ⟨⟨hbindings, hfuns, -, -⟩, -⟩ := h.undone b hb
  rw [oldBindings, oldFuns, hb]
  exact ⟨hbindings, hfuns⟩

/-- What is known of a tree that was accepted against a program. -/
structure Accepted (p : Program) (src : Source .typed) : Prop where
  inScope : ∀ q, p.Grows q → Scoped.stmts q .top (fun _ => none) src.stmts
  formed : Formed.stmts p src.stmts

theorem check_resolved {e : Engine} (he : e.program.Tidy) {src : Source .parsed}
    {out : Source .resolved} {p : Program}
    (h : src.resolve (loader e.registry) e.program.begin = (.ok out, p)) :
    Follows e.program.begin p ∧ p.Settles (out.check p).2 ∧
      ∀ src', (out.check p).1 = .ok src' → Typing.KeepsStmts p out.stmts src'.stmts := by
  obtain ⟨hfollows, hown⟩ := Source.resolve_follows (Loading.loader_bare e.registry) he src
  rw [h] at hfollows hown
  obtain ⟨-, hrooted, hids, -⟩ :=
    Source.resolve_scoped (Loading.loader_tidy e.registry) he.begin.toRooted h
  obtain ⟨hbindings, hfuns⟩ := begun_old hfollows
  have hmine : Own.stmts p.oldBindings p.oldFuns out.stmts := by
    rw [hbindings, hfuns]
    exact hown out rfl
  exact ⟨hfollows, Source.check_keeps hrooted hids.2.1 hmine⟩

theorem analyze_follows {e : Engine} (he : e.program.Tidy) (text file : String) :
    Follows e.program.begin (e.analyze text file).2 ∧
      ∀ src, (e.analyze text file).1 = .ok src → Accepted (e.analyze text file).2 src := by
  unfold analyze
  split
  · exact ⟨.begin he, fun _ h => nomatch h⟩
  · rename_i src _
    split
    · rename_i ds p heq
      have hfollows := (Source.resolve_follows (Loading.loader_bare e.registry) he src).1
      rw [heq] at hfollows
      exact ⟨hfollows, fun _ h => nomatch h⟩
    · rename_i out p heq
      obtain ⟨-, -, -, hscoped⟩ :=
        Source.resolve_scoped (Loading.loader_tidy e.registry) he.begin.toRooted heq
      obtain ⟨hfollows, hsettles, hkeeps⟩ := check_resolved he heq
      refine ⟨hsettles.follows hfollows rfl, fun src hsrc => ⟨fun q hq => ?_, ?_⟩⟩
      · have hgrows := hsettles.grows.trans hq
        exact (hkeeps src hsrc).inScope q .top _ hgrows (hscoped q hgrows)
      · refine Formed.stmts_mono (fun t ht => ?_) _ (hkeeps src hsrc).formed
        rwa [HasRecord, hsettles.types]

theorem compile_tidy {p q : Program} {src : Source .typed} {h h' : Heap} {r : Ref} (hp : p.Tidy)
    (hsrc : Accepted p src) (hrun : src.compile p h = .ok (r, q, h')) : q.Tidy := by
  have hobjects := p.makeObjects_hasObjects h
  obtain ⟨K, hK, hcompiles, -⟩ := Source.compile_compiled
    (Formed.stmts_mono (fun _ => hobjects.hasRecord) _ hsrc.formed) hrun
  exact hcompiles.tidy (hK ▸ hobjects.tidy hp)

theorem Stays.rename {o : Program} {I J : Program → Prop} {α : Type} {m : Loading α}
    (hm : Loading.Stays o I J m) (f : LoadError → LoadError) :
    Loading.Stays o I J (tryCatch m fun e => throw (f e)) := by
  intro p hp
  have h := hm p hp
  rw [ExceptT.run_tryCatch, StateT.run_bind]
  generalize m.run.run p = x at h
  obtain ⟨r, q⟩ := x
  cases r with
  | ok a => exact h
  | error e => exact h

theorem needed_stays {o : Program} (r : Registry) : (names : List String) →
    Loading.Stays o (Follows o) (Follows o) (needed r names)
  | [] => fun _ hp => hp
  | name :: names =>
    .bind (Stays.rename (Loading.useModule_stays (Loading.loader_bare r) name) _) fun _ =>
      needed_stays r names

theorem reserve_run (b : Bundle) (p : Program) : (reserve b).run.run p
    = (match continues b p.slots.toList with
        | .error e => throw e
        | .ok () => modify fun q => (b.globals.drop p.slots.toList.length).foldl (fun p name =>
            (p.newSlot name { Token.blank with file := b.sourceFile }).2) q
      : Loading Unit).run.run p := rfl

theorem reserve_stays {o : Program} (b : Bundle) :
    Loading.Stays o (Follows o) (Follows o) (reserve b) := by
  intro p hp
  rw [reserve_run]
  cases continues b p.slots.toList with
  | error e => exact hp
  | ok _ => exact foldl_keeps (I := Follows o) (fun q name hq => hq.newSlot name _) _ p hp

theorem linkBundle_run (r : Registry) (h : Heap) (b : Bundle) (p : Program) :
    (linkBundle r h b).run.run p
      = match (needed r b.modules >>= fun _ => reserve b).run.run p with
        | (.error e, q) => (.error e, q)
        | (.ok _, q) =>
          match (b.link (resolve r (q.makeObjects.run h).1)).run.run (q.makeObjects.run h).2 with
          | (.ok ref, h') => (.ok (ref, (q.makeObjects.run h).1, h'), q)
          | (.error msg, _) => (.error ⟨"linking bundle " ++ b.id ++ ": " ++ msg, none⟩, q) := by
  rw [linkBundle, ← bind_assoc, ExceptT.run_bind, StateT.run_bind]
  generalize (needed r b.modules >>= fun _ => reserve b).run.run p = x
  obtain ⟨res, q⟩ := x
  cases res with
  | error e => rfl
  | ok _ =>
    change StateT.run (ExceptT.run (match (b.link (resolve r (q.makeObjects.run h).1)).run.run
      (q.makeObjects.run h).2 with
      | (.ok ref, h') => pure (ref, (q.makeObjects.run h).1, h')
      | (.error msg, _) => throw ⟨"linking bundle " ++ b.id ++ ": " ++ msg, none⟩
      : Loading (Ref × Program × Heap))) q = _
    dsimp only
    split <;> rfl

theorem linkBundle_follows {o p : Program} (hp : Follows o p) (r : Registry) (h : Heap) (b : Bundle) :
    Follows o ((linkBundle r h b).run.run p).2 ∧ ∀ ref q h',
      ((linkBundle r h b).run.run p).1 = .ok (ref, q, h') → q.Tidy := by
  have hstays := (Loading.Stays.bind (needed_stays (o := o) r b.modules) fun _ =>
    reserve_stays b).follows hp
  rw [linkBundle_run]
  generalize (needed r b.modules >>= fun _ => reserve b).run.run p = x at hstays
  obtain ⟨res, q⟩ := x
  cases res with
  | error e => exact ⟨hstays, fun _ _ _ h => nomatch h⟩
  | ok _ =>
    dsimp only
    split
    · refine ⟨hstays, fun ref q' h' heq => ?_⟩
      obtain ⟨-, heq⟩ := Prod.mk.inj (Except.ok.inj heq)
      obtain ⟨rfl, -⟩ := Prod.mk.inj heq
      exact (q.makeObjects_hasObjects h).tidy hstays.tidy
    · exact ⟨hstays, fun _ _ _ h => nomatch h⟩

/-- The states that an engine can come to. -/
inductive Reachable : Engine → Prop
  | new {s : Setup} {e : Engine} : new s = .ok e → Reachable e
  | compile {e : Engine} : Reachable e → ∀ text file, Reachable (e.compile text file).2
  | check {e : Engine} : Reachable e → ∀ text file, Reachable (e.check text file).2
  | loadBundle {e : Engine} : Reachable e → ∀ bytes, Reachable (e.loadBundle bytes).2
  | run {e : Engine} : Reachable e → ∀ script budget, Reachable (e.run script budget).2
  | takeOutput {e : Engine} : Reachable e → Reachable e.takeOutput.2

/-- An engine after a batch that was given up: nothing is left of it but slots and type numbers that
are used up. -/
structure Untouched (e e' : Engine) : Prop where
  registry : e'.registry = e.registry
  machine : e'.machine = e.machine
  program : e.program.Restored e'.program

theorem discard_untouched {e : Engine} (he : e.program.Tidy) {p : Program}
    (hp : Follows e.program.begin p) : e.Untouched (e.discard p) :=
  ⟨rfl, rfl, hp.rollback he⟩

theorem Untouched.tidy {e e' : Engine} (he : e.program.Tidy) (h : e.Untouched e') : e'.program.Tidy :=
  h.program.tidy he

theorem compile_cases {e : Engine} (he : e.program.Tidy) (text file : String) :
    (∀ ds, (e.compile text file).1 = .error ds → e.Untouched (e.compile text file).2) ∧
      (e.compile text file).2.program.Tidy := by
  have hanalyze := e.analyze_follows he text (if file.isEmpty then inputName else file)
  unfold compile
  dsimp only
  generalize e.analyze text (if file.isEmpty then inputName else file) = x at hanalyze
  obtain ⟨res, p⟩ := x
  obtain ⟨hfollows, haccepted⟩ := hanalyze
  have huntouched := discard_untouched he hfollows
  cases res with
  | error ds => exact ⟨fun _ _ => huntouched, huntouched.tidy he⟩
  | ok src =>
    dsimp only
    split
    · exact ⟨fun _ _ => huntouched, huntouched.tidy he⟩
    · rename_i r q h' hcompile
      exact ⟨fun _ h => (nomatch h), (compile_tidy hfollows.tidy (haccepted src rfl) hcompile).commit⟩

theorem check_untouched {e : Engine} (he : e.program.Tidy) (text file : String) :
    e.Untouched (e.check text file).2 := by
  obtain ⟨hfollows, -⟩ := e.analyze_follows he text (if file.isEmpty then inputName else file)
  unfold check
  dsimp only
  generalize e.analyze text (if file.isEmpty then inputName else file) = x at hfollows
  obtain ⟨res, p⟩ := x
  cases res with
  | error ds => exact discard_untouched he hfollows
  | ok src => exact discard_untouched he hfollows

theorem loadBundle_cases {e : Engine} (he : e.program.Tidy) (bytes : List UInt8) :
    (∀ err, (e.loadBundle bytes).1 = .error err → e.Untouched (e.loadBundle bytes).2) ∧
      (e.loadBundle bytes).2.program.Tidy := by
  have hsame : e.Untouched e := ⟨rfl, rfl, .refl _⟩
  unfold loadBundle
  split
  · exact ⟨fun _ _ => hsame, he⟩
  · rename_i b _
    have hlink := linkBundle_follows (.begin he) e.registry e.heap b
    generalize (linkBundle e.registry e.heap b).run.run e.program.begin = x at hlink
    obtain ⟨res, p⟩ := x
    obtain ⟨hfollows, htidy⟩ := hlink
    have huntouched := discard_untouched he hfollows
    cases res with
    | error err => exact ⟨fun _ _ => huntouched, huntouched.tidy he⟩
    | ok x =>
      obtain ⟨ref, q, h'⟩ := x
      exact ⟨fun _ h => (nomatch h), (htidy ref q h' rfl).commit⟩

theorem run_program (e : Engine) (script : Ref) (budget : Nat) :
    (e.run script budget).2.program = e.program := by
  rw [run]
  split <;> rfl

theorem Reachable.tidy {e : Engine} (h : e.Reachable) : e.program.Tidy := by
  induction h with
  | new hnew => exact new_tidy hnew
  | compile _ text file ih => exact (compile_cases ih text file).2
  | check _ text file ih => exact (check_untouched ih text file).tidy ih
  | loadBundle _ bytes ih => exact (loadBundle_cases ih bytes).2
  | run _ script budget ih =>
    rw [run_program]
    exact ih
  | takeOutput _ ih => exact ih

/-- A batch that fails to compile, a check, and a bundle that fails to load leave no trace. -/
theorem givenUp_untouched {e : Engine} (he : e.Reachable) :
    (∀ text file ds, (e.compile text file).1 = .error ds → e.Untouched (e.compile text file).2) ∧
      (∀ text file, e.Untouched (e.check text file).2) ∧
        ∀ bytes err, (e.loadBundle bytes).1 = .error err → e.Untouched (e.loadBundle bytes).2 :=
  ⟨fun text file => (compile_cases he.tidy text file).1, check_untouched he.tidy,
    fun bytes => (loadBundle_cases he.tidy bytes).1⟩

/-- An engine without modules. -/
def plain : Engine := { registry := .standard, program := .initial, machine := .initial .initial }

/-- A record, a union, a function, and globals, one of them under a name that is taken, before a call with
too few arguments. -/
def broken : String :=
  "type P \x7b x: Int \x7d\nunion U \x7b A, B(n: Int) \x7d\nfun f(p: P): Int \x7b p.x \x7d\n"
    ++ "let print = B(f(P \x7b x = 1 \x7d))\nlet t = P\nf()"

theorem plain_untouched : plain.Reachable ∧
    (plain.analyze broken "a.jz").2.types.defs.size = plain.program.types.defs.size + 2 ∧
    (plain.analyze broken "a.jz").2.functions.map Prod.fst = ["f"] ∧
    (plain.analyze broken "a.jz").2.scope.get? "print" ≠ plain.program.scope.get? "print" ∧
    (∃ ds, (plain.compile broken "a.jz").1 = .error ds) ∧ plain.Untouched (plain.compile broken "a.jz").2 ∧
    plain.Untouched (plain.check "let x = 1" "a.jz").2 ∧
    (plain.loadBundle []).1.toOption = none ∧ plain.Untouched (plain.loadBundle []).2 := by
  have hplain : plain.Reachable := .new (s := ⟨[], []⟩) rfl
  obtain ⟨htypes, hfunctions, hscope, hnone⟩ :
      (plain.analyze broken "a.jz").2.types.defs.size = plain.program.types.defs.size + 2 ∧
      (plain.analyze broken "a.jz").2.functions.map Prod.fst = ["f"] ∧
      (plain.analyze broken "a.jz").2.scope.get? "print" ≠ plain.program.scope.get? "print" ∧
      (plain.compile broken "a.jz").1.toOption.isNone = true := by
    decide +kernel
  obtain ⟨ds, hds⟩ : ∃ ds, (plain.compile broken "a.jz").1 = .error ds := by
    generalize (plain.compile broken "a.jz").1 = x at hnone ⊢
    cases x with
    | error ds => exact ⟨ds, rfl⟩
    | ok r => cases hnone
  obtain ⟨err, herr⟩ : ∃ err, (plain.loadBundle []).1 = .error err := ⟨_, rfl⟩
  obtain ⟨hcompile, hcheck, hload⟩ := givenUp_untouched hplain
  exact ⟨hplain, htypes, hfunctions, hscope, ⟨ds, hds⟩, hcompile _ _ ds hds, hcheck _ _,
    by rw [herr]; rfl, hload [] err herr⟩

end Engine

end Scripting

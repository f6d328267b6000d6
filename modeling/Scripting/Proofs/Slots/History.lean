import Scripting.Proofs.Engine.Batches
import Scripting.Proofs.Slots.Locals

/-!
# Slots are never shared

`Engine.Life e bs` says that an engine came to be `e` and that `bs` are the global bindings that were
made on the way, in that order: those of batches that were kept, and those of batches that failed, were
only checked or could not be loaded. `Engine.slots_unshared` says that each of them had a slot that no
other one ever had, and that a function fills its frame without gaps.
-/

namespace Scripting

namespace Program

/-- The globals of a program that were made after its first `n` bindings. -/
def globalsFrom (p : Program) (n : Nat) : List Binding :=
  (p.bindings.toList.drop n).filter (·.storage == .global)

/-- The names and slots of bindings. -/
def places (bs : List Binding) : List (String × Nat) := bs.map fun x => (x.name, x.index)

variable {o p q : Program}

theorem places_append (bs cs : List Binding) : places (bs ++ cs) = places bs ++ places cs :=
  List.map_append

theorem places_globals : (xs : List Binding) →
    places (xs.filter (·.storage == .global)) = (xs.map Binding.mark).filterMap Mark.slot?
  | [] => rfl
  | x :: xs => by
    have ih := places_globals xs
    have hslot : x.mark.slot? = if x.storage == .global then some (x.name, x.index) else none := by
      rw [Mark.slot?, Binding.mark]
      cases x.storage <;> rfl
    rw [List.map_cons, List.filterMap_cons, List.filter_cons, hslot, ← ih]
    split <;> rfl

theorem places_globalsFrom (p : Program) (n : Nat) :
    places (p.globalsFrom n) = (p.marks.drop n).filterMap Mark.slot? := by
  rw [globalsFrom, places_globals, List.map_drop]
  rfl

theorem Numbers.slots (h : o.Numbers p) : p.slots.toList.zipIdx
    = o.slots.toList.zipIdx ++ places (p.globalsFrom o.bindings.size) := by
  obtain ⟨new, hmarks, hslots⟩ := h
  rw [hslots, places_globalsFrom, hmarks, ← o.length_marks, List.drop_left]

/-- Whether the globals of a program, so far as it still has them, stand in their order in some
list. -/
def Listed (p : Program) (places : List (String × Nat)) : Prop :=
  (p.marks.filterMap Mark.slot?).Sublist places

theorem Numbers.listed (h : o.Numbers p) (ho : o.Listed o.slots.toList.zipIdx) :
    p.Listed p.slots.toList.zipIdx := by
  obtain ⟨new, hmarks, hslots⟩ := h
  rw [Listed, hmarks, hslots, List.filterMap_append]
  exact ho.append_right _

end Program

namespace Engine

open Program

/-- What becomes of an engine when a batch has brought its program to `p`: it keeps all or nothing of
what the batch made, but always the slots. -/
structure Takes (e : Engine) (p : Program) (e' : Engine) : Prop where
  numbers : e.program.Numbers p
  slots : e'.program.slots = p.slots
  marks : e'.program.marks = e.program.marks ∨ e'.program.marks = p.marks

theorem discard_takes {e : Engine} (he : e.program.Tidy) {p : Program}
    (hp : Follows e.program.begin p) (hn : e.program.Numbers p) : e.Takes p (e.discard p) := by
  refine ⟨hn, ?_, .inl (congrArg (fun bs => bs.toList.map Binding.mark) (hp.rollback he).bindings)⟩
  rw [discard, rollback]
  split
  · rfl
  · exact undoAll_slots _

theorem analyze_numbers {e : Engine} (he : e.program.Tidy) (text file : String) :
    e.program.Numbers (e.analyze text file).2 := by
  have hbegin : e.program.Numbers e.program.begin := .of_eq rfl rfl
  unfold analyze
  split
  · exact hbegin
  · rename_i src _
    have hresolve := (src.resolve_laid (loader e.registry) e.program.begin).1
    split
    · rename_i ds p heq
      rw [heq] at hresolve
      exact hbegin.trans hresolve
    · rename_i out p heq
      rw [heq] at hresolve
      exact (hbegin.trans hresolve).trans (check_resolved he heq).2.1.numbers

theorem compile_table {p q : Program} {src : Source .typed} {h h' : Heap} {r : Ref}
    (hsrc : Accepted p src) (hrun : src.compile p h = .ok (r, q, h')) :
    q.bindings = p.bindings ∧ q.slots = p.slots := by
  have hobjects := p.makeObjects_hasObjects h
  obtain ⟨K, hK, hcompiles, -⟩ := Source.compile_compiled
    (Formed.stmts_mono (fun _ => hobjects.hasRecord) _ hsrc.formed) hrun
  rw [hcompiles.rest, hK, hobjects.rest]
  exact ⟨rfl, rfl⟩

theorem compile_takes {e : Engine} (he : e.program.Tidy) (text file : String) :
    e.Takes (e.analyze text (if file.isEmpty then inputName else file)).2 (e.compile text file).2 := by
  obtain ⟨hfollows, haccepted⟩ :=
    e.analyze_follows he text (if file.isEmpty then inputName else file)
  have hnumbers := e.analyze_numbers he text (if file.isEmpty then inputName else file)
  unfold compile
  dsimp only
  generalize e.analyze text (if file.isEmpty then inputName else file) = x at *
  obtain ⟨res, p⟩ := x
  cases res with
  | error ds => exact discard_takes he hfollows hnumbers
  | ok src =>
    dsimp only
    split
    · exact discard_takes he hfollows hnumbers
    · rename_i r q h' hcompile
      obtain ⟨hbindings, hslots⟩ := compile_table (haccepted src rfl) hcompile
      exact ⟨hnumbers, hslots, .inr (congrArg (fun bs => bs.toList.map Binding.mark) hbindings)⟩

theorem check_takes {e : Engine} (he : e.program.Tidy) (text file : String) :
    e.Takes (e.analyze text (if file.isEmpty then inputName else file)).2 (e.check text file).2 := by
  obtain ⟨hfollows, -⟩ := e.analyze_follows he text (if file.isEmpty then inputName else file)
  have hnumbers := e.analyze_numbers he text (if file.isEmpty then inputName else file)
  unfold check
  dsimp only
  generalize e.analyze text (if file.isEmpty then inputName else file) = x at *
  obtain ⟨res, p⟩ := x
  cases res <;> exact discard_takes he hfollows hnumbers

/-- The program that loading a bundle brings an engine to, whether or not the bundle can be linked. -/
def linking (e : Engine) (bytes : List UInt8) : Program :=
  match Bundle.decode bytes with
  | .error _ => e.program
  | .ok b => ((linkBundle e.registry e.heap b).run.run e.program.begin).2

theorem reserve_numbers (b : Bundle) (p : Program) : p.Numbers ((reserve b).run.run p).2 := by
  rw [reserve_run]
  cases continues b p.slots.toList with
  | error e => exact .refl p
  | ok _ => exact numbers_foldl (fun q name => q.numbers_newSlot name _) _ p

theorem needed_leads {R : Program → Program → Prop} (hR : Loading.Walks R) (r : Registry)
    (hR' : ∀ name, Loading.Leads R (Program.useModule (loader r) name)) :
    (names : List String) → Loading.Leads R (needed r names)
  | [] => hR.refl
  | name :: names => by
    refine .bind hR (fun p => ?_) fun _ => needed_leads hR r hR' names
    have h := hR' name p
    rw [ExceptT.run_tryCatch, StateT.run_bind]
    generalize (Program.useModule (loader r) name).run.run p = x at h
    obtain ⟨res, q⟩ := x
    cases res <;> exact h

theorem needed_alongside (r : Registry) (names : List String) : Loading.Alongside (needed r names) :=
  needed_leads Loading.alongside_walks r (Loading.useModule_alongside _) names

theorem linkBundle_numbers (r : Registry) (h : Heap) (b : Bundle) (p : Program) :
    p.Numbers ((linkBundle r h b).run.run p).2 ∧ ∀ ref q h',
      ((linkBundle r h b).run.run p).1 = .ok (ref, q, h') →
        q.bindings = ((linkBundle r h b).run.run p).2.bindings ∧
          q.slots = ((linkBundle r h b).run.run p).2.slots := by
  have hnumbers : p.Numbers ((needed r b.modules >>= fun _ => reserve b).run.run p).2 := by
    have hrun : (needed r b.modules >>= fun _ => reserve b).run.run p
        = ExceptT.bindCont (fun _ => reserve b) ((needed r b.modules).run.run p).1
          ((needed r b.modules).run.run p).2 := rfl
    have hneeded := (needed_alongside r b.modules p).numbers
    rw [hrun]
    cases ((needed r b.modules).run.run p).1 with
    | error e => exact hneeded
    | ok _ => exact hneeded.trans (reserve_numbers b _)
  rw [linkBundle_run]
  generalize (needed r b.modules >>= fun _ => reserve b).run.run p = x at hnumbers
  obtain ⟨res, q⟩ := x
  cases res with
  | error e => exact ⟨hnumbers, fun _ _ _ h => nomatch h⟩
  | ok _ =>
    dsimp only
    split
    · refine ⟨hnumbers, fun ref q' h' heq => ?_⟩
      obtain ⟨-, heq⟩ := Prod.mk.inj (Except.ok.inj heq)
      obtain ⟨rfl, -⟩ := Prod.mk.inj heq
      have hrest := (q.makeObjects_hasObjects h).rest
      rw [hrest]
      exact ⟨rfl, rfl⟩
    · exact ⟨hnumbers, fun _ _ _ h => nomatch h⟩

theorem loadBundle_takes {e : Engine} (he : e.program.Tidy) (bytes : List UInt8) :
    e.Takes (e.linking bytes) (e.loadBundle bytes).2 := by
  unfold linking loadBundle
  cases Bundle.decode bytes with
  | error err => exact ⟨.refl _, rfl, .inl rfl⟩
  | ok b =>
    dsimp only
    have hfollows := (linkBundle_follows (.begin he) e.registry e.heap b).1
    obtain ⟨hnumbers, hlinked⟩ := linkBundle_numbers e.registry e.heap b e.program.begin
    generalize (linkBundle e.registry e.heap b).run.run e.program.begin = x at *
    obtain ⟨res, p⟩ := x
    have hbegin : e.program.Numbers p := Numbers.trans (.of_eq rfl rfl) hnumbers
    cases res with
    | error err => exact discard_takes he hfollows hbegin
    | ok x =>
      obtain ⟨ref, q, h'⟩ := x
      obtain ⟨hbindings, hslots⟩ := hlinked ref q h' rfl
      exact ⟨hbegin, hslots, .inr (congrArg (fun bs => bs.toList.map Binding.mark) hbindings)⟩

/-- The engines that can come to be, each with the global bindings that were made on the way. -/
inductive Life : Engine → List Binding → Prop
  | new {s : Setup} {e : Engine} : new s = .ok e → Life e (e.program.globalsFrom 0)
  | compile {e : Engine} {bs : List Binding} : Life e bs → ∀ text file,
    Life (e.compile text file).2 (bs ++
      (e.analyze text (if file.isEmpty then inputName else file)).2.globalsFrom
        e.program.bindings.size)
  | check {e : Engine} {bs : List Binding} : Life e bs → ∀ text file,
    Life (e.check text file).2 (bs ++
      (e.analyze text (if file.isEmpty then inputName else file)).2.globalsFrom
        e.program.bindings.size)
  | loadBundle {e : Engine} {bs : List Binding} : Life e bs → ∀ bytes,
    Life (e.loadBundle bytes).2 (bs ++ (e.linking bytes).globalsFrom e.program.bindings.size)
  | run {e : Engine} {bs : List Binding} : Life e bs → ∀ script budget,
    Life (e.run script budget).2 bs
  | takeOutput {e : Engine} {bs : List Binding} : Life e bs → Life e.takeOutput.2 bs

theorem Life.reachable {e : Engine} {bs : List Binding} (h : Life e bs) : e.Reachable := by
  induction h with
  | new hnew => exact .new hnew
  | compile _ text file ih => exact .compile ih text file
  | check _ text file ih => exact .check ih text file
  | loadBundle _ bytes ih => exact .loadBundle ih bytes
  | run _ script budget ih => exact .run ih script budget
  | takeOutput _ ih => exact .takeOutput ih

/-- The names of what every program has, in the order in which it is bound. -/
def builtinNames : List String := Native.globals.map (·.name) ++ ["Some", "None", "Ok", "Err"]

/-- The bindings that were made are recorded, and a program has some of them. -/
structure Recorded (p : Program) (bs : List Binding) : Prop where
  places : places bs = p.slots.toList.zipIdx
  listed : p.Listed p.slots.toList.zipIdx
  builtins : builtinNames <+: p.slots.toList

theorem bindNative_numbers (p : Program) (f : Native) : p.Numbers (p.bindNative f) :=
  (p.numbers_declareGlobal f.name Token.blank).trans (.trans (numbers_modifyBinding _ p.bindings.size
    (f := fun x => { x with
      callable := some (.native f.name), type := .func f.params f.result f.variadic })
    fun _ => rfl) (.of_eq rfl rfl))

theorem initial_numbers : Numbers { types := .ofList builtinTypes } initial :=
  (numbers_foldl bindNative_numbers _ _).trans
    ((numbers_bindVariants _ _ _).trans (numbers_bindVariants _ _ _))

theorem initial_slots : initial.slots.toList = builtinNames := by
  decide +kernel

theorem initial_recorded : Recorded initial (initial.globalsFrom 0) :=
  ⟨initial_numbers.slots.symm, initial_numbers.listed (.refl _), initial_slots ▸ List.prefix_rfl⟩

theorem Takes.recorded {e e' : Engine} {p : Program} {bs : List Binding} (h : e.Takes p e')
    (hbs : Recorded e.program bs) :
    Recorded e'.program (bs ++ p.globalsFrom e.program.bindings.size) := by
  have hslots := h.numbers.slots
  refine ⟨?_, ?_, ?_⟩
  · rw [places_append, hbs.places, ← hslots, h.slots]
  · rcases h.marks with hmarks | hmarks
    · rw [Listed, hmarks, h.slots, hslots]
      exact hbs.listed.trans (List.sublist_append_left _ _)
    · rw [Listed, hmarks, h.slots]
      exact h.numbers.listed hbs.listed
  · rw [h.slots]
    have hnames := congrArg (List.map Prod.fst) hslots
    rw [List.map_append, List.zipIdx_map_fst, List.zipIdx_map_fst] at hnames
    rw [hnames]
    exact hbs.builtins.trans (List.prefix_append _ _)

theorem preloaded_alongside {r : Registry} : (names : List String) → {p q : Program} →
    preloaded r p names = .ok q → p.Alongside q
  | [], _, _, h => Except.ok.inj h ▸ .refl _
  | name :: names, p, q, h => by
    have hload := Loading.useModule_alongside (loader r) name p
    rw [preloaded] at h
    split at h
    · rename_i p' heq
      rw [heq] at hload
      exact hload.trans (preloaded_alongside names h)
    · cases h

theorem new_recorded {s : Setup} {e : Engine} (h : Engine.new s = .ok e) :
    Recorded e.program (e.program.globalsFrom 0) := by
  obtain ⟨r, p, hp, rfl⟩ := Engine.exists_preloaded h
  have halong := preloaded_alongside s.preload hp
  have hinitial := initial_recorded
  refine ⟨?_, ?_, ?_⟩
  · rw [globalsFrom, halong.bindings, halong.slots]
    exact hinitial.places
  · rw [Listed, marks, halong.bindings, halong.slots]
    exact hinitial.listed
  · rw [halong.slots]
    exact hinitial.builtins

theorem Life.recorded {e : Engine} {bs : List Binding} (h : Life e bs) : Recorded e.program bs := by
  induction h with
  | new hnew => exact new_recorded hnew
  | compile hlife text file ih => exact (compile_takes hlife.reachable.tidy text file).recorded ih
  | check hlife text file ih => exact (check_takes hlife.reachable.tidy text file).recorded ih
  | loadBundle hlife bytes ih => exact (loadBundle_takes hlife.reachable.tidy bytes).recorded ih
  | run _ script budget ih =>
    rw [run_program]
    exact ih
  | takeOutput _ ih => exact ih

/-- No two of the global bindings that were ever made have the same slot: the slots are numbered as the
bindings were made, from those of the built-in ones on, and the bindings that the program has are some
of them. The variables of a function that a batch declares take the slots of its frame from the first
one on, in the order of their declarations, and there are no other slots in it. -/
theorem slots_unshared {e : Engine} {bs : List Binding} (h : Life e bs) :
    bs.map (·.index) = List.range bs.length ∧
      builtinNames <+: bs.map (·.name) ∧
      (places (e.program.globalsFrom 0)).Sublist (places bs) ∧
      ∀ src : Source .parsed, ∀ d ∈ Decls.stmts ((Resolve.batch (loader e.registry) src.stmts).run
        { program := e.program.begin }).1, d.Laid (src.resolve (loader e.registry) e.program.begin).2 := by
  obtain ⟨hplaces, hlisted, hbuiltins⟩ := h.recorded
  have hindices := congrArg (List.map Prod.snd) hplaces
  have hnames := congrArg (List.map Prod.fst) hplaces
  have hlength := congrArg List.length hplaces
  rw [places, List.map_map, List.zipIdx_map_snd] at hindices
  rw [places, List.map_map, List.zipIdx_map_fst] at hnames
  rw [places, List.length_map, List.length_zipIdx] at hlength
  refine ⟨?_, ?_, ?_, fun src => (src.resolve_laid _ _).2⟩
  · rw [hlength, List.range_eq_range']
    exact hindices
  · exact hnames ▸ hbuiltins
  · rw [hplaces, places_globalsFrom, List.drop_zero]
    exact hlisted

/-- The slot of a global that was only checked is not given out again. -/
theorem slots_unshared_after_check : ∃ bs,
    Life ((plain.check "let x = 1" "a.jz").2.compile "let y = 2" "b.jz").2 bs ∧
      bs.map (·.index) = List.range bs.length ∧ bs.map (·.name) = builtinNames ++ ["x", "y"] := by
  have hplain : Life plain (plain.program.globalsFrom 0) := .new (s := ⟨[], []⟩) rfl
  have hlife := (hplain.check "let x = 1" "a.jz").compile "let y = 2" "b.jz"
  refine ⟨_, hlife, (slots_unshared hlife).1, ?_⟩
  decide +kernel

end Engine

end Scripting

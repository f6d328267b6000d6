import Scripting.Proofs.Bundle.Written
import Scripting.Proofs.Slots.Confined

/-!
# Loaded bundles keep their slots

A bundle can be loaded if its globals start with those of the engine. The engine then has all of them, and
later batches get the slots behind them. So no binding of the engine ever gets a slot that the loaded code
uses: `Engine.loadBundle_slots`.
-/

namespace Scripting

open Program

namespace Engine

theorem prefix_of_sameGlobals : {current stored : List String} → {i : Nat} →
    sameGlobals i current stored = .ok () → current.length ≤ stored.length → current <+: stored
  | [], _, _, _, _ => List.nil_prefix
  | c :: cs, s :: ss, i, h, hlength => by
    rw [sameGlobals] at h
    split at h
    · rename_i heq
      obtain rfl := beq_iff_eq.mp heq
      exact List.cons_prefix_cons.mpr ⟨rfl, prefix_of_sameGlobals h (Nat.le_of_succ_le_succ hlength)⟩
    · cases h
  | _ :: _, [], _, _, hlength => absurd hlength (Nat.not_succ_le_zero _)

theorem prefix_of_continues {b : Bundle} {current : List String} (h : continues b current = .ok ()) :
    current <+: b.globals := by
  rw [continues] at h
  split at h
  · cases h
  · rename_i hlength
    exact prefix_of_sameGlobals h (Nat.not_lt.mp hlength)

theorem newSlots (tok : Token) (n : Nat) : (names : List String) → (p : Program) →
    Retains n p (names.foldl (fun p name => (p.newSlot name tok).2) p) ∧
      (names.foldl (fun p name => (p.newSlot name tok).2) p).funs = p.funs ∧
      (names.foldl (fun p name => (p.newSlot name tok).2) p).slots.toList = p.slots.toList ++ names
  | [], p => ⟨.refl p, rfl, (List.append_nil _).symm⟩
  | name :: names, p => by
    obtain ⟨hretains, hfuns, hslots⟩ := newSlots tok n names (p.newSlot name tok).2
    refine ⟨(p.newSlot_retains name tok).trans hretains, hfuns, hslots.trans ?_⟩
    have hone : (p.newSlot name tok).2.slots.toList = p.slots.toList ++ [name] := Array.toList_push
    rw [hone, List.append_assoc, List.singleton_append]

theorem reserve_ok {b : Bundle} {p q : Program} (n : Nat) (h : (reserve b).run.run p = (.ok (), q)) :
    Retains n p q ∧ q.funs = p.funs ∧ p.slots.toList <+: b.globals ∧ q.slots.toList = b.globals := by
  rw [reserve_run] at h
  cases hcontinues : continues b p.slots.toList with
  | error e =>
    rw [hcontinues] at h
    cases h
  | ok _ =>
    rw [hcontinues] at h
    obtain rfl := (Prod.mk.inj h).2
    have hprefix := prefix_of_continues hcontinues
    obtain ⟨hretains, hfuns, hslots⟩ :=
      newSlots { Token.blank with file := b.sourceFile } n (b.globals.drop p.slots.toList.length) p
    refine ⟨hretains, hfuns, hprefix, hslots.trans ?_⟩
    obtain ⟨rest, hrest⟩ := hprefix
    rw [← hrest, List.drop_left]

/-- What is known of a bundle that is loaded: `p` is the program with its slots and `g` the heap with its
functions. -/
structure Loads (e e' : Engine) (ref : Ref) (b : Bundle) (p : Program) (g : Heap) : Prop where
  retains : ∀ n, Retains n e.program.begin p
  funs : p.funs = e.program.funs
  slots : p.slots.toList = b.globals
  continues : e.program.slots.toList <+: b.globals
  linked : (b.link (resolve e.registry (p.makeObjects.run e.heap).1)).run.run (p.makeObjects.run e.heap).2
    = (.ok ref, g)
  result : e' = { e.withHeap g with program := (p.makeObjects.run e.heap).1.commit }

theorem needed_retains (r : Registry) (names : List String) (n : Nat) (p : Program) :
    Retains n p ((needed r names).run.run p).2 :=
  (needed_alongside r names p).retains
    (needed_leads ⟨fun p => .refl p.objects, fun h k => k.trans h⟩ r
      (Loading.useModule_objects (Loading.loader_plain r)) names p)
    (needed_leads (R := Inherits) ⟨fun _ => .of_types rfl, Inherits.trans⟩ r
      (Loading.useModule_inherits (Loading.loader_plain r)) names p)

theorem loadBundle_loads {e : Engine} {bytes : List UInt8} {ref : Ref}
    (h : (e.loadBundle bytes).1 = .ok ref) : ∃ b p g, Bundle.decode bytes = .ok b ∧
      e.Loads (e.loadBundle bytes).2 ref b p g := by
  unfold loadBundle at h ⊢
  cases hdecode : Bundle.decode bytes with
  | error err =>
    rw [hdecode] at h
    cases h
  | ok b =>
    rw [hdecode] at h
    dsimp only at h ⊢
    rw [linkBundle_run] at h ⊢
    cases hneeded : (needed e.registry b.modules).run.run e.program.begin with
    | mk res p₁ =>
      have hretains := fun n => needed_retains e.registry b.modules n e.program.begin
      have halong := needed_alongside e.registry b.modules e.program.begin
      rw [hneeded] at hretains halong
      cases res with
      | error err =>
        have hrun : (needed e.registry b.modules >>= fun _ => reserve b).run.run e.program.begin
            = (.error err, p₁) := by
          rw [ExceptT.run_bind, StateT.run_bind, hneeded]
          rfl
        rw [hrun] at h
        cases h
      | ok _ =>
        rw [Bundle.run_bind hneeded] at h ⊢
        cases hreserve : (reserve b).run.run p₁ with
        | mk res p =>
          rw [hreserve] at h
          cases res with
          | error err => cases h
          | ok _ =>
            dsimp only at h ⊢
            have hslots := fun n => reserve_ok n hreserve
            cases hlink : (b.link (resolve e.registry (p.makeObjects.run e.heap).1)).run.run
                (p.makeObjects.run e.heap).2 with
            | mk res g =>
              rw [hlink] at h
              cases res with
              | error msg => cases h
              | ok ref' =>
                obtain rfl := Except.ok.inj h
                obtain ⟨-, hfuns, hprefix, hglobals⟩ := hslots 0
                refine ⟨b, p, g, rfl, fun n => (hretains n).trans (hslots n).1, ?_, hglobals, ?_, hlink, rfl⟩
                · exact hfuns.trans halong.funs
                · have hsame : p₁.slots = e.program.slots := halong.slots
                  exact hsame ▸ hprefix

theorem resolve_apart (r : Registry) (p : Program) : Bundle.Apart (resolve r p) := by
  intro name g
  rw [resolve]
  split
  · rename_i v hv
    refine ⟨rfl, rfl, fun w hw => ?_⟩
    obtain rfl : v = w := Option.some.inj hw
    rw [Program.linked?] at hv
    split at hv
    · rename_i x hx
      obtain rfl := Option.some.inj hv
      obtain ⟨_, _, -, rfl⟩ := object_native hx
      rfl
    · obtain ⟨i, -, rfl⟩ := Option.map_eq_some_iff.mp hv
      exact p.object_host i
  · split
    · exact ⟨rfl, rfl, fun w hw => by cases hw⟩
    · refine ⟨rfl, rfl, fun w hw => ?_⟩
      obtain rfl := Option.some.inj hw
      rfl

namespace Loads

variable {e e' : Engine} {ref : Ref} {b : Bundle} {p : Program} {g : Heap}

theorem heap_eq (hl : e.Loads e' ref b p g) : e'.heap = g := by
  obtain rfl := hl.result
  rfl

theorem keeps (hl : e.Loads e' ref b p g) : e.Keeps e' := by
  obtain ⟨hold, hinsts, -⟩ := Bundle.link_code (resolve_apart _ _) hl.linked
  have hmade := p.makeObjects_broadens e.heap
  have hstart : Broadens e.program e.heap p e.heap := by
    refine ⟨fun r => ?_, ?_, fun _ i hi => ⟨i, hi, rfl⟩, fun _ _ _ hb => hb⟩
    · rw [HasFunc, HasFunc, hl.funs]
      exact id
    · have hlength := hl.continues.length_le
      rw [← hl.slots] at hlength
      simpa using hlength
  refine hstart.trans (hmade.trans ?_)
  rw [hl.heap_eq]
  obtain rfl := hl.result
  refine ⟨fun _ hr => hr, Nat.le_refl _, fun r i hi => ⟨i, hinsts.inst hi, rfl⟩, fun r f c hb => ⟨?_, hb.2⟩⟩
  exact (hold r (Array.getElem?_eq_some_iff.mp hb.1).1).trans hb.1

theorem closed (hl : e.Loads e' ref b p g) (he : e.Closed) : e'.Closed := by
  obtain ⟨hold, hinsts, -⟩ := Bundle.link_code (resolve_apart _ _) hl.linked
  have ho := p.makeObjects_hasObjects e.heap
  have hretains := hl.retains 0
  have hkeeps := hl.keeps
  have hheap := hl.heap_eq
  refine ⟨?_, ?_, fun r hr => ?_⟩
  · rw [hl.result]
    refine .committed (p := p) ?_ ?_ ?_ ho.bindings (by rw [ho.rest]) ho.contained ho.inherits
    · exact hretains.named (he.anchored.named.of_eq rfl (.of_eq rfl))
    · exact hretains.founded (he.anchored.founded.of_eq rfl (.of_eq rfl (Nat.le_refl _) rfl))
    · exact hretains.held (he.anchored.held.of_eq rfl (.of_types rfl))
  · have hlasts := makeObjects_lasts (p := p) (h := e.heap) Heap.Bare.lasting fun v hv =>
      he.bare v (hretains.objects.subset hv)
    rw [hheap, hl.result]
    intro v hv
    rcases hlasts v hv with hplain | ⟨i, x, rfl, hi, hsize⟩
    · exact .inl hplain
    · exact .inr ⟨i, x, rfl, hinsts.inst hi, hsize⟩
  · have hr' : (p.makeObjects.run e.heap).1.HasFunc r := by
      rw [hl.result] at hr
      exact hr
    rcases ho.hasFunc hr' with hbefore | ⟨f, hf, hnone⟩
    · rw [HasFunc, hl.funs] at hbefore
      obtain ⟨f, hf, hcode⟩ := he.funcs r hbefore
      have hmade := ho.heap.some hf
      refine ⟨f, ?_, fun c hc => hkeeps.confined (hcode c hc)⟩
      rw [hheap, Heap.func?, hold r (Array.getElem?_eq_some_iff.mp hmade).1]
      exact hmade
    · refine ⟨f, ?_, fun c hc => ?_⟩
      · rw [hheap, Heap.func?, hold r (Array.getElem?_eq_some_iff.mp hf).1]
        exact hf
      · rw [hnone] at hc
        cases hc

end Loads

/-- How an engine goes on, with the global bindings that are made on the way. An engine goes on from a run
only if the run ends. -/
inductive Onward (e : Engine) : Engine → List Binding → Prop
  | refl : Onward e e []
  | compile {e' : Engine} {bs : List Binding} : Onward e e' bs → ∀ text file,
    Onward e (e'.compile text file).2 (bs ++
      (e'.analyze text (if file.isEmpty then inputName else file)).2.globalsFrom
        e'.program.bindings.size)
  | check {e' : Engine} {bs : List Binding} : Onward e e' bs → ∀ text file,
    Onward e (e'.check text file).2 (bs ++
      (e'.analyze text (if file.isEmpty then inputName else file)).2.globalsFrom
        e'.program.bindings.size)
  | loadBundle {e' : Engine} {bs : List Binding} : Onward e e' bs → ∀ bytes,
    Onward e (e'.loadBundle bytes).2 (bs ++ (e'.linking bytes).globalsFrom e'.program.bindings.size)
  | run {e' : Engine} {bs : List Binding} : Onward e e' bs → ∀ script budget,
    (∀ f c, e'.heap.Body script f c → ∃ n o m, (e'.machine.enter f c budget).Ends n o m) →
      Onward e (e'.run script budget).2 bs
  | takeOutput {e' : Engine} {bs : List Binding} : Onward e e' bs → Onward e e'.takeOutput.2 bs

theorem Onward.life {e e' : Engine} {bs cs : List Binding} (h : e.Onward e' cs) (he : Life e bs) :
    Life e' (bs ++ cs) := by
  induction h with
  | refl => rwa [List.append_nil]
  | compile _ text file ih => exact List.append_assoc .. ▸ .compile ih text file
  | check _ text file ih => exact List.append_assoc .. ▸ .check ih text file
  | loadBundle _ bytes ih => exact List.append_assoc .. ▸ .loadBundle ih bytes
  | run _ script budget _ ih => exact .run ih script budget
  | takeOutput _ ih => exact .takeOutput ih

theorem Reachable.life {e : Engine} (h : e.Reachable) : ∃ bs, Life e bs := by
  induction h with
  | new hnew => exact ⟨_, .new hnew⟩
  | compile _ text file ih => exact ih.imp' _ fun _ hlife => .compile hlife text file
  | check _ text file ih => exact ih.imp' _ fun _ hlife => .check hlife text file
  | loadBundle _ bytes ih => exact ih.imp' _ fun _ hlife => .loadBundle hlife bytes
  | run _ script budget ih => exact ih.imp fun _ hlife => .run hlife script budget
  | takeOutput _ ih => exact ih.imp fun _ hlife => .takeOutput hlife

/-- The slots of the bindings of an engine are below the number of its slots, also that of a binding that
is not there. -/
theorem Life.bound {e : Engine} {bs : List Binding} (h : Life e bs) (b : BindingId)
    (hb : (e.program.binding b).storage = .global) : (e.program.binding b).index < e.program.slots.size := by
  have hrecorded := h.recorded
  rcases Nat.lt_or_ge b e.program.bindings.size with hlt | hge
  · exact hrecorded.listed.lt ⟨hlt, hb⟩
  · have hsome : 0 < e.program.slots.toList.length :=
      Nat.lt_of_lt_of_le (by decide +kernel) hrecorded.builtins.length_le
    have hnone : (e.program.binding b).index = 0 := by
      rw [binding, Array.getD_eq_getD_getElem?, Array.getElem?_eq_none hge]
      rfl
    rw [hnone]
    simpa using hsome

theorem new_closed {s : Setup} {e : Engine} (h : Engine.new s = .ok e) : e.Closed := by
  have horderly := new_orderly h
  have hready := new_ready h
  obtain ⟨r, p, hp, rfl⟩ := Engine.exists_preloaded h
  obtain ⟨n, hqueued, -⟩ := horderly.queued
  refine ⟨⟨⟨n, hqueued⟩, horderly.named, horderly.founded, horderly.held⟩, fun v hv => ?_, fun r ⟨i, hi⟩ => ?_⟩
  · have hmem := (preloaded_objects s.preload hp).subset hv
    obtain rfl := List.mem_singleton.mp (initial_retains.objects.subset hmem)
    exact .inr ⟨_, _, rfl, rfl, rfl⟩
  · obtain ⟨f, hf, hr⟩ := Option.bind_eq_some_iff.mp hi
    obtain ⟨x, hx, -⟩ := hready.referred i f r hf hr
    exact absurd hx (by simp [heap, Machine.initial, Heap.initial])

theorem compile_bounds {e : Engine} {bs : List Binding} (he : e.Closed) (hlife : Life e bs)
    {text file : String} {r : Ref} (hr : (e.compile text file).1 = .ok r) : ∃ src p q K h',
      e.analyze text (if file.isEmpty then inputName else file) = (.ok src, p) ∧
        e.Builds (e.compile text file).2 src r p q K h' ∧ p.Anchored ∧
          (∀ v ∈ K.program.objects, h'.Bare v) ∧
            ∀ b, (K.program.binding b).storage = .global →
              (K.program.binding b).index < (e.compile text file).2.program.slots.size := by
  have htidy := hlife.reachable.tidy
  obtain ⟨n, hq⟩ := he.anchored.queued
  obtain ⟨src, p, q, K, h', hanalyze, hb⟩ := compile_builds htidy hr
  obtain ⟨hretains, -⟩ := analyze_fair htidy hq he.anchored.named he.anchored.founded
    he.anchored.held text (if file.isEmpty then inputName else file)
  rw [hanalyze] at hretains
  have hp : p.Anchored := ⟨⟨n, hretains.queued (hq.of_eq rfl rfl)⟩,
    hretains.named (he.anchored.named.of_eq rfl (.of_eq rfl)),
    hretains.founded (he.anchored.founded.of_eq rfl (.of_eq rfl (Nat.le_refl _) rfl)),
    hretains.held (he.anchored.held.of_eq rfl (.of_types rfl))⟩
  refine ⟨src, p, q, K, h', hanalyze, hb, hp, hb.bare he hretains.objects.subset, fun b hstorage => ?_⟩
  have hsame : K.program.binding b = (e.compile text file).2.program.binding b := by
    rw [hb.binding, Program.binding, hb.objects.bindings, Program.binding]
  rw [hsame] at hstorage ⊢
  exact (Life.compile hlife text file).bound b hstorage

theorem compile_closed {e : Engine} {bs : List Binding} (he : e.Closed) (hlife : Life e bs)
    {text file : String} {r : Ref} (hr : (e.compile text file).1 = .ok r) :
    (e.compile text file).2.Closed ∧ e.Keeps (e.compile text file).2 ∧
      ∃ x c, (e.compile text file).2.heap.Body r x c ∧
        c.Confined (e.compile text file).2.program (e.compile text file).2.heap := by
  obtain ⟨src, p, q, K, h', -, hb, hp, hbare, hbound⟩ := compile_bounds he hlife hr
  obtain ⟨n, hqueued⟩ := hp.queued
  exact ⟨hb.closed hbare hbound he hp, hb.keeps, hb.script_confined hbare hbound hqueued.globals⟩

theorem run_closed {e : Engine} (he : e.Closed) (script : Ref) (budget : Nat)
    (hends : ∀ f c, e.heap.Body script f c → ∃ n o m, (e.machine.enter f c budget).Ends n o m) :
    (e.run script budget).2.Closed ∧ e.Keeps (e.run script budget).2 := by
  have hsame : e.Closed ∧ e.Keeps e := ⟨he, .refl _ _⟩
  rw [run]
  split
  · exact hsame
  · rename_i f hf
    cases hc : f.chunk with
    | none =>
      rw [Machine.run, hc]
      exact hsame
    | some c =>
      obtain ⟨n, o, m, hrun⟩ := hends f c ⟨hf, hc⟩
      have hstays : e.heap.Stays m.world.heap := hrun.stays
      rw [Machine.run, hc]
      dsimp only
      rw [hrun.finish]
      have hfunc : ∀ r, m.world.heap.func? r = e.heap.func? r := fun r => by
        rw [Heap.func?, hstays.funcs, Heap.func?]
      have hkeeps : e.Keeps { e with machine := m } :=
        ⟨fun _ hr => hr, Nat.le_refl _, hstays.insts, fun r f c hb => ⟨(hfunc r).trans hb.1, hb.2⟩⟩
      refine ⟨⟨he.anchored, fun v hv => hkeeps.bare (he.bare v hv), fun r hr => ?_⟩, hkeeps⟩
      obtain ⟨f, hf, hcode⟩ := he.funcs r hr
      exact ⟨f, (hfunc r).trans hf, fun c hc => hkeeps.confined (hcode c hc)⟩

theorem Onward.closed {e e' : Engine} {bs cs : List Binding} (h : e.Onward e' cs) (he : e.Closed)
    (hlife : Life e bs) : e'.Closed ∧ e.Keeps e' := by
  induction h with
  | refl => exact ⟨he, .refl _ _⟩
  | @compile e' cs honward text file ih =>
    have hlife' := honward.life hlife
    cases hr : (e'.compile text file).1 with
    | error ds =>
      obtain ⟨hclosed, hkeeps⟩ := ((compile_cases hlife'.reachable.tidy text file).1 ds hr).closed ih.1
      exact ⟨hclosed, ih.2.trans hkeeps⟩
    | ok r =>
      obtain ⟨hclosed, hkeeps, -⟩ := compile_closed ih.1 hlife' hr
      exact ⟨hclosed, ih.2.trans hkeeps⟩
  | check honward text file ih =>
    obtain ⟨hclosed, hkeeps⟩ := (check_untouched (honward.life hlife).reachable.tidy text file).closed ih.1
    exact ⟨hclosed, ih.2.trans hkeeps⟩
  | @loadBundle e' cs honward bytes ih =>
    cases hr : (e'.loadBundle bytes).1 with
    | error err =>
      obtain ⟨hclosed, hkeeps⟩ :=
        ((loadBundle_cases (honward.life hlife).reachable.tidy bytes).1 err hr).closed ih.1
      exact ⟨hclosed, ih.2.trans hkeeps⟩
    | ok ref =>
      obtain ⟨b, p, g, -, hloads⟩ := loadBundle_loads hr
      exact ⟨hloads.closed ih.1, ih.2.trans hloads.keeps⟩
  | run _ script budget hends ih =>
    obtain ⟨hclosed, hkeeps⟩ := run_closed ih.1 script budget hends
    exact ⟨hclosed, ih.2.trans hkeeps⟩
  | takeOutput _ ih => exact ⟨⟨ih.1.anchored, ih.1.bare, ih.1.funcs⟩, ih.2.trans (.refl _ _)⟩

theorem script_within {e e' : Engine} {bs cs : List Binding} {text file : String} {r q : Ref}
    (hlife : Life e bs) (he : e.Closed) (hr : (e.compile text file).1 = .ok r)
    (honward : (e.compile text file).2.Onward e' cs) (hq : e'.heap.Reaches r q) {f : Function} {c : Chunk}
    (hc : e'.heap.Body q f c) : c.Within e'.program.slots.size := by
  obtain ⟨hclosed, -, x, d, hbody, hconfined⟩ := compile_closed he hlife hr
  obtain ⟨hclosed', hkeeps⟩ := honward.closed hclosed (.compile hlife text file)
  -- The script is no function of the program, so it is a kind of its own.
  have hcode : ∀ s f c, e'.program.HasFunc s ∨ s = r → e'.heap.Body s f c →
      c.Confined e'.program e'.heap := by
    rintro s f c (hs | rfl) hb
    · obtain ⟨g, hg, hcode⟩ := hclosed'.funcs s hs
      obtain rfl := Option.some.inj (hg.symm.trans hb.1)
      exact hcode c hb.2
    · obtain ⟨rfl, rfl⟩ := (hkeeps.bodies _ _ _ hbody).unique hb
      exact hkeeps.confined hconfined
  have hkind := hq.kind (P := fun s => e'.program.HasFunc s ∨ s = r) (.inr rfl)
    fun s f c hs hb v hv => (hcode s f c hs hb).leads (fun _ => .inl) hv
  exact (hcode q f c hkind hc).within

theorem Onward.fresh {e e' : Engine} {bs cs : List Binding} (h : e.Onward e' cs) (hlife : Life e bs) :
    ∀ x ∈ cs, e.program.slots.size ≤ x.index := by
  intro x hx
  obtain ⟨k, hk, rfl⟩ := List.mem_iff_getElem.mp hx
  have hlength : bs.length = e.program.slots.size := by
    have hplaces := congrArg List.length hlife.recorded.places
    simpa [places] using hplaces
  have hindices := (slots_unshared (h.life hlife)).1
  have hindex := congrArg (·[bs.length + k]?) hindices
  simp only [List.getElem?_map, List.getElem?_append_right (Nat.le_add_right _ _), Nat.add_sub_cancel_left,
    List.getElem?_eq_getElem hk, List.length_append] at hindex
  rw [List.getElem?_range (Nat.add_lt_add_left hk _)] at hindex
  have hsame : cs[k].index = bs.length + k := Option.some.inj hindex
  rw [hsame, ← hlength]
  exact Nat.le_add_right _ _

/-- The code of a bundle uses slots of its globals only, if its script was compiled by an engine that has
done anything before and since. -/
theorem bundle_within {s : Setup} {e₀ e₁ e₂ : Engine} {bs cs : List Binding} {text file name id : String}
    {r : Ref} {b : Bundle} (hnew : new s = .ok e₀) (hbefore : e₀.Onward e₁ bs)
    (hr : (e₁.compile text file).1 = .ok r) (hafter : (e₁.compile text file).2.Onward e₂ cs)
    (hb : e₂.bundle r name id = .ok b) : b.script = 0 ∧ 0 < b.functions.length ∧
      ∀ f ∈ b.functions, ∀ c : Chunk, c.code = f.code.toArray → c.Within b.globals.length := by
  rw [bundle] at hb
  cases hb₀ : Bundle.ofScript e₂.heap r e₂.program.slots.toList name with
  | error err =>
    rw [hb₀] at hb
    cases hb
  | ok b₀ =>
    rw [hb₀] at hb
    obtain rfl := Except.ok.inj hb
    obtain ⟨hglobals, hscript, hsome, hcopied⟩ := Bundle.ofScript_copied hb₀
    have hlife := Life.new hnew
    have hclosed := (hbefore.closed (new_closed hnew) hlife).1
    refine ⟨hscript, hsome, fun f hf c hc => ?_⟩
    rcases hcopied f hf with hnone | ⟨q, x, d, hq, hbody, hcode⟩
    · rw [hnone] at hc
      exact .of_empty hc
    · rw [hglobals, Array.length_toList]
      refine (script_within (hbefore.life hlife) hclosed hr hafter hq hbody).of_code ?_
      rw [hc, hcode, Array.toArray_toList]

theorem Loads.reaches {e e' : Engine} {ref q : Ref} {b c : Bundle} {p : Program} {g : Heap}
    (hl : e.Loads e' ref c p g) (hc : b.Retained c) (hscript : b.script = 0)
    (hsome : 0 < b.functions.length) (hq : e'.heap.Reaches ref q) :
    ∃ f ∈ b.functions, ∃ x d, e'.heap.Body q x d ∧ d.code = f.code.toArray := by
  rw [hl.heap_eq] at hq ⊢
  have hplace : c.script.toNat < c.functions.length := by
    rw [hc.script, hscript, ← hc.functions.length_eq]
    exact hsome
  obtain ⟨f', hf', x, d, hbody, hcode, -⟩ :=
    Bundle.link_reaches (resolve_apart _ _) hl.linked hplace hq
  obtain ⟨f, hf, hsame⟩ := forall₂_mem hc.functions hf'
  exact ⟨f, hf, x, d, hbody, hsame ▸ hcode⟩

/-- A bundle is made of a script that some engine has compiled, and loaded by any engine: its globals are
the slots of the engine then, those that the engine had before stand first, and all loaded code uses slots
that no later binding gets. Bytes are stored in memory, so there are less than `2 ^ 64` of them. -/
theorem loadBundle_slots {s : Setup} {e₀ e₁ e₂ e e' : Engine} {bs bs' cs : List Binding}
    {text file name id : String} {r ref : Ref} {b : Bundle} (hnew : new s = .ok e₀)
    (hbefore : e₀.Onward e₁ bs) (hr : (e₁.compile text file).1 = .ok r)
    (hafter : (e₁.compile text file).2.Onward e₂ bs') (hb : e₂.bundle r name id = .ok b)
    (hbytes : b.encode.length < 2 ^ 64) (he : e.Reachable) (href : (e.loadBundle b.encode).1 = .ok ref)
    (hlater : (e.loadBundle b.encode).2.Onward e' cs) :
    (e.loadBundle b.encode).2.program.slots.toList = b.globals ∧
      e.program.slots.toList <+: b.globals ∧
        ∀ q, (e.loadBundle b.encode).2.heap.Reaches ref q → ∃ f c ds,
          (e.loadBundle b.encode).2.heap.Body q f c ∧ c.decode? = some ds ∧
            ∀ d ∈ ds, ∀ i, d.global? = some i →
              i < (e.loadBundle b.encode).2.program.slots.size ∧ ∀ x ∈ cs, x.index ≠ i := by
  obtain ⟨hscript, hsome, hwithin⟩ := bundle_within hnew hbefore hr hafter hb
  obtain ⟨c, p, g, hdecode, hloads⟩ := loadBundle_loads href
  have hretained := Bundle.decode_encode (by rw [hscript]; decide) hbytes hdecode
  have hslots : (e.loadBundle b.encode).2.program.slots.toList = b.globals := by
    have hrest : (p.makeObjects.run e.heap).1.slots = p.slots := by
      rw [(p.makeObjects_hasObjects e.heap).rest]
    rw [hloads.result, ← hretained.globals, ← hloads.slots]
    exact congrArg Array.toList hrest
  have hsize : (e.loadBundle b.encode).2.program.slots.size = b.globals.length := by
    rw [← hslots, Array.length_toList]
  obtain ⟨bs₀, hlife⟩ := he.life
  have hfresh := hlater.fresh (.loadBundle hlife b.encode)
  refine ⟨hslots, hretained.globals ▸ hloads.continues, fun q hq => ?_⟩
  obtain ⟨f, hf, x, d, hbody, hcode⟩ := hloads.reaches hretained hscript hsome hq
  obtain ⟨ds, hds, hglobal⟩ := (hwithin f hf d hcode).decode?
  refine ⟨x, d, ds, hbody, hds, fun o ho i hi => ?_⟩
  have hlt := hglobal o ho i hi
  rw [← hsize] at hlt
  exact ⟨hlt, fun y hy heq => absurd (hfresh y hy) (Nat.not_le.mpr (heq ▸ hlt))⟩

/-- The bundle of a script that a new engine has compiled, loaded by another new engine, with the globals
that the code of the loaded script uses, and the names and slots of those that a later batch declares. -/
def reloaded (text later : String) : Option (List Nat × List (String × Nat)) :=
  match plain.compile text "a.jz" with
  | (.error _, _) => none
  | (.ok r, e) =>
    match e.bundle r "a.jz" "b" with
    | .error _ => none
    | .ok b =>
      if 2 ^ 64 ≤ b.encode.length then none
      else match plain.loadBundle b.encode with
        | (.error _, _) => none
        | (.ok ref, e') => do
          let f ← e'.heap.func? ref
          let c ← f.chunk
          let ds ← c.decode?
          return (ds.filterMap (·.global?), places ((e'.analyze later "b.jz").2.globalsFrom e'.program.bindings.size))

theorem exists_of_reloaded {text later : String} {is : List Nat} {ps : List (String × Nat)}
    (h : reloaded text later = some (is, ps)) : ∃ r b ref f c ds, (plain.compile text "a.jz").1 = .ok r ∧
      (plain.compile text "a.jz").2.bundle r "a.jz" "b" = .ok b ∧ b.encode.length < 2 ^ 64 ∧
        (plain.loadBundle b.encode).1 = .ok ref ∧ (plain.loadBundle b.encode).2.heap.Body ref f c ∧
          c.decode? = some ds ∧ ds.filterMap (·.global?) = is ∧
            places (((plain.loadBundle b.encode).2.analyze later "b.jz").2.globalsFrom
              (plain.loadBundle b.encode).2.program.bindings.size) = ps := by
  unfold reloaded at h
  generalize plain.compile text "a.jz" = x at h ⊢
  obtain ⟨_ | r, e⟩ := x
  · cases h
  dsimp only at h ⊢
  cases hb : e.bundle r "a.jz" "b" with
  | error err => simp [hb] at h
  | ok b =>
    rw [hb] at h
    dsimp only at h
    split at h
    · cases h
    · rename_i hbytes
      generalize hload : plain.loadBundle b.encode = y at h
      obtain ⟨_ | ref, e'⟩ := y
      · cases h
      obtain ⟨f, hf, h⟩ := Option.bind_eq_some_iff.mp h
      obtain ⟨c, hc, h⟩ := Option.bind_eq_some_iff.mp h
      obtain ⟨ds, hds, h⟩ := Option.bind_eq_some_iff.mp h
      obtain ⟨his, hps⟩ := Prod.mk.inj (Option.some.inj h)
      obtain rfl : e' = (plain.loadBundle b.encode).2 := by rw [hload]
      exact ⟨r, b, ref, f, c, ds, rfl, hb, Nat.not_le.mp hbytes, by rw [hload], ⟨hf, hc⟩, hds, his, hps⟩

theorem onward_later (e : Engine) (text : String) : e.Onward (e.compile text "b.jz").2
    ((e.analyze text "b.jz").2.globalsFrom e.program.bindings.size) := .compile .refl text "b.jz"

theorem loadBundle_slots_again : ∃ r b ref f c ds,
    (plain.compile "let x = 1; fun f(): Int \x7b x \x7d; f()" "a.jz").1 = .ok r ∧
      (plain.compile "let x = 1; fun f(): Int \x7b x \x7d; f()" "a.jz").2.bundle r "a.jz" "b" = .ok b ∧
      (plain.loadBundle b.encode).1 = .ok ref ∧ (plain.loadBundle b.encode).2.heap.Body ref f c ∧
      c.decode? = some ds ∧ ds.filterMap (·.global?) = [0, 1, 2, 3, 4, 5, 6, 7, 8, 9, 10] ∧
      places (((plain.loadBundle b.encode).2.analyze "let y = 2" "b.jz").2.globalsFrom
        (plain.loadBundle b.encode).2.program.bindings.size) = [("y", 11)] ∧
      (plain.loadBundle b.encode).2.program.slots.toList = b.globals ∧
      plain.program.slots.toList <+: b.globals ∧
        ∀ q, (plain.loadBundle b.encode).2.heap.Reaches ref q → ∃ f c ds,
          (plain.loadBundle b.encode).2.heap.Body q f c ∧ c.decode? = some ds ∧
            ∀ d ∈ ds, ∀ i, d.global? = some i →
              i < (plain.loadBundle b.encode).2.program.slots.size ∧
                ∀ x ∈ ((plain.loadBundle b.encode).2.analyze "let y = 2" "b.jz").2.globalsFrom
                  (plain.loadBundle b.encode).2.program.bindings.size, x.index ≠ i := by
  have hreloaded : reloaded "let x = 1; fun f(): Int \x7b x \x7d; f()" "let y = 2"
      = some ([0, 1, 2, 3, 4, 5, 6, 7, 8, 9, 10], [("y", 11)]) := by decide +kernel
  obtain ⟨r, b, ref, f, c, ds, hr, hb, hbytes, href, hbody, hds, hglobals, hlater⟩ :=
    exists_of_reloaded hreloaded
  have hnew : new ⟨[], []⟩ = .ok plain := rfl
  have hkept := loadBundle_slots hnew .refl hr .refl hb hbytes (.new hnew) href (onward_later _ "let y = 2")
  exact ⟨r, b, ref, f, c, ds, hr, hb, href, hbody, hds, hglobals, hlater, hkept⟩

end Engine

end Scripting

import Scripting.Proofs.Engine.Sessions
import Scripting.Proofs.Script.Globals
import Scripting.Proofs.Slots.History
import Scripting.Proofs.Slots.Identity

/-!
# Globals with known values hold them

The script of a batch stores what is known of the globals that wait before it does anything else, and
no code stores anything else there. So `Engine.Orderly` is kept by every batch: the globals that do not
wait hold what is known of them, however a batch or its run ends.
-/

namespace Scripting

/-!
## What a slot may hold

No two globals of a program have the same slot, so what is known of a global is known of its slot:
`Program.MayHold`. A program that carries on another one has its globals in the same slots with the same
objects, and new globals in new slots. So what a slot may hold stays the same
(`Program.Carries.mayHold`).
-/

namespace Program

variable {o p q : Program} {b c : BindingId} {n : Nat} {v : Value}

theorem IsGlobal.mark (hb : p.IsGlobal b) : p.marks[b]? = some (p.binding b).mark := by
  rw [getElem?_marks, binding, Array.getD_eq_getD_getElem?, Array.getElem?_eq_getElem hb.1]
  rfl

theorem IsGlobal.slot (hb : p.IsGlobal b) :
    (p.binding b).mark.slot? = some ((p.binding b).name, (p.binding b).index) := by
  rw [Mark.slot?, Binding.mark, hb.2]

theorem Listed.lt (h : p.Listed p.slots.toList.zipIdx) (hb : p.IsGlobal b) :
    (p.binding b).index < p.slots.size := by
  have hmem : ((p.binding b).name, (p.binding b).index) ∈ p.slots.toList.zipIdx :=
    h.subset (List.mem_filterMap.mpr ⟨_, List.mem_of_getElem? hb.mark, hb.slot⟩)
  have hlt := (List.mem_zipIdx hmem).2.1
  simpa using hlt

theorem Listed.apart (h : p.Listed p.slots.toList.zipIdx) (hb : p.IsGlobal b) (hc : p.IsGlobal c)
    (heq : (p.binding b).index = (p.binding c).index) : b = c := by
  have hdistinct : (p.marks.filterMap Mark.slot?).Pairwise fun x y => x.2 ≠ y.2 := by
    have hslots : (p.slots.toList.zipIdx.map Prod.snd).Nodup := by
      rw [List.zipIdx_map_snd]
      exact List.nodup_range'
    exact (List.pairwise_map.mp hslots).sublist h
  rw [List.pairwise_filterMap, List.pairwise_iff_getElem] at hdistinct
  obtain ⟨hlt, hmark⟩ := List.getElem?_eq_some_iff.mp hb.mark
  obtain ⟨hlt', hmark'⟩ := List.getElem?_eq_some_iff.mp hc.mark
  rcases Nat.lt_trichotomy b c with hbc | hbc | hbc
  · exact absurd heq (hdistinct b c hlt hlt' hbc _ (hmark ▸ hb.slot) _ (hmark' ▸ hc.slot))
  · exact hbc
  · exact absurd heq.symm (hdistinct c b hlt' hlt hbc _ (hmark' ▸ hc.slot) _ (hmark ▸ hb.slot))

theorem Numbers.fresh (h : o.Numbers p) (hb : p.IsGlobal b) (hnew : o.bindings.size ≤ b) :
    o.slots.size ≤ (p.binding b).index := by
  obtain ⟨new, hmarks, hslots⟩ := h
  have hmark := hb.mark
  rw [hmarks, List.getElem?_append_right (o.length_marks ▸ hnew)] at hmark
  have hmem := List.mem_filterMap.mpr ⟨_, List.mem_of_getElem? hmark, hb.slot⟩
  have hdrop : new.filterMap Mark.slot? = p.slots.toList.zipIdx.drop o.slots.size := by
    rw [hslots, ← Array.length_toList, ← List.length_zipIdx (l := o.slots.toList) (i := 0), List.drop_left]
  rw [hdrop] at hmem
  obtain ⟨i, hi⟩ := List.mem_iff_getElem?.mp hmem
  rw [List.getElem?_drop, List.getElem?_zipIdx] at hi
  obtain ⟨name, -, hpair⟩ := Option.map_eq_some_iff.mp hi
  have hindex := (Prod.mk.inj hpair).2
  omega

/-- Whether a program has the globals of another one in their slots, with their objects. Other globals
have slots of their own. -/
structure Carries (p q : Program) : Prop where
  slots : p.slots.size ≤ q.slots.size
  marks : ∀ b < p.bindings.size, (q.binding b).mark = (p.binding b).mark
  steady : p.Steady q
  fresh : ∀ b, q.IsGlobal b → p.bindings.size ≤ b → p.slots.size ≤ (q.binding b).index
  objects : p.Names fun c => q.object c = p.object c

theorem Carries.isGlobal (h : p.Carries q) (hb : b < p.bindings.size) : q.IsGlobal b ↔ p.IsGlobal b := by
  have hstorage : (q.binding b).storage = (p.binding b).storage := congrArg Mark.storage (h.marks b hb)
  rw [IsGlobal, IsGlobal, hstorage]
  exact ⟨fun hg => ⟨hb, hg.2⟩, fun hg => ⟨Nat.lt_of_lt_of_le hb h.steady.size, hg.2⟩⟩

theorem Carries.initially (h : p.Carries q) (hb : b < p.bindings.size) (hv : p.Initially b v) :
    q.Initially b v := by
  obtain ⟨hcallable, htype⟩ := Prod.mk.inj (h.steady.known b hb)
  rw [Initially] at hv ⊢
  rw [hcallable, htype]
  split
  · rename_i hunknown
    rw [if_pos hunknown] at hv
    obtain ⟨c, hc, rfl⟩ := Option.map_eq_some_iff.mp hv
    rw [hc, Option.map_some, h.objects b hb c hc]
  · rename_i hknown
    rwa [if_neg hknown] at hv

theorem Restored.carries (h : o.Restored p) : o.Carries p := by
  have hbinding : ∀ b, p.binding b = o.binding b := fun b => by rw [binding, h.bindings, binding]
  refine ⟨?_, fun b _ => by rw [hbinding], .of_eq h.bindings, fun b hg hge => ?_, fun b _ c _ => ?_⟩
  · simpa using h.slots.length_le
  · exact absurd hg.1 (Nat.not_lt.mpr (h.bindings ▸ hge))
  · exact object_congr (fun i => by rw [h.funs]) h.hosts h.types c

/-- Whether a slot may hold a value: if it is that of a global whose value is known, then only that
one. -/
def MayHold (p : Program) (n : Nat) (v : Value) : Prop :=
  n < p.slots.size ∧
    ∀ b, p.IsGlobal b → (p.binding b).index = n → ¬ (p.binding b).Plain → p.Initially b v

theorem Carries.mayHold (h : p.Carries q) (hv : p.MayHold n v) : q.MayHold n v := by
  refine ⟨Nat.lt_of_lt_of_le hv.1 h.slots, fun b hg hindex hplain => ?_⟩
  rcases Nat.lt_or_ge b p.bindings.size with hlt | hge
  · have hsame : (q.binding b).index = (p.binding b).index := congrArg Mark.index (h.marks b hlt)
    exact h.initially hlt (hv.2 b ((h.isGlobal hlt).mp hg) (hsame.symm.trans hindex)
      fun hold => hplain (h.steady.plain hlt hold))
  · exact absurd hv.1 (Nat.not_lt.mpr (hindex ▸ h.fresh b hg hge))

namespace Listed

variable (h : p.Listed p.slots.toList.zipIdx)
include h

theorem mayHold_plain (hb : p.IsGlobal b) (hplain : (p.binding b).Plain) (v : Value) :
    p.MayHold (p.binding b).index v := by
  refine ⟨h.lt hb, fun c hc hindex hc' => ?_⟩
  obtain rfl := h.apart hb hc hindex.symm
  exact absurd hplain hc'

theorem mayHold (hb : p.IsGlobal b) (hv : p.Initially b v) : p.MayHold (p.binding b).index v := by
  refine ⟨h.lt hb, fun c hc hindex _ => ?_⟩
  obtain rfl := h.apart hb hc hindex.symm
  exact hv

end Listed

end Program

open Program

theorem Store.Fair.steady {p q : Program} {s : Store} (h : s.Fair p) (hpq : p.Steady q) : s.Fair q := by
  cases s with
  | declares b => exact ⟨Nat.lt_of_lt_of_le h.1 hpq.size, hpq.plain h.1 h.2⟩
  | names b => exact h
  | counts l => exact ⟨h.1.steady hpq, h.2.steady hpq⟩
  | assigns s => exact ⟨h.1.steady hpq, fun hplace => hpq.plain h.1.1 (h.2 hplace)⟩

theorem Fair.steady {N C T W : Type} {p q : Program} {ss : List Store}
    {ds : List (FunDecl (.slotted N C T W))} (h : Fair p ss ds) (hpq : p.Steady q) : Fair q ss ds :=
  ⟨fun s hs => (h.stores s hs).steady hpq, fun d hd s hs => (h.inner d hd s hs).steady hpq⟩

theorem Typing.KeepsStmts.fair {p q : Program} {ss : List (Stmt .resolved)} {ts : List (Stmt .typed)}
    (h : KeepsStmts p ss ts) (hf : Fair q (Stores.stmts ss) (Decls.stmts ss)) :
    Fair q (Stores.stmts ts) (Decls.stmts ts) := by
  refine ⟨fun s hs => hf.stores s (h.stores.subset hs), fun t ht s hs => ?_⟩
  obtain ⟨d, hd, hnarrows⟩ := h.inner t ht
  refine hf.inner d hd s ?_
  rcases List.mem_append.mp hs with hs | hs
  · exact List.mem_append_left _ (hnarrows.params ▸ hs)
  · exact List.mem_append_right _ (hnarrows.stores.subset hs)

namespace Engine

theorem analyze_fair {e : Engine} {n : Nat} (he : e.program.Tidy) (hq : e.program.Queued n)
    (hn : e.program.Named) (hf : e.program.Founded) (hh : e.program.Held) (text file : String) :
    Retains n e.program.begin (e.analyze text file).2 ∧ ∀ src, (e.analyze text file).1 = .ok src →
      Fair (e.analyze text file).2 (Stores.stmts src.stmts) (Decls.stmts src.stmts) := by
  unfold analyze
  split
  · exact ⟨.refl _, fun _ h => nomatch h⟩
  · rename_i src _
    obtain ⟨hretains, hfair⟩ := src.resolve_fair (p := e.program.begin) (hq.of_eq rfl rfl)
      (hn.of_eq rfl (.of_eq rfl)) (hf.of_eq rfl (.of_eq rfl (Nat.le_refl _) rfl))
      (hh.of_eq rfl (.of_types rfl)) he.indexed.table.keyed (Loading.loader_plain e.registry)
    split
    · rename_i ds p heq
      rw [heq] at hretains
      exact ⟨hretains, fun _ h => nomatch h⟩
    · rename_i out p heq
      rw [heq] at hretains hfair
      obtain ⟨-, hsettles, hkeeps⟩ := check_resolved he heq
      exact ⟨hretains.trans (hsettles.retains n), fun src hsrc =>
        ((hkeeps src hsrc).fair (hfair out rfl)).steady hsettles.steady⟩

/-- Whether the globals whose values are known hold them, and have their objects. -/
structure Filled (e : Engine) : Prop where
  queued : e.program.Queued e.program.bindings.size
  equipped : e.program.Equipped
  held : ∀ b, e.program.IsGlobal b → ¬ (e.program.binding b).Plain →
    e.machine.memory.Has e.program.MayHold (e.program.binding b).index

/-- What holds of globals and code in every state of an engine. Before its first script, all known
globals wait. -/
structure Orderly (e : Engine) : Prop where
  named : e.program.Named
  founded : e.program.Founded
  held : e.program.Held
  single : e.program.Single
  listed : e.program.Listed e.program.slots.toList.zipIdx
  individual : Individual e.program.objects e.heap
  code : ∀ x ∈ e.heap.funcs, ∀ chunk, x.chunk = some chunk → chunk.Minds e.program.MayHold
  known : e.Filled ∨ e.program.Queued 0 ∧ e.heap.funcs = #[]

theorem Orderly.queued {e : Engine} (ho : e.Orderly) : ∃ n, e.program.Queued n ∧
    ∀ b < n, e.Filled ∧ b < e.program.bindings.size := by
  rcases ho.known with hfilled | ⟨hqueued, -⟩
  · exact ⟨_, hfilled.queued, fun _ hb => ⟨hfilled, hb⟩⟩
  · exact ⟨0, hqueued, fun b hb => absurd hb (Nat.not_lt_zero b)⟩

namespace Builds

variable {e e' : Engine} {src : Source .typed} {r : Ref} {p q : Program} {K : Lowering} {h' : Heap}

theorem binding (hb : e.Builds e' src r p q K h') (b : BindingId) :
    e'.program.binding b = p.binding b := by
  obtain rfl := hb.result
  show q.binding b = p.binding b
  rw [hb.compiles.binding, Program.binding, hb.objects.bindings, Program.binding]

theorem bindings (hb : e.Builds e' src r p q K h') : e'.program.bindings = p.bindings := by
  obtain rfl := hb.result
  exact hb.compiles.bindings.trans hb.objects.bindings

theorem object (hb : e.Builds e' src r p q K h') (c : Callable) :
    e'.program.object c = K.program.object c := by
  obtain rfl := hb.result
  exact (object_congr (p := q) (q := q.commit) (fun _ => rfl) rfl rfl c).trans (hb.compiles.object c)

section

variable {n : Nat}

theorem founded (hb : e.Builds e' src r p q K h') (ho : e.Orderly) (hr : Retains n e.program.begin p) :
    p.Founded ∧ K.program.Founded := by
  have hp : p.Founded := hr.founded (ho.founded.of_eq rfl (.of_eq rfl (Nat.le_refl _) rfl))
  exact ⟨hp, hp.of_eq hb.objects.bindings hb.objects.contained⟩

theorem individual (hb : e.Builds e' src r p q K h') (ho : e.Orderly) (hr : Retains n e.program.begin p) :
    Individual p.objects e.heap ∧
      Individual K.program.objects (p.makeObjects.run e.heap).2 := by
  have hp : Individual p.objects e.heap := ho.individual.subset hr.objects.subset
  exact ⟨hp, hb.made ▸ makeObjects_individual hp⟩

theorem equipped (hb : e.Builds e' src r p q K h') (ho : e.Orderly)
    (hr : Retains n e.program.begin p) : p.Names fun c => K.program.object c ≠ .absent ∧
      (p.object c ≠ .absent → K.program.object c = p.object c) := by
  have hpresent := (hb.individual ho hr).1.present
  exact Names.mono (hb.founded ho hr).1 fun c hc => hb.objects.object hb.follows.tidy hc hpresent

theorem sharp (hb : e.Builds e' src r p q K h') (ho : e.Orderly) (hr : Retains n e.program.begin p) :
    K.program.Sharp := by
  refine Equipped.sharp ?_ (hb.founded ho hr).2 (hb.individual ho hr).2
  exact Names.of_eq (Names.mono (hb.equipped ho hr) fun _ h => h.1) hb.objects.bindings

theorem slots (hb : e.Builds e' src r p q K h') : e'.program.slots = p.slots := by
  obtain rfl := hb.result
  show q.slots = p.slots
  rw [hb.compiles.rest, hb.objects.rest]

theorem isGlobal (hb : e.Builds e' src r p q K h') (b : BindingId) :
    e'.program.IsGlobal b ↔ p.IsGlobal b := by
  rw [IsGlobal, IsGlobal, hb.binding, hb.bindings]

theorem listed (hb : e.Builds e' src r p q K h') (ho : e.Orderly) (hn : e.program.Numbers p) :
    e'.program.Listed e'.program.slots.toList.zipIdx := by
  rw [Listed, marks, hb.bindings, hb.slots]
  exact hn.listed ho.listed

theorem object_kept (hb : e.Builds e' src r p q K h') (htidy : e.program.Tidy) (ho : e.Orderly)
    (hr : Retains n e.program.begin p) {b : BindingId} {c : Callable} (hlt : b < e.program.bindings.size)
    (hc : (e.program.binding b).callable = some c) (hne : e.program.object c ≠ .absent) :
    e'.program.object c = e.program.object c := by
  have hsame := hb.follows.object htidy (ho.founded b hlt c hc)
  have hcall : (p.binding b).callable = some c :=
    (congrArg Prod.fst (hr.steady.known b hlt)).trans hc
  have hkept := (hb.equipped ho hr b (Nat.lt_of_lt_of_le hlt hr.steady.size) c hcall).2
  rw [hb.object, hkept (hsame ▸ hne), hsame]

theorem carries (hb : e.Builds e' src r p q K h') (htidy : e.program.Tidy) (ho : e.Orderly)
    (hr : Retains n e.program.begin p) (hn : e.program.Numbers p) (he : e.program.Equipped) :
    e.program.Carries e'.program := by
  refine ⟨?_, fun b hlt => ?_, Steady.trans (q := e.program.begin) (.of_eq rfl)
    (hr.steady.trans (.of_eq hb.bindings)), fun b hg hge => ?_,
    fun b hlt c hc => ?_⟩
  · obtain ⟨new, -, hnew⟩ := hn
    have hlength := congrArg List.length hnew
    rw [List.length_append, List.length_zipIdx, List.length_zipIdx] at hlength
    rw [hb.slots, ← Array.length_toList, ← Array.length_toList]
    omega
  · rw [hb.binding, hn.mark hlt]
  · rw [hb.binding]
    exact hn.fresh ((hb.isGlobal b).mp hg) hge
  · exact hb.object_kept htidy ho hr hlt hc (he b hlt c hc)

theorem known_may (hb : e.Builds e' src r p q K h') (ho : e.Orderly)
    (hr : Retains n e.program.begin p) (hn : e.program.Numbers p) (hq : e.program.Queued n)
    {known : List (Nat × Value)} (hknown : K.program.Known K.program.pending.toList known) :
    (∀ x ∈ known, e'.program.MayHold x.1 x.2) ∧ ∀ b ∈ p.pending, ∃ x ∈ known,
      x.1 = (e'.program.binding b).index := by
  have hbinding : ∀ b, K.program.binding b = e'.program.binding b := fun b => by
    rw [hb.binding, Program.binding, hb.objects.bindings, Program.binding]
  have hpending : K.program.pending = p.pending := by rw [hb.objects.rest]
  have hqueued : p.Queued n := hr.queued (hq.of_eq rfl rfl)
  refine ⟨fun x hx => ?_, fun b hmem => ?_⟩
  · obtain ⟨b, hmem, hindex, hinitially⟩ := forall₂_mem hknown hx
    rw [hpending] at hmem
    have hglobal := (hb.isGlobal b).mpr (hqueued.globals b (Array.mem_toList_iff.mp hmem))
    rw [hindex, hbinding]
    refine (hb.listed ho hn).mayHold hglobal ?_
    have hobject : e'.program.object = K.program.object := funext hb.object
    rw [Initially, ← hbinding, hobject]
    exact hinitially
  · have hback := List.Forall₂.flip hknown
    obtain ⟨x, hx, hindex, -⟩ := forall₂_mem hback (hpending ▸ Array.mem_toList_iff.mpr hmem)
    exact ⟨x, hx, by rw [hindex, hbinding]⟩

theorem plain_may (hb : e.Builds e' src r p q K h') (ho : e.Orderly) (hn : e.program.Numbers p) :
    ∀ b, K.program.IsGlobal b → (K.program.binding b).Plain → ∀ v,
      e'.program.MayHold (K.program.binding b).index v := by
  intro b hg hplain v
  have hbinding : K.program.binding b = e'.program.binding b := by
    rw [hb.binding, Program.binding, hb.objects.bindings, Program.binding]
  rw [hbinding] at hplain ⊢
  refine (hb.listed ho hn).mayHold_plain ?_ hplain v
  rw [IsGlobal, hb.objects.bindings] at hg
  rw [IsGlobal, hb.bindings, ← hbinding]
  exact hg

theorem object_minds (hb : e.Builds e' src r p q K h') (ho : e.Orderly) (hn : e.program.Numbers p)
    (hfair : Fair K.program (Stores.stmts src.stmts) (Decls.stmts src.stmts)) {d : FunDecl .typed}
    {f : UserFunction} {x : Function} (hd : K.compiled d) (hobject : K.Object f d x) (hshort : x.Short)
    {chunk : Chunk} (hchunk : x.chunk = some chunk) : chunk.Minds e'.program.MayHold := by
  have hinner := Inner.stmts_all _ hb.inScope hb.formed
  have hlisted := hb.compiled.listed d hd
  obtain ⟨code, pool, file, hcode, hfunc, hends⟩ := hb.compiled.object_ends hb.objects hinner hd hobject
  obtain rfl := Option.some.inj (hchunk.symm.trans hcode)
  have hdoes := Lowers.func_does hfunc (Scoped.func.framed (hinner d hlisted).1)
  have hreaches := hdoes.reaches (Touches.func_open hb.inScope hfair hlisted)
  exact hends.minds (hshort _ hchunk) (hreaches.minds (hb.plain_may ho hn) pool)

theorem script_minds (hb : e.Builds e' src r p q K h') (ho : e.Orderly)
    (hr : Retains n e.program.begin p) (hn : e.program.Numbers p) (hq : e.program.Queued n)
    (hfair : Fair K.program (Stores.stmts src.stmts) (Decls.stmts src.stmts))
    (hshort : h'.Short) : ∃ x chunk known, h'.funcs[r]? = some x ∧ x.chunk = some chunk ∧
      K.program.Known K.program.pending.toList known ∧ chunk.Minds e'.program.MayHold ∧
        chunk.Starts known := by
  have hsuits := hb.compiled.suits hb.objects .top K.pool
  obtain ⟨known, a, b, hknown, ha, hbehind, hscript, hstored⟩ := hb.compiled.script
  have hfirst := hstored (hb.sharp ho hr)
  have hends := Lowers.script_ends hsuits ha hbehind hb.inScope hb.formed nofun
  have hbody := Lowers.topStmts_ends hsuits src.stmts (σ := fun _ => none) (fun _ _ h => nomatch h)
    hbehind hb.inScope hb.formed nofun
  have hreaches := (Lowers.topStmts_does src.stmts hbehind ⟨List.Subset.refl _, List.Subset.refl _⟩).reaches
    (Touches.stmts_open hb.inScope hfair)
  have hlength := hshort _ (Array.mem_of_getElem? hscript) _ rfl
  have hminds := Scripting.script_minds hfirst rfl hreaches (fun _ _ _ hl => hbody.back_le hl)
    (hb.plain_may ho hn) (hb.known_may ho hr hn hq hknown).1
  refine ⟨_, _, known, hscript, rfl, hknown, hends.minds hlength hminds, ?_⟩
  obtain ⟨L, hL, hcode, hlimits⟩ := hends.listed hlength
  have hpool : L.limits.pool = K.pool := by
    rw [hlimits]
    rfl
  refine ⟨L, hL, by rw [Assembly.chunk_file, hcode, hpool], ?_⟩
  exact Lowers.stored.from (hpool ▸ hfirst) [] b hcode

theorem heap_minds (hb : e.Builds e' src r p q K h') (htidy : e.program.Tidy) (ho : e.Orderly)
    (hr : Retains n e.program.begin p) (hn : e.program.Numbers p) (hq : e.program.Queued n)
    (hfair : Fair K.program (Stores.stmts src.stmts) (Decls.stmts src.stmts)) (hshort : h'.Short) :
    ∀ x ∈ h'.funcs, ∀ chunk, x.chunk = some chunk → chunk.Minds e'.program.MayHold := by
  intro x hx chunk hchunk
  obtain ⟨i, hi⟩ := Array.mem_iff_getElem?.mp hx
  have hsize : i < r + 1 := by
    rw [hb.compiled.fresh, ← hb.compiled.count]
    exact (Array.getElem?_eq_some_iff.mp hi).1
  rcases Nat.lt_succ_iff_lt_or_eq.mp hsize with hlt | rfl
  · rcases hb.compiled.functions i hlt x hi with ⟨d, hd, f, -, hobject⟩ | ⟨hsame, -⟩
    · exact hb.object_minds ho hn hfair hd hobject (hshort x hx) hchunk
    · rcases Nat.lt_or_ge i e.heap.funcs.size with hlt' | hge
      · -- The function is one of an earlier batch.
        rw [hb.objects.heap.old i hlt'] at hsame
        rcases ho.known with hfilled | ⟨-, hnone⟩
        · have hcarries := hb.carries htidy ho hr hn hfilled.equipped
          exact (ho.code x (Array.mem_of_getElem? hsame) chunk hchunk).mono fun _ _ h => hcarries.mayHold h
        · rw [hnone] at hlt'
          exact absurd hlt' (Nat.not_lt_zero i)
      · rw [hb.objects.heap.new i x hge hsame] at hchunk
        cases hchunk
  · obtain ⟨y, c, -, hy, hc, -, hminds, -⟩ := hb.script_minds ho hr hn hq hfair hshort
    obtain rfl := Option.some.inj (hi.symm.trans hy)
    obtain rfl := Option.some.inj (hchunk.symm.trans hc)
    exact hminds

theorem orderly (hb : e.Builds e' src r p q K h') (htidy : e.program.Tidy) (ho : e.Orderly)
    (hr : Retains n e.program.begin p) (hn : e.program.Numbers p) (hq : e.program.Queued n)
    (hfair : Fair K.program (Stores.stmts src.stmts) (Decls.stmts src.stmts)) (hshort : h'.Short)
    {m : Machine} (hlater : e'.machine.memory.Later m.memory)
    (hheld : ∀ b, e'.program.IsGlobal b → ¬ (e'.program.binding b).Plain →
      m.memory.Has e'.program.MayHold (e'.program.binding b).index) :
    ({ e' with machine := m } : Engine).Orderly ∧ ({ e' with machine := m } : Engine).Filled := by
  have hcode := hb.heap_minds htidy ho hr hn hq hfair hshort
  have hlisted := hb.listed ho hn
  have hequipped : e'.program.Equipped := by
    refine Names.of_eq (p := p) (Names.mono (hb.equipped ho hr) fun c hc => ?_) hb.bindings
    rw [hb.object]
    exact hc.1
  have hfounded := (hb.founded ho hr).2
  have hindividual := (hb.individual ho hr).2
  have hnamed : p.Named := hr.named (ho.named.of_eq rfl (.of_eq rfl))
  have hheld' : p.Held := hr.held (ho.held.of_eq rfl (.of_types rfl))
  have hbindings := hb.bindings
  obtain ⟨g, hg, hle⟩ := hb.compiled.objects
  have hnext : (p.makeObjects.run e.heap).2.nextId ≤ h'.nextId := by
    rw [hg]
    exact hle
  have hrest : q = { K.program with funs := q.funs } := hb.compiles.rest
  have hfilled : ({ e' with machine := m } : Engine).Filled := by
    refine ⟨⟨fun b hge hglobal => absurd hglobal.1 (Nat.not_lt.mpr hge), fun b hmem => ?_⟩, hequipped, hheld⟩
    obtain rfl := hb.result
    exact absurd hmem (Array.not_mem_empty b)
  have hsingle : p.Single := hr.single (ho.single.of_steady (.of_eq rfl) rfl)
  refine ⟨⟨?_, ?_, ?_, ?_, hlisted, ?_, ?_, .inl hfilled⟩, hfilled⟩
  · refine hnamed.of_eq ?_ (.of_eq hbindings)
    obtain rfl := hb.result
    show q.scope = p.scope
    rw [hrest, hb.objects.rest]
  · obtain rfl := hb.result
    have hcontained := hb.compiles.contained
    exact hfounded.of_eq hb.compiles.bindings ⟨hcontained.funs, hcontained.nextType, hcontained.types,
      hcontained.keyed⟩
  · refine hheld'.of_eq hbindings ?_
    obtain rfl := hb.result
    have htypes : q.types = K.program.types := by rw [hrest]
    exact hb.objects.inherits.trans (.of_types htypes)
  · exact hsingle.of_steady (.of_eq hbindings) (by rw [← hbindings])
  · have hobjects : e'.program.objects = K.program.objects := by
      obtain rfl := hb.result
      show q.objects = K.program.objects
      rw [Program.objects, hrest, Program.objects]
    refine (hobjects ▸ hindividual).mono (Nat.le_trans hnext ?_)
    obtain rfl := hb.result
    exact hlater.nextId
  · intro x hx
    have hfuncs : m.world.heap.funcs = h'.funcs := by
      obtain rfl := hb.result
      exact hlater.funcs
    exact hcode x (hfuncs ▸ hx)

end

end Builds

variable {e : Engine} {bs : List Compiled}

theorem enter_minds {May : Nat → Value → Prop} {x : Function} {chunk : Chunk} {L : Listing} (budget : Nat)
    (hcode : ∀ x ∈ e.heap.funcs, ∀ chunk, x.chunk = some chunk → chunk.Minds May)
    (hx : x ∈ e.heap.funcs) (hchunk : x.chunk = some chunk) (hL : L.Sound)
    (hat : ∀ f ∈ (e.machine.enter x chunk budget).frames, f.At L 0) :
    (e.machine.enter x chunk budget).Minds May := by
  have hminds : chunk.Minds May := hcode x hx chunk hchunk
  refine ⟨hcode, fun f hf => ?_, fun f hf n v hn _ => ?_, fun f hf => ?_⟩
  · obtain rfl := List.mem_singleton.mp hf
    exact hminds
  · obtain rfl := Option.some.inj hf
    exact (hat _ (List.mem_singleton_self _)).takes hL hminds (by omega) hn v
  · cases hf

theorem extend_ok {text file : String} {r : Ref} (h : (e.compile text file).1 = .ok r) (budget : Nat) :
    (e.extend text file budget).2 = ((e.compile text file).2.run r budget).2 := by
  unfold extend
  generalize e.compile text file = x at h
  obtain ⟨res, e'⟩ := x
  cases h
  dsimp only

theorem extend_error {text file : String} {ds : List Diagnostic}
    (h : (e.compile text file).1 = .error ds) (budget : Nat) :
    (e.extend text file budget).2 = (e.compile text file).2 := by
  unfold extend
  generalize e.compile text file = x at h
  obtain ⟨res, e'⟩ := x
  cases h
  dsimp only

theorem extend_filled {text file : String} {r : Ref} (hready : e.Ready bs) (ho : e.Orderly)
    (hr : (e.compile text file).1 = .ok r) (hshort : (e.compile text file).2.heap.Short) (budget : Nat) :
    (e.extend text file budget).2.Orderly ∧ (e.extend text file budget).2.Filled := by
  obtain ⟨n, hq, hbefore⟩ := ho.queued
  obtain ⟨src, p, q, K, h', hanalyze, hb⟩ := compile_builds hready.tidy hr
  obtain ⟨hretains, hfair⟩ := analyze_fair hready.tidy hq ho.named ho.founded ho.held text
    (if file.isEmpty then inputName else file)
  have hn := analyze_numbers hready.tidy text (if file.isEmpty then inputName else file)
  rw [hanalyze] at hretains hfair hn
  replace hfair := (hfair src rfl).steady (.of_eq hb.objects.bindings)
  have hready' := hb.ready hready hshort
  rw [extend_ok hr]
  generalize (e.compile text file).2 = e' at hb hshort hready'
  have hheap : e'.heap = h' := by
    obtain rfl := hb.result
    rfl
  rw [hheap] at hshort
  -- The script runs.
  obtain ⟨x, chunk, known, hx, hchunk, hknown, hminds, hstarts⟩ :=
    hb.script_minds ho hretains hn hq hfair hshort
  obtain ⟨y, c, hy, hc, harity, hfree⟩ := hready'.scripts _ List.mem_cons_self
  obtain ⟨z, d, k, o, m, hz, hd, hstands, hends, -, hrun⟩ := hready'.run_ends List.mem_cons_self budget
  rw [← hheap] at hx
  obtain rfl := Option.some.inj (hx.symm.trans hy)
  obtain rfl := Option.some.inj (hchunk.symm.trans hc)
  obtain rfl := Option.some.inj (hx.symm.trans hz)
  obtain rfl := Option.some.inj (hchunk.symm.trans hd)
  obtain ⟨L, f, hL, hframes, hframe, hat, -⟩ := hready'.entered hx hchunk harity hfree budget
  have hcode := hb.heap_minds hready.tidy ho hretains hn hq hfair hshort
  rw [← hheap] at hcode
  have hm := enter_minds budget hcode (Array.mem_of_getElem? hx) hchunk hL (by
    rw [hframes]
    exact fun g hg => List.mem_singleton.mp hg ▸ hat)
  have hfills := hends.starts hstands hm hframes hL hat (hframe ▸ hstarts)
    (hb.known_may ho hretains hn hq hknown).1
  rw [hrun]
  refine hb.orderly hready.tidy ho hretains hn hq hfair hshort (hends.later hstands) fun b hg hplain => ?_
  rcases Nat.lt_or_ge b n with hold | hnew
  · -- The global had its value before.
    obtain ⟨hfilled, hlt⟩ := hbefore b hold
    have hcarries := hb.carries hready.tidy ho hretains hn hfilled.equipped
    obtain ⟨v, hv, hmay⟩ := hfilled.held b ((hcarries.isGlobal hlt).mp hg) fun hold =>
      hplain (hcarries.steady.plain hlt hold)
    have hindex : (e'.program.binding b).index = (e.program.binding b).index :=
      congrArg Mark.index (hcarries.marks b hlt)
    refine hends.has hstands hm ⟨v, ?_, hindex ▸ hcarries.mayHold hmay⟩
    obtain rfl := hb.result
    rw [hindex]
    exact hv
  · -- The global waited, so the script stores its value.
    have hqueued : p.Queued n := hretains.queued (hq.of_eq rfl rfl)
    rw [hb.binding] at hplain
    have hmem := hqueued.waiting b hnew ((hb.isGlobal b).mp hg) hplain
    obtain ⟨y, hy, hindex⟩ := (hb.known_may ho hretains hn hq hknown).2 b hmem
    exact hindex ▸ hfills y hy

theorem Untouched.orderly {e' : Engine} (h : e.Untouched e') (ho : e.Orderly) : e'.Orderly := by
  obtain ⟨-, hmachine, hp⟩ := h
  have hheap : e'.heap = e.heap := by rw [heap, hmachine, heap]
  have hcarries := hp.carries
  have hbinding : ∀ b, e'.program.binding b = e.program.binding b := fun b => by
    rw [Program.binding, hp.bindings, Program.binding]
  refine ⟨fun name b hb => (ho.named name b (hp.names name ▸ hb)).steady (.of_eq hp.bindings),
    ho.founded.of_eq hp.bindings ⟨Nat.le_of_eq (by rw [hp.funs]), hp.nextType, fun d hd => ?_,
      fun hk => hp.types ▸ hk⟩,
    ho.held.of_eq hp.bindings (.of_types hp.types),
    ho.single.of_steady (.of_eq hp.bindings) (by rw [hp.bindings]), ?_, ?_,
      fun x hx chunk hchunk => ?_, ?_⟩
  · exact ⟨d, hp.types ▸ hd, rfl, Nat.le_refl _⟩
  · obtain ⟨more, hmore⟩ := hp.slots
    rw [Listed, marks, hp.bindings, ← hmore, List.zipIdx_append]
    exact ho.listed.trans (List.sublist_append_left _ _)
  · have hobjects : e'.program.objects = e.program.objects := by
      rw [Program.objects, hp.types, Program.objects]
    rw [hheap, hobjects]
    exact ho.individual
  · exact (ho.code x (hheap ▸ hx) chunk hchunk).mono fun _ _ hmay => hcarries.mayHold hmay
  · rcases ho.known with ⟨hqueued, hequipped, hheld⟩ | ⟨hqueued, hnone⟩
    · refine .inl ⟨?_, ?_, fun b hg hplain => ?_⟩
      · rw [hp.bindings]
        exact hqueued.of_eq hp.bindings hp.pending
      · refine Names.of_eq (p := e.program) (fun b hb c hc => ?_) hp.bindings
        rw [hcarries.objects b hb c hc]
        exact hequipped b hb c hc
      · rw [IsGlobal, hp.bindings, hbinding] at hg
        rw [hbinding] at hplain ⊢
        obtain ⟨v, hv, hmay⟩ := hheld b hg hplain
        exact ⟨v, hmachine ▸ hv, hcarries.mayHold hmay⟩
    · exact .inr ⟨hqueued.of_eq hp.bindings hp.pending, hheap ▸ hnone⟩

theorem preloaded_objects {r : Registry} : (names : List String) → {p q : Program} →
    preloaded r p names = .ok q → q.objects.Sublist p.objects
  | [], _, _, h => Except.ok.inj h ▸ .refl _
  | name :: names, p, q, h => by
    have hload := Loading.useModule_objects (Loading.loader_plain r) name p
    rw [preloaded] at h
    split at h
    · rename_i p' heq
      rw [heq] at hload
      exact (preloaded_objects names h).trans hload
    · cases h

theorem preloaded_inherits {r : Registry} : (names : List String) → {p q : Program} →
    preloaded r p names = .ok q → p.Inherits q
  | [], _, _, h => Except.ok.inj h ▸ .of_types rfl
  | name :: names, p, q, h => by
    have hload := Loading.useModule_inherits (Loading.loader_plain r) name p
    rw [preloaded] at h
    split at h
    · rename_i p' heq
      rw [heq] at hload
      exact hload.trans (preloaded_inherits names h)
    · cases h

theorem new_orderly {s : Setup} (h : Engine.new s = .ok e) : e.Orderly := by
  have hrecorded := new_recorded h
  obtain ⟨r, p, hp, rfl⟩ := Engine.exists_preloaded h
  have hretains := (preloaded_alongside s.preload hp).retains (n := 0) (preloaded_objects s.preload hp)
    (preloaded_inherits s.preload hp)
  obtain ⟨hqueued, hnamed, hfounded, hsingle, hheld⟩ := initial_queued
  exact ⟨hretains.named hnamed, hretains.founded hfounded, hretains.held hheld,
    hretains.single hsingle, hrecorded.listed,
    initial_individual.subset hretains.objects.subset, fun _ hx => absurd hx (Array.not_mem_empty _),
    .inr ⟨hretains.queued hqueued, rfl⟩⟩

/-- The states of an engine that is extended by one batch after the other. The code of a batch has to be
short enough for its jumps, whose operands have four bytes. -/
inductive Driven : Engine → Prop
  | new {s : Setup} {e : Engine} : new s = .ok e → Driven e
  | extend {e : Engine} : Driven e → ∀ text file budget, (e.compile text file).2.heap.Short →
    Driven (e.extend text file budget).2

theorem Driven.invariant (h : e.Driven) : e.Orderly ∧ ∃ bs, e.Ready bs := by
  induction h with
  | new hnew => exact ⟨new_orderly hnew, [], new_ready hnew⟩
  | @extend e _ text file budget hshort ih =>
    obtain ⟨ho, bs, hready⟩ := ih
    cases hr : (e.compile text file).1 with
    | error ds =>
      have huntouched := (compile_cases hready.tidy text file).1 ds hr
      rw [extend_error hr]
      exact ⟨huntouched.orderly ho, bs, huntouched.ready hready⟩
    | ok r =>
      obtain ⟨src, p, q, K, h', -, hb⟩ := compile_builds hready.tidy hr
      refine ⟨(extend_filled hready ho hr hshort budget).1,
        ⟨r, src, (e.compile text file).2.program⟩ :: bs, ?_⟩
      rw [extend_ok hr]
      exact run_ready (hb.ready hready hshort) List.mem_cons_self budget

/-- The constant that a call of something by its name has in the code of a batch. -/
def staticTarget (e : Engine) (text file : String) (c : Callable) : Value :=
  ((e.analyze text (if file.isEmpty then inputName else file)).2.makeObjects.run e.heap).1.object c

theorem Filled.global {e : Engine} (h : e.Filled) {b : BindingId} (hg : e.program.IsGlobal b)
    (hplain : ¬ (e.program.binding b).Plain) :
    ∃ v, e.machine.global? (e.program.binding b).index = some v ∧ e.program.Initially b v := by
  obtain ⟨v, hv, -, hmay⟩ := h.held b hg hplain
  have hinitially := hmay b hg rfl hplain
  refine ⟨v, ?_, hinitially⟩
  have hv : e.machine.globals[(e.program.binding b).index]? = some v := hv
  have hne : v ≠ .absent := by
    rw [Initially] at hinitially
    split at hinitially
    · obtain ⟨c, hc, rfl⟩ := Option.map_eq_some_iff.mp hinitially
      exact h.equipped b hg.1 c hc
    · obtain ⟨i, rfl⟩ := hinitially
      exact fun hnone => by cases hnone
  rw [Machine.global?, hv]
  cases v <;> first | rfl | exact absurd rfl hne

end Engine

end Scripting

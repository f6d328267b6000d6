import Scripting.Proofs.Cells.Sessions
import Scripting.Proofs.Loops.Exact
import Scripting.Proofs.Loops.Variables
import Scripting.Proofs.Machine.Callees
import Scripting.Proofs.Slots.Loaded

/-!
# Loops in a session

Code has the functions of the program as constants, and no script. So in every state of a session all values
call functions of the program only, and no run of a script enters another script or the same one again:
`Engine.Session.barred`.

All code of a session is that of a batch, and each loop over a range or an array of the batch stands in it.
The hidden variables of a loop in a function are slots of its frame, those of a loop in a script are globals
that no function can name, and no script is called. So every loop is exact in every run of a script:
`Engine.loops_exact`.
-/

namespace Scripting

open Program

theorem Heap.Bare.only {h : Heap} {v : Value} (hv : h.Bare v) (S : Ref → Prop) : v.Only S := by
  rcases hv with hplain | ⟨r, i, rfl, -, -⟩
  · cases v <;> trivial
  · trivial

theorem Chunk.Confined.only {p : Program} {h : Heap} {c : Chunk} (hc : c.Confined p h) :
    c.Only p.HasFunc := by
  intro v hv
  rcases hc.constants v hv with hbare | ⟨r, rfl, hr⟩
  · exact hbare.only _
  · exact hr

theorem Heap.Only.lasting (S : Ref → Prop) : Lasting fun _ h => ({ h with funcs := #[] } : Heap).Only S where
  subset hv _ := hv
  newFunc _ hv := hv
  newCtor _ hv := ⟨hv.arrays, hv.insts, hv.cells, hv.hosts, hv.funcs⟩
  newInst _ _ hv := hv.newInst fun v hmem => absurd hmem (Array.not_mem_empty v)

/-- Whether a slot is that of a global that source text can name, or of one that it cannot. -/
def Program.HasGlobal (p : Program) (hidden : Bool) (n : Nat) : Prop :=
  ∃ b, p.IsGlobal b ∧ (p.binding b).hidden = hidden ∧ (p.binding b).index = n

/-- Whether the bindings of a program are still there. -/
structure Program.Remains (p q : Program) : Prop where
  steady : p.Steady q
  marks : ∀ b < p.bindings.size, (q.binding b).mark = (p.binding b).mark

namespace Program

variable {p q : Program} {hidden : Bool} {m n : Nat}

theorem Remains.of_eq (h : q.bindings = p.bindings) : p.Remains q :=
  ⟨.of_eq h, fun b _ => by rw [binding, h, binding]⟩

theorem HasGlobal.remains (h : p.HasGlobal hidden n) (hpq : p.Remains q) : q.HasGlobal hidden n := by
  obtain ⟨b, ⟨hlt, hstorage⟩, hhidden, hindex⟩ := h
  have hmark := hpq.marks b hlt
  refine ⟨b, ⟨Nat.lt_of_lt_of_le hlt hpq.steady.size, ?_⟩, ?_, ?_⟩
  · exact (congrArg Mark.storage hmark).trans hstorage
  · exact (congrArg Prod.fst (hpq.steady.veil b hlt)).trans hhidden
  · exact (congrArg Mark.index hmark).trans hindex

theorem Listed.hidden_ne (h : p.Listed p.slots.toList.zipIdx) (hm : p.HasGlobal true m)
    (hn : p.HasGlobal false n) : n ≠ m := by
  rintro rfl
  obtain ⟨b, hb, hhidden, hindex⟩ := hm
  obtain ⟨c, hc, hshown, hindex'⟩ := hn
  obtain rfl := h.apart hb hc (hindex.trans hindex'.symm)
  rw [hhidden] at hshown
  cases hshown

end Program

namespace Engine

variable {e : Engine} {bs : List Compiled}

theorem Session.lives (h : e.Session bs) : e.Closed ∧ ∃ cs, Life e cs := by
  induction h with
  | new hnew => exact ⟨new_closed hnew, _, .new hnew⟩
  | @compile e bs text file src r hsession hsrc hr hshort ih =>
    obtain ⟨hclosed, cs, hlife⟩ := ih
    exact ⟨(compile_closed hclosed hlife hr).1, _, .compile hlife text file⟩
  | @refuse e bs text file ds hsession hds ih =>
    obtain ⟨hclosed, cs, hlife⟩ := ih
    have huntouched := (compile_cases hsession.ready.tidy text file).1 _ hds
    exact ⟨(huntouched.closed hclosed).1, _, .compile hlife text file⟩
  | @check e bs hsession text file ih =>
    obtain ⟨hclosed, cs, hlife⟩ := ih
    exact ⟨((check_untouched hsession.ready.tidy text file).closed hclosed).1, _, .check hlife text file⟩
  | @run e bs b hsession hb budget ih =>
    obtain ⟨hclosed, cs, hlife⟩ := ih
    obtain ⟨x, chunk, n, o, m, hx, hchunk, -, hends, -⟩ := hsession.ready.run_ends hb budget
    refine ⟨(run_closed hclosed b.script budget fun f c hbody => ?_).1, _, .run hlife b.script budget⟩
    obtain rfl := Option.some.inj (hx.symm.trans hbody.1)
    obtain rfl := Option.some.inj (hchunk.symm.trans hbody.2)
    exact ⟨n, o, m, hends⟩
  | takeOutput _ ih => exact ⟨⟨ih.1.anchored, ih.1.bare, ih.1.funcs⟩, ih.2.imp fun _ => .takeOutput⟩

/-- Whether no value calls a script. -/
structure Barred (e : Engine) (bs : List Compiled) : Prop where
  values : e.machine.Only e.program.HasFunc
  scripts : ∀ b ∈ bs, ¬ e.program.HasFunc b.script

namespace Builds

variable {e' : Engine} {src : Source .typed} {r : Ref} {p q : Program} {K : Lowering} {h' : Heap}

theorem only (hb : e.Builds e' src r p q K h') (he : e.heap.Only e.program.HasFunc) (hp : p.Anchored)
    (hbare : ∀ v ∈ K.program.objects, h'.Bare v)
    (hbound : ∀ b, (K.program.binding b).storage = .global →
      (K.program.binding b).index < e'.program.slots.size) : h'.Only e'.program.HasFunc := by
  obtain ⟨n, hqueued⟩ := hp.queued
  have hgrows := hb.keeps.funcs
  have hrest := makeObjects_lasts (p := p) (h := e.heap) (Heap.Only.lasting e'.program.HasFunc)
    { he.mono hgrows with funcs := fun f hf => absurd hf (Array.not_mem_empty f) }
  obtain ⟨g, hg, -⟩ := hb.compiled.objects
  refine ⟨?_, ?_, ?_, ?_, fun f hf c hc => ?_⟩
  · exact hg ▸ hrest.arrays
  · exact hg ▸ hrest.insts
  · exact hg ▸ hrest.cells
  · exact hg ▸ hrest.hosts
  · obtain ⟨i, hi⟩ := Array.mem_iff_getElem?.mp hf
    by_cases hr : i = r
    · obtain ⟨x, c', hbody, hconfined⟩ := hb.script_confined hbare hbound hqueued.globals
      rw [hb.heap_eq] at hbody
      obtain rfl := Option.some.inj (hi.symm.trans (hr ▸ hbody.1))
      obtain rfl := Option.some.inj (hc.symm.trans hbody.2)
      exact hconfined.only
    · rcases hb.coded hi hc hr with ⟨d, f', hd, -, hobject⟩ | hold
      · exact (hb.object_confined hbare hbound hd hobject c hc).only
      · exact fun v hv => (he.funcs f (Array.mem_of_getElem? hold) c hc v hv).mono hgrows

theorem not_hasFunc (hb : e.Builds e' src r p q K h') (he : e.Closed) {s : Ref}
    (hs : s = r ∨ ¬ e.program.HasFunc s ∧ ∃ x chunk, e.heap.funcs[s]? = some x ∧ x.chunk = some chunk) :
    ¬ e'.program.HasFunc s := by
  intro hnew
  have hold := hb.objects.hasFunc ((hb.hasFunc s).mp hnew)
  rw [hb.follows.hasFunc] at hold
  rcases hs with rfl | ⟨hnot, x, chunk, hx, hchunk⟩
  · -- The script is the last object of the heap.
    have hlt : s < (p.makeObjects.run e.heap).2.funcs.size := by
      rcases hold with hold | ⟨f, hf, -⟩
      · obtain ⟨f, hf, -⟩ := he.funcs s hold
        exact (Array.getElem?_eq_some_iff.mp (hb.objects.heap.some hf)).1
      · exact (Array.getElem?_eq_some_iff.mp hf).1
    rw [← hb.compiled.fresh] at hlt
    exact Nat.lt_irrefl _ hlt
  · rcases hold with hold | ⟨f, hf, hnone⟩
    · exact hnot hold
    · obtain rfl := Option.some.inj ((hb.objects.heap.some hx).symm.trans hf)
      cases hchunk.symm.trans hnone

end Builds

theorem Barred.untouched {e' : Engine} (h : e.Untouched e') (hb : e.Barred bs) : e'.Barred bs := by
  have hfuncs : e'.program.HasFunc = e.program.HasFunc := by
    funext r
    rw [HasFunc, HasFunc, h.program.funs]
  exact ⟨by rw [h.machine, hfuncs]; exact hb.values, hfuncs ▸ hb.scripts⟩

theorem Session.barred (h : e.Session bs) : e.Barred bs := by
  induction h with
  | @new s e hnew =>
    obtain ⟨r, p, -, rfl⟩ := exists_preloaded hnew
    refine ⟨⟨⟨nofun, ?_, nofun, nofun, nofun⟩, nofun, nofun, nofun⟩, nofun⟩
    intro i hi v hv
    obtain rfl := List.mem_singleton.mp (Array.mem_toList_iff.mpr hi)
    exact absurd hv (Array.not_mem_empty v)
  | @compile e bs text file src r hsession hsrc hr hshort ih =>
    obtain ⟨hclosed, cs, hlife⟩ := hsession.lives
    obtain ⟨src', p, q, K, h', -, hb, hp, hbare, hbound⟩ := compile_bounds hclosed hlife hr
    have hheap := hb.only ih.values.heap hp hbare hbound
    have hvalues := ih.values.mono hb.keeps.funcs
    refine ⟨?_, fun b hmem => ?_⟩
    · have hmachine : (e.compile text file).2.machine
        = { e.machine with world := { e.machine.world with heap := h' } } := by
        rw [hb.result]
        rfl
      rw [hmachine]
      exact ⟨hheap, hvalues.globals, hvalues.stack, hvalues.frames⟩
    · refine hb.not_hasFunc hclosed ?_
      rcases List.mem_cons.mp hmem with rfl | hmem
      · exact .inl rfl
      · obtain ⟨x, chunk, hx, hchunk, -⟩ := hsession.ready.scripts b hmem
        exact .inr ⟨ih.scripts b hmem, x, chunk, hx, hchunk⟩
  | @refuse e bs text file ds hsession hds ih =>
    exact ih.untouched ((compile_cases hsession.ready.tidy text file).1 _ hds)
  | @check e bs hsession text file ih =>
    exact ih.untouched (check_untouched hsession.ready.tidy text file)
  | @run e bs b hsession hb budget ih =>
    obtain ⟨x, chunk, n, o, m, hx, hchunk, -, hends, -, hrun⟩ := hsession.ready.run_ends hb budget
    rw [hrun]
    exact ⟨hends.only (ih.values.enter (Array.mem_of_getElem? hx) hchunk budget), ih.scripts⟩
  | takeOutput _ ih => exact ⟨⟨ih.values.heap, ih.values.globals, ih.values.stack, ih.values.frames⟩,
      ih.scripts⟩

/-- Whether code was generated for an object of a batch, its script or one of its functions, and which loops
over ranges and arrays are in what it was generated from. -/
inductive Compiled.Lowered (b : Compiled) (K : Lowering) : Ref → Assembly → List (Stmt .typed) → Prop
  | script {known : List (Nat × Value)} {stores body : Assembly}
      (initials : Lowers.initials K b.tree.token.line known stores)
      (lowers : Lowers.topStmts K 0 b.tree.stmts body) :
      Lowered b K b.script (stores ++ body) (Loops.stmts b.tree.stmts)
  | func {d : FunDecl .typed} {f : UserFunction} {r : Ref} {code : Assembly}
      (listed : d ∈ Decls.stmts b.tree.stmts)
      (object : (b.program.funs[d.info.id]?).bind (·.ref) = some r) (lowers : Lowers.func K f d code) :
      Lowered b K r code (Loops.block d.body)

/-- What is known of code and of the loops in it. -/
structure Stands (p : Program) (isScript : Bool) (K : Lowering) (code : Assembly) (ss : List (Stmt .typed)) :
    Prop where
  sound : ∃ L : Listing, L.Sound ∧ L.code = code ∧ L.limits.pool = K.pool
  walks : ∀ s ∈ ss, ∃ w, K.Walks code s w
  loops : ∀ s ∈ ss, ∀ w, K.Walks code s w → w.Stands K.pool (code.map (·.asm)) ∧
    ∀ x, x = w.index ∨ x = w.limit → x.storage = .global → p.HasGlobal true x.index
  /-- The code of functions stores into globals that can be named. -/
  stores : isScript = false → ∀ ns, .op .setGlobal ns ∈ code.map (·.asm) → p.HasGlobal false (ns.headD 0)

section

variable {p q : Program} {isScript : Bool} {K : Lowering} {code : Assembly} {ss : List (Stmt .typed)}
  {u : Touches}

theorem Stands.remains (h : Stands p isScript K code ss) (hpq : p.Remains q) : Stands q isScript K code ss :=
  ⟨h.sound, h.walks, fun s hs w hw => (h.loops s hs w hw).imp_right fun hhidden x hx hstorage =>
    (hhidden x hx hstorage).remains hpq, fun hscript ns hns => (h.stores hscript ns hns).remains hpq⟩

theorem stands_of_pieces (hpieces : Pieces K false code ss) (hu : u.Distinct K.program)
    (hparts : ∀ s ∈ ss, s.Part u.items u.stores)
    (hsound : ∃ L : Listing, L.Sound ∧ L.code = code ∧ L.limits.pool = K.pool)
    (hstores : isScript = false → ∀ ns, .op .setGlobal ns ∈ code.map (·.asm) →
      K.program.HasGlobal false (ns.headD 0)) :
    Stands K.program isScript K code ss := by
  refine ⟨hsound, fun s hs => ?_, fun s hs w hw => ⟨hw.stands (hu.apart (hparts s hs)), ?_⟩, hstores⟩
  · obtain ⟨r, o, hr, hwhole, ho⟩ := hpieces.holds s hs
    exact ⟨_, r, o, hr, hwhole, ho, rfl⟩
  · obtain ⟨r, o, hr, -, -, rfl⟩ := hw
    cases s with
    | each tok y l e b =>
      obtain ⟨rfl, -⟩ := hr
      obtain ⟨hindex, hlimit⟩ : K.program.Veiled r.slots.index ∧ K.program.Veiled r.slots.limit :=
        hu.fair (.counts r.slots) ((hparts _ hs).stores.subset (by simp [Stores.stmt]))
      rintro x (rfl | rfl) hstorage
      · exact ⟨_, ⟨hindex.1, hstorage⟩, hindex.hidden, rfl⟩
      · exact ⟨_, ⟨hlimit.1, hstorage⟩, hlimit.hidden, rfl⟩
    | _ => exact hr.elim

end

namespace Builds

variable {e' : Engine} {src : Source .typed} {r : Ref} {p q : Program} {K : Lowering} {h' : Heap}

theorem remains (hb : e.Builds e' src r p q K h') : K.program.Remains e'.program :=
  .of_eq (hb.bindings.trans hb.objects.bindings.symm)

section

variable (hb : e.Builds e' src r p q K h')
  (hfair : Fair K.program (Stores.stmts src.stmts) (Decls.stmts src.stmts))
include hb hfair

theorem script_stands (hlisted : e'.program.Listed e'.program.slots.toList.zipIdx)
    (hnodup : (Stores.placed (fun _ => false) (Stores.stmts src.stmts)).Nodup) {x : Function} {chunk : Chunk}
    (hx : h'.funcs[r]? = some x) (hchunk : x.chunk = some chunk) (hshort : x.Short) :
    ∃ code file ss, Compiled.Lowered ⟨r, src, e'.program⟩ K r code ss ∧ chunk = code.chunk K.pool file ∧
      Stands e'.program true K code ss := by
  obtain ⟨known, a, b, -, ha, hbehind, hscript, -⟩ := hb.compiled.script
  obtain rfl := Option.some.inj (hx.symm.trans hscript)
  obtain rfl := Option.some.inj hchunk
  have hends := Lowers.script_ends (hb.compiled.suits hb.objects .top K.pool) ha hbehind hb.inScope
    hb.formed nofun
  refine ⟨a ++ b, src.file, _, .script ha hbehind, rfl, Stands.remains ?_ hb.remains⟩
  have hhoused : (Touches.stmts src.stmts).Housed (varsOf [⟨r, src, e'.program⟩]) K.program .top [] :=
    hb.script_housed
  have hglobal : ∀ c ∈ Stores.declared (Stores.stmts src.stmts), (K.program.binding c).storage = .global := by
    intro c hc
    cases hs : (K.program.binding c).storage with
    | global => rfl
    | frame => exact absurd (hhoused.stores c hc hs) List.not_mem_nil
  have hsingle : ∀ c d, K.program.IsGlobal c → K.program.IsGlobal d →
      (K.program.binding c).index = (K.program.binding d).index → c = d := by
    have hglobals : ∀ c, K.program.IsGlobal c → e'.program.IsGlobal c := fun c ⟨hlt, hstorage⟩ =>
      ⟨by rwa [hb.bindings, ← hb.objects.bindings], by rwa [← hb.lowered]⟩
    intro c d hc hd heq
    exact hlisted.apart (hglobals c hc) (hglobals d hd) (by rwa [← hb.lowered, ← hb.lowered])
  refine stands_of_pieces ((Lowers.initials_pieces ha).behind (Lowers.topStmts_pieces src.stmts hbehind))
    (Touches.stmts_distinct (Touches.stmts_found hb.inScope) hglobal hsingle hnodup hfair.stores)
    (Loops.stmts_part src.stmts) ?_ nofun
  obtain ⟨L, hL, hcode, hlimits⟩ := hends.listed (hshort _ rfl)
  exact ⟨L, hL, hcode, by rw [hlimits]; rfl⟩

theorem func_stands (hseparate : ∀ d ∈ Decls.stmts src.stmts, d.Separate K.program)
    (hnodup : ∀ d ∈ Decls.stmts src.stmts, (Stores.declared (Stores.block d.body)).Nodup) {d : FunDecl .typed}
    {f : UserFunction} {i : Ref} {x : Function} (hd : K.compiled d) (howns : K.Owns d f i)
    (hobject : K.Object f d x) (hshort : x.Short) {chunk : Chunk} (hchunk : x.chunk = some chunk) :
    ∃ K' code file ss, Compiled.Lowered ⟨r, src, e'.program⟩ K' i code ss ∧ chunk = code.chunk K'.pool file ∧
      K'.program = K.program ∧ Stands e'.program false K' code ss := by
  have hinner := Inner.stmts_all _ hb.inScope hb.formed
  have hlisted := hb.compiled.listed d hd
  obtain ⟨hfun, hi⟩ := howns
  have hat : (K.program.funs[d.info.id]?).bind (·.ref) = some i := by rw [hfun, Option.bind_some, hi]
  obtain ⟨code, pool, file, hcode, hfunc, hends⟩ := hb.compiled.object_ends hb.objects hinner hd hobject
  obtain rfl := Option.some.inj (hchunk.symm.trans hcode)
  have hframed := Scoped.func.framed (hinner d hlisted).1
  obtain ⟨hthreads, hplaces⟩ := (Threads.top_found hb.inScope).decls d hlisted
  have hsep := hseparate d hlisted
  have hdoes := Lowers.func_does hfunc hframed
  refine ⟨⟨K.program, pool, K.template, K.compiled⟩, code, file, _, .func hlisted
    (by rwa [hb.refAt]) hfunc, rfl, rfl,
    Stands.remains (p := K.program) ?_ hb.remains⟩
  refine stands_of_pieces (Lowers.func_pieces hfunc) (hsep.distinct (hsep.locates hthreads hplaces)
    (hnodup d hlisted)
    fun s hs => hfair.inner d hlisted s (List.mem_append_right _ hs))
      (Loops.block_part d.body) ?_ fun _ ns hns => ?_
  · obtain ⟨L, hL, hcode, hlimits⟩ := hends.listed (hshort _ hchunk)
    exact ⟨L, hL, hcode, by rw [hlimits]; rfl⟩
  · obtain ⟨l, hl, hasm⟩ := List.mem_map.mp hns
    obtain ⟨n, rfl⟩ := (hdoes l hl).operand hasm rfl
    obtain ⟨b, hstorage, rfl, hstores⟩ := (hdoes l hl).global (Touches.func_found hb.inScope hlisted) hasm rfl
    rcases hstores rfl with hdeclared | ⟨s, hassigned, hplace, rfl⟩
    · -- What a function declares is in its frame.
      have hown : b ∈ d.own := by
        rw [FunDecl.own_eq]
        rcases List.mem_append.mp hdeclared with hparam | hblock
        · obtain ⟨c, hc, heq⟩ := List.mem_map.mp hparam
          obtain rfl := Store.declares.inj heq
          exact List.mem_append_left _ hc
        · exact List.mem_append_right _ (Lowering.declared_of_mem (.inl hblock))
      cases hstorage.symm.trans (hsep.frame b hown)
    · obtain ⟨hshown, -⟩ := hfair.inner d hlisted _ hassigned
      exact ⟨_, ⟨hshown.1, hstorage⟩, hshown.2, rfl⟩

end

end Builds

def Lays (e : Engine) (bs : List Compiled) : Prop :=
  ∀ (r : Ref) x chunk, e.heap.funcs[r]? = some x → x.chunk = some chunk → ∃ b ∈ bs, ∃ K code file ss,
    b.Lowered K r code ss ∧ (∀ c, K.program.binding c = b.program.binding c) ∧ chunk = code.chunk K.pool file ∧
      Stands e.program (r = b.script) K code ss

theorem Lays.remains {e' : Engine} (h : e.Lays bs) (hfuncs : e'.heap.funcs = e.heap.funcs)
    (hprogram : e.program.Remains e'.program) : e'.Lays bs := by
  intro r x chunk hx hchunk
  obtain ⟨b, hmem, K, code, file, ss, hlowered, hbinding, hcode, hstands⟩ := h r x chunk (hfuncs ▸ hx) hchunk
  exact ⟨b, hmem, K, code, file, ss, hlowered, hbinding, hcode, hstands.remains hprogram⟩

theorem Lays.compile (h : e.Lays bs) {cs : List Binding} (htidy : e.program.Tidy) (hclosed : e.Closed)
    (hlife : Life e cs) {text file : String} {src : Source .typed} {r : Ref}
    (hsrc : (e.analyze text (if file.isEmpty then inputName else file)).1 = .ok src)
    (hr : (e.compile text file).1 = .ok r) (hshort : (e.compile text file).2.heap.Short) :
    (e.compile text file).2.Lays (⟨r, src, (e.compile text file).2.program⟩ :: bs) := by
  obtain ⟨n, hq⟩ := hclosed.anchored.queued
  obtain ⟨src', p, q, K, h', hanalyze, hb⟩ := compile_builds htidy hr
  obtain ⟨hretains, hfair⟩ := analyze_fair htidy hq hclosed.anchored.named hclosed.anchored.founded
    hclosed.anchored.held text (if file.isEmpty then inputName else file)
  have hnumbers := analyze_numbers htidy text (if file.isEmpty then inputName else file)
  have hseparate := analyze_separate htidy _ _ src hsrc
  obtain ⟨hinner, houter⟩ := analyze_nodup htidy _ _ src hsrc
  have hlisted := (Life.compile hlife text file).recorded.listed
  rw [hanalyze] at hretains hfair hnumbers hseparate hsrc
  obtain rfl := Except.ok.inj hsrc
  replace hfair := (hfair src' rfl).steady (.of_eq hb.objects.bindings)
  replace hseparate : ∀ d ∈ Decls.stmts src'.stmts, d.Separate K.program := fun d hd =>
    (hseparate d hd).congr fun b => by rw [hb.lowered, hb.binding]
  have hremains : e.program.Remains (e.compile text file).2.program :=
    ⟨Steady.trans (q := e.program.begin) (.of_eq rfl) (hretains.steady.trans (.of_eq hb.bindings)),
      fun b hlt => by rw [hb.binding, hnumbers.mark hlt]⟩
  generalize (e.compile text file).2 = e' at *
  have hheap : e'.heap = h' := hb.heap_eq
  intro i x chunk hx hchunk
  rw [hheap] at hx
  have hshort' := hshort x (Array.mem_of_getElem? (hheap ▸ hx))
  by_cases hi : i = r
  · subst hi
    obtain ⟨code, file, ss, hlowered, hcode, hstands⟩ :=
      hb.script_stands hfair hlisted houter hx hchunk hshort'
    exact ⟨_, List.mem_cons_self, K, code, file, ss, hlowered, hb.lowered, hcode, by simpa using hstands⟩
  · rcases hb.coded hx hchunk hi with ⟨d, f, hd, howns, hobject⟩ | hold
    · obtain ⟨K', code, file, ss, hlowered, hcode, hprogram, hstands⟩ :=
        hb.func_stands hfair hseparate hinner hd howns hobject hshort' hchunk
      refine ⟨_, List.mem_cons_self, K', code, file, ss, hlowered, ?_, hcode, by simpa [hi] using hstands⟩
      rw [hprogram]
      exact hb.lowered
    · have hkept : Lays { e with program := e'.program } bs := h.remains rfl hremains
      obtain ⟨b, hmem, hrest⟩ := hkept i x chunk hold hchunk
      exact ⟨b, List.mem_cons_of_mem _ hmem, hrest⟩

theorem Session.lays (h : e.Session bs) : e.Lays bs := by
  induction h with
  | new hnew =>
    exact fun r x _ hx => absurd (hx.symm.trans (new_func? hnew r)) (Option.some_ne_none x)
  | @compile e bs text file src r hsession hsrc hr hshort ih =>
    obtain ⟨hclosed, cs, hlife⟩ := hsession.lives
    exact ih.compile hsession.ready.tidy hclosed hlife hsrc hr hshort
  | @refuse e bs text file ds hsession hds ih =>
    have huntouched := (compile_cases hsession.ready.tidy text file).1 _ hds
    exact ih.remains (by rw [heap, huntouched.machine, heap]) (.of_eq huntouched.program.bindings)
  | @check e bs hsession text file ih =>
    have huntouched := check_untouched hsession.ready.tidy text file
    exact ih.remains (by rw [heap, huntouched.machine, heap]) (.of_eq huntouched.program.bindings)
  | @run e bs b hsession hb budget ih =>
    obtain ⟨x, chunk, n, o, m, -, -, hstands, hends, -, hrun⟩ := hsession.ready.run_ends hb budget
    rw [hrun]
    exact ih.remains (hends.later hstands).funcs (.of_eq rfl)
  | takeOutput _ ih => exact ih.remains rfl (.of_eq rfl)

theorem Stands.spares {p : Program} {K : Lowering} {code : Assembly} {ss : List (Stmt .typed)}
    (h : Stands p false K code ss) (hlisted : p.Listed p.slots.toList.zipIdx) {x : Binding}
    (hx : x.storage = .global → p.HasGlobal true x.index) (file : String) :
    (code.chunk K.pool file).Spares x := by
  intro hstorage L hL hcode a ha
  obtain ⟨L', hL', hsame, hpool⟩ := h.sound
  rw [← hsame, ← hpool] at hcode
  rw [← (hL'.asms_eq hL hcode).1, Listing.asms, hsame] at ha
  cases a with
  | op c ns =>
    unfold Asm.Spares
    rw [hstorage]
    rintro rfl
    exact hlisted.hidden_ne (hx hstorage) (h.stores rfl ns ha)
  | _ => trivial

theorem Lays.quiet (h : e.Lays bs) (hb : e.Barred bs) (hlisted : e.program.Listed e.program.slots.toList.zipIdx)
    {w : Walk} (hw : ∀ x, x = w.index ∨ x = w.limit → x.storage = .global → e.program.HasGlobal true x.index)
    {m : Machine} (hm : m.Only e.program.HasFunc) (hfuncs : m.world.heap.funcs = e.heap.funcs) : w.Quiet m := by
  intro v hv r free x chunk hcloses hx hchunk
  have hr : e.program.HasFunc r := hcloses.only (hm.stack v hv)
  have hold : e.heap.funcs[r]? = some x := hfuncs ▸ hx
  obtain ⟨b, hmem, K, code, file, ss, -, -, rfl, hstands⟩ := h r x chunk hold hchunk
  have hne : decide (r = b.script) = false := decide_eq_false fun heq => hb.scripts b hmem (heq ▸ hr)
  rw [hne] at hstands
  exact ⟨hstands.spares hlisted (hw _ (.inl rfl)) file, hstands.spares hlisted (hw _ (.inr rfl)) file⟩

theorem Session.reaches (h : e.Session bs) {b : Compiled} (hb : b ∈ bs) (budget : Nat) {script : Function}
    {chunk : Chunk} (hscript : e.heap.func? b.script = some script) (hchunk : script.chunk = some chunk) :
    {n : Nat} → {m : Machine} → (e.machine.enter script chunk budget).after n = .inl m →
      (∃ ws, m.Stands ws) ∧ m.Only e.program.HasFunc ∧ m.world.heap.funcs = e.heap.funcs
  | 0, m, hm => by
    obtain rfl := Sum.inl.inj hm
    obtain ⟨x, c, -, -, -, hx, hc, hstands, -⟩ := h.ready.run_ends hb budget
    obtain rfl := Option.some.inj (hscript.symm.trans hx)
    obtain rfl := Option.some.inj (hchunk.symm.trans hc)
    have honly := h.barred.values
    exact ⟨⟨_, hstands⟩, honly.enter (Array.mem_of_getElem? hx) hchunk budget, rfl⟩
  | n + 1, m', hm' => by
    obtain ⟨m, hm, hnext⟩ := Walk.exists_of_after_succ hm'
    obtain ⟨⟨ws, hstands⟩, honly, hfuncs⟩ := h.reaches hb budget hscript hchunk hm
    have hstays := m.next_stays
    rw [hnext] at hstays
    exact ⟨⟨_, hstands.next hnext⟩, honly.next hnext, hstays.funcs.trans hfuncs⟩

/-- All code of a session is that of a script or of a function of some batch, and each loop over a range or
an array in it has its places in the code. Whatever script is run, and wherever the code is called, such a
loop has the rounds that it should have: one for each integer of a range, in increasing order, and one for each
index of an array that is below its length when the round begins, as long as the bodies go to their ends, and
whatever they store. -/
theorem loops_exact (h : e.Session bs) : ∀ (r : Ref) x chunk, e.heap.func? r = some x → x.chunk = some chunk →
    ∃ b ∈ bs, ∃ K code file ss, b.Lowered K r code ss ∧ (∀ c, K.program.binding c = b.program.binding c) ∧
      chunk = code.chunk K.pool file ∧ ∀ s ∈ ss, (∃ w, K.Walks code s w) ∧ ∀ w, K.Walks code s w →
        ∀ b' ∈ bs, ∀ script c, e.heap.func? b'.script = some script → script.chunk = some c →
          ∀ budget depth, w.Exact ⟨code, K.pool, depth⟩ (e.machine.enter script c budget) := by
  intro r x chunk hx hchunk
  obtain ⟨-, cs, hlife⟩ := h.lives
  have hlisted := hlife.recorded.listed
  have hlays := h.lays
  obtain ⟨b, hmem, K, code, file, ss, hlowered, hbinding, hcode, hstands⟩ := hlays r x chunk hx hchunk
  refine ⟨b, hmem, K, code, file, ss, hlowered, hbinding, hcode, fun s hs => ⟨hstands.walks s hs, ?_⟩⟩
  intro w hw b' hb' script c hscript hc budget depth
  obtain ⟨hplaces, hhidden⟩ := hstands.loops s hs w hw
  have hreaches := fun {n m} => h.reaches hb' budget hscript hc (n := n) (m := m)
  refine Walk.Stands.exact hplaces hstands.sound (fun n m hm => (hreaches hm).1) (fun n m hm => ?_) ?_
  · obtain ⟨-, honly, hfuncs⟩ := hreaches hm
    exact hlays.quiet h.barred hlisted hhidden honly hfuncs
  · exact List.forall_mem_singleton.mpr rfl

def counting : String := "for i in 0..3 { }"

theorem counting_analyze : ∃ src, (plain.analyze counting "a.jz").1 = .ok src ∧ Loops.stmts src.stmts ≠ [] ∧
    Decls.stmts src.stmts = [] := by
  have h : ((plain.analyze counting "a.jz").1.toOption.any fun src =>
      !(Loops.stmts src.stmts).isEmpty && (Decls.stmts src.stmts).isEmpty) = true := by decide +kernel
  generalize (plain.analyze counting "a.jz").1 = x at h ⊢
  cases x with
  | error ds => cases h
  | ok src =>
    rw [Except.toOption, Option.any_some, Bool.and_eq_true, Bool.not_eq_true'] at h
    exact ⟨src, rfl, List.isEmpty_eq_false_iff.mp h.1, List.isEmpty_iff.mp h.2⟩

theorem counting_compile : ∃ r, (plain.compile counting "a.jz").1 = .ok r := by
  have h : (plain.compile counting "a.jz").1.isOk = true := by decide +kernel
  generalize (plain.compile counting "a.jz").1 = x at h ⊢
  cases x with
  | ok r => exact ⟨r, rfl⟩
  | error ds => cases h

theorem counting_short : (plain.compile counting "a.jz").2.heap.Short := by
  have h : ((plain.compile counting "a.jz").2.heap.funcs.all fun x =>
      x.chunk.all fun chunk => chunk.code.size < 256 ^ 4) = true := by decide +kernel
  intro x hx chunk hchunk
  have hall := Array.all_eq_true_iff_forall_mem.mp h x hx
  rw [hchunk, Option.all_some] at hall
  exact of_decide_eq_true hall

theorem counting_session : ∃ b, (plain.compile counting "a.jz").2.Session [b] ∧ Loops.stmts b.tree.stmts ≠ [] ∧
    Decls.stmts b.tree.stmts = [] := by
  obtain ⟨r, hr⟩ := counting_compile
  obtain ⟨src, hsrc, hloops⟩ := counting_analyze
  exact ⟨_, .compile (.new (s := ⟨[], []⟩) rfl) hsrc hr counting_short, hloops⟩

theorem counting_exact : ∃ b script chunk, ∃ K : Lowering, ∃ code s, ∃ w : Walk,
    (plain.compile counting "a.jz").2.Session [b] ∧
      (plain.compile counting "a.jz").2.heap.func? b.script = some script ∧ script.chunk = some chunk ∧
        s ∈ Loops.stmts b.tree.stmts ∧ K.Walks code s w ∧ ∀ budget,
          w.Exact ⟨code, K.pool, 0⟩ ((plain.compile counting "a.jz").2.machine.enter script chunk budget) := by
  obtain ⟨b, hsession, hloops, hdecls⟩ := counting_session
  obtain ⟨s, hs⟩ := List.exists_mem_of_ne_nil _ hloops
  obtain ⟨script, chunk, -, -, -, hscript, hchunk, -⟩ := hsession.ready.run_ends List.mem_cons_self 0
  obtain ⟨b', hb', K, code, file, ss, hlowered, -, -, hexact⟩ := loops_exact hsession _ _ _ hscript hchunk
  obtain rfl := List.mem_singleton.mp hb'
  have hmem : s ∈ ss := by
    generalize b'.script = r at hlowered
    cases hlowered with
    | script => exact hs
    | func hd => exact absurd (hdecls ▸ hd) List.not_mem_nil
  obtain ⟨⟨w, hw⟩, hexact⟩ := hexact s hmem
  exact ⟨b', script, chunk, K, code, s, w, hsession, hscript, hchunk, hs, hw, fun budget =>
    hexact w hw b' List.mem_cons_self script chunk hscript hchunk budget 0⟩

end Engine

end Scripting

import Scripting.Proofs.Cells.Found
import Scripting.Proofs.Slots.Confined

/-!
# Captured variables in a session

In every state of a session, all code finds captured variables in their places, also that of earlier
batches. So every run of a script heeds the cells of captured variables: `Engine.cells_heeded`.
-/

namespace Scripting

theorem FunDecl.Separate.congr {N C T W : Type} {p q : Program} {d : FunDecl (.slotted N C T W)}
    (hd : d.Separate p) (h : ∀ b, q.binding b = p.binding b) : d.Separate q := by
  refine ⟨fun b hb => ?_, fun b hb c hc hindex => hd.single b hb c hc ?_⟩
  · rw [h]
    exact hd.frame b hb
  · rwa [h, h] at hindex

section

variable {vars vars' : Ref → Option Vars}

theorem Vars.Finds.mono {V : Vars} {pool : Array Value} {a : Asm} (h : V.Finds vars pool a)
    (hvars : ∀ r W, vars r = some W → vars' r = some W) : V.Finds vars' pool a := by
  cases a with
  | closure k cs =>
    obtain ⟨r, W, hr, hW, hgives⟩ := h
    exact ⟨r, W, hr, hvars r W hW, hgives⟩
  | op c ns => cases c <;> exact h
  | _ => exact h

theorem Chunk.Finds.mono {V : Vars} {c : Chunk} (h : c.Finds vars V)
    (hvars : ∀ r W, vars r = some W → vars' r = some W) : c.Finds vars' V := by
  obtain ⟨L, hL, hc, hfinds⟩ := h
  exact ⟨L, hL, hc, fun a ha => (hfinds a ha).mono hvars⟩

theorem Ends.finds {C : Limits} {code : Assembly} {entry : Shape} {V : Vars}
    (h : Ends C Exits.none code entry) {file : String}
    (hshort : (code.chunk C.pool file).code.size < 256 ^ 4)
    (hfinds : ∀ a ∈ code.map (·.asm), V.Finds vars C.pool a) : (code.chunk C.pool file).Finds vars V := by
  obtain ⟨L, hL, rfl, rfl⟩ := h.listed hshort
  exact ⟨L, hL, by rw [Assembly.chunk_file], hfinds⟩

theorem Lowers.initials.finds {K : Lowering} {line : Int} {V : Vars} : {known : List (Nat × Value)} →
    {c : Assembly} → Lowers.initials K line known c → ∀ a ∈ c.map (·.asm), V.Finds vars K.pool a
  | [], _, h, _, ha => by
    rw [h] at ha
    cases ha
  | (i, v) :: known, _, ⟨_, b, c, ⟨k, _, _, hb⟩, hc, hcode⟩, a, ha => by
    subst hb hcode
    simp only [Lowering.word, List.map_append, List.mem_append, List.map_cons, List.map_nil,
      List.mem_singleton] at ha
    rcases ha with (rfl | rfl) | ha
    · trivial
    · trivial
    · exact hc.finds a ha

end

namespace Engine

/-- The captured variables of the functions of a batch, by the objects of the functions. No function
captures variables of the script. -/
def Compiled.vars (b : Compiled) (r : Ref) : Option Vars :=
  if r = b.script then some .empty
  else ((Decls.stmts b.tree.stmts).find? fun d =>
    (b.program.funs[d.info.id]?).bind (·.ref) == some r).map (·.vars b.program)

/-- The captured variables of all functions that were compiled. -/
def varsOf (bs : List Compiled) (r : Ref) : Option Vars := bs.findSome? (·.vars r)

/-- Whether a function of a batch has been lowered to some code. -/
def Compiled.Codes (b : Compiled) (d : FunDecl .typed) (c : Chunk) : Prop :=
  d ∈ Decls.stmts b.tree.stmts ∧ ∃ (K : Lowering) (f : UserFunction) (code : Assembly) (file : String),
    (∀ v, K.program.binding v = b.program.binding v) ∧ Lowers.func K f d code ∧
      c = code.chunk K.pool file

/-- Whether all code of a session finds captured variables in their places. -/
structure Finds (e : Engine) (bs : List Compiled) : Prop where
  code : e.heap.Finds (varsOf bs)
  functions : ∀ (r : Ref) x chunk, e.heap.funcs[r]? = some x → x.chunk = some chunk →
    (∃ b ∈ bs, b.script = r) ∨ ∃ b ∈ bs, ∃ d, b.Codes d chunk ∧ d.Locates b.program ∧
      varsOf bs r = some (d.vars b.program)
  scripts : ∀ b ∈ bs, varsOf bs b.script = some .empty
  listed : ∀ r V, varsOf bs r = some V → r < e.heap.funcs.size

namespace Builds

variable {e e' : Engine} {bs : List Compiled} {src : Source .typed} {r : Ref} {p q : Program}
  {K : Lowering} {h' : Heap}

theorem lowered (hb : e.Builds e' src r p q K h') (b : BindingId) :
    K.program.binding b = e'.program.binding b := by
  rw [hb.binding, Program.binding, hb.objects.bindings, Program.binding]

theorem refAt (hb : e.Builds e' src r p q K h') (i : FunId) :
    (e'.program.funs[i]?).bind (·.ref) = (K.program.funs[i]?).bind (·.ref) := by
  obtain rfl := hb.result
  exact hb.compiles.ref i

theorem ref_new (hb : e.Builds e' src r p q K h') {d : FunDecl .typed}
    (hd : d ∈ Decls.stmts src.stmts) {i : Ref} (hi : (K.program.funs[d.info.id]?).bind (·.ref) = some i) :
    e.heap.funcs.size ≤ i ∧ i < r ∧ ∀ d' ∈ Decls.stmts src.stmts,
      (K.program.funs[d'.info.id]?).bind (·.ref) = some i → d' = d := by
  have hnone : ∀ d ∈ Decls.stmts src.stmts, Program.refAt p.funs.toList d.info.id = none := by
    intro d hd
    have hrefs := hb.follows.longer.refs d.info.id
    have hold : e.program.begin.funs[d.info.id]? = none := Array.getElem?_eq_none (hb.new d hd)
    rw [hold] at hrefs
    rwa [Program.refAt, Array.getElem?_toList]
  have hgiven : ∀ (d : FunDecl .typed), (K.program.funs[d.info.id]?).bind (·.ref) = some i →
      Program.refAt K.program.funs.toList d.info.id = some i := by
    intro d hd
    rwa [Program.refAt, Array.getElem?_toList]
  refine ⟨hb.objects.apart.new _ i (hnone d hd) (hgiven d hi), ?_, fun d' hd' hi' => ?_⟩
  · obtain ⟨g, hg, hr⟩ := Option.bind_eq_some_iff.mp hi
    obtain ⟨f, hf, hobject⟩ := hb.objects.owner hg
    have hfr : f.ref = none := by
      have hat := hnone d hd
      rwa [Program.refAt, Array.getElem?_toList, hf] at hat
    obtain ⟨x, hx, -⟩ := hobject.made i hfr hr
    exact hb.compiled.fresh ▸ (Array.getElem?_eq_some_iff.mp hx).1
  · have hid := hb.objects.apart.single _ _ i (hnone d' hd') (hnone d hd) (hgiven d' hi') (hgiven d hi)
    exact List.inj_on_of_nodup_map hb.distinct hd' hd hid

theorem vars_script :
    varsOf (⟨r, src, e'.program⟩ :: bs) r = some .empty := by
  simp [varsOf, Compiled.vars]

theorem vars_func (hb : e.Builds e' src r p q K h') {d : FunDecl .typed}
    (hd : d ∈ Decls.stmts src.stmts) {i : Ref} (hi : (K.program.funs[d.info.id]?).bind (·.ref) = some i) :
    varsOf (⟨r, src, e'.program⟩ :: bs) i = some (d.vars K.program) := by
  obtain ⟨-, hlt, hsingle⟩ := hb.ref_new hd hi
  have hfind : ((Decls.stmts src.stmts).find? fun d =>
      (e'.program.funs[d.info.id]?).bind (·.ref) == some i) = some d := by
    cases hfound : (Decls.stmts src.stmts).find? fun d =>
        (e'.program.funs[d.info.id]?).bind (·.ref) == some i with
    | none =>
      have hnot := List.find?_eq_none.mp hfound d hd
      rw [hb.refAt, hi] at hnot
      simp at hnot
    | some d' =>
      have hd' := List.find?_some hfound
      rw [beq_iff_eq, hb.refAt] at hd'
      rw [hsingle d' (List.mem_of_find?_eq_some hfound) hd']
  have hvars : Compiled.vars ⟨r, src, e'.program⟩ i = some (d.vars K.program) := by
    rw [Compiled.vars, if_neg (Nat.ne_of_lt hlt), hfind, Option.map_some,
      FunDecl.vars_congr fun b => (hb.lowered b).symm]
  rw [varsOf, List.findSome?_cons, hvars]

theorem vars_old (hb : e.Builds e' src r p q K h') {i : Ref} (hi : i < e.heap.funcs.size) :
    varsOf (⟨r, src, e'.program⟩ :: bs) i = varsOf bs i := by
  have hnone : Compiled.vars ⟨r, src, e'.program⟩ i = none := by
    have hr : e.heap.funcs.size ≤ r := hb.compiled.fresh ▸ hb.objects.heap.count
    rw [Compiled.vars, if_neg (Nat.ne_of_lt (Nat.lt_of_lt_of_le hi hr)), Option.map_eq_none_iff,
      List.find?_eq_none]
    intro d hd hfound
    rw [beq_iff_eq, hb.refAt] at hfound
    exact absurd hi (Nat.not_lt.mpr (hb.ref_new hd hfound).1)
  rw [varsOf, List.findSome?_cons, hnone, varsOf]

section

variable (hb : e.Builds e' src r p q K h') (hseparate : ∀ d ∈ Decls.stmts src.stmts, d.Separate p)
include hb

theorem makes {is : List Item} {ds : List (FunDecl .typed)} (hmade : Items.Made is ds)
    (hds : ds ⊆ Decls.stmts src.stmts) : ∀ info, .makes info ∈ is → ∀ f,
      K.program.funs[info.id]? = some f → ∃ i W, f.ref = some i ∧
        varsOf (⟨r, src, e'.program⟩ :: bs) i = some W ∧ W.free = info.free.map (·.binding) ∧
          ∀ v ∈ info.free, (K.program.binding v.binding).captured = true := by
  intro info hinfo f hf
  obtain ⟨d, hd, rfl⟩ := hmade info hinfo
  obtain ⟨g, -, hobject⟩ := hb.objects.owner hf
  obtain ⟨i, hi⟩ := Option.isSome_iff_exists.mp hobject.given
  have hat : (K.program.funs[d.info.id]?).bind (·.ref) = some i := by rw [hf, Option.bind_some, hi]
  refine ⟨i, _, hi, hb.vars_func (hds hd) hat, rfl, ?_⟩
  exact ((Threads.top_found hb.inScope).decls d (hds hd)).1.marked

theorem script_housed : (Touches.stmts src.stmts).Housed (varsOf (⟨r, src, e'.program⟩ :: bs)) K.program
    .top [] := by
  have hfound := Threads.top_found hb.inScope
  refine ⟨hfound.items, fun b hmem hframe => ?_, hb.makes hfound.made (List.Subset.refl _)⟩
  -- A frame with no slots has none for a variable.
  rw [← Items.stmts_declared] at hmem
  obtain ⟨i, hi, hib⟩ := List.mem_filterMap.mp hmem
  cases i with
  | declares c =>
    obtain rfl := Option.some.inj hib
    exact absurd ((hfound.items _ hi).1 hframe) (Nat.not_lt_zero _)
  | uses | makes => cases hib

theorem func_housed {d : FunDecl .typed} (hd : d ∈ Decls.stmts src.stmts) :
    (Touches.func d).Housed (varsOf (⟨r, src, e'.program⟩ :: bs)) K.program d.region d.own := by
  obtain ⟨hthreads, hplaces⟩ := (Threads.top_found hb.inScope).decls d hd
  refine ⟨fun i hi => ⟨hthreads.items i hi, hplaces.items i hi⟩, fun b hmem _ => ?_,
    hb.makes hplaces.made ?_⟩
  · rw [FunDecl.own_eq]
    have hdeclared : Stores.declared (Touches.func d).stores
        = d.paramDecls ++ Stores.declared (Stores.block d.body) := by
      have hparams : Stores.declared (d.paramDecls.map .declares) = d.paramDecls := by
        simp [Stores.declared, List.filterMap_map]
      rw [Touches.func, Stores.declared_append, hparams]
    exact hdeclared ▸ hmem
  · exact fun x hx => Decls.stmts_closed src.stmts d hd x hx

theorem coded {i : Ref} {x : Function} {chunk : Chunk} (hx : h'.funcs[i]? = some x)
    (hchunk : x.chunk = some chunk) (hne : i ≠ r) :
    (∃ d f, K.compiled d ∧ K.Owns d f i ∧ K.Object f d x) ∨ e.heap.funcs[i]? = some x := by
  have hlt : i < r + 1 := by
    rw [hb.compiled.fresh, ← hb.compiled.count]
    exact (Array.getElem?_eq_some_iff.mp hx).1
  rcases hb.compiled.functions i (Nat.lt_of_le_of_ne (Nat.le_of_lt_succ hlt) hne) x hx with
    ⟨d, hd, f, howns, hobject⟩ | ⟨hsame, -⟩
  · exact .inl ⟨d, f, hd, howns, hobject⟩
  · rcases Nat.lt_or_ge i e.heap.funcs.size with hold | hnew
    · exact .inr ((hb.objects.heap.old i hold).symm.trans hsame)
    · rw [hb.objects.heap.new i x hnew hsame] at hchunk
      cases hchunk

theorem script_finds {x : Function} {chunk : Chunk} (hx : h'.funcs[r]? = some x)
    (hchunk : x.chunk = some chunk) (hshort : x.Short) :
    chunk.Finds (varsOf (⟨r, src, e'.program⟩ :: bs)) .empty := by
  obtain ⟨known, a, b, -, ha, hbehind, hscript, -⟩ := hb.compiled.script
  obtain rfl := Option.some.inj (hx.symm.trans hscript)
  obtain rfl := Option.some.inj hchunk
  have hends := Lowers.script_ends (hb.compiled.suits hb.objects .top K.pool) ha hbehind hb.inScope
    hb.formed nofun
  refine hends.finds (hshort _ rfl) fun y hy => ?_
  rw [List.map_append] at hy
  rcases List.mem_append.mp hy with hy | hy
  · exact ha.finds y hy
  · have hdoes := Lowers.topStmts_does src.stmts hbehind ⟨List.Subset.refl _, List.Subset.refl _⟩
    exact hdoes.finds (Vars.Fits.empty _) hb.script_housed y hy

include hseparate

theorem object_finds {d : FunDecl .typed} {f : UserFunction} {i : Ref} {x : Function}
    (hd : K.compiled d) (howns : K.Owns d f i) (hobject : K.Object f d x) (hshort : x.Short)
    {chunk : Chunk} (hchunk : x.chunk = some chunk) :
    Compiled.Codes ⟨r, src, e'.program⟩ d chunk ∧ d.Locates e'.program ∧
      varsOf (⟨r, src, e'.program⟩ :: bs) i = some (d.vars e'.program) ∧
        (d.vars e'.program).Apart ∧
          chunk.Finds (varsOf (⟨r, src, e'.program⟩ :: bs)) (d.vars e'.program) := by
  have hinner := Inner.stmts_all _ hb.inScope hb.formed
  have hlisted := hb.compiled.listed d hd
  obtain ⟨hfun, hi⟩ := howns
  have hat : (K.program.funs[d.info.id]?).bind (·.ref) = some i := by rw [hfun, Option.bind_some, hi]
  obtain ⟨code, pool, file, hcode, hfunc, hends⟩ := hb.compiled.object_ends hb.objects hinner hd hobject
  obtain rfl := Option.some.inj (hchunk.symm.trans hcode)
  have hframed := Scoped.func.framed (hinner d hlisted).1
  have hsep : d.Separate K.program := (hseparate d hlisted).congr fun b => by
    rw [hb.lowered, hb.binding]
  obtain ⟨hthreads, hplaces⟩ := (Threads.top_found hb.inScope).decls d hlisted
  have hdoes := Lowers.func_does hfunc hframed
  rw [← FunDecl.vars_congr hb.lowered d]
  refine ⟨⟨hlisted, ⟨K.program, pool, K.template, K.compiled⟩, f, code, file, hb.lowered, hfunc, rfl⟩,
    ?_, hb.vars_func hlisted hat, hsep.apart hthreads hplaces hframed, ?_⟩
  · exact (hsep.locates hthreads hplaces).congr fun b => (hb.lowered b).symm
  · exact hends.finds (hshort _ hchunk) (hdoes.finds hsep.fits (hb.func_housed hlisted))

theorem finds (he : e.Finds bs) (hshort : h'.Short) : e'.Finds (⟨r, src, e'.program⟩ :: bs) := by
  have hsize : e.heap.funcs.size ≤ r := hb.compiled.fresh ▸ hb.objects.heap.count
  have hheap : e'.heap = h' := hb.heap_eq
  have hkeep : ∀ i V, varsOf bs i = some V → varsOf (⟨r, src, e'.program⟩ :: bs) i = some V := by
    intro i V hV
    rw [hb.vars_old (he.listed i V hV), hV]
  refine ⟨fun i x hx chunk hchunk => ?_, fun i x chunk hx hchunk => ?_, fun b hmem => ?_,
    fun i V hV => ?_⟩
  · rw [hheap] at hx
    have hshort' := hshort x (Array.mem_of_getElem? hx)
    by_cases hi : i = r
    · subst hi
      exact ⟨.empty, vars_script, .empty, hb.script_finds hx hchunk hshort'⟩
    · rcases hb.coded hx hchunk hi with ⟨d, f, hd, howns, hobject⟩ | hold
      · obtain ⟨-, -, hV, hapart, hfinds⟩ :=
          hb.object_finds hseparate hd howns hobject hshort' hchunk
        exact ⟨_, hV, hapart, hfinds⟩
      · obtain ⟨V, hV, hapart, hfinds⟩ := he.code i x hold chunk hchunk
        exact ⟨V, hkeep i V hV, hapart, hfinds.mono hkeep⟩
  · rw [hheap] at hx
    by_cases hi : i = r
    · exact .inl ⟨_, List.mem_cons_self, hi.symm⟩
    · rcases hb.coded hx hchunk hi with ⟨d, f, hd, howns, hobject⟩ | hold
      · obtain ⟨hcodes, hlocates, hV, -⟩ := hb.object_finds hseparate hd howns hobject
          (hshort x (Array.mem_of_getElem? hx)) hchunk
        exact .inr ⟨_, List.mem_cons_self, d, hcodes, hlocates, hV⟩
      · rcases he.functions i x chunk hold hchunk with ⟨b, hmem, hscript⟩ | ⟨b, hmem, d, hcodes, hd, hV⟩
        · exact .inl ⟨b, List.mem_cons_of_mem _ hmem, hscript⟩
        · exact .inr ⟨b, List.mem_cons_of_mem _ hmem, d, hcodes, hd, hkeep i _ hV⟩
  · rcases List.mem_cons.mp hmem with rfl | hmem
    · exact vars_script
    · exact hkeep _ _ (he.scripts b hmem)
  · rw [hheap, hb.compiled.count, ← hb.compiled.fresh]
    rw [varsOf, List.findSome?_cons] at hV
    split at hV
    · rename_i V' hV'
      rw [Compiled.vars] at hV'
      split at hV'
      · rename_i heq
        rw [heq]
        exact Nat.lt_succ_self r
      · obtain ⟨d, hd, -⟩ := Option.map_eq_some_iff.mp hV'
        have hfound := List.find?_some hd
        rw [beq_iff_eq, hb.refAt] at hfound
        exact Nat.lt_succ_of_lt (hb.ref_new (List.mem_of_find?_eq_some hd) hfound).2.1
    · have hlt := he.listed i V hV
      exact Nat.lt_succ_of_lt (Nat.lt_of_lt_of_le hlt hsize)

end

end Builds

variable {e : Engine} {bs : List Compiled}

theorem new_finds {s : Setup} {e : Engine} (h : new s = .ok e) : e.Finds [] := by
  have hnone {r : Ref} {x : Function} (hx : e.heap.funcs[r]? = some x) : False :=
    Option.some_ne_none x (hx.symm.trans (new_func? h r))
  exact ⟨fun _ _ hx => (hnone hx).elim, fun _ _ _ hx => (hnone hx).elim, nofun, nofun⟩

theorem Finds.of_funcs {e' : Engine} (h : e.Finds bs) (hfuncs : e'.heap.funcs = e.heap.funcs) :
    e'.Finds bs :=
  ⟨fun r x hx => h.code r x (hfuncs ▸ hx), fun r x chunk hx => h.functions r x chunk (hfuncs ▸ hx),
    h.scripts, hfuncs ▸ h.listed⟩

theorem Session.finds (h : e.Session bs) : e.Finds bs := by
  induction h with
  | new hnew => exact new_finds hnew
  | @compile e bs text file src r hsession hsrc hr hshort ih =>
    have htidy := hsession.ready.tidy
    obtain ⟨src', p, q, K, h', hanalyze, hbuilds⟩ := compile_builds htidy hr
    have hseparate := analyze_separate htidy _ _ src hsrc
    rw [hanalyze] at hsrc hseparate
    obtain rfl := Except.ok.inj hsrc
    exact hbuilds.finds hseparate ih (hbuilds.heap_eq ▸ hshort)
  | @refuse e bs text file ds hsession hds ih =>
    have huntouched := (compile_cases hsession.ready.tidy text file).1 _ hds
    exact ih.of_funcs (by rw [heap, huntouched.machine, heap])
  | @check e bs hsession text file ih =>
    have huntouched := check_untouched hsession.ready.tidy text file
    exact ih.of_funcs (by rw [heap, huntouched.machine, heap])
  | @run e bs b hsession hb budget ih =>
    obtain ⟨x, chunk, n, o, m, -, -, hstands, hends, -, hrun⟩ := hsession.ready.run_ends hb budget
    rw [hrun]
    exact ih.of_funcs (hends.later hstands).funcs
  | takeOutput _ ih => exact ih.of_funcs rfl

theorem Finds.plays (hf : e.Finds bs) (he : e.Ready bs) {b : Compiled} (hb : b ∈ bs) {x : Function}
    {chunk : Chunk} (hx : e.heap.funcs[b.script]? = some x) (hchunk : x.chunk = some chunk)
    (harity : x.arity = 0) (hfree : x.freeCount = 0) (budget : Nat) :
    (e.machine.enter x chunk budget).Plays (varsOf bs) e.machine.cells.size ⟨[⟨.empty, []⟩], []⟩ := by
  obtain ⟨L, f, hL, hframes, rfl, hat, hheight, -⟩ := he.entered hx hchunk harity hfree budget
  obtain ⟨V, hV, -, hfinds⟩ := hf.code b.script x hx _ hchunk
  obtain rfl : Vars.empty = V := Option.some.inj ((hf.scripts b hb).symm.trans hV)
  refine ⟨he.verified, he.short, hf.code, by simp [hframes], ?_, ⟨List.nodup_nil, nofun⟩, Nat.le_refl _⟩
  rw [hframes]
  refine ⟨⟨L, 0, hL, hat, Nat.le_of_eq hheight, .empty, hfinds, .empty _ _⟩, trivial⟩

/-- All code of a session is that of a script, which has no captured variables, or is what a function
was lowered to, which has each of its captured variables in one place. In every state of the run of a
script, the next instruction acts on the cells that the running call has for its variables: a
declaration makes a new one, and what is read, written and taken by closures is the one that was made
last, or that the called closure brought. -/
theorem script_heeds (h : e.Session bs) :
    (∀ (r : Ref) x chunk, e.heap.funcs[r]? = some x → x.chunk = some chunk →
      (∃ b ∈ bs, b.script = r) ∨ ∃ b ∈ bs, ∃ d, b.Codes d chunk ∧ d.Locates b.program ∧
        varsOf bs r = some (d.vars b.program)) ∧
    ∀ b ∈ bs, ∀ budget, ∃ script chunk, e.heap.func? b.script = some script ∧
      script.chunk = some chunk ∧
        ∀ m s, Machine.Scenes (varsOf bs) (e.machine.enter script chunk budget) m s →
          m.Heeds (varsOf bs) s ∧ s.Fresh e.machine.cells.size m.cells.size := by
  have hfinds := h.finds
  refine ⟨hfinds.functions, fun b hb budget => ?_⟩
  obtain ⟨x, chunk, hx, hchunk, harity, hfree⟩ := h.ready.scripts b hb
  refine ⟨x, chunk, hx, hchunk, fun m s hscenes => ?_⟩
  have hplays := hscenes.plays (hfinds.plays h.ready hb hx hchunk harity hfree budget)
  exact ⟨hplays.heeds, hplays.fresh⟩

theorem counter_heeds : ∃ b e script chunk m s a x r v m', plain.compile counter "a.jz" = (.ok b.script, e) ∧
    e.Session [b] ∧ e.heap.func? b.script = some script ∧ script.chunk = some chunk ∧
      Machine.Scenes (varsOf [b]) (e.machine.enter script chunk 1) m s ∧ m.Heeds (varsOf [b]) s ∧
        m.cells.size = 1 ∧ m.next = .inl m' ∧ s.calls.head? = some a ∧ a.env.lookup x = some r ∧
          m.stack.head? = some v ∧ m'.cells = m.cells.setIfInBounds r v := by
  obtain ⟨b, e, script, chunk, m, hcompile, hsession, hscript, hchunk, hafter, hm⟩ :=
    reaches_session counter_reaches
  obtain ⟨-, hm⟩ := Bool.and_eq_true_iff.mp hm
  obtain ⟨hinstruction, hm⟩ := Bool.and_eq_true_iff.mp hm
  obtain ⟨hcells, hnext⟩ := Bool.and_eq_true_iff.mp hm
  obtain ⟨m', hnext⟩ := Sum.isLeft_iff.mp hnext
  obtain ⟨s, hscenes⟩ := (@Machine.Scenes.start (varsOf [b]) (e.machine.enter script chunk 1)).after hafter
  obtain ⟨script', chunk', hscript', hchunk', hheeds⟩ := (script_heeds hsession).2 b List.mem_cons_self 1
  obtain rfl := Option.some.inj (hscript.symm.trans hscript')
  obtain rfl := Option.some.inj (hchunk.symm.trans hchunk')
  have hheed := (hheeds m s hscenes).1
  obtain ⟨a, c, d, ha, hd, hacts⟩ := hheed.step m' hnext
  obtain rfl : c = .setUpvalue := by simpa [hd] using hinstruction
  obtain ⟨x, r, v, -, hlookup, hv, hstored⟩ := hacts
  exact ⟨b, e, script, chunk, m, s, a, x, r, v, m', hcompile, hsession, hscript, hchunk, hscenes, hheed,
    beq_iff_eq.mp hcells, hnext, ha, hlookup, hv, hstored⟩

end Engine

end Scripting

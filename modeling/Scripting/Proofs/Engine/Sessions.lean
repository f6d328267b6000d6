import Scripting.Proofs.Engine.Batches
import Scripting.Proofs.Machine.Ending
import Scripting.Proofs.Script.Compiled

/-!
# Sessions

A session compiles batches and runs their scripts. `Engine.Ready` holds in every state of a session: all
functions of the heap are checked code. So no script that was compiled finds its code broken, and every
run ends.
-/

namespace Scripting

open Program

/-- Whether functions that have objects are called with as many arguments as these take. -/
def Program.Referred (p : Program) (h : Heap) : Prop :=
  ∀ (i : FunId) (f : UserFunction) (r : Ref), p.funs[i]? = some f → f.ref = some r →
    ∃ x, h.funcs[r]? = some x ∧ x.arity = f.arity

namespace Program.Referred

variable {p q : Program} {h h' : Heap}

theorem analyzed (hp : p.Referred h) (hgrows : p.Grows q) (hlonger : p.Longer q) : q.Referred h := by
  intro i g r hg hr
  have hrefs := hlonger.refs i
  rw [hg, Option.bind_some, hr] at hrefs
  obtain ⟨f, hf, hfr⟩ := Option.bind_eq_some_iff.mp hrefs.symm
  obtain ⟨g', hg', harity⟩ := hgrows.funs i f hf
  obtain rfl := Option.some.inj (hg.symm.trans hg')
  obtain ⟨x, hx, hxf⟩ := hp i f r hf hfr
  exact ⟨x, hx, by rw [hxf, harity]⟩

theorem made (hp : p.Referred h) (ho : p.HasObjects h q h') : q.Referred h' := by
  intro i g r hg hr
  obtain ⟨f, hf, hobject⟩ := ho.owner hg
  have harity : g.arity = f.arity := by
    rw [hobject.rest]
    rfl
  rw [harity]
  cases hfr : f.ref with
  | none =>
    obtain ⟨x, hx, hxf, -⟩ := hobject.made r hfr hr
    exact ⟨x, hx, hxf⟩
  | some r' =>
    obtain rfl := Option.some.inj (hr.symm.trans (hobject.kept r' hfr))
    obtain ⟨x, hx, hxf⟩ := hp i f r hf hfr
    exact ⟨x, ho.heap.some hx, hxf⟩

theorem compiled (hp : p.Referred h) (hc : p.Compiles q)
    (hheads : ∀ r < h.funcs.size, (h'.funcs[r]?).map Emit.head = (h.funcs[r]?).map Emit.head) :
    q.Referred h' := by
  intro i g r hg hr
  obtain ⟨f, hf, hbare⟩ := hc.some hg
  have hfr : f.ref = some r := (congrArg UserFunction.ref hbare).symm.trans hr
  have harity : g.arity = f.arity := (congrArg UserFunction.arity hbare : g.bare.arity = f.bare.arity)
  obtain ⟨x, hx, hxf⟩ := hp i f r hf hfr
  have hhead := hheads r (Array.getElem?_eq_some_iff.mp hx).1
  rw [hx] at hhead
  obtain ⟨y, hy, hyx⟩ := Option.map_eq_some_iff.mp hhead
  have hsame : y.arity = x.arity := congrArg Prod.snd hyx
  exact ⟨y, hy, by rw [hsame, hxf, harity]⟩

end Program.Referred

namespace Source.Compiled

open Lowering (Suits)

variable {src : Source .typed} {K : Lowering} {p : Program} {h h₀ h' : Heap} {r : Ref}

/-- What the code of a batch is checked against. Heights are not the same on all ways, because a jump
out of a loop leaves values behind that were pushed in it. -/
def limits (R : Region) (pool : Array Value) : Limits := ⟨false, R.size, R.free.length, pool⟩

theorem suits (hc : src.Compiled K h h' r) (ho : p.HasObjects h₀ K.program h) (R : Region)
    (pool : Array Value) : Suits { K with pool } R (limits R pool) := by
  refine ⟨rfl, rfl, rfl, fun j g hg => ?_, fun t v hv => ?_⟩
  · obtain ⟨g', -, hg'⟩ := ho.owner hg
    exact Option.isSome_iff_exists.mp hg'.given
  · obtain ⟨j, fields, rfl, -⟩ := hc.template t v hv
    exact ⟨j, _, rfl⟩

theorem object_ends (hc : src.Compiled K h h' r) (ho : p.HasObjects h₀ K.program h)
    (hinner : Inner.All K.program (Decls.stmts src.stmts)) {d : FunDecl .typed} {f : UserFunction}
    {x : Function} (hd : K.compiled d) (hobject : K.Object f d x) :
    ∃ (code : Assembly) (pool : Array Value) (file : String), x.chunk = some (code.chunk pool file) ∧
      Lowers.func { K with pool } f d code ∧
        Ends (limits d.region pool) Exits.none code (Lowers.entryShape d) := by
  obtain ⟨code, pool, file, hchunk, hcode⟩ := hobject.code
  obtain ⟨hscoped, hformed⟩ := hinner d (hc.listed d hd)
  exact ⟨code, pool, file, hchunk, hcode,
    Lowers.func_ends (hc.suits ho d.region pool) hcode hscoped hformed nofun⟩

theorem object_verified (hc : src.Compiled K h h' r) (ho : p.HasObjects h₀ K.program h)
    (hinner : Inner.All K.program (Decls.stmts src.stmts)) (href : K.program.Referred h)
    {d : FunDecl .typed} {f : UserFunction} {i : Ref} {x : Function} (hd : K.compiled d) (hi : i < r)
    (hx : h'.funcs[i]? = some x) (howns : K.Owns d f i) (hobject : K.Object f d x) : x.Verified := by
  obtain ⟨hfun, hfr⟩ := howns
  obtain ⟨code, pool, file, hchunk, -, hends⟩ := hc.object_ends ho hinner hd hobject
  have harity : x.arity = d.paramDecls.length := by
    obtain ⟨g, hg, hgarity⟩ := (Scoped.func.framed (hinner d (hc.listed d hd)).1).listed
    obtain rfl := Option.some.inj (hfun.symm.trans hg)
    obtain ⟨y, hy, hyarity⟩ := href _ f i hfun hfr
    have hhead := hc.heads i hi
    rw [hx, hy] at hhead
    have hsame : x.arity = y.arity := congrArg Prod.snd (Option.some.inj hhead)
    rw [hsame, hyarity, hgarity]
  intro chunk hchunk'
  obtain rfl := Option.some.inj (hchunk.symm.trans hchunk')
  have hentry : Lowers.entryShape d = ⟨0, fun j => if (j : Int) < x.arity then some false else none⟩ := by
    simp only [Lowers.entryShape, harity, Int.ofNat_lt]
  refine ⟨limits d.region pool, ?_, ?_, hentry ▸ hends.verified file⟩
  · rw [hobject.localCount]
    exact Nat.le_refl _
  · rw [hobject.freeCount]
    simp [limits, FunDecl.region]

theorem script_verified (hc : src.Compiled K h h' r) (ho : p.HasObjects h₀ K.program h)
    (hscoped : Scoped.stmts K.program .top (fun _ => none) src.stmts)
    (hformed : Formed.stmts K.program src.stmts) : ∃ x chunk, h'.funcs[r]? = some x ∧
      x.chunk = some chunk ∧ x.arity = 0 ∧ x.freeCount = 0 ∧ x.Verified := by
  obtain ⟨known, a, b, -, ha, hb, hr, -⟩ := hc.script
  refine ⟨_, _, hr, rfl, rfl, rfl, fun chunk hchunk => ?_⟩
  obtain rfl := Option.some.inj hchunk
  have hends := Lowers.script_ends (hc.suits ho .top K.pool) ha hb hscoped hformed nofun
  refine ⟨limits .top K.pool, Nat.le_refl 0, Int.le_refl 0, ?_⟩
  have hentry : (⟨0, fun j => if (j : Int) < 0 then some false else none⟩ : Shape)
      = ⟨0, fun _ => none⟩ := by
    congr 1
  rw [hentry]
  exact hends.verified src.file

theorem heap_verified (hc : src.Compiled K h h' r) (ho : p.HasObjects h₀ K.program h)
    (hscoped : Scoped.stmts K.program .top (fun _ => none) src.stmts)
    (hformed : Formed.stmts K.program src.stmts) (href : K.program.Referred h) (hold : h₀.Verified) :
    h'.Verified := by
  intro x hx
  obtain ⟨i, hi⟩ := Array.mem_iff_getElem?.mp hx
  have hsize : i < r + 1 := by
    rw [hc.fresh, ← hc.count]
    exact (Array.getElem?_eq_some_iff.mp hi).1
  rcases Nat.lt_succ_iff_lt_or_eq.mp hsize with hlt | rfl
  · rcases hc.functions i hlt x hi with ⟨d, hd, f, howns, hobject⟩ | ⟨hsame, -⟩
    · exact hc.object_verified ho (Inner.stmts_all _ hscoped hformed) href hd hlt hi howns hobject
    · -- The function is one of an earlier batch, or it has no code.
      rcases Nat.lt_or_ge i h₀.funcs.size with hlt' | hge
      · rw [ho.heap.old i hlt'] at hsame
        exact hold x (Array.mem_of_getElem? hsame)
      · intro chunk hchunk
        rw [ho.heap.new i x hge hsame] at hchunk
        cases hchunk
  · obtain ⟨y, -, hy, -, -, -, hverified⟩ := hc.script_verified ho hscoped hformed
    obtain rfl := Option.some.inj (hi.symm.trans hy)
    exact hverified

end Source.Compiled

namespace Engine

/-- A batch that was compiled: its script, its tree, and the program it belongs to. -/
structure Compiled where
  script : Ref
  tree : Source .typed
  program : Program

/-- The states of an engine that compiles batches and runs their scripts, with the batches that were
compiled, the last one first. The code of a batch has to be short enough for its jumps, whose operands
have four bytes. -/
inductive Session : Engine → List Compiled → Prop
  | new {s : Setup} {e : Engine} : new s = .ok e → Session e []
  | compile {e : Engine} {bs : List Compiled} {text file : String} {src : Source .typed} {r : Ref} :
      Session e bs → (e.analyze text (if file.isEmpty then inputName else file)).1 = .ok src →
        (e.compile text file).1 = .ok r → (e.compile text file).2.heap.Short →
          Session (e.compile text file).2 (⟨r, src, (e.compile text file).2.program⟩ :: bs)
  | refuse {e : Engine} {bs : List Compiled} {text file : String} {ds : List Diagnostic} :
      Session e bs → (e.compile text file).1 = .error ds → Session (e.compile text file).2 bs
  | check {e : Engine} {bs : List Compiled} : Session e bs → ∀ text file,
      Session (e.check text file).2 bs
  | run {e : Engine} {bs : List Compiled} {b : Compiled} : Session e bs → b ∈ bs → ∀ budget,
      Session (e.run b.script budget).2 bs
  | takeOutput {e : Engine} {bs : List Compiled} : Session e bs → Session e.takeOutput.2 bs

/-- What holds in every state of a session. -/
structure Ready (e : Engine) (bs : List Compiled) : Prop where
  tidy : e.program.Tidy
  referred : e.program.Referred e.heap
  verified : e.heap.Verified
  short : e.heap.Short
  scripts : ∀ b ∈ bs, ∃ x chunk, e.heap.funcs[b.script]? = some x ∧ x.chunk = some chunk ∧
    x.arity = 0 ∧ x.freeCount = 0

theorem new_ready {s : Setup} {e : Engine} (h : new s = .ok e) : e.Ready [] := by
  have htidy := new_tidy h
  obtain ⟨r, p, hp, rfl⟩ := exists_preloaded h
  have hfollows := preloaded_follows s.preload initial_follows hp
  refine ⟨htidy, fun i f r hf hr => ?_, nofun, nofun, nofun⟩
  -- No function of a new program has an object.
  have hrefs := hfollows.longer.refs i
  dsimp only at hf
  rw [hf, Option.bind_some, hr] at hrefs
  simp at hrefs

theorem analyze_grows {e : Engine} (he : e.program.Tidy) (text file : String) (src : Source .typed)
    (h : (e.analyze text file).1 = .ok src) : e.program.begin.Grows (e.analyze text file).2 ∧
      ((Decls.stmts src.stmts).map (·.info.id)).Nodup ∧
        ∀ d ∈ Decls.stmts src.stmts, e.program.funs.size ≤ d.info.id := by
  revert h
  unfold analyze
  split
  · exact fun h => nomatch h
  · rename_i src' _
    obtain ⟨hfollows, hown⟩ := Source.resolve_follows (Loading.loader_bare e.registry) he src'
    split
    · exact fun h => nomatch h
    · rename_i out p heq
      rw [heq] at hfollows hown
      obtain ⟨hgrows, hrooted, ⟨-, hids, hbounds⟩, -⟩ :=
        Source.resolve_scoped (Loading.loader_tidy e.registry) he.begin.toRooted heq
      obtain ⟨hbindings, hfuns⟩ := begun_old hfollows
      have hmine : Own.stmts p.oldBindings p.oldFuns out.stmts := by
        rw [hbindings, hfuns]
        exact hown out rfl
      obtain ⟨hsettles, hkeeps⟩ := Source.check_keeps hrooted hids hmine
      intro hsrc
      obtain ⟨ids, hperm, hlist⟩ := (hkeeps src hsrc).ids
      refine ⟨hgrows.trans hsettles.grows, hperm.nodup_iff.mp (hids.sublist hlist), fun d hd => ?_⟩
      obtain ⟨d', hd', hid⟩ := List.mem_map.mp (hlist.subset (hperm.symm.subset (List.mem_map_of_mem hd)))
      exact hid ▸ (hbounds d' hd').1

/-- What is known of a batch that compiles: `p` is the program that it was checked against, and `q`
the one that is left. -/
structure Builds (e e' : Engine) (src : Source .typed) (r : Ref) (p q : Program) (K : Lowering)
    (h' : Heap) : Prop where
  follows : Follows e.program.begin p
  grows : e.program.begin.Grows p
  made : K.program = (p.makeObjects.run e.heap).1
  objects : p.HasObjects e.heap K.program (p.makeObjects.run e.heap).2
  compiles : K.program.Compiles q
  compiled : src.Compiled K (p.makeObjects.run e.heap).2 h' r
  inScope : Scoped.stmts K.program .top (fun _ => none) src.stmts
  formed : Formed.stmts K.program src.stmts
  distinct : ((Decls.stmts src.stmts).map (·.info.id)).Nodup
  new : ∀ d ∈ Decls.stmts src.stmts, e.program.funs.size ≤ d.info.id
  result : e' = { e.withHeap h' with program := q.commit }

theorem compile_builds {e : Engine} (he : e.program.Tidy) {text file : String} {r : Ref}
    (h : (e.compile text file).1 = .ok r) : ∃ src p q K h',
      e.analyze text (if file.isEmpty then inputName else file) = (.ok src, p) ∧
        e.Builds (e.compile text file).2 src r p q K h' := by
  obtain ⟨hfollows, haccepted⟩ := e.analyze_follows he text (if file.isEmpty then inputName else file)
  have hgrows := analyze_grows he text (if file.isEmpty then inputName else file)
  unfold compile at h ⊢
  dsimp only at h ⊢
  generalize e.analyze text (if file.isEmpty then inputName else file) = x at h hfollows haccepted hgrows ⊢
  obtain ⟨res, p⟩ := x
  cases res with
  | error ds => cases h
  | ok src =>
    dsimp only at h ⊢
    cases hcompile : src.compile p e.heap with
    | error d =>
      rw [hcompile] at h
      cases h
    | ok y =>
      obtain ⟨r', q, h'⟩ := y
      rw [hcompile] at h
      obtain rfl := Except.ok.inj h
      have hobjects := p.makeObjects_hasObjects e.heap
      have haccept := haccepted src rfl
      have hformed := Formed.stmts_mono (fun _ => hobjects.hasRecord) _ haccept.formed
      obtain ⟨K, hK, hcompiles, hcompiled⟩ := Source.compile_compiled hformed hcompile
      rw [← hK] at hobjects hformed
      obtain ⟨hgrown, hdistinct, hnew⟩ := hgrows src rfl
      exact ⟨src, p, q, K, h', rfl, hfollows, hgrown, hK, hobjects, hcompiles, hcompiled,
        haccept.inScope _ hobjects.grows, hformed, hdistinct, hnew, rfl⟩

namespace Builds

variable {e e' : Engine} {bs : List Compiled} {src : Source .typed} {r : Ref} {p q : Program}
  {K : Lowering} {h' : Heap}

theorem owned (hb : e.Builds e' src r p q K h') {d : FunDecl .typed} {f : UserFunction} {i : Ref}
    (hd : K.compiled d) (howns : K.Owns d f i) :
    ∃ x, (p.makeObjects.run e.heap).2.funcs[i]? = some x ∧ x.chunk = none := by
  obtain ⟨hfun, hfr⟩ := howns
  obtain ⟨g, hg, hobject⟩ := hb.objects.owner hfun
  have hrefs := hb.follows.longer.refs d.info.id
  have hnone : e.program.begin.funs[d.info.id]? = none :=
    Array.getElem?_eq_none (hb.new d (hb.compiled.listed d hd))
  rw [hg, hnone] at hrefs
  obtain ⟨x, hx, -, hchunk⟩ := hobject.made i hrefs hfr
  exact ⟨x, hx, hchunk⟩

theorem kept (hb : e.Builds e' src r p q K h') {i : Ref} {x : Function} {chunk : Chunk}
    (hx : e.heap.funcs[i]? = some x) (hchunk : x.chunk = some chunk) : h'.funcs[i]? = some x := by
  have hmade := hb.objects.heap.some hx
  have hlt : i < r := hb.compiled.fresh ▸ (Array.getElem?_eq_some_iff.mp hmade).1
  obtain ⟨y, hy⟩ : ∃ y, h'.funcs[i]? = some y :=
    ⟨_, Array.getElem?_eq_getElem (by rw [hb.compiled.count, ← hb.compiled.fresh]; exact Nat.lt_succ_of_lt hlt)⟩
  rcases hb.compiled.functions i hlt y hy with ⟨d, hd, f, howns, -⟩ | ⟨hsame, -⟩
  · obtain ⟨z, hz, hnone⟩ := hb.owned hd howns
    obtain rfl := Option.some.inj (hmade.symm.trans hz)
    cases hchunk.symm.trans hnone
  · rw [hy, ← hsame, hmade]

theorem ready (hb : e.Builds e' src r p q K h') (he : e.Ready bs) (hshort : e'.heap.Short) :
    e'.Ready (⟨r, src, e'.program⟩ :: bs) := by
  have href : K.program.Referred (p.makeObjects.run e.heap).2 :=
    (he.referred.analyzed (p := e.program.begin) hb.grows hb.follows.longer).made hb.objects
  have hcompiled := hb.compiled
  obtain rfl := hb.result
  refine ⟨(hb.compiles.tidy (hb.objects.tidy hb.follows.tidy)).commit, ?_, ?_, hshort, ?_⟩
  · exact href.compiled (q := q) hb.compiles fun i hi => hcompiled.heads i (hcompiled.fresh ▸ hi)
  · exact hcompiled.heap_verified hb.objects hb.inScope hb.formed href he.verified
  · intro b hmem
    rcases List.mem_cons.mp hmem with rfl | hmem
    · obtain ⟨x, chunk, hx, hchunk, harity, hfree, -⟩ :=
        hcompiled.script_verified hb.objects hb.inScope hb.formed
      exact ⟨x, chunk, hx, hchunk, harity, hfree⟩
    · obtain ⟨x, chunk, hx, hchunk, hplain⟩ := he.scripts b hmem
      exact ⟨x, chunk, hb.kept hx hchunk, hchunk, hplain⟩

end Builds

variable {e : Engine} {bs : List Compiled}

theorem Ready.entered (he : e.Ready bs) {x : Function} {r : Ref} {chunk : Chunk}
    (hx : e.heap.funcs[r]? = some x) (hchunk : x.chunk = some chunk) (harity : x.arity = 0)
    (hfree : x.freeCount = 0) (budget : Nat) : ∃ L f, L.Sound ∧
      (e.machine.enter x chunk budget).frames = [f] ∧ f.chunk = chunk ∧ f.At L 0 ∧
        f.base + (L.shape 0).height = 0 ∧ ∀ k, ((L.shape 0).slots k).isSome → k ∈ List.range 0 := by
  have hmem : x ∈ e.heap.funcs := Array.mem_of_getElem? hx
  have hargs : x.arity = ([] : List Value).length := harity
  have hcells : x.freeCount = ([] : List Ref).length := hfree
  obtain ⟨L, hL, hat, hheight, hslots, -⟩ := Machine.entered (he.verified x hmem) (he.short x hmem) hchunk
    hargs hcells 0
  refine ⟨L, _, hL, rfl, rfl, by simpa using hat, ?_, hslots⟩
  show 0 + (L.shape 0).height = 0
  rw [hheight]

theorem Ready.enter_stands (he : e.Ready bs) {x : Function} {r : Ref} {chunk : Chunk}
    (hx : e.heap.funcs[r]? = some x) (hchunk : x.chunk = some chunk) (harity : x.arity = 0)
    (hfree : x.freeCount = 0) (budget : Nat) : (e.machine.enter x chunk budget).Stands [[]] := by
  obtain ⟨L, f, hL, hframes, -, hat, hheight, hslots⟩ := he.entered hx hchunk harity hfree budget
  refine ⟨he.verified, he.short, nofun, ?_⟩
  rw [hframes]
  exact ⟨⟨L, 0, hL, hat, Nat.le_of_eq hheight, hslots⟩, trivial⟩

theorem Ready.run_ends (he : e.Ready bs) {b : Compiled} (hb : b ∈ bs) (budget : Nat) :
    ∃ script chunk n o m, e.heap.func? b.script = some script ∧ script.chunk = some chunk ∧
      (e.machine.enter script chunk budget).Stands [[]] ∧
        (e.machine.enter script chunk budget).Ends n o m ∧ n ≤ budget + 1 ∧
          e.run b.script budget = (o, { e with machine := m }) := by
  obtain ⟨x, chunk, hx, hchunk, harity, hfree⟩ := he.scripts b hb
  have hstands := he.enter_stands hx hchunk harity hfree budget
  obtain ⟨n, o, m, hends, hn⟩ := Machine.Stands.ends _ _ hstands (by simp [Machine.enter, Exec.maxFrames])
  have hfunc : e.heap.func? b.script = some x := hx
  refine ⟨x, chunk, n, o, m, hx, hchunk, hstands, hends, hn, ?_⟩
  rw [run, hfunc]
  dsimp only
  rw [Machine.run, hchunk]
  dsimp only
  rw [hends.finish]

theorem run_ready (he : e.Ready bs) {b : Compiled} (hb : b ∈ bs) (budget : Nat) :
    (e.run b.script budget).2.Ready bs := by
  obtain ⟨x, chunk, n, o, m, -, -, hstands, hends, -, hrun⟩ := he.run_ends hb budget
  have hfuncs : m.world.heap.funcs = e.heap.funcs := (hends.later hstands).funcs
  rw [hrun]
  refine ⟨he.tidy, ?_, ?_, ?_, ?_⟩
  · intro i f r hf hr
    show ∃ x, m.world.heap.funcs[r]? = some x ∧ _
    rw [hfuncs]
    exact he.referred i f r hf hr
  · intro x hx
    exact he.verified x (hfuncs ▸ hx)
  · intro x hx
    exact he.short x (hfuncs ▸ hx)
  · intro b hb
    show ∃ x chunk, m.world.heap.funcs[b.script]? = some x ∧ _
    rw [hfuncs]
    exact he.scripts b hb

theorem Untouched.ready {e' : Engine} (h : e.Untouched e') (he : e.Ready bs) : e'.Ready bs := by
  have hheap : e'.heap = e.heap := by rw [heap, h.machine, heap]
  refine ⟨h.tidy he.tidy, fun i f r hf hr => ?_, hheap ▸ he.verified, hheap ▸ he.short, hheap ▸ he.scripts⟩
  rw [h.program.funs] at hf
  rw [hheap]
  exact he.referred i f r hf hr

theorem Session.ready (h : e.Session bs) : e.Ready bs := by
  induction h with
  | new hnew => exact new_ready hnew
  | compile _ hsrc hr hshort ih =>
    obtain ⟨src, p, q, K, h', hanalyze, hbuilds⟩ := compile_builds ih.tidy hr
    rw [hanalyze] at hsrc
    obtain rfl := Except.ok.inj hsrc
    exact hbuilds.ready ih hshort
  | refuse _ hds ih => exact ((compile_cases ih.tidy _ _).1 _ hds).ready ih
  | check _ text file ih => exact (check_untouched ih.tidy text file).ready ih
  | run _ hb budget ih => exact run_ready ih hb budget
  | takeOutput _ ih => exact ⟨ih.tidy, ih.referred, ih.verified, ih.short, ih.scripts⟩

/-- Whether the script of a text runs, when it is compiled in a new engine, to a state that is as asked
for. Its code has to be short enough. -/
def reaches (text : String) (budget n : Nat) (good : Machine → Bool) : Bool :=
  match plain.compile text "a.jz" with
  | (.ok r, e) => (e.heap.funcs.all fun x => x.chunk.all fun chunk => chunk.code.size < 256 ^ 4) &&
    (e.heap.func? r).any fun x => x.chunk.any fun chunk =>
      match (e.machine.enter x chunk budget).after n with
      | .inl m => good m
      | .inr _ => false
  | (.error _, _) => false

theorem reaches_session {text : String} {budget n : Nat} {good : Machine → Bool}
    (h : reaches text budget n good = true) : ∃ b e script chunk m, plain.compile text "a.jz" = (.ok b.script, e) ∧
      e.Session [b] ∧ e.heap.func? b.script = some script ∧ script.chunk = some chunk ∧
        (e.machine.enter script chunk budget).after n = .inl m ∧ good m = true := by
  have hnew : new ⟨[], []⟩ = .ok plain := rfl
  unfold reaches at h
  generalize hcompile : plain.compile text "a.jz" = x at h
  obtain ⟨_ | r, e⟩ := x
  · cases h
  have hr : (plain.compile text "a.jz").1 = .ok r := congrArg Prod.fst hcompile
  obtain ⟨src, p, q, K, h', hanalyze, hbuilds⟩ := compile_builds (new_tidy hnew) hr
  obtain ⟨hshort, hrun⟩ := Bool.and_eq_true_iff.mp h
  have hsession : e.Session [⟨r, src, e.program⟩] := by
    have hcompiled := Session.compile (.new hnew) (congrArg Prod.fst hanalyze) hr
    rw [hcompile] at hcompiled
    refine hcompiled fun x hx chunk hchunk => ?_
    have hall := Array.all_eq_true_iff_forall_mem.mp hshort x hx
    rw [hchunk, Option.all_some] at hall
    exact of_decide_eq_true hall
  cases hscript : e.heap.func? r with
  | none => simp [hscript] at hrun
  | some script =>
    cases hchunk : script.chunk with
    | none => simp [hscript, hchunk] at hrun
    | some chunk =>
      rw [hscript, Option.any_some, hchunk, Option.any_some] at hrun
      generalize hafter : (e.machine.enter script chunk budget).after n = y at hrun
      cases y with
      | inl m => exact ⟨⟨r, src, e.program⟩, e, script, chunk, m, rfl, hsession, hscript, hchunk, hafter, hrun⟩
      | inr x => cases hrun

def endless : String := "while true { }"

theorem endless_analyze : ∃ src tok t n m open_ close, plain.analyze endless "a.jz"
    = (.ok src, Program.initial.begin) ∧
      src.stmts = [.loop tok (.bool n t true) (.mk m open_ [] close)] :=
  ⟨_, _, _, _, _, _, _, rfl, rfl⟩

theorem endless_compile : ∃ r, (plain.compile endless "a.jz").1 = .ok r := by
  have h : (plain.compile endless "a.jz").1.isOk = true := by decide +kernel
  generalize (plain.compile endless "a.jz").1 = x at h ⊢
  cases x with
  | ok r => exact ⟨r, rfl⟩
  | error ds => cases h

theorem endless_short : (plain.compile endless "a.jz").2.heap.Short := by
  have h : ((plain.compile endless "a.jz").2.heap.funcs.all fun x =>
      x.chunk.all fun chunk => chunk.code.size < 256 ^ 4) = true := by decide +kernel
  intro x hx chunk hchunk
  have hall := Array.all_eq_true_iff_forall_mem.mp h x hx
  rw [hchunk, Option.all_some] at hall
  exact of_decide_eq_true hall

theorem endless_session : ∃ b, (plain.compile endless "a.jz").2.Session [b] := by
  obtain ⟨r, hr⟩ := endless_compile
  obtain ⟨src, _, _, _, _, _, _, hanalyze, -⟩ := endless_analyze
  have hsrc : (plain.analyze endless "a.jz").1 = .ok src := congrArg Prod.fst hanalyze
  exact ⟨_, .compile (.new (s := ⟨[], []⟩) rfl) hsrc hr endless_short⟩

/-- In every state of the run of a script, the next instruction can be executed. -/
theorem script_safe (h : e.Session bs) {b : Compiled} (hb : b ∈ bs) (budget : Nat) :
    ∃ script chunk, e.heap.func? b.script = some script ∧ script.chunk = some chunk ∧
      ∀ m ws, (e.machine.enter script chunk budget).Passes m ws → m.Safe (ws.headD []) := by
  obtain ⟨x, chunk, -, -, -, hx, hchunk, hstands, -⟩ := h.ready.run_ends hb budget
  exact ⟨x, chunk, hx, hchunk, fun m ws hpasses => (hpasses.stands hstands).safe⟩

/-- A loop that calls a function, in which a closure in another one counts a captured variable up. -/
def counter : String :=
  "fun f(a: Int): Int \x7b\nlet n = a\nfun g(): Int \x7b\nfun h(): Int \x7b n = n + 1; n \x7d\nlet k = h()\nk + n \x7d\n"
    ++ "g() \x7d\nwhile true \x7b f(2) \x7d"

/-- The closure is about to store what it has counted, with the script and both functions around it. -/
theorem counter_reaches : reaches counter 1 39 (fun m => m.frames.length == 4 &&
    (m.instruction?.map (·.1) == some .setUpvalue && (m.world.heap.cells.size == 1 && m.next.isLeft))) = true := by
  decide +kernel

theorem counter_safe : ∃ b e script chunk m ws, plain.compile counter "a.jz" = (.ok b.script, e) ∧
    e.Session [b] ∧ e.heap.func? b.script = some script ∧ script.chunk = some chunk ∧
      (e.machine.enter script chunk 1).Passes m ws ∧ m.frames.length = 4 ∧
        m.instruction?.map (·.1) = some .setUpvalue ∧ m.Safe (ws.headD []) := by
  obtain ⟨b, e, script, chunk, m, hcompile, hsession, hscript, hchunk, hafter, hm⟩ :=
    reaches_session counter_reaches
  obtain ⟨ws, hpasses⟩ := Machine.Passes.start.after hafter
  obtain ⟨hframes, hm⟩ := Bool.and_eq_true_iff.mp hm
  obtain ⟨hinstruction, -⟩ := Bool.and_eq_true_iff.mp hm
  obtain ⟨script', chunk', hscript', hchunk', hsafe⟩ := script_safe hsession List.mem_cons_self 1
  obtain rfl := Option.some.inj (hscript.symm.trans hscript')
  obtain rfl := Option.some.inj (hchunk.symm.trans hchunk')
  exact ⟨b, e, script, chunk, m, ws, hcompile, hsession, hscript, hchunk, hpasses, beq_iff_eq.mp hframes,
    beq_iff_eq.mp hinstruction, hsafe m ws hpasses⟩

end Engine

end Scripting

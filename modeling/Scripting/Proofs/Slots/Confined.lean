import Scripting.Code.Disassembly
import Scripting.Proofs.Bundle.Code
import Scripting.Proofs.Code.Decoding
import Scripting.Proofs.Engine.Callables
import Scripting.Proofs.Machine.Unchanged
import Scripting.Proofs.Script.Globals

/-!
# Code stays within its program

All code that an engine compiles uses slots of its program only, and its constants lead to functions of
the program and to objects that lead nowhere: `Chunk.Confined`. `Engine.Closed` is kept by all that an
engine does. Bundles bring functions of other engines into the heap, but what the engine compiles never
leads to them.
-/

namespace Scripting

open Program

/-!
## The global slots in code

`Chunk.Within n c` says that the bytes of a chunk are those of instructions, and that none of these reads
or writes the global slot `n` or a later one. Nothing is asked of how long the code is, so this holds of
all that a batch compiles to, where `n` is how many slots there are.
-/

/-- The global slot that an instruction reads or writes. -/
def Decoded.global? (d : Decoded) : Option Nat :=
  match Opcode.ofByte? d.byte with
  | some .getGlobal | some .setGlobal => d.operands.head?
  | _ => none

def Bounded (n : Nat) (as : List Asm) : Prop := ∀ c i, .op c [i] ∈ as → c.isGlobal = true → i < n

theorem Bounded.append {n : Nat} {as bs : List Asm} (ha : Bounded n as) (hb : Bounded n bs) :
    Bounded n (as ++ bs) := fun c i hmem hc =>
  (List.mem_append.mp hmem).elim (fun h => ha c i h hc) fun h => hb c i h hc

theorem Bounded.global {n : Nat} {as : List Asm} (h : Bounded n as) {a : Asm} (ha : a ∈ as)
    (hfits : a.Fits) (start : Nat → Nat) (k : Nat) {i : Nat}
    (hi : (a.decoded start k).global? = some i) : i < n := by
  rw [Decoded.global?, Asm.decoded_byte, Opcode.ofByte?_byte] at hi
  cases a with
  | op c ns =>
    have hglobal : c.isGlobal = true → c.widths = [2] → ns.head? = some i → i < n := by
      intro hc hwidths hhead
      have hlength := hfits.2.length_eq
      rw [hwidths] at hlength
      obtain ⟨j, rfl⟩ := List.length_eq_one_iff.mp hlength.symm
      obtain rfl := Option.some.inj hhead
      exact h c j ha hc
    cases c <;> first | exact hglobal rfl rfl hi | cases hi
  | _ => cases hi

namespace Chunk

variable {c d : Chunk} {n m : Nat}

/-- Whether a chunk has the bytes of code that uses no global slot from `n` on. -/
def Within (n : Nat) (c : Chunk) : Prop :=
  ∃ (code : Assembly) (pool : Array Value) (file : String), code.Fits ∧ Bounded n (code.map (·.asm)) ∧
    c.code = (code.chunk pool file).code

theorem Within.mono (h : c.Within n) (hnm : n ≤ m) : c.Within m := by
  obtain ⟨code, pool, file, hfits, hn, hcode⟩ := h
  exact ⟨code, pool, file, hfits, fun c i hmem hc => Nat.lt_of_lt_of_le (hn c i hmem hc) hnm, hcode⟩

theorem Within.of_code (h : c.Within n) (hcode : d.code = c.code) : d.Within n := by
  obtain ⟨code, pool, file, hfits, hn, hc⟩ := h
  exact ⟨code, pool, file, hfits, hn, hcode.trans hc⟩

theorem Within.of_empty (h : c.code = #[]) : c.Within n :=
  ⟨[], #[], "", by simp [Assembly.Fits], fun _ _ hmem => absurd hmem List.not_mem_nil, h⟩

theorem Within.decode? (h : c.Within n) :
    ∃ ds, c.decode? = some ds ∧ ∀ d ∈ ds, ∀ i, d.global? = some i → i < n := by
  obtain ⟨code, pool, file, hfits, hn, hc⟩ := h
  obtain ⟨ds, hds, hshows⟩ := Assembly.decode?_shows hfits hc
  refine ⟨ds, hds, fun d hd i hi => ?_⟩
  obtain ⟨l, hl, start, k, o, rfl⟩ := hshows d hd
  exact hn.global (List.mem_map_of_mem hl) (hfits l hl) start k hi

end Chunk

def Program.HasFunc (p : Program) (r : Ref) : Prop := ∃ i : FunId, (p.funs[i]?).bind (·.ref) = some r

/-- Whether code uses slots of a program only, and leads to functions of the program only. -/
structure Chunk.Confined (p : Program) (h : Heap) (c : Chunk) : Prop where
  within : c.Within p.slots.size
  constants : ∀ v ∈ c.constants, h.Bare v ∨ ∃ r, v = .func r ∧ p.HasFunc r

/-- Whether functions of a program and slots, instances and code are still there. -/
structure Broadens (p : Program) (h : Heap) (q : Program) (h' : Heap) : Prop where
  funcs : ∀ r, p.HasFunc r → q.HasFunc r
  slots : p.slots.size ≤ q.slots.size
  insts : ∀ (r : Ref) i, h.inst? r = some i → ∃ j, h'.inst? r = some j ∧ j.fields.size = i.fields.size
  bodies : ∀ r f c, h.Body r f c → h'.Body r f c

namespace Broadens

variable {p q r : Program} {h h' h'' : Heap}

theorem refl (p : Program) (h : Heap) : Broadens p h p h :=
  ⟨fun _ hr => hr, Nat.le_refl _, fun _ i hi => ⟨i, hi, rfl⟩, fun _ _ _ hb => hb⟩

theorem trans (a : Broadens p h q h') (b : Broadens q h' r h'') : Broadens p h r h'' := by
  refine ⟨fun s hs => b.funcs s (a.funcs s hs), Nat.le_trans a.slots b.slots, fun s i hi => ?_,
    fun s f c hb => b.bodies s f c (a.bodies s f c hb)⟩
  obtain ⟨j, hj, hij⟩ := a.insts s i hi
  obtain ⟨k, hk, hjk⟩ := b.insts s j hj
  exact ⟨k, hk, hjk.trans hij⟩

theorem bare (a : Broadens p h q h') {v : Value} (hv : h.Bare v) : h'.Bare v := by
  rcases hv with hplain | ⟨r, i, rfl, hi, hsize⟩
  · exact .inl hplain
  · obtain ⟨j, hj, hij⟩ := a.insts r i hi
    exact .inr ⟨r, j, rfl, hj, hij.trans hsize⟩

theorem confined (a : Broadens p h q h') {c : Chunk} (hc : c.Confined p h) : c.Confined q h' :=
  ⟨hc.within.mono a.slots, fun v hv => (hc.constants v hv).imp a.bare
    fun ⟨r, heq, hr⟩ => ⟨r, heq, a.funcs r hr⟩⟩

end Broadens

theorem Heap.Bare.leads {h : Heap} {v : Value} (hv : h.Bare v) (P : Ref → Prop) : h.Leads P v := by
  rcases hv with hplain | ⟨r, i, rfl, hi, hsize⟩
  · exact .plain hplain
  · refine .inst hi fun w hw => ?_
    rw [Array.size_eq_zero_iff.mp hsize] at hw
    exact absurd hw (Array.not_mem_empty w)

theorem Chunk.Confined.leads {p : Program} {h : Heap} {c : Chunk} (hc : c.Confined p h) {P : Ref → Prop}
    (hP : ∀ r, p.HasFunc r → P r) {v : Value} (hv : v ∈ c.constants) : h.Leads P v := by
  rcases hc.constants v hv with hbare | ⟨r, rfl, hr⟩
  · exact hbare.leads P
  · exact .func (hP r hr)

theorem Program.object_host (p : Program) (i : HostId) : (p.object (.host i)).isPlain = true := by
  rw [Program.object]
  cases hx : (p.hosts[i]?).bind (·.object) with
  | none => rfl
  | some v =>
    obtain ⟨f, -, hf⟩ := Option.bind_eq_some_iff.mp hx
    obtain ⟨_, -, rfl⟩ := Option.map_eq_some_iff.mp hf
    rfl

theorem Program.object_bare {p : Program} {h : Heap} (hp : ∀ v ∈ p.objects, h.Bare v) (c : Callable) :
    h.Bare (p.object c) ∨ ∃ r, p.object c = .func r ∧ p.HasFunc r := by
  cases c with
  | user i =>
    rw [Program.object]
    cases hr : (p.funs[i]?).bind (·.ref) with
    | none => exact .inl (.inl rfl)
    | some r => exact .inr ⟨r, rfl, i, hr⟩
  | native name =>
    refine .inl (.inl ?_)
    rw [Program.object]
    cases hv : Native.object? name with
    | none => rfl
    | some v =>
      obtain ⟨_, _, -, rfl⟩ := object_native hv
      rfl
  | host i => exact .inl (.inl (p.object_host i))
  | ctor t i =>
    rcases object_ctor (p := p) t i with habsent | hmem
    · exact .inl (.inl (habsent ▸ rfl))
    · exact .inl (hp _ hmem)

theorem Program.Constant.bare {p : Program} {h : Heap} (hp : ∀ v ∈ p.objects, h.Bare v) {v : Value}
    (hv : p.Constant v) : h.Bare v ∨ ∃ r, v = .func r ∧ p.HasFunc r := by
  cases hv with
  | plain hplain => exact .inl (.inl hplain)
  | object c => exact p.object_bare hp c

/-- Whether what waits and what is named is there. -/
structure Program.Anchored (p : Program) : Prop where
  queued : ∃ n, p.Queued n
  named : p.Named
  founded : p.Founded
  held : p.Held

namespace Program.Anchored

variable {o p q : Program}

theorem committed (hn : p.Named) (hf : p.Founded) (hh : p.Held) (hb : q.bindings = p.bindings)
    (hs : q.scope = p.scope) (hc : p.Contained q) (hi : p.Inherits q) : q.commit.Anchored := by
  refine ⟨⟨q.bindings.size, fun b hge hg _ => absurd hg.1 (Nat.not_lt.mpr hge), fun b hb => ?_⟩,
    hn.of_eq hs (.of_eq hb), hf.of_eq hb ⟨hc.funs, hc.nextType, hc.types, hc.keyed⟩, hh.of_eq hb hi⟩
  exact absurd hb (Array.not_mem_empty b)

theorem restored (h : o.Anchored) (hp : o.Restored p) : p.Anchored := by
  obtain ⟨⟨n, hq⟩, hnamed, hfounded, hheld⟩ := h
  refine ⟨⟨n, hq.of_eq hp.bindings hp.pending⟩,
    fun name b hb => (hnamed name b (hp.names name ▸ hb)).steady (.of_eq hp.bindings),
    hfounded.of_eq hp.bindings ⟨Nat.le_of_eq (by rw [hp.funs]), hp.nextType, fun d hd => ?_,
      fun hk => hp.types ▸ hk⟩,
    hheld.of_eq hp.bindings (.of_types hp.types)⟩
  exact ⟨d, hp.types ▸ hd, rfl, Nat.le_refl _⟩

end Program.Anchored

namespace Engine

variable {e e' : Engine}

/-- What holds of the code of an engine's program. -/
structure Closed (e : Engine) : Prop where
  anchored : e.program.Anchored
  bare : ∀ v ∈ e.program.objects, e.heap.Bare v
  funcs : ∀ r, e.program.HasFunc r → ∃ f, e.heap.func? r = some f ∧
    ∀ c, f.chunk = some c → c.Confined e.program e.heap

abbrev Keeps (e e' : Engine) : Prop := Broadens e.program e.heap e'.program e'.heap

theorem Untouched.closed (h : e.Untouched e') (he : e.Closed) : e'.Closed ∧ e.Keeps e' := by
  have hheap : e'.heap = e.heap := by rw [heap, h.machine, heap]
  have hfuncs : ∀ r, e'.program.HasFunc r ↔ e.program.HasFunc r := fun r => by
    rw [HasFunc, HasFunc, h.program.funs]
  have hobjects : e'.program.objects = e.program.objects := by
    rw [Program.objects, h.program.types, Program.objects]
  have hkeeps : e.Keeps e' := by
    rw [Keeps, hheap]
    refine ⟨fun r => (hfuncs r).mpr, ?_, fun _ i hi => ⟨i, hi, rfl⟩, fun _ _ _ hb => hb⟩
    simpa using h.program.slots.length_le
  refine ⟨⟨he.anchored.restored h.program, hobjects ▸ hheap ▸ he.bare, fun r hr => ?_⟩, hkeeps⟩
  obtain ⟨f, hf, hcode⟩ := he.funcs r ((hfuncs r).mp hr)
  exact ⟨f, hheap ▸ hf, fun c hc => hkeeps.confined (hcode c hc)⟩

end Engine

namespace Program

variable {p q : Program} {h h' : Heap}

theorem insts_lasting (h₀ : Heap) : Lasting fun _ h => ∀ (r : Ref) i, h₀.inst? r = some i →
    h.inst? r = some i where
  subset hv _ := hv
  newFunc _ hv := hv
  newCtor _ hv := hv
  newInst typeName tag hv := fun r i hi => by
    have hlt := (Array.getElem?_eq_some_iff.mp (hv r i hi)).1
    rw [Heap.inst?, Heap.newInst, Array.getElem?_push_lt hlt, ← Array.getElem?_eq_getElem hlt]
    exact hv r i hi

theorem HasObjects.hasFunc_mono (ho : p.HasObjects h q h') {r : Ref} (hr : p.HasFunc r) : q.HasFunc r := by
  obtain ⟨i, hi⟩ := hr
  obtain ⟨f, hf, hfr⟩ := Option.bind_eq_some_iff.mp hi
  have hrel := ho.function i
  rw [hf] at hrel
  generalize hg : q.funs[i]? = x at hrel
  obtain ⟨hobject⟩ := hrel
  refine ⟨i, ?_⟩
  rw [hg]
  exact hobject.kept r hfr

theorem HasObjects.hasFunc (ho : p.HasObjects h q h') {r : Ref} (hr : q.HasFunc r) :
    p.HasFunc r ∨ ∃ f, h'.func? r = some f ∧ f.chunk = none := by
  obtain ⟨i, hi⟩ := hr
  obtain ⟨g, hg, hgr⟩ := Option.bind_eq_some_iff.mp hi
  obtain ⟨f, hf, hobject⟩ := ho.owner hg
  cases hfr : f.ref with
  | none =>
    obtain ⟨x, hx, -, hchunk⟩ := hobject.made r hfr hgr
    exact .inr ⟨x, hx, hchunk⟩
  | some r' =>
    obtain rfl := Option.some.inj (hgr.symm.trans (hobject.kept r' hfr))
    exact .inl ⟨i, by rw [hf]; exact hfr⟩

theorem makeObjects_broadens (p : Program) (h : Heap) :
    Broadens p h (p.makeObjects.run h).1 (p.makeObjects.run h).2 := by
  have ho := p.makeObjects_hasObjects h
  have hinsts := makeObjects_lasts (p := p) (h := h) (insts_lasting h) fun _ _ hi => hi
  refine ⟨fun r => ho.hasFunc_mono, Nat.le_of_eq ?_, fun r i hi => ⟨i, hinsts r i hi, rfl⟩,
    fun r f c hb => ⟨ho.heap.some hb.1, hb.2⟩⟩
  rw [ho.rest]

theorem Follows.hasFunc {o p : Program} (hp : Follows o.begin p) (r : Ref) : p.HasFunc r ↔ o.HasFunc r := by
  simp only [HasFunc, hp.longer.refs]
  rfl

end Program

theorem Lowering.DoesAll.bounded {K : Lowering} {u : Touches} {c : Assembly} {n : Nat} (h : K.DoesAll u c)
    (hu : u.Found K.program) (hn : ∀ b, (K.program.binding b).storage = .global →
      (K.program.binding b).index < n) : Bounded n (c.map (·.asm)) := by
  intro o i hmem ho
  obtain ⟨l, hl, hasm⟩ := List.mem_map.mp hmem
  obtain ⟨b, hstorage, rfl, -⟩ := (h l hl).global hu hasm ho
  exact hn b hstorage

theorem Lowers.initials.bounded {K : Lowering} {line : Int} {n : Nat} : {known : List (Nat × Value)} →
    {c : Assembly} → Lowers.initials K line known c → (∀ x ∈ known, x.1 < n) →
      Bounded n (c.map (·.asm))
  | [], _, h, _ => by
    obtain rfl := h
    exact fun _ _ hmem => absurd hmem List.not_mem_nil
  | (i, v) :: known, _, h, hn => by
    obtain ⟨-, a, b, ⟨k, -, -, rfl⟩, hb, rfl⟩ := h
    obtain ⟨hi, hknown⟩ := List.forall_mem_cons.mp hn
    have hrest := hb.bounded hknown
    rw [List.map_append]
    refine .append (fun o j hmem ho => ?_) hrest
    have hops : (Asm.op o [j] = .op .const [k]) ∨ Asm.op o [j] = .op .setGlobal [i] := by
      simpa [Lowering.word] using hmem
    rcases hops with heq | heq
    · obtain ⟨rfl, -⟩ := Asm.op.inj heq
      cases ho
    · obtain ⟨-, hj⟩ := Asm.op.inj heq
      exact (List.cons.inj hj).1 ▸ hi

namespace Engine.Builds

variable {e e' : Engine} {src : Source .typed} {r : Ref} {p q : Program} {K : Lowering} {h' : Heap}

theorem heap_eq (hb : e.Builds e' src r p q K h') : e'.heap = h' := by
  obtain rfl := hb.result
  rfl

theorem hasFunc (hb : e.Builds e' src r p q K h') (s : Ref) : e'.program.HasFunc s ↔ K.program.HasFunc s := by
  obtain rfl := hb.result
  unfold HasFunc
  simp only [← hb.compiles.ref]
  rfl

theorem inst? (hb : e.Builds e' src r p q K h') (i : Ref) :
    h'.inst? i = (p.makeObjects.run e.heap).2.inst? i := by
  obtain ⟨g, hg, -⟩ := hb.compiled.objects
  rw [hg]
  rfl

theorem keeps (hb : e.Builds e' src r p q K h') : e.Keeps e' := by
  have hmade := p.makeObjects_broadens e.heap
  rw [← hb.made] at hmade
  rw [Engine.Keeps, hb.heap_eq]
  refine ⟨fun s hs => ?_, ?_, fun i x hi => ?_, fun s f c hbody => ⟨hb.kept hbody.1 hbody.2, hbody.2⟩⟩
  · exact (hb.hasFunc s).mpr (hmade.funcs s ((hb.follows.hasFunc s).mpr hs))
  · have hlength : e.program.slots.toList.length ≤ p.slots.toList.length := hb.follows.longer.slots.length_le
    rw [hb.slots]
    simpa using hlength
  · obtain ⟨y, hy, hsize⟩ := hmade.insts i x hi
    exact ⟨y, (hb.inst? i).trans hy, hsize⟩

theorem bare (hb : e.Builds e' src r p q K h') (he : e.Closed) (hobjects : p.objects ⊆ e.program.objects) :
    ∀ v ∈ K.program.objects, h'.Bare v := by
  have hlasts := makeObjects_lasts (p := p) (h := e.heap) Heap.Bare.lasting fun v hv => he.bare v (hobjects hv)
  rw [← hb.made] at hlasts
  intro v hv
  rcases hlasts v hv with hplain | ⟨i, x, rfl, hi, hsize⟩
  · exact .inl hplain
  · exact .inr ⟨i, x, rfl, (hb.inst? i).trans hi, hsize⟩

theorem constants (hb : e.Builds e' src r p q K h') (hbare : ∀ v ∈ K.program.objects, h'.Bare v) {v : Value}
    (hv : K.program.Constant v) : e'.heap.Bare v ∨ ∃ s, v = .func s ∧ e'.program.HasFunc s := by
  rw [hb.heap_eq]
  exact (hv.bare hbare).imp_right fun ⟨s, heq, hs⟩ => ⟨s, heq, (hb.hasFunc s).mpr hs⟩

variable (hb : e.Builds e' src r p q K h') (hbare : ∀ v ∈ K.program.objects, h'.Bare v)
  (hbound : ∀ b, (K.program.binding b).storage = .global → (K.program.binding b).index < e'.program.slots.size)
include hb hbare hbound

theorem object_confined {d : FunDecl .typed} {f : UserFunction} {x : Function} (hd : K.compiled d)
    (hobject : K.Object f d x) : ∀ c, x.chunk = some c → c.Confined e'.program e'.heap := by
  intro c hc
  have hinner := Inner.stmts_all _ hb.inScope hb.formed
  have hlisted := hb.compiled.listed d hd
  refine ⟨?_, fun v hv => hb.constants hbare (hobject.constants c hc v hv)⟩
  obtain ⟨code, pool, file, hcode, hfunc, hends⟩ := hb.compiled.object_ends hb.objects hinner hd hobject
  obtain rfl := Option.some.inj (hc.symm.trans hcode)
  have hdoes := Lowers.func_does hfunc (Scoped.func.framed (hinner d hlisted).1)
  exact ⟨code, pool, file, hends.fits, hdoes.bounded (Touches.func_found hb.inScope hlisted) hbound, rfl⟩

theorem script_confined (hq : ∀ b ∈ p.pending, p.IsGlobal b) :
    ∃ x c, e'.heap.Body r x c ∧ c.Confined e'.program e'.heap := by
  obtain ⟨known, a, b, hknown, ha, hbehind, hscript, -⟩ := hb.compiled.script
  refine ⟨_, _, ⟨hb.heap_eq ▸ hscript, rfl⟩, ?_, fun v hv => hb.constants hbare (hb.compiled.constants v
    (by simpa using hv))⟩
  have hends := Lowers.script_ends (hb.compiled.suits hb.objects .top K.pool) ha hbehind hb.inScope hb.formed
    nofun
  have hbody := (Lowers.topStmts_does src.stmts hbehind ⟨List.Subset.refl _, List.Subset.refl _⟩).bounded
    (Touches.stmts_found hb.inScope) hbound
  refine ⟨a ++ b, K.pool, src.file, hends.fits, ?_, rfl⟩
  rw [List.map_append]
  refine .append (ha.bounded fun x hx => ?_) hbody
  obtain ⟨c, hmem, hindex, -⟩ := forall₂_mem hknown hx
  rw [hindex]
  refine hbound c ?_
  have hpending : K.program.pending = p.pending := by rw [hb.objects.rest]
  have hglobal := (hq c (Array.mem_toList_iff.mp (hpending ▸ hmem))).2
  rwa [Program.binding, hb.objects.bindings]

theorem closed (he : e.Closed) (hp : p.Anchored) : e'.Closed := by
  have hcontained := hb.compiles.contained
  have hresult := hb.result
  refine ⟨?_, ?_, fun s hs => ?_⟩
  · subst hresult
    refine .committed (p := K.program) ?_ ?_ ?_ hb.compiles.bindings ?_ hcontained (.of_types ?_)
    · exact hp.named.of_eq (by rw [hb.objects.rest]) (.of_eq hb.objects.bindings)
    · exact hp.founded.of_eq hb.objects.bindings hb.objects.contained
    · exact hp.held.of_eq hb.objects.bindings hb.objects.inherits
    · rw [hb.compiles.rest]
    · rw [hb.compiles.rest]
  · have hobjects : e'.program.objects = K.program.objects := by
      subst hresult
      show q.objects = K.program.objects
      rw [Program.objects, hb.compiles.rest, Program.objects]
    rw [hobjects, hb.heap_eq]
    exact hbare
  · -- The object of a function was there before the batch, or the batch made it.
    have hobject := hb.objects.hasFunc ((hb.hasFunc s).mp hs)
    have hmade : ∃ f, (p.makeObjects.run e.heap).2.func? s = some f := by
      rcases hobject with hold | ⟨f, hf, -⟩
      · obtain ⟨f, hf, -⟩ := he.funcs s ((hb.follows.hasFunc s).mp hold)
        exact ⟨f, hb.objects.heap.some hf⟩
      · exact ⟨f, hf⟩
    obtain ⟨f, hf⟩ := hmade
    have hlt : s < r := hb.compiled.fresh ▸ (Array.getElem?_eq_some_iff.mp hf).1
    obtain ⟨x, hx⟩ : ∃ x, h'.funcs[s]? = some x :=
      ⟨_, Array.getElem?_eq_getElem (by
        rw [hb.compiled.count, ← hb.compiled.fresh]
        exact Nat.lt_succ_of_lt hlt)⟩
    refine ⟨x, hb.heap_eq ▸ hx, fun c hc => ?_⟩
    rcases hb.compiled.functions s hlt x hx with ⟨d, hd, g, -, hcompiled⟩ | ⟨hsame, -⟩
    · exact hb.object_confined hbare hbound hd hcompiled c hc
    · rcases hobject with hold | ⟨g, hg, hnone⟩
      · obtain ⟨g, hg, hcode⟩ := he.funcs s ((hb.follows.hasFunc s).mp hold)
        obtain rfl := Option.some.inj ((hb.objects.heap.some hg).symm.trans hsame)
        exact hb.keeps.confined (hcode c hc)
      · obtain rfl := Option.some.inj (hg.symm.trans hsame)
        cases hc.symm.trans hnone

end Engine.Builds

end Scripting

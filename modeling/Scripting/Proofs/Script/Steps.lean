import Scripting.Proofs.Code.Layout
import Scripting.Proofs.Script.Emitting

/-!
# What the parts of code generation give
-/

namespace Scripting.Emit

variable {p : Program} {D : FunDecl .typed → Prop}

theorem checkWord_gives (c : Opcode) (n : Nat) (line : Int) :
    Gives p D (checkWord c n line) fun _ _ => n ≤ maxWord := by
  refine .ofModify fun s hs => ?_
  dsimp only
  split
  · refine ⟨⟨hs.program, hs.pool, hs.templates, hs.constants⟩,
      ⟨fun _ _ h => h, fun _ _ h => h, (fun h => nomatch h), fun _ => rfl, s.heap, rfl,
        Nat.le_refl _⟩, rfl, fun K _ hc => ?_⟩
    cases hc.fits
  · rename_i h
    refine ⟨hs, .refl s, rfl, fun K _ hc => ?_⟩
    simpa [hc.fits] using h

theorem word_gives (c : Opcode) (n : Nat) (line : Int) :
    Gives p D (word c n line) fun _ a => n ≤ maxWord ∧ a = Lowering.word c n line :=
  ((checkWord_gives c n line).bind fun _ => .ret (Lowering.word c n line)).mono
    fun _ _ _ ⟨_, hn, ha⟩ => ⟨hn, ha⟩

theorem intern_gives (v : Value) (hv : p.Constant v) : Gives p D (intern v) fun K k => K.Holds k v := by
  refine .ofModify fun s hs => ?_
  obtain ⟨hpool, ⟨w, hw, hkey⟩, hkeep⟩ := hs.pool.add v
  refine ⟨⟨hs.program, hpool, hs.templates, fun w hw => ?_⟩, ⟨hkeep, fun _ _ h => h, fun h => h,
    fun _ => rfl, s.heap,
    rfl, Nat.le_refl _⟩, rfl, fun K _ hc => ?_⟩
  · rcases Pool.mem_add hw with hw | rfl
    · exact hs.constants w hw
    · exact hv
  · exact ⟨w, hc.pool _ w hw, hkey⟩

theorem constant_gives (v : Value) (hv : p.Constant v) (line : Int) :
    Gives p D (constant v line) fun K c => K.Const v line c :=
  ((intern_gives v hv).bind fun k => word_gives .const k line).mono
    fun _ _ _ ⟨k, hk, hn, hc⟩ => ⟨k, hk, hn, hc⟩

theorem named_gives (o : Opcode) (name : String) (line : Int) :
    Gives p D (named o name line) fun K c => K.Named o name line c :=
  ((intern_gives (.str name) (.plain rfl)).bind fun k => word_gives o k line).mono
    fun _ _ _ ⟨k, hk, hn, hc⟩ => ⟨k, hk, hn, hc⟩

theorem template_gives {t : Template} (ht : p.HasRecord t) :
    Gives p D (template t) fun K v => K.template t v := by
  refine .ofModify fun s hs => ?_
  dsimp only
  split
  · rename_i v hv
    exact ⟨hs, .refl s, rfl, fun K _ hc => hc.template t v hv⟩
  · rename_i hnew
    refine ⟨⟨hs.program, hs.pool, fun n v h => ?_, hs.constants⟩, ⟨fun _ _ h => h, fun n v h => ?_, fun h => h,
      fun _ => rfl, (s.heap.newId).2, rfl, Nat.le_succ _⟩, rfl, fun K _ hc => hc.template t _ ?_⟩
    · rw [Std.TreeMap.getElem?_insert] at h
      split at h
      · rename_i hn
        obtain rfl : t.typeName = n := by simpa using hn
        obtain rfl := Option.some.inj h
        exact ⟨_, _, rfl, ht⟩
      · exact hs.templates n v h
    · rw [Std.TreeMap.getElem?_insert, if_neg]
      · exact h
      · intro hn
        obtain rfl : t.typeName = n := by simpa using hn
        rw [hnew] at h
        cases h
    · simp

theorem template_constant {t : Template} {s u : State} {v : Value} (hs : s.Sound p)
    (hrun : (template t).run s = .ok (v, u)) : p.Constant v := by
  have hmade : _ = v := congrArg Prod.fst (Except.ok.inj hrun)
  rw [← hmade]
  dsimp only
  split
  · rename_i w hw
    obtain ⟨i, fields, rfl, -⟩ := hs.templates _ w hw
    exact .plain rfl
  · exact .plain rfl

theorem binding_gives (b : BindingId) :
    Gives p D (binding b) fun K x => x = K.program.binding b :=
  .ofGet fun s hs => .pure fun K hp => by rw [hs.program.binding, hp]

theorem enter_gives (tok : Token) : Gives p D (enter tok) fun _ _ => True :=
  .ofModify fun s hs => ⟨⟨hs.program, hs.pool, hs.templates, hs.constants⟩, ⟨fun _ _ h => h, fun _ _ h => h,
    fun h => h, fun _ => rfl, s.heap, rfl, Nat.le_refl _⟩, rfl, fun _ _ _ => trivial⟩

theorem access_gives (b : BindingId) (line : Int) (global cell plain : Opcode) :
    Gives p D (do
      let x ← binding b
      match x.storage, x.captured with
      | .global, _ => word global x.index line
      | .frame, true => word cell x.index line
      | .frame, false => word plain x.index line) fun K c => K.Addressed b ∧
        c = Lowering.word (match (K.program.binding b).storage, (K.program.binding b).captured with
          | .global, _ => global
          | .frame, true => cell
          | .frame, false => plain) (K.program.binding b).index line := by
  refine ((binding_gives b).bind (Q := fun x _ c => x.index ≤ maxWord ∧
    c = Lowering.word (match x.storage, x.captured with
      | .global, _ => global
      | .frame, true => cell
      | .frame, false => plain) x.index line) fun x => ?_).mono ?_
  · split
    · exact word_gives global x.index line
    · exact word_gives cell x.index line
    · exact word_gives plain x.index line
  · rintro K c - ⟨x, rfl, hx⟩
    exact hx

theorem load_gives (b : BindingId) (line : Int) :
    Gives p D (load b line) fun K c => K.Addressed b ∧ c = K.load b line :=
  access_gives b line .getGlobal .getCell .getLocal

theorem declare_gives (b : BindingId) (line : Int) :
    Gives p D (declare b line) fun K c => K.Addressed b ∧ c = K.declare b line :=
  access_gives b line .setGlobal .makeCell .setLocal

theorem assign_gives (b : BindingId) (line : Int) :
    Gives p D (assign b line) fun K c => K.Addressed b ∧ c = K.assign b line :=
  access_gives b line .setGlobal .setCell .setLocal

theorem loadSlot_gives (s : Slot) (line : Int) :
    Gives p D (loadSlot s line) fun K c =>
      s.index ≤ maxWord ∧ c = Lowering.word (K.loadSlotOp s) s.index line := by
  obtain ⟨b, place, i⟩ := s
  cases place with
  | global => exact word_gives _ _ _
  | free => exact word_gives _ _ _
  | frame =>
    refine ((binding_gives b).bind fun x => word_gives _ i line).mono ?_
    rintro K c - ⟨x, rfl, hx⟩
    exact hx

theorem storeSlot_gives (s : Slot) (line : Int) :
    Gives p D (storeSlot s line) fun K c =>
      s.index ≤ maxWord ∧ c = Lowering.word (K.storeSlotOp s) s.index line := by
  obtain ⟨b, place, i⟩ := s
  cases place with
  | global => exact word_gives _ _ _
  | free => exact word_gives _ _ _
  | frame =>
    refine ((binding_gives b).bind fun x => word_gives _ i line).mono ?_
    rintro K c - ⟨x, rfl, hx⟩
    exact hx

theorem paramCell_gives (b : BindingId) (line : Int) :
    Gives p D (paramCell b line) fun K c =>
      ((K.program.binding b).captured = true → K.Addressed b) ∧ c = K.paramCell b line := by
  refine ((binding_gives b).bind (Q := fun x _ c => (x.captured = true → x.index ≤ maxWord) ∧
    c = if x.captured then Lowering.word .getLocal x.index line
      ++ Lowering.word .makeCell x.index line else []) fun x => ?_).mono ?_
  · split
    · refine ((word_gives _ _ _).bind fun a => (word_gives _ _ _).bind fun b => .ret (a ++ b)).mono ?_
      rintro K c - ⟨a, ⟨-, rfl⟩, b, ⟨hn, rfl⟩, rfl⟩
      exact ⟨fun _ => hn, rfl⟩
    · rename_i h
      exact .pure fun K _ => ⟨fun hx => absurd hx h, rfl⟩
  · rintro K c - ⟨x, rfl, hx⟩
    exact hx

theorem paramCells_gives {α : Type} (line : Int) (f : α → BindingId) : (xs : List α) →
    Gives p D (xs.mapM fun x => paramCell (f x) line) fun K cs =>
      (∀ b ∈ xs.map f, (K.program.binding b).captured = true → K.Addressed b) ∧
        cs.flatten = (xs.map f).flatMap fun b => K.paramCell b line
  | [] => .pure fun K _ => by simp
  | x :: xs => by
    rw [List.mapM_cons]
    refine ((paramCell_gives (f x) line).bind fun c => (paramCells_gives line f xs).bind fun cs =>
      .ret (c :: cs)).mono ?_
    rintro K _ - ⟨c, ⟨hb, rfl⟩, cs, ⟨hbs, hcs⟩, rfl⟩
    refine ⟨?_, by rw [List.flatten_cons, List.map_cons, List.flatMap_cons, hcs]⟩
    intro b h
    rcases List.mem_cons.mp h with rfl | h
    · exact hb
    · exact hbs b h

theorem call_gives (count : Nat) (tok : Token) :
    Gives p D (call count tok) fun _ c => count ≤ maxByte ∧ c = Lowering.call count tok.line := by
  rw [call]
  split
  · exact .refused
  · rename_i h
    exact .pure fun _ _ => ⟨Nat.le_of_not_lt h, rfl⟩

theorem checkWords_gives {α : Type} (c : Opcode) (line : Int) (f : α → Nat) : (xs : List α) →
    Gives p D (xs.forM fun x => checkWord c (f x) line) fun _ _ => ∀ x ∈ xs, f x ≤ maxWord
  | [] => .pure fun _ _ => by simp
  | x :: xs => by
    refine ((checkWord_gives c (f x) line).bind fun _ => checkWords_gives c line f xs).mono ?_
    rintro K _ - ⟨_, hx, hxs⟩
    simpa using ⟨hx, hxs⟩

theorem closure_gives (info : FunSlots) (tok : Token) :
    Gives p D (closure info tok) fun K c => K.Closure info tok.line c := by
  refine .ofGet fun s hs => ?_
  split
  · rename_i hf
    refine .pure fun K hp => ?_
    rw [Lowering.Closure, hp, hs.program.none hf]
  · rename_i f hf
    obtain ⟨g, hg, hbare⟩ := hs.program.some hf
    have href : f.bare.ref = g.bare.ref := congrArg UserFunction.ref hbare
    split
    · exact .refused
    · rename_i hlen
      have hconstant : p.Constant ((f.ref.map Value.func).getD .absent) := by
        rw [show f.ref = g.ref from href]
        have hobject := Program.Constant.object (p := p) (.user info.id)
        rwa [Program.object, hg, Option.bind_some] at hobject
      refine ((intern_gives ((f.ref.map Value.func).getD .absent) hconstant).bind fun k =>
        (checkWord_gives .closure k tok.line).bind fun _ =>
          (checkWords_gives .closure tok.line FreeVar.index info.free).bind fun _ =>
            .ret [(⟨tok.line, .closure k (info.free.map fun v => ⟨v.fromFrame, v.index⟩)⟩
              : Asm.Line)]).mono ?_
      rintro K c hp ⟨k, hk, _, hn, _, hfree, rfl⟩
      rw [Lowering.Closure, hp, hg]
      refine ⟨Nat.le_of_not_lt hlen, hfree, k, ?_, hn, rfl⟩
      exact (show f.ref = g.ref from href) ▸ hk

theorem nested_gives (info : FunSlots) (tok : Token) :
    Gives p D (nested info tok) fun K c => K.Nested info tok.line c := by
  rw [nested]
  cases hb : info.binding with
  | none => exact .pure fun K _ => by rw [Lowering.Nested, hb]
  | some b =>
    refine ((binding_gives b).bind (Q := fun x K c => match x.storage, x.captured with
      | .global, _ => c = []
      | .frame, true => x.index ≤ maxWord ∧ ∃ f, K.Closure info tok.line f ∧
          c = Assembly.op .unit tok.line ++ Lowering.word .makeCell x.index tok.line ++ f
            ++ Lowering.word .setCell x.index tok.line
      | .frame, false => x.index ≤ maxWord ∧ ∃ f, K.Closure info tok.line f ∧
          c = f ++ Lowering.word .setLocal x.index tok.line) fun x => ?_).mono ?_
    · cases x.storage with
      | global => exact .pure fun _ _ => rfl
      | frame =>
        cases x.captured with
        | true =>
          refine ((word_gives _ _ _).bind fun a => (closure_gives info tok).bind fun f =>
            (word_gives _ _ _).bind fun b => .ret (Assembly.op .unit tok.line ++ a ++ f ++ b)).mono ?_
          rintro K c - ⟨a, ⟨hn, rfl⟩, f, hf, b, ⟨-, rfl⟩, rfl⟩
          exact ⟨hn, f, hf, rfl⟩
        | false =>
          refine ((closure_gives info tok).bind fun f => (word_gives _ _ _).bind fun b =>
            .ret (f ++ b)).mono ?_
          rintro K c - ⟨f, hf, b, ⟨hn, rfl⟩, rfl⟩
          exact ⟨hn, f, hf, rfl⟩
    · rintro K c - ⟨x, rfl, hx⟩
      rw [Lowering.Nested, hb]
      exact hx

def bodyState (info : FunSlots) (f : UserFunction) (outer : Pool) (code : Assembly) (s : State) :
    State :=
  let chunk := code.chunk s.pool.values s.file
  let sig : Ty :=
    if f.result.isUnknown then .unknown else .func f.sig.params f.sig.result f.sig.variadic
  { s with
    pool := outer
    heap := match f.ref with
      | none => s.heap
      | some r => { s.heap with funcs := s.heap.funcs.modify r fun x => { x with
          localCount := info.localCount, freeCount := info.free.length, chunk := some chunk
          signature := sig } }
    program := s.program.modifyFun info.id fun f =>
      { f with localCount := info.localCount, freeCount := info.free.length, signature := sig } }

theorem withBody_cases (info : FunSlots) (body : UserFunction → Emit Assembly) (s : State) :
    (withBody info body).run s = match s.program.funs[info.id]? with
      | none => .ok ((), s)
      | some f => (body f).run { s with pool := {} } >>= fun r =>
          .ok ((), bodyState info f s.pool r.1 r.2) := by
  simp only [withBody, StateT.run_bind]
  change StateT.run (match s.program.funs[info.id]? with
    | none => _
    | some f => _) s = _
  split <;> rfl

theorem withBody_run {info : FunSlots} {body : UserFunction → Emit Assembly} {s : State}
    {f : UserFunction} (hf : s.program.funs[info.id]? = some f) :
    (withBody info body).run s
      = (body f).run { s with pool := {} } >>= fun r =>
          .ok ((), bodyState info f s.pool r.1 r.2) := by
  rw [withBody_cases, hf]

theorem withBody_none {info : FunSlots} {body : UserFunction → Emit Assembly} {s : State}
    (hf : s.program.funs[info.id]? = none) : (withBody info body).run s = .ok ((), s) := by
  rw [withBody_cases, hf]

theorem bodyState_heap (info : FunSlots) (f : UserFunction) (outer : Pool) (code : Assembly)
    (s : State) : (bodyState info f outer code s).heap
      = { s.heap with funcs := (bodyState info f outer code s).heap.funcs } := by
  rw [bodyState]
  cases f.ref <;> rfl

theorem bodyState_heads (info : FunSlots) (f : UserFunction) (outer : Pool) (code : Assembly)
    (s : State) (r : Ref) : ((bodyState info f outer code s).heap.funcs[r]?).map head
      = (s.heap.funcs[r]?).map head := by
  rw [bodyState]
  cases f.ref with
  | none => rfl
  | some r' =>
    simp only [Array.getElem?_modify]
    split
    · rw [Option.map_map]
      rfl
    · rfl

theorem Compiled.modify {K : Lowering} {d : FunDecl .typed} {f : UserFunction} {h : Heap}
    {g : Function → Function} (hf : K.program.funs[d.info.id]? = some f)
    (hg : ∀ x, K.Object f d (g x)) :
    K.Compiled [d] h (match f.ref with
      | none => h
      | some r => { h with funcs := h.funcs.modify r g }) := by
  intro r x hx
  cases href : f.ref with
  | none =>
    rw [href] at hx
    refine .inr ⟨hx, ?_⟩
    rintro e he f' ⟨hf', href'⟩
    obtain rfl := List.mem_singleton.mp he
    rw [hf] at hf'
    rw [← Option.some.inj hf', href] at href'
    cases href'
  | some r' =>
    rw [href] at hx
    simp only [Array.getElem?_modify] at hx
    split at hx
    · rename_i heq
      subst heq
      obtain ⟨y, -, rfl⟩ := Option.map_eq_some_iff.mp hx
      exact .inl ⟨d, by simp, f, ⟨hf, href⟩, hg y⟩
    · rename_i hne
      refine .inr ⟨hx, ?_⟩
      rintro e he f' ⟨hf', href'⟩
      obtain rfl := List.mem_singleton.mp he
      rw [hf] at hf'
      rw [← Option.some.inj hf', href] at href'
      exact hne (Option.some.inj href')

theorem withBody_gives {d : FunDecl .typed} (hd : D d) {body : UserFunction → Emit Assembly}
    (hbody : ∀ f g, p.funs[d.info.id]? = some g → f.bare = g.bare →
      Gives p D (body f) fun K c => Lowers.func K g d c) :
    Gives p D (withBody d.info body) fun K _ => K.compiled d := by
  intro s a t hs hm
  cases hf : s.program.funs[d.info.id]? with
  | none =>
    rw [withBody_none hf] at hm
    obtain ⟨-, rfl⟩ := Prod.mk.inj (Except.ok.inj hm)
    refine ⟨hs, .refl _, [d], by simpa using hd, fun K hp _ hds => ⟨hds d (by simp), ?_⟩⟩
    intro r x hx
    refine .inr ⟨hx, ?_⟩
    rintro e he f ⟨hf', -⟩
    obtain rfl := List.mem_singleton.mp he
    rw [hp, hs.program.none hf] at hf'
    cases hf'
  | some f =>
    rw [withBody_run hf] at hm
    obtain ⟨g, hg, hbare⟩ := hs.program.some hf
    obtain ⟨⟨code, u⟩, hrun, hm⟩ := Loading.exists_of_bind_ok hm
    obtain ⟨-, rfl⟩ := Prod.mk.inj (Except.ok.inj hm)
    have hinner : State.Sound p { s with pool := {} } := ⟨hs.program, .empty, hs.templates, by simp⟩
    obtain ⟨hu, hgrows, ds, hD, hK⟩ := hbody f g hg hbare _ code u hinner hrun
    have href : f.ref = g.ref := (congrArg UserFunction.ref hbare : f.bare.ref = g.bare.ref)
    refine ⟨⟨hu.program.trans (.modifyFun _ _ fun _ => rfl), hs.pool, hu.templates, hs.constants⟩,
      ⟨fun _ _ h => h, hgrows.templates, hgrows.overflow, ?_, ?_⟩, ds ++ [d], ?_,
      fun K hp hc hds => ⟨hds d (by simp), ?_⟩⟩
    · intro r
      rw [← hgrows.heads r, bodyState_heads]
    · obtain ⟨h, hh, hle⟩ := hgrows.objects
      refine ⟨(bodyState d.info f s.pool code u).heap, ?_, ?_⟩
      · rw [bodyState_heap, hh]
      · rw [bodyState_heap, hh]
        exact hle
    · intro e he
      rcases List.mem_append.mp he with he | he
      · exact hD e he
      · exact List.mem_singleton.mp he ▸ hd
    · obtain ⟨hlowers, hcompiled⟩ := hK { K with pool := u.pool.values } hp
        ⟨fun _ _ h => h, hc.template, hc.fits⟩ fun e he => hds e (List.mem_append_left _ he)
      refine Lowering.Compiled.append hcompiled.of_pool ?_
      have hobject := Compiled.modify (K := K) (d := d) (f := g) (h := u.heap) (hp ▸ hg)
        (g := fun x => { x with
          localCount := d.info.localCount, freeCount := d.info.free.length
          chunk := some (code.chunk u.pool.values u.file)
          signature := if f.result.isUnknown then .unknown
            else .func f.sig.params f.sig.result f.sig.variadic })
        fun x => ⟨⟨code, u.pool.values, u.file, rfl, hlowers⟩, rfl, rfl, fun c hc v hv => by
          obtain rfl := Option.some.inj hc
          rw [Assembly.chunk_constants] at hv
          exact hp ▸ hu.constants v hv⟩
      rw [← href] at hobject
      exact hobject

end Scripting.Emit

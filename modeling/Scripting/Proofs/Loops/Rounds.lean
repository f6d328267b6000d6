import Scripting.Proofs.Loops.Control

/-!
# Rounds

What each instruction that belongs to a loop itself does to the machine: those that only compute are known
to the value that they leave on the stack, and those that store by the variable that has the value then.

`Walk.Turning` says what the hidden variables of a loop hold, and `Walk.Place` what its own code has put on
the stack, by where the call is. Every step that stays in the loop preserves it: the index counts the rounds
that have ended, and the items that were stored are those of the series, one behind the other.
-/

namespace Scripting

namespace Exec

variable {m : Machine} {f : Frame} {fs : List Frame} {st : List Value} {v : Value} {n : Nat}

theorem getLocal_run (hm : m.frames = f :: fs) (hn : n < 256 ^ 2) (h : f.Ahead (littleEndian 2 n))
    (hv : f.locals[n]? = some v) :
    (operate .getLocal).run m = (.ok (), (m.withStack (v :: m.stack)).withFrames (f.skip 2 :: fs)) := by
  rw [← List.append_nil (littleEndian 2 n)] at h
  rw [operate, bind_run_of_ok (readWord_run hm (by decide) hn h)]
  have hlocal : (getLocal n).run (m.withFrames (f.skip 2 :: fs)) = (.ok v, m.withFrames (f.skip 2 :: fs)) := by
    rw [getLocal, bind_run_of_ok (frame_run rfl)]
    exact operandAt_run.mpr ⟨hv, rfl⟩
  rw [bind_run_of_ok hlocal]
  rfl

theorem getGlobal_run (hm : m.frames = f :: fs) (hn : n < 256 ^ 2) (h : f.Ahead (littleEndian 2 n))
    (hv : m.globals[n]? = some v) (hne : v ≠ .absent) :
    (operate .getGlobal).run m = (.ok (), (m.withStack (v :: m.stack)).withFrames (f.skip 2 :: fs)) := by
  rw [← List.append_nil (littleEndian 2 n)] at h
  rw [operate, bind_run_of_ok (readWord_run hm (by decide) hn h)]
  have hglobal : (m.withFrames (f.skip 2 :: fs)).global? n = some v := by
    rw [Machine.global?, show (m.withFrames (f.skip 2 :: fs)).globals = m.globals from rfl, hv]
    cases v <;> first | rfl | exact absurd rfl hne
  have hget : (get : Exec Machine).run (m.withFrames (f.skip 2 :: fs))
      = (.ok (m.withFrames (f.skip 2 :: fs)), m.withFrames (f.skip 2 :: fs)) := rfl
  rw [bind_run_of_ok hget, hglobal]
  rfl

theorem lt_run {a b : Int64} (hm : m.stack = .int b :: .int a :: st) :
    (operate .lt).run m = (.ok (), m.withStack (.bool (decide (a < b)) :: st)) := by
  obtain ⟨W, gs, st', fs, k⟩ := m
  obtain rfl : st' = .int b :: .int a :: st := hm
  have hrun : (operate .lt).run ⟨W, gs, .int b :: .int a :: st, fs, k⟩
      = (.ok (), ⟨W, gs, .bool (orderHolds .lt (compare a b)) :: st, fs, k⟩) := rfl
  have horder : orderHolds .lt (compare a b) = decide (a < b) := by
    show (compareOfLessAndEq a b == .lt) = _
    rw [compareOfLessAndEq]
    split
    · simp [*]
    · split <;> simp [*]
  rw [hrun, horder]
  rfl

theorem add_run {a b : Int64} (hm : m.stack = .int b :: .int a :: st) :
    (operate .add).run m = (.ok (), m.withStack (.int (a + b) :: st)) := by
  obtain ⟨W, gs, st', fs, k⟩ := m
  obtain rfl : st' = .int b :: .int a :: st := hm
  rfl

theorem len_run {r : Ref} (hm : m.stack = .array r :: st) : (operate .len).run m = (.ok (), m.withStack
    (.int (Int64.ofNat (((m.world.heap.array? r).map (·.items)).getD #[]).size) :: st)) := by
  obtain ⟨W, gs, st', fs, k⟩ := m
  obtain rfl : st' = .array r :: st := hm
  have hrun : (operate .len).run ⟨W, gs, .array r :: st, fs, k⟩ = (.ok (), ⟨W, gs,
    .int (Int64.ofNat (((W.heap.array? r).map (·.items.size)).getD 0)) :: st, fs, k⟩) := rfl
  rw [hrun, Machine.withStack]
  cases W.heap.array? r <;> rfl

theorem getElem_run {r : Ref} {i : Int64} (hm : m.stack = .int i :: .array r :: st)
    (hi : ¬ i < 0) (hv : (((m.world.heap.array? r).map (·.items)).getD #[])[i.toNatClampNeg]? = some v) :
    (operate .getElem).run m = (.ok (), m.withStack (v :: st)) := by
  obtain ⟨W, gs, st', fs, k⟩ := m
  obtain rfl : st' = .int i :: .array r :: st := hm
  have hpop : ∀ u us, pop.run ⟨W, gs, u :: us, fs, k⟩ = (.ok u, ⟨W, gs, us, fs, k⟩) := fun _ _ => rfl
  have hlook : (look fun h => (h.array? r).map (·.items)).run ⟨W, gs, st, fs, k⟩
      = (.ok ((W.heap.array? r).map (·.items)), ⟨W, gs, st, fs, k⟩) := rfl
  rw [show operate .getElem = element false from rfl, element, bind_run_of_ok (hpop _ _),
    bind_run_of_ok (hpop _ _)]
  dsimp only
  rw [bind_run_of_ok hlook, if_neg hi, hv]
  rfl

theorem jumpIfFalse_run {t : Nat} (hm : m.frames = f :: fs) (ht : t < 256 ^ 4) (h : f.Ahead (littleEndian 4 t))
    (hst : m.stack = v :: st) : (operate .jumpIfFalse).run m = (.ok (), (m.withStack st).withFrames
      ((if v.truthy then f.skip 4 else { f with ip := t }) :: fs)) := by
  rw [← List.append_nil (littleEndian 4 t)] at h
  rw [operate, bind_run_of_ok (readWord_run hm (by decide) ht h)]
  obtain ⟨W, gs, st', fs', b⟩ := m
  obtain rfl : st' = v :: st := hst
  have hpop : pop.run (Machine.withFrames ⟨W, gs, v :: st, fs', b⟩ (f.skip 4 :: fs))
      = (.ok v, ⟨W, gs, st, f.skip 4 :: fs, b⟩) := rfl
  rw [bind_run_of_ok hpop]
  cases v.truthy <;> rfl

theorem setLocal_run (hm : m.frames = f :: fs) (hn : n < 256 ^ 2) (h : f.Ahead (littleEndian 2 n))
    (hst : m.stack = v :: st) (hsize : n < f.locals.size) :
    (operate .setLocal).run m = (.ok (), (m.withStack st).withFrames
      ({ f.skip 2 with locals := f.locals.setIfInBounds n v } :: fs)) := by
  rw [← List.append_nil (littleEndian 2 n)] at h
  rw [operate, bind_run_of_ok (readWord_run hm (by decide) hn h)]
  obtain ⟨W, gs, st', fs', b⟩ := m
  obtain rfl : st' = v :: st := hst
  have hpop : pop.run (Machine.withFrames ⟨W, gs, v :: st, fs', b⟩ (f.skip 2 :: fs))
      = (.ok v, ⟨W, gs, st, f.skip 2 :: fs, b⟩) := rfl
  have hframe : frame.run ⟨W, gs, st, f.skip 2 :: fs, b⟩
      = (.ok (f.skip 2), ⟨W, gs, st, f.skip 2 :: fs, b⟩) := rfl
  rw [bind_run_of_ok hpop, setLocal, bind_run_of_ok hframe]
  dsimp only
  rw [if_pos (show n < (f.skip 2).locals.size from hsize)]
  rfl

theorem makeCell_run (hm : m.frames = f :: fs) (hn : n < 256 ^ 2) (h : f.Ahead (littleEndian 2 n))
    (hst : m.stack = v :: st) (hsize : n < f.locals.size) :
    (operate .makeCell).run m = (.ok (), (({ m with world := { m.world with
      heap := (m.world.heap.newCell v).2 } } : Machine).withStack st).withFrames
        ({ f.skip 2 with locals := f.locals.setIfInBounds n (.cell m.world.heap.cells.size) } :: fs)) := by
  rw [← List.append_nil (littleEndian 2 n)] at h
  rw [operate, bind_run_of_ok (readWord_run hm (by decide) hn h)]
  obtain ⟨⟨H, o⟩, gs, st', fs', b⟩ := m
  obtain rfl : st' = v :: st := hst
  have hpop : pop.run (Machine.withFrames ⟨⟨H, o⟩, gs, v :: st, fs', b⟩ (f.skip 2 :: fs))
      = (.ok v, ⟨⟨H, o⟩, gs, st, f.skip 2 :: fs, b⟩) := rfl
  have hcell : (onHeap fun h => h.newCell v).run ⟨⟨H, o⟩, gs, st, f.skip 2 :: fs, b⟩
      = (.ok H.cells.size, ⟨⟨(H.newCell v).2, o⟩, gs, st, f.skip 2 :: fs, b⟩) := rfl
  have hframe : frame.run ⟨⟨(H.newCell v).2, o⟩, gs, st, f.skip 2 :: fs, b⟩
      = (.ok (f.skip 2), ⟨⟨(H.newCell v).2, o⟩, gs, st, f.skip 2 :: fs, b⟩) := rfl
  rw [bind_run_of_ok hpop, bind_run_of_ok hcell, setLocal, bind_run_of_ok hframe]
  dsimp only
  rw [if_pos (show n < (f.skip 2).locals.size from hsize)]
  rfl

theorem setGlobal_run (hm : m.frames = f :: fs) (hn : n < 256 ^ 2) (h : f.Ahead (littleEndian 2 n))
    (hst : m.stack = v :: st) : (operate .setGlobal).run m = (.ok (),
      (({ m with globals := storeGlobal m.globals n v } : Machine).withStack st).withFrames
        (f.skip 2 :: fs)) := by
  rw [← List.append_nil (littleEndian 2 n)] at h
  rw [operate, bind_run_of_ok (readWord_run hm (by decide) hn h)]
  obtain ⟨W, gs, st', fs', b⟩ := m
  obtain rfl : st' = v :: st := hst
  rfl

theorem loop_run {t b : Nat} (hm : m.frames = f :: fs) (ht : t < 256 ^ 4) (h : f.Ahead (littleEndian 4 t))
    (hb : m.budget = b + 1) :
    loop.run m = (.ok (), ({ m with budget := b } : Machine).withFrames ({ f with ip := t } :: fs)) := by
  rw [← List.append_nil (littleEndian 4 t)] at h
  rw [loop, bind_run_of_ok (readWord_run hm (by decide) ht h)]
  obtain ⟨W, gs, st, fs', b'⟩ := m
  obtain rfl : b' = b + 1 := hb
  rfl

theorem loop_fails {t : Nat} (hm : m.frames = f :: fs) (ht : t < 256 ^ 4) (h : f.Ahead (littleEndian 4 t))
    (hb : m.budget = 0) : ∃ m', loop.run m = (.error (.message "context canceled"), m') := by
  rw [← List.append_nil (littleEndian 4 t)] at h
  rw [loop, bind_run_of_ok (readWord_run hm (by decide) ht h)]
  obtain ⟨W, gs, st, fs', b'⟩ := m
  obtain rfl : b' = 0 := hb
  exact ⟨_, rfl⟩

end Exec

namespace Post

variable {p : Post} {m m' : Machine} {L : Listing} {f f' : Frame} {fs : List Frame} {i j : Nat}
  {ws : List (List Nat)} {st : List Value} {v : Value} {x : Binding} {c : Opcode} {ns : List Nat}

/-- A step that changes nothing but the stack and where the call is. -/
structure Turns (p : Post) (m : Machine) (f : Frame) (st : List Value) (j : Nat) (m' : Machine) : Prop where
  next : m.next = .inl m'
  holds : p.Holds m' [] { f with ip := p.code.start j } j
  stack : m'.stack = st
  globals : m'.globals = m.globals
  world : m'.world = m.world

theorem Turns.valueOf (h : p.Turns m f st j m') (x : Binding) :
    m'.valueOf { f with ip := p.code.start j } x = m.valueOf f x := by
  unfold Machine.valueOf
  rw [h.globals, h.world]

theorem Running.operand {n : Nat} (hr : p.Running m L f fs i) (hi : p.asms[i]? = some (.op c [n]))
    (hw : c.widths = [2]) : n < 256 ^ 2 ∧ f.Ahead (c.byte :: littleEndian 2 n) ∧
      L.limits.Asks (L.shape i) c [n] := by
  obtain ⟨l, hl, hasm⟩ := Listing.exists_of_asms (hr.asms ▸ hi)
  have hahead := hr.here.ahead hr.sound hl
  have hgood := hr.sound.good hl
  rw [hasm] at hahead hgood
  obtain ⟨⟨-, hfits⟩, -, hasks, -⟩ := hgood
  obtain ⟨_, hn, hbound⟩ := Exec.exists_word hw hfits
  obtain ⟨rfl, -⟩ := List.cons.inj hn
  refine ⟨hbound, ?_, hasks⟩
  rw [Asm.bytes, hw] at hahead
  simpa using hahead

section

variable (hp : p.Sound) (hs : m.Stands ws) (h : p.Holds m [] f i)
include hp hs h

theorem Holds.turns {n : Nat} {a : Asm} (hi : p.asms[i]? = some a) (hcalm : a.Calm)
    (hgo : ∀ k, a.GoesTo i k → k = i + 1) {m₁ : Machine} (hnext : m.next = .inl m₁)
    (hframes : m₁.frames = f.skip n :: fs) (hglobals : m₁.globals = m.globals) (hworld : m₁.world = m.world) :
    p.Turns m f m₁.stack (i + 1) m₁ := by
  have hholds : p.Holds m₁ [] (f.skip n) (i + 1) := by
    rcases h.next hp hs hnext with ⟨ha, hgoes, hholds, -⟩ | ⟨ha, -⟩ | ⟨ha, hc, -⟩
    · obtain rfl := Option.some.inj (hi.symm.trans ha)
      obtain rfl := hgo _ hgoes
      obtain ⟨fs', hframes', -⟩ := hholds.frames
      obtain ⟨rfl, -⟩ := List.cons.inj (hframes.symm.trans hframes')
      exact hholds
    · rw [Option.some.inj (hi.symm.trans ha)] at hcalm
      exact absurd rfl hcalm.1
    · rw [Option.some.inj (hi.symm.trans ha)] at hcalm
      exact (hc.elim hcalm.2.1 hcalm.2.2).elim
  have hip : f.skip n = { f with ip := p.code.start (i + 1) } := by
    rw [← hholds.ip]
    rfl
  exact ⟨hnext, hip ▸ hholds, rfl, hglobals, hworld⟩

theorem Holds.plain (hi : p.asms[i]? = some (.op c [])) (hcalm : (Asm.op c []).Calm)
    (hrun : ∀ m₁ : Machine, m₁.stack = m.stack → m₁.world = m.world →
      (Exec.operate c).run m₁ = (.ok (), m₁.withStack st)) : ∃ m', p.Turns m f st (i + 1) m' := by
  obtain ⟨L, fs, hr⟩ := h.runs hp hs
  obtain ⟨l, hl, hasm⟩ := Listing.exists_of_asms (hr.asms ▸ hi)
  have hahead := hr.here.ahead hr.sound hl
  rw [hasm] at hahead
  exact ⟨_, h.turns hp hs hi hcalm (fun _ hgo => hgo) (Exec.next_of_operate hr.frames hahead hcalm.2.1 hcalm.2.2
    (hrun (m.withFrames (f.skip 1 :: fs)) rfl rfl)) rfl rfl rfl⟩

theorem Holds.word {n : Nat} (hi : p.asms[i]? = some (.op c [n])) (hcalm : (Asm.op c [n]).Calm)
    (hw : c.widths = [2]) (hstores : Frame.Stores f.locals f.locals c [n]) (hcell : c ≠ .makeCell)
    (hrun : ∀ (m₁ : Machine) (fs : List Frame), m₁.frames = f.skip 1 :: fs → n < 256 ^ 2 →
      (f.skip 1).Ahead (littleEndian 2 n) → m₁.stack = m.stack → m₁.globals = m.globals → m₁.world = m.world →
        (Exec.operate c).run m₁ = (.ok (), (m₁.withStack st).withFrames ((f.skip 1).skip 2 :: fs))) :
    ∃ m', p.Turns m f st (i + 1) m' := by
  obtain ⟨L, fs, hr⟩ := h.runs hp hs
  obtain ⟨hn, hahead, -⟩ := hr.here.word hr.sound (hr.asms ▸ hi) hw hstores hcell hcalm.2.1
  have hnext := Exec.next_of_operate hr.frames hahead hcalm.2.1 hcalm.2.2
    (hrun (m.withFrames (f.skip 1 :: fs)) fs rfl hn hahead.tail rfl rfl rfl)
  rw [Frame.skip_skip] at hnext
  exact ⟨_, h.turns hp hs hi hcalm (fun _ hgo => hgo) hnext rfl rfl rfl⟩

theorem Holds.load (hi : p.asms[i]? = some (Walk.load x)) (hx : x.captured = false)
    (hv : m.valueOf f x = some v) (hne : v ≠ .absent) : ∃ m', p.Turns m f (v :: m.stack) (i + 1) m' := by
  unfold Walk.load Lowering.loadOp at hi
  rw [Machine.valueOf] at hv
  cases hstorage : x.storage with
  | global =>
    rw [hstorage] at hi hv
    refine h.word hp hs hi (by simp) rfl rfl (by simp) fun m₁ fs hframes hn hahead hstack hglobals _ => ?_
    rw [Exec.getGlobal_run hframes hn hahead (hglobals ▸ hv) hne, hstack]
  | frame =>
    rw [hstorage, hx] at hi hv
    refine h.word hp hs hi (by simp) rfl rfl (by simp) fun m₁ fs hframes hn hahead hstack _ _ => ?_
    rw [Exec.getLocal_run hframes hn hahead hv, hstack]

theorem Holds.const {k : Nat} (hi : p.asms[i]? = some (.op .const [k])) (hv : p.pool[k]? = some v) :
    ∃ m', p.Turns m f (v :: m.stack) (i + 1) m' := by
  obtain ⟨L, fs, hr⟩ := h.runs hp hs
  have hconstant : f.chunk.constants[k]? = some v := by
    rw [hr.here.constants, hr.pool]
    exact hv
  refine h.word hp hs hi (by simp) rfl rfl (by decide) fun m₁ fs hframes hn hahead hstack _ _ => ?_
  rw [← List.append_nil (littleEndian 2 k)] at hahead
  rw [Exec.const_run (f := f.skip 1) hframes hahead hn hconstant, hstack]

theorem Holds.check {n : Nat} (hi : p.asms[i]? = some (.skipIfFalse n)) (hst : m.stack = v :: st) :
    ∃ m', p.Turns m f st (if v.truthy then i + 1 else i + 1 + n) m' := by
  obtain ⟨L, fs, hr⟩ := h.runs hp hs
  obtain ⟨l, hl, hasm⟩ := Listing.exists_of_asms (hr.asms ▸ hi)
  have hahead := hr.here.ahead hr.sound hl
  have hgood := hr.sound.good hl
  rw [hasm] at hahead hgood
  obtain ⟨-, hin, -⟩ := hgood
  obtain ⟨hstart, hfits⟩ := Exec.start_fits hr.sound (Nat.le_of_lt hin)
  rw [Asm.bytes, hstart] at hahead
  have hnext := Exec.next_of_operate hr.frames hahead (by decide) (by decide)
    (Exec.jumpIfFalse_run (m := m.withFrames (f.skip 1 :: fs)) rfl hfits hahead.tail hst)
  generalize hf : (if v.truthy then (f.skip 1).skip 4
    else { f.skip 1 with ip := L.code.offset (i + 1 + n) }) = f₁
    at hnext
  have hplace : f₁ = { f with ip := p.code.start (if v.truthy then i + 1 else i + 1 + n) } := by
    rw [← hf, ← start_eq hr.asms]
    cases v.truthy with
    | true =>
      rw [if_pos rfl, if_pos rfl, Assembly.start_eq (by omega), Assembly.offset_succ hl, hasm, ← hr.here.ip]
      rfl
    | false =>
      rw [if_neg Bool.false_ne_true, if_neg Bool.false_ne_true, hstart]
      rfl
  have hholds : p.Holds ((m.withStack st).withFrames (f₁ :: fs)) [] f₁
      (if v.truthy then i + 1 else i + 1 + n) := by
    refine ⟨⟨fs, rfl, hr.depth⟩, hplace ▸ h.chunk, hplace ▸ rfl, ?_⟩
    have hlength := congrArg List.length hr.asms
    rw [Listing.asms, List.length_map, asms_length] at hlength
    split <;> omega
  subst hplace
  exact ⟨_, hnext, hholds, rfl, rfl, rfl⟩

theorem Holds.jump {n b : Nat} (hi : p.asms[i]? = some (.back n)) (hb : m.budget = b + 1) :
    ∃ m', p.Turns m f m.stack (i - n) m' := by
  obtain ⟨L, fs, hr⟩ := h.runs hp hs
  obtain ⟨l, hl, hasm⟩ := Listing.exists_of_asms (hr.asms ▸ hi)
  have hahead := hr.here.ahead hr.sound hl
  rw [hasm] at hahead
  have hin : i - n < L.code.length := Nat.lt_of_le_of_lt (Nat.sub_le i n) hr.here.inside
  obtain ⟨hstart, hfits⟩ := Exec.start_fits hr.sound (Nat.le_of_lt hin)
  rw [Asm.bytes, hstart] at hahead
  have hnext := Exec.next_of_operate hr.frames hahead (by decide) (by decide)
    (Exec.loop_run (m := m.withFrames (f.skip 1 :: fs)) rfl hfits hahead.tail hb)
  have hplace : ({ f.skip 1 with ip := L.code.offset (i - n) } : Frame)
      = { f with ip := p.code.start (i - n) } := by
    rw [← start_eq hr.asms, hstart]
    rfl
  rw [hplace] at hnext
  have hlength := congrArg List.length hr.asms
  rw [Listing.asms, List.length_map, asms_length] at hlength
  exact ⟨_, hnext, ⟨⟨fs, rfl, hr.depth⟩, h.chunk, rfl, hlength ▸ hin⟩, rfl, rfl, rfl⟩

theorem Holds.jump_fails {n : Nat} (hi : p.asms[i]? = some (.back n)) (hb : m.budget = 0) :
    ∃ d m', m.next = .inr (.failed d, m') := by
  obtain ⟨L, fs, hr⟩ := h.runs hp hs
  obtain ⟨l, hl, hasm⟩ := Listing.exists_of_asms (hr.asms ▸ hi)
  have hahead := hr.here.ahead hr.sound hl
  rw [hasm] at hahead
  have hin : i - n < L.code.length := Nat.lt_of_le_of_lt (Nat.sub_le i n) hr.here.inside
  obtain ⟨hstart, hfits⟩ := Exec.start_fits hr.sound (Nat.le_of_lt hin)
  rw [Asm.bytes, hstart] at hahead
  obtain ⟨m', hloop⟩ := Exec.loop_fails (m := m.withFrames (f.skip 1 :: fs)) rfl hfits hahead.tail hb
  have hstep : Exec.step.run m = (.error (.message "context canceled"), m') := by
    rw [Exec.step_run hr.frames hahead, Exec.execute_eq (by decide) (by decide), Exec.bind_run]
    rw [show Exec.operate .loop = Exec.loop from rfl, hloop]
  refine ⟨m'.report (.message "context canceled"), m', ?_⟩
  rw [Machine.next, hstep]
  rfl

theorem Holds.declare (hi : p.asms[i]? = some (Walk.declare x)) (hst : m.stack = v :: st) :
    ∃ m' f', m.next = .inl m' ∧ p.Holds m' [] f' (i + 1) ∧ m'.stack = st ∧ m'.valueOf f' x = some v ∧
      ∀ y u, (y.storage, y.index) ≠ (x.storage, x.index) → y.captured = false → m.valueOf f y = some u →
        m'.valueOf f' y = some u := by
  obtain ⟨L, fs, hr⟩ := h.runs hp hs
  have hcalm := Walk.calm_declare x
  -- What is known of the stored value is known of the other variables by what the step does.
  suffices hstored : ∃ m' f', m.next = .inl m' ∧ m'.frames = f' :: fs ∧ m'.stack = st ∧
      m'.valueOf f' x = some v by
    obtain ⟨m', f', hnext, hframes, hstack, hvalue⟩ := hstored
    rcases h.next hp hs hnext with ⟨ha, hgo, hholds, hdoes⟩ | ⟨ha, -⟩ | ⟨ha, hc, -⟩
    · obtain rfl := Option.some.inj (hi.symm.trans ha)
      obtain rfl : _ = i + 1 := hgo
      obtain ⟨fs', hframes', -⟩ := hholds.frames
      obtain ⟨rfl, -⟩ := List.cons.inj (hframes.symm.trans hframes')
      refine ⟨m', _, hnext, hholds, hstack, hvalue, fun y u hne hy hu => hdoes.valueOf
        (Walk.declare_spares hne) hy hu⟩
    · rw [Option.some.inj (hi.symm.trans ha)] at hcalm
      exact absurd rfl hcalm.1
    · rw [Option.some.inj (hi.symm.trans ha)] at hcalm
      exact (hc.elim hcalm.2.1 hcalm.2.2).elim
  unfold Walk.declare Lowering.declareOp at hi
  cases hstorage : x.storage with
  | global =>
    rw [hstorage] at hi
    obtain ⟨hn, hahead, -⟩ := hr.operand hi rfl
    have hrun := Exec.setGlobal_run (m := m.withFrames (f.skip 1 :: fs)) rfl hn hahead.tail hst
    refine ⟨_, _, Exec.next_of_operate hr.frames hahead (by simp) (by simp) hrun, rfl, rfl, ?_⟩
    rw [Machine.valueOf, hstorage]
    exact Exec.getElem?_storeGlobal_self _ _ _
  | frame =>
    cases hx : x.captured with
    | false =>
      rw [hstorage, hx] at hi
      obtain ⟨hn, hahead, hasks⟩ := hr.operand hi rfl
      have hsize : x.index < f.locals.size := Nat.lt_of_lt_of_le hasks hr.here.locals
      have hrun := Exec.setLocal_run (m := m.withFrames (f.skip 1 :: fs)) rfl hn hahead.tail hst hsize
      refine ⟨_, _, Exec.next_of_operate hr.frames hahead (by simp) (by simp) hrun, rfl, rfl, ?_⟩
      rw [Machine.valueOf, hstorage, hx]
      exact Array.getElem?_setIfInBounds_self_of_lt hsize
    | true =>
      rw [hstorage, hx] at hi
      obtain ⟨hn, hahead, hasks⟩ := hr.operand hi rfl
      have hsize : x.index < f.locals.size := Nat.lt_of_lt_of_le hasks hr.here.locals
      have hrun := Exec.makeCell_run (m := m.withFrames (f.skip 1 :: fs)) rfl hn hahead.tail hst hsize
      refine ⟨_, _, Exec.next_of_operate hr.frames hahead (by simp) (by simp) hrun, rfl, rfl, ?_⟩
      rw [Machine.valueOf, hstorage, hx]
      dsimp only
      rw [Array.getElem?_setIfInBounds_self_of_lt (show x.index < (f.skip 1).locals.size from hsize)]
      exact Array.getElem?_push_size

end

end Post

namespace Series

def base : Series → Int
  | range start _ => start.toInt
  | array _ => 0

/-- What the index is when some rounds have ended. -/
def index (s : Series) (n : Nat) : Int64 := Int64.ofInt (s.base + n)

def limit : Series → Value
  | range _ stop => .int stop
  | array r => .array r

/-- What the index is compared with. -/
def stop (h : Heap) : Series → Int64
  | range _ stop => stop
  | array r => Int64.ofNat (((h.array? r).map (·.items)).getD #[]).size

variable {s : Series} {h : Heap} {n : Nat} {v : Value}

theorem integers_getElem? {a b : Int64} :
    (integers a b)[n]? = if a.toInt + n < b.toInt then some (.int (Int64.ofInt (a.toInt + n))) else none := by
  unfold integers
  rw [List.getElem?_map]
  split
  · rename_i hlt
    rw [List.getElem?_range (Int.lt_toNat.mpr (by omega))]
    rfl
  · rename_i hge
    rw [List.getElem?_eq_none (by rw [List.length_range]; omega)]
    rfl

theorem held_isSome (items : Array Value) (n : Nat) :
    (if (n : Int) < (Int64.ofNat items.size).toInt then items[n]? else none).isSome
      = decide ((n : Int) < (Int64.ofNat items.size).toInt) := by
  split
  · rename_i hlt
    have hsize : (Int64.ofNat items.size).toInt ≤ items.size := by
      have hmod : (items.size : Int) % Int64.size ≤ items.size := by
        rw [← Int.natCast_mod]
        exact Int.ofNat_le.mpr (Nat.mod_le _ _)
      rw [Int64.toInt_ofNat', Int.bmod_def]
      split
      · exact hmod
      · exact Int.le_trans (Int.sub_le_self _ (Int.natCast_nonneg _)) hmod
    rw [Array.getElem?_eq_getElem (Int.ofNat_lt.mp (Int.lt_of_lt_of_le hlt hsize)), decide_eq_true hlt]
    rfl
  · rename_i hge
    rw [decide_eq_false hge]
    rfl

theorem item?_isSome : (s.item? h n).isSome = decide (s.base + n < (s.stop h).toInt) := by
  cases s with
  | range a b =>
    rw [item?, integers_getElem?]
    unfold base stop
    split <;> simp [*]
  | array r =>
    unfold base
    rw [Int.zero_add]
    exact held_isSome _ n

theorem item?_range {a b : Int64} (hv : (range a b).item? h n = some v) : v = .int ((range a b).index n) := by
  rw [item?, integers_getElem?] at hv
  split at hv
  · exact (Option.some.inj hv).symm
  · cases hv

theorem base_le (s : Series) : -2 ^ 63 ≤ s.base := by
  cases s with
  | range a b => exact a.le_toInt
  | array r => exact (by decide : (-2 ^ 63 : Int) ≤ 0)

theorem toInt_index (hn : s.base + n < 2 ^ 63) : (s.index n).toInt = s.base + n :=
  Int64.toInt_ofInt_of_le (by have := s.base_le; omega) hn

theorem index_lt_stop (hn : s.base + n < 2 ^ 63) :
    decide (s.index n < s.stop h) = (s.item? h n).isSome := by
  rw [item?_isSome, decide_eq_decide, Int64.lt_iff_toInt_lt, toInt_index hn]

theorem item?_array {r : Ref} (hn : (array r).base + n < 2 ^ 63) (hv : (array r).item? h n = some v) :
    ¬ (array r).index n < 0 ∧
      (((h.array? r).map (·.items)).getD #[])[((array r).index n).toNatClampNeg]? = some v := by
  have hindex := toInt_index hn
  rw [base, Int.zero_add] at hindex
  constructor
  · rw [Int64.lt_iff_toInt_lt, hindex]
    exact not_lt.mpr (Int.natCast_nonneg n)
  · rw [← Int64.toNat_toInt, hindex, Int.toNat_natCast]
    unfold item? at hv
    dsimp only at hv
    split at hv
    · exact hv
    · cases hv

theorem room (h : (s.item? h n).isSome) : s.base + (n + 1 : Nat) < 2 ^ 63 := by
  rw [item?_isSome, decide_eq_true_eq] at h
  have hstop := (s.stop ‹Heap›).toInt_lt
  omega

theorem index_succ : s.index n + 1 = s.index (n + 1) := by
  unfold index
  rw [Int.natCast_succ, ← Int.add_assoc, Int64.ofInt_add (s.base + n) 1]
  rfl

def work (s : Series) (h : Heap) (n : Nat) (d : Nat) : List Value :=
  match s, d with
  | range .., 1 => [.int (s.index n)]
  | range .., 2 => [s.limit, .int (s.index n)]
  | range .., 3 => [.bool (s.item? h n).isSome]
  | range .., 5 => (s.item? h n).toList
  | array _, 1 => [.int (s.index n)]
  | array _, 2 => [s.limit, .int (s.index n)]
  | array _, 3 => [.int (s.stop h), .int (s.index n)]
  | array _, 4 => [.bool (s.item? h n).isSome]
  | array _, 6 => [s.limit]
  | array _, 7 => [.int (s.index n), s.limit]
  | array _, 8 => (s.item? h n).toList
  | _, _ => []

def counted (s : Series) (n : Nat) : Nat → List Value
  | 1 => [.int (s.index n)]
  | 2 => [.int 1, .int (s.index n)]
  | 3 => [.int (s.index (n + 1))]
  | _ => []

def isRange : Series → Bool
  | range .. => true
  | array _ => false

end Series

theorem Lap.Over.isRange {b : Bool} {lap : Lap} {s : Series} (h : lap.Over b s) : b = s.isRange := by
  cases s with
  | range => exact h.1
  | array => exact h.1

namespace Walk

variable {w : Walk} {p : Post} {s : Series} {m : Machine} {f : Frame} {ws : List (List Nat)} {n d : Nat}
  {st : List Value}

section

variable (hw : w.Stands p.pool p.asms) (hp : p.Sound) (hs : m.Stands ws)
  (hindex : m.valueOf f w.index = some (.int (s.index n)))
include hw hp hs hindex

theorem Stands.load_index {i : Nat} (h : p.Holds m [] f i) (hi : p.asms[i]? = some (load w.index)) :
    ∃ m', p.Turns m f (.int (s.index n) :: m.stack) (i + 1) m' :=
  h.load hp hs hi hw.plain.1 hindex nofun

theorem Stands.counts (h : p.Holds m [] f (w.stepAt + d)) (hd : d < 3) (hst : m.stack = s.counted n d ++ st) :
    ∃ m', p.Turns m f (s.counted n (d + 1) ++ st) (w.stepAt + d + 1) m' := by
  have hat := hw.count
  unfold Walk.count at hat
  match d, hd with
  | 0, _ =>
    have hturns := hw.load_index hp hs hindex h (hat 0 _ rfl)
    rw [hst] at hturns
    exact hturns
  | 1, _ =>
    have hturns := h.const hp hs (hat 1 _ rfl) hw.one
    rw [hst] at hturns
    exact hturns
  | 2, _ =>
    refine h.plain hp hs (hat 2 _ rfl) (by simp) fun m₁ hstack _ => ?_
    rw [Exec.add_run (hstack.trans hst), Series.index_succ]
    rfl

variable (hlimit : m.valueOf f w.limit = some s.limit)
include hlimit

theorem Stands.load_limit {i : Nat} (h : p.Holds m [] f i) (hi : p.asms[i]? = some (load w.limit)) :
    ∃ m', p.Turns m f (s.limit :: m.stack) (i + 1) m' :=
  h.load hp hs hi hw.plain.2 hlimit (by cases s <;> nofun)

variable (hr : w.isRange = s.isRange) (hroom : s.base + n < 2 ^ 63)
include hr hroom

theorem Stands.works (h : p.Holds m [] f (w.testAt + d)) (hd : d + 1 < w.round.length) (hne : d ≠ w.test.length)
    (hmore : w.test.length < d → (s.item? m.world.heap n).isSome)
    (hst : m.stack = s.work m.world.heap n d ++ st) :
    ∃ m', p.Turns m f (s.work m.world.heap n (d + 1) ++ st) (w.testAt + d + 1) m' := by
  have hat := hw.round
  unfold Walk.round Walk.test Walk.head at hat
  unfold Walk.round Walk.test Walk.head at hd
  unfold Walk.test at hne hmore
  rw [hr] at hat hd hne hmore
  cases s with
  | range a b =>
    match d, hd with
    | 0, _ =>
      have hturns := hw.load_index hp hs hindex h (hat 0 _ rfl)
      rw [hst] at hturns
      exact hturns
    | 1, _ =>
      have hturns := hw.load_limit hp hs hindex hlimit h (hat 1 _ rfl)
      rw [hst] at hturns
      exact hturns
    | 2, _ =>
      refine h.plain hp hs (hat 2 _ rfl) (by simp) fun m₁ hstack _ => ?_
      have hanswer : decide ((Series.range a b).index n < b) = _ :=
        Series.index_lt_stop (h := m.world.heap) hroom
      rw [Exec.lt_run (hstack.trans hst), hanswer]
      rfl
    | 3, _ => exact absurd rfl hne
    | 4, _ =>
      have hturns := hw.load_index hp hs hindex h (hat 4 _ rfl)
      obtain ⟨v, hv⟩ := Option.isSome_iff_exists.mp (hmore (by simp [Series.isRange]))
      rw [hst] at hturns
      rw [show (Series.range a b).work m.world.heap n (4 + 1) = [v] from by
        rw [Series.work, hv]
        rfl, Series.item?_range hv]
      exact hturns
    | _ + 5, hd => exact absurd hd (by simp [Series.isRange])
  | array r =>
    match d, hd with
    | 0, _ =>
      have hturns := hw.load_index hp hs hindex h (hat 0 _ rfl)
      rw [hst] at hturns
      exact hturns
    | 1, _ =>
      have hturns := hw.load_limit hp hs hindex hlimit h (hat 1 _ rfl)
      rw [hst] at hturns
      exact hturns
    | 2, _ =>
      refine h.plain hp hs (hat 2 _ rfl) (by simp) fun m₁ hstack hworld => ?_
      rw [Exec.len_run (hstack.trans hst), hworld]
      rfl
    | 3, _ =>
      refine h.plain hp hs (hat 3 _ rfl) (by simp) fun m₁ hstack _ => ?_
      rw [Exec.lt_run (hstack.trans hst), Series.index_lt_stop (h := m.world.heap) hroom]
      rfl
    | 4, _ => exact absurd rfl hne
    | 5, _ =>
      have hturns := hw.load_limit hp hs hindex hlimit h (hat 5 _ rfl)
      rw [hst] at hturns
      exact hturns
    | 6, _ =>
      have hturns := hw.load_index hp hs hindex h (hat 6 _ rfl)
      rw [hst] at hturns
      exact hturns
    | 7, _ =>
      obtain ⟨v, hv⟩ := Option.isSome_iff_exists.mp (hmore (by simp [Series.isRange]))
      refine h.plain hp hs (hat 7 _ rfl) (by simp) fun m₁ hstack hworld => ?_
      obtain ⟨hnonneg, hitem⟩ := Series.item?_array hroom hv
      rw [Exec.getElem_run (hstack.trans hst) hnonneg (hworld ▸ hitem), Series.work, hv]
      rfl
    | _ + 8, hd => exact absurd hd (by simp [Series.isRange])

end

theorem Stands.checks {b : Bool} (hw : w.Stands p.pool p.asms) (hp : p.Sound) (hs : m.Stands ws)
    (h : p.Holds m [] f w.checkAt) (hst : m.stack = .bool b :: st) :
    ∃ m', p.Turns m f st (if b then w.checkAt + 1 else w.exitAt) m' := by
  have hi := hw.round _ _ round_check
  rw [← checkAt_eq] at hi
  have hturns := h.check hp hs hi hst
  have hexit : w.checkAt + 1 + (w.exitAt - w.checkAt - 1) = w.exitAt := by
    have hplaces := w.places
    omega
  rw [hexit] at hturns
  exact hturns

/-- The hidden variables when `n` rounds have ended. -/
structure Turning (w : Walk) (s : Series) (lap : Lap) (m : Machine) (f : Frame) (n : Nat) : Prop where
  index : m.valueOf f w.index = some (.int (s.index n))
  limit : m.valueOf f w.limit = some s.limit
  room : s.base + lap.items.length < 2 ^ 63
  exact : ∀ a b, s = .range a b → lap.items <+: Series.integers a b

/-- What is on the stack by the place of the call, and whether a round is under way. -/
inductive Place (w : Walk) (s : Series) (lap : Lap) (m : Machine) (n : Nat) : Nat → Prop
  | test {d : Nat} {t : List Value} (within : d ≤ w.test.length) (top : m.stack = s.work m.world.heap n d ++ t)
      (items : lap.items.length = n) : Place w s lap m n (w.testAt + d)
  | head {d : Nat} {t : List Value} (behind : w.test.length < d) (within : d < w.round.length)
      (more : (s.item? m.world.heap n).isSome) (top : m.stack = s.work m.world.heap n d ++ t)
      (items : lap.items.length = n) : Place w s lap m n (w.testAt + d)
  | body {i : Nat} (low : w.bodyAt ≤ i) (high : i < w.stepAt) (items : lap.items.length = n + 1) :
      Place w s lap m n i
  | count {d : Nat} {t : List Value} (within : d ≤ 3) (top : m.stack = s.counted n d ++ t)
      (items : lap.items.length = n + 1) : Place w s lap m n (w.stepAt + d)
  | back (items : lap.items.length = n) : Place w s lap m n (w.stepAt + 4)

/-- What is known of a call in a loop. -/
inductive Keeps (w : Walk) (s : Series) (lap : Lap) (m : Machine) (above : List Frame) (f : Frame) : Nat → Prop
  | opens {i : Nat} (low : w.firstAt < i) (high : i ≤ w.secondAt) (held : m.valueOf f w.first = some lap.first)
      (items : lap.items = [])
      (zero : w.isRange = false → above = [] ∧ (i = w.secondAt → ∃ st, m.stack = .int 0 :: st)) :
      Keeps w s lap m above f i
  | turns {i n : Nat} (turning : w.Turning s lap m f n) (place : w.Place s lap m n i) :
      Keeps w s lap m above f i

/-- Whether some code leaves the hidden variables of a loop in another call alone. -/
def Spared (w : Walk) (c : Chunk) : Prop := c.Spares w.index ∧ c.Spares w.limit

def Quiet (w : Walk) (m : Machine) : Prop :=
  ∀ v ∈ m.stack, ∀ r free x chunk, v.Closes r free → m.memory.funcs[r]? = some x → x.chunk = some chunk →
    w.Spared chunk

section

variable {lap : Lap} {m' : Machine} {f' : Frame} {above above' : List Frame} {i j : Nat}

theorem Turning.turned (h : w.Turning s lap m f n) (hturns : p.Turns m f st j m') :
    w.Turning s lap m' { f with ip := p.code.start j } n :=
  ⟨(hturns.valueOf _).trans h.index, (hturns.valueOf _).trans h.limit, h.room, h.exact⟩

theorem Turning.kept (h : w.Turning s lap m f n)
    (hkeep : ∀ x v, x = w.index ∨ x = w.limit → m.valueOf f x = some v → m'.valueOf f' x = some v) :
    w.Turning s lap m' f' n :=
  ⟨hkeep _ _ (.inl rfl) h.index, hkeep _ _ (.inr rfl) h.limit, h.room, h.exact⟩

theorem Place.outside (h : w.Place s lap m n i) (hlow : w.bodyAt ≤ i) (hhigh : i ≤ w.stepAt) :
    w.Place s lap m' n i := by
  have hbody := w.bodyAt_eq
  have htest : w.test.length < w.round.length := by
    rw [round, List.length_append, List.length_cons]
    omega
  cases h with
  | test => omega
  | head => omega
  | body low high items => exact .body low high items
  | @count d st hd top items =>
    obtain rfl : d = 0 := by omega
    exact .count (t := m'.stack) hd rfl items
  | back => omega

variable (hw : w.Stands p.pool p.asms) (hp : p.Sound) (hs : m.Stands ws) (hnext : m.next = .inl m')
include hw hp hs hnext

theorem Stands.keeps (h : p.Holds m [] f i) (h' : p.Holds m' above' f' j)
    (hi : (w.firstAt < i ∧ i < w.secondAt) ∨ (w.bodyAt ≤ i ∧ i < w.stepAt)) {x : Binding} {v : Value}
    (hx : x = w.index ∨ x = w.limit) (hv : m.valueOf f x = some v) : m'.valueOf f' x = some v := by
  refine h.keeps hp hs hnext h' (fun a ha => ?_) ?_ hv
  · obtain ⟨hindex, hlimit⟩ := hw.spares i a ha hi
    rcases hx with rfl | rfl
    · exact hindex
    · exact hlimit
  · rcases hx with rfl | rfl
    · exact hw.plain.1
    · exact hw.plain.2

omit hw hs in
theorem turned (h : p.Holds m' above' f' j) (hturns : ∃ m'', p.Turns m f st i m'') :
    p.Turns m f st i m' ∧ above' = [] ∧ f' = { f with ip := p.code.start i } ∧ j = i := by
  obtain ⟨m'', hturns⟩ := hturns
  obtain rfl := Sum.inl.inj (hturns.next.symm.trans hnext)
  exact ⟨hturns, hturns.holds.unique hp h⟩

theorem Keeps.steps (hr : w.isRange = s.isRange) (h : w.Keeps s lap m [] f i) (hwithin : w.Within p m [] f i)
    (hsecond : i ≠ w.secondAt) (hitem : i ≠ w.itemAt) (hwithin' : w.Within p m' above' f' j)
    (hleads : w.Leads i j) : w.Keeps s lap m' above' f' j := by
  have hplaces := w.places
  have hround : w.round.length = w.test.length + 1 + w.head.length := by
    rw [round, List.length_append, List.length_cons]
    omega
  have hholds := hwithin'.holds
  cases h with
  | opens hlow hhigh held items zero =>
    have hi : i < w.secondAt := Nat.lt_of_le_of_ne hhigh hsecond
    rw [Leads, if_pos hi] at hleads
    have hheld : m'.valueOf f' w.first = some lap.first := by
      refine hw.keeps hp hs hnext hwithin.holds hholds (.inl ⟨hlow, hi⟩) ?_ held
      unfold Walk.first
      split
      · exact .inl rfl
      · exact .inr rfl
    refine .opens hwithin'.low hleads hheld items fun hrange => ?_
    obtain ⟨hbetween, k, hconst, hzero⟩ := hw.zero hrange
    obtain rfl : i = w.firstAt + 1 := by
      unfold secondAt at hi
      omega
    obtain ⟨hturns, habove, -⟩ := turned hp hnext hholds (hwithin.holds.const hp hs hconst hzero)
    exact ⟨habove, fun _ => ⟨_, hturns.stack⟩⟩
  | @turns n hturning hplace =>
    cases hplace with
    | @test d st hd htop hitems =>
      have hroom : s.base + n < 2 ^ 63 := hitems ▸ hturning.room
      rcases Nat.lt_or_eq_of_le hd with hlt | rfl
      · obtain ⟨hturns, rfl, rfl, rfl⟩ := turned hp hnext hholds
          (hw.works hp hs hturning.index hturning.limit hr hroom hwithin.holds (by omega) (Nat.ne_of_lt hlt)
            (fun hgt => absurd hgt (Nat.not_lt_of_gt hlt)) htop)
        refine .turns (hturning.turned hturns) (.test (t := st) (d := d + 1) hlt ?_ hitems)
        rw [hturns.stack, hturns.world]
      · have hbool : m.stack = .bool (s.item? m.world.heap n).isSome :: st := by
          rw [htop, test]
          cases s <;> rw [hr] <;> rfl
        obtain ⟨hturns, rfl, rfl, rfl⟩ := turned hp hnext hholds
          (hw.checks hp hs (by rw [checkAt_eq]; exact hwithin.holds) hbool)
        cases hmore : (s.item? m.world.heap n).isSome with
        | false =>
          rw [hmore, if_neg Bool.false_ne_true] at hwithin'
          exact absurd hwithin'.high (Nat.lt_irrefl _)
        | true =>
          rw [hmore] at hturns
          have hturning' := hturning.turned hturns
          have hstack := hturns.stack
          rw [if_pos rfl, checkAt_eq] at hturning' ⊢
          refine .turns hturning' (.head (t := st) (d := w.test.length + 1) (Nat.lt_succ_self _) (by omega)
            (by rw [hturns.world]; exact hmore) ?_ hitems)
          rw [hstack, test]
          cases s <;> rw [hr] <;> rfl
    | @head d st hbehind hd hmore htop hitems =>
      have hroom : s.base + n < 2 ^ 63 := hitems ▸ hturning.room
      obtain ⟨hturns, rfl, rfl, rfl⟩ := turned hp hnext hholds
        (hw.works hp hs hturning.index hturning.limit hr hroom hwithin.holds (by omega) (Nat.ne_of_gt hbehind)
          (fun _ => hmore) htop)
      refine .turns (hturning.turned hturns) (.head (t := st) (d := d + 1) (by omega) (by omega)
        (by rw [hturns.world]; exact hmore) ?_ hitems)
      rw [hturns.stack, hturns.world]
    | body hlow hhigh hitems =>
      rw [Leads, if_neg (by omega), if_neg (by omega), if_neg (by omega), if_pos hhigh] at hleads
      have hkept : w.Turning s lap m' f' n := hturning.kept fun x v hx hv =>
        hw.keeps hp hs hnext hwithin.holds hholds (.inr ⟨hlow, hhigh⟩) hx hv
      refine .turns hkept ?_
      rcases Nat.lt_or_eq_of_le hleads.2 with hlt | rfl
      · exact .body hleads.1 hlt hitems
      · exact .count (t := m'.stack) (d := 0) (Nat.zero_le _) rfl hitems
    | @count d st hd htop hitems =>
      rcases Nat.lt_or_eq_of_le hd with hlt | rfl
      · obtain ⟨hturns, rfl, rfl, rfl⟩ := turned hp hnext hholds
          (hw.counts hp hs hturning.index hwithin.holds hlt htop)
        exact .turns (hturning.turned hturns) (.count (t := st) (d := d + 1) hlt hturns.stack hitems)
      · obtain ⟨m'', f'', hnext'', hholds'', -, hvalue, hothers⟩ :=
          hwithin.holds.declare hp hs (hw.count 3 _ rfl) htop
        obtain rfl := Sum.inl.inj (hnext''.symm.trans hnext)
        obtain ⟨rfl, rfl, rfl⟩ := hholds''.unique hp hholds
        have hapart : (w.limit.storage, w.limit.index) ≠ (w.index.storage, w.index.index) := by
          have := hw.apart
          simp only [List.pairwise_cons, List.mem_cons, List.not_mem_nil, or_false] at this
          exact fun he => this.1 _ (.inl rfl) he.symm
        exact .turns (n := n + 1) ⟨hvalue, hothers _ _ hapart hw.plain.2 hturning.limit, hturning.room,
          hturning.exact⟩
          (.back hitems)
    | back hitems =>
      have hback := hw.count 4 _ rfl
      cases hbudget : m.budget with
      | zero =>
        obtain ⟨d, m'', hfails⟩ := hwithin.holds.jump_fails hp hs hback hbudget
        cases hfails.symm.trans hnext
      | succ b =>
        obtain ⟨hturns, rfl, rfl, rfl⟩ := turned hp hnext hholds (hwithin.holds.jump hp hs hback hbudget)
        have hplace : w.stepAt + 4 - (w.exitAt - 1 - w.testAt) = w.testAt := by omega
        have hturning' := hturning.turned hturns
        rw [hplace] at hturning' ⊢
        exact .turns hturning' (.test (t := m'.stack) (d := 0) (Nat.zero_le _) (by cases s <;> rfl) hitems)

end

end Walk

end Scripting

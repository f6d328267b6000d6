import Mathlib.Data.List.Forall2
import Scripting.Proofs.Code.Layout
import Scripting.Proofs.Machine.Effects

/-!
# Instructions and their operands

What an instruction does once its byte was read: it finds its operands in the code, and what it asks
of the running frame is there. `Exec.operate_meets` says this of all instructions that go on with the
next one.
-/

namespace Scripting

namespace Frame

def Ahead (f : Frame) (bs : List UInt8) : Prop :=
  ∃ rest, f.chunk.code.toList.drop f.ip = bs ++ rest

def skip (f : Frame) (n : Nat) : Frame := { f with ip := f.ip + n }

theorem Ahead.left {f : Frame} {as bs : List UInt8} (h : f.Ahead (as ++ bs)) : f.Ahead as := by
  obtain ⟨rest, h⟩ := h
  exact ⟨bs ++ rest, by rw [h, List.append_assoc]⟩

theorem Ahead.right {f : Frame} {as bs : List UInt8} (h : f.Ahead (as ++ bs)) :
    (f.skip as.length).Ahead bs := by
  obtain ⟨rest, h⟩ := h
  rw [List.append_assoc] at h
  exact ⟨rest, Chunk.drop_add h⟩

theorem Ahead.tail {f : Frame} {x : UInt8} {bs : List UInt8} (h : f.Ahead (x :: bs)) :
    (f.skip 1).Ahead bs := by
  have hx : f.Ahead ([x] ++ bs) := h
  exact hx.right

theorem Ahead.word {f : Frame} {w n : Nat} {bs : List UInt8} (h : f.Ahead (littleEndian w n ++ bs)) :
    (f.skip w).Ahead bs := by
  have hright := h.right
  rwa [littleEndian_length] at hright

theorem skip_skip (f : Frame) (m n : Nat) : (f.skip m).skip n = f.skip (m + n) := by
  simp [skip, Nat.add_assoc]

def Permits (f : Frame) : Opcode → List Nat → Prop
  | .const, ns => ns.headD 0 < f.chunk.constants.size
  | .getLocal, ns | .setLocal, ns | .makeCell, ns => ns.headD 0 < f.locals.size
  | .getCell, ns | .setCell, ns => ∃ r, f.locals[ns.headD 0]? = some (.cell r)
  | .getUpvalue, ns | .setUpvalue, ns => ns.headD 0 < f.free.length
  | .getField, ns | .setField, ns | .checkType, ns =>
    ∃ t, f.chunk.constants[ns.headD 0]? = some (.str t)
  | .new, ns => ∃ i c, f.chunk.constants[ns.headD 0]? = some (.ctor i c)
  | _, _ => True

def Offers (f : Frame) (c : Capture) : Prop :=
  if c.isLocal then ∃ r, f.locals[c.index]? = some (.cell r) else c.index < f.free.length

def Captures (f : Frame) (c : Capture) (r : Ref) : Prop :=
  if c.isLocal then f.locals[c.index]? = some (.cell r) else f.free[c.index]? = some r

theorem Offers.captures {f : Frame} {c : Capture} (h : f.Offers c) : ∃ r, f.Captures c r := by
  rw [Offers] at h
  unfold Captures
  split
  · rename_i hlocal
    rwa [if_pos hlocal] at h
  · rename_i hlocal
    rw [if_neg hlocal] at h
    exact ⟨_, List.getElem?_eq_getElem h⟩

/-- What an instruction does to the slots of its frame. -/
def Stores (ls ls' : Array Value) : Opcode → List Nat → Prop
  | .setLocal, ns => ∃ v, ls' = ls.setIfInBounds (ns.headD 0) v
  | .makeCell, ns => ∃ r, ls' = ls.setIfInBounds (ns.headD 0) (.cell r)
  | _, _ => ls' = ls

/-- What an instruction that works on a stack `st` leaves: the slots `ls` of its frame, the values `top`
that it pushes, and the memory. -/
def Acts (f : Frame) (st : List Value) (M : Memory) (ls : Array Value) (top : List Value) (M' : Memory) :
    Opcode → List Nat → Prop
  | .const, ns => ls = f.locals ∧ M' = M ∧
      ∃ v, f.chunk.constants[ns.headD 0]? = some v ∧ top = [v]
  | .setLocal, ns => M' = M ∧ ∃ v, st.head? = some v ∧ ls = f.locals.setIfInBounds (ns.headD 0) v
  | .setGlobal, ns => ls = f.locals ∧ ∃ v, st.head? = some v ∧ M' = M.storeGlobal (ns.headD 0) v
  | .makeCell, ns => ∃ v, st.head? = some v ∧
      ls = f.locals.setIfInBounds (ns.headD 0) (.cell M.cells.size) ∧ M' = M.newCell v
  | .getCell, ns => ls = f.locals ∧ M' = M ∧ ∃ r, f.locals[ns.headD 0]? = some (.cell r) ∧
      top = [M.cells.getD r .absent]
  | .setCell, ns => ls = f.locals ∧ ∃ r v, f.locals[ns.headD 0]? = some (.cell r) ∧
      st.head? = some v ∧ M' = M.setCell r v
  | .getUpvalue, ns => ls = f.locals ∧ M' = M ∧ ∃ r, f.free[ns.headD 0]? = some r ∧
      top = [M.cells.getD r .absent]
  | .setUpvalue, ns => ls = f.locals ∧ ∃ r v, f.free[ns.headD 0]? = some r ∧ st.head? = some v ∧
      M' = M.setCell r v
  | _, _ => ls = f.locals ∧ M' = M

theorem Acts.stores {f : Frame} {st top : List Value} {M M' : Memory} {ls : Array Value} {c : Opcode}
    {ns : List Nat} (h : f.Acts st M ls top M' c ns) : Stores f.locals ls c ns := by
  cases c with
  | setLocal =>
    obtain ⟨-, v, -, hls⟩ := h
    exact ⟨v, hls⟩
  | makeCell =>
    obtain ⟨v, -, hls, -⟩ := h
    exact ⟨_, hls⟩
  | _ => exact h.1

theorem Acts.later {f : Frame} {st top : List Value} {M M' : Memory} {ls : Array Value} {c : Opcode}
    {ns : List Nat} (h : f.Acts st M ls top M' c ns) : M.Later M' := by
  cases c with
  | const | getCell | getUpvalue =>
    obtain ⟨-, rfl, -⟩ := h
    exact ⟨rfl, Nat.le_refl _⟩
  | setLocal =>
    obtain ⟨rfl, -⟩ := h
    exact ⟨rfl, Nat.le_refl _⟩
  | setGlobal =>
    obtain ⟨-, v, -, rfl⟩ := h
    exact ⟨rfl, Nat.le_refl _⟩
  | makeCell =>
    obtain ⟨v, -, -, rfl⟩ := h
    exact ⟨rfl, Nat.le_refl _⟩
  | setCell | setUpvalue =>
    obtain ⟨-, r, v, -, -, rfl⟩ := h
    exact ⟨rfl, Nat.le_refl _⟩
  | _ =>
    obtain ⟨-, rfl⟩ := h
    exact ⟨rfl, Nat.le_refl _⟩

end Frame

def Machine.withFrames (m : Machine) (fs : List Frame) : Machine := { m with frames := fs }

@[simp] theorem Machine.withFrames_frames (m : Machine) (fs : List Frame) : (m.withFrames fs).frames = fs := rfl

@[simp] theorem Machine.withFrames_withFrames (m : Machine) (fs fs' : List Frame) :
    (m.withFrames fs).withFrames fs' = m.withFrames fs' := rfl

theorem Machine.withFrames_self {m : Machine} {fs : List Frame} (hm : m.frames = fs) : m.withFrames fs = m := by
  subst hm
  rfl

namespace Exec

variable {f : Frame} {fs : List Frame} {st : List Value} {b : Nat} {M : Memory}

section

variable {m : Machine}

theorem frame_run (hm : m.frames = f :: fs) : frame.run m = (.ok f, m) := by
  obtain ⟨w, gs, st, fs', b⟩ := m
  obtain rfl : fs' = f :: fs := hm
  rfl

theorem jumpTo_run (hm : m.frames = f :: fs) (t : Nat) :
    (jumpTo t).run m = (.ok (), m.withFrames ({ f with ip := t } :: fs)) := by
  obtain ⟨w, gs, st, fs', b⟩ := m
  obtain rfl : fs' = f :: fs := hm
  rfl

theorem readByte_run (hm : m.frames = f :: fs) {x : UInt8} {bs : List UInt8} (h : f.Ahead (x :: bs)) :
    readByte.run m = (.ok x, m.withFrames (f.skip 1 :: fs)) := by
  obtain ⟨rest, h⟩ := h
  rw [readByte, bind_run, frame_run hm]
  dsimp only
  rw [Chunk.get?_of_drop h, bind_run, jumpTo_run hm]
  rfl

theorem readWord_run (hm : m.frames = f :: fs) {w n : Nat} {bs : List UInt8} (hw : 0 < w) (hn : n < 256 ^ w)
    (h : f.Ahead (littleEndian w n ++ bs)) :
    (readWord w).run m = (.ok n, m.withFrames (f.skip w :: fs)) := by
  obtain ⟨rest, h⟩ := h.left
  rw [readWord, bind_run, frame_run hm]
  dsimp only
  rw [Chunk.readWord?_of_drop hw hn h, bind_run, jumpTo_run hm]
  rfl

end

theorem Yields.of_run {α : Type} {x : Exec α} {a : α} {g : Frame} (h : ∀ m : Machine, m.frames = f :: fs →
    x.run m = (.ok a, m.withFrames (g :: fs))) : Yields x ⟨f :: fs, st, b, M⟩ a ⟨g :: fs, st, b, M⟩ := by
  rintro ⟨w, gs, st', fs', b'⟩ hm
  obtain ⟨rfl, rfl, rfl, rfl⟩ := View.mk.inj hm
  exact ⟨_, h _ rfl, rfl⟩

theorem frame_yields : Yields frame ⟨f :: fs, st, b, M⟩ f ⟨f :: fs, st, b, M⟩ := by
  rintro ⟨w, gs, st', fs', b'⟩ hm
  obtain ⟨rfl, rfl, rfl, rfl⟩ := View.mk.inj hm
  exact ⟨_, rfl, rfl⟩

theorem setFrame_yields (g : Frame → Frame) :
    Yields (setFrame g) ⟨f :: fs, st, b, M⟩ () ⟨g f :: fs, st, b, M⟩ := by
  rintro ⟨w, gs, st', fs', b'⟩ hm
  obtain ⟨rfl, rfl, rfl, rfl⟩ := View.mk.inj hm
  exact ⟨_, rfl, rfl⟩

theorem jumpTo_yields (t : Nat) :
    Yields (jumpTo t) ⟨f :: fs, st, b, M⟩ () ⟨{ f with ip := t } :: fs, st, b, M⟩ :=
  .of_run fun _ hm => jumpTo_run hm t

theorem readByte_yields {x : UInt8} {bs : List UInt8} (h : f.Ahead (x :: bs)) :
    Yields readByte ⟨f :: fs, st, b, M⟩ x ⟨f.skip 1 :: fs, st, b, M⟩ := .of_run fun _ hm => readByte_run hm h

theorem readWord_yields {w n : Nat} {bs : List UInt8} (hw : 0 < w) (hn : n < 256 ^ w)
    (h : f.Ahead (littleEndian w n ++ bs)) :
    Yields (readWord w) ⟨f :: fs, st, b, M⟩ n ⟨f.skip w :: fs, st, b, M⟩ :=
  .of_run fun _ hm => readWord_run hm hw hn h

theorem operandAt_yields {α : Type} {items : Array α} {i : Nat} {a : α} (h : items[i]? = some a)
    (v : View) : Yields (operandAt items i) v a v := by
  rw [operandAt, h]
  exact .pure a

theorem readConstant_yields {k : Nat} {bs : List UInt8} {v : Value} (hk : k < 256 ^ 2)
    (h : f.Ahead (littleEndian 2 k ++ bs)) (hv : f.chunk.constants[k]? = some v) :
    Yields readConstant ⟨f :: fs, st, b, M⟩ v ⟨f.skip 2 :: fs, st, b, M⟩ :=
  (readWord_yields (by decide) hk h).andThen (frame_yields.andThen (operandAt_yields hv _))

theorem readName_yields {k : Nat} {bs : List UInt8} {t : String} (hk : k < 256 ^ 2)
    (h : f.Ahead (littleEndian 2 k ++ bs)) (hv : f.chunk.constants[k]? = some (.str t)) :
    Yields readName ⟨f :: fs, st, b, M⟩ t ⟨f.skip 2 :: fs, st, b, M⟩ :=
  (readConstant_yields hk h hv).andThen (.pure t)

theorem pop_yields {v : Value} : Yields pop ⟨fs, v :: st, b, M⟩ v ⟨fs, st, b, M⟩ := by
  rintro ⟨w, gs, st', fs', b'⟩ hm
  obtain ⟨rfl, rfl, rfl, rfl⟩ := View.mk.inj hm
  exact ⟨_, rfl, rfl⟩

theorem push_yields {v : Value} : Yields (push v) ⟨fs, st, b, M⟩ () ⟨fs, v :: st, b, M⟩ := by
  rintro m hm
  obtain ⟨rfl, rfl, rfl, rfl⟩ := View.mk.inj hm
  exact ⟨_, rfl, rfl⟩

theorem getLocal_yields {i : Nat} {v : Value} (h : f.locals[i]? = some v) :
    Yields (getLocal i) ⟨f :: fs, st, b, M⟩ v ⟨f :: fs, st, b, M⟩ :=
  frame_yields.andThen (operandAt_yields h _)

theorem setLocal_yields {i : Nat} (h : i < f.locals.size) (v : Value) :
    Yields (setLocal i v) ⟨f :: fs, st, b, M⟩ ()
      ⟨{ f with locals := f.locals.setIfInBounds i v } :: fs, st, b, M⟩ := by
  refine frame_yields.andThen ?_
  dsimp only
  rw [if_pos h]
  exact setFrame_yields _

theorem localCell_yields {i : Nat} {r : Ref} (h : f.locals[i]? = some (.cell r)) :
    Yields (localCell i) ⟨f :: fs, st, b, M⟩ r ⟨f :: fs, st, b, M⟩ :=
  (getLocal_yields h).andThen (.pure r)

theorem freeCell_yields {i : Nat} {r : Ref} (h : f.free[i]? = some r) :
    Yields (freeCell i) ⟨f :: fs, st, b, M⟩ r ⟨f :: fs, st, b, M⟩ :=
  frame_yields.andThen (operandAt_yields (by simpa using h) _)

theorem getCell_yields (r : Ref) :
    Yields (getCell r) ⟨fs, st, b, M⟩ (M.cells.getD r .absent) ⟨fs, st, b, M⟩ := by
  rintro m hm
  obtain ⟨rfl, rfl, rfl, rfl⟩ := View.mk.inj hm
  exact ⟨_, rfl, rfl⟩

theorem makeCell_yields {i : Nat} (h : i < f.locals.size) (v : Value) :
    Yields (do setLocal i (.cell (← onHeap fun h => h.newCell v))) ⟨f :: fs, st, b, M⟩ ()
      ⟨{ f with locals := f.locals.setIfInBounds i (.cell M.cells.size) } :: fs, st, b,
        M.newCell v⟩ :=
  (newCell_yields v).andThen (setLocal_yields h _)

theorem pushClosure_yields (r : Ref) (cells : List Ref) :
    Yields (do push (.closure (← onHeap Heap.newId) r cells)) ⟨fs, st, b, M⟩ ()
      ⟨fs, .closure M.nextId r cells :: st, b, M.newId⟩ :=
  newId_yields.andThen push_yields

theorem captureCells_meets : (cs : List Capture) → {f : Frame} → (∀ c ∈ cs, c.index < 256 ^ 2) →
    (∀ c ∈ cs, f.Offers c) → f.Ahead (cs.flatMap Asm.captureBytes) →
      Meets (captureCells cs.length) ⟨f :: fs, st, b, M⟩ fun cells w =>
        List.Forall₂ f.Captures cs cells ∧ w = ⟨f.skip (3 * cs.length) :: fs, st, b, M⟩
  | [], _, _, _, _ => .pure ⟨.nil, rfl⟩
  | c :: cs, f, hindex, hoffers, hahead => by
    rw [List.flatMap_cons, Asm.captureBytes, List.cons_append] at hahead
    have hflag : ((if c.isLocal then 1 else 0 : UInt8) == 1) = c.isLocal := by cases c.isLocal <;> rfl
    obtain ⟨r, hr⟩ := (hoffers c (by simp)).captures
    have hrest : Meets (do return r :: (← captureCells cs.length))
        ⟨(f.skip 1).skip 2 :: fs, st, b, M⟩ fun cells w => List.Forall₂ f.Captures (c :: cs) cells ∧
          w = ⟨f.skip (3 * (cs.length + 1)) :: fs, st, b, M⟩ := by
      refine .map ((captureCells_meets cs (f := (f.skip 1).skip 2) (fun x hx => hindex x (by simp [hx]))
        (fun x hx => hoffers x (by simp [hx])) hahead.tail.word).mono ?_)
      rintro cells _ ⟨hcells, rfl⟩
      refine ⟨.cons hr hcells, ?_⟩
      rw [Frame.skip_skip, Frame.skip_skip]
      exact congrArg (fun n => View.mk (f.skip n :: fs) st b M) (by omega)
    refine (readByte_yields hahead).bind ((readWord_yields (by decide) (hindex c (by simp))
      hahead.tail).bind ?_)
    rw [hflag]
    rw [Frame.Captures] at hr
    cases hlocal : c.isLocal with
    | true =>
      rw [if_pos hlocal] at hr
      exact (localCell_yields (f := (f.skip 1).skip 2) hr).bind hrest
    | false =>
      rw [hlocal, if_neg (by decide)] at hr
      exact (freeCell_yields (f := (f.skip 1).skip 2) hr).bind hrest

theorem makeClosure_meets {k : Nat} {cs : List Capture} {r : Ref} (hk : k < 256 ^ 2)
    (hcs : cs.length < 256) (hindex : ∀ c ∈ cs, c.index < 256 ^ 2)
    (hr : f.chunk.constants[k]? = some (.func r)) (hoffers : ∀ c ∈ cs, f.Offers c)
    (h : f.Ahead (littleEndian 2 k ++ (littleEndian 1 cs.length ++ cs.flatMap Asm.captureBytes))) :
    Meets makeClosure ⟨f :: fs, st, b, M⟩ fun _ w => ∃ cells, List.Forall₂ f.Captures cs cells ∧
      w = ⟨f.skip (3 + 3 * cs.length) :: fs, .closure M.nextId r cells :: st, b, M.newId⟩ := by
  refine (readConstant_yields hk h hr).bind ((readByte_yields h.word).bind ?_)
  dsimp only
  rw [littleEndian_one hcs]
  have hcells : Meets (captureCells cs.length) ⟨(f.skip 2).skip 1 :: fs, st, b, M⟩ fun cells w =>
      w.memory = M ∧ (List.Forall₂ f.Captures cs cells ∧
        w = ⟨f.skip (3 + 3 * cs.length) :: fs, st, b, M⟩) := by
    refine (captureCells_meets cs (f := (f.skip 2).skip 1) hindex hoffers h.word.tail).mono ?_
    rintro cells _ ⟨hcells, rfl⟩
    refine ⟨rfl, hcells, ?_⟩
    rw [Frame.skip_skip, Frame.skip_skip]
    exact congrArg (fun n => View.mk (f.skip n :: fs) st b M) (by omega)
  refine hcells.bind ?_
  rintro cells _ ⟨hcells, rfl⟩
  exact (pushClosure_yields r cells).meets ⟨cells, hcells, rfl⟩

abbrev operandBytes (c : Opcode) (ns : List Nat) : List UInt8 :=
  (c.widths.zip ns).flatMap fun x => littleEndian x.1 x.2

def Continues (f : Frame) (fs : List Frame) (st : List Value) (b : Nat) (M : Memory)
    (c : Opcode) (ns : List Nat) (w : View) : Prop :=
  ∃ ls top M', f.Acts st M ls top M' c ns ∧ top.length = c.pushes ∧
    w = ⟨{ f.skip (totalWidth c.widths) with locals := ls } :: fs, top ++ st.drop (c.pops ns), b, M'⟩

variable {c : Opcode} {ns : List Nat}

theorem operate_trades (hw : c.widths = []) (hret : c ≠ .ret) (hunwrap : c ≠ .unwrapOrReturn) :
    Trades (c.pops []) c.pushes (operate c) := by
  cases c with
  | pop => exact .bind (pop_trades 0) fun _ => .pure ()
  | popBelow => exact .bind (pop_trades 1) fun v => .bind (pop_trades 0) fun _ => push_trades 0 v
  | dup => exact .bind (top_trades 0) fun v => push_trades 1 v
  | unit => exact push_trades 0 _
  | add | sub | mul | div | mod => exact arith_trades _
  | eq => exact comparison_trades .eq
  | ne => exact comparison_trades .ne
  | lt => exact comparison_trades .lt
  | le => exact comparison_trades .le
  | gt => exact comparison_trades .gt
  | ge => exact comparison_trades .ge
  | bitOr => exact bitOr_trades
  | neg => exact negate_trades
  | not => exact .bind (pop_trades 0) fun v => push_trades 0 _
  | getIndex | getElem => exact element_trades _
  | len => exact length_trades
  | toText => exact .bind (pop_trades 0) fun v => .bind (textOf_trades 0 v) fun _ => push_trades 0 _
  | ret => exact absurd rfl hret
  | unwrapOrReturn => exact absurd rfl hunwrap
  | _ => cases hw

theorem Trades.continues {x : Exec Unit} (hx : Trades (c.pops ns) c.pushes x)
    (hpops : c.pops ns ≤ st.length) (hacts : ∀ top, f.Acts st M f.locals top M c ns) :
    Meets x ⟨f.skip (totalWidth c.widths) :: fs, st, b, M⟩ fun _ w => Continues f fs st b M c ns w := by
  refine (hx.meets hpops).mono ?_
  rintro _ _ ⟨top, htop, rfl⟩
  exact ⟨f.locals, top, M, hacts top, htop, rfl⟩

variable (c ns) in
theorem Yields.continues {x : Exec Unit} {u : View} {ls : Array Value} {M' : Memory} (top : List Value)
    (hx : Yields x u () ⟨{ f.skip (totalWidth c.widths) with locals := ls } :: fs,
      top ++ st.drop (c.pops ns), b, M'⟩)
    (hacts : f.Acts st M ls top M' c ns) (htop : top.length = c.pushes) :
    Meets x u fun _ w => Continues f fs st b M c ns w :=
  hx.meets ⟨ls, top, M', hacts, htop, rfl⟩

theorem exists_word (hw : c.widths = [2])
    (hfits : List.Forall₂ (fun w n => n < 256 ^ w) c.widths ns) : ∃ n, ns = [n] ∧ n < 256 ^ 2 := by
  rw [hw] at hfits
  obtain ⟨n, _, hn, hnil, rfl⟩ := List.forall₂_cons_left_iff.mp hfits
  obtain rfl := List.forall₂_nil_left_iff.mp hnil
  exact ⟨n, rfl, hn⟩

theorem word_meets {n : Nat} (hw : c.widths = [2]) (hn : n < 256 ^ 2)
    (hahead : f.Ahead (operandBytes c [n])) (hpermits : f.Permits c [n])
    (hpops : c.pops [n] ≤ st.length) :
    Meets (operate c) ⟨f :: fs, st, b, M⟩ fun _ w => Continues f fs st b M c [n] w := by
  rw [operandBytes, hw] at hahead
  have hread : Yields (readWord 2) ⟨f :: fs, st, b, M⟩ n ⟨f.skip 2 :: fs, st, b, M⟩ :=
    readWord_yields (by decide) hn hahead
  cases c with
  | const =>
    have hconst := Array.getElem?_eq_getElem hpermits
    exact (readConstant_yields hn hahead hconst).bind
      (Yields.continues .const [n] [_] push_yields ⟨rfl, rfl, _, hconst, rfl⟩ rfl)
  | getLocal =>
    exact hread.bind ((getLocal_yields (f := f.skip 2) (Array.getElem?_eq_getElem hpermits)).bind
      (Trades.continues (c := .getLocal) (push_trades 0 _) hpops fun _ => ⟨rfl, rfl⟩))
  | setLocal =>
    obtain ⟨v, rest, rfl⟩ := List.exists_cons_of_length_pos hpops
    exact hread.bind (pop_yields.bind ((setLocal_yields (f := f.skip 2) hpermits v).continues
      .setLocal [n] [] ⟨rfl, v, rfl, rfl⟩ rfl))
  | getGlobal =>
    exact hread.bind (Trades.continues (c := .getGlobal) (getGlobal_trades n) hpops fun _ => ⟨rfl, rfl⟩)
  | setGlobal =>
    obtain ⟨v, rest, rfl⟩ := List.exists_cons_of_length_pos hpops
    exact hread.bind (pop_yields.bind ((setGlobal_yields n v).continues
      .setGlobal [n] [] ⟨rfl, v, rfl, rfl⟩ rfl))
  | makeCell =>
    obtain ⟨v, rest, rfl⟩ := List.exists_cons_of_length_pos hpops
    exact hread.bind (pop_yields.bind ((makeCell_yields (f := f.skip 2) hpermits v).continues
      .makeCell [n] [] ⟨v, rfl, rfl, rfl⟩ rfl))
  | getCell =>
    obtain ⟨r, hr⟩ := hpermits
    exact hread.bind ((localCell_yields (f := f.skip 2) hr).bind ((getCell_yields r).bind
      (Yields.continues .getCell [n] [_] push_yields ⟨rfl, rfl, r, hr, rfl⟩ rfl)))
  | setCell =>
    obtain ⟨r, hr⟩ := hpermits
    obtain ⟨v, rest, rfl⟩ := List.exists_cons_of_length_pos hpops
    exact hread.bind ((localCell_yields (f := f.skip 2) hr).bind (pop_yields.bind
      ((setCell_yields r v).continues .setCell [n] [] ⟨rfl, r, v, hr, rfl, rfl⟩ rfl)))
  | getUpvalue =>
    have hfree := List.getElem?_eq_getElem hpermits
    exact hread.bind ((freeCell_yields (f := f.skip 2) hfree).bind ((getCell_yields _).bind
      (Yields.continues .getUpvalue [n] [_] push_yields ⟨rfl, rfl, _, hfree, rfl⟩ rfl)))
  | setUpvalue =>
    have hfree := List.getElem?_eq_getElem hpermits
    obtain ⟨v, rest, rfl⟩ := List.exists_cons_of_length_pos hpops
    exact hread.bind (pop_yields.bind ((freeCell_yields (f := f.skip 2) hfree).bind
      ((setCell_yields _ v).continues .setUpvalue [n] [] ⟨rfl, _, v, hfree, rfl, rfl⟩ rfl)))
  | getField =>
    obtain ⟨t, ht⟩ := hpermits
    exact (readName_yields hn hahead ht).bind
      (Trades.continues (c := .getField) (getField_trades t) hpops fun _ => ⟨rfl, rfl⟩)
  | setField =>
    obtain ⟨t, ht⟩ := hpermits
    exact (readName_yields hn hahead ht).bind
      (Trades.continues (c := .setField) (setField_trades t) hpops fun _ => ⟨rfl, rfl⟩)
  | checkType =>
    obtain ⟨t, ht⟩ := hpermits
    exact (readName_yields hn hahead ht).bind
      (Trades.continues (c := .checkType) (checkType_trades t) hpops fun _ => ⟨rfl, rfl⟩)
  | makeArray =>
    exact hread.bind (Trades.continues (c := .makeArray) (makeArray_trades n) hpops fun _ => ⟨rfl, rfl⟩)
  | _ => cases hw

theorem new_meets {k n : Nat} (hk : k < 256 ^ 2) (hn : n < 256 ^ 1)
    (hahead : f.Ahead (operandBytes .new [k, n])) (hpermits : f.Permits .new [k, n])
    (hpops : n ≤ st.length) :
    Meets (operate .new) ⟨f :: fs, st, b, M⟩ fun _ w => Continues f fs st b M .new [k, n] w := by
  obtain ⟨i, x, hx⟩ := hpermits
  refine (readConstant_yields hk hahead hx).bind ((readByte_yields hahead.word).bind ?_)
  dsimp only
  rw [littleEndian_one (by simpa using hn), Frame.skip_skip]
  have htrades : Trades (Opcode.new.pops [k, n]) Opcode.new.pushes (construct x n) :=
    construct_trades x n
  exact htrades.continues hpops fun _ => ⟨rfl, rfl⟩

theorem operate_meets (hspecial : c.isSpecial = false) (hcall : c ≠ .call)
    (hret : c ≠ .ret) (hunwrap : c ≠ .unwrapOrReturn)
    (hfits : List.Forall₂ (fun w n => n < 256 ^ w) c.widths ns) (hahead : f.Ahead (operandBytes c ns))
    (hpermits : f.Permits c ns) (hpops : c.pops ns ≤ st.length) :
    Meets (operate c) ⟨f :: fs, st, b, M⟩ fun _ w => Continues f fs st b M c ns w := by
  by_cases hword : c.widths = [2]
  · obtain ⟨n, rfl, hn⟩ := exists_word hword hfits
    exact word_meets hword hn hahead hpermits hpops
  by_cases hplain : c.widths = []
  · obtain rfl : ns = [] := by
      rw [hplain] at hfits
      exact List.forall₂_nil_left_iff.mp hfits
    have hacts : ∀ top, f.Acts st M f.locals top M c [] := by
      intro top
      cases c <;> first | exact ⟨rfl, rfl⟩ | cases hplain
    have hcontinues : Meets (operate c) ⟨f.skip (totalWidth c.widths) :: fs, st, b, M⟩ fun _ w =>
        Continues f fs st b M c [] w := (operate_trades hplain hret hunwrap).continues hpops hacts
    rwa [hplain] at hcontinues
  cases c with
  | new =>
    obtain ⟨k, _, hk, hrest, rfl⟩ := List.forall₂_cons_left_iff.mp hfits
    obtain ⟨n, _, hn, hnil, rfl⟩ := List.forall₂_cons_left_iff.mp hrest
    obtain rfl := List.forall₂_nil_left_iff.mp hnil
    exact new_meets hk hn hahead hpermits hpops
  | closure | jump | jumpIfFalse | loop => cases hspecial
  | call => exact absurd rfl hcall
  | _ => first | exact absurd rfl hword | exact absurd rfl hplain

end Exec

end Scripting

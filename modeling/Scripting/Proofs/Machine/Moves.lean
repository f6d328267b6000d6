import Scripting.Proofs.Code.Flow
import Scripting.Proofs.Machine.Fetch

/-!
# One step in checked code

`Frame.At L i f` says that a frame stands at instruction `i` of checked code, and has what is known
there. `Exec.step_moves` says what a step does then: the frame goes on, jumps back, calls a function or
returns. It never finds the code broken.
-/

namespace Scripting

/-- Code with what is known at each instruction. -/
structure Listing where
  limits : Limits
  code : Assembly
  shape : Nat → Shape

namespace Listing

/-- Whether instructions ask for what is known, and jumps reach their targets. -/
structure Sound (L : Listing) : Prop where
  sits : L.limits.Sits Exits.none L.code.length L.shape 0 L.code
  short : L.code.offset L.code.length < 256 ^ 4

def Writes (L : Listing) (i k : Nat) : Prop :=
  ∃ l c ns, L.code[i]? = some l ∧ l.asm = .op c ns ∧ (c = .setLocal ∨ c = .makeCell) ∧ ns.headD 0 = k

def Backs (L : Listing) (i : Nat) : Prop := ∃ l n, L.code[i]? = some l ∧ l.asm = .back n

def Returns (L : Listing) (i : Nat) : Prop :=
  ∃ l c ns, L.code[i]? = some l ∧ l.asm = .op c ns ∧ (c = .ret ∨ c = .unwrapOrReturn)

/-- Whether all slots that are known to be written at `j` were written at `i` or before. -/
def Leads (L : Listing) (i j : Nat) : Prop :=
  ∀ k, ((L.shape j).slots k).isSome → L.Writes i k ∨ ((L.shape i).slots k).isSome

end Listing

/-- Whether a frame stands at an instruction of checked code. -/
structure Frame.At (L : Listing) (i : Nat) (f : Frame) : Prop where
  chunk : f.chunk = L.code.chunk L.limits.pool f.chunk.file
  inside : i < L.code.length
  ip : f.ip = L.code.offset i
  locals : L.limits.locals ≤ f.locals.size
  free : L.limits.free ≤ f.free.length
  cells : ∀ j, (L.shape i).slots j = some true → ∃ r, f.locals[j]? = some (.cell r)

namespace Listing

variable {L : Listing} {i : Nat} {l : Asm.Line}

theorem Sound.good (h : L.Sound) (hi : L.code[i]? = some l) :
    L.limits.Good Exits.none L.code.length L.shape i l.asm := by
  have hgood := h.sits i l hi
  rwa [Nat.zero_add] at hgood

theorem Sound.fits (h : L.Sound) : L.code.Fits := h.sits.fits

theorem not_backs {a : Asm} (hi : L.code[i]? = some l) (hasm : l.asm = a) (ha : ∀ n, a ≠ .back n) :
    ¬ L.Backs i := by
  rintro ⟨l', n, hi', hn⟩
  obtain rfl := Option.some.inj (hi.symm.trans hi')
  exact ha n (hasm.symm.trans hn)

theorem Returns.not_backs (h : L.Returns i) : ¬ L.Backs i := by
  obtain ⟨l, c, ns, hi, hasm, -⟩ := h
  exact Listing.not_backs hi hasm nofun

theorem Leads.of_slots {j : Nat} (h : ∀ k x, (L.shape j).slots k = some x → (L.shape i).slots k = some x) :
    L.Leads i j := by
  intro k hk
  obtain ⟨x, hx⟩ := Option.isSome_iff_exists.mp hk
  exact .inr (by rw [h k x hx]; rfl)

end Listing

namespace Frame.At

variable {L : Listing} {i : Nat} {l : Asm.Line} {f : Frame}

theorem instruction (h : f.At L i) : ∃ l, L.code[i]? = some l :=
  ⟨_, List.getElem?_eq_getElem h.inside⟩

theorem ahead (h : f.At L i) (hL : L.Sound) (hi : L.code[i]? = some l) :
    f.Ahead (l.asm.bytes L.code.start i) := by
  obtain ⟨rest, hrest⟩ := Assembly.code_drop hL.fits hi L.limits.pool f.chunk.file
  refine ⟨rest, ?_⟩
  rw [h.ip]
  rwa [← h.chunk] at hrest

theorem constants (h : f.At L i) : f.chunk.constants = L.limits.pool := by
  rw [h.chunk, Assembly.chunk_constants]

theorem permits (h : f.At L i) {c : Opcode} {ns : List Nat} (hasks : L.limits.Asks (L.shape i) c ns) :
    f.Permits c ns := by
  cases c with
  | const =>
    rw [Frame.Permits, h.constants]
    exact hasks
  | getLocal => exact Nat.lt_of_lt_of_le hasks.1 h.locals
  | setLocal | makeCell => exact Nat.lt_of_lt_of_le hasks h.locals
  | getCell | setCell => exact h.cells _ hasks.2
  | getUpvalue | setUpvalue => exact Nat.lt_of_lt_of_le hasks h.free
  | getField | setField | checkType | new =>
    rw [Frame.Permits, h.constants]
    exact hasks
  | _ => trivial

theorem offers (h : f.At L i) {c : Capture} (hc : L.limits.Finds (L.shape i) c) : f.Offers c := by
  rw [Limits.Finds] at hc
  rw [Frame.Offers]
  split
  · rename_i hlocal
    rw [if_pos hlocal] at hc
    exact h.cells _ hc.2
  · rename_i hlocal
    rw [if_neg hlocal] at hc
    exact Nat.lt_of_lt_of_le hc h.free

theorem goto (h : f.At L i) {j : Nat} (hj : j < L.code.length)
    (hslots : ∀ k x, (L.shape j).slots k = some x → (L.shape i).slots k = some x) :
    ({ f with ip := L.code.offset j } : Frame).At L j :=
  ⟨h.chunk, hj, rfl, h.locals, h.free, fun k hk => h.cells k (hslots k true hk)⟩

end Frame.At

def Asm.GoesTo : Asm → Nat → Nat → Prop
  | skip n, i, j => j = i + 1 + n
  | skipIfFalse n, i, j => j = i + 1 ∨ j = i + 1 + n
  | back n, i, j => j = i - n
  | _, i, j => j = i + 1

/-- What an instruction that stays in its call does to the slots of the frame, the stack and the
memory. -/
inductive Frame.Does (f : Frame) (st : List Value) (M : Memory) :
    Asm → Array Value → List Value → Memory → Prop
  | op {c : Opcode} {ns : List Nat} {ls : Array Value} {top : List Value} {M' : Memory}
      (stays : c ≠ .ret) (acts : f.Acts st M ls top M' c ns) :
      Does f st M (.op c ns) ls (top ++ st.drop (c.pops ns)) M'
  | closure {k : Nat} {cs : List Capture} {r : Ref} {cells : List Ref}
      (known : f.chunk.constants[k]? = some (.func r))
      (captured : List.Forall₂ f.Captures cs cells) :
      Does f st M (.closure k cs) f.locals (.closure M.nextId r cells :: st) M.newId
  | skip {n : Nat} : Does f st M (.skip n) f.locals st M
  | test {n : Nat} : Does f st M (.skipIfFalse n) f.locals st.tail M
  | back {n : Nat} : Does f st M (.back n) f.locals st M

theorem Frame.Does.later {f : Frame} {st st' : List Value} {M M' : Memory} {a : Asm} {ls : Array Value}
    (h : f.Does st M a ls st' M') : M.Later M' := by
  cases h with
  | op _ hacts => exact hacts.later
  | closure => exact ⟨rfl, Nat.le_succ _⟩
  | _ => exact .refl M

/-- What a step does that stays in a call. -/
structure Listing.Stays (L : Listing) (i : Nat) (f : Frame) (st : List Value) (M : Memory) (j : Nat)
    (f' : Frame) (st' : List Value) (M' : Memory) : Prop where
  leads : L.Leads i j
  there : f'.At L j
  rest : f' = { f with ip := f'.ip, locals := f'.locals }
  height : f.base + (L.shape j).height ≤ st'.length
  does : ∃ l, L.code[i]? = some l ∧ l.asm.GoesTo i j ∧ f.Does st M l.asm f'.locals st' M'

namespace Listing.Stays

variable {L : Listing} {i j : Nat} {f f' : Frame} {st st' : List Value} {M M' : Memory}

theorem base (h : L.Stays i f st M j f' st' M') : f'.base = f.base := by rw [h.rest]

theorem chunk (h : L.Stays i f st M j f' st' M') : f'.chunk = f.chunk := by rw [h.rest]

end Listing.Stays

def Value.Closes (a : Value) (r : Ref) (free : List Ref) : Prop :=
  a = .func r ∧ free = [] ∨ ∃ id, a = .closure id r free

namespace Exec

open Frame (At)

/-- What a step does at an instruction of checked code. -/
inductive Moves (L : Listing) (i : Nat) (f : Frame) (fs : List Frame) (st : List Value) (b : Nat)
    (M : Memory) : Option Value → View → Prop
  /-- The frame goes on. -/
  | goes {j : Nat} {f' : Frame} {st' : List Value} {M' : Memory} (straight : ¬ L.Backs i) (later : i < j)
      (stays : L.Stays i f st M j f' st' M') : Moves L i f fs st b M none ⟨f' :: fs, st', b, M'⟩
  /-- The frame jumps back. -/
  | loops {j : Nat} {f' : Frame} {st' : List Value} {b' : Nat} {M' : Memory} (backs : L.Backs i)
      (budget : b = b' + 1) (stays : L.Stays i f st M j f' st' M') :
      Moves L i f fs st b M none ⟨f' :: fs, st', b', M'⟩
  /-- The frame calls a function. -/
  | enters {f' : Frame} {st' args : List Value} {a : Value} {r : Ref} {x : Function} {chunk : Chunk}
      {free : List Ref} (call : ∃ l, L.code[i]? = some l ∧ l.asm = .op .call [args.length])
      (leads : L.Leads i (i + 1)) (there : f'.At L (i + 1)) (rest : f' = { f with ip := f'.ip })
      (height : f.base + (L.shape (i + 1)).height ≤ st'.length + 1)
      (room : fs.length + 1 < maxFrames) (stack : st = a :: (args.reverse ++ st'))
      (callee : a.Closes r free) (known : M.funcs[r]? = some x) (code : x.chunk = some chunk)
      (arity : x.arity = args.length) (captured : x.freeCount = free.length) :
      Moves L i f fs st b M none ⟨⟨x.name, chunk, free,
        args.toArray ++ Array.replicate (x.localCount.toNat - args.length) Value.absent, 0, st'.length⟩
          :: f' :: fs, st', b, M⟩
  /-- The frame returns. -/
  | leaves {v : Value} {st' : List Value} {r : Option Value} (returns : L.Returns i)
      (height : st'.length = f.base) (result : r = if fs.isEmpty then some v else none) :
      Moves L i f fs st b M r ⟨fs, v :: st', b, M⟩

variable {L : Listing} {i : Nat} {l : Asm.Line} {f : Frame} {fs : List Frame} {st : List Value} {b : Nat}
  {M : Memory}

theorem Moves.later {r : Option Value} {w : View} (h : Moves L i f fs st b M r w) :
    M.Later w.memory := by
  cases h with
  | goes _ _ hstays | loops _ _ hstays =>
    obtain ⟨l, -, -, hdoes⟩ := hstays.does
    exact hdoes.later
  | _ => exact .refl M

theorem Moves.memory {v : Value} {w : View} (h : Moves L i f fs st b M (some v) w) : w.memory = M := by
  cases h
  rfl

theorem step_of_ahead {c : Opcode} {bs : List UInt8} {Q : Option Value → View → Prop}
    (h : f.Ahead (c.byte :: bs)) (hx : Meets (execute c) ⟨f.skip 1 :: fs, st, b, M⟩ Q) :
    Meets step ⟨f :: fs, st, b, M⟩ Q := by
  refine (readByte_yields h).bind ?_
  rw [Opcode.ofByte?_byte]
  exact hx

theorem At.next {c : Opcode} {ns : List Nat} {ls : Array Value} (h : f.At L i)
    (hi : L.code[i]? = some l) (hasm : l.asm = .op c ns) (hin : i + 1 < L.code.length)
    (hwithin : Shape.Within L.limits.exact ((L.shape i).after c ns) (L.shape (i + 1)))
    (hstores : Frame.Stores f.locals ls c ns) (hn : c = .makeCell → ns.headD 0 < f.locals.size) :
    ({ (f.skip 1).skip (totalWidth c.widths) with locals := ls } : Frame).At L (i + 1) := by
  have hsize : ls.size = f.locals.size := by
    cases c with
    | setLocal | makeCell =>
      obtain ⟨v, rfl⟩ := hstores
      simp
    | _ => exact congrArg Array.size hstores
  refine ⟨h.chunk, hin, ?_, hsize ▸ h.locals, h.free, fun j hj => ?_⟩
  · show f.ip + 1 + totalWidth c.widths = _
    rw [Assembly.offset_succ hi, hasm, h.ip, Asm.size, Nat.add_assoc]
  · have hafter := hwithin.slots j true hj
    have hkept : ls = f.locals → (L.shape i).slots j = some true → ∃ r, ls[j]? = some (.cell r) := by
      rintro rfl hj
      exact h.cells j hj
    cases c with
    | setLocal =>
      obtain ⟨v, rfl⟩ := hstores
      simp only [Shape.after, Shape.stored, Shape.store] at hafter
      split at hafter
      · cases hafter
      · rename_i hne
        obtain ⟨r, hr⟩ := h.cells j hafter
        exact ⟨r, by rw [Array.getElem?_setIfInBounds_ne (Ne.symm hne)]; exact hr⟩
    | makeCell =>
      obtain ⟨r, rfl⟩ := hstores
      simp only [Shape.after, Shape.stored, Shape.store] at hafter
      split at hafter
      · rename_i heq
        subst heq
        exact ⟨r, Array.getElem?_setIfInBounds_self_of_lt (hn rfl)⟩
      · rename_i hne
        obtain ⟨r', hr⟩ := h.cells j hafter
        exact ⟨r', by rw [Array.getElem?_setIfInBounds_ne (Ne.symm hne)]; exact hr⟩
    | _ => exact hkept hstores hafter

theorem leads_next {c : Opcode} {ns : List Nat} (hi : L.code[i]? = some l) (hasm : l.asm = .op c ns)
    (hwithin : Shape.Within L.limits.exact ((L.shape i).after c ns) (L.shape (i + 1))) :
    L.Leads i (i + 1) := by
  intro k hk
  obtain ⟨x, hx⟩ := Option.isSome_iff_exists.mp hk
  have hafter := hwithin.slots k x hx
  have hkept : (L.shape i).slots k = some x → L.Writes i k ∨ ((L.shape i).slots k).isSome :=
    fun h => .inr (by rw [h]; rfl)
  cases c with
  | setLocal | makeCell =>
    simp only [Shape.after, Shape.stored, Shape.store] at hafter
    split at hafter
    · rename_i heq
      exact .inl ⟨l, _, ns, hi, hasm, by simp, heq.symm⟩
    · exact hkept hafter
  | _ => exact hkept hafter

theorem operate_moves {c : Opcode} {ns : List Nat} (hL : L.Sound) (h : f.At L i)
    (hheight : f.base + (L.shape i).height ≤ st.length) (hi : L.code[i]? = some l)
    (hasm : l.asm = .op c ns) (hcall : c ≠ .call) (hret : c ≠ .ret) (hunwrap : c ≠ .unwrapOrReturn) :
    Meets step ⟨f :: fs, st, b, M⟩ (Moves L i f fs st b M) := by
  have hstays : ¬ L.Backs i := Listing.not_backs hi hasm (by simp)
  have hgood := hL.good hi
  have hahead := h.ahead hL hi
  rw [hasm] at hgood hahead
  obtain ⟨⟨hspecial, hfits⟩, hpops, hasks, hnext⟩ := hgood
  obtain ⟨hin, hwithin⟩ := hnext hret
  have hpermits := h.permits hasks
  have hexecute : execute c = do
      operate c
      return none := by
    cases c <;> first | rfl | exact absurd rfl hret | exact absurd rfl hunwrap
  have hoperate : Meets (operate c) ⟨f.skip 1 :: fs, st, b, M⟩ fun _ w =>
      Moves L i f fs st b M none w := by
    refine (operate_meets hspecial hcall hret hunwrap hfits hahead.tail hpermits
      (Nat.le_trans hpops (Nat.le_trans (Nat.le_add_left _ _) hheight))).mono ?_
    rintro _ _ ⟨ls, top, M', hacts, htop, rfl⟩
    refine .goes hstays (Nat.lt_add_one i) ⟨leads_next hi hasm hwithin,
      At.next h hi hasm hin hwithin hacts.stores ?_, rfl, ?_, l, hi, by rw [hasm]; rfl, ?_⟩
    · rintro rfl
      exact hpermits
    · have hsize := hwithin.height
      simp only [Shape.after] at hsize
      rw [List.length_append, List.length_drop, htop]
      omega
    · rw [hasm]
      exact .op hret hacts
  refine step_of_ahead hahead ?_
  rw [hexecute]
  exact hoperate.map

theorem enter_meets (name : String) (chunk : Chunk) (count : Int) (free : List Ref) (args : List Value) :
    Meets (enter name chunk count free args) ⟨fs, st, b, M⟩ fun _ w => fs.length < maxFrames ∧
      w = ⟨⟨name, chunk, free, args.toArray ++ Array.replicate (count.toNat - args.length) Value.absent,
        0, st.length⟩ :: fs, st, b, M⟩ := by
  refine .ofGet fun m hm => ?_
  obtain ⟨hfs, -, -, -⟩ := View.mk.inj hm
  rw [hfs]
  split
  · exact .fail _
  · rename_i hroom
    intro m' hm'
    obtain ⟨rfl, rfl, rfl, rfl⟩ := View.mk.inj hm'
    exact ⟨Nat.lt_of_not_le hroom, rfl⟩

/-- What a call of `a` does: it enters a function, or it is done at once. The last argument is first. -/
def Calls (a : Value) (args : List Value) (fs : List Frame) (st : List Value) (b : Nat) (M : Memory)
    (w : View) : Prop :=
  (∃ v, w = ⟨fs, v :: st, b, M⟩) ∨
    ∃ (r : Ref) (x : Function) (chunk : Chunk) (free : List Ref), a.Closes r free ∧
      fs.length < maxFrames ∧ M.funcs[r]? = some x ∧ x.chunk = some chunk ∧ x.arity = args.length ∧
        x.freeCount = free.length ∧
          w = ⟨⟨x.name, chunk, free, args.reverse.toArray ++
            Array.replicate (x.localCount.toNat - args.reverse.length) Value.absent, 0, st.length⟩ :: fs,
              st, b, M⟩

theorem callFunction_meets {a : Value} {r : Ref} {x : Function} {free : List Ref}
    (ha : a.Closes r free) (hx : M.funcs[r]? = some x) (args : List Value) :
    Meets (callFunction x free args.length) ⟨fs, args ++ st, b, M⟩ fun _ w =>
      Calls a args fs st b M w := by
  rw [callFunction]
  split
  · exact .fail _
  rename_i harity
  split
  · exact .fail _
  rename_i chunk hchunk
  split
  · exact .fail _
  rename_i hfree
  refine (popMany_yields args st).bind ((enter_meets x.name chunk x.localCount free _).mono ?_)
  rintro _ _ ⟨hroom, rfl⟩
  exact .inr ⟨r, x, chunk, free, ha, hroom, hx, hchunk, by simpa using harity, by simpa using hfree, rfl⟩

theorem functionAt_meets (r : Ref) {v : View} :
    Meets (functionAt r) v fun x w => w.memory = v.memory ∧ (w = v ∧ v.memory.funcs[r]? = some x) := by
  rintro m rfl
  have hlook : (look fun h => h.func? r).run m = (.ok (m.world.heap.func? r), m) := rfl
  rw [functionAt, bind_run, hlook]
  cases hr : m.world.heap.func? r with
  | none => exact ⟨fun _ h => (nomatch h), rfl⟩
  | some x => exact ⟨rfl, rfl, hr⟩

theorem Trades.calls {x : Exec Unit} {a : Value} {args : List Value} (hx : Trades args.length 1 x) :
    Meets x ⟨fs, args ++ st, b, M⟩ fun _ w => Calls a args fs st b M w := by
  refine (hx fs args st b M rfl).mono ?_
  rintro _ _ ⟨top, htop, rfl⟩
  obtain ⟨v, rfl⟩ := List.length_eq_one_iff.mp htop
  exact .inl ⟨v, rfl⟩

theorem call_meets (callee : Value) (args : List Value) :
    Meets (call args.length) ⟨fs, callee :: (args ++ st), b, M⟩ fun _ w =>
      Calls callee args fs st b M w := by
  refine pop_yields.bind (.ofGet fun m hm => ?_)
  obtain ⟨-, hst, -, -⟩ := View.mk.inj hm
  rw [hst, takeFrom_append]
  dsimp only [Option.isNone_some]
  cases callee with
  | func r =>
    refine (functionAt_meets r).bind ?_
    rintro x _ ⟨rfl, hx⟩
    exact callFunction_meets (.inl ⟨rfl, rfl⟩) hx args
  | closure id r free =>
    refine (functionAt_meets r).bind ?_
    rintro x _ ⟨rfl, hx⟩
    exact callFunction_meets (.inr ⟨id, rfl⟩) hx args
  | ctor i c => exact (construct_trades c args.length).calls
  | builtin id p =>
    dsimp only
    cases p.impl with
    | none => exact .fail _
    | some prim =>
      refine Trades.calls (.bind (popMany_trades _) fun vs => .bind (callHost_trades 0 prim vs) fun r => ?_)
      split
      · exact push_trades 0 _
      · exact push_trades 0 _
      · exact .fail _
      · exact .fault _
  | _ => exact Trades.calls (.bind (presentText_trades _ _) fun _ => .fail _)

theorem call_moves {ns : List Nat} (hL : L.Sound) (h : f.At L i)
    (hheight : f.base + (L.shape i).height ≤ st.length) (hi : L.code[i]? = some l)
    (hasm : l.asm = .op .call ns) : Meets step ⟨f :: fs, st, b, M⟩ (Moves L i f fs st b M) := by
  have hstays : ¬ L.Backs i := Listing.not_backs hi hasm (by simp)
  have hgood := hL.good hi
  have hahead := h.ahead hL hi
  rw [hasm] at hgood hahead
  obtain ⟨⟨-, hfits⟩, hpops, -, hnext⟩ := hgood
  obtain ⟨hin, hwithin⟩ := hnext (by decide)
  obtain ⟨n, _, hn, hnil, rfl⟩ := List.forall₂_cons_left_iff.mp hfits
  obtain rfl := List.forall₂_nil_left_iff.mp hnil
  have hroom : n + 1 ≤ st.length := Nat.le_trans hpops (Nat.le_trans (Nat.le_add_left _ _) hheight)
  obtain ⟨callee, st, rfl⟩ := List.exists_cons_of_length_pos (Nat.lt_of_lt_of_le (Nat.succ_pos n) hroom)
  obtain ⟨args, rest, rfl, rfl⟩ : ∃ args rest, args.length = n ∧ st = args ++ rest :=
    ⟨st.take n, st.drop n, List.length_take_of_le (Nat.le_of_succ_le_succ hroom),
      (List.take_append_drop n st).symm⟩
  have hthere : ((f.skip 1).skip 1).At L (i + 1) :=
    At.next h hi hasm hin hwithin (c := .call) rfl nofun
  have hsize := hwithin.height
  simp only [Shape.after, Opcode.pops, Opcode.pushes, List.headD_cons] at hsize
  rw [List.length_cons, List.length_append] at hheight
  have hpop : args.length + 1 ≤ (L.shape i).height := hpops
  have hbyte : (UInt8.ofNat args.length).toNat = args.length := littleEndian_one (by simpa using hn)
  have hcall : Meets (operate .call) ⟨f.skip 1 :: fs, callee :: (args ++ rest), b, M⟩ fun _ w =>
      Moves L i f fs (callee :: (args ++ rest)) b M none w := by
    refine (readByte_yields hahead.tail).bind ?_
    rw [hbyte]
    refine (call_meets callee args).mono ?_
    rintro _ _ (⟨v, rfl⟩ | ⟨r, x, chunk, free, hcallee, hframes, hx, hchunk, harity, hfree, rfl⟩)
    · refine .goes hstays (Nat.lt_add_one i) ⟨leads_next hi hasm hwithin, hthere, rfl, ?_, l, hi,
        by rw [hasm]; rfl, ?_⟩
      · rw [List.length_cons]
        omega
      · have hdoes : f.Does (callee :: (args ++ rest)) M (.op .call [args.length]) f.locals
            ([v] ++ (callee :: (args ++ rest)).drop (Opcode.call.pops [args.length])) M :=
          .op nofun ⟨rfl, rfl⟩
        have hdrop : (callee :: (args ++ rest)).drop (Opcode.call.pops [args.length]) = rest := by
          simp [Opcode.pops]
        rw [hdrop] at hdoes
        rwa [hasm]
    · refine .enters ⟨l, hi, by rw [List.length_reverse]; exact hasm⟩ (leads_next hi hasm hwithin) hthere
        rfl ?_ hframes (by rw [List.reverse_reverse]) hcallee hx hchunk
        (by rw [List.length_reverse]; exact harity) hfree
      omega
  exact step_of_ahead hahead hcall.map

theorem length_toHeight (n : Nat) (st : List Value) : (toHeight n st).length = n := by
  rw [toHeight, List.length_append, List.length_replicate, List.length_drop]
  omega

theorem leave_meets (hs : L.Returns i) (v : Value) (st' : List Value) :
    Meets (leave v) ⟨f.skip 1 :: fs, st', b, M⟩ (Moves L i f fs st b M) := by
  refine frame_yields.bind ?_
  rintro ⟨w, gs, st'', fs', b'⟩ hm
  obtain ⟨rfl, rfl, rfl, rfl⟩ := View.mk.inj hm
  exact .leaves hs (length_toHeight _ _) rfl

theorem ret_moves {ns : List Nat} (hL : L.Sound) (h : f.At L i)
    (hheight : f.base + (L.shape i).height ≤ st.length) (hi : L.code[i]? = some l)
    (hasm : l.asm = .op .ret ns) : Meets step ⟨f :: fs, st, b, M⟩ (Moves L i f fs st b M) := by
  have hgood := hL.good hi
  have hahead := h.ahead hL hi
  rw [hasm] at hgood hahead
  obtain ⟨-, hpops, -, -⟩ := hgood
  obtain ⟨v, rest, rfl⟩ := List.exists_cons_of_length_pos
    (Nat.le_trans hpops (Nat.le_trans (Nat.le_add_left _ _) hheight))
  exact step_of_ahead hahead (pop_yields.bind (leave_meets ⟨l, .ret, ns, hi, hasm, .inl rfl⟩ v rest))

theorem unwrap_moves {ns : List Nat} (hL : L.Sound) (h : f.At L i)
    (hheight : f.base + (L.shape i).height ≤ st.length) (hi : L.code[i]? = some l)
    (hasm : l.asm = .op .unwrapOrReturn ns) :
    Meets step ⟨f :: fs, st, b, M⟩ (Moves L i f fs st b M) := by
  have hstays : ¬ L.Backs i := Listing.not_backs hi hasm (by simp)
  have hgood := hL.good hi
  have hahead := h.ahead hL hi
  rw [hasm] at hgood hahead
  obtain ⟨-, hpops, -, hnext⟩ := hgood
  obtain ⟨hin, hwithin⟩ := hnext (by decide)
  obtain ⟨v, rest, rfl⟩ := List.exists_cons_of_length_pos
    (Nat.le_trans hpops (Nat.le_trans (Nat.le_add_left _ _) hheight))
  have hthere : (f.skip 1).At L (i + 1) :=
    At.next h hi hasm hin hwithin (c := .unwrapOrReturn) rfl nofun
  have hsize := hwithin.height
  simp only [Shape.after, Opcode.pops, Opcode.pushes] at hsize
  rw [List.length_cons] at hheight
  have hpop : 1 ≤ (L.shape i).height := hpops
  refine step_of_ahead hahead (pop_yields.bind ((look_trades 0 _).before (Nat.zero_le _) fun r top htop => ?_))
  obtain rfl := List.length_eq_zero_iff.mp htop
  cases r with
  | payload x =>
    refine ((push_trades 0 x).before (Nat.zero_le _) fun _ top htop => .pure ?_)
    obtain ⟨v, rfl⟩ := List.length_eq_one_iff.mp htop
    refine .goes hstays (Nat.lt_add_one i) ⟨leads_next hi hasm hwithin, hthere, rfl, ?_, l, hi,
      by rw [hasm]; rfl, ?_⟩
    · simp only [List.length_append, List.length_cons, List.length_nil, List.length_drop]
      omega
    · rw [hasm]
      exact .op (c := .unwrapOrReturn) nofun ⟨rfl, rfl⟩
  | failure x => exact leave_meets ⟨l, .unwrapOrReturn, ns, hi, hasm, .inr rfl⟩ x _
  | broken => exact .fault _

theorem closure_moves {k : Nat} {cs : List Capture} (hL : L.Sound) (h : f.At L i)
    (hheight : f.base + (L.shape i).height ≤ st.length) (hi : L.code[i]? = some l)
    (hasm : l.asm = .closure k cs) : Meets step ⟨f :: fs, st, b, M⟩ (Moves L i f fs st b M) := by
  have hstays : ¬ L.Backs i := Listing.not_backs hi hasm (by simp)
  have hgood := hL.good hi
  have hahead := h.ahead hL hi
  rw [hasm] at hgood hahead
  obtain ⟨⟨hk, hcs, hindex⟩, ⟨r, hr⟩, hfinds, hin, hwithin⟩ := hgood
  rw [Asm.bytes, List.cons_append, List.cons_append, List.append_assoc] at hahead
  rw [← h.constants] at hr
  have hmake : Meets makeClosure ⟨f.skip 1 :: fs, st, b, M⟩ fun _ w =>
      Moves L i f fs st b M none w := by
    refine (makeClosure_meets (f := f.skip 1) hk hcs hindex hr (fun c hc => h.offers (hfinds c hc))
      hahead.tail).mono ?_
    rintro _ _ ⟨cells, hcells, rfl⟩
    have hthere := h.goto hin fun k x hx => hwithin.slots k x hx
    have hip : L.code.offset (i + 1) = f.ip + 1 + (3 + 3 * cs.length) := by
      rw [Assembly.offset_succ hi, hasm, h.ip, Asm.size]
      omega
    rw [hip] at hthere
    refine .goes hstays (Nat.lt_add_one i) ⟨.of_slots fun k x hx => hwithin.slots k x hx, hthere, rfl,
      ?_, l, hi, by rw [hasm]; rfl, ?_⟩
    · have hsize := hwithin.height
      simp only [Shape.push] at hsize
      rw [List.length_cons]
      omega
    · rw [hasm]
      exact .closure hr hcells
  exact step_of_ahead hahead (hmake.map)

theorem start_fits (hL : L.Sound) {j : Nat} (hj : j ≤ L.code.length) :
    L.code.start j = L.code.offset j ∧ L.code.offset j < 256 ^ 4 :=
  ⟨Assembly.start_eq hj, Nat.lt_of_le_of_lt (Assembly.offset_le_offset _ hj) hL.short⟩

theorem skip_moves {n : Nat} (hL : L.Sound) (h : f.At L i)
    (hheight : f.base + (L.shape i).height ≤ st.length) (hi : L.code[i]? = some l)
    (hasm : l.asm = .skip n) : Meets step ⟨f :: fs, st, b, M⟩ (Moves L i f fs st b M) := by
  have hstays : ¬ L.Backs i := Listing.not_backs hi hasm (by simp)
  have hgood := hL.good hi
  have hahead := h.ahead hL hi
  rw [hasm] at hgood hahead
  obtain ⟨hin, hwithin⟩ := hgood
  obtain ⟨hstart, hfits⟩ := start_fits hL (Nat.le_of_lt hin)
  rw [Asm.bytes, hstart, ← List.append_nil (littleEndian 4 _)] at hahead
  have hjump : Meets (operate .jump) ⟨f.skip 1 :: fs, st, b, M⟩ fun _ w =>
      Moves L i f fs st b M none w := by
    refine (readWord_yields (by decide) hfits hahead.tail).bind ((jumpTo_yields _).meets ?_)
    exact .goes hstays (by omega) ⟨.of_slots hwithin.slots, h.goto hin hwithin.slots, rfl,
      Nat.le_trans (Nat.add_le_add_left hwithin.height _) hheight, l, hi, by rw [hasm]; rfl,
        by rw [hasm]; exact .skip⟩
  exact step_of_ahead hahead (hjump.map)

theorem skipIfFalse_moves {n : Nat} (hL : L.Sound) (h : f.At L i)
    (hheight : f.base + (L.shape i).height ≤ st.length) (hi : L.code[i]? = some l)
    (hasm : l.asm = .skipIfFalse n) : Meets step ⟨f :: fs, st, b, M⟩ (Moves L i f fs st b M) := by
  have hstays : ¬ L.Backs i := Listing.not_backs hi hasm (by simp)
  have hgood := hL.good hi
  have hahead := h.ahead hL hi
  rw [hasm] at hgood hahead
  obtain ⟨hpos, hin, hnext, hskip⟩ := hgood
  obtain ⟨hstart, hfits⟩ := start_fits hL (Nat.le_of_lt hin)
  rw [Asm.bytes, hstart, ← List.append_nil (littleEndian 4 _)] at hahead
  obtain ⟨v, rest, rfl⟩ := List.exists_cons_of_length_pos
    (Nat.le_trans hpos (Nat.le_trans (Nat.le_add_left _ _) hheight))
  have hnextSize := hnext.height
  have hskipSize := hskip.height
  simp only [Shape.drop] at hnextSize hskipSize
  rw [List.length_cons] at hheight
  have hjump : Meets (operate .jumpIfFalse) ⟨f.skip 1 :: fs, v :: rest, b, M⟩ fun _ w =>
      Moves L i f fs (v :: rest) b M none w := by
    refine (readWord_yields (by decide) hfits hahead.tail).bind (pop_yields.bind ?_)
    split
    · refine (jumpTo_yields _).meets ?_
      exact .goes hstays (by omega) ⟨.of_slots hskip.slots, h.goto hin hskip.slots, rfl, by omega, l, hi,
        by rw [hasm]; exact .inr rfl, by rw [hasm]; exact .test⟩
    · have hthere := h.goto (by omega) hnext.slots
      have hip : L.code.offset (i + 1) = f.ip + 1 + 4 := by
        rw [Assembly.offset_succ hi, hasm, h.ip, Asm.size]
      rw [hip] at hthere
      exact .pure (.goes hstays (Nat.lt_add_one i) ⟨.of_slots hnext.slots, hthere, rfl, by omega, l, hi,
        by rw [hasm]; exact .inl rfl, by rw [hasm]; exact .test⟩)
  exact step_of_ahead hahead (hjump.map)

theorem back_moves {n : Nat} (hL : L.Sound) (h : f.At L i)
    (hheight : f.base + (L.shape i).height ≤ st.length) (hi : L.code[i]? = some l)
    (hasm : l.asm = .back n) : Meets step ⟨f :: fs, st, b, M⟩ (Moves L i f fs st b M) := by
  have hgood := hL.good hi
  have hahead := h.ahead hL hi
  rw [hasm] at hgood hahead
  obtain ⟨hle, hwithin⟩ := hgood
  have hin : i - n < L.code.length := Nat.lt_of_le_of_lt (Nat.sub_le i n) h.inside
  obtain ⟨hstart, hfits⟩ := start_fits hL (Nat.le_of_lt hin)
  rw [Asm.bytes, hstart, ← List.append_nil (littleEndian 4 _)] at hahead
  have hloop : Meets loop ⟨f.skip 1 :: fs, st, b, M⟩ fun _ w =>
      Moves L i f fs st b M none w := by
    refine (readWord_yields (by decide) hfits hahead.tail).bind ((jumpTo_yields _).bind ?_)
    rintro ⟨w, gs, st', fs', b'⟩ hm
    obtain ⟨rfl, rfl, rfl, rfl⟩ := View.mk.inj hm
    cases b' with
    | zero =>
      refine ⟨fun _ h => ?_, rfl⟩
      cases h
    | succ b' =>
      exact .loops ⟨l, n, hi, hasm⟩ rfl ⟨.of_slots hwithin.slots, h.goto hin hwithin.slots, rfl,
        Nat.le_trans (Nat.add_le_add_left hwithin.height _) hheight, l, hi, by rw [hasm]; rfl,
          by rw [hasm]; exact .back⟩
  exact step_of_ahead hahead (hloop.map)

theorem step_moves (hL : L.Sound) (h : f.At L i)
    (hheight : f.base + (L.shape i).height ≤ st.length) :
    Meets step ⟨f :: fs, st, b, M⟩ (Moves L i f fs st b M) := by
  obtain ⟨l, hi⟩ := h.instruction
  cases hasm : l.asm with
  | op c ns =>
    by_cases hcall : c = .call
    · subst hcall
      exact call_moves hL h hheight hi hasm
    by_cases hret : c = .ret
    · subst hret
      exact ret_moves hL h hheight hi hasm
    by_cases hunwrap : c = .unwrapOrReturn
    · subst hunwrap
      exact unwrap_moves hL h hheight hi hasm
    exact operate_moves hL h hheight hi hasm hcall hret hunwrap
  | closure k cs => exact closure_moves hL h hheight hi hasm
  | skip n => exact skip_moves hL h hheight hi hasm
  | skipIfFalse n => exact skipIfFalse_moves hL h hheight hi hasm
  | back n => exact back_moves hL h hheight hi hasm
  | exit k =>
    -- No exit is left in placed code.
    have hgood := hL.good hi
    rw [hasm] at hgood
    cases k with
    | miss =>
      obtain ⟨-, -, -, s, hs, -⟩ := hgood
      cases hs
    | leave | next =>
      obtain ⟨s, hs, -⟩ := hgood
      cases hs

end Exec

end Scripting

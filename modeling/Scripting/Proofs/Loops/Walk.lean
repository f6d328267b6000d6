import Scripting.Proofs.Engine.Knots
import Scripting.Proofs.Machine.Callees
import Scripting.Proofs.Machine.Globals
import Scripting.Proofs.Script.Loops

/-!
# Walks over ranges and arrays

The code of a loop over a range or an array stores two hidden variables, an index and a limit, and goes
round until the index has reached the limit. `Walk` says where the parts of this code stand. A `Lap` is what
such a loop has been through since it was entered: what it stored into the hidden variables, and the items
of its rounds. `Walk.Exact` says of a run that the loop has the rounds that it should have, whatever its
body does.

The loop is in one call of the run, its `Post`. The call itself is running, or one above it is; then a step
leaves the call alone, and as long as the code of the calls above stores into other global slots, also its
variables.
-/

namespace Scripting

/-- What a loop goes over. -/
inductive Series where
  | range (start stop : Int64)
  | array (r : Ref)

namespace Series

def integers (start stop : Int64) : List Value :=
  (List.range (stop.toInt - start.toInt).toNat).map fun k : Nat => .int (Int64.ofInt (start.toInt + k))

/-- The item of a round, if there is one more round. An array is seen as it is when the round begins. Its
length is the number that a program gets, which has 64 bits. -/
def item? (h : Heap) : Series → Nat → Option Value
  | range start stop, k => (integers start stop)[k]?
  | array r, k =>
    let items := ((h.array? r).map (·.items)).getD #[]
    if (k : Int) < (Int64.ofNat items.size).toInt then items[k]? else none

end Series

/-- What a loop has been through since it was entered. -/
structure Lap where
  /-- What it stored first: the start of a range, or the array. -/
  first : Value
  /-- What it stored then: the end of a range, or the index of the first item. -/
  second : Option Value
  /-- The items of its rounds, the last one being that of the round under way. -/
  items : List Value

def Lap.Over (isRange : Bool) (lap : Lap) : Series → Prop
  | .range start stop => isRange = true ∧ lap.first = .int start ∧ ∀ v ∈ lap.second, v = .int stop
  | .array r => isRange = false ∧ lap.first = .array r

/-- A call that runs some code with some constants. There are `depth` open calls around it. -/
structure Post where
  code : Assembly
  pool : Array Value
  depth : Nat

/-- Whether the call is open, with some calls above it, and goes on with an instruction. -/
structure Post.Holds (p : Post) (m : Machine) (above : List Frame) (f : Frame) (i : Nat) : Prop where
  frames : ∃ fs, m.frames = above ++ f :: fs ∧ fs.length = p.depth
  chunk : f.chunk = p.code.chunk p.pool f.chunk.file
  ip : f.ip = p.code.start i
  inside : i < p.code.length

/-- Whether the call is running, and an instruction comes next. -/
def Post.Stops (p : Post) (m : Machine) (i : Nat) : Prop := ∃ f, p.Holds m [] f i

/-- The value of a variable that the code of a frame works with. -/
def Machine.valueOf (m : Machine) (f : Frame) (x : Binding) : Option Value :=
  match x.storage, x.captured with
  | .global, _ => m.globals[x.index]?
  | .frame, false => f.locals[x.index]?
  | .frame, true =>
    match f.locals[x.index]? with
    | some (.cell r) => m.world.heap.cells[r]?
    | _ => none

/-- The places of a loop over a range or an array in some code, and its variables. -/
structure Walk where
  isRange : Bool
  index : Binding
  limit : Binding
  item : Binding
  /-- The place of 1 among the constants. -/
  one : Nat
  /-- The place of the instruction that stores the first hidden variable. -/
  firstAt : Nat
  /-- How much code there is between it and the one that stores the second one. -/
  between : Nat
  /-- How much code the body has. -/
  body : Nat

namespace Walk

variable (w : Walk)

def secondAt : Nat := w.firstAt + 1 + w.between

/-- The place of the test whether there is one more round. -/
def testAt : Nat := w.secondAt + 1

def checkAt : Nat := w.testAt + if w.isRange then 3 else 4

def itemAt : Nat := w.checkAt + if w.isRange then 2 else 4

def bodyAt : Nat := w.itemAt + 1

/-- The place of the code behind the body that counts the index up. -/
def stepAt : Nat := w.bodyAt + w.body

def exitAt : Nat := w.stepAt + 5

variable (p : Post)

/-- Whether the call is in the loop: it has stored the first hidden variable. -/
def Inside (m : Machine) : Prop :=
  ∃ above f i, p.Holds m above f i ∧ w.firstAt < i ∧ i < w.exitAt

/-- The states of a run in which the call is in the loop, with what the loop has been through. -/
inductive Runs (m₀ : Machine) : Machine → Lap → Prop
  | start {n : Nat} {m m' : Machine} {v : Value} {st : List Value} (reached : m₀.after n = .inl m)
      (stops : p.Stops m w.firstAt) (value : m.stack = v :: st) (step : m.next = .inl m') :
      Runs m₀ m' ⟨v, none, []⟩
  | second {m m' : Machine} {lap : Lap} {v : Value} {st : List Value} (before : Runs m₀ m lap)
      (stops : p.Stops m w.secondAt) (value : m.stack = v :: st) (step : m.next = .inl m') :
      Runs m₀ m' { lap with second := some v }
  | item {m m' : Machine} {lap : Lap} {v : Value} {st : List Value} (before : Runs m₀ m lap)
      (stops : p.Stops m w.itemAt) (value : m.stack = v :: st) (step : m.next = .inl m') :
      Runs m₀ m' { lap with items := lap.items ++ [v] }
  | other {m m' : Machine} {lap : Lap} (before : Runs m₀ m lap) (notSecond : ¬ p.Stops m w.secondAt)
      (notItem : ¬ p.Stops m w.itemAt) (step : m.next = .inl m') (inside : w.Inside p m') : Runs m₀ m' lap

/-- Whether a loop has the rounds that it should have, in the run that starts with `m₀`. -/
structure Exact (m₀ : Machine) : Prop where
  /-- There is no way into the loop but through its start. -/
  entered : ∀ n m, m₀.after n = .inl m → w.Inside p m → ∃ lap, w.Runs p m₀ m lap
  /-- The store of the first hidden variable leads to the code in front of the second store. -/
  opens : ∀ n m, m₀.after n = .inl m → p.Stops m w.firstAt → ∃ v m', m.stack.head? = some v ∧
    m.next = .inl m' ∧ p.Stops m' (w.firstAt + 1) ∧ w.Runs p m₀ m' ⟨v, none, []⟩
  /-- The second store leads to the test for the first round. -/
  enters : ∀ m lap, w.Runs p m₀ m lap → p.Stops m w.secondAt → ∃ v m', m.stack.head? = some v ∧
    m.next = .inl m' ∧ p.Stops m' w.testAt ∧ w.Runs p m₀ m' { lap with second := some v }
  /-- A round begins if there is an item for it, and the variable of the loop holds the item then. If there
  is none, the loop is left. -/
  tests : ∀ m lap s, w.Runs p m₀ m lap → lap.Over w.isRange s → p.Stops m w.testAt →
    match s.item? m.world.heap lap.items.length with
    | some v => ∃ n m' f, m.after n = .inl m' ∧ p.Holds m' [] f w.bodyAt ∧
        m'.valueOf f w.item = some v ∧ w.Runs p m₀ m' { lap with items := lap.items ++ [v] }
    | none => ∃ n m', m.after n = .inl m' ∧ p.Stops m' w.exitAt
  /-- Nothing but the beginning of a round leads to the body, or the body itself. -/
  begins : ∀ m lap m', w.Runs p m₀ m lap → m.next = .inl m' → p.Stops m' w.bodyAt →
    ∃ i, p.Stops m i ∧ (i = w.itemAt ∨ w.bodyAt ≤ i ∧ i < w.stepAt)
  /-- The body leads to its end, out of the loop or out of the call. -/
  bodies : ∀ m lap i m', w.Runs p m₀ m lap → p.Stops m i → w.bodyAt ≤ i → i < w.stepAt →
    m.next = .inl m' → (∃ above f j, p.Holds m' above f j ∧ w.bodyAt ≤ j ∧ j ≤ w.stepAt) ∨
      p.Stops m' w.exitAt ∨ m'.frames.length = p.depth
  /-- Behind the body comes the test for the next round, if one more jump back is allowed. -/
  steps : ∀ m lap s, w.Runs p m₀ m lap → lap.Over w.isRange s → p.Stops m w.stepAt →
    if m.budget = 0 then ∃ n d m', m.after n = .inr (.failed d, m')
    else ∃ n m', m.after n = .inl m' ∧ p.Stops m' w.testAt ∧ w.Runs p m₀ m' lap
  /-- The items of a range are its integers in increasing order. -/
  counts : ∀ m lap start stop, w.Runs p m₀ m lap → lap.Over w.isRange (.range start stop) →
    lap.items <+: Series.integers start stop
  /-- The loop is left where it tests for one more round and there is none, or from the code of its second
  bound, or from its body. -/
  leaves : ∀ m lap s m', w.Runs p m₀ m lap → lap.Over w.isRange s → m.next = .inl m' → ¬ w.Inside p m' →
    ∃ i, p.Stops m i ∧ (i = w.checkAt ∧ p.Stops m' w.exitAt ∧ s.item? m.world.heap lap.items.length = none ∨
      (w.firstAt < i ∧ i < w.secondAt) ∨ (w.bodyAt ≤ i ∧ i < w.stepAt))
  /-- A loop over a range that is left where it tests had a round for each integer of the range. -/
  completes : ∀ m lap start stop m', w.Runs p m₀ m lap → lap.Over w.isRange (.range start stop) →
    m.next = .inl m' → p.Stops m w.checkAt → p.Stops m' w.exitAt → lap.items = Series.integers start stop

end Walk

/-- The places of a loop whose code stands at some place. -/
def EachParts.walk (r : EachParts) (K : Lowering) (o : Nat) : Walk :=
  ⟨r.isRange, K.program.binding r.slots.index, K.program.binding r.slots.limit,
    K.program.binding r.slots.item, r.one, o + r.lead.length, r.between.length, r.body.length⟩

/-- Whether a loop of a tree has its places in some code. -/
def Lowering.Walks (K : Lowering) (code : Assembly) (s : Stmt .typed) (w : Walk) : Prop :=
  ∃ r o, Lowers.Each K s r ∧ r.Whole ∧ code.Holds (r.code K) o ∧ w = r.walk K o

def Asm.Spares (x : Binding) : Asm → Prop
  | .op c ns =>
    match x.storage with
    | .global => c = .setGlobal → ns.headD 0 ≠ x.index
    | .frame => c = .setLocal ∨ c = .makeCell → ns.headD 0 ≠ x.index
  | _ => True

def Chunk.Spares (x : Binding) (c : Chunk) : Prop :=
  x.storage = .global → ∀ L : Listing, L.Sound → c = L.code.chunk L.limits.pool c.file →
    ∀ a ∈ L.asms, a.Spares x

section

variable {m m' : Machine} {f f' : Frame} {x : Binding} {v : Value}

theorem Machine.valueOf_congr (hlocals : f'.locals = f.locals) (hglobals : m'.globals = m.globals)
    (hx : x.captured = false) : m'.valueOf f' x = m.valueOf f x := by
  unfold valueOf
  rw [hx, hlocals, hglobals]
  cases x.storage <;> rfl

theorem Frame.Does.valueOf {a : Asm} (h : f.Does m.stack m.memory a f'.locals m'.stack m'.memory)
    (ha : a.Spares x) (hx : x.captured = false) (hv : m.valueOf f x = some v) : m'.valueOf f' x = some v := by
  have hsame : f'.locals = f.locals → m'.memory.globals = m.memory.globals → m'.valueOf f' x = some v :=
    fun hlocals hglobals => (Machine.valueOf_congr hlocals hglobals hx).trans hv
  generalize hst : m.stack = st at h
  generalize hst' : m'.stack = st' at h
  generalize hM : m.memory = M at h hsame
  generalize hM' : m'.memory = M' at h hsame
  generalize hls : f'.locals = ls at h hsame
  have hglobals : m.globals = M.globals := by rw [← hM]; rfl
  have hglobals' : m'.globals = M'.globals := by rw [← hM']; rfl
  cases h with
  | @op c ns _ _ _ _ hacts =>
    have hlocal : ∀ w, ls = f.locals.setIfInBounds (ns.headD 0) w → M'.globals = M.globals →
        (x.storage = .frame → ns.headD 0 ≠ x.index) → m'.valueOf f' x = some v := by
      intro w hw hg hne
      rw [Machine.valueOf, hx] at hv ⊢
      cases hstorage : x.storage with
      | global =>
        rw [hstorage] at hv
        rw [hglobals', hg, ← hglobals]
        exact hv
      | frame =>
        rw [hstorage] at hv
        rw [hls, hw]
        exact (Array.getElem?_setIfInBounds_ne (hne hstorage)).trans hv
    have hspares : ∀ {s}, x.storage = s → match s with
        | .global => c = .setGlobal → ns.headD 0 ≠ x.index
        | .frame => c = .setLocal ∨ c = .makeCell → ns.headD 0 ≠ x.index := fun hs => by
      rw [Asm.Spares, hs] at ha
      exact ha
    by_cases hglobal : c = .setGlobal
    · subst hglobal
      obtain ⟨rfl, w, -, rfl⟩ := hacts
      rw [Machine.valueOf, hx] at hv ⊢
      cases hstorage : x.storage with
      | frame =>
        rw [hstorage] at hv
        rw [hls]
        exact hv
      | global =>
        rw [hstorage] at hv
        rw [hglobals']
        exact Exec.getElem?_storeGlobal_of_ne (hspares hstorage rfl) (hglobals ▸ hv)
    · have hsameGlobals := hacts.globals hglobal
      have hstores := hacts.stores
      cases c with
      | setLocal =>
        obtain ⟨w, hw⟩ := hstores
        exact hlocal w hw hsameGlobals fun hs => hspares hs (.inl rfl)
      | makeCell =>
        obtain ⟨w, hw⟩ := hstores
        exact hlocal _ hw hsameGlobals fun hs => hspares hs (.inr rfl)
      | _ => exact hsame hstores hsameGlobals
  | _ => exact hsame rfl rfl

end

theorem Assembly.start_congr {c d : Assembly} (h : c.map (·.asm) = d.map (·.asm)) : c.start = d.start := by
  have hstarts : c.starts = d.starts := by
    have hfold : ∀ (c : Assembly) (xs : Array Nat),
        c.foldl (fun xs l => xs.push (xs.back?.getD 0 + l.asm.size)) xs
          = (c.map (·.asm)).foldl (fun xs a => xs.push (xs.back?.getD 0 + a.size)) xs := by
      intro c xs
      rw [List.foldl_map]
    rw [starts, starts, hfold, hfold, h]
  funext i
  rw [start, start, hstarts]

namespace Post

def asms (p : Post) : List Asm := p.code.map (·.asm)

/-- Whether the code of the call can be run. -/
def Sound (p : Post) : Prop := ∃ L : Listing, L.Sound ∧ L.code = p.code ∧ L.limits.pool = p.pool

/-- The call while it is running. -/
structure Running (p : Post) (m : Machine) (L : Listing) (f : Frame) (fs : List Frame) (i : Nat) : Prop where
  frames : m.frames = f :: fs
  depth : fs.length = p.depth
  sound : L.Sound
  here : f.At L i
  height : f.base + (L.shape i).height ≤ m.stack.length
  asms : L.asms = p.asms
  pool : L.limits.pool = p.pool

variable {p : Post} {m m' : Machine} {L : Listing} {f f' g : Frame} {fs above : List Frame} {i j : Nat}
  {ws : List (List Nat)}

theorem asms_length (p : Post) : p.asms.length = p.code.length := List.length_map _

theorem start_eq (h : L.asms = p.asms) : L.code.start = p.code.start := Assembly.start_congr h

theorem holds_of_at (hframes : m.frames = above ++ f :: fs) (hdepth : fs.length = p.depth)
    (hat : f.At L i) (hasms : L.asms = p.asms) (hchunk : f.chunk = p.code.chunk p.pool f.chunk.file) :
    p.Holds m above f i := by
  refine ⟨⟨fs, hframes, hdepth⟩, hchunk, ?_, ?_⟩
  · rw [hat.ip, ← start_eq hasms, Assembly.start_eq (Nat.le_of_lt hat.inside)]
  · have hlength := congrArg List.length hasms
    rw [Listing.asms, List.length_map, asms_length] at hlength
    exact hlength ▸ hat.inside

namespace Sound

variable (hp : p.Sound)
include hp

theorem asms_eq (hL : L.Sound) {file file' : String}
    (hc : L.code.chunk L.limits.pool file = p.code.chunk p.pool file') :
    L.asms = p.asms ∧ L.limits.pool = p.pool := by
  obtain ⟨L', hL', hcode, hpool⟩ := hp
  rw [asms, ← hcode, ← hpool]
  exact hL.asms_eq hL' (by rw [hc, hcode, hpool])

theorem start_inj (hi : i < p.code.length) (hj : j < p.code.length)
    (h : p.code.start i = p.code.start j) : i = j := by
  obtain ⟨L', hL', hcode, -⟩ := hp
  rw [← hcode] at hi hj h
  exact hL'.start_inj hi hj h

theorem running (hs : m.Stands ws) (hframes : m.frames = f :: fs) (hdepth : fs.length = p.depth)
    (hchunk : f.chunk = p.code.chunk p.pool f.chunk.file) : ∃ L i, p.Running m L f fs i := by
  obtain ⟨L, i, f', fs', w, ws', -, hr⟩ := hs.runs
  obtain ⟨rfl, rfl⟩ := List.cons.inj (hframes.symm.trans hr.frames)
  obtain ⟨hasms, hpool⟩ := hp.asms_eq hr.sound (hr.here.chunk.symm.trans hchunk)
  exact ⟨L, i, hframes, hdepth, hr.sound, hr.here, hr.height, hasms, hpool⟩

end Sound

theorem Running.holds (h : p.Running m L f fs i) (hchunk : f.chunk = p.code.chunk p.pool f.chunk.file) :
    p.Holds m [] f i := holds_of_at h.frames h.depth h.here h.asms hchunk

theorem Holds.unique (hp : p.Sound) {above' : List Frame} (h : p.Holds m above f i)
    (h' : p.Holds m above' f' j) : above' = above ∧ f' = f ∧ j = i := by
  obtain ⟨fs, hframes, hdepth⟩ := h.frames
  obtain ⟨fs', hframes', hdepth'⟩ := h'.frames
  have hlength : above'.length = above.length := by
    have hsame := congrArg List.length (hframes.symm.trans hframes')
    simp only [List.length_append, List.length_cons] at hsame
    omega
  obtain ⟨rfl, hrest⟩ := List.append_inj (hframes'.symm.trans hframes) hlength
  obtain ⟨rfl, rfl⟩ := List.cons.inj hrest
  exact ⟨rfl, rfl, hp.start_inj h'.inside h.inside (h'.ip.symm.trans h.ip)⟩

theorem Holds.runs (hp : p.Sound) (hs : m.Stands ws) (h : p.Holds m [] f i) :
    ∃ L fs, p.Running m L f fs i := by
  obtain ⟨fs, hframes, hdepth⟩ := h.frames
  obtain ⟨L, j, hr⟩ := hp.running hs hframes hdepth h.chunk
  obtain ⟨-, -, rfl⟩ := h.unique hp (hr.holds h.chunk)
  exact ⟨L, fs, hr⟩

/-- What a step of the call itself does. -/
inductive Steps (p : Post) (m : Machine) (f : Frame) (i : Nat) (m' : Machine) : Prop
  /-- The call goes on. -/
  | goes {f' : Frame} {j : Nat} {a : Asm} (there : p.asms[i]? = some a) (goesTo : a.GoesTo i j)
      (holds : p.Holds m' [] f' j) (does : f.Does m.stack m.memory a f'.locals m'.stack m'.memory)
  /-- It calls a function. -/
  | enters {g : Frame} {ns : List Nat} {v : Value} {r : Ref} {free : List Ref} {x : Function}
      (there : p.asms[i]? = some (.op .call ns))
      (holds : p.Holds m' [g] { f with ip := p.code.start (i + 1) } (i + 1)) (memory : m'.memory = m.memory)
      (callee : v ∈ m.stack) (closes : v.Closes r free) (known : m.memory.funcs[r]? = some x)
      (body : x.chunk = some g.chunk)
  /-- It returns. -/
  | leaves {ns : List Nat} {c : Opcode} (there : p.asms[i]? = some (.op c ns))
      (returns : c = .ret ∨ c = .unwrapOrReturn) (closed : m'.frames.length = p.depth)

theorem Holds.next (hp : p.Sound) (hs : m.Stands ws) (h : p.Holds m [] f i) (hnext : m.next = .inl m') :
    p.Steps m f i m' := by
  obtain ⟨L, fs, hr⟩ := h.runs hp hs
  have hmoves := Machine.next_moves hr.frames hr.sound hr.here hr.height hnext
  have hinstruction : ∀ {l : Asm.Line}, L.code[i]? = some l → p.asms[i]? = some l.asm := fun hl =>
    hr.asms ▸ Listing.getElem?_asms hl
  generalize hv : m'.view = v at hmoves
  cases hmoves with
  | goes _ _ hstays | loops _ _ hstays =>
    obtain ⟨hframes, hstack, -, hmemory⟩ := View.mk.inj hv
    obtain ⟨l, hl, hgoes, hdoes⟩ := hstays.does
    refine .goes (hinstruction hl) hgoes (holds_of_at hframes hr.depth hstays.there hr.asms ?_) ?_
    · rw [hstays.chunk]
      exact h.chunk
    · rw [hstack, hmemory]
      exact hdoes
  | @enters f' st' args a r x chunk free hcall _ hthere hrest _ _ hstack hcallee hknown hbody =>
    obtain ⟨hframes, -, -, hmemory⟩ := View.mk.inj hv
    obtain ⟨l, hl, hasm⟩ := hcall
    have hip : f'.ip = p.code.start (i + 1) := by
      rw [hthere.ip, ← start_eq hr.asms, Assembly.start_eq (Nat.le_of_lt hthere.inside)]
    obtain rfl : f' = { f with ip := p.code.start (i + 1) } := by rw [hrest, hip]
    refine .enters (hasm ▸ hinstruction hl)
      (holds_of_at hframes hr.depth hthere hr.asms h.chunk) hmemory
        (hstack ▸ List.mem_cons_self) hcallee hknown hbody
  | leaves hreturns _ hresult =>
    obtain ⟨hframes, -, -, -⟩ := View.mk.inj hv
    obtain ⟨l, c, ns, hl, hasm, hc⟩ := hreturns
    exact .leaves (hasm ▸ hinstruction hl) hc (hframes ▸ hr.depth)

theorem Holds.budget (hp : p.Sound) (hs : m.Stands ws) (h : p.Holds m [] f i) (hnext : m.next = .inl m')
    (hback : ∀ n, p.asms[i]? ≠ some (.back n)) : m'.budget = m.budget := by
  obtain ⟨L, fs, hr⟩ := h.runs hp hs
  have hmoves := Machine.next_moves hr.frames hr.sound hr.here hr.height hnext
  generalize hv : m'.view = v at hmoves
  cases hmoves with
  | loops hbacks =>
    obtain ⟨l, n, hl, hasm⟩ := hbacks
    exact absurd (hr.asms ▸ hasm ▸ Listing.getElem?_asms hl) (hback n)
  | _ => exact (View.mk.inj hv).2.2.1

theorem Holds.keeps (hp : p.Sound) (hs : m.Stands ws) (h : p.Holds m [] f i) (hnext : m.next = .inl m')
    (h' : p.Holds m' above f' j) {x : Binding} {v : Value} (hspares : ∀ a, p.asms[i]? = some a → a.Spares x)
    (hx : x.captured = false) (hv : m.valueOf f x = some v) : m'.valueOf f' x = some v := by
  rcases h.next hp hs hnext with ⟨ha, -, hholds, hdoes⟩ | ⟨-, hholds, hmemory, -⟩ | ⟨-, -, hclosed⟩
  · obtain ⟨-, rfl, -⟩ := hholds.unique hp h'
    exact hdoes.valueOf (hspares _ ha) hx hv
  · obtain ⟨-, rfl, -⟩ := hholds.unique hp h'
    rw [← hv]
    exact Machine.valueOf_congr rfl (congrArg Memory.globals hmemory) hx
  · obtain ⟨fs, hframes, hdepth⟩ := h'.frames
    rw [hframes, List.length_append, List.length_cons] at hclosed
    omega

theorem Holds.calls {P : Chunk → Prop} (hp : p.Sound) (hs : m.Stands ws) (h : p.Holds m [] f i)
    (hnext : m.next = .inl m') (h' : p.Holds m' above f' j)
    (hcalls : ∀ v ∈ m.stack, ∀ r free x chunk, v.Closes r free → m.memory.funcs[r]? = some x →
      x.chunk = some chunk → P chunk) : ∀ k ∈ above, P k.chunk := by
  rcases h.next hp hs hnext with ⟨-, -, hholds, -⟩ | ⟨-, hholds, -, hcallee, hcloses, hknown, hbody⟩ |
    ⟨-, -, hclosed⟩
  · obtain ⟨rfl, -⟩ := hholds.unique hp h'
    exact nofun
  · obtain ⟨rfl, -⟩ := hholds.unique hp h'
    exact List.forall_mem_singleton.mpr (hcalls _ hcallee _ _ _ _ hcloses hknown hbody)
  · obtain ⟨fs, hframes, hdepth⟩ := h'.frames
    rw [hframes, List.length_append, List.length_cons] at hclosed
    omega

theorem Holds.next_above {P : Chunk → Prop} (hs : m.Stands ws) (h : p.Holds m (g :: above) f i)
    (hnext : m.next = .inl m') (habove : ∀ k ∈ g :: above, P k.chunk)
    (hcalls : ∀ v ∈ m.stack, ∀ r free x chunk, v.Closes r free → m.memory.funcs[r]? = some x →
      x.chunk = some chunk → P chunk) :
    ∃ above', p.Holds m' above' f i ∧ (∀ k ∈ above', P k.chunk) ∧
      ∀ x v, (∀ c, P c → c.Spares x) → x.captured = false → m.valueOf f x = some v →
        m'.valueOf f x = some v := by
  obtain ⟨L, j, g', fs', w, ws', -, hr⟩ := hs.runs
  obtain ⟨fs, hframes, hdepth⟩ := h.frames
  obtain ⟨rfl, hrest⟩ : g' = g ∧ fs' = above ++ f :: fs := List.cons.inj (hr.frames.symm.trans hframes)
  obtain ⟨hg, habove⟩ := List.forall_mem_cons.mp habove
  have hholds : ∀ above', m'.frames = above' ++ f :: fs → p.Holds m' above' f i := fun above' hframes' =>
    ⟨⟨fs, hframes', hdepth⟩, h.chunk, h.ip, h.inside⟩
  have hmoves := Machine.next_moves hr.frames hr.sound hr.here hr.height hnext
  generalize hv : m'.view = v at hmoves
  cases hmoves with
  | @goes _ g'' _ _ _ _ hstays | @loops _ g'' _ _ _ _ _ hstays =>
    obtain ⟨hframes', hstack, -, hmemory⟩ := View.mk.inj hv
    refine ⟨g'' :: above, hholds _ (by rw [hframes', hrest, List.cons_append]),
      List.forall_mem_cons.mpr ⟨hstays.chunk ▸ hg, habove⟩, fun x v hspares hx hv => ?_⟩
    obtain ⟨l, hl, -, hdoes⟩ := hstays.does
    cases hstorage : x.storage with
    | frame =>
      rw [Machine.valueOf, hx, hstorage] at hv ⊢
      exact hv
    | global =>
      have hasm := hspares g'.chunk hg hstorage L hr.sound hr.here.chunk l.asm
        (List.mem_of_getElem? (Listing.getElem?_asms hl))
      rw [← hstack, ← hmemory] at hdoes
      have hvalue : m.valueOf g' x = some v := by
        rw [Machine.valueOf, hx, hstorage] at hv ⊢
        exact hv
      have hkept := hdoes.valueOf hasm hx hvalue
      rw [Machine.valueOf, hx, hstorage] at hkept ⊢
      exact hkept
  | @enters g'' _ args a r x chunk free _ _ _ hkeeps _ _ hstack hcallee hknown hbody =>
    obtain ⟨hframes', -, -, hmemory⟩ := View.mk.inj hv
    refine ⟨_ :: g'' :: above, hholds _ (by rw [hframes', hrest, List.cons_append, List.cons_append]),
      List.forall_mem_cons.mpr ⟨hcalls a (hstack ▸ List.mem_cons_self) r free x chunk hcallee hknown hbody,
        List.forall_mem_cons.mpr ⟨?_, habove⟩⟩, fun x v _ hx hv => ?_⟩
    · rw [hkeeps]
      exact hg
    · rw [← hv]
      exact Machine.valueOf_congr rfl (congrArg Memory.globals hmemory) hx
  | leaves _ _ _ =>
    obtain ⟨hframes', -, -, hmemory⟩ := View.mk.inj hv
    refine ⟨above, hholds _ (by rw [hframes', hrest]), habove, fun x v _ hx hv => ?_⟩
    rw [← hv]
    exact Machine.valueOf_congr rfl (congrArg Memory.globals hmemory) hx

theorem Holds.back (hp : p.Sound) (hs : m.Stands ws) (hnext : m.next = .inl m') (h : p.Holds m' above f i) :
    i = 0 ∨ (∃ f₀ i₀, p.Holds m [] f₀ i₀) ∨ ∃ k above₀, p.Holds m (k :: above₀) f i := by
  obtain ⟨L, j, g, gs, w, ws', -, hr⟩ := hs.runs
  obtain ⟨fs, hframes, hdepth⟩ := h.frames
  have hrunning : fs = gs → g.chunk = f.chunk → ∃ f₀ i₀, p.Holds m [] f₀ i₀ := by
    rintro rfl hchunk
    have hcode : g.chunk = p.code.chunk p.pool g.chunk.file := by
      rw [hchunk]
      exact h.chunk
    obtain ⟨L', i₀, hrunning⟩ := hp.running hs hr.frames hdepth hcode
    exact ⟨g, i₀, hrunning.holds hcode⟩
  have habove : ∀ above₀, gs = above₀ ++ f :: fs → ∃ k above₀, p.Holds m (k :: above₀) f i :=
    fun above₀ hgs => ⟨g, above₀, ⟨fs, by rw [hr.frames, hgs, List.cons_append], hdepth⟩, h.chunk, h.ip,
      h.inside⟩
  have hmoves := Machine.next_moves hr.frames hr.sound hr.here hr.height hnext
  generalize hv : m'.view = v at hmoves
  cases hmoves with
  | goes _ _ hstays | loops _ _ hstays =>
    obtain ⟨hframes', -, -, -⟩ := View.mk.inj hv
    rw [hframes'] at hframes
    cases above with
    | nil =>
      obtain ⟨rfl, rfl⟩ := List.cons.inj hframes
      exact .inr (.inl (hrunning rfl hstays.chunk.symm))
    | cons k above => exact .inr (.inr (habove above (List.cons.inj hframes).2))
  | @enters g' _ _ _ _ _ _ _ _ _ _ hkeeps =>
    obtain ⟨hframes', -, -, -⟩ := View.mk.inj hv
    rw [hframes'] at hframes
    cases above with
    | nil =>
      obtain ⟨rfl, -⟩ := List.cons.inj hframes
      refine .inl (hp.start_inj h.inside (Nat.zero_lt_of_lt h.inside) (h.ip.symm.trans ?_))
      rw [Assembly.start_eq (Nat.zero_le _), Assembly.offset_zero]
    | cons k above =>
      have hrest := (List.cons.inj hframes).2
      cases above with
      | nil =>
        obtain ⟨rfl, rfl⟩ := List.cons.inj hrest
        exact .inr (.inl (hrunning rfl (by rw [hkeeps])))
      | cons k above => exact .inr (.inr (habove above (List.cons.inj hrest).2))
  | leaves =>
    obtain ⟨hframes', -, -, -⟩ := View.mk.inj hv
    exact .inr (.inr (habove above (hframes'.symm.trans hframes)))

end Post

end Scripting

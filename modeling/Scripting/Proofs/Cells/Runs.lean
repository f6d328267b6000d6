import Scripting.Proofs.Machine.Globals

/-!
# Cells of captured variables

A variable that a function inside captures lives in a cell. `Scene` gives each open call an environment,
which says what cell each captured variable has now: a declaration that is executed puts a new cell into
the environment of its call, and a call of a closure starts with the cells that the closure was made
with. `Machine.Heeds` says that an instruction acts on the cell that the environment gives. Code that
finds each variable in its place does so in all states of a run: `Machine.Scenes.heeds`.
-/

namespace Scripting

/-- The captured variables that the code of a function works with. -/
structure Vars where
  /-- The variable of the function itself that has its cell in a slot. -/
  own : Nat → Option BindingId
  /-- The variables whose cells a closure of the function holds. -/
  free : List BindingId

namespace Vars

def empty : Vars := ⟨fun _ => none, []⟩

/-- Whether a function has one place for each variable. -/
structure Apart (V : Vars) : Prop where
  single : ∀ m n b, V.own m = some b → V.own n = some b → m = n
  outer : ∀ n b, V.own n = some b → b ∉ V.free
  distinct : V.free.Nodup

theorem Apart.empty : empty.Apart := by
  constructor <;> simp [Vars.empty]

def named (V : Vars) (c : Opcode) (n : Nat) : Option BindingId :=
  match c with
  | .getCell | .setCell => V.own n
  | .getUpvalue | .setUpvalue => V.free[n]?
  | _ => none

end Vars

abbrev Env := List (BindingId × Ref)

/-- A call that has not returned: the captured variables of its function, and the cells they have. -/
structure Activation where
  vars : Vars
  env : Env

/-- The open calls of a machine, the running one first, and the cells that were made so far for
declarations. -/
structure Scene where
  calls : List Activation
  made : List (BindingId × Ref)

section

variable (vars : Ref → Option Vars)

def Value.activation? : Value → Option Activation
  | .func r => (vars r).map fun V => ⟨V, []⟩
  | .closure _ r cells => (vars r).map fun V => ⟨V, V.free.zip cells⟩
  | _ => none

/-- The scene when the running call has executed an instruction with an operand: a declaration has made
a cell. -/
def Scene.executed (s : Scene) (c : Opcode) (n : Nat) (cell : Ref) : Scene :=
  match c, s.calls with
  | .makeCell, a :: as =>
    match a.vars.own n with
    | some b => ⟨⟨a.vars, (b, cell) :: a.env⟩ :: as, (b, cell) :: s.made⟩
    | none => s
  | _, _ => s

namespace Machine

def cells (m : Machine) : Array Value := m.world.heap.cells

def played (m m' : Machine) (s : Scene) : Scene :=
  if m'.frames.length < m.frames.length then { s with calls := s.calls.tail }
  else if m.frames.length < m'.frames.length then
    { s with calls := (m.stack.head?.bind (·.activation? vars)).toList ++ s.calls }
  else match m.instruction? with
    | some (c, d) => s.executed c (d.operands.headD 0) m.cells.size
    | none => s

/-- The states of a run that starts with `m₀` in a script, with their scenes. No function captures
variables of a script. -/
inductive Scenes (m₀ : Machine) : Machine → Scene → Prop
  | start : Scenes m₀ m₀ ⟨[⟨.empty, []⟩], []⟩
  | next {m m' : Machine} {s : Scene} (before : Scenes m₀ m s) (step : m.next = .inl m') :
      Scenes m₀ m' (m.played vars m' s)

theorem Scenes.after {vars : Ref → Option Vars} {n : Nat} {m₀ m m' : Machine} {s : Scene}
    (h : m₀.Scenes vars m s) (hn : m.after n = .inl m') : ∃ s', m₀.Scenes vars m' s' :=
  after_keeps (P := fun m => ∃ s, m₀.Scenes vars m s) (fun _ _ ⟨_, h⟩ hnext => ⟨_, h.next hnext⟩) ⟨s, h⟩ hn

/-- Whether a step by an instruction with an operand acts on the cells that the running call has for
its variables. -/
def Acts (a : Activation) (m m' : Machine) (c : Opcode) (n : Nat) : Prop :=
  match c with
  | .makeCell => (∃ b, a.vars.own n = some b) ∧
      ∃ v, m.stack.head? = some v ∧ m'.cells = m.cells.push v
  | .getCell | .getUpvalue => m'.cells = m.cells ∧ ∃ b r, a.vars.named c n = some b ∧
      a.env.lookup b = some r ∧ m'.stack = m.cells.getD r .absent :: m.stack
  | .setCell | .setUpvalue => ∃ b r v, a.vars.named c n = some b ∧ a.env.lookup b = some r ∧
      m.stack.head? = some v ∧ m'.cells = m.cells.setIfInBounds r v
  | .closure => m'.cells = m.cells ∧ ∃ id r V cells, m'.stack = .closure id r cells :: m.stack ∧
      vars r = some V ∧ List.Forall₂ (fun b r => a.env.lookup b = some r) V.free cells
  | .getLocal => m'.cells = m.cells ∧ ∀ b, a.vars.own n = some b → a.env.lookup b = none
  | .setLocal => m'.cells = m.cells ∧ a.vars.own n = none
  | _ => m'.cells = m.cells

/-- Whether the next step acts on the cells that the running call has for its variables. -/
structure Heeds (m : Machine) (s : Scene) : Prop where
  step : ∀ m', m.next = .inl m' → ∃ a c d, s.calls.head? = some a ∧ m.instruction? = some (c, d) ∧
    m.Acts vars a m' c (d.operands.headD 0)
  stop : ∀ o m', m.next = .inr (o, m') → m'.cells = m.cells

end Machine

/-- Whether a closure takes the cell of a variable from where a function has it. -/
def Vars.Gives (V : Vars) (c : Capture) (b : BindingId) : Prop :=
  if c.isLocal then V.own c.index = some b else V.free[c.index]? = some b

/-- Whether an instruction of a function finds captured variables in their places. -/
def Vars.Finds (V : Vars) (pool : Array Value) : Asm → Prop
  | .op .makeCell ns | .op .getCell ns | .op .setCell ns => ∃ b, V.own (ns.headD 0) = some b
  | .op .setLocal ns => V.own (ns.headD 0) = none
  | .op .getUpvalue ns | .op .setUpvalue ns => ns.headD 0 < V.free.length
  | .closure k cs => ∃ r W, pool[k]? = some (.func r) ∧ vars r = some W ∧
      List.Forall₂ V.Gives cs W.free
  | _ => True

/-- The same of the code of a function. -/
def Chunk.Finds (V : Vars) (c : Chunk) : Prop :=
  ∃ L : Listing, L.Sound ∧ c = L.code.chunk L.limits.pool c.file ∧
    ∀ a ∈ L.asms, V.Finds vars L.limits.pool a

/-- Whether all functions of a heap find captured variables in their places. -/
def Heap.Finds (h : Heap) : Prop :=
  ∀ (r : Ref) (x : Function), h.funcs[r]? = some x → ∀ chunk, x.chunk = some chunk →
    ∃ V, vars r = some V ∧ V.Apart ∧ chunk.Finds vars V

end

variable {vars : Ref → Option Vars}

theorem Chunk.Finds.listing {V : Vars} {c : Chunk} (h : c.Finds vars V) {L : Listing} (hL : L.Sound)
    (hc : c = L.code.chunk L.limits.pool c.file) : ∀ a ∈ L.asms, V.Finds vars L.limits.pool a := by
  obtain ⟨L', hL', hc', hfinds⟩ := h
  obtain ⟨hasms, hpool⟩ := hL.asms_eq hL' (hc.symm.trans hc')
  rwa [hasms, hpool]

theorem lookup_zip_of_nodup {α β : Type} [BEq α] [LawfulBEq α] : {ks : List α} → {vs : List β} →
    ks.Nodup → ∀ {i : Nat} {k : α}, ks[i]? = some k → (ks.zip vs).lookup k = vs[i]?
  | [], _, _, _, _, h => nomatch h
  | _ :: _, [], _, _, _, _ => by simp
  | x :: ks, v :: vs, hnodup, 0, k, h => by
    obtain rfl : x = k := Option.some.inj h
    simp
  | x :: ks, v :: vs, hnodup, i + 1, k, h => by
    obtain ⟨hx, hks⟩ := List.nodup_cons.mp hnodup
    rw [List.getElem?_cons_succ] at h ⊢
    have hne : (k == x) = false := by
      rw [beq_eq_false_iff_ne]
      rintro rfl
      exact hx (List.mem_of_getElem? h)
    rw [List.zip_cons_cons, List.lookup_cons, hne]
    exact lookup_zip_of_nodup hks h

/-- Whether a frame has the cells of its environment where its function looks for them. A variable has
a cell once its slot is known to hold one, and has none as long as the slot holds a plain value. -/
structure Frame.Sees (V : Vars) (env : Env) (slots : Nat → Option Bool) (f : Frame) : Prop where
  own : ∀ (n : Nat) b r, V.own n = some b → env.lookup b = some r → f.locals[n]? = some (.cell r)
  free : ∀ (k : Nat) b, V.free[k]? = some b → env.lookup b = f.free[k]?
  known : ∀ n b, V.own n = some b → slots n = some true → (env.lookup b).isSome
  plain : ∀ n b, V.own n = some b → slots n = some false → env.lookup b = none

namespace Frame.Sees

variable {V : Vars} {env : Env} {slots slots' : Nat → Option Bool} {f f' : Frame}

theorem empty (slots : Nat → Option Bool) (f : Frame) : f.Sees .empty [] slots := by
  constructor <;> simp [Vars.empty]

theorem mono (h : f.Sees V env slots) (hlocals : f'.locals = f.locals) (hfree : f'.free = f.free)
    (hslots : ∀ k x, slots' k = some x → slots k = some x) : f'.Sees V env slots' :=
  ⟨hlocals ▸ h.own, hfree ▸ h.free, fun n b hb hn => h.known n b hb (hslots n _ hn),
    fun n b hb hn => h.plain n b hb (hslots n _ hn)⟩

theorem store (h : f.Sees V env slots) {n : Nat} (hn : V.own n = none) (v : Value)
    (hslots : ∀ k x, k ≠ n → slots' k = some x → slots k = some x) :
    ({ f with locals := f.locals.setIfInBounds n v } : Frame).Sees V env slots' := by
  have hne : ∀ k b, V.own k = some b → k ≠ n := by
    rintro k b hk rfl
    rw [hn] at hk
    cases hk
  refine ⟨fun k b r hk hr => ?_, h.free, fun k b hk hs => ?_, fun k b hk hs => ?_⟩
  · rw [Array.getElem?_setIfInBounds_ne (hne k b hk).symm]
    exact h.own k b r hk hr
  · exact h.known k b hk (hslots k _ (hne k b hk) hs)
  · exact h.plain k b hk (hslots k _ (hne k b hk) hs)

theorem declare (hV : V.Apart) (h : f.Sees V env slots) {n : Nat} {b : BindingId}
    (hn : V.own n = some b) (hsize : n < f.locals.size) (r : Ref)
    (hslots : ∀ k x, slots' k = some x → if k = n then x = true else slots k = some x) :
    ({ f with locals := f.locals.setIfInBounds n (.cell r) } : Frame).Sees V ((b, r) :: env) slots' := by
  have hself : ((b, r) :: env : Env).lookup b = some r := by simp
  have hother : ∀ c, c ≠ b → ((b, r) :: env : Env).lookup c = env.lookup c := fun c hc => by
    rw [List.lookup_cons, beq_eq_false_iff_ne.mpr hc]
  refine ⟨fun k c q hk hq => ?_, fun k c hk => ?_, fun k c hk hs => ?_, fun k c hk hs => ?_⟩
  · by_cases hc : c = b
    · subst hc
      obtain rfl := hV.single k n c hk hn
      obtain rfl := Option.some.inj (hself.symm.trans hq)
      exact Array.getElem?_setIfInBounds_self_of_lt hsize
    · rw [hother c hc] at hq
      have hne : n ≠ k := by
        rintro rfl
        exact hc (Option.some.inj (hk.symm.trans hn))
      rw [Array.getElem?_setIfInBounds_ne hne]
      exact h.own k c q hk hq
  · have hc : c ≠ b := by
      rintro rfl
      exact hV.outer n c hn (List.mem_of_getElem? hk)
    rw [hother c hc]
    exact h.free k c hk
  · by_cases hc : c = b
    · rw [hc, hself]
      rfl
    · rw [hother c hc]
      have hslot := hslots k true hs
      rw [if_neg (by rintro rfl; exact hc (Option.some.inj (hk.symm.trans hn)))] at hslot
      exact h.known k c hk hslot
  · have hslot := hslots k false hs
    split at hslot
    · cases hslot
    · rename_i hne
      have hc : c ≠ b := by
        rintro rfl
        exact hne (hV.single k n c hk hn)
      rw [hother c hc]
      exact h.plain k c hk hslot

theorem entry (hV : V.Apart) {L : Listing} {arity : Int} (hL : L.Entry arity) :
    f.Sees V (V.free.zip f.free) (L.shape 0).slots := by
  have houter : ∀ n b, V.own n = some b → (V.free.zip f.free).lookup b = none := by
    intro n b hb
    rw [List.lookup_eq_none_iff]
    rintro ⟨c, r⟩ hc
    rw [bne_iff_ne]
    rintro rfl
    exact hV.outer n _ hb (List.of_mem_zip hc).1
  refine ⟨fun n b r hb hr => ?_, fun k b hk => lookup_zip_of_nodup hV.distinct hk,
    fun n b _ hn => ?_, fun n b hb _ => houter n b hb⟩
  · rw [houter n b hb] at hr
    cases hr
  · exact absurd (hL.slots n true hn).1 (by decide)

theorem captures (h : f.Sees V env slots) {cs : List Capture} {bs : List BindingId}
    {cells : List Ref} (hgives : List.Forall₂ V.Gives cs bs)
    (hknown : ∀ c ∈ cs, c.isLocal → slots c.index = some true)
    (hcells : List.Forall₂ f.Captures cs cells) :
    List.Forall₂ (fun b r => env.lookup b = some r) bs cells := by
  induction hgives generalizing cells with
  | nil =>
    obtain rfl := List.forall₂_nil_left_iff.mp hcells
    exact .nil
  | @cons c b cs bs hc _ ih =>
    obtain ⟨r, rs, hr, hrs, rfl⟩ := List.forall₂_cons_left_iff.mp hcells
    obtain ⟨hhead, htail⟩ := List.forall_mem_cons.mp hknown
    refine .cons ?_ (ih htail hrs)
    rw [Frame.Captures] at hr
    rw [Vars.Gives] at hc
    split at hc
    · rename_i hlocal
      rw [if_pos hlocal] at hr
      obtain ⟨q, hq⟩ := Option.isSome_iff_exists.mp (h.known _ b hc (hhead hlocal))
      have hcell := h.own _ b q hc hq
      rw [hr] at hcell
      rw [hq, Value.cell.inj (Option.some.inj hcell)]
    · rename_i hlocal
      rw [if_neg hlocal] at hr
      rw [h.free _ b hc, hr]

end Frame.Sees

def Asm.stored (s : Shape) : Asm → Nat → Option Bool
  | .op c ns => s.stored c ns
  | _ => s.slots

theorem Value.Closes.activation? {v : Value} {r : Ref} {free : List Ref} {V : Vars}
    (h : v.Closes r free) (hr : vars r = some V) :
    v.activation? vars = some ⟨V, V.free.zip free⟩ := by
  rcases h with ⟨rfl, rfl⟩ | ⟨id, rfl⟩
  · rw [Value.activation?, hr, List.zip_nil_right]
    rfl
  · rw [Value.activation?, hr]
    rfl

theorem Listing.Sound.slots_next {L : Listing} {i j : Nat} {l : Asm.Line} (hL : L.Sound)
    (hi : L.code[i]? = some l) (hret : ∀ ns, l.asm ≠ .op .ret ns) (hgo : l.asm.GoesTo i j) :
    ∀ k x, (L.shape j).slots k = some x → l.asm.stored (L.shape i) k = some x := by
  have hgood := hL.good hi
  intro k x hk
  cases hasm : l.asm with
  | op c ns =>
    rw [hasm] at hgood hgo
    obtain rfl : j = i + 1 := hgo
    obtain ⟨-, -, -, hnext⟩ := hgood
    exact (hnext fun hc => hret ns (hc ▸ hasm)).2.slots k x hk
  | closure n cs =>
    rw [hasm] at hgood hgo
    obtain rfl : j = i + 1 := hgo
    obtain ⟨-, -, -, -, hwithin⟩ := hgood
    exact hwithin.slots k x hk
  | skip n =>
    rw [hasm] at hgood hgo
    obtain rfl : j = i + 1 + n := hgo
    exact hgood.2.slots k x hk
  | skipIfFalse n =>
    rw [hasm] at hgood hgo
    obtain ⟨-, -, hnext, hskip⟩ := hgood
    rcases (hgo : j = i + 1 ∨ j = i + 1 + n) with rfl | rfl
    · exact hnext.slots k x hk
    · exact hskip.slots k x hk
  | back n =>
    rw [hasm] at hgood hgo
    obtain rfl : j = i - n := hgo
    exact hgood.2.slots k x hk
  | exit e =>
    -- No exit is left in placed code.
    rw [hasm] at hgood
    cases e with
    | miss =>
      obtain ⟨-, -, -, s, hs, -⟩ := hgood
      cases hs
    | leave | next =>
      obtain ⟨s, hs, -⟩ := hgood
      cases hs

theorem Asm.stored_eq {a : Asm} (hset : ∀ ns, a ≠ .op .setLocal ns) (hmake : ∀ ns, a ≠ .op .makeCell ns)
    (s : Shape) : a.stored s = s.slots := by
  cases a with
  | op c ns =>
    cases c with
    | setLocal => exact absurd rfl (hset ns)
    | makeCell => exact absurd rfl (hmake ns)
    | _ => rfl
  | _ => rfl

theorem Asm.opcode_ne {a : Asm} (hmake : ∀ ns, a ≠ .op .makeCell ns) : a.opcode ≠ .makeCell := by
  cases a with
  | op c ns =>
    rintro rfl
    exact hmake ns rfl
  | _ => exact nofun

theorem Scene.executed_of_ne {s : Scene} {c : Opcode} (hc : c ≠ .makeCell) (n : Nat) (r : Ref) :
    s.executed c n r = s := by
  cases c with
  | makeCell => exact absurd rfl hc
  | _ => rfl

theorem Scene.executed_makeCell {a : Activation} {as : List Activation} {made : List (BindingId × Ref)}
    {n : Nat} {b : BindingId} (hb : a.vars.own n = some b) (r : Ref) :
    Scene.executed ⟨a :: as, made⟩ .makeCell n r
      = ⟨⟨a.vars, (b, r) :: a.env⟩ :: as, (b, r) :: made⟩ := by
  simp only [executed, hb]

namespace Frame.Does

variable {L : Listing} {i j : Nat} {l : Asm.Line} {f f' : Frame} {st st' : List Value} {M M' : Memory}
  {ls : Array Value} {a : Activation}

theorem locals_eq {x : Asm} (h : f.Does st M x ls st' M') (hset : ∀ ns, x ≠ .op .setLocal ns)
    (hmake : ∀ ns, x ≠ .op .makeCell ns) : ls = f.locals := by
  cases h with
  | @op c ns _ _ _ _ hacts =>
    have hstores := hacts.stores
    cases c with
    | setLocal => exact absurd rfl (hset ns)
    | makeCell => exact absurd rfl (hmake ns)
    | _ => exact hstores
  | _ => rfl

theorem sees (as : List Activation) (made : List (BindingId × Ref)) (hV : a.vars.Apart) (hL : L.Sound)
    (h : f.At L i) (hi : L.code[i]? = some l)
    (hfinds : a.vars.Finds vars L.limits.pool l.asm)
    (hsees : f.Sees a.vars a.env (L.shape i).slots) (hgo : l.asm.GoesTo i j)
    (hdoes : f.Does st M l.asm f'.locals st' M') (hfree : f'.free = f.free) : ∃ a',
      (Scene.executed ⟨a :: as, made⟩ l.asm.opcode
        ((l.asm.decoded L.code.start i).operands.headD 0) M.cells.size).calls = a' :: as ∧
      a'.vars = a.vars ∧ f'.Sees a.vars a'.env (L.shape j).slots := by
  have hret : ∀ ns, l.asm ≠ .op .ret ns := by
    intro ns hasm
    rw [hasm] at hdoes
    generalize f'.locals = ls at hdoes
    cases hdoes with
    | op hstays => exact hstays rfl
  have hslots := hL.slots_next hi hret hgo
  by_cases hmake : ∃ ns, l.asm = .op .makeCell ns
  · obtain ⟨ns, hasm⟩ := hmake
    have hgood := hL.good hi
    rw [hasm] at hfinds hdoes hslots hgood ⊢
    obtain ⟨-, -, hroom, -⟩ := hgood
    obtain ⟨b, hb⟩ := hfinds
    obtain ⟨v, hlocals⟩ : ∃ v, f'.locals = f.locals.setIfInBounds (ns.headD 0) (.cell v) ∧
        v = M.cells.size := by
      generalize f'.locals = ls at hdoes
      cases hdoes with
      | op _ hacts =>
        obtain ⟨-, -, hls, -⟩ := hacts
        exact ⟨_, hls, rfl⟩
    obtain ⟨hlocals, rfl⟩ := hlocals
    refine ⟨_, congrArg Scene.calls (Scene.executed_makeCell hb _), rfl, ?_⟩
    refine (hsees.declare hV hb (Nat.lt_of_lt_of_le hroom h.locals) M.cells.size
      fun k x (hk : (L.shape j).slots k = some x) => ?_).mono hlocals hfree fun _ _ hk => hk
    have hstored := hslots k x hk
    simp only [Asm.stored, Shape.stored, Shape.store] at hstored
    split at hstored
    · rename_i hkn
      rw [if_pos hkn]
      exact (Option.some.inj hstored).symm
    · rename_i hkn
      rwa [if_neg hkn]
  have hsame : (Scene.executed ⟨a :: as, made⟩ l.asm.opcode
      ((l.asm.decoded L.code.start i).operands.headD 0) M.cells.size).calls = a :: as := by
    rw [Scene.executed_of_ne (Asm.opcode_ne fun ns hasm => hmake ⟨ns, hasm⟩)]
  refine ⟨a, hsame, rfl, ?_⟩
  by_cases hset : ∃ ns, l.asm = .op .setLocal ns
  · obtain ⟨ns, hasm⟩ := hset
    rw [hasm] at hfinds hdoes hslots
    obtain ⟨v, hlocals⟩ : ∃ v, f'.locals = f.locals.setIfInBounds (ns.headD 0) v := by
      generalize f'.locals = ls at hdoes
      cases hdoes with
      | op _ hacts => exact hacts.stores
    refine (hsees.store hfinds v fun k x hne (hk : (L.shape j).slots k = some x) => ?_).mono hlocals hfree
      fun _ _ hk => hk
    have hstored := hslots k x hk
    simp only [Asm.stored, Shape.stored, Shape.store] at hstored
    rwa [if_neg hne] at hstored
  · have hset' : ∀ ns, l.asm ≠ .op .setLocal ns := fun ns hasm => hset ⟨ns, hasm⟩
    have hmake' : ∀ ns, l.asm ≠ .op .makeCell ns := fun ns hasm => hmake ⟨ns, hasm⟩
    rw [Asm.stored_eq hset' hmake'] at hslots
    exact hsees.mono (hdoes.locals_eq hset' hmake') hfree hslots

theorem acts (hL : L.Sound) (h : f.At L i) (hi : L.code[i]? = some l)
    (hfinds : a.vars.Finds vars L.limits.pool l.asm)
    (hsees : f.Sees a.vars a.env (L.shape i).slots) {m m' : Machine}
    (hdoes : f.Does m.stack m.memory l.asm ls m'.stack m'.memory) :
    m.Acts vars a m' l.asm.opcode ((l.asm.decoded L.code.start i).operands.headD 0) := by
  have hgood := hL.good hi
  have hcells : ∀ {x : Machine}, x.memory.cells = x.cells := rfl
  generalize hst : m.stack = st at hdoes
  generalize hst' : m'.stack = st' at hdoes
  generalize hM : m.memory = M at hdoes
  generalize hM' : m'.memory = M' at hdoes
  have hbefore : M.cells = m.cells := by rw [← hM]; rfl
  have hbehind : M'.cells = m'.cells := by rw [← hM']; rfl
  generalize l.asm = x at *
  cases hdoes with
  | @op c ns _ top _ _ hacts =>
    obtain ⟨⟨hspecial, -⟩, -, hasks, -⟩ := hgood
    cases c with
    | makeCell =>
      obtain ⟨v, hv, -, rfl⟩ := hacts
      exact ⟨hfinds, v, hst ▸ hv, by rw [← hbefore, ← hbehind]; rfl⟩
    | getCell =>
      obtain ⟨b, hb⟩ := hfinds
      obtain ⟨-, rfl, r, hr, rfl⟩ := hacts
      obtain ⟨q, hq⟩ := Option.isSome_iff_exists.mp (hsees.known _ b hb hasks.2)
      obtain rfl : r = q := by
        have hcell := hsees.own _ b q hb hq
        rw [hr] at hcell
        exact Value.cell.inj (Option.some.inj hcell)
      exact ⟨hbehind.symm.trans hbefore, b, r, hb, hq, by rw [hst', ← hbefore, hst]; rfl⟩
    | setCell =>
      obtain ⟨b, hb⟩ := hfinds
      obtain ⟨-, r, v, hr, hv, rfl⟩ := hacts
      obtain ⟨q, hq⟩ := Option.isSome_iff_exists.mp (hsees.known _ b hb hasks.2)
      obtain rfl : r = q := by
        have hcell := hsees.own _ b q hb hq
        rw [hr] at hcell
        exact Value.cell.inj (Option.some.inj hcell)
      exact ⟨b, r, v, hb, hq, hst ▸ hv, by rw [← hbehind, ← hbefore]; rfl⟩
    | getUpvalue =>
      obtain ⟨-, rfl, r, hr, rfl⟩ := hacts
      have hb := List.getElem?_eq_getElem hfinds
      exact ⟨hbehind.symm.trans hbefore, _, r, hb, (hsees.free _ _ hb).trans hr,
        by rw [hst', ← hbefore, hst]; rfl⟩
    | setUpvalue =>
      obtain ⟨-, r, v, hr, hv, rfl⟩ := hacts
      have hb := List.getElem?_eq_getElem hfinds
      exact ⟨_, r, v, hb, (hsees.free _ _ hb).trans hr, hst ▸ hv, by rw [← hbehind, ← hbefore]; rfl⟩
    | getLocal =>
      obtain ⟨-, rfl⟩ := hacts
      exact ⟨hbehind.symm.trans hbefore, fun b hb => hsees.plain _ b hb hasks.2⟩
    | setLocal =>
      obtain ⟨rfl, -⟩ := hacts
      exact ⟨hbehind.symm.trans hbefore, hfinds⟩
    | setGlobal =>
      obtain ⟨-, v, -, rfl⟩ := hacts
      exact hbehind.symm.trans hbefore
    | const =>
      obtain ⟨-, rfl, -⟩ := hacts
      exact hbehind.symm.trans hbefore
    | closure => cases hspecial
    | _ =>
      obtain ⟨-, rfl⟩ := hacts
      exact hbehind.symm.trans hbefore
  | @closure k cs r cells hknown hcaptured =>
    obtain ⟨-, -, hasks, -⟩ := hgood
    obtain ⟨q, W, hq, hW, hgives⟩ := hfinds
    rw [h.constants] at hknown
    obtain rfl := Value.func.inj (Option.some.inj (hknown.symm.trans hq))
    refine ⟨hbehind.symm.trans hbefore, _, r, W, cells, hst.symm ▸ hst', hW, ?_⟩
    refine hsees.captures hgives (fun c hc hlocal => ?_) hcaptured
    have hfound := hasks c hc
    rw [Limits.Finds, if_pos hlocal] at hfound
    exact hfound.2
  | _ => exact hbehind.symm.trans hbefore

end Frame.Does

/-- Whether open calls stand in checked code and see the cells of their environments. The stack has `n`
values. -/
def Staged (vars : Ref → Option Vars) : List Frame → List Activation → Nat → Prop
  | [], [], _ => True
  | f :: fs, a :: as, n => (∃ L i, L.Sound ∧ f.At L i ∧ f.base + (L.shape i).height ≤ n ∧
      a.vars.Apart ∧ f.chunk.Finds vars a.vars ∧ f.Sees a.vars a.env (L.shape i).slots) ∧
        Staged vars fs as (f.base + 1)
  | _, _, _ => False

/-- Whether declarations have made cells of their own, behind the first `start` ones. -/
structure Scene.Fresh (s : Scene) (start size : Nat) : Prop where
  distinct : (s.made.map (·.2)).Nodup
  bounds : ∀ x ∈ s.made, start ≤ x.2 ∧ x.2 < size

theorem Scene.Fresh.mono {s t : Scene} {start size size' : Nat} (h : s.Fresh start size)
    (hmade : t.made = s.made) (hsize : size ≤ size') : t.Fresh start size' :=
  ⟨hmade ▸ h.distinct, fun x hx =>
    let ⟨hstart, hlt⟩ := h.bounds x (hmade ▸ hx)
    ⟨hstart, Nat.lt_of_lt_of_le hlt hsize⟩⟩

namespace Machine

variable {m m' : Machine} {a : Activation} {as : List Activation} {s : Scene} {start : Nat}

theorem Acts.size_le {c : Opcode} {n : Nat} (h : m.Acts vars a m' c n) : m.cells.size ≤ m'.cells.size := by
  cases c with
  | makeCell =>
    obtain ⟨-, v, -, hcells⟩ := h
    rw [hcells, Array.size_push]
    exact Nat.le_succ _
  | setCell | setUpvalue =>
    obtain ⟨b, r, v, -, -, -, hcells⟩ := h
    exact Nat.le_of_eq (by rw [hcells, Array.size_setIfInBounds])
  | getCell | getUpvalue | closure | getLocal | setLocal => exact Nat.le_of_eq (by rw [h.1])
  | _ => exact Nat.le_of_eq (congrArg Array.size h.symm)

theorem Acts.fresh {c : Opcode} {n : Nat} (h : m.Acts vars a m' c n) (hcalls : s.calls = a :: as)
    (hs : s.Fresh start m.cells.size) (hstart : start ≤ m.cells.size) :
    (s.executed c n m.cells.size).Fresh start m'.cells.size := by
  by_cases hc : c = .makeCell
  · subst hc
    obtain ⟨calls, made⟩ := s
    obtain rfl : calls = a :: as := hcalls
    obtain ⟨⟨b, hb⟩, v, -, hcells⟩ := h
    rw [Scene.executed_makeCell hb, hcells, Array.size_push]
    refine ⟨List.nodup_cons.mpr ⟨fun hmem => ?_, hs.distinct⟩, List.forall_mem_cons.mpr
      ⟨⟨hstart, Nat.lt_succ_self _⟩, fun x hx => ⟨(hs.bounds x hx).1, Nat.lt_succ_of_lt (hs.bounds x hx).2⟩⟩⟩
    obtain ⟨x, hx, hsame⟩ := List.mem_map.mp hmem
    exact absurd (hs.bounds x hx).2 (Nat.not_lt.mpr (Nat.le_of_eq hsame.symm))
  · rw [Scene.executed_of_ne hc]
    exact hs.mono rfl h.size_le

/-- What holds of a machine and its scene. The run has started with `start` cells. -/
structure Plays (vars : Ref → Option Vars) (start : Nat) (m : Machine) (s : Scene) : Prop where
  verified : m.world.heap.Verified
  short : m.world.heap.Short
  finds : m.world.heap.Finds vars
  running : m.frames ≠ []
  staged : Staged vars m.frames s.calls m.stack.length
  fresh : s.Fresh start m.cells.size
  grown : start ≤ m.cells.size

/-- Where the running call stands, and what it sees. -/
structure OnStage (vars : Ref → Option Vars) (m : Machine) (L : Listing) (i : Nat) (f : Frame) (fs : List Frame)
    (a : Activation) (as : List Activation) : Prop where
  frames : m.frames = f :: fs
  sound : L.Sound
  here : f.At L i
  height : f.base + (L.shape i).height ≤ m.stack.length
  apart : a.vars.Apart
  finds : f.chunk.Finds vars a.vars
  sees : f.Sees a.vars a.env (L.shape i).slots
  outer : Staged vars fs as (f.base + 1)

theorem Plays.onStage (h : m.Plays vars start s) :
    ∃ L i f fs a as, s.calls = a :: as ∧ m.OnStage vars L i f fs a as := by
  have hstaged := h.staged
  cases hframes : m.frames with
  | nil => exact absurd hframes h.running
  | cons f fs =>
    rw [hframes] at hstaged
    cases hcalls : s.calls with
    | nil =>
      rw [hcalls] at hstaged
      exact hstaged.elim
    | cons a as =>
      rw [hcalls] at hstaged
      obtain ⟨⟨L, i, hL, hat, hheight, hV, hfinds, hsees⟩, houter⟩ := hstaged
      exact ⟨L, i, f, fs, a, as, rfl, hframes, hL, hat, hheight, hV, hfinds, hsees, houter⟩

theorem Plays.next (h : m.Plays vars start s) (hnext : m.next = .inl m') :
    (∃ a c d, s.calls.head? = some a ∧ m.instruction? = some (c, d) ∧
      m.Acts vars a m' c (d.operands.headD 0)) ∧ m'.Plays vars start (m.played vars m' s) := by
  obtain ⟨L, i, f, fs, a, as, hcalls, hs⟩ := h.onStage
  have hmoves := next_moves hs.frames hs.sound hs.here hs.height hnext
  have hfuncs : m'.world.heap.funcs = m.world.heap.funcs := hmoves.later.funcs
  have hverified : m'.world.heap.Verified := fun x hx => h.verified x (hfuncs ▸ hx)
  have hshort : m'.world.heap.Short := fun x hx => h.short x (hfuncs ▸ hx)
  have hfinds : m'.world.heap.Finds vars := fun r x hx => h.finds r x (hfuncs ▸ hx)
  have hlength : m.frames.length = fs.length + 1 := by rw [hs.frames, List.length_cons]
  have hhead : s.calls.head? = some a := by rw [hcalls]; rfl
  generalize hv : m'.view = v at hmoves
  cases hmoves with
  | goes _ _ hstays | loops _ _ hstays =>
    obtain ⟨hframes, hstack, -, hmemory⟩ := View.mk.inj hv
    obtain ⟨l, hi, hgo, hdoes⟩ := hstays.does
    have hinstruction := hs.here.instruction? hs.sound hi hs.frames
    have hasm := hs.finds.listing hs.sound hs.here.chunk l.asm
      (List.mem_of_getElem? (Listing.getElem?_asms hi))
    rw [← hstack, ← hmemory] at hdoes
    have hacts := hdoes.acts hs.sound hs.here hi hasm hs.sees
    have hsame : m'.frames.length = m.frames.length := by rw [hframes, hlength, List.length_cons]
    have hplayed : m.played vars m' s = s.executed l.asm.opcode
        ((l.asm.decoded L.code.start i).operands.headD 0) m.cells.size := by
      rw [played, if_neg (by omega), if_neg (by omega), hinstruction]
    obtain ⟨calls, made⟩ := s
    obtain rfl : calls = a :: as := hcalls
    obtain ⟨a', hcalls', hfunc, hsees⟩ := hdoes.sees as made hs.apart hs.sound
      hs.here hi hasm hs.sees hgo (by rw [hstays.rest])
    refine ⟨⟨a, _, _, rfl, hinstruction, hacts⟩, hverified, hshort, hfinds, by simp [hframes], ?_, ?_, ?_⟩
    · have hcalls' : (Scene.executed ⟨a :: as, made⟩ l.asm.opcode
          ((l.asm.decoded L.code.start i).operands.headD 0) m.cells.size).calls = a' :: as := hcalls'
      rw [hplayed, hframes, hstack, hcalls']
      refine ⟨⟨L, _, hs.sound, hstays.there, ?_, hfunc ▸ hs.apart, ?_, ?_⟩, ?_⟩
      · rw [hstays.base]
        exact hstays.height
      · rw [hstays.chunk, hfunc]
        exact hs.finds
      · rw [hfunc]
        exact hsees
      · rw [hstays.base]
        exact hs.outer
    · rw [hplayed]
      exact hacts.fresh rfl h.fresh h.grown
    · exact Nat.le_trans h.grown hacts.size_le
  | @enters f' st' args v r x chunk free hcall hleads hthere hrest hheight hroom hst hcallee hfound
      hcode harity hcaptured =>
    obtain ⟨hframes, hstack, -, hmemory⟩ := View.mk.inj hv
    obtain ⟨l, hi, hasm⟩ := hcall
    have hinstruction := hs.here.instruction? hs.sound hi hs.frames
    have hcells : m'.cells = m.cells := congrArg Memory.cells hmemory
    have hmem : x ∈ m.world.heap.funcs := Array.mem_of_getElem? hfound
    obtain ⟨V, hr, hV, hchunk⟩ := h.finds r x hfound chunk hcode
    have hplayed : m.played vars m' s = { s with calls := ⟨V, V.free.zip free⟩ :: s.calls } := by
      rw [played, if_neg (by rw [hframes]; simp [hlength]), if_pos (by rw [hframes]; simp [hlength]), hst,
        List.head?_cons, Option.bind_some, hcallee.activation? hr]
      rfl
    obtain ⟨L', hL', hat, hzero, -, hentry⟩ := entered (h.verified x hmem) (h.short x hmem) hcode harity
      hcaptured st'.length
    refine ⟨⟨a, _, _, hhead, hinstruction, ?_⟩, hverified, hshort, hfinds, by simp [hframes], ?_, ?_,
      hcells ▸ h.grown⟩
    · rw [hasm]
      exact hcells
    · rw [hplayed, hframes, hstack, hcalls]
      refine ⟨⟨L', 0, hL', hat, by simp [hzero], hV, hchunk, ?_⟩,
        ⟨L, i + 1, hs.sound, hthere, ?_, hs.apart, ?_, ?_⟩, ?_⟩
      · exact Frame.Sees.entry (f := ⟨x.name, chunk, free, _, 0, st'.length⟩) hV hentry
      · rw [hrest]
        exact hheight
      · rw [hrest]
        exact hs.finds
      · refine hs.sees.mono (by rw [hrest]) (by rw [hrest]) fun k y hk => ?_
        have hslots := hs.sound.slots_next hi (fun ns hret => ?_) (by rw [hasm]; rfl) k y hk
        · rwa [hasm] at hslots
        · cases hasm.symm.trans hret
      · rw [hrest]
        exact hs.outer
    · rw [hplayed]
      exact h.fresh.mono rfl (Nat.le_of_eq (by rw [hcells]))
  | leaves hreturns hheight hresult =>
    obtain ⟨hframes, hstack, -, hmemory⟩ := View.mk.inj hv
    obtain ⟨l, c, ns, hi, hasm, hc⟩ := hreturns
    have hinstruction := hs.here.instruction? hs.sound hi hs.frames
    have hcells : m'.cells = m.cells := congrArg Memory.cells hmemory
    have hplayed : m.played vars m' s = { s with calls := s.calls.tail } := by
      rw [played, if_pos (by rw [hframes, hlength]; omega)]
    have hne : fs ≠ [] := by
      rintro rfl
      cases hresult
    refine ⟨⟨a, _, _, hhead, hinstruction, ?_⟩, hverified, hshort, hfinds, by rwa [hframes], ?_, ?_,
      hcells ▸ h.grown⟩
    · rw [hasm]
      rcases hc with rfl | rfl <;> exact hcells
    · rw [hplayed, hframes, hstack, hcalls, List.length_cons, hheight]
      exact hs.outer
    · rw [hplayed]
      exact h.fresh.mono rfl (Nat.le_of_eq (by rw [hcells]))

theorem Scenes.plays {m₀ : Machine} (h : Scenes vars m₀ m s)
    (h₀ : m₀.Plays vars m₀.cells.size ⟨[⟨.empty, []⟩], []⟩) : m.Plays vars m₀.cells.size s := by
  induction h with
  | start => exact h₀
  | next _ hnext ih => exact (ih.next hnext).2

theorem Plays.heeds (h : m.Plays vars start s) : m.Heeds vars s := by
  refine ⟨fun m' hnext => (h.next hnext).1, fun o m' hnext => ?_⟩
  obtain ⟨L, i, f, fs, a, as, -, hs⟩ := h.onStage
  have hmemory := next_ends hs.frames hs.sound hs.here hs.height hnext
  exact congrArg Memory.cells hmemory

end Machine

end Scripting

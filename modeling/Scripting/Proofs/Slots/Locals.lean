import Scripting.Proofs.Scope.Meaning
import Scripting.Proofs.Slots.Numbered

/-!
# Slots of frames

`Locals` lists the variables that code declares for the frame it runs in, in the order in which they
are declared. `FunDecl.Laid` says of a function that its variables stand one behind the other in the
slots of its frame, and that the frame has no other slots. Name resolution gives such functions
only, whether or not it accepts the batch: the induction follows the parsed tree, and what it carries
is how far the frames around have been filled.
-/

namespace Scripting

variable {N C T W : Type}

namespace Locals

mutual

/-- The value of an assignment is resolved before its target. -/
def expr : Expr (.slotted N C T W) → List BindingId
  | .name .. | .int .. | .float .. | .string .. | .char .. | .bool .. => []
  | .interpolated _ _ es | .array _ _ es => exprs es
  | .unary _ _ _ e | .tryUnwrap _ _ e | .member _ _ e _ => expr e
  | .binary _ _ _ l r | .index _ _ l r | .range _ _ l r => expr l ++ expr r
  | .assign _ _ target value => expr value ++ expr target
  | .call _ _ _ f es => expr f ++ exprs es
  | .new _ _ _ _ fs => inits fs
  | .block b => block b
  | .cond _ _ test body alt => expr test ++ (block body ++ option alt)
  | .cases _ _ subject b as => expr subject ++ b :: arms as

def exprs : List (Expr (.slotted N C T W)) → List BindingId
  | [] => []
  | e :: es => expr e ++ exprs es

def option : Option (Expr (.slotted N C T W)) → List BindingId
  | none => []
  | some e => expr e

def inits : List (FieldInit (.slotted N C T W)) → List BindingId
  | [] => []
  | .mk _ _ e :: fs => expr e ++ inits fs

def arms : List (Arm (.slotted N C T W)) → List BindingId
  | [] => []
  | .mk _ q e :: as => pattern q ++ (expr e ++ arms as)

def pattern : Pattern (.slotted N C T W) → List BindingId
  | .wildcard _ => []
  | .literal _ e => expr e
  | .bind _ b => [b]
  | .ctor _ _ _ qs => patterns qs

def patterns : List (Pattern (.slotted N C T W)) → List BindingId
  | [] => []
  | q :: qs => pattern q ++ patterns qs

def block : Block (.slotted N C T W) → List BindingId
  | .mk _ _ ss _ => stmts ss

def stmts : List (Stmt (.slotted N C T W)) → List BindingId
  | [] => []
  | s :: ss => stmt s ++ stmts ss

/-- A nested function declares its name; what is inside it belongs to its own frame. -/
def stmt : Stmt (.slotted N C T W) → List BindingId
  | .expr _ e => expr e
  | .block b => block b
  | .bind _ _ b _ e => expr e ++ [b]
  | .ret _ e => option e
  | .loop _ test b => expr test ++ block b
  | .each _ _ l series b => expr series
      ++ ((if series.rangeBounds?.isSome then [l.index, l.limit] else [l.limit, l.index])
        ++ (l.item :: block b))
  | .func d => d.info.binding.toList
  | .impl .. | .leave _ | .next _ | .record .. | .union .. | .use .. => []

end

/-- What a statement declares at top level, where functions are declared in advance. -/
def topStmt : Stmt (.slotted N C T W) → List BindingId
  | .func _ => []
  | s => stmt s

theorem topStmt_sublist (s : Stmt (.slotted N C T W)) : (topStmt s).Sublist (stmt s) := by
  cases s with
  | func => exact List.nil_sublist _
  | _ => exact .refl _

end Locals

/-- The variables of a function: the receiver, the parameters, then those of its body. -/
def FunDecl.locals (d : FunDecl (.slotted N C T W)) : List BindingId :=
  d.paramDecls ++ Locals.block d.body

def Binding.place (x : Binding) : Storage × Nat × Nat := (x.storage, x.index, x.depth)

/-- Whether variables stand one behind the other in a frame at some depth, from a slot on. -/
def Program.Row (p : Program) (depth start : Nat) (bs : List BindingId) : Prop :=
  bs.map (fun b => (p.binding b).place) = (List.range' start bs.length).map (.frame, ·, depth)

/-- Whether the variables of a function take the slots of its frame, each one. -/
structure FunDecl.Laid (p : Program) (d : FunDecl (.slotted N C T W)) : Prop where
  row : p.Row d.info.depth 0 d.locals
  count : d.info.localCount = d.locals.length

namespace Program

variable {p q : Program}

theorem Row.nil (p : Program) (depth start : Nat) : p.Row depth start [] := rfl

theorem Row.append {depth start : Nat} {bs cs : List BindingId} (h : p.Row depth start bs)
    (k : p.Row depth (start + bs.length) cs) : p.Row depth start (bs ++ cs) := by
  unfold Row at *
  rw [List.map_append, h, k, ← List.map_append, List.length_append]
  rw [List.range'_append_1]

theorem Numbers.place (h : p.Numbers q) {b : BindingId} (hb : b < p.bindings.size) :
    (q.binding b).place = (p.binding b).place :=
  congrArg (fun m : Mark => (m.storage, m.index, m.depth)) (h.mark hb)

theorem lt_of_place {b : BindingId} {i depth : Nat} (h : (p.binding b).place = (.frame, i, depth)) :
    b < p.bindings.size := by
  apply Nat.lt_of_not_le
  intro hle
  rw [binding, Array.getD_eq_getD_getElem?, Array.getElem?_eq_none hle] at h
  cases h

theorem Row.later {depth start : Nat} {bs : List BindingId} (h : p.Row depth start bs)
    (hq : p.Numbers q) : q.Row depth start bs := by
  unfold Row at *
  rw [← h]
  refine List.map_congr_left fun b hb => hq.place ?_
  have hplace : (p.binding b).place ∈ bs.map (fun b => (p.binding b).place) :=
    List.mem_map_of_mem hb
  rw [h] at hplace
  obtain ⟨i, -, hi⟩ := List.mem_map.mp hplace
  exact lt_of_place hi.symm

end Program

theorem FunDecl.Laid.later {p q : Program} {d : FunDecl (.slotted N C T W)} (h : d.Laid p)
    (hq : p.Numbers q) : d.Laid q := ⟨h.row.later hq, h.count⟩

namespace Resolve

/-- The depths of the open frames and how far they are filled, the innermost first. -/
def State.counts (s : State) : List (Nat × Nat) := s.frames.map fun f => (f.depth, f.nextSlot)

def advance (k : Nat) : List (Nat × Nat) → List (Nat × Nat)
  | [] => []
  | (depth, n) :: cs => (depth, n + k) :: cs

theorem advance_zero (cs : List (Nat × Nat)) : advance 0 cs = cs := by
  cases cs <;> rfl

theorem advance_advance (j k : Nat) (cs : List (Nat × Nat)) :
    advance k (advance j cs) = advance (j + k) cs := by
  cases cs with
  | nil => rfl
  | cons c cs => rw [advance, advance, advance, Nat.add_assoc]

/-- What a step of resolution does that declares the variables `bs` in the innermost frame and
resolves the functions `ds`. -/
structure Allotted (s t : State) (bs : List BindingId) (ds : List (FunDecl .resolved)) : Prop where
  numbers : s.program.Numbers t.program
  scopes : t.scopes.length = s.scopes.length
  counts : t.counts = advance bs.length s.counts
  row : ∀ depth n cs, s.counts = (depth, n) :: cs → t.program.Row depth n bs
  laid : ∀ d ∈ ds, d.Laid t.program
  fresh : bs.Sublist (List.range' s.program.bindings.size
    (t.program.bindings.size - s.program.bindings.size))

def State.Nested (s : State) : Prop := s.frames ≠ [] → s.scopes ≠ []

namespace Allotted

variable {s t u : State} {bs cs : List BindingId} {ds es : List (FunDecl .resolved)}

theorem refl (s : State) : Allotted s s [] [] :=
  ⟨.refl _, rfl, (advance_zero _).symm, fun _ _ _ _ => .nil _ _ _, nofun,
    List.nil_sublist _⟩

theorem nested (h : Allotted s t bs ds) (hs : s.Nested) : t.Nested := by
  intro hframes
  have hcounts := h.counts
  rw [← List.length_pos_iff, h.scopes, List.length_pos_iff]
  apply hs
  intro hnil
  rw [State.counts, State.counts, hnil] at hcounts
  exact hframes (List.map_eq_nil_iff.mp hcounts)

theorem trans (h : Allotted s t bs ds) (k : Allotted t u cs es) :
    Allotted s u (bs ++ cs) (ds ++ es) where
  numbers := h.numbers.trans k.numbers
  scopes := k.scopes.trans h.scopes
  counts := by rw [k.counts, h.counts, advance_advance, List.length_append]
  row depth n rest hs := by
    refine ((h.row depth n rest hs).later k.numbers).append (k.row depth _ rest ?_)
    rw [h.counts, hs, advance]
  laid d hd := by
    rcases List.mem_append.mp hd with hd | hd
    · exact (h.laid d hd).later k.numbers
    · exact k.laid d hd
  fresh := by
    have hst := h.numbers.size
    have htu := k.numbers.size
    have hsplit := List.range'_append_1 (s := s.program.bindings.size)
      (m := t.program.bindings.size - s.program.bindings.size)
      (n := u.program.bindings.size - t.program.bindings.size)
    rw [Nat.add_sub_cancel' hst] at hsplit
    have hlength : t.program.bindings.size - s.program.bindings.size
        + (u.program.bindings.size - t.program.bindings.size)
          = u.program.bindings.size - s.program.bindings.size := by omega
    rw [hlength] at hsplit
    exact hsplit ▸ h.fresh.append k.fresh

theorem quiet (hp : s.program.Numbers t.program) (hs : t.scopes.length = s.scopes.length)
    (hc : t.counts = s.counts) : Allotted s t [] [] :=
  ⟨hp, hs, hc.trans (advance_zero _).symm, fun _ _ _ _ => .nil _ _ _, nofun,
    List.nil_sublist _⟩

end Allotted

variable {α β : Type}

/-- Whether a step of resolution fills frames in order from a state on, with what is known of its
result, of the variables it declares and of the functions it resolves. -/
def AllotsAt (s : State) (m : Resolve α) (R : α → List BindingId → List (FunDecl .resolved) → Prop) :
    Prop :=
  s.Nested → ∃ bs ds, Allotted s (m.run s).2 bs ds ∧ R (m.run s).1 bs ds

theorem AllotsAt.ofGet {R : α → List BindingId → List (FunDecl .resolved) → Prop} {s : State}
    {f : State → Resolve α} (hf : AllotsAt s (f s) R) : AllotsAt s (get >>= f) R := hf

def Allots (m : Resolve α) (R : α → List BindingId → List (FunDecl .resolved) → Prop) : Prop :=
  ∀ s : State, AllotsAt s m R

namespace Allots

abbrev Silent (_ : α) (bs : List BindingId) (ds : List (FunDecl .resolved)) : Prop :=
  bs = [] ∧ ds = []

variable {R R' : α → List BindingId → List (FunDecl .resolved) → Prop}
  {S : β → List BindingId → List (FunDecl .resolved) → Prop}

theorem mono {m : Resolve α} (h : Allots m R) (hR : ∀ a bs ds, R a bs ds → R' a bs ds) :
    Allots m R' := by
  intro s hs
  obtain ⟨bs, ds, ha, hr⟩ := h s hs
  exact ⟨bs, ds, ha, hR _ _ _ hr⟩

theorem pure {a : α} (h : R a [] []) : Allots (Pure.pure a) R := fun s _ => ⟨[], [], .refl s, h⟩

theorem bind {m : Resolve α} {f : α → Resolve β} (hm : Allots m R)
    (hf : ∀ a bs ds, R a bs ds → Allots (f a) fun b cs es => S b (bs ++ cs) (ds ++ es)) :
    Allots (m >>= f) S := by
  intro s hs
  obtain ⟨bs, ds, ha, hr⟩ := hm s hs
  obtain ⟨cs, es, hb, hS⟩ := hf _ bs ds hr _ (ha.nested hs)
  exact ⟨bs ++ cs, ds ++ es, ha.trans hb, hS⟩

theorem ofGet {f : State → Resolve α} (hf : ∀ s, Allots (f s) R) : Allots (get >>= f) R :=
  fun s hs => hf s s hs

theorem ofProgram {f : Program → α × Program} (hf : ∀ p : Program, p.Numbers (f p).2) :
    Allots (onProgram f) Silent :=
  fun s _ => ⟨[], [], .quiet (hf s.program) rfl rfl, rfl, rfl⟩

theorem failed {d : Diagnostic} :
    Allots (modify fun s => { s with errors := s.errors.push d }) Silent :=
  fun _ _ => ⟨[], [], .quiet (.refl _) rfl rfl, rfl, rfl⟩

theorem report {code : Diagnostic.Code} {tok : Token} {msg : String} :
    Allots (Resolve.report code tok msg) Silent := failed

theorem after {m : Resolve α} {f : α → Resolve β} (hm : Allots m Silent)
    (hf : ∀ a, Allots (f a) S) : Allots (m >>= f) S := by
  refine hm.bind fun a bs ds h => ?_
  obtain ⟨rfl, rfl⟩ := h
  exact hf a

theorem forM {f : α → Resolve Unit} (hf : ∀ a, Allots (f a) Silent) :
    (as : List α) → Allots (as.forM f) Silent
  | [] => .pure ⟨rfl, rfl⟩
  | a :: as => (hf a).after fun _ => forM hf as

theorem mapM {f : α → Resolve β} (hf : ∀ a, Allots (f a) Silent) :
    (as : List α) → Allots (as.mapM f) Silent
  | [] => .pure ⟨rfl, rfl⟩
  | a :: as => by
    rw [List.mapM_cons]
    exact (hf a).after fun _ => (mapM hf as).after fun _ => .pure ⟨rfl, rfl⟩

theorem withScope {kind : Scope.Kind} {m : Resolve α} (hm : Allots m R) :
    Allots (Resolve.withScope kind m) R := by
  intro s _
  obtain ⟨bs, ds, ha, hr⟩ := hm { s with
    scopes := ((s.scopes.headD s.program.scope).inside kind) :: s.scopes } fun _ h => nomatch h
  exact ⟨bs, ds, ⟨ha.numbers, rfl, ha.counts, ha.row, ha.laid, ha.fresh⟩, hr⟩

theorem framed {m : Resolve α} {h : α × Frame → Program → Unit × Program}
    {g : α × Frame → FunDecl .resolved} {P : FunDecl .resolved → Prop} (hm : Allots m R)
    (hh : ∀ x (p : Program), p.Numbers (h x p).2)
    (hinfo : ∀ x, (g x).info.depth = x.2.depth ∧ (g x).info.localCount = x.2.nextSlot)
    (hlocals : ∀ x bs ds, R x.1 bs ds →
      (g x).locals = bs ∧ Decls.func (g x) ⊆ g x :: ds ∧ P (g x)) :
    Allots (do let x ← Resolve.withFrame m; onProgram (h x); return g x)
      fun d bs ds => bs = [] ∧ Decls.func d ⊆ ds ∧ P d := by
  intro s _
  obtain ⟨bs, ds, ha, hr⟩ := hm (inner s) fun _ h => nomatch h
  have hrun := withFrame_run m s
  have hcounts : (m.run (inner s)).2.counts = (innerDepth s.frames, bs.length) :: s.counts := by
    rw [ha.counts, State.counts, inner, List.map_cons, advance, Nat.zero_add]
    rfl
  have hrow := ha.row _ _ _ rfl
  -- The frame that is closed is the one that was opened, filled by the variables in between.
  obtain ⟨f, fs, hframes, hhead, htail⟩ := List.map_eq_cons_iff.mp hcounts
  obtain ⟨hdepth, hslots⟩ := Prod.mk.inj hhead
  rw [hframes] at hrun
  generalize hx : (m.run (inner s)).1 = a at hrun hr
  generalize (m.run (inner s)).2 = t at hrun ha hrow htail
  have hlaid : (g (a, f)).Laid (h (a, f) t.program).2 := by
    obtain ⟨hbs, -, -⟩ := hlocals (a, f) bs ds hr
    obtain ⟨hd, hn⟩ := hinfo (a, f)
    refine ⟨?_, by rw [hn, hbs, hslots]⟩
    rw [hbs, hd, hdepth]
    exact hrow.later (hh (a, f) t.program)
  have hnumbers := hh (a, f) t.program
  obtain ⟨-, hdecls, hP⟩ := hlocals (a, f) bs ds hr
  have hfinal : (do let x ← Resolve.withFrame m; onProgram (h x); return g x : Resolve _).run s
      = (g ((Resolve.withFrame m).run s).1, { ((Resolve.withFrame m).run s).2 with
          program := (h ((Resolve.withFrame m).run s).1
            ((Resolve.withFrame m).run s).2.program).2 }) := rfl
  rw [hfinal, hrun]
  refine ⟨[], g (a, f) :: ds, ⟨ha.numbers.trans hnumbers, rfl, ?_, fun _ _ _ _ => .nil _ _ _, ?_,
    List.nil_sublist _⟩, rfl, hdecls, hP⟩
  · rw [List.length_nil, advance_zero]
    exact htail
  · intro d hd
    rcases List.mem_cons.mp hd with rfl | hd
    · exact hlaid
    · exact (ha.laid d hd).later hnumbers

end Allots

abbrev One (b : BindingId) (bs : List BindingId) (ds : List (FunDecl .resolved)) : Prop :=
  bs = [b] ∧ ds = []

theorem range'_pushed (bs : Array Binding) (x : Binding) :
    [bs.size].Sublist (List.range' bs.size ((bs.push x).size - bs.size)) := by
  rw [Array.size_push, Nat.add_sub_cancel_left]
  exact .refl _

theorem newLocal_allots (name : String) (tok : Token) : Allots (newLocal name tok) One := by
  intro s _
  obtain ⟨p, scs, fs, errs⟩ := s
  cases fs with
  | nil =>
    exact ⟨[_], [], ⟨p.numbers_newSlot name tok, rfl, rfl, fun _ _ _ h => (nomatch h),
      nofun, range'_pushed p.bindings _⟩, rfl, rfl⟩
  | cons f fs =>
    refine ⟨[_], [], ⟨p.numbers_addBinding rfl, rfl, rfl, fun depth n cs h => ?_,
      nofun, range'_pushed p.bindings _⟩, rfl, rfl⟩
    obtain ⟨hhead, -⟩ := List.cons.inj h
    obtain ⟨rfl, rfl⟩ := Prod.mk.inj hhead
    exact congrArg (fun x : Binding => [x.place]) (Program.binding_push_size p _)

theorem declareHidden_allots (name : String) (tok : Token) : Allots (declareHidden name tok) One := by
  refine (newLocal_allots name tok).bind fun b bs ds hb => ?_
  obtain ⟨rfl, rfl⟩ := hb
  exact .after (.ofProgram fun p => p.numbers_modifyBinding b fun _ => rfl) fun _ => .pure ⟨rfl, rfl⟩

theorem declare_allots (name : String) (tok : Token) : Allots (declare name tok) One := by
  intro s hs
  by_cases hscopes : s.scopes.isEmpty = true
  · -- At top level there is no frame that could be filled.
    have hframes : s.frames = [] := by
      by_contra hne
      exact hs hne (List.isEmpty_iff.mp hscopes)
    have hrun : (declare name tok).run s = ((s.program.declareGlobal name tok).1,
        { s with program := (s.program.declareGlobal name tok).2 }) := by
      change StateT.run (if s.scopes.isEmpty then _ else _ : Resolve BindingId) s = _
      rw [if_pos hscopes]
      rfl
    rw [hrun]
    refine ⟨[_], [], ⟨s.program.numbers_declareGlobal name tok, rfl, ?_, fun depth n cs h => ?_,
      nofun, range'_pushed s.program.bindings _⟩, rfl, rfl⟩
    · rw [State.counts, State.counts, hframes]
      rfl
    · rw [State.counts, hframes] at h
      cases h
  · have hrun : (declare name tok).run s
        = (newLocal name tok >>= fun b => defineInner name b >>= fun _ => pure b).run s := by
      change StateT.run (if s.scopes.isEmpty then _ else _ : Resolve BindingId) s = _
      rw [if_neg hscopes]
    rw [hrun]
    refine (newLocal_allots name tok).bind (fun b bs ds hb => ?_) s hs
    obtain ⟨rfl, rfl⟩ := hb
    refine .after (fun t _ => ⟨[], [], ?_, rfl, rfl⟩) fun _ => .pure ⟨rfl, rfl⟩
    obtain ⟨q, scs, fs, errs⟩ := t
    cases scs <;> exact .quiet (.refl _) rfl rfl

theorem capture_counts (b : BindingId) (depth index : Nat) : (fs : List Frame) →
    (capture b depth index fs).2.map (fun f => (f.depth, f.nextSlot))
      = fs.map fun f => (f.depth, f.nextSlot)
  | [] => rfl
  | [f] => by
    rw [capture]
    split <;> rfl
  | f :: g :: outer => by
    have ih := capture_counts b depth index (g :: outer)
    rw [capture]
    split
    · rfl
    · dsimp only
      split
      · rfl
      · rw [List.map_cons, List.map_cons, ih]

theorem slotFor_allots (b : BindingId) : Allots (slotFor b) Allots.Silent := by
  refine .ofGet fun s => ?_
  dsimp only
  split
  · exact .pure ⟨rfl, rfl⟩
  · exact .pure ⟨rfl, rfl⟩
  · split
    · exact .pure ⟨rfl, rfl⟩
    · intro t _
      refine ⟨[], [], .quiet ?_ rfl (capture_counts b _ _ t.frames), rfl, rfl⟩
      exact t.program.numbers_modifyBinding b fun _ => rfl

/-- What is known of an expression that is resolved. -/
abbrev Tree (e : Expr .resolved) (bs : List BindingId) (ds : List (FunDecl .resolved)) : Prop :=
  Locals.expr e = bs ∧ Decls.expr e ⊆ ds

theorem Tree.name {tok : Token} {name : String} {slot : Slot} : Tree (.name () tok name slot) [] [] :=
  ⟨rfl, List.Subset.refl _⟩

theorem readType_allots (d : TypeDef) (tok : Token) : Allots (readType d tok) Tree :=
  .after (.ofProgram fun p => p.numbers_typeBinding d tok) fun b =>
    .after (slotFor_allots b) fun _ => .pure Tree.name

theorem lookup_allots (name : String) : Allots (lookup name) Allots.Silent := by
  refine .ofGet fun s => ?_
  split <;> exact .pure ⟨rfl, rfl⟩

theorem readName_allots (tok : Token) (name : String) : Allots (readName tok name) Tree := by
  refine .after (lookup_allots name) fun r => ?_
  cases r with
  | some b => exact .ofGet fun s => .after (slotFor_allots b) fun _ => .pure Tree.name
  | none =>
    refine .ofGet fun s => ?_
    split
    · exact .after .report fun _ => .pure Tree.name
    · exact readType_allots _ tok
    · exact .after .report fun _ => .pure Tree.name

theorem assignName_allots (tok : Token) (name : String) : Allots (assignName tok name) Tree := by
  refine .after (lookup_allots name) fun r => ?_
  cases r with
  | none => exact .after .report fun _ => .pure Tree.name
  | some b =>
    refine .ofGet fun s => ?_
    dsimp only
    split
    · exact .after .report fun _ => .pure Tree.name
    · exact .after (slotFor_allots b) fun _ => .pure Tree.name

theorem memberType_allots (left : Expr .parsed) (field : Name) :
    Allots (memberType? left field) Allots.Silent := .ofGet fun _ => .pure ⟨rfl, rfl⟩

theorem bindFunction_allots {P : Phase} (d : FunDecl P) (b : BindingId) :
    Allots (bindFunction d b) Allots.Silent :=
  .after (.ofProgram fun _ => .of_eq rfl rfl) fun _ =>
    .after (.ofProgram fun p => p.numbers_modifyBinding b fun _ => rfl) fun _ => .pure ⟨rfl, rfl⟩

theorem declareNested_allots {P : Phase} (d : FunDecl P) :
    Allots (declareNested d) fun x bs ds => bs = [x.2] ∧ ds = [] := by
  refine (declare_allots d.name.text d.name.token).bind fun b bs ds hb => ?_
  obtain ⟨rfl, rfl⟩ := hb
  refine .after (bindFunction_allots d b) fun id => .ofGet fun s => ?_
  dsimp only
  split
  · exact .after (.ofProgram fun _ => .of_eq rfl rfl) fun _ => .pure ⟨rfl, rfl⟩
  · exact .pure ⟨rfl, rfl⟩

theorem declareParams_allots : (ps : List (Param .parsed)) →
    Allots (declareParams ps) fun qs bs ds => bs = qs.map (·.decl) ∧ ds = []
  | [] => .pure ⟨rfl, rfl⟩
  | q :: ps => (declare_allots q.name.text q.name.token).bind fun b bs ds hb => by
      obtain ⟨rfl, rfl⟩ := hb
      refine (declareParams_allots ps).bind fun qs bs ds hqs => ?_
      obtain ⟨rfl, rfl⟩ := hqs
      exact .pure ⟨by simp, rfl⟩

theorem funcParts_allots (hasSelf : Bool) (t : Token) (params : List (Param .parsed))
    {ss : List (Stmt .parsed)}
    (h : Allots (stmts ss) fun ss bs ds => Locals.stmts ss = bs ∧ Decls.stmts ss ⊆ ds) :
    Allots (do
      let self ← if hasSelf then some <$> declare "self" t else pure none
      let params ← declareParams params
      return (self, params, ← stmts ss)) fun x bs ds =>
        bs = x.1.toList ++ (x.2.1.map (·.decl) ++ Locals.stmts x.2.2) ∧ Decls.stmts x.2.2 ⊆ ds := by
  have hrest (self : Option BindingId) : Allots (do
      let params ← declareParams params
      return (self, params, ← stmts ss)) fun x bs ds => x.1 = self ∧
        bs = x.2.1.map (·.decl) ++ Locals.stmts x.2.2 ∧ Decls.stmts x.2.2 ⊆ ds := by
    refine (declareParams_allots params).bind fun qs bs ds hqs => h.bind fun ss bs₁ ds₁ hss =>
      .pure ⟨rfl, ?_⟩
    rw [List.append_nil, List.append_nil, hqs.1, hqs.2, hss.1]
    exact ⟨rfl, hss.2⟩
  cases hasSelf with
  | false =>
    refine (hrest none).mono fun x bs ds hx => ?_
    rw [hx.1]
    exact hx.2
  | true =>
    refine (declare_allots "self" t).bind fun b bs ds hb => (hrest (some b)).mono
      fun x bs₁ ds₁ hx => ?_
    rw [hx.1, hx.2.1, hb.1, hb.2]
    exact ⟨rfl, hx.2.2⟩

/-- What is known of a part of a tree that is resolved. -/
abbrev Part (L : α → List BindingId) (D : α → List (FunDecl .resolved)) (a : α)
    (bs : List BindingId) (ds : List (FunDecl .resolved)) : Prop := L a = bs ∧ D a ⊆ ds

section

variable {γ δ : Type} {L : α → List BindingId} {D : α → List (FunDecl .resolved)}
  {L₁ : β → List BindingId} {D₁ : β → List (FunDecl .resolved)}
  {L₂ : γ → List BindingId} {D₂ : γ → List (FunDecl .resolved)}
  {L₃ : δ → List BindingId} {D₃ : δ → List (FunDecl .resolved)}
  {m : Resolve α} {m₁ : Resolve β} {m₂ : Resolve γ}

theorem Allots.leaf {a : α} (hL : L a = []) (hD : D a = []) : Allots (Pure.pure a) (Part L D) :=
  .pure ⟨hL, by rw [hD]; exact List.nil_subset _⟩

theorem Allots.map {g : α → β} (hm : Allots m (Part L D)) (hL : ∀ a, L₁ (g a) = L a)
    (hD : ∀ a, D₁ (g a) = D a) : Allots (m >>= fun a => Pure.pure (g a)) (Part L₁ D₁) := by
  refine hm.bind fun a bs ds h => .pure ?_
  rw [List.append_nil, List.append_nil, Part, hL, hD]
  exact h

theorem Allots.map₂ {g : α → β → γ} (hm : Allots m (Part L D)) (hm₁ : Allots m₁ (Part L₁ D₁))
    (hL : ∀ a b, L₂ (g a b) = L a ++ L₁ b) (hD : ∀ a b, D₂ (g a b) ⊆ D a ++ D₁ b) :
    Allots (m >>= fun a => m₁ >>= fun b => Pure.pure (g a b)) (Part L₂ D₂) := by
  refine hm.bind fun a bs ds h => hm₁.bind fun b bs₁ ds₁ h₁ => .pure ?_
  rw [List.append_nil, List.append_nil, Part, hL, h.1, h₁.1]
  exact ⟨rfl, List.Subset.trans (hD a b) (append_subset h.2 h₁.2)⟩

end

mutual

theorem expr_allots : (e : Expr .parsed) → Allots (expr e) Tree
  | .name _ t text _ => readName_allots t text
  | .int .. | .float .. | .string .. | .char .. | .bool .. => .leaf rfl rfl
  | .interpolated _ _ es | .array _ _ es =>
    (exprs_allots es).map (fun _ => by rw [Locals.expr]) fun _ => by rw [Decls.expr]
  | .unary _ _ _ e | .tryUnwrap _ _ e =>
    (expr_allots e).map (fun _ => by rw [Locals.expr]) fun _ => by rw [Decls.expr]
  | .binary _ _ _ l r | .index _ _ l r | .range _ _ l r =>
    (expr_allots l).map₂ (expr_allots r) (fun _ _ => by rw [Locals.expr])
      fun _ _ => by rw [Decls.expr]; exact List.Subset.refl _
  | .assign _ t target value => by
    rw [expr]
    have hswap (e v : Expr .resolved) : Decls.expr (.assign () t e v) ⊆ Decls.expr v ++ Decls.expr e := by
      rw [Decls.expr]
      exact List.append_subset.mpr ⟨List.subset_append_right _ _, List.subset_append_left _ _⟩
    refine (expr_allots value).bind fun v bs ds hv => ?_
    have hdone {e : Expr .resolved} {cs es} (he : Tree e cs es) :
        Tree (.assign () t e v) (bs ++ cs) (ds ++ es) :=
      ⟨by rw [Locals.expr, hv.1, he.1], List.Subset.trans (hswap e v) (append_subset hv.2 he.2)⟩
    split
    · rename_i tok name _
      refine (assignName_allots tok name).bind fun e cs es he => .pure ?_
      rw [List.append_nil, List.append_nil]
      exact hdone he
    · refine (expr_allots target).bind fun e cs es he => ?_
      dsimp only
      split
      · refine .after .report fun _ => .pure ?_
        rw [List.append_nil, List.append_nil]
        exact hdone he
      · refine .pure ?_
        rw [List.append_nil, List.append_nil]
        exact hdone he
  | .call _ _ _ f es => (expr_allots f).map₂ (exprs_allots es) (fun _ _ => by rw [Locals.expr])
      fun _ _ => by rw [Decls.expr]; exact List.Subset.refl _
  | .member _ t left field => by
    rw [expr]
    refine .after (memberType_allots left field) fun x => ?_
    cases x with
    | none => exact (expr_allots left).map (fun _ => by rw [Locals.expr]) fun _ => by rw [Decls.expr]
    | some x => exact readType_allots x.1 x.2
  | .new _ _ _ _ fs =>
    (inits_allots fs).map (fun _ => by rw [Locals.expr]) fun _ => by rw [Decls.expr]
  | .block b => (block_allots b).map (fun _ => by rw [Locals.expr]) fun _ => by rw [Decls.expr]
  | .cond _ t test body alt => by
    refine (expr_allots test).bind fun c bs ds hc => (block_allots body).bind fun b bs₁ ds₁ hb =>
      (option_allots alt).bind fun a bs₂ ds₂ ha => .pure ?_
    rw [List.append_nil, List.append_nil, Tree, Locals.expr, Decls.expr, hc.1, hb.1, ha.1]
    exact ⟨rfl, append_subset hc.2 (append_subset hb.2 ha.2)⟩
  | .cases _ t subject _ as => by
    refine (expr_allots subject).bind fun e bs ds he => (declareHidden_allots "$match" t).bind
      fun b bs₁ ds₁ hb => (arms_allots as).bind fun as bs₂ ds₂ has => .pure ?_
    rw [List.append_nil, List.append_nil, Tree, Locals.expr, Decls.expr, he.1, hb.1, hb.2, has.1]
    exact ⟨rfl, append_subset he.2 has.2⟩

theorem exprs_allots : (es : List (Expr .parsed)) → Allots (exprs es) (Part Locals.exprs Decls.exprs)
  | [] => .leaf rfl rfl
  | e :: es => (expr_allots e).map₂ (exprs_allots es) (fun _ _ => by rw [Locals.exprs])
      fun _ _ => by rw [Decls.exprs]; exact List.Subset.refl _

theorem option_allots : (e : Option (Expr .parsed)) →
    Allots (option e) (Part Locals.option Decls.option)
  | none => .leaf rfl rfl
  | some e => (expr_allots e).map (fun _ => by rw [Locals.option]) fun _ => by rw [Decls.option]

theorem inits_allots : (fs : List (FieldInit .parsed)) →
    Allots (inits fs) (Part Locals.inits Decls.inits)
  | [] => .leaf rfl rfl
  | .mk _ _ v :: fs => (expr_allots v).map₂ (inits_allots fs) (fun _ _ => by rw [Locals.inits])
      fun _ _ => by rw [Decls.inits]; exact List.Subset.refl _

theorem arms_allots : (as : List (Arm .parsed)) → Allots (arms as) (Part Locals.arms Decls.arms)
  | [] => .leaf rfl rfl
  | .mk t q body :: as => by
    have harm : Allots (withScope .block do
        let q ← pattern q
        return (.mk t q (← expr body) : Arm .resolved)) (Part
          (fun | .mk _ q e => Locals.pattern q ++ Locals.expr e)
          fun | .mk _ q e => Decls.pattern q ++ Decls.expr e) :=
      .withScope ((pattern_allots q).map₂ (expr_allots body) (fun _ _ => rfl)
        fun _ _ => List.Subset.refl _)
    rw [arms]
    refine harm.map₂ (arms_allots as) ?_ ?_
    · rintro ⟨_, q, e⟩ as
      rw [Locals.arms, List.append_assoc]
    · rintro ⟨_, q, e⟩ as
      rw [Decls.arms, List.append_assoc]
      exact List.Subset.refl _

theorem pattern_allots : (q : Pattern .parsed) →
    Allots (pattern q) (Part Locals.pattern Decls.pattern)
  | .wildcard _ => .leaf rfl rfl
  | .literal _ v => (expr_allots v).map (fun _ => by rw [Locals.pattern]) fun _ => by rw [Decls.pattern]
  | .bind name _ => by
    refine (declare_allots name.text name.token).bind fun b bs ds hb => .pure ?_
    rw [List.append_nil, hb.1, Part, Locals.pattern, Decls.pattern]
    exact ⟨rfl, List.nil_subset _⟩
  | .ctor _ _ _ qs =>
    (patterns_allots qs).map (fun _ => by rw [Locals.pattern]) fun _ => by rw [Decls.pattern]

theorem patterns_allots : (qs : List (Pattern .parsed)) →
    Allots (patterns qs) (Part Locals.patterns Decls.patterns)
  | [] => .leaf rfl rfl
  | q :: qs => (pattern_allots q).map₂ (patterns_allots qs) (fun _ _ => by rw [Locals.patterns])
      fun _ _ => by rw [Decls.patterns]; exact List.Subset.refl _

theorem block_allots : (b : Block .parsed) → Allots (block b) (Part Locals.block Decls.block)
  | .mk _ _ ss _ => (stmts_allots ss).withScope.map (fun _ => by rw [Locals.block])
      fun _ => by rw [Decls.block]

theorem func_allots (id : FunId) (binding : Option BindingId) : (d : FunDecl .parsed) →
    Allots (func id binding d) fun d bs ds =>
      bs = [] ∧ Decls.func d ⊆ ds ∧ d.info.binding = binding
  | .mk t name _ hasSelf params result (.mk _ bt ss close) => by
    rw [func]
    refine (funcParts_allots hasSelf t params (stmts_allots ss)).framed (fun _ _ => .of_eq rfl rfl)
      (fun _ => ⟨rfl, rfl⟩) ?_
    rintro ⟨⟨self, qs, ss⟩, f⟩ bs ds ⟨rfl, hdecls⟩
    refine ⟨?_, ?_, rfl⟩
    · rw [FunDecl.locals, FunDecl.body, Locals.block, FunDecl.paramDecls, List.append_assoc]
      rfl
    · rw [Decls.func, Decls.block]
      exact List.cons_subset_cons _ hdecls

theorem funcs_allots : (ids : List FunId) → (ds : List (FunDecl .parsed)) →
    Allots (funcs ids ds) (Part (fun _ => []) Decls.funcs)
  | id :: ids, d :: ds => by
    have hfunc : Allots (func id none d) (Part (fun _ => []) Decls.func) :=
      (func_allots id none d).mono fun _ _ _ h => ⟨h.1.symm, h.2.1⟩
    exact hfunc.map₂ (funcs_allots ids ds) (fun _ _ => rfl) fun _ _ => by
      rw [Decls.funcs]
      exact List.Subset.refl _
  | [], ds => by
    rw [funcs.eq_def]
    exact .leaf rfl rfl
  | _ :: _, [] => .leaf rfl rfl

theorem stmts_allots : (ss : List (Stmt .parsed)) → Allots (stmts ss) (Part Locals.stmts Decls.stmts)
  | [] => .leaf rfl rfl
  | s :: ss => (stmt_allots s).map₂ (stmts_allots ss) (fun _ _ => by rw [Locals.stmts])
      fun _ _ => by rw [Decls.stmts]; exact List.Subset.refl _

theorem stmt_allots : (s : Stmt .parsed) → Allots (stmt s) (Part Locals.stmt Decls.stmt)
  | .expr _ v => (expr_allots v).map (fun _ => by rw [Locals.stmt]) fun _ => by rw [Decls.stmt]
  | .block b => (block_allots b).map (fun _ => by rw [Locals.stmt]) fun _ => by rw [Decls.stmt]
  | .bind _ name _ _ v => by
    refine (expr_allots v).bind fun e bs ds he => (declare_allots name.text name.token).bind
      fun b bs₁ ds₁ hb => .pure ?_
    rw [List.append_nil, List.append_nil, Part, Locals.stmt, Decls.stmt, he.1, hb.1]
    exact ⟨rfl, List.Subset.trans he.2 (List.subset_append_left _ _)⟩
  | .ret _ v => (option_allots v).map (fun _ => by rw [Locals.stmt]) fun _ => by rw [Decls.stmt]
  | .loop _ test body => (expr_allots test).map₂ (block_allots body) (fun _ _ => by rw [Locals.stmt])
      fun _ _ => by rw [Decls.stmt]; exact List.Subset.refl _
  | .each t name _ series body => by
    rw [stmt]
    refine (expr_allots series).bind fun e bs ds he => .withScope ?_
    have hbody (i l : BindingId) (hidden : List BindingId)
        (h : hidden = if e.rangeBounds?.isSome then [i, l] else [l, i]) : Allots (do
          let item ← declare name.text name.token
          return (.each t name ⟨l, i, item⟩ e (← block body) : Stmt .resolved)) fun s cs es =>
            Part Locals.stmt Decls.stmt s (bs ++ (hidden ++ cs)) (ds ++ es) := by
      refine (declare_allots name.text name.token).bind fun item bs₁ ds₁ hitem =>
        (block_allots body).bind fun b bs₂ ds₂ hb => .pure ?_
      rw [List.append_nil, List.append_nil, Part, Locals.stmt, Decls.stmt, he.1, hitem.1, hitem.2,
        hb.1, h]
      exact ⟨rfl, append_subset he.2 hb.2⟩
    dsimp only
    split
    · rename_i hrange
      refine (declareHidden_allots _ t).bind fun i bs₁ ds₁ hi => (declareHidden_allots _ t).bind
        fun l bs₂ ds₂ hl => (hbody i l _ (if_pos hrange).symm).mono fun s cs es h => ?_
      rw [hi.1, hi.2, hl.1, hl.2]
      exact h
    · rename_i hrange
      refine (declareHidden_allots _ t).bind fun l bs₁ ds₁ hl => (declareHidden_allots _ t).bind
        fun i bs₂ ds₂ hi => (hbody i l _ (if_neg hrange).symm).mono fun s cs es h => ?_
      rw [hi.1, hi.2, hl.1, hl.2]
      exact h
  | .leave _ | .next _ => .leaf rfl rfl
  | .func d => by
    refine (declareNested_allots d).bind fun x bs ds hx => (func_allots x.1 (some x.2) d).bind
      fun d bs₁ ds₁ hd => .pure ?_
    rw [List.append_nil, List.append_nil, Part, Locals.stmt, Decls.stmt, hd.2.2, hd.1, hx.1, hx.2]
    exact ⟨rfl, hd.2.1⟩
  | .impl .. | .record .. | .union .. | .use .. => .after .report fun _ => .leaf rfl rfl

end

theorem useModule_allots (load : String → Except LoadError HostModule) (tok : Token)
    (path : List String) : Allots (useModule load tok path) Allots.Silent := by
  refine .after (.ofProgram fun p => (Loading.useModule_alongside load _ p).numbers) fun r => ?_
  cases r with
  | ok u => exact .pure ⟨rfl, rfl⟩
  | error e => exact .report

theorem declareType_allots (name : Name) (kind : TypeDef.Kind) :
    Allots (declareType name kind) Allots.Silent := by
  intro s
  apply AllotsAt.ofGet
  split
  · exact Allots.after .report (fun _ => .pure ⟨rfl, rfl⟩) s
  · rename_i id q hq
    exact fun _ => ⟨[], [], .quiet (Program.addType_alongside hq).numbers rfl rfl, rfl, rfl⟩

theorem fields_allots : (fs : List FieldDecl) → (seen : List String) →
    Allots (fields seen fs) Allots.Silent
  | [], _ => .pure ⟨rfl, rfl⟩
  | f :: fs, seen => by
    rw [fields]
    split
    · exact .after .report fun _ => fields_allots fs seen
    · refine .ofGet fun s => ?_
      split
      · exact (fields_allots fs _).after fun _ => .pure ⟨rfl, rfl⟩
      · exact Allots.failed.after fun _ => fields_allots fs _

theorem variants_allots (union : String) : (vs : List VariantDecl) → (seen : List String) →
    Allots (variants union seen vs) Allots.Silent
  | [], _ => .pure ⟨rfl, rfl⟩
  | v :: vs, seen => by
    rw [variants]
    split
    · exact .after .report fun _ => .pure ⟨rfl, rfl⟩
    · exact (fields_allots v.fields []).after fun _ => (variants_allots union vs _).after
        fun _ => .pure ⟨rfl, rfl⟩

theorem defineRecord_allots (id : TypeId) (decls : List FieldDecl) :
    Allots (defineRecord id decls) Allots.Silent :=
  (fields_allots decls []).after fun _ => .ofProgram fun _ => .of_eq rfl rfl

theorem defineUnion_allots (id : TypeId) (name : Name) (decls : List VariantDecl) :
    Allots (defineUnion id name decls) Allots.Silent := by
  refine (variants_allots name.text decls []).after fun r => ?_
  cases r with
  | none => exact .pure ⟨rfl, rfl⟩
  | some vs =>
    refine .ofProgram fun p => .trans ?_ (Program.numbers_bindVariants _ id name.token)
    exact .of_eq rfl rfl

theorem addMethod_allots (d : TypeDef) (f : FunDecl .parsed) :
    Allots (addMethod d f) Allots.Silent :=
  .after (.ofProgram fun _ => .of_eq rfl rfl) fun _ =>
    .after (.ofProgram fun _ => .of_eq rfl rfl) fun _ => .pure ⟨rfl, rfl⟩

theorem declareImpl_allots (name : Name) (ds : List (FunDecl .parsed)) :
    Allots (declareImpl name ds) Allots.Silent := by
  refine .ofGet fun s => ?_
  split
  · exact .after .report fun _ => .pure ⟨rfl, rfl⟩
  · exact .after .report fun _ => .pure ⟨rfl, rfl⟩
  · rename_i d _
    split
    · exact (Allots.mapM (addMethod_allots d) ds).after fun _ => .pure ⟨rfl, rfl⟩
    · exact .after .report fun _ => .pure ⟨rfl, rfl⟩

theorem declareFunction_allots (d : FunDecl .parsed) :
    Allots (declareFunction d) Allots.Silent :=
  .after (.ofProgram fun p => p.numbers_declareGlobal d.name.text d.name.token) fun b =>
    .after (bindFunction_allots d b) fun _ =>
      .after (.ofProgram fun _ => .of_eq rfl rfl) fun _ => .pure ⟨rfl, rfl⟩

theorem hoist_allots (load : String → Except LoadError HostModule) (ss : List (Stmt .parsed)) :
    Allots (hoist load ss) Allots.Silent := by
  refine (Allots.forM (fun s => ?_) ss).after fun _ => (Allots.mapM (fun s => ?_) ss).after
    fun types => (Allots.forM (fun x => ?_) (ss.zip types)).after fun _ => .mapM (fun s => ?_) ss
  · split
    · exact useModule_allots load _ _
    · exact .pure ⟨rfl, rfl⟩
  · split
    · exact declareType_allots _ _
    · exact declareType_allots _ _
    · exact .pure ⟨rfl, rfl⟩
  · split
    · exact defineRecord_allots _ _
    · exact defineUnion_allots _ _ _
    · exact .pure ⟨rfl, rfl⟩
  · split
    · exact declareImpl_allots _ _
    · exact declareFunction_allots _
    · exact .pure ⟨rfl, rfl⟩

theorem topStmt_allots (h : Hoisted) (s : Stmt .parsed) :
    Allots (topStmt h s) fun t bs ds => Decls.stmt t ⊆ ds ∧ (Locals.topStmt t).Sublist bs := by
  rw [topStmt.eq_def]
  split
  · refine (func_allots _ _ _).bind fun d bs ds hd => .pure ?_
    rw [List.append_nil, Decls.stmt]
    exact ⟨hd.2.1, List.nil_sublist _⟩
  · refine (funcs_allots _ _).bind fun fs bs ds hfs => .pure ?_
    rw [List.append_nil, Decls.stmt]
    exact ⟨hfs.2, List.nil_sublist _⟩
  · exact .pure ⟨List.nil_subset _, List.nil_sublist _⟩
  · exact .pure ⟨List.nil_subset _, List.nil_sublist _⟩
  · exact .pure ⟨List.nil_subset _, List.nil_sublist _⟩
  · exact (stmt_allots s).mono fun t _ _ h => ⟨h.2, h.1 ▸ Locals.topStmt_sublist t⟩

theorem topStmts_allots : (xs : List (Hoisted × Stmt .parsed)) →
    Allots (xs.mapM fun (h, s) => topStmt h s) fun ts bs ds =>
      Decls.stmts ts ⊆ ds ∧ (ts.flatMap Locals.topStmt).Sublist bs
  | [] => .pure ⟨List.nil_subset _, List.nil_sublist _⟩
  | x :: xs => by
    rw [List.mapM_cons]
    refine (topStmt_allots x.1 x.2).bind fun t bs ds ht => (topStmts_allots xs).bind
      fun ts bs₁ ds₁ hts => .pure ?_
    rw [List.append_nil, List.append_nil, Decls.stmts, List.flatMap_cons]
    exact ⟨append_subset ht.1 hts.1, ht.2.append hts.2⟩

theorem batch_allots (load : String → Except LoadError HostModule) (ss : List (Stmt .parsed)) :
    Allots (batch load ss) fun ts bs ds =>
      Decls.stmts ts ⊆ ds ∧ (ts.flatMap Locals.topStmt).Sublist bs := by
  refine (hoist_allots load ss).after fun hs => .ofGet fun s => ?_
  split
  · exact topStmts_allots _
  · exact .pure ⟨List.nil_subset _, List.nil_sublist _⟩

end Resolve

theorem Source.stmts_of_resolve {load : String → Except LoadError HostModule} {p q : Program}
    {src : Source .parsed} {out : Source .resolved} (h : src.resolve load p = (.ok out, q)) :
    out.stmts = ((Resolve.batch load src.stmts).run { program := p }).1 := by
  have hrun : (src.resolve load p).1
      = if ((Resolve.batch load src.stmts).run { program := p }).2.errors.isEmpty then
          .ok { file := src.file, stmts := ((Resolve.batch load src.stmts).run { program := p }).1 }
        else .error ((Resolve.batch load src.stmts).run { program := p }).2.errors.toList := rfl
  rw [h] at hrun
  split at hrun
  · obtain rfl := Except.ok.inj hrun
    rfl
  · cases hrun

/-- Resolving a batch numbers what it declares, and the variables of each of its functions take the
slots of a frame, each one. -/
theorem Source.resolve_laid (load : String → Except LoadError HostModule) (p : Program)
    (src : Source .parsed) : p.Numbers (src.resolve load p).2 ∧
      ∀ d ∈ Decls.stmts ((Resolve.batch load src.stmts).run { program := p }).1,
        d.Laid (src.resolve load p).2 := by
  obtain ⟨bs, ds, ha, hds, -⟩ := Resolve.batch_allots load src.stmts { program := p } fun h =>
    (nomatch h rfl)
  exact ⟨ha.numbers, fun d hd => ha.laid d (hds hd)⟩

theorem Source.resolve_apart (load : String → Except LoadError HostModule) (p : Program)
    (src : Source .parsed) :
    (((Resolve.batch load src.stmts).run { program := p }).1.flatMap Locals.topStmt).Nodup := by
  obtain ⟨bs, ds, ha, -, hbs⟩ := Resolve.batch_allots load src.stmts { program := p } fun h =>
    (nomatch h rfl)
  exact List.Nodup.sublist (hbs.trans ha.fresh) List.nodup_range'

end Scripting

import Scripting.Proofs.Syntax.Rules

/-!
# Operator chains

Operands joined by infix operators, and the trees over them. Of the many trees over a chain the parser
builds the canonical one: what binds tighter stands deeper, and of equal operators the left one does,
except for the power operator (`expr_chain`).
-/

namespace Scripting.Parser

open Parse ParseState

def atomKinds : List Token.Kind :=
  [.ident, .int, .float, .string, .char, .kwTrue, .kwFalse, .interpolated]

def unaryKinds : List Token.Kind := [.minus, .bang, .kwTry]

def closingOf? : Token.Kind → Option Token.Kind
  | .leftParen => some .rightParen
  | .leftBracket => some .rightBracket
  | .leftBrace => some .rightBrace
  | _ => none

/-- What stands between the infix operators of a chain. -/
inductive Operand where
  /-- A name or a literal. -/
  | atom (tok : Token) (h : tok.kind ∈ atomKinds)
  /-- A parenthesised expression, an array or a block. -/
  | bracketed (opening : Token) (inner : List Token) (closing : Token)
      (h : closingOf? opening.kind = some closing.kind) (hinner : Balanced inner)
  /-- An operator in front of its operand. -/
  | unary (op : Token) (h : op.kind ∈ unaryKinds) (operand : Operand)

/-- An infix operator, and the line breaks behind it. -/
structure Operator where
  token : Token
  op : BinaryOp
  isOp : binaryOp? token.kind = some op
  breaks : List Token
  isBreak : ∀ t ∈ breaks, t.kind = .newline

/-- Operands joined by infix operators. -/
structure Chain where
  first : Operand
  links : List (Operator × Operand)

def Operand.tokens : Operand → List Token
  | atom tok _ => [tok]
  | bracketed opening inner closing _ _ => opening :: (inner ++ [closing])
  | unary op _ x => op :: x.tokens

def linkTokens (links : List (Operator × Operand)) : List Token :=
  links.flatMap fun (o, x) => o.token :: (o.breaks ++ x.tokens)

def Chain.tokens (chain : Chain) : List Token := chain.first.tokens ++ linkTokens chain.links

/-- A token that continues no expression comes next, and at last the end of input. -/
def Stops (ts : List Token) : Prop := Closed ts ∧ ∃ t ∈ ts.head?, levelOf t.kind = 1

def Operator.level (o : Operator) : Nat := levelOf o.token.kind

def Operator.rightLevel (o : Operator) : Nat := if o.op = .pow then o.level - 1 else o.level

def Operator.AdmitsLeft (o p : Operator) : Prop :=
  if o.op = .pow then o.level < p.level else o.level ≤ p.level

def Operator.AdmitsRight (o p : Operator) : Prop :=
  if o.op = .pow then o.level ≤ p.level else o.level < p.level

/-- A tree of infix operators over operands. -/
inductive Tree where
  | leaf (x : Operand)
  | node (left : Tree) (o : Operator) (right : Tree)

namespace Tree

def root? : Tree → Option Operator
  | leaf _ => none
  | node _ o _ => some o

def first : Tree → Operand
  | leaf x => x
  | node l _ _ => l.first

def links : Tree → List (Operator × Operand)
  | leaf _ => []
  | node l o r => l.links ++ (o, r.first) :: r.links

/-- The operands and operators of a tree from left to right. -/
def chain (tree : Tree) : Chain := ⟨tree.first, tree.links⟩

/-- At every node the left operand binds at least as tightly as the node, and the right one tighter;
the other way round at a power. -/
def Canonical : Tree → Prop
  | leaf _ => True
  | node l o r => l.Canonical ∧ r.Canonical ∧ (∀ p ∈ l.root?, o.AdmitsLeft p) ∧
      ∀ p ∈ r.root?, o.AdmitsRight p

end Tree

def unaryExpr (op : Token) (e : Expr .parsed) : Expr .parsed :=
  match op.kind with
  | .minus => .unary () op .neg e
  | .bang => .unary () op .not e
  | _ => .tryUnwrap () op e

def StandsFor (rounds : Nat) (ts : List Token) (e : Expr .parsed) : Prop :=
  ∃ n c s t, (startForm (rules rounds n) c).Yields s e t ∧ s.tokens = ts ++ t.ahead ∧
    Closed t.ahead ∧ t.errors.length = s.errors.length

/-- What an operand is read as; the operand of a unary operator is an operand, never a tree. -/
def Operand.ReadAs (rounds : Nat) : Operand → Expr .parsed → Prop
  | unary op _ x, e => ∃ e', e = unaryExpr op e' ∧ x.ReadAs rounds e'
  | x, e => StandsFor rounds x.tokens e

/-- The expression that a tree stands for. -/
def Tree.ReadAs (rounds : Nat) : Tree → Expr .parsed → Prop
  | leaf x, e => x.ReadAs rounds e
  | node l o r, e => ∃ el er, e = .binary () o.token o.op el er ∧ l.ReadAs rounds el ∧ r.ReadAs rounds er

theorem levelOf_le {k : Token.Kind} {op : BinaryOp} (h : binaryOp? k = some op) :
    3 ≤ levelOf k ∧ levelOf k ≤ 13 ∧ (op = .pow ↔ levelOf k = 13) := by
  cases k <;> simp_all [binaryOp?, levelOf] <;> subst h <;> decide

theorem Operator.admitsLeft_of_le {o p : Operator} (h : o.level ≤ p.rightLevel) : o.AdmitsLeft p := by
  obtain ⟨-, -, hopow⟩ := levelOf_le o.isOp
  obtain ⟨hp, hp', hppow⟩ := levelOf_le p.isOp
  simp only [AdmitsLeft, rightLevel, level, hopow, hppow] at *
  split <;> split at h <;> omega

theorem Operator.admitsRight_of_lt {o p : Operator} (h : o.rightLevel < p.level) : o.AdmitsRight p := by
  have ho := (levelOf_le o.isOp).1
  simp only [AdmitsRight, rightLevel, level] at *
  split <;> split at h <;> first | omega | contradiction

theorem Operand.tokens_eq_cons (x : Operand) : ∃ t ts, x.tokens = t :: ts ∧ t.kind ≠ .newline := by
  cases x with
  | atom tok h => exact ⟨tok, [], rfl, fun hk => absurd h (by rw [hk]; decide)⟩
  | bracketed opening inner closing h _ =>
    exact ⟨opening, _, rfl, fun hk => by rw [hk] at h; cases h⟩
  | unary op h x => exact ⟨op, _, rfl, fun hk => absurd h (by rw [hk]; decide)⟩

theorem yields_startForm_atom {r : Rules} {c : Context} {s t : ParseState} {e : Expr .parsed}
    (hk : s.current.kind ∈ atomKinds) (h : (startForm r c).Yields s e t) : t = s := by
  rw [startForm, yields_current_bind] at h
  have hliteral (h : (literal s.current).Yields s e t) : t = s := by
    unfold literal at h
    split at h <;> first | exact (yields_pure.mp h).2.symm | exact absurd h not_yields_fail
  split at h
  case h_1 => exact (yields_pure.mp h).2.symm
  case h_8 =>
    obtain ⟨es, u, hes, h⟩ := yields_bind.mp h
    obtain rfl := yields_interpolationParts hes
    exact (yields_pure.mp h).2.symm
  case h_9 hkind => exact absurd hk (by rw [hkind]; decide)
  case h_10 hkind => exact absurd hk (by rw [hkind]; decide)
  case h_11 hkind => exact absurd hk (by rw [hkind]; decide)
  case h_12 hkind => exact absurd hk (by rw [hkind]; decide)
  case h_13 hkind => exact absurd hk (by rw [hkind]; decide)
  case h_14 hkind => exact absurd hk (by rw [hkind]; decide)
  case h_15 hkind => exact absurd hk (by rw [hkind]; decide)
  case h_16 hkind => exact absurd hk (by rw [hkind]; decide)
  case h_17 => exact absurd h not_yields_fail
  all_goals exact hliteral h

theorem shift_of_closingOf? {k close : Token.Kind} (h : closingOf? k = some close) :
    close.shift 0 = none := by
  cases k <;> cases h <;> rfl

theorem yields_startForm_group {r : Rules} {c : Context} {s t : ParseState} {e : Expr .parsed}
    (hk : s.current.kind = .leftParen) : (startForm r c).Yields s e t ↔
      ∃ u, (r.expr 1 c.inside).Yields { s.advance with tokens := dropNewlines s.advance.tokens } e u ∧
        (ParseState.mk (dropPeekNewlines u.tokens) u.errors).peek.kind = .rightParen ∧
        (ParseState.mk (dropPeekNewlines u.tokens) u.errors).advance = t := by
  rw [startForm, yields_current_bind]
  simp only [hk]
  rw [yields_advance_bind, yields_skipNewlines_bind, yields_bind]
  simp only [yields_skipPeekNewlines_bind, yields_expectPeek_bind, yields_pure]
  constructor
  · rintro ⟨e', u, he, hpeek, rfl, ht⟩
    exact ⟨u, he, hpeek, ht⟩
  · rintro ⟨u, he, hpeek, ht⟩
    exact ⟨e, u, he, hpeek, rfl, ht⟩

theorem yields_startForm_bracketed {rounds n : Nat} {c : Context} {s t : ParseState} {e : Expr .parsed}
    {close : Token.Kind} (hclose : closingOf? s.current.kind = some close)
    (h : (startForm (rules rounds n) c).Yields s e t) :
    t.current.kind = close ∧ Clean s t (Closed s.ahead → Span 0 s.ahead 0 t.tokens) := by
  have hr := sound_rules rounds n
  by_cases hparen : s.current.kind = .leftParen
  · obtain rfl : close = .rightParen := by simpa [hparen, closingOf?, eq_comm] using hclose
    obtain ⟨u, he, hpeek, rfl⟩ := (yields_startForm_group hparen).mp h
    obtain ⟨hle, hspan⟩ := hr.expr (P := fun _ => True) 1 c.inside _ e u trivial he
    simp only [errors_advance] at hle hspan
    refine ⟨by simpa using hpeek, by simpa using hle, fun heq hs => ?_⟩
    have h₁ := span_advance (n := 0) hs
    have h₂ := h₁.trans (span_dropNewlines h₁.closed)
    have h₃ := h₂.trans (hspan (by simpa using heq) h₂.closed)
    have h₄ := h₃.trans (span_dropPeekNewlines h₃.closed)
    exact h₄.trans (span_advance h₄.closed)
  · rw [startForm, yields_current_bind] at h
    split at h
    case h_12 hk =>
      obtain rfl : close = .rightBracket := by simpa [hk, closingOf?, eq_comm] using hclose
      obtain ⟨es, u, hes, h⟩ := yields_bind.mp h
      obtain ⟨-, rfl⟩ := yields_pure.mp h
      exact ⟨current_of_exprList hes,
        reads_exprList_inside (P := fun _ => True) hr c .rightBracket s es u trivial hes⟩
    case h_13 hk =>
      obtain rfl : close = .rightBrace := by simpa [hk, closingOf?, eq_comm] using hclose
      obtain ⟨b, u, hb, h⟩ := yields_bind.mp h
      obtain ⟨-, rfl⟩ := yields_pure.mp h
      cases n with
      | zero => exact absurd hb not_yields_failure
      | succ n =>
        rw [rules_block] at hb
        exact ⟨current_of_block hb,
          reads_block_inside (P := fun _ => True) (sound_rules rounds n) c s b u trivial hb⟩
    all_goals simp_all [closingOf?]

theorem yields_startForm_unary {r : Rules} {c : Context} {s t : ParseState} {e : Expr .parsed}
    (hk : s.current.kind ∈ unaryKinds) (h : (startForm r c).Yields s e t) :
    ∃ e', e = unaryExpr s.current e' ∧ (r.expr 14 c).Yields s.advance e' t := by
  rw [startForm, yields_current_bind] at h
  have hunary {op : UnaryOp} (h : (unary r c op).Yields s e t) :
      ∃ e', e = .unary () s.current op e' ∧ (r.expr 14 c).Yields s.advance e' t := by
    rw [unary, yields_current_bind, yields_advance_bind] at h
    obtain ⟨e', u, he', h⟩ := yields_bind.mp h
    obtain ⟨rfl, rfl⟩ := yields_pure.mp h
    exact ⟨e', rfl, he'⟩
  split at h
  case h_9 hop => simpa [unaryExpr, hop] using hunary h
  case h_10 hop => simpa [unaryExpr, hop] using hunary h
  case h_16 hop =>
    rw [yields_advance_bind] at h
    obtain ⟨e', u, he', h⟩ := yields_bind.mp h
    obtain ⟨rfl, rfl⟩ := yields_pure.mp h
    exact ⟨e', by simp [unaryExpr, hop], he'⟩
  all_goals simp_all [unaryKinds]

theorem yields_operatorForm {r : Rules} {c : Context} {left e : Expr .parsed} {s t : ParseState}
    {op : BinaryOp} (hop : binaryOp? s.current.kind = some op) :
    (operatorForm r c left).Yields s e t ↔
      ∃ right, (r.expr (if op = .pow then levelOf s.current.kind - 1 else levelOf s.current.kind) c).Yields
          { s.advance with tokens := dropNewlines s.advance.tokens } right t ∧
        e = .binary () s.current op left right := by
  rw [operatorForm, yields_current_bind]
  split
  case h_7 =>
    simp only [hop, yields_advance_bind, yields_skipNewlines_bind]
    rw [yields_bind]
    simp only [yields_pure, beq_iff_eq]
    constructor
    · rintro ⟨right, u, hright, rfl, rfl⟩
      exact ⟨right, hright, rfl⟩
    · rintro ⟨right, hright, rfl⟩
      exact ⟨right, t, hright, rfl, rfl⟩
  all_goals simp_all [binaryOp?]

theorem not_yields_operatorForm {r : Rules} {c : Context} {left e : Expr .parsed} {s t : ParseState}
    (h : levelOf s.current.kind = 1) : ¬ (operatorForm r c left).Yields s e t := by
  have hnone : binaryOp? s.current.kind = none := by
    generalize s.current.kind = k at h
    cases k <;> first | rfl | cases h
  rw [operatorForm, yields_current_bind]
  split
  case h_7 =>
    rw [hnone]
    exact not_yields_failure
  all_goals simp_all [levelOf]

theorem yields_operatorRound {r : Rules} {level : Nat} {c : Context} {left : Expr .parsed}
    {y : Expr .parsed ⊕ Expr .parsed} {s t : ParseState} :
    (operatorRound r level c left).Yields s y t ↔
      if (level < levelOf s.peek.kind && !(s.peek.kind == .leftBrace && (c.inHead || !namesType left))) = true
      then ∃ e, (operatorForm r c left).Yields s.advance e t ∧ y = .inl e
      else y = .inr left ∧ t = s := by
  rw [operatorRound, yields_peek_bind, yields_ite]
  split
  · simp only [yields_advance_bind]
    rw [yields_bind]
    simp only [yields_pure]
    constructor
    · rintro ⟨e, u, he, rfl, rfl⟩
      exact ⟨e, he, rfl⟩
    · rintro ⟨e, he, rfl⟩
      exact ⟨e, t, he, rfl, rfl⟩
  · simp [eq_comm]

theorem yields_operatorRound_of_lt {r : Rules} {level : Nat} {c : Context} {left : Expr .parsed}
    {y : Expr .parsed ⊕ Expr .parsed} {s t : ParseState} {op : BinaryOp}
    (hop : binaryOp? s.peek.kind = some op) (hlt : level < levelOf s.peek.kind) :
    (operatorRound r level c left).Yields s y t ↔
      ∃ e, (operatorForm r c left).Yields s.advance e t ∧ y = .inl e := by
  have hbrace : s.peek.kind ≠ .leftBrace := by
    intro hk
    rw [hk] at hop
    cases hop
  rw [yields_operatorRound, if_pos (by simp [hlt, hbrace])]

theorem yields_operatorRound_of_le {r : Rules} {level : Nat} {c : Context} {left : Expr .parsed}
    {y : Expr .parsed ⊕ Expr .parsed} {s t : ParseState} (hle : levelOf s.peek.kind ≤ level) :
    (operatorRound r level c left).Yields s y t ↔ y = .inr left ∧ t = s := by
  rw [yields_operatorRound, if_neg (by simp [Nat.not_lt.mpr hle])]

/-- An expression that was read from the front of a chain, and the links left behind it. -/
structure Front (rounds level : Nat) (chain : Chain) (rest : List Token) (e : Expr .parsed)
    (t : ParseState) (tree : Tree) (left : List (Operator × Operand)) : Prop where
  first : tree.first = chain.first
  links : tree.links ++ left = chain.links
  ahead : t.ahead = linkTokens left ++ rest
  reads : tree.ReadAs rounds e
  canonical : tree.Canonical
  above : ∀ p ∈ tree.root?, level < p.level

/-- The rule reads a tree from the front of a chain, up to an operator that does not bind tighter than
its level. -/
def ReadsChains (rounds : Nat) (p : Nat → Context → Parse (Expr .parsed)) : Prop :=
  ∀ {level c s e t chain rest}, (p level c).Yields s e t → s.tokens = chain.tokens ++ rest → Stops rest →
    Clean s t (∃ tree left, Front rounds level chain rest e t tree left ∧
      ∀ q ∈ left.head?, q.1.level ≤ level)

theorem Stops.append {rest : List Token} (h : Stops rest) (ts : List Token) : Closed (ts ++ rest) :=
  h.1.append ts

theorem peek_of_links {q : Operator × Operand} {links : List (Operator × Operand)} {rest : List Token}
    {s : ParseState} (hs : s.ahead = linkTokens (q :: links) ++ rest) (hrest : Stops rest) :
    s.peek = q.1.token := by
  have hcons := ahead_eq_cons (hs ▸ hrest.append _)
  rw [hs] at hcons
  exact (List.cons.inj hcons).1.symm

theorem levelOf_peek {rest : List Token} {s : ParseState} (hs : s.ahead = rest) (hrest : Stops rest) :
    levelOf s.peek.kind = 1 := by
  obtain ⟨hclosed, t, ht, hlevel⟩ := hrest
  rw [← hs, ahead_eq_cons (hs ▸ hclosed)] at ht
  obtain rfl : s.peek = t := Option.some.inj ht
  exact hlevel

theorem Front.leaf_of_unary {rounds : Nat} {chain : Chain} {rest : List Token} {e : Expr .parsed}
    {t : ParseState} {tree : Tree} {left : List (Operator × Operand)}
    (h : Front rounds 14 chain rest e t tree left) : tree = .leaf chain.first ∧ left = chain.links := by
  cases tree with
  | leaf x => exact ⟨congrArg Tree.leaf h.first, h.links⟩
  | node l o r =>
    have hle := (levelOf_le o.isOp).2.1
    have habove := h.above o rfl
    exact absurd hle (Nat.not_le.mpr (Nat.lt_trans (by decide) habove))

section Levels

variable {rounds n : Nat} (hexpr : ReadsChains rounds (rules rounds n).expr)

include hexpr

theorem startForm_operand {c : Context} {s t : ParseState} {e : Expr .parsed} {x : Operand}
    {links : List (Operator × Operand)} {rest : List Token}
    (h : (startForm (rules rounds n) c).Yields s e t)
    (hs : s.tokens = x.tokens ++ (linkTokens links ++ rest)) (hrest : Stops rest) :
    Clean s t (t.ahead = linkTokens links ++ rest ∧ x.ReadAs rounds e) := by
  have hclosed : Closed (linkTokens links ++ rest) := hrest.append _
  have hcons := tokens_eq_cons (hs ▸ hclosed.append _)
  rw [hs] at hcons
  have hmonotone := (reads_startForm (P := fun _ => True) (sound_rules rounds n) c s e t trivial h).1
  have halone (hahead : t.ahead = linkTokens links ++ rest) (heq : t.errors.length = s.errors.length) :
      StandsFor rounds x.tokens e := ⟨n, c, s, t, h, hahead ▸ hs, hahead ▸ hclosed, heq⟩
  cases x with
  | atom tok htok =>
    obtain ⟨rfl, hahead⟩ : tok = s.current ∧ linkTokens links ++ rest = s.ahead := by
      simpa [Operand.tokens] using hcons
    obtain rfl := yields_startForm_atom htok h
    exact ⟨hmonotone, fun heq => ⟨hahead.symm, halone hahead.symm heq⟩⟩
  | bracketed opening inner closing hclose hinner =>
    obtain ⟨rfl, hahead⟩ : opening = s.current ∧
        inner ++ closing :: (linkTokens links ++ rest) = s.ahead := by
      simpa [Operand.tokens] using hcons
    obtain ⟨hkind, -, hspan⟩ := yields_startForm_bracketed hclose h
    refine ⟨hmonotone, fun heq => ?_⟩
    have hbehind : Closed s.ahead := by
      rw [← hahead, List.append_cons]
      exact hclosed.append _
    obtain ⟨htokens, seg, hseg, hbalanced, -⟩ := hspan heq hbehind
    rw [tokens_eq_cons htokens, ← hahead] at hseg
    have hshift := shift_of_closingOf? hclose
    have hshift' : t.current.kind.shift 0 = none := hkind ▸ hshift
    obtain ⟨-, -, hrest⟩ := closing_unique hinner hbalanced hshift hshift' hseg
    exact ⟨hrest.symm, halone hrest.symm heq⟩
  | unary op hop x =>
    obtain ⟨rfl, hahead⟩ : op = s.current ∧ x.tokens ++ (linkTokens links ++ rest) = s.ahead := by
      simpa [Operand.tokens] using hcons
    obtain ⟨e', rfl, he'⟩ := yields_startForm_unary hop h
    have hnext : s.advance.tokens = (Chain.mk x links).tokens ++ rest := by
      rw [tokens_advance (hahead ▸ hclosed.append _), ← hahead]
      simp [Chain.tokens]
    refine ⟨hmonotone, fun heq => ?_⟩
    obtain ⟨tree, left, hfront, -⟩ := (hexpr he' hnext hrest).2 (by simpa using heq)
    obtain ⟨rfl, rfl⟩ := hfront.leaf_of_unary
    exact ⟨hfront.ahead, e', rfl, hfront.reads⟩

theorem operatorForm_front {level : Nat} {c : Context} {s t : ParseState} {left e : Expr .parsed}
    {chain : Chain} {rest : List Token} {tree : Tree} {o : Operator} {x : Operand}
    {links : List (Operator × Operand)}
    (h : (operatorForm (rules rounds n) c left).Yields s.advance e t) (hrest : Stops rest)
    (hfront : Front rounds level chain rest left s tree ((o, x) :: links)) (hlevel : level < o.level)
    (hleft : ∀ p ∈ tree.root?, o.AdmitsLeft p) :
    Clean s t (∃ right behind, Front rounds level chain rest e t (.node tree o right) behind ∧
      ∀ q ∈ behind.head?, q.1.level ≤ o.rightLevel) := by
  have hahead : s.ahead = o.token :: (o.breaks ++ (x.tokens ++ (linkTokens links ++ rest))) := by
    rw [hfront.ahead]
    simp [linkTokens]
  have hclosed : Closed s.ahead := hfront.ahead ▸ hrest.append _
  have htokens : s.advance.tokens = o.token :: (o.breaks ++ (x.tokens ++ (linkTokens links ++ rest))) :=
    (tokens_advance hclosed).trans hahead
  have hcurrent : s.advance.current = o.token := by
    rw [tokens_eq_cons (htokens ▸ hahead ▸ hclosed)] at htokens
    exact (List.cons.inj htokens).1
  have hop : binaryOp? s.advance.current.kind = some o.op := hcurrent ▸ o.isOp
  obtain ⟨right, hright, rfl⟩ := (yields_operatorForm hop).mp h
  rw [hcurrent] at hright
  have hnext : dropNewlines s.advance.advance.tokens = (Chain.mk x links).tokens ++ rest := by
    have hbehind : s.advance.ahead = o.breaks ++ (x.tokens ++ (linkTokens links ++ rest)) := by
      rw [ahead, htokens, List.tail_cons]
    obtain ⟨tok, toks, hx, hne⟩ := x.tokens_eq_cons
    have hbreaks : Closed s.advance.ahead := hbehind ▸ ((hrest.append _).append _).append _
    rw [tokens_advance hbreaks, hbehind, hx]
    simpa [Chain.tokens, hx] using dropNewlines_append o.isBreak hne
  obtain ⟨hle, hread⟩ := hexpr hright hnext hrest
  simp only [errors_advance] at hle hread
  refine ⟨hle, fun heq => ?_⟩
  obtain ⟨rightTree, behind, hr, hstop⟩ := hread heq
  refine ⟨rightTree, behind, ⟨hfront.first, ?_, hr.ahead, ?_, ?_, ?_⟩, hstop⟩
  · rw [← hfront.links, Tree.links, hr.first, List.append_assoc, List.cons_append, hr.links]
  · exact ⟨left, right, hcurrent ▸ rfl, hfront.reads, hr.reads⟩
  · exact ⟨hfront.canonical, hr.canonical, hleft, fun p hp => Operator.admitsRight_of_lt (hr.above p hp)⟩
  · rintro p ⟨⟩
    exact hlevel

theorem operatorRound_next {level : Nat} {c : Context} {s t : ParseState} {left e : Expr .parsed}
    {chain : Chain} {rest : List Token} {tree : Tree} {links : List (Operator × Operand)}
    (h : (operatorRound (rules rounds n) level c left).Yields s (.inl e) t) (hrest : Stops rest)
    (hfront : Front rounds level chain rest left s tree links)
    (hleft : ∀ p ∈ tree.root?, ∀ q ∈ links.head?, q.1.level ≤ p.rightLevel) :
    Clean s t (∃ tree links, Front rounds level chain rest e t tree links ∧
      ∀ p ∈ tree.root?, ∀ q ∈ links.head?, q.1.level ≤ p.rightLevel) := by
  rw [yields_operatorRound] at h
  split at h
  · rename_i hcond
    obtain ⟨_, hform, ⟨⟩⟩ := h
    rcases links with _ | ⟨⟨o, x⟩, links⟩
    · have hpeek := levelOf_peek hfront.ahead hrest
      rw [← current_advance] at hpeek
      exact absurd hform (not_yields_operatorForm hpeek)
    · have hlevel : level < o.level := by
        rw [peek_of_links hfront.ahead hrest] at hcond
        exact of_decide_eq_true (Bool.and_eq_true_iff.mp hcond).1
      obtain ⟨hle, hstep⟩ := operatorForm_front hexpr hform hrest hfront hlevel fun p hp =>
        Operator.admitsLeft_of_le (hleft p hp (o, x) rfl)
      refine ⟨hle, fun heq => ?_⟩
      obtain ⟨right, behind, hfront', hstop⟩ := hstep heq
      exact ⟨_, behind, hfront', by rintro p ⟨⟩; exact hstop⟩
  · cases h.1

omit hexpr in
theorem operatorRound_last {level : Nat} {c : Context} {s t : ParseState} {left e : Expr .parsed}
    {chain : Chain} {rest : List Token} {tree : Tree} {links : List (Operator × Operand)}
    (h : (operatorRound (rules rounds n) level c left).Yields s (.inr e) t) (hrest : Stops rest)
    (hfront : Front rounds level chain rest left s tree links) :
    e = left ∧ t = s ∧ ∀ q ∈ links.head?, q.1.level ≤ level := by
  have hstop : ∀ q ∈ links.head?, q.1.level ≤ level := by
    intro q hq
    obtain ⟨links, rfl⟩ := List.head?_eq_some_iff.mp hq
    have hpeek := peek_of_links hfront.ahead hrest
    refine Nat.le_of_not_lt fun hlt => ?_
    obtain ⟨_, -, ⟨⟩⟩ := (yields_operatorRound_of_lt (hpeek ▸ q.1.isOp) (hpeek ▸ hlt)).mp h
  rw [yields_operatorRound] at h
  split at h
  · obtain ⟨_, -, ⟨⟩⟩ := h
  · obtain ⟨⟨⟩, rfl⟩ := h
    exact ⟨rfl, rfl, hstop⟩

theorem expr_front : ReadsChains rounds (expr (rules rounds n)) := by
  intro level c s e t chain rest h hs hrest
  rw [expr, yields_ite] at h
  split at h
  · rw [yields_current_bind] at h
    exact absurd h not_yields_fail
  · obtain ⟨e₀, u, hstart, hforms⟩ := yields_bind.mp h
    rw [Chain.tokens, List.append_assoc] at hs
    obtain ⟨hle, hfirst⟩ := startForm_operand hexpr hstart hs hrest
    -- Between two rounds the next operator may have what was read on its left.
    refine Yields.iterate_induct
      (I := fun e t => Clean s t (∃ tree links, Front rounds level chain rest e t tree links ∧
        ∀ p ∈ tree.root?, ∀ q ∈ links.head?, q.1.level ≤ p.rightLevel))
      (Q := fun e t => Clean s t (∃ tree links, Front rounds level chain rest e t tree links ∧
        ∀ q ∈ links.head?, q.1.level ≤ level)) ?_ ?_ hforms ?_
    · rintro left v e w hround ⟨hle, hinv⟩
      have hmonotone := (reads_operatorRound (P := fun _ => True) (sound_rules rounds n) level _ left v _
        w trivial hround).1
      refine ⟨Nat.le_trans hle hmonotone, fun heq => ?_⟩
      obtain ⟨tree, links, hfront, hleft⟩ := hinv (by omega)
      exact (operatorRound_next hexpr hround hrest hfront hleft).2 (by omega)
    · rintro left v e w hround ⟨hle, hinv⟩
      have hmonotone := (reads_operatorRound (P := fun _ => True) (sound_rules rounds n) level _ left v _
        w trivial hround).1
      refine ⟨Nat.le_trans hle hmonotone, fun heq => ?_⟩
      obtain ⟨tree, links, hfront, -⟩ := hinv (by omega)
      obtain ⟨rfl, rfl, hstop⟩ := operatorRound_last hround hrest hfront
      exact ⟨tree, links, hfront, hstop⟩
    · refine ⟨hle, fun heq => ⟨.leaf chain.first, chain.links, ⟨rfl, rfl, ?_, ?_, trivial, ?_⟩, ?_⟩⟩
      · exact (hfirst heq).1
      · exact (hfirst heq).2
      · rintro p ⟨⟩
      · rintro p ⟨⟩

omit hexpr in
theorem expr_readsChains (n : Nat) : ReadsChains rounds (rules rounds n).expr := by
  induction n with
  | zero => exact fun h => absurd h not_yields_failure
  | succ n ih =>
    intro level c s e t chain rest h
    exact expr_front ih (rules_expr rounds n c level ▸ h)

end Levels

/-- An expression that the parser makes of a whole chain is the chain's canonical tree: read from left to
right it is the chain, the operands of every infix operator bind as they must, and the operand of a unary
operator is no infix expression. -/
theorem canonical_of_yields {rounds n level : Nat} {c : Context} {chain : Chain} {rest : List Token}
    {s t : ParseState} {e : Expr .parsed} (h : (expr (rules rounds n) level c).Yields s e t)
    (hs : s.tokens = chain.tokens ++ rest) (hrest : Stops rest) (ht : t.ahead = rest)
    (hquiet : t.errors.length = s.errors.length) :
    ∃ tree : Tree, tree.chain = chain ∧ tree.Canonical ∧ tree.ReadAs rounds e := by
  obtain ⟨tree, left, hfront, -⟩ := (expr_front (expr_readsChains n) h hs hrest).2 hquiet
  obtain rfl : left = [] := by
    cases left with
    | nil => rfl
    | cons q left =>
      have hlength := congrArg List.length (ht.symm.trans hfront.ahead)
      simp [linkTokens] at hlength
      omega
  have hlinks : tree.links = chain.links := by simpa using hfront.links
  exact ⟨tree, by rw [Tree.chain, hfront.first, hlinks], hfront.canonical, hfront.reads⟩

section Powers

def nameToken (text : String) : Token := { kind := .ident, lexeme := text }
def minusToken : Token := { kind := .minus, lexeme := "-" }
def powerToken : Token := { kind := .power, lexeme := "**" }

/-- `a - -b ** c ** d` -/
def powers : Chain :=
  let name (text : String) : Operand := .atom (nameToken text) (.head _)
  let power : Operator := ⟨powerToken, .pow, rfl, [], by simp⟩
  ⟨name "a", [(⟨minusToken, .sub, rfl, [], by simp⟩, .unary minusToken (.head _) (name "b")),
    (power, name "c"), (power, name "d")]⟩

/-- `a - ((-b) ** (c ** d))` -/
def powersExpr : Expr .parsed :=
  let name (text : String) : Expr .parsed := .name () (nameToken text) text ()
  .binary () minusToken .sub (name "a") (.binary () powerToken .pow
    (.unary () minusToken .neg (name "b")) (.binary () powerToken .pow (name "c") (name "d")))

theorem canonical_of_yields_powers :
    (expr (rules 4 4) 1 {}).Yields ⟨powers.tokens ++ [Token.blank], []⟩ powersExpr
      ⟨[nameToken "d", Token.blank], []⟩ ∧
    ∃ tree : Tree, tree.chain = powers ∧ tree.Canonical ∧ tree.ReadAs 4 powersExpr := by
  have hrest : Stops [Token.blank] := ⟨⟨Token.blank, rfl, rfl⟩, Token.blank, rfl, rfl⟩
  have hrun : (expr (rules 4 4) 1 {}).Yields ⟨powers.tokens ++ [Token.blank], []⟩ powersExpr
      ⟨[nameToken "d", Token.blank], []⟩ := rfl
  exact ⟨hrun, canonical_of_yields hrun rfl hrest rfl rfl⟩

end Powers

end Scripting.Parser

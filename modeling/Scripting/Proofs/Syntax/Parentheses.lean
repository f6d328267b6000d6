import Scripting.Proofs.Syntax.Lines
import Scripting.Proofs.Syntax.Operators
import Scripting.Proofs.Syntax.Scanning
import Scripting.Proofs.Syntax.Settles

/-!
# Printed formulas have the parentheses they need

The parser and the printer number the levels of operators differently, two apart (`levelOf_kind`). What is
printed for a level is read as one expression from the level below (`expr_formula`).

A printed formula is read back as the same formula (`read_text_of_nesting`), and whatever is read as a
formula has at least as many parentheses as are printed for it (`pairs_le_of_yields`), because what is read
is a canonical tree. So none of the printed parentheses can be left out (`read_printed_iff`).
-/

namespace Scripting

namespace Parser

open Parse ParseState

theorem levelOf_kind (op : BinaryOp) : levelOf op.kind = op.printLevel + 2 := by
  cases op <;> rfl

theorem binaryOp?_kind (op : BinaryOp) : binaryOp? op.kind = some op := by
  cases op <;> rfl

def Writes (ts : List Token) (l : Layout) : Prop := ts.map Token.piece = l.pieces

namespace Writes

variable {ts : List Token} {l r : Layout} {op : BinaryOp} {a : Atom}

theorem atom (h : Writes ts (.atom a)) : ∃ tok, ts = [tok] ∧ tok.piece = a.piece := by
  obtain ⟨tok, rest, rfl, htok, hrest⟩ := List.map_eq_cons_iff.mp h
  exact ⟨tok, by rw [List.map_eq_nil_iff.mp hrest], htok⟩

theorem group (h : Writes ts (.group l)) : ∃ opening inner closing,
    ts = opening :: (inner ++ [closing]) ∧ opening.kind = .leftParen ∧ closing.kind = .rightParen ∧
      Writes inner l := by
  obtain ⟨opening, rest, rfl, hopening, hrest⟩ := List.map_eq_cons_iff.mp h
  obtain ⟨inner, ends, rfl, hinner, hends⟩ := List.map_eq_append_iff.mp hrest
  obtain ⟨closing, nothing, rfl, hclosing, hnothing⟩ := List.map_eq_cons_iff.mp hends
  obtain rfl := List.map_eq_nil_iff.mp hnothing
  exact ⟨opening, inner, closing, rfl, congrArg Piece.kind hopening, congrArg Piece.kind hclosing, hinner⟩

theorem binary (h : Writes ts (.binary op l r)) : ∃ left tok right,
    ts = left ++ tok :: right ∧ tok.kind = op.kind ∧ Writes left l ∧ Writes right r := by
  obtain ⟨left, rest, rfl, hleft, hrest⟩ := List.map_eq_append_iff.mp h
  obtain ⟨tok, right, rfl, htok, hright⟩ := List.map_eq_cons_iff.mp hrest
  exact ⟨left, tok, right, rfl, congrArg Piece.kind htok, hleft, hright⟩

theorem eq_cons (h : Writes ts l) : ∃ tok rest, ts = tok :: rest ∧ tok.kind ∈ .leftParen :: Atom.kinds := by
  induction l generalizing ts with
  | atom a =>
    obtain ⟨tok, rfl, htok⟩ := h.atom
    exact ⟨tok, [], rfl, .tail _ (htok ▸ a.kind_mem : tok.piece.kind ∈ _)⟩
  | group l =>
    obtain ⟨opening, inner, closing, rfl, hopening, -⟩ := h.group
    exact ⟨opening, _, rfl, hopening ▸ .head _⟩
  | binary op l r ihl =>
    obtain ⟨left, tok, right, rfl, -, hleft, -⟩ := h.binary
    obtain ⟨first, rest, rfl, hfirst⟩ := ihl hleft
    exact ⟨first, _, rfl, hfirst⟩

theorem dropNewlines_eq (h : Writes ts l) (more : List Token) :
    dropNewlines (ts ++ more) = ts ++ more := by
  obtain ⟨tok, rest, rfl, htok⟩ := h.eq_cons
  have hne : tok.kind ≠ .newline := fun hk => by rw [hk] at htok; simp [Atom.kinds] at htok
  exact dropNewlines_append (List.forall_mem_nil _) hne

end Writes

/-- The rule reads just these tokens as a formula if expressions may nest so deep here, and fails
otherwise. -/
def ReadsBack (p : Parse (Expr .parsed)) (c : Context) (f : Formula) (nesting : Nat)
    (ts more : List Token) : Prop :=
  ∃ e last, f.IsTreeOf e ∧ ∀ errors x t, c.depth ≤ maxDepth → (p.Yields ⟨ts ++ more, errors⟩ x t ↔
    c.depth + nesting ≤ maxDepth ∧ x = e ∧ t = ⟨last :: more, errors⟩)

/-- A formula is read in so many rounds that further ones go on behind it. The expression it belongs to is
one of those that nest. -/
def Resumes (rounds n level : Nat) (c : Context) (f : Formula) (nesting : Nat)
    (ts more : List Token) : Prop :=
  ∃ e last, f.IsTreeOf e ∧ ∃ taken ≤ ts.length, ∀ k errors x t, c.depth ≤ maxDepth →
    ((startForm (rules rounds n) c >>=
        iterate (operatorRound (rules rounds n) level c) (k + taken)).Yields ⟨ts ++ more, errors⟩ x t ↔
      c.depth + nesting ≤ maxDepth + 1 ∧
        (iterate (operatorRound (rules rounds n) level c) k e).Yields ⟨last :: more, errors⟩ x t)

variable {rounds n level : Nat} {c : Context} {f : Formula} {nesting : Nat} {ts more : List Token}
  {next : Token}

theorem Resumes.readsBack (h : Resumes rounds n level { c with depth := c.depth + 1 } f nesting ts
      (next :: more)) (hpos : 0 < nesting) (hrounds : ts.length < rounds)
    (hnext : levelOf next.kind ≤ level) :
    ReadsBack (expr (rules rounds n) level c) c f nesting ts (next :: more) := by
  obtain ⟨e, last, he, taken, htaken, hrun⟩ := h
  obtain ⟨k, hk⟩ := Nat.exists_eq_add_of_lt (Nat.lt_of_le_of_lt htaken hrounds)
  refine ⟨e, last, he, fun errors x t _ => ?_⟩
  have hend : (iterate (operatorRound (rules rounds n) level { c with depth := c.depth + 1 }) (k + 1) e).Yields
      ⟨last :: next :: more, errors⟩ x t ↔ x = e ∧ t = ⟨last :: next :: more, errors⟩ := by
    simp [yields_iterate_succ, yields_operatorRound_of_le (s := ⟨last :: next :: more, errors⟩) hnext]
  rw [expr, yields_ite]
  split
  · rename_i hdeep
    rw [yields_current_bind]
    simp only [not_yields_fail, false_iff]
    rintro ⟨hdepth, -⟩
    exact absurd hdeep (by simp only; omega)
  · rename_i hdeep
    have hsplit : (rules rounds n).rounds = k + 1 + taken := by
      rw [rounds_rules]
      omega
    rw [operatorForms, hsplit, hrun _ _ _ _ (Nat.le_of_not_lt hdeep), hend]
    exact and_congr_left' (by simp only; omega)

theorem yields_startForm_expr {r : Rules} {s t : ParseState} {x : Expr .parsed} {a : Atom}
    (h : s.current.piece = a.piece) :
    (startForm r c).Yields s x t ↔ x = a.expr s.current ∧ t = s := by
  obtain ⟨hkind, hlexeme, hliteral⟩ : s.current.kind = a.piece.kind ∧ s.current.lexeme = a.piece.lexeme ∧
      s.current.literal = a.piece.literal := by simp [← h, Token.piece]
  rw [startForm, yields_current_bind, hkind]
  rcases a with ⟨text, _⟩ | ⟨v, _⟩ | ⟨_ | _⟩
  · simp [Atom.piece, Atom.expr, hlexeme, eq_comm]
  all_goals simp [Atom.piece, Atom.expr, literal, hkind, hliteral, eq_comm]

theorem readsBack_group {opening closing : Token} (hopening : opening.kind = .leftParen)
    (hclosing : closing.kind = .rightParen)
    (h : ReadsBack ((rules rounds n).expr 1 c.inside) c.inside f nesting ts (closing :: more))
    (hts : dropNewlines (ts ++ closing :: more) = ts ++ closing :: more) :
    ReadsBack (startForm (rules rounds n) c) c f nesting (opening :: (ts ++ [closing])) more := by
  obtain ⟨e, last, he, hrun⟩ := h
  refine ⟨e, closing, he, fun errors x t hdepth => ?_⟩
  have hadvance : (ParseState.mk (opening :: (ts ++ closing :: more)) errors).advance =
      ⟨ts ++ closing :: more, errors⟩ := by
    cases ts <;> rfl
  have hskip : dropPeekNewlines (last :: closing :: more) = last :: closing :: more := by
    simp [dropPeekNewlines, hclosing]
  rw [List.cons_append, List.append_assoc, List.singleton_append,
    yields_startForm_group (s := ⟨opening :: (ts ++ closing :: more), errors⟩) hopening]
  simp only [hadvance, hts, hrun _ _ _ (show c.inside.depth ≤ maxDepth from hdepth)]
  constructor
  · rintro ⟨u, ⟨hdepth, rfl, rfl⟩, -, rfl⟩
    rw [hskip]
    exact ⟨hdepth, rfl, rfl⟩
  · rintro ⟨hdepth, rfl, rfl⟩
    refine ⟨_, ⟨hdepth, rfl, rfl⟩, ?_⟩
    rw [hskip]
    exact ⟨hclosing, rfl⟩

theorem ReadsBack.resumes (h : ReadsBack (startForm (rules rounds n) c) c f nesting ts more) :
    Resumes rounds n level c f (nesting + 1) ts more := by
  obtain ⟨e, last, he, hrun⟩ := h
  refine ⟨e, last, he, 0, Nat.zero_le _, fun k errors x t hdepth => ?_⟩
  rw [Nat.add_zero, yields_bind]
  simp only [hrun _ _ _ hdepth]
  constructor
  · rintro ⟨_, _, ⟨hdepth, rfl, rfl⟩, hrest⟩
    exact ⟨by omega, hrest⟩
  · rintro ⟨hdepth, hrest⟩
    exact ⟨_, _, ⟨by omega, rfl, rfl⟩, hrest⟩

theorem yields_operatorRound_operand {op : BinaryOp} (hop : op ≠ .pow) {tok last last' : Token}
    {right : List Token} {lr : Layout} {el er : Expr .parsed} {errors : List Diagnostic}
    {y : Expr .parsed ⊕ Expr .parsed} {t : ParseState} (htok : tok.kind = op.kind)
    (hlevel : level < op.printLevel + 2) (hwrites : Writes right lr)
    (hr : ∀ errors x t, ((rules rounds n).expr (op.printLevel + 2) c).Yields ⟨right ++ more, errors⟩ x t ↔
      c.depth + nesting ≤ maxDepth ∧ x = er ∧ t = ⟨last' :: more, errors⟩) :
    (operatorRound (rules rounds n) level c el).Yields ⟨last :: tok :: (right ++ more), errors⟩ y t ↔
      c.depth + nesting ≤ maxDepth ∧ y = .inl (.binary () tok op el er) ∧ t = ⟨last' :: more, errors⟩ := by
  have hbinary : binaryOp? tok.kind = some op := by rw [htok, binaryOp?_kind]
  have hlevelOf : levelOf tok.kind = op.printLevel + 2 := by rw [htok, levelOf_kind]
  have hskip : dropNewlines (right ++ more) = right ++ more := hwrites.dropNewlines_eq more
  have hadvance : (ParseState.mk (tok :: (right ++ more)) errors).advance = ⟨right ++ more, errors⟩ := by
    obtain ⟨first, rest, rfl, -⟩ := hwrites.eq_cons
    rfl
  have hform (e : Expr .parsed) :
      (operatorForm (rules rounds n) c el).Yields ⟨tok :: (right ++ more), errors⟩ e t ↔
        c.depth + nesting ≤ maxDepth ∧ e = .binary () tok op el er ∧ t = ⟨last' :: more, errors⟩ := by
    rw [yields_operatorForm (s := ⟨tok :: (right ++ more), errors⟩) hbinary]
    simp only [if_neg hop, hadvance, hskip]
    change (∃ right', ((rules rounds n).expr (levelOf tok.kind) c).Yields _ _ _ ∧ _) ↔ _
    rw [hlevelOf]
    simp only [hr]
    constructor
    · rintro ⟨_, ⟨hdepth, rfl, rfl⟩, rfl⟩
      exact ⟨hdepth, rfl, rfl⟩
    · rintro ⟨hdepth, rfl, rfl⟩
      exact ⟨er, ⟨hdepth, rfl, rfl⟩, rfl⟩
  rw [yields_operatorRound_of_lt (s := ⟨last :: tok :: (right ++ more), errors⟩) hbinary (hlevelOf ▸ hlevel)]
  change (∃ e, (operatorForm (rules rounds n) c el).Yields ⟨tok :: (right ++ more), errors⟩ e t ∧ _) ↔ _
  simp only [hform]
  constructor
  · rintro ⟨_, ⟨hdepth, rfl, rfl⟩, rfl⟩
    exact ⟨hdepth, rfl, rfl⟩
  · rintro ⟨hdepth, rfl, rfl⟩
    exact ⟨_, ⟨hdepth, rfl, rfl⟩, rfl⟩

/-- An operator that binds tighter than the level takes what was read on its left, and goes on behind its
right operand. -/
theorem Resumes.binary {op : BinaryOp} {hop : op ≠ .pow} {l r : Formula} {nl nr : Nat}
    {left right : List Token} {tok : Token} {lr : Layout}
    (hl : Resumes rounds n level c l nl left (tok :: (right ++ more))) (htok : tok.kind = op.kind)
    (hlevel : level < op.printLevel + 2) (hwrites : Writes right lr)
    (hr : ReadsBack ((rules rounds n).expr (op.printLevel + 2) c) c r nr right more) :
    Resumes rounds n level c (.binary op hop l r) (max nl (nr + 1)) (left ++ tok :: right) more := by
  obtain ⟨el, lastl, hel, taken, htaken, hrunl⟩ := hl
  obtain ⟨er, lastr, her, hrunr⟩ := hr
  refine ⟨.binary () tok op el er, lastr, ⟨tok, el, er, rfl, hel, her⟩, taken + 1, ?_,
    fun k errors x t hdepth => ?_⟩
  · simp only [List.length_append, List.length_cons]
    omega
  rw [List.append_assoc, List.cons_append, ← Nat.add_assoc, Nat.add_right_comm, hrunl _ _ _ _ hdepth,
    yields_iterate_succ]
  simp only [yields_operatorRound_operand hop htok hlevel hwrites fun errors x t => hrunr errors x t hdepth]
  constructor
  · rintro ⟨hdepth, ⟨-, ⟨⟩, -⟩ | ⟨_, _, ⟨hdepth', ⟨rfl⟩, rfl⟩, hrest⟩⟩
    exact ⟨by omega, hrest⟩
  · rintro ⟨hdepth, hrest⟩
    exact ⟨by omega, .inr ⟨_, _, ⟨by omega, rfl, rfl⟩, hrest⟩⟩

/-- What is printed for a level is read by a rule for one below, and rounds for lower operators go on
behind it. -/
theorem resumes_formula (f : Formula) {lv : Nat} (hts : Writes ts (f.layout lv)) (hlevel : level ≤ lv + 1)
    (hnext : levelOf next.kind ≤ lv + 2) (hfuel : (f.layout lv).nesting ≤ n + 1)
    (hrounds : ts.length < rounds) :
    Resumes rounds n level c f (f.layout lv).nesting ts (next :: more) := by
  induction f generalizing lv level n c ts next more with
  | atom a =>
    obtain ⟨tok, rfl, htok⟩ := hts.atom
    refine ReadsBack.resumes ⟨a.expr tok, tok, ⟨tok, rfl⟩, fun errors x t hdepth => ?_⟩
    rw [yields_startForm_expr (s := ⟨[tok] ++ next :: more, errors⟩) htok]
    simp [hdepth, ParseState.current]
  | binary op hop l r ihl ihr =>
    have hopen {lv level n : Nat} {c : Context} {ts more : List Token} {next : Token}
        (hle : lv ≤ op.printLevel) (hts : Writes ts ((Formula.binary op hop l r).layout lv))
        (hlevel : level ≤ lv + 1) (hnext : levelOf next.kind ≤ lv + 2)
        (hfuel : ((Formula.binary op hop l r).layout lv).nesting ≤ n + 1) (hrounds : ts.length < rounds) :
        Resumes rounds n level c (.binary op hop l r) ((Formula.binary op hop l r).layout lv).nesting ts
          (next :: more) := by
      rw [Formula.layout_of_le hle] at hts hfuel ⊢
      obtain ⟨left, tok, right, rfl, htok, hleft, hright⟩ := hts.binary
      simp only [Layout.nesting] at hfuel
      simp only [List.length_append, List.length_cons] at hrounds
      have hpos := (r.layout (op.printLevel + 1)).nesting_pos
      obtain ⟨n, rfl⟩ : ∃ m, n = m + 1 := Nat.exists_eq_succ_of_ne_zero (by omega)
      have hlevelOf : levelOf tok.kind = op.printLevel + 2 := by rw [htok, levelOf_kind]
      refine .binary (ihl hleft (by omega) (by omega) (by omega) (by omega)) htok (by omega) hright ?_
      rw [rules_expr]
      refine Resumes.readsBack (ihr hright ?_ ?_ ?_ ?_) hpos ?_ ?_ <;> omega
    by_cases hlt : op.printLevel < lv
    · rw [Formula.layout_of_lt hlt] at hts hfuel ⊢
      obtain ⟨opening, inner, closing, rfl, hopening, hclosing, hinner⟩ := hts.group
      simp only [Layout.nesting] at hfuel
      simp only [List.length_append, List.length_cons, List.length_nil] at hrounds
      have hpos := ((Formula.binary op hop l r).layout 0).nesting_pos
      obtain ⟨n, rfl⟩ : ∃ m, n = m + 1 := Nat.exists_eq_succ_of_ne_zero (by omega)
      have hlevelOf : levelOf closing.kind = 1 := by rw [hclosing]; rfl
      refine (readsBack_group hopening hclosing ?_ (hinner.dropNewlines_eq _)).resumes
      rw [rules_expr]
      refine Resumes.readsBack (hopen (Nat.zero_le _) hinner ?_ ?_ ?_ ?_) hpos ?_ ?_ <;> omega
    · exact hopen (Nat.le_of_not_lt hlt) hts hlevel hnext hfuel hrounds

def openings (ts : List Token) : Nat := ts.countP fun t => t.kind == .leftParen

theorem openings_append (ts us : List Token) : openings (ts ++ us) = openings ts + openings us :=
  List.countP_append

theorem openings_cons_of_ne {t : Token} {ts : List Token} (h : t.kind ≠ .leftParen) :
    openings (t :: ts) = openings ts := by
  simp [openings, h]

theorem openings_eq_zero {ts : List Token} (h : ∀ t ∈ ts, t.kind ≠ .leftParen) : openings ts = 0 := by
  simpa [openings, List.countP_eq_zero] using h

theorem Writes.openings_eq {ts : List Token} {l : Layout} (h : Writes ts l) : openings ts = l.pairs := by
  induction l generalizing ts with
  | atom a =>
    obtain ⟨tok, rfl, htok⟩ := h.atom
    have hmem : tok.piece.kind ∈ Atom.kinds := htok ▸ a.kind_mem
    refine openings_eq_zero fun t ht hk => ?_
    obtain rfl := List.mem_singleton.mp ht
    simp [Token.piece, hk, Atom.kinds] at hmem
  | group l ih =>
    obtain ⟨opening, inner, closing, rfl, hopening, hclosing, hinner⟩ := h.group
    have hlast : openings [closing] = 0 := openings_eq_zero (by simp [hclosing])
    rw [Layout.pairs, ← ih hinner, ← Nat.add_zero (openings inner), ← hlast, ← openings_append]
    simp [openings, hopening]
  | binary op l r ihl ihr =>
    obtain ⟨left, tok, right, rfl, htok, hleft, hright⟩ := h.binary
    have hne : tok.kind ≠ .leftParen := by rw [htok]; cases op <;> decide
    rw [openings_append, openings_cons_of_ne hne, ihl hleft, ihr hright, Layout.pairs]

/-- An operand of a formula: an atom, or a layout between parentheses. -/
def Operand.Plain : Operand → Prop
  | .atom tok _ => ∃ a : Atom, tok.piece = a.piece
  | .bracketed opening inner closing _ _ =>
    opening.kind = .leftParen ∧ closing.kind = .rightParen ∧ ∃ l, Writes inner l
  | .unary .. => False

/-- All operands of a chain are those of formulas. -/
def Chain.Plain (chain : Chain) : Prop := chain.first.Plain ∧ ∀ q ∈ chain.links, q.2.Plain

theorem Writes.balanced {ts : List Token} {l : Layout} (h : Writes ts l) : Balanced ts := by
  induction l generalizing ts with
  | atom a =>
    obtain ⟨tok, rfl, htok⟩ := h.atom
    have hmem : tok.kind ∈ Atom.kinds := (htok ▸ a.kind_mem : tok.piece.kind ∈ Atom.kinds)
    refine heightAfter_of_plain fun t ht => ?_
    obtain rfl := List.mem_singleton.mp ht
    have hshift : ∀ k ∈ Atom.kinds, k.shift 0 = some 0 := by decide
    exact hshift _ hmem
  | group l ih =>
    obtain ⟨opening, inner, closing, rfl, hopening, hclosing, hinner⟩ := h.group
    refine (ih hinner).between ?_ ?_
    · rw [Token.shift_eq, hopening]; rfl
    · rw [Token.shift_eq, hclosing]; rfl
  | binary op l r ihl ihr =>
    obtain ⟨left, tok, right, rfl, htok, hleft, hright⟩ := h.binary
    have hshift : op.kind.shift 0 = some 0 := by cases op <;> rfl
    have htok : Balanced [tok] := by simp [Balanced, heightAfter, htok, hshift]
    exact (ihl hleft).append (htok.append (ihr hright))

theorem Writes.exists_chain {ts : List Token} {l : Layout} (h : Writes ts l) :
    ∃ chain : Chain, chain.tokens = ts ∧ chain.Plain := by
  induction l generalizing ts with
  | atom a =>
    obtain ⟨tok, rfl, htok⟩ := h.atom
    have hmem : tok.kind ∈ Atom.kinds := (htok ▸ a.kind_mem : tok.piece.kind ∈ Atom.kinds)
    have hatom : ∀ k ∈ Atom.kinds, k ∈ atomKinds := by decide
    exact ⟨⟨.atom tok (hatom _ hmem), []⟩, rfl, ⟨a, htok⟩, by simp⟩
  | group l ih =>
    obtain ⟨opening, inner, closing, rfl, hopening, hclosing, hinner⟩ := h.group
    refine ⟨⟨.bracketed opening inner closing ?_ hinner.balanced, []⟩, ?_, ⟨hopening, hclosing, l, hinner⟩,
      by simp⟩
    · rw [hopening, hclosing]; rfl
    · simp [Chain.tokens, Operand.tokens, linkTokens]
  | binary op l r ihl ihr =>
    obtain ⟨left, tok, right, rfl, htok, hleft, hright⟩ := h.binary
    obtain ⟨cl, rfl, hfirst, hlinks⟩ := ihl hleft
    obtain ⟨cr, rfl, hfirst', hlinks'⟩ := ihr hright
    have hop : binaryOp? tok.kind = some op := by rw [htok, binaryOp?_kind]
    let o : Operator := ⟨tok, op, hop, [], by simp⟩
    refine ⟨⟨cl.first, cl.links ++ (o, cr.first) :: cr.links⟩, ?_, hfirst, ?_⟩
    · simp [Chain.tokens, linkTokens, o]
    · simp only [List.mem_append, List.mem_cons]
      rintro q (hq | rfl | hq)
      · exact hlinks q hq
      · exact hfirst'
      · exact hlinks' q hq

def Tree.operands : Tree → List Operand
  | leaf x => [x]
  | node l _ r => l.operands ++ r.operands

theorem Tree.operands_eq (tree : Tree) : tree.operands = tree.first :: tree.links.map Prod.snd := by
  induction tree with
  | leaf x => rfl
  | node l o r ihl ihr => simp [operands, first, links, ihl, ihr]

theorem Tree.tokens_node (l : Tree) (o : Operator) (r : Tree) : (node l o r).chain.tokens =
    l.chain.tokens ++ o.token :: (o.breaks ++ r.chain.tokens) := by
  simp [chain, Chain.tokens, linkTokens, first, links]

theorem Tree.openings_node (l : Tree) (o : Operator) (r : Tree) : openings (node l o r).chain.tokens =
    openings l.chain.tokens + openings r.chain.tokens := by
  have hop : o.token.kind ≠ .leftParen := fun hk => by
    have := o.isOp
    rw [hk] at this
    cases this
  have hbreaks : openings o.breaks = 0 := openings_eq_zero fun t ht => by simp [o.isBreak t ht]
  rw [tokens_node, openings_append, openings_cons_of_ne hop, openings_append, hbreaks, Nat.zero_add]

theorem Operator.level_eq (o : Operator) : o.level = o.op.printLevel + 2 := by
  have hop := o.isOp
  rw [Operator.level]
  generalize o.token.kind = k at hop ⊢
  generalize o.op = op at hop ⊢
  cases k <;> cases hop <;> rfl

/-- A formula that is read as an operand has the parentheses that are printed for it. -/
def Operand.HasPairs (rounds : Nat) (x : Operand) : Prop :=
  ∀ (f : Formula) e level, x.ReadAs rounds e → f.IsTreeOf e → (f.layout level).pairs ≤ openings x.tokens

theorem Tree.pairs_le {rounds level : Nat} {tree : Tree} {f : Formula} {e : Expr .parsed}
    (hx : ∀ x ∈ tree.operands, x.HasPairs rounds) (hcanonical : tree.Canonical)
    (hread : tree.ReadAs rounds e) (he : f.IsTreeOf e) (hroot : ∀ p ∈ tree.root?, level ≤ p.op.printLevel) :
    (f.layout level).pairs ≤ openings tree.chain.tokens := by
  induction tree generalizing f e level with
  | leaf x =>
    have := hx x (.head _) f e level hread he
    simpa [Tree.chain, Chain.tokens, linkTokens, Tree.first, Tree.links] using this
  | node l o r ihl ihr =>
    obtain ⟨el, er, rfl, hl, hr⟩ := hread
    obtain ⟨hcl, hcr, hleft, hright⟩ := hcanonical
    cases f with
    | atom a =>
      obtain ⟨tok, htok⟩ := he
      cases a <;> cases htok
    | binary op hop fl fr =>
      obtain ⟨tok, el', er', heq, hfl, hfr⟩ := he
      obtain ⟨-, rfl, rfl, rfl⟩ : o.token = tok ∧ o.op = op ∧ el = el' ∧ er = er' := by simpa using heq
      have hlevel : level ≤ o.op.printLevel := hroot o rfl
      have hpow : o.op ≠ .pow := hop
      have hrootl : ∀ p ∈ l.root?, o.op.printLevel ≤ p.op.printLevel := fun p hp => by
        have := hleft p hp
        simp only [Operator.AdmitsLeft, hpow, if_false, Operator.level_eq] at this
        omega
      have hrootr : ∀ p ∈ r.root?, o.op.printLevel + 1 ≤ p.op.printLevel := fun p hp => by
        have := hright p hp
        simp only [Operator.AdmitsRight, hpow, if_false, Operator.level_eq] at this
        omega
      have hl' := ihl (fun x hmem => hx x (List.mem_append_left _ hmem)) hcl hl hfl hrootl
      have hr' := ihr (fun x hmem => hx x (List.mem_append_right _ hmem)) hcr hr hfr hrootr
      rw [Formula.layout_of_le hlevel, Layout.pairs, Tree.openings_node]
      omega

/-- Behind an expression that is a whole formula no operator follows. -/
def Ends (t : ParseState) : Prop := binaryOp? t.peek.kind = none

/-- What is read from the tokens of a layout has the parentheses that are printed for it. -/
def HasPairs (rounds : Nat) (ts : List Token) : Prop :=
  ∀ {n level c s e t rest f}, ((rules rounds n).expr level c).Yields s e t → s.tokens = ts ++ rest →
    Stops rest → t.errors.length = s.errors.length → Ends t → Formula.IsTreeOf f e →
    (f.layout 0).pairs ≤ openings ts

theorem pairs_layout_le (f : Formula) (level : Nat) :
    (f.layout level).pairs ≤ (f.layout 0).pairs + 1 := by
  cases f with
  | atom a => exact Nat.zero_le _
  | binary op hop l r =>
    by_cases hlt : op.printLevel < level
    · rw [Formula.layout_of_lt hlt]
      exact Nat.le_refl _
    · rw [Formula.layout_of_le (Nat.le_of_not_lt hlt), Formula.layout_of_le (Nat.zero_le _)]
      exact Nat.le_succ _

theorem hasPairs_atom {rounds : Nat} {tok : Token} {h : tok.kind ∈ atomKinds} {a : Atom}
    (ha : tok.piece = a.piece) : (Operand.atom tok h).HasPairs rounds := by
  rintro f e level ⟨n, c, s, t, hyields, hs, hclosed, -⟩ he
  have hcurrent : s.current = tok := by
    rw [ParseState.current, hs]
    rfl
  obtain ⟨rfl, -⟩ := (yields_startForm_expr (hcurrent ▸ ha)).mp hyields
  cases f with
  | atom b => exact Nat.zero_le _
  | binary op hop l r =>
    obtain ⟨_, _, _, heq, -⟩ := he
    cases a <;> cases heq

theorem hasPairs_group {rounds : Nat} {opening closing : Token} {inner : List Token}
    {hclose : closingOf? opening.kind = some closing.kind} {hbalanced : Balanced inner} {l : Layout}
    (hopening : opening.kind = .leftParen) (hclosing : closing.kind = .rightParen) (hinner : Writes inner l)
    (h : HasPairs rounds inner) :
    (Operand.bracketed opening inner closing hclose hbalanced).HasPairs rounds := by
  rintro f e level ⟨n, c, s, t, hyields, hs, hclosed, hquiet⟩ he
  have htokens : s.tokens = opening :: (inner ++ closing :: t.ahead) := by
    rw [hs]
    simp [Operand.tokens]
  have hcurrent : s.current = opening := by rw [ParseState.current, htokens]; rfl
  have hnext : dropNewlines s.advance.tokens = inner ++ closing :: t.ahead := by
    have hahead : s.ahead = inner ++ closing :: t.ahead := by rw [ahead, htokens, List.tail_cons]
    have hbehind : Closed s.ahead := hahead ▸ List.append_cons inner closing t.ahead ▸ hclosed.append _
    rw [tokens_advance hbehind, hahead, hinner.dropNewlines_eq]
  obtain ⟨u, hu, hpeek, rfl⟩ := (yields_startForm_group (hcurrent ▸ hopening)).mp hyields
  rw [errors_advance] at hquiet
  have hrest : Stops (closing :: ParseState.ahead _) :=
    ⟨hclosed.append [closing], closing, rfl, by rw [hclosing]; rfl⟩
  have hends : Ends u := by
    by_cases hk : u.peek.kind = .newline
    · rw [Ends, hk]; rfl
    · rcases u with ⟨_ | ⟨x, _ | ⟨y, us⟩⟩, errors⟩
      · rfl
      · exact (congrArg binaryOp? hpeek).trans rfl
      · have hy : y.kind ≠ .newline := hk
        have hy' : y.kind = .rightParen := by simpa [dropPeekNewlines, hy, ParseState.peek] using hpeek
        rw [Ends, show (ParseState.mk (x :: y :: us) errors).peek = y from rfl, hy']
        rfl
  have hpairs := h hu hnext hrest (by simpa using hquiet) hends he
  have hlast : openings [closing] = 0 := openings_eq_zero (by simp [hclosing])
  have htotal : openings (opening :: (inner ++ [closing])) = openings inner + 1 := by
    rw [← Nat.add_zero (openings inner), ← hlast, ← openings_append]
    simp [openings, hopening]
  have hle := pairs_layout_le f level
  rw [Operand.tokens, htotal]
  omega

theorem Writes.hasPairs {rounds : Nat} {ts : List Token} {l : Layout} (h : Writes ts l) :
    HasPairs rounds ts := by
  generalize hlength : ts.length = k
  induction k using Nat.strongRecOn generalizing ts l with
  | _ k ih =>
    subst hlength
    intro n level c s e t rest f hyields hs hrest hquiet hends he
    obtain ⟨chain, rfl, hfirst, hlinks⟩ := h.exists_chain
    obtain ⟨tree, left, hfront, -⟩ := (expr_readsChains n hyields hs hrest).2 hquiet
    obtain rfl : left = [] := by
      cases left with
      | nil => rfl
      | cons q left =>
        have hpeek := peek_of_links hfront.ahead hrest
        rw [Ends, hpeek, q.1.isOp] at hends
        cases hends
    have hchain : tree.chain = chain := by
      have hlinks : tree.links = chain.links := by simpa using hfront.links
      rw [Tree.chain, hfront.first, hlinks]
    subst hchain
    refine Tree.pairs_le (fun x hmem => ?_) hfront.canonical hfront.reads he fun _ _ => Nat.zero_le _
    have hplain : x.Plain ∧ x.tokens.length ≤ tree.chain.tokens.length := by
      rw [Tree.operands_eq] at hmem
      rcases List.mem_cons.mp hmem with rfl | hmem
      · exact ⟨hfirst, by simp [Chain.tokens, Tree.chain]⟩
      · obtain ⟨q, hq, rfl⟩ := List.mem_map.mp hmem
        refine ⟨hlinks q hq, ?_⟩
        have hsub : q.2.tokens.length ≤ (linkTokens tree.links).length := by
          obtain ⟨as, bs, hsplit⟩ := List.append_of_mem hq
          rw [hsplit]
          simp [linkTokens]
          omega
        simp only [Chain.tokens, Tree.chain, List.length_append]
        omega
    obtain ⟨hx, hle⟩ := hplain
    cases x with
    | atom tok hk =>
      obtain ⟨a, ha⟩ := hx
      exact hasPairs_atom ha
    | bracketed opening inner closing hclose hbalanced =>
      obtain ⟨hopening, hclosing, l', hinner⟩ := hx
      refine hasPairs_group hopening hclosing hinner (ih inner.length ?_ hinner rfl)
      simp only [Operand.tokens, List.length_cons, List.length_append] at hle
      omega
    | unary op hop x => exact hx.elim

theorem nesting_le_length (l : Layout) : l.nesting ≤ l.pieces.length := by
  induction l with
  | atom a => exact Nat.le_refl _
  | group l ih =>
    simp only [Layout.nesting, Layout.pieces, List.length_cons, List.length_append]
    omega
  | binary op l r ihl ihr =>
    simp only [Layout.nesting, Layout.pieces, List.length_append, List.length_cons]
    omega

theorem length_lt_fuel {ts us : List Token} (h : ∀ t ∈ ts, t.kind ≠ .eof) : ts.length < fuel (ts ++ us) := by
  have hweight : ∀ t ∈ ts, 1 ≤ weight t := by
    intro t ht
    have hne := h t ht
    unfold weight
    split <;> simp_all
  have hsum : ts.length ≤ load ts := by
    clear h
    induction ts with
    | nil => exact Nat.le_refl _
    | cons t ts ih =>
      have htail := ih fun u hu => hweight u (.tail _ hu)
      have hhead := hweight t (.head _)
      rw [List.length_cons, load_cons]
      omega
  rw [fuel, load_append]
  omega

theorem Writes.kind_ne_eof {ts : List Token} {l : Layout} (h : Writes ts l) : ∀ t ∈ ts, t.kind ≠ .eof := by
  induction l generalizing ts with
  | atom a =>
    obtain ⟨tok, rfl, htok⟩ := h.atom
    have hmem : tok.kind ∈ Atom.kinds := (htok ▸ a.kind_mem : tok.piece.kind ∈ Atom.kinds)
    intro t ht hk
    obtain rfl := List.mem_singleton.mp ht
    simp [hk, Atom.kinds] at hmem
  | group l ih =>
    obtain ⟨opening, inner, closing, rfl, hopening, hclosing, hinner⟩ := h.group
    simp only [List.mem_append, List.mem_cons, List.not_mem_nil, or_false]
    rintro t (rfl | ht | rfl)
    · simp [hopening]
    · exact ih hinner t ht
    · simp [hclosing]
  | binary op l r ihl ihr =>
    obtain ⟨left, tok, right, rfl, htok, hleft, hright⟩ := h.binary
    have hop : op.kind ≠ .eof := by cases op <;> decide
    simp only [List.mem_append, List.mem_cons]
    rintro t (ht | rfl | ht)
    · exact ihl hleft t ht
    · exact htok ▸ hop
    · exact ihr hright t ht

section Lines

variable {ts : List Token} {l : Layout} {newline last : Token}

theorem Writes.pastSeparators_eq (h : Writes ts l) (more : List Token) (errors : List Diagnostic) :
    pastSeparators ⟨ts ++ more, errors⟩ = ⟨ts ++ more, errors⟩ ∧
      (ParseState.mk (ts ++ more) errors).current.kind ∈ .leftParen :: Atom.kinds := by
  obtain ⟨tok, rest, rfl, htok⟩ := h.eq_cons
  refine ⟨skipWhile_of_current (s := ⟨tok :: rest ++ more, errors⟩) fun hk => ?_, htok⟩
  have hsep : ∀ k ∈ [Token.Kind.newline, .semicolon], k ∉ .leftParen :: Atom.kinds := by decide
  exact hsep _ hk htok

theorem exists_expr_of_line (h : Writes ts l) {file : String} {tok : Token} {e : Expr .parsed}
    {text : String} (hscan : Token.scan text file = (ts ++ [newline, last], [])) (hlast : last.kind = .eof)
    (hread : Source.read text file = .ok ⟨file, [.expr tok e]⟩) :
    ∃ u, ((rulesFor (ts ++ [newline, last])).expr 1 {}).Yields ⟨ts ++ [newline, last], []⟩ e u ∧
      u.errors.length = 0 ∧ Ends u := by
  have hclosed : Closed (ts ++ [newline, last]) := .append ⟨last, rfl, hlast⟩ ts
  obtain ⟨t, hlist, hquiet⟩ := (read_eq_ok_iff hscan hclosed (by simp)).mp hread
  obtain ⟨hpast, hkind⟩ := h.pastSeparators_eq [newline, last] []
  have hsound := sound_rules (fuel (ts ++ [newline, last])) (fuel (ts ++ [newline, last]))
  obtain ⟨u, hu, herrors, hend⟩ := exists_expr_of_stmtList hsound (hpast.symm ▸ hkind) hlist (by simp [hquiet])
  refine ⟨u, hpast ▸ hu, by simpa using herrors, ?_⟩
  rw [Ends, ← current_advance]
  cases hop : binaryOp? u.advance.current.kind with
  | none => rfl
  | some op =>
    have hsep : ∀ k ∈ [Token.Kind.newline, .semicolon], binaryOp? k = none := by decide
    have hstay : pastSeparators u.advance = u.advance :=
      skipWhile_of_current fun hk => by rw [hsep _ hk] at hop; cases hop
    rw [hstay] at hend
    rw [hend] at hop
    cases hop

end Lines

theorem read_line_iff (f : Formula) (file : String) :
    (∃ tok e, f.IsTreeOf e ∧ Source.read (String.ofList ((f.layout 0).chars ++ ['\n'])) file =
        .ok ⟨file, [.expr tok e]⟩) ↔ (f.layout 0).nesting ≤ maxDepth := by
  obtain ⟨ts, newline, last, hscan, hts, hnewline, hlast⟩ := Lexer.scan_line file (f.layout 0)
  have hwrites : Writes ts (f.layout 0) := hts
  have hclosed : Closed (ts ++ [newline, last]) := .append ⟨last, rfl, hlast⟩ ts
  have hfuel : ts.length < fuel (ts ++ [newline, last]) := length_lt_fuel hwrites.kind_ne_eof
  have hpos := (f.layout 0).nesting_pos
  have hnesting : (f.layout 0).nesting ≤ ts.length := by
    have := nesting_le_length (f.layout 0)
    rwa [← hts, List.length_map] at this
  obtain ⟨n, hn⟩ : ∃ n, fuel (ts ++ [newline, last]) = n + 1 := Nat.exists_eq_succ_of_ne_zero (by omega)
  have hlevel : levelOf newline.kind = 1 := by rw [hnewline]; rfl
  have hresumes : Resumes (n + 1) n 1 { depth := 1 } f (f.layout 0).nesting ts [newline, last] :=
    resumes_formula f hwrites (by omega) (by omega) (by omega) (by omega)
  obtain ⟨e, last', he, hrun⟩ := hresumes.readsBack (c := {}) hpos (by omega) (by omega)
  have hexpr (x : Expr .parsed) (t : ParseState) :
      ((rulesFor (ts ++ [newline, last])).expr 1 {}).Yields ⟨ts ++ [newline, last], []⟩ x t ↔
        (f.layout 0).nesting ≤ maxDepth ∧ x = e ∧ t = ⟨[last', newline, last], []⟩ := by
    have := hrun [] x t (Nat.zero_le _)
    rw [rulesFor, hn, rules_expr]
    simpa using this
  constructor
  · rintro ⟨tok, x, -, hread⟩
    obtain ⟨u, hu, -, -⟩ := exists_expr_of_line hwrites hscan hlast hread
    exact ((hexpr x u).mp hu).1
  · intro hdepth
    obtain ⟨hpast, hkind⟩ := hwrites.pastSeparators_eq [newline, last] []
    have hyields := (hexpr e _).mpr ⟨hdepth, rfl, rfl⟩
    rw [← hpast] at hyields
    have heof := pastSeparators_line last' last [] hnewline
    have hrounds : 2 ≤ (rulesFor (ts ++ [newline, last])).rounds := by
      rw [rulesFor, rounds_rules]
      omega
    have hlist := stmtList_of_expr (s := ⟨ts ++ [newline, last], []⟩) (hpast.symm ▸ hkind) hyields rfl
      hnewline (by rw [heof]; exact hlast) hrounds
    exact ⟨_, e, he, (read_eq_ok_iff hscan hclosed (by simp)).mpr ⟨_, hlist, congrArg ParseState.errors heof⟩⟩

theorem text_eq {f : Formula} {e : Expr .parsed} (he : f.IsTreeOf e) (file : String) (tok : Token) :
    Source.text Style.plain ⟨file, [.expr tok e]⟩ = String.ofList ((f.layout 0).chars ++ ['\n']) := by
  simp [Source.text, Printer.stmtText, Formula.exprText_eq he, String.join]

/-- A printed formula is read back as the same formula, unless its expressions nest too deeply for the
reader; and no pair of its parentheses can be left out: a text without one of them is not read as this
formula. -/
theorem read_printed (f : Formula) {e : Expr .parsed} (he : f.IsTreeOf e) (tok : Token) (file : String) :
    ((∃ tok' e', f.IsTreeOf e' ∧ Source.read (Source.text Style.plain ⟨file, [.expr tok e]⟩) file =
        .ok ⟨file, [.expr tok' e']⟩) ↔ (f.layout 0).nesting ≤ maxDepth) ∧
    ∀ a b d, (Source.text Style.plain ⟨file, [.expr tok e]⟩).toList = a ++ '(' :: (b ++ ')' :: d) →
      Balanced b → ∀ tok' e', f.IsTreeOf e' →
        Source.read (String.ofList (a ++ (b ++ d))) file ≠ .ok ⟨file, [.expr tok' e']⟩ := by
  rw [text_eq he file tok]
  refine ⟨read_line_iff f file, fun a b d htext hb tok' e' he' hread => ?_⟩
  -- The newline at the end is behind the closing parenthesis.
  rw [String.toList_ofList] at htext
  obtain ⟨d, rfl⟩ : ∃ d', d = d' ++ ['\n'] := by
    rcases List.eq_nil_or_concat d with rfl | ⟨d, c, rfl⟩
    · have h : (f.layout 0).chars ++ ['\n'] = (a ++ '(' :: b) ++ [')'] := by simpa using htext
      exact absurd (List.append_inj_right' h rfl) (by decide)
    · have h : (f.layout 0).chars ++ ['\n'] = (a ++ '(' :: (b ++ ')' :: d)) ++ [c] := by simpa using htext
      exact ⟨d, by rw [List.append_inj_right' h rfl, List.concat_eq_append]⟩
  have hchars : (f.layout 0).chars = a ++ '(' :: (b ++ ')' :: d) := by
    have : (f.layout 0).chars ++ ['\n'] = (a ++ '(' :: (b ++ ')' :: d)) ++ ['\n'] := by simpa using htext
    exact List.append_cancel_right this
  obtain ⟨l, hdrops, hl⟩ := Layout.drops_of_chars hchars hb
  obtain ⟨ts, newline, last, hscan, hts, hnewline, hlast⟩ := Lexer.scan_line file l
  have hwrites : Writes ts l := hts
  have htext' : String.ofList (a ++ (b ++ (d ++ ['\n']))) = String.ofList (l.chars ++ ['\n']) := by simp [hl]
  rw [htext'] at hread
  obtain ⟨u, hu, hquiet, hends⟩ := exists_expr_of_line hwrites hscan hlast hread
  have hrest : Stops [newline, last] := ⟨⟨last, rfl, hlast⟩, newline, rfl, by rw [hnewline]; rfl⟩
  have hle := hwrites.hasPairs hu rfl hrest hquiet hends he'
  rw [hwrites.openings_eq, hdrops.pairs] at hle
  omega

/-- `a - (b - 1)` -/
def difference : Formula :=
  .binary .sub (by decide) (.atom (.name "a" (by decide)))
    (.binary .sub (by decide) (.atom (.name "b" (by decide))) (.atom (.int 1 (by decide))))

def differenceExpr : Expr .parsed :=
  .binary () minusToken .sub (.name () (nameToken "a") "a" ())
    (.binary () minusToken .sub (.name () (nameToken "b") "b" ()) (.int () Token.blank 1))

theorem read_printed_difference : difference.IsTreeOf differenceExpr ∧
    (∃ tok e, difference.IsTreeOf e ∧ Source.read "a - (b - 1)\n" "" = .ok ⟨"", [.expr tok e]⟩) ∧
    ∀ tok e, difference.IsTreeOf e → Source.read "a - b - 1\n" "" ≠ .ok ⟨"", [.expr tok e]⟩ := by
  have htree : difference.IsTreeOf differenceExpr :=
    ⟨_, _, _, rfl, ⟨_, rfl⟩, _, _, _, rfl, ⟨_, rfl⟩, ⟨_, rfl⟩⟩
  obtain ⟨hback, hneeded⟩ := read_printed difference htree minusToken ""
  have htext : Source.text Style.plain ⟨"", [.expr minusToken differenceExpr]⟩ = "a - (b - 1)\n" := by
    decide +kernel
  rw [htext] at hback hneeded
  have hbalanced : Balanced "b - 1".toList := by
    unfold Balanced
    decide
  exact ⟨htree, hback.mpr (by decide), hneeded "a - ".toList "b - 1".toList ['\n'] (by decide) hbalanced⟩

end Parser

end Scripting

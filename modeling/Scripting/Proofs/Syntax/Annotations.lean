import Scripting.Proofs.Syntax.Programs
import Scripting.Proofs.Syntax.Scanning

/-!
# Type annotations are read back

What is printed for a type annotation is read as the same annotation, and so is what is printed for any
annotation that was read (`parse_text`). The brackets that close nested arguments are read in pairs, as
shifts, and the parser splits some of them again: neither changes the pieces of the tokens if a shift
counts as two brackets (`Token.pieces`).
-/

namespace Scripting

namespace TypeExpr

/-- All names in an annotation are made of identifiers. -/
inductive Named : TypeExpr → Prop
  | named {tok : Token} {path : List String} {args : List TypeExpr} : path ≠ [] →
      (∀ part ∈ path, isName part = true) → (∀ t ∈ args, t.Named) → (named tok path args).Named
  | array {tok : Token} {elem : TypeExpr} : elem.Named → (array tok elem).Named

mutual

/-- The annotation itself, without the tokens it was read from. -/
def bare : TypeExpr → TypeExpr
  | named _ path args => .named .blank path (bares args)
  | array _ elem => .array .blank elem.bare

def bares : List TypeExpr → List TypeExpr
  | [] => []
  | t :: ts => t.bare :: bares ts

end

def pathPieces : List String → List Piece
  | [] => []
  | part :: path => .symbol .ident part :: path.flatMap fun next => [.symbol .dot ".", .symbol .ident next]

mutual

/-- The tokens of an annotation without their places, each closing bracket by itself. -/
def pieces : TypeExpr → List Piece
  | named _ path args =>
    pathPieces path ++
      if args.isEmpty then [] else .symbol .lt "<" :: (argsPieces args ++ [.symbol .gt ">"])
  | array _ elem => elem.pieces ++ [.symbol .leftBracket "[", .symbol .rightBracket "]"]

def argsPieces : List TypeExpr → List Piece
  | [] => []
  | [t] => t.pieces
  | t :: u :: ts => t.pieces ++ .symbol .comma "," :: argsPieces (u :: ts)

end

end TypeExpr

def Token.pieces (t : Token) : List Piece :=
  if t.kind = .shiftRight then [.symbol .gt ">", .symbol .gt ">"] else [t.piece]

def Parser.piecesOf (ts : List Token) : List Piece := ts.flatMap Token.pieces

@[simp] theorem Parser.piecesOf_nil : piecesOf [] = [] := rfl

@[simp] theorem Parser.piecesOf_cons (t : Token) (ts : List Token) :
    piecesOf (t :: ts) = t.pieces ++ piecesOf ts := rfl

@[simp] theorem Parser.piecesOf_append (ts us : List Token) :
    piecesOf (ts ++ us) = piecesOf ts ++ piecesOf us := List.flatMap_append

namespace Lexer

open Parser TypeExpr

variable {file : String} {line col : Int}

/-- In front of some text just these pieces are read, from one character each at least. -/
def ScansPieces (file : String) (line : Int) (cs : List Char) (ps : List Piece) (more : List Char) : Prop :=
  ∀ col, ∃ ts col', piecesOf ts = ps ∧ ts.length ≤ cs.length ∧
    Scans file ⟨cs ++ more, line, col⟩ ts ⟨more, line, col'⟩

theorem exists_intercalate (sep : String) {text : String} {c : Char} {cs : List Char}
    (h : text.toList = c :: cs) (texts : List String) :
    ∃ ds, (sep.intercalate (text :: texts)).toList = c :: ds := by
  cases texts with
  | nil => exact ⟨cs, by rw [String.intercalate_singleton, h]⟩
  | cons next texts =>
    rw [String.intercalate_cons_cons, String.toList_append, String.toList_append, h]
    exact ⟨_, rfl⟩

theorem exists_path {path : List String} (hne : path ≠ []) (hpath : ∀ part ∈ path, isName part = true) :
    ∃ c cs, (".".intercalate path).toList = c :: cs ∧ isWordPart c = true := by
  obtain ⟨part, path, rfl⟩ := List.exists_cons_of_ne_nil hne
  obtain ⟨c, cs, hcs, hc, -⟩ := exists_of_isName (hpath part (.head _))
  obtain ⟨ds, hds⟩ := exists_intercalate "." hcs path
  exact ⟨c, ds, hds, by simp [isWordPart, hc]⟩

theorem exists_text {t : TypeExpr} (h : t.Named) : ∃ c cs, t.text.toList = c :: cs ∧ isWordPart c = true := by
  induction h with
  | @named tok path args hne hpath =>
    obtain ⟨c, cs, hcs, hc⟩ := exists_path hne hpath
    rw [text]
    split
    · exact ⟨c, cs, hcs, hc⟩
    · rw [String.toList_append, String.toList_append, String.toList_append, hcs]
      exact ⟨c, _, rfl, hc⟩
  | @array tok elem _ ih =>
    obtain ⟨c, cs, hcs, hc⟩ := ih
    exact ⟨c, _, by rw [text, String.toList_append, hcs, List.cons_append], hc⟩

/-- Behind an annotation and the brackets that close it comes nothing, a comma or an empty bracket. -/
def Halts (more : List Char) : Prop := ∀ c ∈ more.head?, c = ',' ∨ c = '['

namespace ScansPieces

variable {cs ds more : List Char} {ps qs : List Piece}

theorem nil : ScansPieces file line [] [] more := fun col =>
  ⟨[], col, rfl, Nat.le_refl _, fun fuel => by simp⟩

theorem append (h : ScansPieces file line cs ps (ds ++ more)) (h' : ScansPieces file line ds qs more) :
    ScansPieces file line (cs ++ ds) (ps ++ qs) more := by
  intro col
  obtain ⟨ts, col₁, rfl, hts, hscan⟩ := h col
  obtain ⟨us, col₂, rfl, hus, hscan'⟩ := h' col₁
  refine ⟨ts ++ us, col₂, by simp, ?_, by simpa using hscan.append hscan'⟩
  rw [List.length_append, List.length_append]
  exact Nat.add_le_add hts hus

theorem blank (h : ScansPieces file line cs ps more) : ScansPieces file line (' ' :: cs) ps more := by
  intro col
  obtain ⟨ts, col', hts, hlength, hscan⟩ := h (col + 1)
  exact ⟨ts, col', hts, Nat.le_succ_of_le hlength, hscan.blank⟩

theorem token {p : Piece} (hp : p.kind ≠ .eof) (hne : cs ≠ [])
    (h : ∀ col, ∃ col', scanNext file ⟨cs ++ more, line, col⟩ =
      ⟨place file line col p, ⟨more, line, col'⟩, []⟩) :
    ScansPieces file line cs (if p.kind = .shiftRight then [.symbol .gt ">", .symbol .gt ">"] else [p])
      more := by
  intro col
  obtain ⟨col', hscan⟩ := h col
  exact ⟨[place file line col p], col', by simp [Token.pieces, place, Token.piece],
    List.length_pos_iff.mpr hne, .token hscan hp⟩

theorem name {text : String} (h : isName text = true) (hmore : ∀ c ∈ more.head?, isWordPart c = false) :
    ScansPieces file line text.toList [.symbol .ident text] more :=
  token (p := .symbol .ident text) Token.Kind.noConfusion (by
    obtain ⟨c, cs, hcs, -⟩ := exists_of_isName h
    simp [hcs]) fun col => scanNext_name file line col h hmore

theorem symbol {c d : Char} {kind : Token.Kind} (hd : isWordPart d = true) (hsingle : singleKind? c = some kind)
    (hc : c ≠ '\x00' ∧ c ≠ '\n') (hskip : ∀ cs col, skipBlanks line (c :: cs) col = ⟨c :: cs, line, col⟩)
    (hkind : kind ≠ .eof ∧ kind ≠ .shiftRight) :
    ScansPieces file line [c] [.symbol kind (String.ofList [c])] (d :: more) := by
  have hpair : pairKind? c d = none := by
    unfold pairKind?
    split <;> first | rfl | exact absurd hd (by decide)
  have hscan (col : Int) : scanNext file ⟨c :: d :: more, line, col⟩ =
      ⟨place file line col (.symbol kind (String.ofList [c])), ⟨d :: more, line, col + 1⟩, []⟩ := by
    change scanToken file (skipBlanks line (c :: d :: more) col) = _
    rw [hskip, scanToken]
    simp [Cursor.current, Cursor.peek, Cursor.advanceBy, Cursor.advance, hpair, hsingle, hc, place,
      Piece.symbol]
  have h : ScansPieces file line [c] _ (d :: more) := token hkind.1 (List.cons_ne_nil _ _) fun col =>
    ⟨col + 1, hscan col⟩
  rwa [if_neg (show (Piece.symbol kind (String.ofList [c])).kind ≠ .shiftRight from hkind.2)] at h

theorem comma (more : List Char) : ScansPieces file line [','] [.symbol .comma ","] more :=
  token (p := .symbol .comma ",") Token.Kind.noConfusion (List.cons_ne_nil _ _) fun col =>
    ⟨col + 1, by cases more <;> rfl⟩

theorem brackets :
    ScansPieces file line ['[', ']'] [.symbol .leftBracket "[", .symbol .rightBracket "]"] more := by
  have hopen : ScansPieces file line ['['] [.symbol .leftBracket "["] (']' :: more) :=
    token (p := .symbol .leftBracket "[") Token.Kind.noConfusion (List.cons_ne_nil _ _) fun col =>
      ⟨col + 1, rfl⟩
  have hclose : ScansPieces file line [']'] [.symbol .rightBracket "]"] more :=
    token (p := .symbol .rightBracket "]") Token.Kind.noConfusion (List.cons_ne_nil _ _) fun col =>
      ⟨col + 1, by cases more <;> rfl⟩
  exact hopen.append hclose

theorem closing (hmore : Halts more) : ∀ k, ScansPieces file line (List.replicate k '>')
    (List.replicate k (.symbol .gt ">")) more
  | 0 => nil
  | 1 => by
    refine token (p := .symbol .gt ">") Token.Kind.noConfusion (List.cons_ne_nil _ _) fun col => ⟨col + 1, ?_⟩
    cases more with
    | nil => rfl
    | cons c more => rcases hmore c rfl with rfl | rfl <;> rfl
  | k + 2 => by
    have hpair : ScansPieces file line ['>', '>'] [.symbol .gt ">", .symbol .gt ">"]
        (List.replicate k '>' ++ more) := by
      refine token (p := .symbol .shiftRight ">>") Token.Kind.noConfusion (List.cons_ne_nil _ _) fun col =>
        ⟨col + 1 + 1, ?_⟩
      cases k <;> rfl
    exact hpair.append (closing hmore k)

theorem path {path : List String} (hne : path ≠ []) (hpath : ∀ part ∈ path, isName part = true)
    (hmore : ∀ c ∈ more.head?, isWordPart c = false) :
    ScansPieces file line (".".intercalate path).toList (pathPieces path) more := by
  induction path with
  | nil => exact absurd rfl hne
  | cons part path ih =>
    obtain ⟨hpart, hrest⟩ := List.forall_mem_cons.mp hpath
    cases path with
    | nil =>
      rw [String.intercalate_singleton]
      exact name hpart hmore
    | cons next path =>
      obtain ⟨c, cs, hcs, hc⟩ := exists_path (List.cons_ne_nil next path) hrest
      have hnext := ih (List.cons_ne_nil next path) hrest
      have hdot : ScansPieces file line ['.'] [.symbol .dot "."]
          ((".".intercalate (next :: path)).toList ++ more) := by
        rw [hcs]
        exact symbol hc rfl (by decide) (fun _ _ => rfl) (by decide)
      have hname : ScansPieces file line part.toList [.symbol .ident part]
          ('.' :: ((".".intercalate (next :: path)).toList ++ more)) :=
        name hpart (by simp [show isWordPart '.' = false by decide])
      rw [String.intercalate_cons_cons, String.toList_append, String.toList_append, List.append_assoc]
      exact hname.append (hdot.append hnext)

theorem args {args : List TypeExpr} (hne : args ≠ []) (hargs : ∀ t ∈ args, ∀ k more, Halts more →
      ScansPieces file line (t.text.toList ++ List.replicate k '>')
        (t.pieces ++ List.replicate k (.symbol .gt ">")) more) (k : Nat) (hmore : Halts more) :
    ScansPieces file line ((", ".intercalate (texts args)).toList ++ List.replicate k '>')
      (argsPieces args ++ List.replicate k (.symbol .gt ">")) more := by
  induction args with
  | nil => exact absurd rfl hne
  | cons t args ih =>
    obtain ⟨ht, hrest⟩ := List.forall_mem_cons.mp hargs
    cases args with
    | nil =>
      rw [texts, texts, String.intercalate_singleton]
      exact ht k more hmore
    | cons u args =>
      have hrest := ih (List.cons_ne_nil u args) hrest
      have hhalts : Halts ([','] ++ ' ' :: ((", ".intercalate (texts (u :: args))).toList ++
          List.replicate k '>') ++ more) := by simp [Halts]
      have hfirst := ht 0 _ hhalts
      simpa [texts, argsPieces] using hfirst.append ((comma _).append hrest.blank)

end ScansPieces

theorem scansPieces_text {t : TypeExpr} (h : t.Named) (k : Nat) {more : List Char} (hmore : Halts more) :
    ScansPieces file line (t.text.toList ++ List.replicate k '>')
      (t.pieces ++ List.replicate k (.symbol .gt ">")) more := by
  induction h generalizing k more with
  | @named tok path args hne hpath hnamed ih =>
    have hends : ∀ c ∈ (List.replicate k '>' ++ more).head?, isWordPart c = false := by
      cases k with
      | zero =>
        intro c hc
        rcases hmore c hc with rfl | rfl <;> decide
      | succ k => simp [List.replicate_succ, show isWordPart '>' = false by decide]
    cases args with
    | nil =>
      have hname : ScansPieces file line (".".intercalate path).toList (pathPieces path) _ :=
        .path hne hpath hends
      simpa [text, pieces] using hname.append (.closing hmore k)
    | cons t args =>
      have hargs := ScansPieces.args (List.cons_ne_nil t args) (fun u hu k more => ih u hu k) (k + 1) hmore
      obtain ⟨c, cs, hcs, hc⟩ := exists_text (hnamed t (.head _))
      obtain ⟨ds, hds⟩ := exists_intercalate ", " hcs (texts args)
      have hopen : ScansPieces file line ['<'] [.symbol .lt "<"]
          ((", ".intercalate (texts (t :: args))).toList ++ List.replicate (k + 1) '>' ++ more) := by
        rw [texts, hds]
        exact .symbol hc rfl (by decide) (fun _ _ => rfl) (by decide)
      have hname : ScansPieces file line (".".intercalate path).toList (pathPieces path) (['<'] ++
          ((", ".intercalate (texts (t :: args))).toList ++ List.replicate (k + 1) '>') ++ more) :=
        .path hne hpath (by simp [show isWordPart '<' = false by decide])
      simpa [text, pieces, List.replicate_succ] using hname.append (hopen.append hargs)
  | @array tok elem _ ih =>
    have hhalts : Halts ('[' :: ']' :: (List.replicate k '>' ++ more)) := by simp [Halts]
    have helem := ih 0 hhalts
    have hclosing : ScansPieces file line (List.replicate k '>') (List.replicate k (.symbol .gt ">")) more :=
      .closing hmore k
    simpa [text, pieces] using helem.append (ScansPieces.brackets.append hclosing)

end Lexer

namespace TypeExpr

def arrays : Nat → TypeExpr → TypeExpr
  | 0, t => t
  | k + 1, t => arrays k (.array .blank t)

theorem bare_arrays (k : Nat) {t u : TypeExpr} (h : t.bare = u.bare) :
    (arrays k t).bare = (arrays k u).bare := by
  induction k generalizing t u with
  | zero => exact h
  | succ k ih => exact ih (by rw [bare, bare, h])

def arrayPieces : Nat → List Piece
  | 0 => []
  | k + 1 => .symbol .leftBracket "[" :: .symbol .rightBracket "]" :: arrayPieces k

end TypeExpr

namespace Parser

open Parse ParseState TypeExpr

variable {tok : Token} {ts : List Token} {errors : List Diagnostic} {p : Piece} {ps : List Piece} {r : Rules}

theorem exists_cons (h : piecesOf ts = p :: ps) (hp : p.kind ≠ .gt) :
    ∃ t us, ts = t :: us ∧ t.piece = p ∧ piecesOf us = ps := by
  cases ts with
  | nil => cases h
  | cons t us =>
    rw [piecesOf_cons, Token.pieces] at h
    split at h
    · exact absurd (congrArg Piece.kind (List.cons.inj h).1).symm hp
    · obtain ⟨rfl, hps⟩ := List.cons.inj h
      exact ⟨t, us, rfl, rfl, hps⟩

theorem advance_eq (h : piecesOf ts ≠ []) : (ParseState.mk (tok :: ts) errors).advance = ⟨ts, errors⟩ := by
  cases ts with
  | nil => exact absurd rfl h
  | cons t us => rfl

theorem kind_peek_ne (tok : Token) (errors : List Diagnostic) {k : Token.Kind} (h : piecesOf ts = p :: ps)
    (hp : p.kind ≠ k) (hk : k ≠ .shiftRight) : (ParseState.mk (tok :: ts) errors).peek.kind ≠ k := by
  cases ts with
  | nil => cases h
  | cons t us =>
    rw [piecesOf_cons, Token.pieces] at h
    change t.kind ≠ k
    split at h
    · rename_i ht
      rw [ht]
      exact hk.symm
    · rw [← (List.cons.inj h).1] at hp
      exact hp

theorem exists_unshift (tok : Token) (errors : List Diagnostic) (h : piecesOf ts = p :: ps)
    (hp : p.kind = .gt) : ∃ last us, (ParseState.mk (tok :: ts) errors).unshift.peek.kind = .gt ∧
      (ParseState.mk (tok :: ts) errors).unshift.advance = ⟨last :: us, errors⟩ ∧ piecesOf us = ps := by
  cases ts with
  | nil => cases h
  | cons t us =>
    rw [piecesOf_cons, Token.pieces] at h
    by_cases ht : t.kind = .shiftRight
    · rw [if_pos ht] at h
      have hsplit : (ParseState.mk (tok :: t :: us) errors).unshift =
          (ParseState.mk (tok :: t :: us) errors).splitShift := if_pos ht
      rw [hsplit]
      exact ⟨_, _, rfl, rfl, (List.cons.inj h).2⟩
    · rw [if_neg ht] at h
      have hstay : (ParseState.mk (tok :: t :: us) errors).unshift = ⟨tok :: t :: us, errors⟩ := if_neg ht
      obtain ⟨rfl, hps⟩ := List.cons.inj h
      rw [hstay]
      exact ⟨t, us, hp, rfl, hps⟩

theorem exists_dottedPath {path : List String} {rounds : Nat} (hrounds : path.length < rounds) (tok : Token)
    (errors : List Diagnostic) (acc : List String)
    (h : piecesOf ts = (path.flatMap fun part => [.symbol .dot ".", .symbol .ident part]) ++ p :: ps)
    (hp : p.kind ≠ .dot) : ∃ last us,
      (dottedPath rounds acc).Yields ⟨tok :: ts, errors⟩ (acc ++ path) ⟨last :: us, errors⟩ ∧
        piecesOf us = p :: ps := by
  induction path generalizing rounds acc tok ts with
  | nil =>
    obtain ⟨rounds, rfl⟩ := Nat.exists_eq_succ_of_ne_zero (Nat.ne_zero_of_lt hrounds)
    refine ⟨tok, ts, ?_, h⟩
    have hdot := kind_peek_ne tok errors h hp (by decide)
    rw [dottedPath, yields_peekIs_bind, beq_eq_false_iff_ne.mpr hdot]
    simp
  | cons part path ih =>
    obtain ⟨rounds, rfl⟩ := Nat.exists_eq_succ_of_ne_zero (Nat.ne_zero_of_lt hrounds)
    obtain ⟨dot, us, rfl, hdot, hus⟩ := exists_cons h (by simp [Piece.symbol])
    obtain ⟨name, vs, rfl, hname, hvs⟩ := exists_cons hus (by simp [Piece.symbol])
    obtain ⟨last, ws, hyields, hws⟩ := ih (Nat.lt_of_succ_lt_succ hrounds) name (acc ++ [part]) hvs
    refine ⟨last, ws, ?_, hws⟩
    have hk : (ParseState.mk (tok :: dot :: name :: vs) errors).peek.kind = .dot := congrArg Piece.kind hdot
    have hk' : (ParseState.mk (tok :: dot :: name :: vs) errors).advance.peek.kind = .ident :=
      congrArg Piece.kind hname
    have hlexeme : name.lexeme = part := congrArg Piece.lexeme hname
    rw [dottedPath, yields_peekIs_bind, hk, beq_self_eq_true, if_pos rfl, yields_advance_bind,
      yields_expectPeek_bind, yields_current_bind]
    change _ ∧ (dottedPath rounds (acc ++ [name.lexeme])).Yields ⟨name :: vs, errors⟩ _ _
    rw [hlexeme]
    exact ⟨hk', by simpa using hyields⟩

/-- What may follow an annotation: a separator or a bracket of what it stands in, or the end. -/
def Follows (p : Piece) : Prop := p.kind = .comma ∨ p.kind = .gt ∨ p.kind = .eof

theorem exists_arraySuffix {k rounds : Nat} (hrounds : k < rounds) (tok : Token) (errors : List Diagnostic)
    (name : Token) (t : TypeExpr) (h : piecesOf ts = arrayPieces k ++ p :: ps) (hp : Follows p) : ∃ t' last us,
      (arraySuffix name rounds t).Yields ⟨tok :: ts, errors⟩ t' ⟨last :: us, errors⟩ ∧
        t'.bare = (arrays k t).bare ∧ piecesOf us = p :: ps := by
  induction k generalizing rounds t tok ts with
  | zero =>
    obtain ⟨rounds, rfl⟩ := Nat.exists_eq_succ_of_ne_zero (Nat.ne_zero_of_lt hrounds)
    refine ⟨t, tok, ts, ?_, rfl, h⟩
    have hpeek : (ParseState.mk (tok :: ts) errors).peek.kind ≠ .leftBracket :=
      kind_peek_ne tok errors h (by rcases hp with hp | hp | hp <;> simp [hp]) (by decide)
    rw [arraySuffix, yields_get_bind]
    split
    · rename_i u v us htokens
      obtain ⟨rfl, rfl⟩ := List.cons.inj htokens
      have hk : u.kind ≠ .leftBracket := hpeek
      simp [hk]
    · exact yields_pure.mpr ⟨rfl, rfl⟩
  | succ k ih =>
    obtain ⟨rounds, rfl⟩ := Nat.exists_eq_succ_of_ne_zero (Nat.ne_zero_of_lt hrounds)
    obtain ⟨opening, us, rfl, hopening, hus⟩ := exists_cons h (by simp [Piece.symbol])
    obtain ⟨closing, vs, rfl, hclosing, hvs⟩ := exists_cons hus (by simp [Piece.symbol])
    obtain ⟨t', last, ws, hyields, hbare, hws⟩ :=
      ih (Nat.lt_of_succ_lt_succ hrounds) closing (.array name t) hvs
    refine ⟨t', last, ws, ?_, ?_, hws⟩
    · have hk : opening.kind = .leftBracket := congrArg Piece.kind hopening
      have hk' : closing.kind = .rightBracket := congrArg Piece.kind hclosing
      rw [arraySuffix, yields_get_bind]
      simp only [hk, hk', beq_self_eq_true, Bool.and_self, if_true, yields_advance_bind]
      exact hyields
    · rw [hbare]
      exact bare_arrays k rfl

theorem exists_argsRound (r : Rules) : ∃ step, typeArgs r = iterate step r.rounds [] ∧
    ∀ args s y t, (step args).Yields s y t ↔ ∃ x u, r.type.Yields s.advance x u ∧
      ((u.peek.kind = .comma ∧ y = .inl (args ++ [x]) ∧ t = u.advance) ∨
        (u.peek.kind ≠ .comma ∧ y = .inr (args ++ [x]) ∧ t = u)) := by
  refine ⟨_, rfl, fun args s y t => ?_⟩
  rw [yields_advance_bind, yields_bind]
  refine exists_congr fun x => exists_congr fun u => and_congr_right' ?_
  rw [yields_peekIs_bind]
  by_cases hk : u.peek.kind = .comma
  · simp only [hk, beq_self_eq_true, if_true, yields_advance_bind]
    rw [yields_pure]
    simp [eq_comm]
  · simp only [beq_eq_false_iff_ne.mpr hk, Bool.false_eq_true, if_false]
    rw [yields_pure]
    simp [hk, eq_comm]

/-- The rule reads the pieces of an annotation, and brackets of arrays behind it, as this annotation. -/
def Restores (q : Parse TypeExpr) (t : TypeExpr) (k : Nat) : Prop :=
  ∀ ts errors p ps, piecesOf ts = t.pieces ++ (arrayPieces k ++ p :: ps) → Follows p → ∃ t' last us,
    q.Yields ⟨ts, errors⟩ t' ⟨last :: us, errors⟩ ∧ t'.bare = (arrays k t).bare ∧ piecesOf us = p :: ps

theorem exists_typeArgs {args : List TypeExpr} (hne : args ≠ []) (hargs : ∀ t ∈ args, Restores r.type t 0)
    (hrounds : args.length ≤ r.rounds) (tok : Token) (errors : List Diagnostic)
    (h : piecesOf ts = argsPieces args ++ p :: ps) (hp : p.kind = .gt) :
    ∃ args' last us, (typeArgs r).Yields ⟨tok :: ts, errors⟩ args' ⟨last :: us, errors⟩ ∧
      bares args' = bares args ∧ piecesOf us = p :: ps := by
  obtain ⟨step, htypeArgs, hstep⟩ := exists_argsRound r
  suffices hrun : ∀ n acc, args.length ≤ n → ∃ args' last us,
      (iterate step n acc).Yields ⟨tok :: ts, errors⟩ (acc ++ args') ⟨last :: us, errors⟩ ∧
        bares args' = bares args ∧ piecesOf us = p :: ps by
    rw [htypeArgs]
    exact hrun r.rounds [] hrounds
  clear hrounds htypeArgs
  intro n acc hn
  induction args generalizing n acc tok ts with
  | nil => exact absurd rfl hne
  | cons t args ih =>
    obtain ⟨ht, hrest⟩ := List.forall_mem_cons.mp hargs
    obtain ⟨n, rfl⟩ := Nat.exists_eq_succ_of_ne_zero (Nat.ne_zero_of_lt hn)
    cases args with
    | nil =>
      obtain ⟨t', last, us, hyields, hbare, hus⟩ := ht ts errors p ps h (.inr (.inl hp))
      refine ⟨[t'], last, us, yields_iterate_succ.mpr (.inl ?_), congrArg (· :: []) hbare, hus⟩
      refine (hstep _ _ _ _).mpr ⟨t', _, ?_, .inr ⟨?_, rfl, rfl⟩⟩
      · rwa [advance_eq (by simp [h])]
      · exact kind_peek_ne last errors hus (by simp [hp]) (by decide)
    | cons u args =>
      have hpieces : piecesOf ts = t.pieces ++ .symbol .comma "," :: (argsPieces (u :: args) ++ p :: ps) := by
        rw [h, argsPieces]
        simp
      obtain ⟨t', last, us, hyields, hbare, hus⟩ := ht ts errors _ _ hpieces (.inl rfl)
      obtain ⟨comma, vs, rfl, hcomma, hvs⟩ := exists_cons hus (by simp [Piece.symbol])
      obtain ⟨args', last', ws, hrun, hbares, hws⟩ :=
        ih (List.cons_ne_nil u args) hrest comma hvs n (acc ++ [t']) (Nat.le_of_succ_le_succ hn)
      have hround : (step acc).Yields ⟨tok :: ts, errors⟩ (.inl (acc ++ [t'])) ⟨comma :: vs, errors⟩ := by
        refine (hstep _ _ _ _).mpr ⟨t', ⟨last :: comma :: vs, errors⟩, ?_, .inl ⟨?_, rfl, rfl⟩⟩
        · rwa [advance_eq (by simp [hpieces])]
        · exact congrArg Piece.kind hcomma
      refine ⟨t' :: args', last', ws, yields_iterate_succ.mpr
        (.inr ⟨_, _, hround, by simpa using hrun⟩), ?_, hws⟩
      rw [bares, hbares, hbare]
      rfl

theorem length_path_le (path : List String) :
    path.length ≤ (path.flatMap fun part => [Piece.symbol .dot ".", .symbol .ident part]).length := by
  induction path with
  | nil => exact Nat.le_refl _
  | cons part path ih =>
    simp only [List.flatMap_cons, List.length_append, List.length_cons]
    omega

theorem length_le_argsPieces {args : List TypeExpr} {t : TypeExpr} (h : t ∈ args) :
    t.pieces.length ≤ (argsPieces args).length := by
  induction args with
  | nil => cases h
  | cons u args ih =>
    cases args with
    | nil =>
      rw [List.mem_singleton.mp h]
      exact Nat.le_refl _
    | cons v args =>
      rw [argsPieces, List.length_append, List.length_cons]
      rcases List.mem_cons.mp h with rfl | h
      · exact Nat.le_add_right _ _
      · have := ih h
        omega

theorem length_args_le (args : List TypeExpr) : args.length ≤ (argsPieces args).length + 1 := by
  induction args with
  | nil => exact Nat.zero_le _
  | cons u args ih =>
    cases args with
    | nil => exact Nat.succ_le_succ (Nat.zero_le _)
    | cons v args =>
      simp only [argsPieces, List.length_append, List.length_cons] at ih ⊢
      omega

theorem exists_arrayPieces (k : Nat) (hp : Follows p) : ∃ q qs, arrayPieces k ++ p :: ps = q :: qs ∧
    q.kind ≠ .dot ∧ q.kind ≠ .lt := by
  cases k with
  | zero => exact ⟨p, ps, rfl, by rcases hp with hp | hp | hp <;> simp [hp]⟩
  | succ k => exact ⟨_, _, rfl, by simp [Piece.symbol]⟩

theorem restores_named {part : String} {path : List String} {args : List TypeExpr} {k : Nat}
    (hpath : path.length < r.rounds) (hargs : args.length ≤ r.rounds) (hk : k < r.rounds)
    (h : ∀ t ∈ args, Restores r.type t 0) : Restores (typeExpr r) (.named tok (part :: path) args) k := by
  intro ts errors p ps hts hp
  rw [pieces, pathPieces, List.cons_append, List.cons_append, List.append_assoc] at hts
  obtain ⟨first, us, rfl, hfirst, hus⟩ := exists_cons hts (by simp [Piece.symbol])
  have hident : first.kind = .ident := congrArg Piece.kind hfirst
  have hlexeme : first.lexeme = part := congrArg Piece.lexeme hfirst
  cases args with
  | nil =>
    obtain ⟨q, qs, hq, hdot, hlt⟩ := exists_arrayPieces k hp
    rw [List.isEmpty_nil, if_pos rfl, List.nil_append, hq] at hus
    obtain ⟨last, vs, hyields, hvs⟩ := exists_dottedPath hpath first errors [first.lexeme] hus hdot
    have hpeek := kind_peek_ne last errors hvs hlt (by decide)
    rw [← hq] at hvs
    obtain ⟨t, last', ws, harray, hbare, hws⟩ := exists_arraySuffix hk last errors first
      (.named first (first.lexeme :: path) []) hvs hp
    refine ⟨t, last', ws, yields_typeExpr.mpr ⟨hident, _, _, hyields, .inl ⟨hpeek, harray⟩⟩, ?_, hws⟩
    rw [hbare]
    exact bare_arrays k (by rw [bare, bare, hlexeme])
  | cons t args =>
    rw [List.isEmpty_cons, if_neg Bool.false_ne_true, List.cons_append, List.append_assoc] at hus
    obtain ⟨last, vs, hyields, hvs⟩ :=
      exists_dottedPath hpath first errors [first.lexeme] hus (by simp [Piece.symbol])
    obtain ⟨opening, ws, rfl, hlt, hws⟩ := exists_cons hvs (by simp [Piece.symbol])
    obtain ⟨args', last', us', hrun, hbares, hus'⟩ :=
      exists_typeArgs (List.cons_ne_nil t args) h hargs opening errors hws rfl
    obtain ⟨closing, vs', hgt, hadvance, hvs'⟩ := exists_unshift last' errors hus' rfl
    obtain ⟨t', last', ws', harray, hbare, hws'⟩ := exists_arraySuffix hk closing errors first
      (.named first (first.lexeme :: path) args') hvs' hp
    rw [← hadvance] at harray
    refine ⟨t', last', ws', yields_typeExpr.mpr ⟨hident, _, _, hyields, .inr ⟨congrArg Piece.kind hlt, args', _,
      hrun, hgt, harray⟩⟩, ?_, hws'⟩
    rw [hbare]
    exact bare_arrays k (by rw [bare, bare, hlexeme, hbares])

theorem restores_typeExpr {t : TypeExpr} (h : t.Named) {rounds n k : Nat}
    (hrounds : t.pieces.length + k < rounds) (hn : t.pieces.length ≤ n) :
    Restores (typeExpr (rules rounds n)) t k := by
  induction h generalizing n k with
  | @named tok path args hne _ _ ih =>
    obtain ⟨part, path, rfl⟩ := List.exists_cons_of_ne_nil hne
    have hpath := length_path_le path
    have hargs := length_args_le args
    simp only [pieces, pathPieces, List.length_append, List.length_cons] at hrounds hn
    cases args with
    | nil =>
      refine restores_named ?_ (Nat.zero_le _) ?_ fun t ht => absurd ht List.not_mem_nil
      all_goals
        rw [rounds_rules]
        omega
    | cons a args =>
      simp only [List.isEmpty_cons, Bool.false_eq_true, if_false, List.length_append, List.length_cons,
        List.length_nil] at hrounds hn hargs
      obtain ⟨n, rfl⟩ := Nat.exists_eq_succ_of_ne_zero (show n ≠ 0 by omega)
      refine restores_named ?_ ?_ ?_ fun t ht => ?_
      · rw [rounds_rules]
        omega
      · rw [rounds_rules, List.length_cons]
        omega
      · rw [rounds_rules]
        omega
      · have hlength := length_le_argsPieces ht
        rw [rules_type]
        exact ih t ht (by omega) (by omega)
  | @array tok elem _ ih =>
    intro ts errors p ps hts hp
    rw [pieces, List.append_assoc] at hts
    simp only [pieces, List.length_append, List.length_cons, List.length_nil] at hrounds hn
    have hk : elem.pieces.length + (k + 1) < rounds := by omega
    have hn' : elem.pieces.length ≤ n := by omega
    obtain ⟨t', last, us, hyields, hbare, hus⟩ := ih hk hn' ts errors p ps hts hp
    exact ⟨t', last, us, hyields, hbare.trans (bare_arrays k rfl), hus⟩

end Parser

namespace Parser

open Parse ParseState TypeExpr

def HasNames (ts : List Token) : Prop := ∀ t ∈ ts, t.kind = .ident → isName t.lexeme = true

theorem HasNames.current {s : ParseState} (h : HasNames s.tokens) (hk : s.current.kind = .ident) :
    isName s.current.lexeme = true := by
  rcases s with ⟨_ | ⟨t, ts⟩, errors⟩
  · cases hk
  · exact h t (.head _) hk

theorem HasNames.advance {s : ParseState} (h : HasNames s.tokens) : HasNames s.advance.tokens := by
  rcases s with ⟨_ | ⟨t, _ | ⟨u, ts⟩⟩, errors⟩
  · exact h
  · exact h
  · exact fun v hv => h v (.tail _ hv)

theorem HasNames.unshift {s : ParseState} (h : HasNames s.tokens) : HasNames s.unshift.tokens := by
  unfold ParseState.unshift
  split
  · rcases s with ⟨_ | ⟨t, _ | ⟨u, ts⟩⟩, errors⟩
    · exact h
    · exact h
    · obtain ⟨ht, hrest⟩ := List.forall_mem_cons.mp h
      obtain ⟨-, hts⟩ := List.forall_mem_cons.mp hrest
      exact List.forall_mem_cons.mpr ⟨ht, List.forall_mem_cons.mpr ⟨Token.Kind.noConfusion,
        List.forall_mem_cons.mpr ⟨Token.Kind.noConfusion, hts⟩⟩⟩
  · exact h

theorem named_of_dottedPath {rounds : Nat} {acc path : List String} {s t : ParseState} (hs : HasNames s.tokens)
    (hne : acc ≠ []) (hacc : ∀ part ∈ acc, isName part = true) (h : (dottedPath rounds acc).Yields s path t) :
    path ≠ [] ∧ (∀ part ∈ path, isName part = true) ∧ HasNames t.tokens := by
  induction rounds generalizing acc s with
  | zero => exact absurd h not_yields_failure
  | succ rounds ih =>
    rw [dottedPath, yields_peekIs_bind, yields_ite] at h
    split at h
    · rw [yields_advance_bind, yields_expectPeek_bind, yields_current_bind] at h
      obtain ⟨hk, h⟩ := h
      have hnext := hs.advance.advance
      refine ih hnext (by simp) ?_ h
      refine List.forall_mem_append.mpr ⟨hacc, List.forall_mem_singleton.mpr (hnext.current ?_)⟩
      rw [current_advance]
      exact hk
    · obtain ⟨rfl, rfl⟩ := yields_pure.mp h
      exact ⟨hne, hacc, hs⟩

theorem named_of_arraySuffix {tok : Token} {rounds : Nat} {ty ty' : TypeExpr} {s t : ParseState}
    (hs : HasNames s.tokens) (hty : ty.Named) (h : (arraySuffix tok rounds ty).Yields s ty' t) :
    ty'.Named ∧ HasNames t.tokens := by
  induction rounds generalizing ty s with
  | zero => exact absurd h not_yields_failure
  | succ rounds ih =>
    rw [arraySuffix, yields_get_bind] at h
    split at h
    · rw [yields_ite] at h
      split at h
      · exact ih hs.advance.advance (.array hty) h
      · obtain ⟨rfl, rfl⟩ := yields_pure.mp h
        exact ⟨hty, hs⟩
    · obtain ⟨rfl, rfl⟩ := yields_pure.mp h
      exact ⟨hty, hs⟩

def Names (q : Parse TypeExpr) : Prop :=
  ∀ s t u, HasNames s.tokens → q.Yields s t u → t.Named ∧ HasNames u.tokens

theorem named_of_typeArgs {r : Rules} (hr : Names r.type) {args : List TypeExpr} {s t : ParseState}
    (hs : HasNames s.tokens) (h : (typeArgs r).Yields s args t) :
    (∀ ty ∈ args, ty.Named) ∧ HasNames t.tokens := by
  obtain ⟨step, htypeArgs, hstep⟩ := exists_argsRound r
  rw [htypeArgs] at h
  have hround {found : List TypeExpr} {v w : ParseState} {y : List TypeExpr ⊕ List TypeExpr}
      (hround : (step found).Yields v y w) (hfound : (∀ ty ∈ found, ty.Named) ∧ HasNames v.tokens) :
      (∀ ty ∈ y.elim id id, ty.Named) ∧ HasNames w.tokens := by
    obtain ⟨ty, u, hty, hend⟩ := (hstep _ _ _ _).mp hround
    obtain ⟨hnamed, hu⟩ := hr _ _ _ hfound.2.advance hty
    have hall : ∀ ty' ∈ found ++ [ty], ty'.Named :=
      List.forall_mem_append.mpr ⟨hfound.1, List.forall_mem_singleton.mpr hnamed⟩
    rcases hend with ⟨-, rfl, rfl⟩ | ⟨-, rfl, rfl⟩
    · exact ⟨hall, hu.advance⟩
    · exact ⟨hall, hu⟩
  exact Yields.iterate_induct (I := fun found v => (∀ ty ∈ found, ty.Named) ∧ HasNames v.tokens)
    (Q := fun found v => (∀ ty ∈ found, ty.Named) ∧ HasNames v.tokens)
    (fun _ _ _ _ hstep hI => hround hstep hI) (fun _ _ _ _ hstep hI => hround hstep hI) h
    ⟨fun _ hty => absurd hty List.not_mem_nil, hs⟩

theorem names_typeExpr {r : Rules} (hr : Names r.type) : Names (typeExpr r) := by
  intro s ty u hs h
  obtain ⟨hident, path, v, hpath, hrest⟩ := yields_typeExpr.mp h
  obtain ⟨hne, hnames, hv⟩ := named_of_dottedPath hs (List.cons_ne_nil _ _)
    (List.forall_mem_singleton.mpr (hs.current hident)) hpath
  rcases hrest with ⟨-, harrays⟩ | ⟨-, args, w, hargs, -, harrays⟩
  · exact named_of_arraySuffix hv (.named hne hnames (List.forall_mem_nil _)) harrays
  · obtain ⟨hnamed, hw⟩ := named_of_typeArgs hr hv.advance hargs
    exact named_of_arraySuffix hw.unshift.advance (.named hne hnames hnamed) harrays

theorem names_type (rounds n : Nat) : Names (rules rounds n).type := by
  induction n with
  | zero => exact fun _ _ _ _ h => absurd h not_yields_failure
  | succ n ih =>
    rw [rules_type]
    exact names_typeExpr ih

end Parser

namespace TypeExpr

open Parser

theorem parse_eq_ok_iff {source : String} {t : TypeExpr} : TypeExpr.parse source = .ok t ↔
    (Token.scan source).2 = [] ∧ ∃ s : ParseState,
      (typeExpr (rulesFor (closed (Token.scan source).1))).Yields ⟨closed (Token.scan source).1, []⟩ t s ∧
        s.errors = [] ∧ s.peek.kind = .eof := by
  rcases hscan : Token.scan source with ⟨tokens, _ | ⟨d, errors⟩⟩
  · rcases hrun : (typeExpr (rulesFor (closed tokens))).run ⟨closed tokens, []⟩ with ⟨t?, s⟩
    have hyields : (∃ u : ParseState, (typeExpr (rulesFor (closed tokens))).Yields ⟨closed tokens, []⟩ t u ∧
        u.errors = [] ∧ u.peek.kind = .eof) ↔ t? = some t ∧ s.errors = [] ∧ s.peek.kind = .eof := by
      change (∃ u, (typeExpr (rulesFor (closed tokens))).run ⟨closed tokens, []⟩ = (some t, u) ∧ _) ↔ _
      rw [hrun]
      constructor
      · rintro ⟨u, heq, hu⟩
        obtain ⟨rfl, rfl⟩ := Prod.mk.inj heq
        exact ⟨rfl, hu⟩
      · rintro ⟨rfl, hs⟩
        exact ⟨s, rfl, hs⟩
    unfold TypeExpr.parse
    rw [hscan]
    dsimp only
    rw [hrun, hyields]
    dsimp only
    cases hlast : s.errors.getLast? with
    | some d =>
      have hne : s.errors ≠ [] := by
        rintro heq
        simp [heq] at hlast
      simp [hne]
    | none =>
      have hquiet : s.errors = [] := List.getLast?_eq_none_iff.mp hlast
      cases t? with
      | none => simp
      | some found => by_cases hk : s.peek.kind = .eof <;> simp [hk, hquiet]
  · unfold TypeExpr.parse
    rw [hscan]
    simp

theorem length_piecesOf_le {ts : List Token} (h : ∀ t ∈ ts, t.kind ≠ .eof) :
    (piecesOf ts).length ≤ load ts := by
  induction ts with
  | nil => exact Nat.le_refl _
  | cons t ts ih =>
    obtain ⟨ht, hts⟩ := List.forall_mem_cons.mp h
    have hpieces : t.pieces.length ≤ weight t := by
      unfold Token.pieces
      split
      · rename_i hk
        simp [weight, hk]
      · exact weight_pos ht
    rw [piecesOf_cons, List.length_append, load_cons]
    exact Nat.add_le_add hpieces (ih hts)

theorem exists_parse_text {t : TypeExpr} (h : t.Named) :
    ∃ t', TypeExpr.parse t.text = .ok t' ∧ t'.bare = t.bare := by
  have hend : Lexer.Halts [] := fun c hc => by cases hc
  have hscans : Lexer.ScansPieces "" 1 _ _ _ := Lexer.scansPieces_text h 0 hend
  obtain ⟨ts, col, hpieces, hlength, hscans⟩ := hscans (0 + 1)
  simp only [List.replicate_zero, List.append_nil] at hpieces hlength hscans
  have hscan := hscans.scan_eq hlength
  rw [String.ofList_toList] at hscan
  generalize hlast : Lexer.place "" 1 col ⟨.eof, "", .none⟩ = last at hscan
  have heof : last.kind = .eof := by rw [← hlast]; rfl
  have hended : Ended (Token.scanAt t.text 1 0 "").1 := Lexer.scanAt_ended (congrArg Prod.snd hscan)
  rw [show Token.scanAt t.text 1 0 "" = _ from hscan] at hended
  obtain ⟨-, hplain⟩ := hended.init_eq heof
  have hlength : t.pieces.length ≤ load (ts ++ [last]) := by
    rw [← hpieces, load_append]
    exact Nat.le_trans (length_piecesOf_le hplain) (Nat.le_add_right _ _)
  have hfuel : fuel (ts ++ [last]) = 2 * load (ts ++ [last]) + 2 := rfl
  have hrestores : Restores (typeExpr (rulesFor (ts ++ [last]))) t 0 :=
    restores_typeExpr h (by omega) (by omega)
  have hnotshift : last.kind ≠ .shiftRight := fun hk => Token.Kind.noConfusion (heof.symm.trans hk)
  obtain ⟨t', behind, us, hyields, hbare, hus⟩ := hrestores (ts ++ [last]) [] last.piece []
    (by simp [hpieces, arrayPieces, Token.pieces, hnotshift]) (.inr (.inr heof))
  have hnotgt : last.piece.kind ≠ .gt := fun hk => Token.Kind.noConfusion (heof.symm.trans hk)
  obtain ⟨u, vs, rfl, hu, -⟩ := exists_cons hus hnotgt
  refine ⟨t', parse_eq_ok_iff.mpr ⟨by rw [hscan], ⟨behind :: u :: vs, []⟩, ?_, rfl, ?_⟩, hbare⟩
  · rw [hscan, closed_eq (.of_ended hended)]
    exact hyields
  · exact (congrArg Piece.kind hu).trans heof

theorem isName_of_word {text : String} (h : Word text.toList) : isName text = true := by
  obtain ⟨c, cs, htext, hc, hcs, hkind⟩ := h
  rw [String.ofList_toList] at hkind
  rw [isName, htext]
  simp [hc, hkind]
  exact hcs

theorem named_of_parse {source : String} {t : TypeExpr} (h : TypeExpr.parse source = .ok t) : t.Named := by
  obtain ⟨hquiet, s, hyields, -, -⟩ := parse_eq_ok_iff.mp h
  have hnames : HasNames (Token.scan source).1 := by
    intro u hu hk
    have hplace : Points False [] 1 (0 + 1) := False.elim
    obtain ⟨_, hstands⟩ := (Lexer.scanAt_spread hplace hquiet).exists_of_mem hu
    exact isName_of_word (hstands.word hk)
  have hended : Ended (Token.scan source).1 := Lexer.scanAt_ended hquiet
  rw [closed_eq (.of_ended hended)] at hyields
  exact (names_typeExpr (names_type _ _) ⟨(Token.scan source).1, []⟩ _ _ hnames hyields).1

/-- Type annotations made of identifiers are read back from what is printed for them, whatever their arguments
and arrays; and so are the annotations that are read from any text. -/
theorem parse_text : (∀ t : TypeExpr, t.Named → ∃ t', TypeExpr.parse t.text = .ok t' ∧ t'.bare = t.bare) ∧
    ∀ source t, TypeExpr.parse source = .ok t → ∃ t', TypeExpr.parse t.text = .ok t' ∧ t'.bare = t.bare :=
  ⟨fun _ h => exists_parse_text h, fun _ _ h => exists_parse_text (named_of_parse h)⟩

/-- An array of a generic type whose argument is generic itself. -/
def nested : TypeExpr :=
  .array .blank (.named .blank ["A", "B"] [.named .blank ["C"] [.named .blank ["D"] []]])

/-- The brackets that close both are one token; those of a text may also be apart. -/
theorem parse_text_nested : (nested.Named ∧ ∃ t, TypeExpr.parse "A.B<C<D>>[]" = .ok t ∧ t.bare = nested.bare) ∧
    ∃ t, TypeExpr.parse "A.B<C<D> >[]" = .ok t ∧ ∃ t', TypeExpr.parse t.text = .ok t' ∧ t'.bare = t.bare := by
  have hnamed : nested.Named := by
    refine .array (.named (by decide) (by decide) (List.forall_mem_singleton.mpr ?_))
    refine .named (by decide) (by decide) (List.forall_mem_singleton.mpr ?_)
    exact .named (by decide) (by decide) (List.forall_mem_nil _)
  have htext : nested.text = "A.B<C<D>>[]" := by decide
  have hsome : (TypeExpr.parse "A.B<C<D> >[]").toOption.isSome = true := by decide +kernel
  refine ⟨⟨hnamed, htext ▸ parse_text.1 nested hnamed⟩, ?_⟩
  cases hread : TypeExpr.parse "A.B<C<D> >[]" with
  | error e =>
    rw [hread] at hsome
    cases hsome
  | ok t => exact ⟨t, rfl, parse_text.2 _ t hread⟩

end TypeExpr

end Scripting

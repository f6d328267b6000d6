import Scripting.Proofs.Syntax.Nesting
import Scripting.Syntax.Printer
import Scripting.Token.Lexer

/-!
# Formulas and how they are written

A formula is a tree of left-associative operators over names, natural numbers and truth values. Its
layout says where it is printed with parentheses (`exprText_formula`). The parentheses of a text that
match are those of a group of the layout (`drops_of_chars`).
-/

namespace Scripting

def isName (text : String) : Bool :=
  match text.toList with
  | [] => false
  | c :: cs => Lexer.isWordStart c && cs.all Lexer.isWordPart && Token.Kind.ofWord text == .ident

/-- What a formula is made of. -/
inductive Atom where
  | name (text : String) (h : isName text = true)
  | int (value : Int64) (h : 0 ≤ value)
  | bool (value : Bool)

/-- A tree of left-associative operators. -/
inductive Formula where
  | atom (a : Atom)
  | binary (op : BinaryOp) (h : op ≠ .pow) (left right : Formula)

/-- What of a token does not depend on its place. -/
structure Piece where
  kind : Token.Kind
  lexeme : String
  literal : Token.Literal

def Token.piece (t : Token) : Piece := ⟨t.kind, t.lexeme, t.literal⟩

/-- How a formula can be written. -/
inductive Layout where
  | atom (a : Atom)
  /-- Something between parentheses. -/
  | group (inner : Layout)
  | binary (op : BinaryOp) (left right : Layout)

/-- The kind of the token that an operator is. -/
def BinaryOp.kind : BinaryOp → Token.Kind
  | pipe => .pipe | or => .or | and => .and | eq => .eq | ne => .notEq
  | lt => .lt | gt => .gt | le => .lte | ge => .gte
  | bitAnd => .amp | bitXor => .caret | shiftLeft => .shiftLeft | shiftRight => .shiftRight
  | add => .plus | sub => .minus | mul => .asterisk | div => .slash | mod => .percent | pow => .power

def Piece.symbol (kind : Token.Kind) (lexeme : String) : Piece := ⟨kind, lexeme, .text lexeme⟩

namespace Atom

def piece : Atom → Piece
  | name text _ => ⟨.ident, text, .text text⟩
  | int v _ => ⟨.int, toString v.toInt, .int v⟩
  | bool true => ⟨.kwTrue, "true", .bool true⟩
  | bool false => ⟨.kwFalse, "false", .bool false⟩

def kinds : List Token.Kind := [.ident, .int, .kwTrue, .kwFalse]

theorem kind_mem (a : Atom) : a.piece.kind ∈ kinds := by
  rcases a with _ | _ | ⟨_ | _⟩ <;> simp [piece, kinds]

/-- The expression that an atom is at a token. -/
def expr (tok : Token) : Atom → Expr .parsed
  | name text _ => .name () tok text ()
  | int v _ => .int () tok v
  | bool b => .bool () tok b

end Atom

/-- Whether an expression is a formula, whatever its tokens. -/
def Formula.IsTreeOf : Formula → Expr .parsed → Prop
  | atom a, e => ∃ tok, e = a.expr tok
  | binary op _ l r, e => ∃ tok el er, e = .binary () tok op el er ∧ l.IsTreeOf el ∧ r.IsTreeOf er

namespace Layout

def chars : Layout → List Char
  | atom a => a.piece.lexeme.toList
  | group l => '(' :: (l.chars ++ [')'])
  | binary op l r => l.chars ++ (' ' :: (op.symbol.toList ++ [' ']) ++ r.chars)

def pieces : Layout → List Piece
  | atom a => [a.piece]
  | group l => .symbol .leftParen "(" :: (l.pieces ++ [.symbol .rightParen ")"])
  | binary op l r => l.pieces ++ .symbol op.kind op.symbol :: r.pieces

def pairs : Layout → Nat
  | atom _ => 0
  | group l => l.pairs + 1
  | binary _ l r => l.pairs + r.pairs

/-- How many expressions the parser reads inside each other. An operand left of an operator belongs to the
same expression as the operator. -/
def nesting : Layout → Nat
  | atom _ => 1
  | group l => l.nesting + 1
  | binary _ l r => max l.nesting (r.nesting + 1)

theorem nesting_pos (l : Layout) : 0 < l.nesting := by
  induction l with
  | atom a => exact Nat.one_pos
  | group l => exact Nat.succ_pos _
  | binary op l r ihl => exact Nat.lt_of_lt_of_le ihl (Nat.le_max_left _ _)

/-- One pair of parentheses is left out. -/
inductive Drops : Layout → Layout → Prop
  | here {l} : Drops (group l) l
  | inside {l l'} : Drops l l' → Drops (group l) (group l')
  | left {op l l' r} : Drops l l' → Drops (binary op l r) (binary op l' r)
  | right {op l r r'} : Drops r r' → Drops (binary op l r) (binary op l r')

theorem Drops.pairs {l l' : Layout} (h : Drops l l') : l.pairs = l'.pairs + 1 := by
  induction h with
  | here => rfl
  | inside _ ih => simp [Layout.pairs, ih]
  | left _ ih => simp only [Layout.pairs, ih]; omega
  | right _ ih => simp only [Layout.pairs, ih]; omega

end Layout

namespace Formula

/-- How a formula is printed where operands that bind looser than a level get parentheses. -/
def layout (level : Nat) : Formula → Layout
  | atom a => .atom a
  | binary op _ l r =>
    let whole := Layout.binary op (l.layout op.printLevel) (r.layout (op.printLevel + 1))
    if op.printLevel < level then .group whole else whole

variable {op : BinaryOp} {hop : op ≠ .pow} {l r : Formula} {level : Nat}

theorem layout_of_le (h : level ≤ op.printLevel) : (binary op hop l r).layout level =
    .binary op (l.layout op.printLevel) (r.layout (op.printLevel + 1)) := by
  rw [layout, if_neg (Nat.not_lt.mpr h)]

theorem layout_of_lt (h : op.printLevel < level) :
    (binary op hop l r).layout level = .group ((binary op hop l r).layout 0) := by
  rw [layout, if_pos h, layout_of_le (Nat.zero_le _)]

theorem exprText_eq {f : Formula} {e : Expr .parsed} (h : f.IsTreeOf e) (depth level : Nat) :
    Printer.exprText Style.plain depth level e = String.ofList (f.layout level).chars := by
  induction f generalizing e level with
  | atom a =>
    obtain ⟨tok, rfl⟩ := h
    rcases a with ⟨text, _⟩ | ⟨v, _⟩ | ⟨_ | _⟩ <;>
      simp [Atom.expr, Printer.exprText, layout, Layout.chars, Atom.piece, Style.plain]
  | binary op hop l r ihl ihr =>
    obtain ⟨tok, el, er, rfl, hl, hr⟩ := h
    rw [Printer.exprText, ihl hl, ihr hr]
    by_cases hlt : op.printLevel < level
    · rw [layout_of_lt hlt, layout_of_le (Nat.zero_le _)]
      simp [Printer.parens, hlt, Layout.chars, ← String.toList_inj]
    · rw [layout_of_le (Nat.le_of_not_lt hlt)]
      simp [Printer.parens, hlt, Layout.chars, ← String.toList_inj]

end Formula

def Char.parenShift (c : Char) (n : Nat) : Option Nat :=
  if c = '(' then some (n + 1) else if c = ')' then (if n = 0 then none else some (n - 1)) else some n

instance : Nests Char where
  shift := Char.parenShift
  shift_add {c n m} h d := by
    unfold Char.parenShift at *
    split at h
    · simp_all
      omega
    · split at h <;> simp_all
      omega

/-- A character that is no parenthesis. -/
def Plain (cs : List Char) : Prop := ∀ c ∈ cs, c ≠ '(' ∧ c ≠ ')'

theorem Plain.balanced {cs : List Char} (h : Plain cs) : Balanced cs :=
  heightAfter_of_plain fun c hc => by
    obtain ⟨h₁, h₂⟩ := h c hc
    simp [Nests.shift, Char.parenShift, h₁, h₂]

theorem closed_inside {xs ys a b d : List Char} (hxs : Balanced xs) (hb : Balanced b)
    (h : xs ++ ys = a ++ '(' :: (b ++ ')' :: d)) :
    (∃ d', xs = a ++ '(' :: (b ++ ')' :: d') ∧ d = d' ++ ys) ∨
      ∃ a', a = xs ++ a' ∧ ys = a' ++ '(' :: (b ++ ')' :: d) := by
  rcases List.append_eq_append_iff.mp h with ⟨a', rfl, hys⟩ | ⟨z, rfl, hz⟩
  · exact .inr ⟨a', rfl, hys⟩
  · cases z with
    | nil => exact .inr ⟨[], by simp, hz.symm⟩
    | cons c z =>
      obtain ⟨rfl, hz'⟩ := List.cons.inj hz
      refine .inl ?_
      have hopen (n : Nat) : Nests.shift '(' n = some (n + 1) := rfl
      rcases List.append_eq_append_iff.mp hz' with ⟨w, rfl, hw⟩ | ⟨w, rfl, hw⟩
      · cases w with
        | nil =>
          rw [List.append_nil] at hxs
          exact absurd hxs (not_balanced_of_opening hopen (hb.append .nil))
        | cons c w =>
          obtain ⟨rfl, rfl⟩ := List.cons.inj hw
          exact ⟨w, rfl, rfl⟩
      · exact absurd hxs (not_balanced_of_opening hopen hb)

theorem toList_toString {v : Int64} (h : 0 ≤ v) :
    (toString v.toInt).toList = Nat.toDigits 10 v.toInt.toNat := by
  have hv : v.toInt = (v.toInt.toNat : Int) := (Int.toNat_of_nonneg (Int64.le_iff_toInt_le.mp h)).symm
  rw [hv]
  exact Nat.toList_repr

theorem Atom.isWordPart_of_mem (a : Atom) : ∀ c ∈ a.piece.lexeme.toList, Lexer.isWordPart c = true := by
  intro c hc
  rcases a with ⟨text, h⟩ | ⟨v, h⟩ | ⟨_ | _⟩
  · simp only [piece] at hc
    unfold isName at h
    split at h
    · cases h
    · rename_i d ds hchars
      rw [hchars] at hc
      simp only [Bool.and_eq_true, List.all_eq_true] at h
      rcases List.mem_cons.mp hc with rfl | hc
      · simp [Lexer.isWordPart, h.1.1]
      · exact h.1.2 c hc
  · rw [piece, toList_toString h] at hc
    simp [Lexer.isWordPart, Nat.isDigit_of_mem_toDigits (by decide) (by decide) hc]
  · exact List.all_eq_true.mp (show "false".toList.all Lexer.isWordPart = true by decide) c hc
  · exact List.all_eq_true.mp (show "true".toList.all Lexer.isWordPart = true by decide) c hc

theorem Atom.chars_ne_nil (a : Atom) : a.piece.lexeme.toList ≠ [] := by
  rcases a with ⟨text, h⟩ | ⟨v, h⟩ | ⟨_ | _⟩
  · rintro hnil
    simp only [piece] at hnil
    simp [isName, hnil] at h
  · rw [piece, toList_toString h]
    exact Nat.toDigits_ne_nil
  · decide
  · decide

theorem Atom.plain (a : Atom) : Plain a.piece.lexeme.toList := by
  intro c hc
  have hpart := a.isWordPart_of_mem c hc
  constructor <;> rintro rfl <;> exact absurd hpart (by decide)

namespace Layout

theorem plain_symbol (op : BinaryOp) : Plain (' ' :: (op.symbol.toList ++ [' '])) := by
  cases op <;> simp [Plain, BinaryOp.symbol]

theorem balanced_chars (l : Layout) : Balanced l.chars := by
  induction l with
  | atom a => exact a.plain.balanced
  | group l ih => exact ih.between rfl rfl
  | binary op l r ihl ihr => exact ihl.append ((plain_symbol op).balanced.append ihr)

theorem length_pieces_le (l : Layout) : l.pieces.length ≤ l.chars.length := by
  induction l with
  | atom a => exact List.length_pos_iff.mpr a.chars_ne_nil
  | group l ih => simpa [pieces, chars] using ih
  | binary op l r ihl ihr =>
    simp only [pieces, chars, List.length_append, List.length_cons]
    omega

theorem drops_of_chars {l : Layout} {a b d : List Char} (h : l.chars = a ++ '(' :: (b ++ ')' :: d))
    (hb : Balanced b) : ∃ l', l.Drops l' ∧ l'.chars = a ++ (b ++ d) := by
  have hplain {cs us vs : List Char} (hcs : Plain cs) : cs ≠ us ++ '(' :: vs := by
    rintro rfl
    exact (hcs '(' (by simp)).1 rfl
  induction l generalizing a d with
  | atom x => exact absurd h (hplain x.plain)
  | group l ih =>
    cases a with
    | nil =>
      obtain ⟨rfl, -, rfl⟩ := closing_unique l.balanced_chars hb rfl rfl (List.cons.inj h).2
      exact ⟨l, .here, by simp⟩
    | cons c a =>
      obtain ⟨rfl, h'⟩ := List.cons.inj h
      rcases closed_inside l.balanced_chars hb h' with ⟨d', hl, rfl⟩ | ⟨a', -, hclose⟩
      · obtain ⟨l', hdrops, hl'⟩ := ih hl
        exact ⟨.group l', .inside hdrops, by simp [chars, hl']⟩
      · cases a' <;> simp at hclose
  | binary op l r ihl ihr =>
    rcases closed_inside l.balanced_chars hb h with ⟨d', hl, rfl⟩ | ⟨a', rfl, h'⟩
    · obtain ⟨l', hdrops, hl'⟩ := ihl hl
      exact ⟨.binary op l' r, .left hdrops, by simp [chars, hl']⟩
    · rcases closed_inside (plain_symbol op).balanced hb h' with ⟨d', hop, rfl⟩ | ⟨a'', rfl, hr⟩
      · exact absurd hop (hplain (plain_symbol op))
      · obtain ⟨r', hdrops, hr'⟩ := ihr hr
        exact ⟨.binary op l r', .right hdrops, by simp [chars, hr']⟩

end Layout

end Scripting

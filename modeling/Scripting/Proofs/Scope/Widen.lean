import Scripting.Proofs.Scope.Basic

/-!
# More slots

Code that uses the slots below some number works as well if slots from that number on are taken.
-/

namespace Scripting

variable {N C T W : Type}

/-- Slots that hold the same below the size of a region and perhaps more from there on. -/
structure Slots.Widens (R R' : Region) (σ τ : Slots) : Prop where
  free : R'.free = R.free
  size : R.size ≤ R'.size
  held : ∀ j b, σ j = some b → τ j = some b
  open_ : ∀ j < R.size, σ j = none → τ j = none

namespace Slots.Widens

variable {p : Program} {R R' : Region} {σ τ : Slots}

theorem add (h : Widens R R' σ τ) (b : BindingId) : Widens R R' (σ.add p b) (τ.add p b) where
  free := h.free
  size := h.size
  held j c hc := by
    rw [Slots.add] at hc ⊢
    split at hc
    case isTrue hj => rw [if_pos hj, hc]
    case isFalse hj => rw [if_neg hj, h.held j c hc]
  open_ j hj hn := by
    rw [Slots.add] at hn ⊢
    split at hn
    case isTrue => cases hn
    case isFalse hne => rw [if_neg hne, h.open_ j hj hn]

theorem fresh (h : Widens R R' σ τ) {b : BindingId} (hb : σ.Fresh p R b) : τ.Fresh p R' b := by
  intro hs
  obtain ⟨hsize, hnone, hfree⟩ := hb hs
  exact ⟨Nat.lt_of_lt_of_le hsize h.size, h.open_ _ hsize hnone, h.free ▸ hfree⟩

theorem reads (h : Widens R R' σ τ) {s : Slot} (hs : σ.Reads p R s) : τ.Reads p R' s := by
  rw [Slots.Reads] at hs ⊢
  split at hs
  · exact hs
  · exact h.held _ _ hs
  · exact ⟨hs.1, h.free ▸ hs.2⟩

theorem captures (h : Widens R R' σ τ) {v : FreeVar} (hv : σ.Captures p R v) :
    τ.Captures p R' v := by
  obtain ⟨hstorage, hcaptured, hplace⟩ := hv
  refine ⟨hstorage, hcaptured, ?_⟩
  split at hplace
  case isTrue hf =>
    rw [if_pos hf]
    exact h.held _ _ hplace
  case isFalse hf =>
    rw [if_neg hf, h.free]
    exact hplace

theorem names (h : Widens R R' σ τ) {info : FunSlots} (hi : σ.Names p R info) :
    τ.Names p R' info := by
  rw [Slots.Names] at hi ⊢
  split at hi
  · exact hi
  · obtain ⟨hfresh, hglobal, hfree⟩ := hi
    exact ⟨h.fresh hfresh, hglobal, fun v hv => (h.add _).captures (hfree v hv)⟩

mutual

theorem afterPattern : (q : Pattern (.slotted N C T W)) → {σ τ : Slots} → Widens R R' σ τ →
    Widens R R' (σ.afterPattern p q) (τ.afterPattern p q)
  | .bind _ b, _, _, h => h.add b
  | .ctor _ _ _ qs, _, _, h => afterPatterns qs h
  | .wildcard _, _, _, h | .literal .., _, _, h => h

theorem afterPatterns : (qs : List (Pattern (.slotted N C T W))) → {σ τ : Slots} →
    Widens R R' σ τ → Widens R R' (σ.afterPatterns p qs) (τ.afterPatterns p qs)
  | [], _, _, h => h
  | q :: qs, _, _, h => afterPatterns qs (afterPattern q h)

end

theorem afterStmt (h : Widens R R' σ τ) (s : Stmt (.slotted N C T W)) :
    Widens R R' (σ.afterStmt p s) (τ.afterStmt p s) := by
  cases s with
  | bind _ _ b => exact h.add b
  | func d =>
    rw [Slots.afterStmt, Slots.afterStmt]
    split
    · exact h.add _
    · exact h
  | _ => exact h

end Slots.Widens

namespace Scoped

variable {p : Program} {R R' : Region}

open Slots (Widens)

mutual

theorem expr_widen : (e : Expr (.slotted N C T W)) → {σ τ : Slots} → Widens R R' σ τ →
    expr p R σ e → expr p R' τ e
  | .name .., _, _, h, he => h.reads he
  | .int .., _, _, _, _ | .float .., _, _, _, _ | .string .., _, _, _, _ | .char .., _, _, _, _
  | .bool .., _, _, _, _ => trivial
  | .interpolated _ _ es, _, _, h, he | .array _ _ es, _, _, h, he => exprs_widen es h he
  | .unary _ _ _ e, _, _, h, he | .tryUnwrap _ _ e, _, _, h, he | .member _ _ e _, _, _, h, he =>
    expr_widen e h he
  | .binary _ _ _ l r, _, _, h, he | .assign _ _ l r, _, _, h, he | .index _ _ l r, _, _, h, he
  | .range _ _ l r, _, _, h, he => ⟨expr_widen l h he.1, expr_widen r h he.2⟩
  | .call _ _ _ f es, _, _, h, he => ⟨expr_widen f h he.1, exprs_widen es h he.2⟩
  | .new _ _ _ _ fs, _, _, h, he => inits_widen fs h he
  | .block b, _, _, h, he => block_widen b h he
  | .cond _ _ test body alt, _, _, h, he =>
    ⟨expr_widen test h he.1, block_widen body h he.2.1, option_widen alt h he.2.2⟩
  | .cases _ _ subject b as, _, _, h, he =>
    ⟨expr_widen subject h he.1, h.fresh he.2.1, arms_widen as (h.add b) he.2.2⟩

theorem exprs_widen : (es : List (Expr (.slotted N C T W))) → {σ τ : Slots} → Widens R R' σ τ →
    exprs p R σ es → exprs p R' τ es
  | [], _, _, _, _ => trivial
  | e :: es, _, _, h, he => ⟨expr_widen e h he.1, exprs_widen es h he.2⟩

theorem option_widen : (e : Option (Expr (.slotted N C T W))) → {σ τ : Slots} → Widens R R' σ τ →
    option p R σ e → option p R' τ e
  | none, _, _, _, _ => trivial
  | some e, _, _, h, he => expr_widen e h he

theorem inits_widen : (fs : List (FieldInit (.slotted N C T W))) → {σ τ : Slots} →
    Widens R R' σ τ → inits p R σ fs → inits p R' τ fs
  | [], _, _, _, _ => trivial
  | .mk _ _ e :: fs, _, _, h, he => ⟨expr_widen e h he.1, inits_widen fs h he.2⟩

theorem arms_widen : (as : List (Arm (.slotted N C T W))) → {σ τ : Slots} → Widens R R' σ τ →
    arms p R σ as → arms p R' τ as
  | [], _, _, _, _ => trivial
  | .mk _ q e :: as, _, _, h, he =>
    ⟨pattern_widen q h he.1, expr_widen e (.afterPattern q h) he.2.1, arms_widen as h he.2.2⟩

theorem pattern_widen : (q : Pattern (.slotted N C T W)) → {σ τ : Slots} → Widens R R' σ τ →
    pattern p R σ q → pattern p R' τ q
  | .wildcard _, _, _, _, _ => trivial
  | .literal _ e, _, _, h, he => expr_widen e h he
  | .bind _ _, _, _, h, he => h.fresh he
  | .ctor _ _ _ qs, _, _, h, he => patterns_widen qs h he

theorem patterns_widen : (qs : List (Pattern (.slotted N C T W))) → {σ τ : Slots} →
    Widens R R' σ τ → patterns p R σ qs → patterns p R' τ qs
  | [], _, _, _, _ => trivial
  | q :: qs, _, _, h, he => ⟨pattern_widen q h he.1, patterns_widen qs (.afterPattern q h) he.2⟩

theorem block_widen : (b : Block (.slotted N C T W)) → {σ τ : Slots} → Widens R R' σ τ →
    block p R σ b → block p R' τ b
  | .mk _ _ ss _, _, _, h, he => stmts_widen ss h he

theorem stmts_widen : (ss : List (Stmt (.slotted N C T W))) → {σ τ : Slots} → Widens R R' σ τ →
    stmts p R σ ss → stmts p R' τ ss
  | [], _, _, _, _ => trivial
  | s :: ss, _, _, h, he => ⟨stmt_widen s h he.1, stmts_widen ss (h.afterStmt s) he.2⟩

theorem stmt_widen : (s : Stmt (.slotted N C T W)) → {σ τ : Slots} → Widens R R' σ τ →
    stmt p R σ s → stmt p R' τ s
  | .expr _ e, _, _, h, he => expr_widen e h he
  | .block b, _, _, h, he => block_widen b h he
  | .bind _ _ _ _ e, _, _, h, he => ⟨expr_widen e h he.1, h.fresh he.2⟩
  | .ret _ e, _, _, h, he => option_widen e h he
  | .loop _ test b, _, _, h, he => ⟨expr_widen test h he.1, block_widen b h he.2⟩
  | .each _ _ l series b, _, _, h, he =>
    ⟨expr_widen series h he.1, expr_widen series (h.add l.index) he.2.1,
      ⟨h.fresh he.2.2.1.1, (h.add _).fresh he.2.2.1.2.1, ((h.add _).add _).fresh he.2.2.1.2.2⟩,
      block_widen b (((h.add _).add _).add _) he.2.2.2⟩
  | .func _, _, _, h, he => ⟨h.names he.1, he.2⟩
  | .impl .., _, _, _, he => he
  | .leave _, _, _, _, _ | .next _, _, _, _, _ | .record .., _, _, _, _ | .union .., _, _, _, _
  | .use .., _, _, _, _ => trivial

end

end Scoped

end Scripting

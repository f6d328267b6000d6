/-!
# Nesting

How many brackets are open behind a text of symbols, tokens or characters.
-/

namespace Scripting

class Nests (α : Type) where
  /-- The number of open brackets behind a symbol, if there are `n` in front of it and it closes none
  that is not open. -/
  shift : α → Nat → Option Nat
  /-- Further brackets that are open around do not matter. -/
  shift_add {a : α} {n m : Nat} (h : shift a n = some m) (d : Nat) : shift a (n + d) = some (m + d)

open Nests

variable {α : Type} [Nests α] {n m : Nat} {xs ys zs ws : List α} {x y : α}

/-- The number of open brackets behind some symbols, if there are `n` in front of them and none is closed
that is not open. -/
def heightAfter : Nat → List α → Option Nat
  | n, [] => some n
  | n, x :: xs => (shift x n).bind fun m => heightAfter m xs

/-- Every bracket is closed, and none that is not open. -/
def Balanced (xs : List α) : Prop := heightAfter 0 xs = some 0

@[simp] theorem heightAfter_nil (n : Nat) : heightAfter n ([] : List α) = some n := rfl

theorem heightAfter_append (n : Nat) (xs ys : List α) :
    heightAfter n (xs ++ ys) = (heightAfter n xs).bind fun m => heightAfter m ys := by
  induction xs generalizing n with
  | nil => rfl
  | cons x xs ih => cases h : shift x n <;> simp [heightAfter, h, ih]

theorem heightAfter_add (h : heightAfter n xs = some m) (d : Nat) :
    heightAfter (n + d) xs = some (m + d) := by
  induction xs generalizing n with
  | nil => simpa [heightAfter] using h
  | cons x xs ih =>
    obtain ⟨k, hk, hxs⟩ := Option.bind_eq_some_iff.mp h
    simp [heightAfter, shift_add hk d, ih hxs]

theorem heightAfter_of_plain (h : ∀ x ∈ xs, shift x n = some n) : heightAfter n xs = some n := by
  induction xs with
  | nil => rfl
  | cons x xs ih => simp [heightAfter, h x (.head _), ih fun y hy => h y (.tail _ hy)]

theorem Balanced.nil : Balanced ([] : List α) := rfl

theorem Balanced.append (hx : Balanced xs) (hy : Balanced ys) : Balanced (xs ++ ys) := by
  simp only [Balanced] at *
  rw [heightAfter_append, hx, Option.bind_some, hy]

theorem Balanced.between (hxs : Balanced xs) (hx : shift x 0 = some 1) (hy : shift y 1 = some 0) :
    Balanced (x :: (xs ++ [y])) := by
  have hinside : heightAfter 1 xs = some 1 := by simpa using heightAfter_add hxs 1
  simp [Balanced, heightAfter, hx, heightAfter_append, hinside, hy]

theorem not_balanced_of_closing (hxs : Balanced xs) (hx : shift x 0 = none) :
    ¬ Balanced (xs ++ x :: ys) := by
  simp only [Balanced] at *
  rw [heightAfter_append, hxs]
  simp [heightAfter, hx]

theorem not_balanced_of_opening (hx : ∀ n, shift x n = some (n + 1)) (h : Balanced (ys ++ zs)) :
    ¬ Balanced (xs ++ x :: ys) := by
  intro hbalanced
  simp only [Balanced, heightAfter_append] at h hbalanced
  obtain ⟨n, -, hn⟩ := Option.bind_eq_some_iff.mp hbalanced
  obtain ⟨k, hk, -⟩ := Option.bind_eq_some_iff.mp h
  have hheight := heightAfter_add hk (n + 1)
  rw [Nat.zero_add] at hheight
  simp [heightAfter, hx, hheight] at hn

theorem closing_unique (hxs : Balanced xs) (hys : Balanced ys) (hx : shift x 0 = none)
    (hy : shift y 0 = none) (h : xs ++ x :: zs = ys ++ y :: ws) : xs = ys ∧ x = y ∧ zs = ws := by
  rcases List.append_eq_append_iff.mp h with ⟨t, rfl, ht⟩ | ⟨t, rfl, ht⟩
  · cases t with
    | nil => simpa using ht
    | cons z t =>
      obtain ⟨rfl, -⟩ := List.cons.inj ht
      exact absurd hys (not_balanced_of_closing hxs hx)
  · cases t with
    | nil => simpa [eq_comm] using ht
    | cons z t =>
      obtain ⟨rfl, -⟩ := List.cons.inj ht
      exact absurd hxs (not_balanced_of_closing hys hy)

end Scripting

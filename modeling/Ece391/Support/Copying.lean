import Mathlib

/-! A block of cells copied upwards in pieces. Whatever the sizes of the pieces, together
they leave what one copy of the whole block would, as long as no piece writes to a cell
that a later one reads. -/

namespace Ece391.Support.Copying

open Function (update)

variable {α : Type*}

/-- The cells after the `n` cells from `src` on have been copied to `dst` all at once. -/
def copied (dst src n : ℕ) (mem : ℕ → α) : ℕ → α :=
  fun a => if dst ≤ a ∧ a < dst + n then mem (src + (a - dst)) else mem a

/-- The copy cell by cell, with the lowest first. -/
def copyUp : (dst src n : ℕ) → (mem : ℕ → α) → ℕ → α
  | _, _, 0, mem => mem
  | dst, src, n + 1, mem => copyUp (dst + 1) (src + 1) n (update mem dst (mem src))

/-- A copy that goes upwards reads every cell before it writes to it. -/
def Upwards (dst src n : ℕ) : Prop := dst ≤ src ∨ src + n ≤ dst

section Pieces
variable {dst src k n : ℕ}

theorem Upwards.tail (h : Upwards dst src (k + n)) : Upwards (dst + k) (src + k) n := by
  unfold Upwards at h ⊢
  omega

theorem copied_inside (mem : ℕ → α) {i : ℕ} (h : i < n) :
    copied dst src n mem (dst + i) = mem (src + i) := by
  rw [copied, if_pos (by omega), Nat.add_sub_cancel_left]

theorem copied_outside (mem : ℕ → α) {a : ℕ} (h : ¬ (dst ≤ a ∧ a < dst + n)) :
    copied dst src n mem a = mem a := if_neg h

theorem copied_zero (dst src : ℕ) (mem : ℕ → α) : copied dst src 0 mem = mem := by
  funext a
  exact copied_outside mem (by omega)

theorem copied_one (dst src : ℕ) (mem : ℕ → α) : copied dst src 1 mem = update mem dst (mem src) := by
  funext a
  by_cases ha : a = dst
  · subst ha
    rw [Function.update_self]
    exact copied_inside mem Nat.one_pos
  · rw [Function.update_of_ne ha]
    exact copied_outside mem (by omega)

/-- A copy of `k` cells and then of the `n` cells behind them. -/
theorem copied_add (h : Upwards dst src (k + n)) (mem : ℕ → α) :
    copied (dst + k) (src + k) n (copied dst src k mem) = copied dst src (k + n) mem := by
  funext a
  by_cases hhigh : dst + k ≤ a ∧ a < dst + k + n
  · obtain ⟨i, rfl⟩ := Nat.exists_eq_add_of_le hhigh.1
    -- the first piece has not written to what is read here
    have hread : ¬ (dst ≤ src + k + i ∧ src + k + i < dst + k) := by
      unfold Upwards at h
      omega
    calc copied (dst + k) (src + k) n (copied dst src k mem) (dst + k + i)
        = copied dst src k mem (src + k + i) := copied_inside _ (by omega)
      _ = mem (src + (k + i)) := by rw [copied_outside mem hread, Nat.add_assoc]
      _ = copied dst src (k + n) mem (dst + k + i) := by
        rw [Nat.add_assoc dst, copied_inside mem (by omega)]
  · rw [copied_outside _ hhigh]
    simp only [copied]
    congr 1
    simp only [eq_iff_iff]
    omega

theorem copyUp_eq (h : Upwards dst src n) (mem : ℕ → α) : copyUp dst src n mem = copied dst src n mem := by
  induction n generalizing dst src mem with
  | zero => exact (copied_zero dst src mem).symm
  | succ n ih =>
    rw [Nat.add_comm] at h
    rw [copyUp, ih h.tail, ← copied_one, copied_add h, Nat.add_comm]

end Pieces

end Ece391.Support.Copying

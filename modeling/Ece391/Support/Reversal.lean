import Mathlib

/-! Reversal in place: two indices walk towards each other and exchange what they find,
until they meet or pass. -/

namespace Ece391.Support.Reversal

open Function (update)

variable {α : Type*}

/-- The elements at two places exchanged. -/
def exchange (f : ℕ → α) (i j : ℕ) : ℕ → α := update (update f j (f i)) i (f j)

/-- The two indices from `lo` and `hi` on. They may start out of order, as on a stretch
without elements. -/
def walk : (fuel : ℕ) → (f : ℕ → α) → (lo hi : ℤ) → ℕ → α
  | 0, f, _, _ => f
  | fuel + 1, f, lo, hi =>
    if lo < hi then walk fuel (exchange f lo.toNat hi.toNat) (lo + 1) (hi - 1) else f

/-- The stretch from `lo` to `hi` in the opposite order. -/
def mirror (f : ℕ → α) (lo hi : ℤ) : ℕ → α :=
  fun k => if lo ≤ k ∧ k ≤ hi then f (lo + hi - k).toNat else f k

theorem mirror_short {f : ℕ → α} {lo hi : ℤ} (h : hi ≤ lo) : mirror f lo hi = f := by
  funext k
  unfold mirror
  split_ifs with hk
  · rw [show (lo + hi - k).toNat = k by omega]
  · rfl

/-- What is between the indices is as before, what they have passed is exchanged. -/
theorem mirror_exchange {f : ℕ → α} {lo hi : ℤ} (hlo : 0 ≤ lo) (h : lo < hi) :
    mirror (exchange f lo.toNat hi.toNat) (lo + 1) (hi - 1) = mirror f lo hi := by
  funext k
  have hplace : lo + 1 + (hi - 1) - k = lo + hi - k := by omega
  simp only [mirror, hplace]
  by_cases hklo : (k : ℤ) = lo
  · obtain rfl : k = lo.toNat := by omega
    rw [if_neg (by omega), if_pos (by omega), exchange, Function.update_self]
    congr 1
    omega
  by_cases hkhi : (k : ℤ) = hi
  · obtain rfl : k = hi.toNat := by omega
    rw [if_neg (by omega), if_pos (by omega), exchange, Function.update_of_ne (by omega),
      Function.update_self]
    congr 1
    omega
  by_cases hin : lo ≤ k ∧ k ≤ hi
  · rw [if_pos (by omega), if_pos hin, exchange, Function.update_of_ne (by omega),
      Function.update_of_ne (by omega)]
  · rw [if_neg (by omega), if_neg hin, exchange, Function.update_of_ne (by omega),
      Function.update_of_ne (by omega)]

/-- The walk reverses the stretch, once it may take enough steps. -/
theorem walk_eq_mirror (fuel : ℕ) (f : ℕ → α) {lo hi : ℤ} (hlo : 0 ≤ lo)
    (hfuel : hi - lo ≤ fuel) : walk fuel f lo hi = mirror f lo hi := by
  induction fuel generalizing f lo hi with
  | zero => exact (mirror_short (by omega)).symm
  | succ fuel ih =>
    rw [walk]
    split_ifs with h
    · rw [ih _ (by omega) (by omega), mirror_exchange hlo h]
    · exact (mirror_short (by omega)).symm

end Ece391.Support.Reversal

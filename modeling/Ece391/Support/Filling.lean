import Ece391.Support.Copying

/-! Machines that run until a state in which they stop, and blocks of cells that are
filled in pieces or copied downwards. The values of a filled block do not depend on the
cells, so its pieces fit together whatever they are; a copy downwards takes the last cell
first. -/

namespace Ece391.Support.Filling

open Function (update)
open Copying

section Machine
variable {σ : Type*}

/-- The state in which a machine stops, or `none` if `fuel` steps do not lead there. -/
def runTo (step : σ → σ) (stops : σ → Prop) [DecidablePred stops] : ℕ → σ → Option σ
  | 0, _ => none
  | fuel + 1, s => if stops s then some s else runTo step stops fuel (step s)

/-- A machine whose steps keep an invariant and come nearer to the end stops, and the
invariant holds where it does. -/
theorem runTo_of_measure (step : σ → σ) (stops : σ → Prop) [DecidablePred stops] (inv : σ → Prop) (way : σ → ℕ)
    (hstep : ∀ s, inv s → ¬ stops s → inv (step s) ∧ way (step s) < way s) {s : σ} (h : inv s) :
    ∃ s', stops s' ∧ inv s' ∧ ∀ fuel, way s < fuel → runTo step stops fuel s = some s' := by
  induction hn : way s using Nat.strong_induction_on generalizing s with
  | _ n ih =>
    by_cases hstops : stops s
    · refine ⟨s, hstops, h, fun fuel hfuel => ?_⟩
      obtain ⟨fuel, rfl⟩ := Nat.exists_eq_add_of_le' (Nat.one_le_of_lt hfuel)
      exact if_pos hstops
    · obtain ⟨hinv, hless⟩ := hstep s h hstops
      obtain ⟨s', hs', hinv', hrun⟩ := ih (way (step s)) (hn ▸ hless) hinv rfl
      refine ⟨s', hs', hinv', fun fuel hfuel => ?_⟩
      obtain ⟨fuel, rfl⟩ := Nat.exists_eq_add_of_le' (Nat.one_le_of_lt hfuel)
      rw [runTo, if_neg hstops]
      exact hrun fuel (by omega)

end Machine

section Fill
variable {α : Type*} {dst k n : ℕ}

/-- The cells after `n` of them from `dst` on have taken the values `f 0`, `f 1`, ... -/
def filled (dst n : ℕ) (f : ℕ → α) (mem : ℕ → α) : ℕ → α :=
  fun a => if dst ≤ a ∧ a < dst + n then f (a - dst) else mem a

theorem filled_inside (f : ℕ → α) (mem : ℕ → α) {i : ℕ} (h : i < n) :
    filled dst n f mem (dst + i) = f i := by
  rw [filled, if_pos (by omega), Nat.add_sub_cancel_left]

theorem filled_outside (f : ℕ → α) (mem : ℕ → α) {a : ℕ} (h : ¬ (dst ≤ a ∧ a < dst + n)) :
    filled dst n f mem a = mem a := if_neg h

theorem filled_congr {f g : ℕ → α} (h : ∀ i < n, f i = g i) (mem : ℕ → α) :
    filled dst n f mem = filled dst n g mem := by
  funext a
  by_cases ha : dst ≤ a ∧ a < dst + n
  · obtain ⟨i, rfl⟩ := Nat.exists_eq_add_of_le ha.1
    have hi : i < n := by omega
    rw [filled_inside _ _ hi, filled_inside _ _ hi, h i hi]
  · rw [filled_outside _ _ ha, filled_outside _ _ ha]

theorem filled_zero (f : ℕ → α) (mem : ℕ → α) : filled dst 0 f mem = mem := by
  funext a
  exact filled_outside f mem (by omega)

theorem filled_one (f : ℕ → α) (mem : ℕ → α) : filled dst 1 f mem = update mem dst (f 0) := by
  funext a
  by_cases ha : a = dst
  · subst ha
    rw [Function.update_self]
    exact filled_inside f mem Nat.one_pos
  · rw [Function.update_of_ne ha]
    exact filled_outside f mem (by omega)

/-- A piece of `k` cells and then the `n` cells behind them. -/
theorem filled_add (f : ℕ → α) (mem : ℕ → α) :
    filled (dst + k) n (fun i => f (k + i)) (filled dst k f mem) = filled dst (k + n) f mem := by
  funext a
  by_cases hhigh : dst + k ≤ a ∧ a < dst + k + n
  · obtain ⟨i, rfl⟩ := Nat.exists_eq_add_of_le hhigh.1
    rw [filled_inside _ _ (by omega), Nat.add_assoc, filled_inside _ _ (by omega)]
  · rw [filled_outside _ _ hhigh]
    simp only [filled]
    congr 1
    simp only [eq_iff_iff]
    omega

end Fill

section Down
variable {α : Type*} {dst src n : ℕ}

/-- A copy that takes the last cell first reads every cell before it writes to it. -/
def Downwards (dst src n : ℕ) : Prop := src ≤ dst ∨ dst + n ≤ src

theorem Downwards.init (h : Downwards dst src (n + 1)) : Downwards dst src n := by
  unfold Downwards at h ⊢
  omega

/-- The last cell and then the cells before it. -/
theorem copied_last (h : Downwards dst src (n + 1)) (mem : ℕ → α) :
    copied dst src n (update mem (dst + n) (mem (src + n))) = copied dst src (n + 1) mem := by
  funext a
  by_cases ha : dst ≤ a ∧ a < dst + n
  · obtain ⟨i, rfl⟩ := Nat.exists_eq_add_of_le ha.1
    -- the last cell is not among those that are still to be read
    have hread : src + i ≠ dst + n := by
      unfold Downwards at h
      omega
    rw [copied_inside _ (by omega), Function.update_of_ne hread, copied_inside _ (by omega)]
  · rw [copied_outside _ ha]
    by_cases hlast : a = dst + n
    · subst hlast
      rw [Function.update_self, copied_inside _ (by omega)]
    · rw [Function.update_of_ne hlast, copied_outside _ (by omega)]

end Down

end Ece391.Support.Filling

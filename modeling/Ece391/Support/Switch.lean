import Mathlib

/-! A switch that is turned over by a clock. It stays on for one number of ticks and off for
another, and where it stands is read off the number of ticks since it was turned on. -/

namespace Ece391.Support

/-- The switch, and the ticks until it turns. -/
structure Switch where
  on : Bool
  left : ℕ

namespace Switch
variable {a b : ℕ}

/-- It turned on just now, for `a` ticks. -/
abbrev start (a : ℕ) : Switch := ⟨true, a⟩

/-- A tick; the switch stays on for `a` of them and off for `b`. -/
def tick (a b : ℕ) (s : Switch) : Switch :=
  if 1 < s.left then { s with left := s.left - 1 } else ⟨!s.on, if s.on then b else a⟩

/-- The switch `i` ticks into a period. -/
def within (a b i : ℕ) : Switch := if i < a then ⟨true, a - i⟩ else ⟨false, a + b - i⟩

section Period
variable (ha : 0 < a) (hb : 0 < b)
include ha hb

theorem tick_within {i : ℕ} (hi : i < a + b) :
    (within a b i).tick a b = within a b ((i + 1) % (a + b)) := by
  simp only [within]
  by_cases hon : i < a
  · have hmod : (i + 1) % (a + b) = i + 1 := Nat.mod_eq_of_lt (by omega)
    rw [if_pos hon, tick, hmod]
    by_cases hmore : i + 1 < a
    · rw [if_pos (by dsimp only; omega), if_pos hmore, Nat.sub_sub]
    · have hturn : a + b - (i + 1) = b := by omega
      rw [if_neg (by dsimp only; omega), if_neg hmore, hturn]
      rfl
  · rw [if_neg hon, tick]
    by_cases hmore : i + 1 < a + b
    · have hmod : (i + 1) % (a + b) = i + 1 := Nat.mod_eq_of_lt hmore
      rw [hmod, if_pos (by dsimp only; omega), if_neg (by omega), Nat.sub_sub]
    · have hlast : i + 1 = a + b := by omega
      rw [hlast, Nat.mod_self, if_neg (by dsimp only; omega), if_pos ha]
      rfl

/-- The switch any number of ticks after it turned on. -/
theorem iterate_tick (n : ℕ) : (tick a b)^[n] (start a) = within a b (n % (a + b)) := by
  induction n with
  | zero =>
    rw [Nat.zero_mod, within, if_pos ha]
    rfl
  | succ n ih =>
    have hlt : n % (a + b) < a + b := Nat.mod_lt n (by omega)
    rw [Function.iterate_succ_apply', ih, tick_within ha hb hlt, Nat.mod_add_mod]

theorem on_iterate_tick (n : ℕ) : ((tick a b)^[n] (start a)).on = decide (n % (a + b) < a) := by
  rw [iterate_tick ha hb, within]
  split_ifs with hon
  · exact (decide_eq_true hon).symm
  · exact (decide_eq_false hon).symm

end Period

end Switch

end Ece391.Support

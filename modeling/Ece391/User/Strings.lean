import Ece391.Lib.Numbers
import Ece391.Support.Copying

/-! The string routines of the user library that read and write through moving pointers. -/

namespace Ece391.User

open Function (update)
open Lib Support.Copying

/-- `ece391_strcpy` inside one memory, or `none` if no terminator comes within `fuel` bytes. -/
def ece391Strcpy : (fuel dst src : ℕ) → (mem : ℕ → UInt8) → Option (ℕ → UInt8)
  | 0, _, _, _ => none
  | fuel + 1, dst, src, mem =>
    if mem src ≠ 0 then ece391Strcpy fuel (dst + 1) (src + 1) (update mem dst (mem src))
    else some (update mem dst (mem src))

/-- The loop of `ece391_strncmp` from index `i` with `n` bytes to go. The bytes are
unsigned. -/
def ece391StrncmpFrom (s1 s2 : ℕ → UInt8) : (i n : ℕ) → ℤ
  | _, 0 => 0
  | i, n + 1 =>
    if s1 i = s2 i then
      if s1 i = 0 ∨ n = 0 then 0 else ece391StrncmpFrom s1 s2 (i + 1) n
    else (s1 i).toNat - (s2 i).toNat

/-- `ece391_strncmp`. -/
def ece391Strncmp (s1 s2 : ℕ → UInt8) (n : ℕ) : ℤ :=
  if n = 0 then 0 else ece391StrncmpFrom s1 s2 0 n

/-- `ece391_strcmp` from index `i` on. -/
def ece391Strcmp (s1 s2 : ℕ → UInt8) : (fuel i : ℕ) → Option ℤ
  | 0, _ => none
  | fuel + 1, i =>
    if s1 i = s2 i then
      if s1 i = 0 then some 0 else ece391Strcmp s1 s2 fuel (i + 1)
    else some ((s1 i).toNat - (s2 i).toNat)

/-- The bytes that `ece391_fdputs` hands to `ece391_write`. -/
def ece391Fdputs (fuel : ℕ) (mem : ℕ → UInt8) (s : ℕ) : Option (List UInt8) :=
  (ece391StrlenFrom mem fuel s 0).map fun len => (List.range len).map fun i => mem (s + i)

section Routines
variable {mem : ℕ → UInt8} {dst src k fuel : ℕ}

/-- A string is copied downwards with its terminator, also onto itself. -/
theorem ece391Strcpy_eq (hsrc : ∀ i < k, mem (src + i) ≠ 0) (hend : mem (src + k) = 0)
    (hdown : dst ≤ src) (hfuel : k < fuel) :
    ece391Strcpy fuel dst src mem = some (copied dst src (k + 1) mem) := by
  suffices h : ece391Strcpy fuel dst src mem = some (copyUp dst src (k + 1) mem) by
    rw [h, copyUp_eq (.inl hdown)]
  induction k generalizing fuel dst src mem with
  | zero =>
    obtain ⟨fuel, rfl⟩ := Nat.exists_eq_add_of_le' hfuel
    rw [Nat.add_zero] at hend
    rw [ece391Strcpy, if_neg (not_not.mpr hend)]
    rfl
  | succ k ih =>
    obtain ⟨fuel, rfl⟩ := Nat.exists_eq_add_of_le' (Nat.one_le_of_lt hfuel)
    -- what has been stored lies below what is still to be read
    have hread : ∀ i, update mem dst (mem src) (src + 1 + i) = mem (src + (i + 1)) := fun i => by
      rw [Function.update_of_ne (by omega), Nat.add_assoc, Nat.add_comm 1]
    have hrest := ih (fun i hi => hread i ▸ hsrc (i + 1) (by omega)) ((hread k).trans hend)
      (Nat.succ_le_succ hdown) (show k < fuel by omega)
    have hne : mem src ≠ 0 := hsrc 0 (by omega)
    rw [ece391Strcpy, if_pos hne, hrest]
    rfl

/-- The loop finds no difference where that of the kernel finds none, though its bytes are
unsigned. -/
theorem ece391StrncmpFrom_eq_zero (s1 s2 : ℕ → UInt8) (i n : ℕ) :
    ece391StrncmpFrom s1 s2 i n = 0 ↔ strncmpFrom s1 s2 i n = 0 := by
  induction n generalizing i with
  | zero => rfl
  | succ n ih =>
    rw [ece391StrncmpFrom, strncmpFrom]
    by_cases hi : s1 i = s2 i
    · rw [if_pos hi]
      by_cases hend : s1 i = 0
      · rw [if_pos (.inl hend), if_pos (.inr hend), char_sub_eq_zero]
        exact iff_of_true rfl hi
      · have hgo : ¬ (s1 i ≠ s2 i ∨ s1 i = 0) := not_or.mpr ⟨not_not.mpr hi, hend⟩
        rw [if_neg hgo]
        cases n with
        | zero => simp [strncmpFrom]
        | succ n => rw [if_neg (by simp [hend]), ih]
    · have hsub : ((s1 i).toNat : ℤ) - (s2 i).toNat = 0 ↔ s1 i = s2 i := by
        rw [sub_eq_zero, Nat.cast_inj, UInt8.toNat_inj]
      rw [if_neg hi, if_pos (.inl hi), hsub, char_sub_eq_zero]

theorem ece391Strncmp_eq_zero {s1 s2 : ℕ → UInt8} {n : ℕ} (h : ∀ j < n, s2 j ≠ 0) :
    ece391Strncmp s1 s2 n = 0 ↔ ∀ j < n, s1 j = s2 j := by
  rw [ece391Strncmp]
  split_ifs with hn
  · simp [hn]
  · have hne : ∀ j < n, s2 (0 + j) ≠ 0 := fun j hj => (Nat.zero_add j).symm ▸ h j hj
    rw [ece391StrncmpFrom_eq_zero, strncmpFrom_memory s1 s2 0 n hne]
    simp only [Nat.zero_add]

/-- The strings that `ece391_strcmp` finds equal from index `i` on, if they are up to there. -/
theorem ece391Strcmp_from {s t : CString} (h : Holds mem 0 s) {i : ℕ} (hs : i ≤ s.bytes.length)
    (ht : i ≤ t.bytes.length) (hsame : s.bytes.take i = t.bytes.take i)
    (hfuel : t.bytes.length < fuel + i) :
    ∃ d, ece391Strcmp mem t.mem fuel i = some d ∧ (d = 0 ↔ s = t) := by
  induction fuel generalizing i with
  | zero => omega
  | succ fuel ih =>
    have hmem : mem i = s.mem i := by simpa using h i hs
    rw [ece391Strcmp, hmem]
    by_cases hi : s.mem i = t.mem i
    · rw [if_pos hi]
      by_cases hend : s.mem i = 0
      · have hs' : i = s.bytes.length := le_antisymm hs (not_lt.mp fun hlt => CString.mem_ne_zero hlt hend)
        have ht' : i = t.bytes.length :=
          le_antisymm ht (not_lt.mp fun hlt => CString.mem_ne_zero hlt (hi ▸ hend))
        rw [if_pos hend]
        refine ⟨0, rfl, iff_of_true rfl (CString.ext ?_)⟩
        rwa [List.take_of_length_le hs'.ge, List.take_of_length_le ht'.ge] at hsame
      · have hs' : i < s.bytes.length := lt_of_le_of_ne hs fun heq => hend (heq ▸ s.mem_end)
        have ht' : i < t.bytes.length := lt_of_le_of_ne ht fun heq => hend (hi.trans (heq ▸ t.mem_end))
        rw [if_neg hend]
        refine ih hs' ht' ?_ (by omega)
        rw [List.take_add_one, List.take_add_one, hsame, List.getElem?_eq_getElem hs',
          List.getElem?_eq_getElem ht', ← CString.mem_lt hs', ← CString.mem_lt ht', hi]
    · rw [if_neg hi]
      refine ⟨_, rfl, iff_of_false (fun hd => hi ?_) fun heq => hi (heq ▸ rfl)⟩
      rwa [sub_eq_zero, Nat.cast_inj, UInt8.toNat_inj] at hd

theorem ece391Strcmp_holds {s t : CString} (h : Holds mem 0 s) (hfuel : t.bytes.length < fuel) :
    ∃ d, ece391Strcmp mem t.mem fuel 0 = some d ∧ (d = 0 ↔ s = t) :=
  ece391Strcmp_from h (Nat.zero_le _) (Nat.zero_le _) rfl hfuel

theorem ece391StrlenFrom_holds {p : ℕ} {t : CString} (h : Holds mem p t)
    (hfuel : t.bytes.length < fuel) : ece391StrlenFrom mem fuel p 0 = some t.bytes.length := by
  have hshift : Holds (fun i => mem (p + i)) 0 t := fun i hi => by
    rw [Nat.zero_add]
    exact h i hi
  exact (ece391StrlenFrom_eq mem p fuel 0).trans (strlenFrom_holds hshift (Nat.zero_le _) (by omega))

/-- A string in memory is printed up to its terminator. -/
theorem ece391Fdputs_holds {p : ℕ} {t : CString} (h : Holds mem p t) (hfuel : t.bytes.length < fuel) :
    ece391Fdputs fuel mem p = some t.bytes := by
  rw [ece391Fdputs, ece391StrlenFrom_holds h hfuel, Option.map_some, Option.some.injEq]
  apply List.ext_getElem
  · simp
  · intro i hi hi'
    rw [List.getElem_map, List.getElem_range, h i hi'.le, CString.mem_lt hi']

end Routines

end Ece391.User

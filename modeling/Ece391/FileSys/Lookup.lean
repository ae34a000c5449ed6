import Ece391.FileSys.Image

/-! The two lookups of `file_sys.c`. By index the directory ends at
`dir_entry_num_`; by name the search runs over all 62 slots of the boot block,
live or not. The name comparison itself is exact, for names of every length. -/

namespace Ece391.FileSys

open Lib

/-- The 33 bytes of `temp` in the search loop: the name field and a terminator. -/
def tempName (d : Dentry) : List UInt8 := strncpy (bufMem d.fileName.toList) 32 ++ [0]

/-- `read_dentry_by_name`; `none` is `FAILURE`. -/
def readDentryByName (img : Image) (fname : CString) : Option Dentry :=
  if strncmp fname.mem period.mem 32 = 0 then some img.bootBlock.dirDentry
  else
    ((List.range fileNum).find? fun i =>
      strncmp (bufMem (tempName (img.bootBlock.dentry i))) fname.mem 33 = 0).map
      img.bootBlock.dentry

/-- `read_dentry_by_index`; `none` is `FAILURE`. -/
def readDentryByIndex (img : Image) (index : ℕ) : Option Dentry :=
  if img.bootBlock.fileStat.dirEntryNum ≤ index then none
  else if index = 0 then some img.bootBlock.dirDentry
  else some (img.bootBlock.dentry (index - 1))

theorem period_compare (f : CString) : strncmp f.mem period.mem 32 = 0 ↔ f = period :=
  strncmp_eq_zero_of_lt_right f period (by decide)

theorem tempName_mem (d : Dentry) : bufMem (tempName d) = d.name.mem := by
  have h := strncpy_eq d.fileName.toList
  rw [Vector.length_toList] at h
  rw [tempName, h, List.append_assoc, ← List.replicate_succ']
  exact bufMem_padded d.name _

/-- The bounded copy and the 33-byte comparison decide equality of names. -/
theorem name_compare (d : Dentry) (f : CString) :
    strncmp (bufMem (tempName d)) f.mem 33 = 0 ↔ d.name = f := by
  rw [tempName_mem]
  exact strncmp_eq_zero_of_lt_left d.name f (by have := d.name_length; omega)

theorem readDentryByName_period (img : Image) :
    readDentryByName img period = some img.bootBlock.dirDentry := by
  rw [readDentryByName, if_pos ((period_compare _).mpr rfl)]

/-- A name other than "." finds the first of the 62 slots that carries it. -/
theorem readDentryByName_eq_some {img : Image} {f : CString} (hf : f ≠ period) {d : Dentry} :
    readDentryByName img f = some d ↔ ∃ i < fileNum, img.bootBlock.dentry i = d ∧ d.name = f ∧
      ∀ j < i, (img.bootBlock.dentry j).name ≠ f := by
  rw [readDentryByName, if_neg (mt (period_compare f).mp hf), Option.map_eq_some_iff]
  constructor
  · rintro ⟨i, hi, rfl⟩
    obtain ⟨hp, hlt, hj⟩ := List.find?_range_eq_some.mp hi
    refine ⟨i, by simpa using hlt, rfl, (name_compare _ _).mp (by simpa using hp), fun j h => ?_⟩
    exact mt (name_compare _ _).mpr (by simpa using hj j h)
  · rintro ⟨i, hi, rfl, hn, hj⟩
    refine ⟨i, List.find?_range_eq_some.mpr ⟨?_, by simpa using hi, fun j h => ?_⟩, rfl⟩
    · simpa using (name_compare _ _).mpr hn
    · simpa using mt (name_compare _ _).mp (hj j h)

theorem readDentryByIndex_succ (img : Image) (k : ℕ) :
    readDentryByIndex img (k + 1) =
      if img.bootBlock.fileStat.dirEntryNum ≤ k + 1 then none else some (img.bootBlock.dentry k) := by
  simp [readDentryByIndex]

/-- Lookup by name finds the entry of the smallest index below `dir_entry_num_`
that carries the name, and fails when there is none. -/
def LookupAgrees (img : Image) (f : CString) : Prop :=
  ∀ d, readDentryByName img f = some d ↔
    ∃ k < img.bootBlock.fileStat.dirEntryNum, readDentryByIndex img k = some d ∧ d.name = f ∧
      ∀ j < k, ∀ d', readDentryByIndex img j = some d' → d'.name ≠ f

section Agreement
variable {img : Image} {f : CString} (hdot : img.bootBlock.dirDentry.name = period)
include hdot

/-- A name other than "." is first met by index at one of the live slots. -/
theorem first_index_iff (hf : f ≠ period) {d : Dentry} :
    (∃ k < img.bootBlock.fileStat.dirEntryNum, readDentryByIndex img k = some d ∧ d.name = f ∧
      ∀ j < k, ∀ d', readDentryByIndex img j = some d' → d'.name ≠ f) ↔
    ∃ i, i + 1 < img.bootBlock.fileStat.dirEntryNum ∧ img.bootBlock.dentry i = d ∧ d.name = f ∧
      ∀ j < i, (img.bootBlock.dentry j).name ≠ f := by
  constructor
  · rintro ⟨k, hk, hd, hn, hj⟩
    cases k with
    | zero =>
      obtain rfl : img.bootBlock.dirDentry = d := by
        simpa [readDentryByIndex, Nat.not_le.mpr hk] using hd
      exact absurd (hn.symm.trans hdot) hf
    | succ i =>
      rw [readDentryByIndex_succ, if_neg (by omega)] at hd
      refine ⟨i, hk, Option.some.inj hd, hn, fun j hji => hj (j + 1) (by omega) _ ?_⟩
      rw [readDentryByIndex_succ, if_neg (by omega)]
  · rintro ⟨i, hi, rfl, hn, hj⟩
    refine ⟨i + 1, hi, by rw [readDentryByIndex_succ, if_neg (by omega)], hn, fun j hji d' hd' => ?_⟩
    cases j with
    | zero =>
      obtain rfl : img.bootBlock.dirDentry = d' := by
        simpa [readDentryByIndex, show ¬ img.bootBlock.fileStat.dirEntryNum ≤ 0 by omega] using hd'
      exact fun h => hf (h.symm.trans hdot)
    | succ j =>
      rw [readDentryByIndex_succ, if_neg (by omega)] at hd'
      obtain rfl := Option.some.inj hd'
      exact hj j (by omega)

theorem lookupAgrees_period (h1 : 1 ≤ img.bootBlock.fileStat.dirEntryNum) :
    LookupAgrees img period := by
  intro d
  have h0 : readDentryByIndex img 0 = some img.bootBlock.dirDentry := by
    simp [readDentryByIndex, show ¬ img.bootBlock.fileStat.dirEntryNum ≤ 0 by omega]
  rw [readDentryByName_period]
  constructor
  · intro h
    obtain rfl := Option.some.inj h
    exact ⟨0, h1, h0, hdot, fun j hj => absurd hj (by omega)⟩
  · rintro ⟨k, -, hd, -, hj⟩
    cases k with
    | zero => exact h0.symm.trans hd
    | succ k => exact absurd hdot (hj 0 (by omega) _ h0)

/-- The two lookups agree on a name exactly when it is "." or the name of a live
entry, or no slot behind the directory carries it. -/
theorem lookup_agrees_iff (h1 : 1 ≤ img.bootBlock.fileStat.dirEntryNum)
    (h63 : img.bootBlock.fileStat.dirEntryNum ≤ 63) :
    LookupAgrees img f ↔ f = period ∨
      (∃ i, i + 1 < img.bootBlock.fileStat.dirEntryNum ∧ (img.bootBlock.dentry i).name = f) ∨
      ∀ i, img.bootBlock.fileStat.dirEntryNum ≤ i + 1 → i < fileNum →
        (img.bootBlock.dentry i).name ≠ f := by
  by_cases hf : f = period
  · subst hf
    exact ⟨fun _ => Or.inl rfl, fun _ => lookupAgrees_period hdot h1⟩
  have hagree : LookupAgrees img f ↔ ∀ d,
      (∃ i < fileNum, img.bootBlock.dentry i = d ∧ d.name = f ∧
        ∀ j < i, (img.bootBlock.dentry j).name ≠ f) ↔
      ∃ i, i + 1 < img.bootBlock.fileStat.dirEntryNum ∧ img.bootBlock.dentry i = d ∧ d.name = f ∧
        ∀ j < i, (img.bootBlock.dentry j).name ≠ f :=
    forall_congr' fun d => iff_congr (readDentryByName_eq_some hf) (first_index_iff hdot hf)
  rw [hagree]
  constructor
  · intro h
    refine Or.inr (or_iff_not_imp_left.mpr fun hlive i hi hlt hname => hlive ?_)
    -- the first slot with this name is found, so it has to be a live one
    have hex : ∃ i, (img.bootBlock.dentry i).name = f := ⟨i, hname⟩
    have hle : Nat.find hex ≤ i := Nat.find_min' hex hname
    obtain ⟨k, hk, he, hn, -⟩ := (h _).mp ⟨Nat.find hex, by omega, rfl, Nat.find_spec hex,
      fun j hj => Nat.find_min hex hj⟩
    exact ⟨k, hk, by rw [he]; exact hn⟩
  · rintro (h | h | h) d
    · exact absurd h hf
    · obtain ⟨i₁, hi₁, hn₁⟩ := h
      constructor
      · rintro ⟨i, -, hd, hn, hj⟩
        have : i ≤ i₁ := by
          by_contra hlt
          exact hj i₁ (by omega) hn₁
        exact ⟨i, by omega, hd, hn, hj⟩
      · rintro ⟨i, hi, hd, hn, hj⟩
        exact ⟨i, by simp only [fileNum]; omega, hd, hn, hj⟩
    · constructor
      · rintro ⟨i, hi, rfl, hn, hj⟩
        exact ⟨i, by by_contra hlt; exact h i (by omega) hi hn, rfl, hn, hj⟩
      · rintro ⟨i, hi, hd, hn, hj⟩
        exact ⟨i, by simp only [fileNum]; omega, hd, hn, hj⟩

end Agreement

def nameA : CString := ⟨[0x61], CString.noNul_of_all rfl⟩
def nameB : CString := ⟨[0x62], CString.noNul_of_all rfl⟩

/-- A directory of "." and "a" with a left-over "b" in the next slot. -/
def staleImage : Image := toyImage 2 [[0x61], [0x62]]

theorem lookup_agrees_iff_stale_a : LookupAgrees staleImage nameA :=
  (lookup_agrees_iff (by decide) (by decide) (by decide)).mpr
    (Or.inr (Or.inl ⟨0, by decide, by decide⟩))

/-- Looking up "b" finds the left-over slot although no index below
`dir_entry_num_` has that name. -/
theorem lookup_disagrees_stale_b :
    1 ≤ staleImage.bootBlock.fileStat.dirEntryNum ∧ staleImage.bootBlock.fileStat.dirEntryNum ≤ 63 ∧
      staleImage.bootBlock.dirDentry.name = period ∧ ¬ LookupAgrees staleImage nameB := by
  refine ⟨by decide, by decide, by decide, fun h => ?_⟩
  obtain ⟨k, hk, hd, -⟩ := (h (Dentry.regular [0x62] 1)).mp (by decide)
  have hk2 : k < 2 := hk
  interval_cases k <;> revert hd <;> decide

end Ece391.FileSys

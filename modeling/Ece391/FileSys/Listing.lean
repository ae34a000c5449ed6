import Ece391.FileSys.Directory

/-! A listing against the two lookups. The three functions count the same table from
three places: the listing from -1, the lookup by index with "." as entry 0, and the
lookup by name from the first slot behind it. -/

namespace Ece391.FileSys

open Lib

/-- `directory_index` before the `m`-th of consecutive calls of `dir_read` from -1. -/
def indexAt (img : Image) : ℕ → ℤ
  | 0 => -1
  | m + 1 => (dirRead img (indexAt img m) true).directoryIndex

theorem take_tempName_nul (d : Dentry) :
    (tempName d).take (d.name.bytes.length + 1) = d.name.bytes ++ [0] := by
  obtain ⟨n, h⟩ := tempName_padded d
  rw [h, List.replicate_succ, List.take_length_add_append]
  rfl

section Listing
variable {img : Image} (hdot : img.bootBlock.dirDentry.name = period)
  (hint : img.bootBlock.fileStat.dirEntryNum < 2 ^ 31)
include hint

include hdot in
/-- The name of an entry goes to the buffer with its terminator. -/
theorem dirRead_stored {m : ℕ} (hm : m < img.bootBlock.fileStat.dirEntryNum) :
    (dirRead img (m - 1) true).stored.take ((entryName img m).bytes.length + 1) =
      (entryName img m).bytes ++ [0] := by
  have hnot : ¬ ((img.bootBlock.fileStat.dirEntryNum : ℤ) - 1 ≤ m - 1) := by omega
  simp only [dirRead, numFile_eq hint, hnot, Bool.true_eq_false, if_false]
  cases m with
  | zero => simp [entryName, hdot, strcpy, period]
  | succ k =>
    have hk : ((k + 1 : ℕ) : ℤ) - 1 ≠ -1 := by omega
    simp only [hk, if_false, entryName]
    rw [show (((k + 1 : ℕ) : ℤ) - 1).toNat = k by omega]
    exact take_tempName_nul _

include hdot in
theorem indexAt_eq (m : ℕ) :
    indexAt img m + 1 = (m % (img.bootBlock.fileStat.dirEntryNum + 1) : ℕ) := by
  induction m with
  | zero => simp [indexAt]
  | succ m ih => exact dirRead_next hdot hint ih

end Listing

/-- A live name other than "." leads back to its own entry. -/
theorem readDentryByName_dentry {img : Image} {i : ℕ}
    (h63 : img.bootBlock.fileStat.dirEntryNum ≤ 63) (hi : i + 1 < img.bootBlock.fileStat.dirEntryNum)
    (hper : (img.bootBlock.dentry i).name ≠ period)
    (hfirst : ∀ j < i, (img.bootBlock.dentry j).name ≠ (img.bootBlock.dentry i).name) :
    readDentryByName img (img.bootBlock.dentry i).name = some (img.bootBlock.dentry i) := by
  apply (readDentryByName_eq_some hper).mpr
  exact ⟨i, by simp only [fileNum]; omega, rfl, rfl, hfirst⟩

/-- From the start of a directory, consecutive calls of `dir_read` deliver the names of
the entries in the order of `read_dentry_by_index`, then 0, and then begin again; each
name leads `read_dentry_by_name` back to its entry. -/
theorem listing_agrees_lookup (img : Image) (h1 : 1 ≤ img.bootBlock.fileStat.dirEntryNum)
    (h63 : img.bootBlock.fileStat.dirEntryNum ≤ 63) (hdot : img.bootBlock.dirDentry.name = period)
    (hempty : ∀ i, i + 1 < img.bootBlock.fileStat.dirEntryNum →
      (img.bootBlock.dentry i).name.bytes ≠ [])
    (hper : ∀ i, i + 1 < img.bootBlock.fileStat.dirEntryNum →
      (img.bootBlock.dentry i).name ≠ period)
    (hdist : ∀ i j, i + 1 < img.bootBlock.fileStat.dirEntryNum →
      j + 1 < img.bootBlock.fileStat.dirEntryNum →
      (img.bootBlock.dentry i).name = (img.bootBlock.dentry j).name → i = j) (m : ℕ) :
    (m % (img.bootBlock.fileStat.dirEntryNum + 1) < img.bootBlock.fileStat.dirEntryNum →
      ∃ d, readDentryByIndex img (m % (img.bootBlock.fileStat.dirEntryNum + 1)) = some d ∧
        1 ≤ d.name.bytes.length ∧ d.name.bytes.length ≤ 32 ∧
        (dirRead img (indexAt img m) true).ret = d.name.bytes.length ∧
        (dirRead img (indexAt img m) true).stored.take (d.name.bytes.length + 1) =
          d.name.bytes ++ [0] ∧
        readDentryByName img d.name = some d) ∧
    (m % (img.bootBlock.fileStat.dirEntryNum + 1) = img.bootBlock.fileStat.dirEntryNum →
      (dirRead img (indexAt img m) true).ret = 0) := by
  have hint : img.bootBlock.fileStat.dirEntryNum < 2 ^ 31 := by omega
  have hindex := indexAt_eq hdot hint m
  generalize m % (img.bootBlock.fileStat.dirEntryNum + 1) = k at hindex
  rw [show indexAt img m = (k : ℤ) - 1 by omega]
  constructor
  · intro hk
    have hret := (dirRead_entry hdot hint hk).1
    have hstored := dirRead_stored hdot hint hk
    cases k with
    | zero =>
      refine ⟨img.bootBlock.dirDentry, ?_, ?_, Dentry.name_length _, hret, hstored, ?_⟩
      · simp [readDentryByIndex, show img.bootBlock.fileStat.dirEntryNum ≠ 0 by omega]
      · rw [hdot]
        decide
      · rw [hdot, readDentryByName_period]
    | succ i =>
      refine ⟨img.bootBlock.dentry i, ?_, List.length_pos_iff.mpr (hempty i hk),
        Dentry.name_length _, hret, hstored, ?_⟩
      · rw [readDentryByIndex_succ, if_neg (by omega)]
      · refine readDentryByName_dentry h63 hk (hper i hk) fun j hj hname => ?_
        exact absurd (hdist j i (by omega) hk hname) (by omega)
  · rintro rfl
    rw [dirRead_end hint]

/-- The fifth read of a directory of "." and "a" delivers "a" for the second time. -/
theorem listing_agrees_lookup_again :
    (dirRead staleImage (indexAt staleImage 4) true).ret = 1 ∧
      readDentryByName staleImage nameA = readDentryByIndex staleImage 1 := by
  have hzero : ∀ i, i + 1 < staleImage.bootBlock.fileStat.dirEntryNum → i = 0 := by
    intro i hi
    have : i + 1 < 2 := hi
    omega
  have hempty : ∀ i, i + 1 < staleImage.bootBlock.fileStat.dirEntryNum →
      (staleImage.bootBlock.dentry i).name.bytes ≠ [] := by
    intro i hi
    obtain rfl := hzero i hi
    decide
  have hper : ∀ i, i + 1 < staleImage.bootBlock.fileStat.dirEntryNum →
      (staleImage.bootBlock.dentry i).name ≠ period := by
    intro i hi
    obtain rfl := hzero i hi
    decide
  obtain ⟨d, hd, -, -, hret, -, hname⟩ := (listing_agrees_lookup staleImage (by decide)
    (by decide) (by decide) hempty hper
    (fun i j hi hj _ => (hzero i hi).trans (hzero j hj).symm) 4).1 (by decide)
  obtain rfl : Dentry.regular [0x61] 0 = d := Option.some.inj hd
  exact ⟨hret, hname.trans hd.symm⟩

end Ece391.FileSys

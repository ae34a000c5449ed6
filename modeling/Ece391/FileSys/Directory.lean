import Ece391.FileSys.Lookup

/-! `dir_read` of `file_sys.c`. The listing position is the one static counter
`directory_index`, which runs from `-1` through the entries and back. -/

namespace Ece391.FileSys

open Lib

/-- The result of `dir_read`, the bytes it stored from `buf[0]` on, and the new
value of `directory_index`. -/
structure DirOut where
  ret : ℤ
  stored : List UInt8
  directoryIndex : ℤ

/-- `dir_read`; the count it is asked for plays no part. -/
def dirRead (img : Image) (directoryIndex : ℤ) (buf : Bool) : DirOut :=
  let numFile : ℤ := Int.bmod img.bootBlock.fileStat.dirEntryNum (2 ^ 32)
  if buf = false then ⟨-1, [], directoryIndex⟩
  else if numFile - 1 ≤ directoryIndex then ⟨0, [], -1⟩
  else if directoryIndex = -1 then
    ⟨strlen (strcpy period), strcpy period, directoryIndex + 1⟩
  else
    let stored := tempName (img.bootBlock.dentry directoryIndex.toNat)
    ⟨strlen stored, stored, directoryIndex + 1⟩

/-- The names in directory order: "." and then the live entries. -/
def entryName (img : Image) : ℕ → CString
  | 0 => img.bootBlock.dirDentry.name
  | k + 1 => (img.bootBlock.dentry k).name

/-- The local buffer holds the name and is zero behind it. -/
theorem tempName_padded (d : Dentry) :
    ∃ n, tempName d = d.name.bytes ++ List.replicate (n + 1) 0 := by
  have h := strncpy_eq d.fileName.toList
  rw [Vector.length_toList] at h
  rw [tempName, h, List.append_assoc, ← List.replicate_succ']
  exact ⟨_, rfl⟩

theorem strlen_tempName (d : Dentry) : strlen (tempName d) = d.name.bytes.length := by
  obtain ⟨n, h⟩ := tempName_padded d
  rw [h]
  exact strlen_padded d.name _

theorem take_tempName (d : Dentry) : (tempName d).take d.name.bytes.length = d.name.bytes := by
  obtain ⟨n, h⟩ := tempName_padded d
  rw [h]
  exact List.take_left' rfl

section Listing
variable {img : Image} (hdot : img.bootBlock.dirDentry.name = period)
  (hint : img.bootBlock.fileStat.dirEntryNum < 2 ^ 31)
include hint

theorem numFile_eq : Int.bmod img.bootBlock.fileStat.dirEntryNum (2 ^ 32) =
    img.bootBlock.fileStat.dirEntryNum := by
  apply Int.bmod_eq_of_le <;> omega

/-- Behind the last entry the listing answers 0 and starts over. -/
theorem dirRead_end :
    dirRead img (img.bootBlock.fileStat.dirEntryNum - 1) true = ⟨0, [], -1⟩ := by
  simp only [dirRead, numFile_eq hint, Bool.true_eq_false, if_false, le_refl, if_true]

include hdot in
/-- At the `m`-th entry the listing delivers its name and moves on by one. -/
theorem dirRead_entry {m : ℕ} (hm : m < img.bootBlock.fileStat.dirEntryNum) :
    (dirRead img (m - 1) true).ret = (entryName img m).bytes.length ∧
      (dirRead img (m - 1) true).stored.take (entryName img m).bytes.length =
        (entryName img m).bytes ∧
      (dirRead img (m - 1) true).directoryIndex = m := by
  have hnot : ¬ ((img.bootBlock.fileStat.dirEntryNum : ℤ) - 1 ≤ m - 1) := by omega
  simp only [dirRead, numFile_eq hint, hnot, Bool.true_eq_false, if_false]
  cases m with
  | zero => simp [entryName, hdot, strlen, strcpy, period]
  | succ k =>
    have hk : ((k + 1 : ℕ) : ℤ) - 1 ≠ -1 := by omega
    simp only [hk, if_false, entryName]
    rw [show (((k + 1 : ℕ) : ℤ) - 1).toNat = k by omega]
    exact ⟨by rw [strlen_tempName], take_tempName _, by omega⟩

include hdot in
/-- The position runs through the entries and the final 0 over and over. -/
theorem dirRead_next {index : ℤ} {t : ℕ}
    (hindex : index + 1 = (t % (img.bootBlock.fileStat.dirEntryNum + 1) : ℕ)) :
    (dirRead img index true).directoryIndex + 1 =
      ((t + 1) % (img.bootBlock.fileStat.dirEntryNum + 1) : ℕ) := by
  set n := img.bootBlock.fileStat.dirEntryNum with hn
  have hlt : t % (n + 1) < n + 1 := Nat.mod_lt _ (Nat.succ_pos _)
  have hmod : (t + 1) % (n + 1) = (t % (n + 1) + 1) % (n + 1) := by rw [Nat.mod_add_mod]
  obtain rfl : index = (t % (n + 1) : ℕ) - 1 := by omega
  rw [hmod]
  rcases Nat.lt_or_eq_of_le (Nat.lt_succ_iff.mp hlt) with h | h
  · have hnext : (t % (n + 1) + 1) % (n + 1) = t % (n + 1) + 1 := Nat.mod_eq_of_lt (by omega)
    rw [(dirRead_entry hdot hint h).2.2, hnext]
    push_cast
    rfl
  · rw [h, dirRead_end hint, Nat.mod_self]
    rfl

end Listing

end Ece391.FileSys

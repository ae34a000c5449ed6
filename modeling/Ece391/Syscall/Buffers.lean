import Ece391.FileSys.Bounds
import Ece391.Syscall.Calls

/-! How much of the caller's buffer a `read` fills. The count limits every operation behind
the jump tables but `dir_read`, which stores a whole entry at every position but the last. -/

namespace Ece391.Syscall

open Lib FileSys

/-- The bytes stored and the result keep to the count. -/
def KeepsCount (out : CallOut) (nbytes : ℤ) : Prop :=
  out.stored.length ≤ nbytes ∧ out.ret ≤ nbytes

/-- The listing has no entry left at this position. -/
def AtEnd (img : Image) (index : ℤ) : Prop :=
  Int.bmod img.bootBlock.fileStat.dirEntryNum (2 ^ 32) - 1 ≤ index

instance (img : Image) (index : ℤ) : Decidable (AtEnd img index) :=
  inferInstanceAs (Decidable (_ ≤ _))

/-- There is room for what `dir_read` stores at a position: nothing at the end, two bytes
for ".", and the 32 bytes of a name field with a NUL for any other entry. -/
def RoomForEntry (img : Image) (index nbytes : ℤ) : Prop :=
  AtEnd img index ∨ index = -1 ∧ 2 ≤ nbytes ∨ 33 ≤ nbytes

section Operations
variable (img : Image) {index : ℤ}

theorem dirRead_at_end (h : AtEnd img index) : dirRead img index true = ⟨0, [], -1⟩ := by
  unfold AtEnd at h
  simp only [dirRead, Bool.true_eq_false, if_false, if_pos h]

theorem dirRead_period (h : ¬ AtEnd img index) (hindex : index = -1) :
    dirRead img index true = ⟨1, strcpy period, 0⟩ := by
  unfold AtEnd at h
  subst hindex
  simp only [dirRead, Bool.true_eq_false, if_false, if_neg h, if_true]
  rfl

theorem tempName_length (d : Dentry) : (tempName d).length = 33 := by
  have hfield := strncpy_eq d.fileName.toList
  have hshort : (CString.ofBuf d.fileName.toList).bytes.length ≤ d.fileName.toList.length :=
    (List.takeWhile_sublist _).length_le
  rw [Vector.length_toList] at hfield hshort
  rw [tempName, hfield, List.length_append, List.length_append, List.length_replicate,
    List.length_singleton]
  omega

theorem name_length_le (d : Dentry) : d.name.bytes.length ≤ 32 := by
  obtain ⟨n, hname⟩ := tempName_padded d
  have hlen := congrArg List.length hname
  rw [tempName_length, List.length_append, List.length_replicate] at hlen
  omega

/-- Away from its two ends the listing stores a whole name field. -/
theorem dirRead_name (h : ¬ AtEnd img index) (hindex : index ≠ -1) :
    (dirRead img index true).stored.length = 33 ∧ (dirRead img index true).ret ≤ 32 := by
  unfold AtEnd at h
  simp only [dirRead, Bool.true_eq_false, if_false, if_neg h, if_neg hindex]
  refine ⟨tempName_length _, ?_⟩
  rw [strlen_tempName]
  exact_mod_cast name_length_le _

end Operations

section Read
variable {img : Image} {cs : Fin 3} {p : Proc} {i : Fin 8} {nbytes : ℤ} {keyBuf : ℕ → UInt8}

/-- A read that fails its checks stores nothing. -/
theorem failure_keepsCount (hn : 0 ≤ nbytes) : KeepsCount (failure p) nbytes :=
  ⟨hn, show (-1 : ℤ) ≤ nbytes by omega⟩

theorem terminalCopy_length_le (keyBuf : ℕ → UInt8) (nbytes m i : ℕ) :
    (terminalCopy keyBuf nbytes m i).length ≤ m := by
  induction m generalizing i with
  | zero => exact Nat.zero_le _
  | succ m ih =>
    rw [terminalCopy]
    split_ifs
    · exact Nat.succ_le_succ (Nat.zero_le m)
    · exact Nat.succ_le_succ (Nat.zero_le m)
    · exact Nat.succ_le_succ (ih (i + 1))

theorem readPlaces_length_le (img : Image) (inode pos n : ℕ) : (readPlaces img inode pos n).length ≤ n := by
  by_cases hino : inode < img.bootBlock.fileStat.inodeNum
  · rcases Nat.lt_or_ge pos (img.inode inode).length with hpos | hpos
    · rw [readPlaces_length pos n hino hpos]
      exact Nat.min_le_left _ _
    · rw [readPlaces_past_end pos n hpos]
      exact Nat.zero_le n
  · rw [readPlaces, if_pos (.inl (not_lt.mp hino))]
    exact Nat.zero_le n

theorem fileRead_keepsCount (dev : Devices) (entry : FileArray) (hn : 0 ≤ nbytes) :
    (fileRead img cs dev entry true nbytes).stored.length ≤ nbytes ∧
      (fileRead img cs dev entry true nbytes).ret ≤ nbytes := by
  have hstored : ((readData img entry.inode entry.filePosition true nbytes.toNat).bytes.length : ℤ) ≤
      nbytes := by
    have hplaces := readPlaces_length_le img entry.inode entry.filePosition nbytes.toNat
    rw [readData_places, List.length_map]
    omega
  refine ⟨hstored, ?_⟩
  simp only [fileRead]
  by_cases hino : entry.inode < img.bootBlock.fileStat.inodeNum
  · rwa [readData_ret img _ _ hino]
  · have hret : (readData img entry.inode entry.filePosition true nbytes.toNat).ret = -1 := by
      simp [readData, not_lt.mp hino]
    rw [hret]
    omega

/-- Every descriptor but one on a directory keeps to the count. -/
theorem read_keepsCount (hp : (p.fds i).pointer ≠ .dirFops) (buf : Bool) (hn : 0 ≤ nbytes) :
    KeepsCount (read img cs p i buf nbytes keyBuf) nbytes := by
  by_cases hcl : nbytes < 0 ∨ buf = false ∨ Closed p i
  · rw [read_failure hcl]
    exact failure_keepsCount hn
  · obtain ⟨j, hij, rfl, -, hf⟩ := read_passed hcl
    obtain rfl : i = j := Fin.ext (by exact_mod_cast hij)
    rw [read_open hn hf, KeepsCount]
    simp only [readOp]
    cases hpointer : (p.fds i).pointer with
    | stdinFops =>
      have hcopy := terminalCopy_length_le keyBuf nbytes.toNat nbytes.toNat 0
      have hlen : ((terminalCopy keyBuf nbytes.toNat nbytes.toNat 0).length : ℤ) ≤ nbytes := by omega
      simp only [terminalRead, Bool.true_eq_false, false_or, if_neg (not_lt.mpr hn)]
      exact ⟨hlen, hlen⟩
    | stdoutFops => exact failure_keepsCount (p := p) hn
    | rtcFops => exact ⟨hn, hn⟩
    | dirFops => exact absurd hpointer hp
    | fileFops => exact fileRead_keepsCount p.dev (p.fds i) hn

/-- A read on a directory descriptor keeps to the count exactly when it is not carried out
or the count has room for what the position has to offer. -/
theorem directory_read_keeps_count_iff (img : Image) (cs : Fin 3) (p : Proc) (i : Fin 8)
    (hp : (p.fds i).pointer = .dirFops) (buf : Bool) (nbytes : ℤ) (hn : 0 ≤ nbytes)
    (keyBuf : ℕ → UInt8) :
    KeepsCount (read img cs p i buf nbytes keyBuf) nbytes ↔
      buf = false ∨ (p.fds i).flags = 0 ∨ RoomForEntry img p.dev.directoryIndex nbytes := by
  by_cases hcl : nbytes < 0 ∨ buf = false ∨ Closed p i
  · rw [read_failure hcl]
    refine iff_of_true (failure_keepsCount hn) ?_
    rcases hcl with hneg | hbuf | hclosed
    · omega
    · exact .inl hbuf
    · exact .inr (.inl (hclosed i rfl))
  · obtain ⟨j, hij, rfl, -, hf⟩ := read_passed hcl
    obtain rfl : i = j := Fin.ext (by exact_mod_cast hij)
    rw [read_open hn hf, KeepsCount, RoomForEntry]
    simp only [readOp, hp, dirReadOp, hf, Bool.true_eq_false, false_or]
    by_cases hend : AtEnd img p.dev.directoryIndex
    · rw [dirRead_at_end img hend]
      exact iff_of_true ⟨hn, hn⟩ (.inl hend)
    · simp only [hend, false_or]
      by_cases hindex : p.dev.directoryIndex = -1
      · rw [dirRead_period img hend hindex, show (strcpy period).length = 2 from rfl]
        simp only [hindex, true_and]
        omega
      · obtain ⟨hstored, hret⟩ := dirRead_name img hend hindex
        simp only [hindex, false_and, false_or, hstored]
        omega

end Read

/-- A process in the middle of a listing. -/
def listing : Proc := ⟨fun _ => ⟨.dirFops, 0, 0, 1⟩, { blankDevices with directoryIndex := 0 }⟩

theorem directory_read_keeps_count_iff_name :
    KeepsCount (read staleImage 0 listing 2 true 33 fun _ => 0) 33 :=
  (directory_read_keeps_count_iff staleImage 0 listing 2 rfl true 33 (by decide) _).mpr
    (.inr (.inr (.inr (.inr (by decide)))))

/-- The size that the listing program asks for leaves no room for the NUL behind a name. -/
theorem directory_read_overruns : (listing.fds 2).pointer = .dirFops ∧
    ¬ KeepsCount (read staleImage 0 listing 2 true 32 fun _ => 0) 32 := by
  refine ⟨rfl, ?_⟩
  rintro ⟨hstored, -⟩
  exact absurd hstored (by decide)

end Ece391.Syscall

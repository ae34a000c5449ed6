import Ece391.Syscall.Table

/-! What a failing call leaves behind. Only a `read` that is carried out and then
fails changes the table: it moves the position by -1. -/

namespace Ece391.Syscall

open Lib FileSys

/-- A read that is carried out and fails: on the output descriptor, or on a file
whose inode number the image does not have. -/
def FailingRead (img : Image) (p : Proc) : Call → Prop
  | .read fd buf nbytes _ => 0 ≤ nbytes ∧ buf = true ∧ ∃ i : Fin 8, fd = i ∧ (p.fds i).flags ≠ 0 ∧
      ((p.fds i).pointer = .stdoutFops ∨
        (p.fds i).pointer = .fileFops ∧ img.bootBlock.fileStat.inodeNum ≤ (p.fds i).inode)
  | _ => False

/-- A result of -1 always moves the position. -/
theorem advanced_neg_one_ne (entry : FileArray) : advanced entry (-1) ≠ entry := by
  intro h
  have hword : ((-1 : ℤ) % 2 ^ 32).toNat = 2 ^ 32 - 1 := by decide
  have hpos := congrArg FileArray.filePosition h
  simp only [advanced, u32, hword] at hpos
  omega

/-- The operations that answer -1 to a read. -/
theorem readOp_neg_one_iff {img : Image} {cs : Fin 3} {keyBuf : ℕ → UInt8} {dev : Devices}
    {entry : FileArray} {n : ℤ} (hn : 0 ≤ n) :
    (readOp img cs keyBuf dev entry true n).ret = -1 ↔ entry.pointer = .stdoutFops ∨
      entry.pointer = .fileFops ∧ img.bootBlock.fileStat.inodeNum ≤ entry.inode := by
  unfold readOp
  cases entry.pointer with
  | stdinFops =>
    simp only [terminalRead, Bool.true_eq_false, false_or, if_neg (not_lt.mpr hn)]
    simp
  | stdoutFops => simp [invalidReadOp]
  | rtcFops => simp [rtcRead]
  | dirFops =>
    simp only [dirReadOp, dirRead, Bool.true_eq_false, if_false]
    split_ifs <;> simp
  | fileFops =>
    rw [fileRead]
    by_cases hino : img.bootBlock.fileStat.inodeNum ≤ entry.inode
    · simp [readData, hino]
    · simp [readData_ret img _ _ (not_le.mp hino), hino]

/-- A failing call leaves the whole table as it was exactly when it is not a read
that was carried out. -/
theorem failed_call_keeps_table_iff (img : Image) (cs : Fin 3) (p : Proc) (c : Call)
    (hfail : (call img cs p c).ret = -1) :
    (call img cs p c).proc.fds = p.fds ↔ ¬ FailingRead img p c := by
  cases c with
  | «open» filename =>
    refine iff_of_true ?_ id
    funext j
    refine sysOpen_frame filename ?_
    rw [show (sysOpen img p filename).ret = -1 from hfail]
    omega
  | close fd =>
    refine iff_of_true ?_ id
    by_cases hcl : Closed p fd ∨ fd < 2
    · rw [call, close_failure hcl, failure]
    · obtain ⟨i, rfl, h2, hf⟩ := close_passed hcl
      rw [call, close_open h2 hf] at hfail
      simp at hfail
  | write fd buf n => exact iff_of_true (write_fds buf) id
  | read fd buf n keyBuf =>
    by_cases hcl : n < 0 ∨ buf = false ∨ Closed p fd
    · rw [call, read_failure hcl]
      refine iff_of_true rfl ?_
      rintro ⟨hn, rfl, i, rfl, hf, -⟩
      rcases hcl with h | h | h
      · exact absurd hn (not_le.mpr h)
      · simp at h
      · exact hf (h i rfl)
    · obtain ⟨i, rfl, rfl, hn, hf⟩ := read_passed hcl
      rw [call, read_open hn hf] at hfail ⊢
      refine iff_of_false ?_ (not_not.mpr ⟨hn, rfl, i, rfl, hf, (readOp_neg_one_iff hn).mp hfail⟩)
      intro h
      have hi := congrFun h i
      simp only [Function.update_self] at hi hfail
      rw [hfail] at hi
      exact advanced_neg_one_ne _ hi

/-- A read on descriptor 9 fails and changes nothing. -/
theorem failed_call_keeps_table_iff_nine :
    (call staleImage 0 freshProc (.read 9 true 4 fun _ => 0)).proc.fds = freshProc.fds :=
  (failed_call_keeps_table_iff staleImage 0 freshProc (.read 9 true 4 fun _ => 0) (by decide)).mpr
    (by
      rintro ⟨-, -, i, hi, -⟩
      omega)

/-- A read on descriptor 1 of a new process fails and leaves position 0xFFFFFFFF. -/
theorem failed_read_moves_position :
    (call staleImage 0 freshProc (.read 1 true 4 fun _ => 0)).ret = -1 ∧
      ((call staleImage 0 freshProc (.read 1 true 4 fun _ => 0)).proc.fds 1).filePosition =
        0xFFFFFFFF ∧
      (call staleImage 0 freshProc (.read 1 true 4 fun _ => 0)).proc.fds ≠ freshProc.fds := by
  refine ⟨by decide, by decide, fun h => ?_⟩
  have h1 := congrFun h 1
  revert h1
  decide

end Ece391.Syscall

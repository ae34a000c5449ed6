import Ece391.Syscall.Calls

/-! What a system call puts on the screen of the process that makes it. -/

namespace Ece391.Syscall

open Lib FileSys

/-- What a call puts on the screen of the process: the bytes written to `stdout`, or the
complaint of `read_data`. -/
def shown (img : Image) (p : Proc) : Call → List UInt8
  | .write fd (some bytes) nbytes =>
    match fdIndex fd with
    | some i =>
      if 0 ≤ nbytes ∧ (p.fds i).flags ≠ 0 ∧ (p.fds i).pointer = .stdoutFops then
        (List.range nbytes.toNat).map bytes else []
    | none => []
  | .read fd true nbytes _ =>
    match fdIndex fd with
    | some i =>
      if 0 ≤ nbytes ∧ (p.fds i).flags ≠ 0 ∧ (p.fds i).pointer = .fileFops ∧
          (readData img (p.fds i).inode (p.fds i).filePosition true nbytes.toNat).complained then
        text "invalid data block!\n" else []
    | none => []
  | _ => []

theorem writeOp_shows (cs : Fin 3) (dev : Devices) (entry : FileArray) (bytes : ℕ → UInt8)
    {nbytes : ℤ} (hn : 0 ≤ nbytes) :
    (writeOp cs dev entry (some bytes) nbytes).dev.display =
      puts cs dev.display (if entry.pointer = .stdoutFops then
        (List.range nbytes.toNat).map bytes else []) := by
  simp only [writeOp]
  cases entry.pointer with
  | stdoutFops => simp only [terminalWrite, if_neg (not_lt.mpr hn), if_true]
  | rtcFops =>
    simp only [rtcWrite, reduceCtorEq, if_false]
    split_ifs
    · rfl
    · rfl
    · cases rtcRate (word32 bytes) <;> rfl
  | _ => rfl

theorem readOp_shows (img : Image) (cs : Fin 3) (keyBuf : ℕ → UInt8) (dev : Devices)
    (entry : FileArray) (nbytes : ℤ) :
    (readOp img cs keyBuf dev entry true nbytes).dev.display =
      puts cs dev.display (if entry.pointer = .fileFops ∧
          (readData img entry.inode entry.filePosition true nbytes.toNat).complained then
        text "invalid data block!\n" else []) := by
  simp only [readOp]
  cases entry.pointer with
  | stdinFops =>
    simp only [terminalRead, reduceCtorEq, false_and, if_false]
    split_ifs <;> rfl
  | fileFops =>
    simp only [fileRead, true_and]
    split_ifs <;> rfl
  | _ => rfl

/-- The screens behind a call are those before it with what the call shows. -/
theorem call_shows (img : Image) (cs : Fin 3) (p : Proc) (c : Call) :
    (call img cs p c).proc.dev.display = puts cs p.dev.display (shown img p c) := by
  cases c with
  | «open» filename =>
    simp only [call, sysOpen_eq, shown]
    rcases openable img filename with _ | ⟨d, f⟩
    · rfl
    · cases firstFree p.fds with
      | none => rfl
      | some i => cases f <;> rfl
  | close fd =>
    simp only [call, close, shown]
    cases fdIndex fd with
    | none => split_ifs <;> rfl
    | some i =>
      dsimp only
      split_ifs <;> rfl
  | read fd buf nbytes keyBuf =>
    cases buf with
    | false =>
      rw [call, read_failure (.inr (.inl rfl))]
      rfl
    | true =>
      cases hi : fdIndex fd with
      | none => simp [call, Syscall.read, shown, hi, Syscall.failure, puts]
      | some i =>
        obtain rfl := fdIndex_eq_some hi
        by_cases hopen : 0 ≤ nbytes ∧ (p.fds i).flags ≠ 0
        · rw [call, read_open hopen.1 hopen.2]
          simp only [shown, hi, hopen, readOp_shows, true_and, ne_eq, not_false_eq_true]
        · have hfail : nbytes < 0 ∨ true = false ∨ Closed p i := by
            rcases lt_or_ge nbytes 0 with hn | hn
            · exact .inl hn
            · have hflags : (p.fds i).flags = 0 := not_not.mp fun h => hopen ⟨hn, h⟩
              refine .inr (.inr fun j hj => ?_)
              obtain rfl : i = j := Fin.ext (by omega)
              exact hflags
          have hshown : shown img p (.read i true nbytes keyBuf) = [] := by
            simp only [shown, hi]
            rw [if_neg fun h => hopen ⟨h.1, h.2.1⟩]
          rw [call, read_failure hfail, hshown]
          rfl
  | write fd buf nbytes =>
    cases buf with
    | none =>
      cases hi : fdIndex fd with
      | none => simp [call, Syscall.write, shown, hi, Syscall.failure, puts]
      | some i => simp [call, Syscall.write, shown, hi, Syscall.failure, puts]
    | some bytes =>
      cases hi : fdIndex fd with
      | none => simp [call, Syscall.write, shown, hi, Syscall.failure, puts]
      | some i =>
        by_cases hopen : 0 ≤ nbytes ∧ (p.fds i).flags ≠ 0
        · simp only [call, Syscall.write, hi, if_neg (not_lt.mpr hopen.1), Option.isNone_some,
            Bool.false_eq_true, if_false, if_neg hopen.2, writeOp_shows cs p.dev _ bytes hopen.1]
          simp only [shown, hi, hopen, true_and, ne_eq, not_false_eq_true]
        · have hshown : shown img p (.write fd (some bytes) nbytes) = [] := by
            simp only [shown, hi]
            rw [if_neg fun h => hopen ⟨h.1, h.2.1⟩]
          rw [hshown]
          simp only [call, Syscall.write, hi]
          split_ifs with h1 h2 h3
          · rfl
          · rfl
          · rfl
          · exact absurd ⟨not_lt.mp h1, h3⟩ hopen

end Ece391.Syscall

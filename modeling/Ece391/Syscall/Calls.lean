import Ece391.Syscall.Descriptors

/-! What each of the four calls can do: it fails and changes nothing, or it is
carried out on one slot of the table. Every later proof goes through these
equations and never unfolds a call. -/

namespace Ece391.Syscall

open Function (update)
open Lib FileSys

/-- No open descriptor has this number. -/
def Closed (p : Proc) (fd : ℤ) : Prop := ∀ i : Fin 8, fd = i → (p.fds i).flags = 0

theorem not_closed {p : Proc} {fd : ℤ} (h : ¬ Closed p fd) :
    ∃ i : Fin 8, fd = i ∧ (p.fds i).flags ≠ 0 := by
  simpa [Closed] using h

theorem fdIndex_coe (i : Fin 8) : fdIndex i = some i := by
  have := i.isLt
  rw [fdIndex, dif_pos (by omega)]
  simp

theorem fdIndex_eq_some {fd : ℤ} {i : Fin 8} (h : fdIndex fd = some i) : fd = i := by
  simp only [fdIndex] at h
  split_ifs at h with hr
  obtain rfl := Option.some.inj h
  simp only
  omega

section Cases
variable {img : Image} {cs : Fin 3} {p : Proc} {fd n : ℤ} {keyBuf : ℕ → UInt8}

/-- A read past the checks is one on an open slot. -/
theorem read_passed {buf : Bool} (h : ¬ (n < 0 ∨ buf = false ∨ Closed p fd)) :
    ∃ i : Fin 8, fd = i ∧ buf = true ∧ 0 ≤ n ∧ (p.fds i).flags ≠ 0 := by
  simp only [not_or, not_lt, Bool.not_eq_false] at h
  obtain ⟨hn, hbuf, hcl⟩ := h
  obtain ⟨i, hi, hf⟩ := not_closed hcl
  exact ⟨i, hi, hbuf, hn, hf⟩

/-- A close past the checks is one of an open slot from 2 on. -/
theorem close_passed (h : ¬ (Closed p fd ∨ fd < 2)) :
    ∃ i : Fin 8, fd = i ∧ 2 ≤ i ∧ (p.fds i).flags ≠ 0 := by
  obtain ⟨hcl, h2⟩ := not_or.mp h
  obtain ⟨i, rfl, hf⟩ := not_closed hcl
  exact ⟨i, rfl, show (2 : ℕ) ≤ i by omega, hf⟩

theorem read_failure {buf : Bool} (h : n < 0 ∨ buf = false ∨ Closed p fd) :
    read img cs p fd buf n keyBuf = failure p := by
  cases hi : fdIndex fd with
  | none => simp [read, hi]
  | some i =>
    rcases h with h | h | h
    · simp [read, h]
    · simp [read, hi, h]
    · simp [read, hi, h i (fdIndex_eq_some hi)]

/-- The position after a read, moved by the result as an unsigned word. -/
def advanced (entry : FileArray) (ret : ℤ) : FileArray :=
  { entry with filePosition := u32 (entry.filePosition + (ret % 2 ^ 32).toNat) }

theorem read_open {i : Fin 8} (hn : 0 ≤ n) (hf : (p.fds i).flags ≠ 0) :
    read img cs p i true n keyBuf =
      ⟨(readOp img cs keyBuf p.dev (p.fds i) true n).ret,
        (readOp img cs keyBuf p.dev (p.fds i) true n).stored,
        ⟨update p.fds i (advanced (p.fds i) (readOp img cs keyBuf p.dev (p.fds i) true n).ret),
          (readOp img cs keyBuf p.dev (p.fds i) true n).dev⟩⟩ := by
  simp only [read, fdIndex_coe, if_neg (not_lt.mpr hn), Bool.true_eq_false, if_false, if_neg hf]
  rfl

theorem write_failure {buf : Option (ℕ → UInt8)} (h : Closed p fd) :
    write cs p fd buf n = failure p := by
  cases hi : fdIndex fd with
  | none => simp [write, hi]
  | some i => simp [write, hi, h i (fdIndex_eq_some hi)]

theorem write_fds (buf : Option (ℕ → UInt8)) : (write cs p fd buf n).proc.fds = p.fds := by
  cases hi : fdIndex fd with
  | none => simp [write, hi, failure]
  | some i =>
    simp only [write, hi]
    split_ifs <;> rfl

theorem close_failure (h : Closed p fd ∨ fd < 2) : close p fd = failure p := by
  cases hi : fdIndex fd with
  | none => simp [close, hi]
  | some i =>
    rcases h with h | h
    · simp [close, hi, h i (fdIndex_eq_some hi)]
    · simp [close, h]

/-- A slot after `close`. -/
def closedEntry (entry : FileArray) : FileArray :=
  { entry with inode := 0, filePosition := 0, flags := 0 }

theorem close_open {i : Fin 8} (h2 : 2 ≤ i) (hf : (p.fds i).flags ≠ 0) :
    close p i = ⟨0, [], ⟨update p.fds i (closedEntry (p.fds i)), p.dev⟩⟩ := by
  have hi : ¬ (i : ℤ) < 2 := by
    have : (2 : ℕ) ≤ i := h2
    omega
  simp only [close, fdIndex_coe, if_neg hi, if_neg hf]
  rfl

theorem mem_zero (name : CString) : name.mem 0 = 0 ↔ name.bytes = [] := by
  obtain ⟨bytes, hb⟩ := name
  cases bytes with
  | nil => simp [CString.mem]
  | cons b bs => simpa [CString.mem] using hb b (by simp)

/-- The entry and the operations a name stands for, if it can be opened at all. -/
def openable (img : Image) (filename : Option CString) : Option (Dentry × Fops) :=
  match filename with
  | none => none
  | some name =>
    if name.bytes = [] then none
    else (readDentryByName img name).bind fun d => (fopsOfType d.fileType).map fun f => (d, f)

theorem sysOpen_eq (filename : Option CString) :
    sysOpen img p filename =
      match openable img filename, firstFree p.fds with
      | some (d, f), some i => ⟨i, [], ⟨update p.fds i (openedEntry f d), openOp f p.dev⟩⟩
      | _, _ => failure p := by
  cases filename with
  | none => rfl
  | some name =>
    simp only [sysOpen, openable, mem_zero]
    split_ifs with h0
    · rfl
    · cases readDentryByName img name with
      | none => rfl
      | some d =>
        cases firstFree p.fds <;> cases h : fopsOfType d.fileType <;> simp [h]

theorem close_frame (fd : ℤ) {j : Fin 8} (hj : fd ≠ j) : (close p fd).proc.fds j = p.fds j := by
  by_cases hcl : Closed p fd ∨ fd < 2
  · rw [close_failure hcl, failure]
  · obtain ⟨i, rfl, h2, hf⟩ := close_passed hcl
    rw [close_open h2 hf]
    have hij : j ≠ i := by
      rintro rfl
      exact hj rfl
    exact Function.update_of_ne hij _ _

theorem sysOpen_frame (filename : Option CString) {j : Fin 8}
    (hj : (sysOpen img p filename).ret ≠ j) : (sysOpen img p filename).proc.fds j = p.fds j := by
  rw [sysOpen_eq] at hj ⊢
  rcases hopen : openable img filename with _ | ⟨d, f⟩
  · rfl
  · cases hfree : firstFree p.fds with
    | none => rfl
    | some i =>
      rw [hopen, hfree] at hj
      have hij : j ≠ i := by
        rintro rfl
        exact hj rfl
      exact Function.update_of_ne hij _ _

end Cases

end Ece391.Syscall

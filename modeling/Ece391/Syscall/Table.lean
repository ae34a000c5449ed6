import Ece391.Support.Find
import Ece391.Syscall.Calls

/-! The descriptor table as a set of open descriptors. Whatever the calls and
their arguments, the table follows an abstract set to which `open` adds the
smallest free member of 2..7 and from which `close` removes one. -/

namespace Ece391.Syscall

open Function (update)
open Lib FileSys Support

/-- The smallest descriptor of 2..7 outside a set. -/
def IsLowestFree (s : Finset (Fin 8)) (i : Fin 8) : Prop :=
  2 ≤ i ∧ i ∉ s ∧ ∀ j, 2 ≤ j → j < i → j ∈ s

instance (s : Finset (Fin 8)) (i : Fin 8) : Decidable (IsLowestFree s i) :=
  inferInstanceAs (Decidable (_ ∧ _ ∧ _))

/-- What the calls mean for the set of open descriptors. -/
def specCall (img : Image) (s : Finset (Fin 8)) : Call → Finset (Fin 8)
  | .open filename =>
    if (openable img filename).isSome then s ∪ Finset.univ.filter (IsLowestFree s) else s
  | .close fd => s.filter fun i => ¬ (fd = i ∧ 2 ≤ i)
  | .read _ _ _ _ => s
  | .write _ _ _ => s

/-- The set is the set of descriptors with a non-zero flag. -/
def Tracks (p : Proc) (s : Finset (Fin 8)) : Prop := ∀ i, i ∈ s ↔ (p.fds i).flags ≠ 0

theorem mem_upper (i : Fin 8) : i ∈ [2, 3, 4, 5, 6, 7] ↔ 2 ≤ i := by
  revert i
  decide

theorem firstFree_eq_some {p : Proc} {s : Finset (Fin 8)} (ht : Tracks p s) {i : Fin 8} :
    firstFree p.fds = some i ↔ IsLowestFree s i := by
  have hmem (j : Fin 8) : (p.fds j).flags = 0 ↔ j ∉ s := by rw [ht j, not_not]
  rw [firstFree, find?_increasing (by decide)]
  simp only [mem_upper, decide_eq_true_eq, decide_eq_false_iff_not, hmem, not_not, IsLowestFree]

theorem firstFree_eq_none {p : Proc} {s : Finset (Fin 8)} (ht : Tracks p s) :
    firstFree p.fds = none ↔ ∀ i, 2 ≤ i → i ∈ s := by
  have hmem (j : Fin 8) : (p.fds j).flags = 0 ↔ j ∉ s := by rw [ht j, not_not]
  rw [firstFree, List.find?_eq_none]
  simp only [mem_upper, decide_eq_true_eq, hmem, not_not]

/-- A call takes the set where the specification takes it. -/
theorem call_tracks (img : Image) (cs : Fin 3) {p : Proc} {s : Finset (Fin 8)} (ht : Tracks p s)
    (c : Call) : Tracks (call img cs p c).proc (specCall img s c) := by
  cases c with
  | «open» filename =>
    simp only [call, sysOpen_eq, specCall]
    rcases openable img filename with _ | ⟨d, f⟩
    · exact ht
    · cases hfree : firstFree p.fds with
      | none =>
        have hall := (firstFree_eq_none ht).mp hfree
        intro i
        simp only [Option.isSome_some, if_true, failure, Finset.mem_union, ← ht i,
          Finset.mem_filter, Finset.mem_univ, true_and, or_iff_left_iff_imp]
        exact fun hi => hall i hi.1
      | some j =>
        have hj := (firstFree_eq_some ht).mp hfree
        have huniq (i : Fin 8) : IsLowestFree s i ↔ i = j := by
          rw [← firstFree_eq_some ht, hfree, Option.some.injEq, eq_comm]
        intro i
        simp only [Option.isSome_some, if_true, Finset.mem_union, Finset.mem_filter,
          Finset.mem_univ, true_and, huniq]
        by_cases hij : i = j
        · subst hij
          simp [openedEntry]
        · simp [hij, ht i]
  | close fd =>
    simp only [call, specCall]
    by_cases hcl : Closed p fd ∨ fd < 2
    · rw [close_failure hcl]
      intro i
      rw [failure, Finset.mem_filter, ← ht i, and_iff_left_iff_imp]
      rintro hi ⟨rfl, h2⟩
      rcases hcl with h | h
      · exact (ht i).mp hi (h i rfl)
      · have : (2 : ℕ) ≤ i := h2
        omega
    · obtain ⟨j, rfl, h2, hf⟩ := close_passed hcl
      rw [close_open h2 hf]
      intro i
      by_cases hij : i = j
      · subst hij
        simp [closedEntry, h2]
      · have hne : ¬ (j : ℕ) = i := fun h => hij (Fin.ext h.symm)
        simp [hij, hne, ht i]
  | read fd buf n keyBuf =>
    simp only [call, specCall]
    by_cases hcl : n < 0 ∨ buf = false ∨ Closed p fd
    · rw [read_failure hcl]
      exact ht
    · obtain ⟨j, rfl, rfl, hn, hf⟩ := read_passed hcl
      rw [read_open hn hf]
      intro i
      by_cases hij : i = j
      · subst hij
        simp [advanced, ht i]
      · simp [hij, ht i]
  | write fd buf n =>
    intro i
    simp only [call, specCall, write_fds]
    exact ht i

/-- The state after any calls still follows the set. -/
theorem calls_tracks (img : Image) (cs : Fin 3) (cl : List Call) {p : Proc} {s : Finset (Fin 8)}
    (ht : Tracks p s) : Tracks (calls img cs p cl) (cl.foldl (specCall img) s) := by
  induction cl generalizing p s with
  | nil => exact ht
  | cons c cl ih => exact ih (call_tracks img cs ht c)

/-- A descriptor below 2 is never closed. -/
theorem mem_specCall (img : Image) (cl : List Call) {s : Finset (Fin 8)} {i : Fin 8} (hi : i < 2)
    (hs : i ∈ s) : i ∈ cl.foldl (specCall img) s := by
  induction cl generalizing s with
  | nil => exact hs
  | cons c cl ih =>
    refine ih ?_
    cases c with
    | «open» filename =>
      simp only [specCall]
      split_ifs
      · exact Finset.mem_union_left _ hs
      · exact hs
    | close fd =>
      rw [specCall, Finset.mem_filter]
      exact ⟨hs, fun h => absurd h.2 (not_le.mpr hi)⟩
    | read => exact hs
    | write => exact hs

theorem openable_eq_none {img : Image} (filename : Option CString) :
    openable img filename = none ↔
      filename = none ∨ ∃ name, filename = some name ∧
        (name.bytes = [] ∨ readDentryByName img name = none ∨
          ∃ d, readDentryByName img name = some d ∧ 2 < d.fileType) := by
  have htype (t : ℕ) : fopsOfType t = none ↔ 2 < t := by
    simp only [fopsOfType, rtcType, dirType, fileTypeRegular]
    split_ifs <;> simp <;> omega
  cases filename with
  | none => simp [openable]
  | some name =>
    simp only [openable, reduceCtorEq, Option.some.injEq, false_or, exists_eq_left']
    split_ifs with h0
    · simp [h0]
    · cases readDentryByName img name with
      | none => simp
      | some d => simp [h0, htype]

/-- The table of a process against the set of its open descriptors: the result of
every call that could be made next. -/
structure Refines (img : Image) (cs : Fin 3) (p : Proc) (s : Finset (Fin 8)) : Prop where
  tracks : Tracks p s
  standard : 0 ∈ s ∧ 1 ∈ s
  open_lowest : ∀ name d f i, name.bytes ≠ [] → readDentryByName img name = some d →
    fopsOfType d.fileType = some f → IsLowestFree s i →
    (sysOpen img p (some name)).ret = i ∧
      ((sysOpen img p (some name)).proc.fds i).pointer = f ∧
      ((sysOpen img p (some name)).proc.fds i).filePosition = 0 ∧
      ∀ t, Tracks (sysOpen img p (some name)).proc t ↔ t = insert i s
  open_fails : ∀ filename, (sysOpen img p filename).ret = -1 ↔
    filename = none ∨ (∃ name, filename = some name ∧
      (name.bytes = [] ∨ readDentryByName img name = none ∨
        ∃ d, readDentryByName img name = some d ∧ 2 < d.fileType)) ∨ ∀ i, 2 ≤ i → i ∈ s
  open_frame : ∀ filename (j : Fin 8), (sysOpen img p filename).ret ≠ j →
    (sysOpen img p filename).proc.fds j = p.fds j
  close_succeeds : ∀ fd : ℤ, (close p fd).ret = 0 ↔ ∃ i ∈ s, 2 ≤ i ∧ fd = i
  close_fails : ∀ fd : ℤ, (close p fd).ret = -1 ↔ ¬ (close p fd).ret = 0
  close_removes : ∀ (fd : ℤ) (i : Fin 8), fd = i → 2 ≤ i →
    ∀ t, Tracks (close p fd).proc t ↔ t = s.erase i
  close_frame : ∀ (fd : ℤ) (j : Fin 8), fd ≠ j → (close p fd).proc.fds j = p.fds j
  read_fails : ∀ (fd : ℤ) buf n keyBuf, (∀ i ∈ s, fd ≠ i) →
    (read img cs p fd buf n keyBuf).ret = -1
  write_fails : ∀ (fd : ℤ) buf n, (∀ i ∈ s, fd ≠ i) → (write cs p fd buf n).ret = -1

section Refines
variable {img : Image} {cs : Fin 3} {p : Proc} {s : Finset (Fin 8)}

theorem Tracks.iff_eq (ht : Tracks p s) (t : Finset (Fin 8)) : Tracks p t ↔ t = s := by
  constructor
  · intro h
    ext i
    rw [h i, ht i]
  · rintro rfl
    exact ht

theorem Tracks.closed (ht : Tracks p s) {fd : ℤ} : Closed p fd ↔ ∀ i ∈ s, fd ≠ i := by
  constructor
  · rintro h i hi rfl
    exact (ht i).mp hi (h i rfl)
  · rintro h i rfl
    by_contra hf
    exact h i ((ht i).mpr hf) rfl

theorem sysOpen_lowest (ht : Tracks p s) {name : CString} {d : Dentry} {f : Fops} {i : Fin 8}
    (h0 : name.bytes ≠ []) (hd : readDentryByName img name = some d)
    (hf : fopsOfType d.fileType = some f) (hi : IsLowestFree s i) :
    sysOpen img p (some name) =
      ⟨i, [], ⟨update p.fds i (openedEntry f d), openOp f p.dev⟩⟩ := by
  have hopen : openable img (some name) = some (d, f) := by simp [openable, h0, hd, hf]
  rw [sysOpen_eq, hopen, (firstFree_eq_some ht).mpr hi]

theorem close_ret (ht : Tracks p s) (fd : ℤ) :
    (close p fd).ret = if ∃ i ∈ s, 2 ≤ i ∧ fd = i then 0 else -1 := by
  split_ifs with h
  · obtain ⟨i, hi, h2, rfl⟩ := h
    rw [close_open h2 ((ht i).mp hi)]
  · rw [close_failure, failure]
    by_contra hcl
    obtain ⟨i, rfl, h2, hf⟩ := close_passed hcl
    exact h ⟨i, (ht i).mpr hf, h2, rfl⟩

/-- A table that follows the set with 0 and 1 in it answers as the set says. -/
theorem Tracks.refines (ht : Tracks p s) (h01 : 0 ∈ s ∧ 1 ∈ s) : Refines img cs p s where
  tracks := ht
  standard := h01
  open_lowest := by
    intro name d f i h0 hd hf hi
    have hnext := call_tracks img cs ht (.open (some name))
    have hset : specCall img s (.open (some name)) = insert i s := by
      have hlow (j : Fin 8) : IsLowestFree s j ↔ j = i := by
        rw [← firstFree_eq_some ht, (firstFree_eq_some ht).mpr hi, Option.some.injEq, eq_comm]
      ext j
      simp [specCall, openable, h0, hd, hf, hlow, or_comm]
    rw [hset] at hnext
    refine ⟨?_, ?_, ?_, hnext.iff_eq⟩ <;> rw [sysOpen_lowest ht h0 hd hf hi] <;> simp [openedEntry]
  open_fails := by
    intro filename
    rw [← firstFree_eq_none ht, ← or_assoc, ← openable_eq_none, sysOpen_eq]
    rcases openable img filename with _ | ⟨d, f⟩
    · simp [failure]
    · cases firstFree p.fds with
      | none => simp [failure]
      | some i =>
        simp only [reduceCtorEq, or_self]
  open_frame := fun filename j hj => sysOpen_frame filename hj
  close_succeeds := by
    intro fd
    rw [close_ret ht]
    split_ifs with h <;> simp [h]
  close_fails := by
    intro fd
    rw [close_ret ht]
    split_ifs <;> simp
  close_removes := by
    rintro fd i rfl h2
    have hnext := call_tracks img cs ht (.close i)
    have hset : specCall img s (.close i) = s.erase i := by
      ext j
      have hij : (i : ℤ) = j ∧ 2 ≤ j ↔ j = i := by
        constructor
        · rintro ⟨h, -⟩
          exact Fin.ext (by omega)
        · rintro rfl
          exact ⟨rfl, h2⟩
      rw [specCall, Finset.mem_filter, hij, Finset.mem_erase, and_comm]
    rw [hset] at hnext
    exact hnext.iff_eq
  close_frame := fun fd j hj => close_frame fd hj
  read_fails := by
    intro fd buf n keyBuf h
    rw [read_failure (Or.inr (Or.inr (ht.closed.mpr h))), failure]
  write_fails := by
    intro fd buf n h
    rw [write_failure (ht.closed.mpr h), failure]

end Refines

/-- Whatever the calls and their arguments, the table of a process that started
with 0 and 1 open and nothing else refines the set of open descriptors. -/
theorem calls_refine (img : Image) (cs : Fin 3) (p : Proc)
    (hstd : (p.fds 0).flags ≠ 0 ∧ (p.fds 1).flags ≠ 0)
    (hrest : ∀ i : Fin 8, 2 ≤ i → (p.fds i).flags = 0) (cl : List Call) :
    Refines img cs (calls img cs p cl) (cl.foldl (specCall img) {0, 1}) := by
  have ht : Tracks p {0, 1} := by
    intro i
    rw [Finset.mem_insert, Finset.mem_singleton]
    constructor
    · rintro (rfl | rfl)
      exacts [hstd.1, hstd.2]
    · intro hf
      by_contra h
      have hupper : ∀ j : Fin 8, ¬ (j = 0 ∨ j = 1) → 2 ≤ j := by decide
      exact hf (hrest i (hupper i h))
  refine (calls_tracks img cs cl ht).refines ?_
  constructor <;> exact mem_specCall img cl (by decide) (by decide)

/-- The first process in cleared memory. -/
def freshProc : Proc := ⟨initFds fun _ => ⟨.stdinFops, 0, 0, 0⟩, blankDevices⟩

/-- Opening "a" twice and closing the first leaves 0, 1 and 3. -/
theorem calls_refine_fresh :
    Refines staleImage 0
      (calls staleImage 0 freshProc
        [.open (some nameA), .open (some nameA), .close 2])
      {0, 1, 3} := by
  have h := calls_refine staleImage 0 freshProc (by decide) (by decide)
    [.open (some nameA), .open (some nameA), .close 2]
  rwa [show List.foldl (specCall staleImage) {0, 1} _ = {0, 1, 3} by decide] at h

end Ece391.Syscall

import Ece391.Kernel.Brackets

/-! The two halves of `execute`. Up to the last of its checks it changes nothing but the
screen. Behind them it loads the program without a look at what `read_data` returns: the
file may be shorter than the place of its entry point, longer than its page has room for,
or longer than `read_data` goes. -/

namespace Ece391.Kernel

open Function (update)
open FileSys Syscall
open Lib (CString)

/-! ### Failure -/

/-- The processes, the page directory, the TSS and the user pages are as they were. -/
structure Untouched (k k' : State) : Prop where
  pid : k'.pid = k.pid
  processCounter : k'.processCounter = k.processCounter
  terminal : k'.terminal = k.terminal
  pcbs : k'.pcbs = k.pcbs
  pageDirectory : k'.pageDirectory = k.pageDirectory
  tss : k'.tss = k.tss
  userPage : k'.userPage = k.userPage

theorem refuse_untouched (k : State) (act : ℕ) (message : List UInt8) :
    Untouched k (refuse (beginCall k) act message) :=
  ⟨rfl, rfl, rfl, rfl, rfl, rfl, rfl⟩

/-- An admitted command does not make the call return. -/
theorem admitted_not_returned {img : Image} {stack : ℕ → Stack} {k : State} {command : Option CString}
    (hadm : Admitted img stack k command) (act : ℕ) (value : ℤ) :
    Obs.returned act value ∉ (execute img stack k command).1.trace.log.drop k.trace.log.length := by
  rcases execute_cases img stack k command with ⟨hend, -⟩ | ⟨-, -, hf⟩ | ⟨-, -, slot, he⟩
  · exact absurd hend (execute_not_returned hadm)
  · rw [hf.log, List.drop_left]
    simp
  · rcases he.outcome with ⟨-, hlog⟩ | ⟨⟨entryPoint, hlog⟩, -⟩
    · rw [hlog, List.drop_left]
      simp
    · rw [hlog, List.drop_left]
      simp

/-- A call of `execute` that returns -1 leaves everything as it was, and the other return,
behind the end of the child, never gives -1. -/
theorem failed_execute_keeps (img : Image) (stack : ℕ → Stack) (k : State)
    (command : Option CString) :
    (Obs.returned k.trace.activations (-1) ∈
        (execute img stack k command).1.trace.log.drop k.trace.log.length →
      Untouched k (execute img stack k command).1) ∧
    ∀ act act', Obs.returned act (-1) ∉ (resume k act').trace.log.drop k.trace.log.length := by
  constructor
  · intro hret
    by_cases hadm : Admitted img stack k command
    · exact absurd hret (admitted_not_returned hadm _ _)
    · obtain ⟨message, hexec⟩ := execute_of_not_admitted hadm
      rw [hexec]
      exact refuse_untouched k _ message
  · intro act act'
    rw [resume_eq]
    simp only [List.drop_left, List.mem_singleton, Obs.returned.injEq, not_and]
    intro _
    split_ifs <;> decide

/-- Six shells one above the other, and the message of the limit. -/
theorem failed_execute_keeps_limit : ∃ k,
    shellRuns (.tick :: List.replicate 5 (.execute (some shellName))) = some k ∧
    (∀ p : Fin 6, k.pid p = occupied) ∧
    Untouched k (execute shellImage (fun _ => .zero) k (some shellName)).1 := by
  obtain ⟨k, hk, hfull, hret⟩ := shellRuns_eval (.tick :: List.replicate 5 (.execute (some shellName)))
    (fun k => (∀ p : Fin 6, k.pid p = occupied) ∧ Obs.returned k.trace.activations (-1) ∈
      (execute shellImage (fun _ => .zero) k (some shellName)).1.trace.log.drop k.trace.log.length)
    (by decide +kernel)
  exact ⟨k, hk, hfull, (failed_execute_keeps shellImage (fun _ => .zero) k _).1 hret⟩

/-! ### Loading -/

/-- The bytes that `execute` stores from `PROGRAM_IMG` on. -/
def loadedBytes (img : Image) (d : Dentry) : List UInt8 :=
  (readData img d.inodeNum 0 true (img.inode d.inodeNum).length).bytes

/-- The bytes that `execute` stores in `entry_point`. -/
def entryBytes (img : Image) (d : Dentry) : List UInt8 := (readData img d.inodeNum 24 true 4).bytes

/-- The word at bytes 24 to 27 of a file. -/
def entryWord (img : Image) (d : Dentry) : UInt32 :=
  word32 fun i => (contents img d.inodeNum).getD (24 + i) 0

/-- The file of the entry has been loaded by call number `act` for the process `slot`: its
contents are at 0x08048000 in the page of that process, nothing was stored behind the page,
and the process was entered where bytes 24 to 27 of the file say. -/
structure Loaded (img : Image) (d : Dentry) (act : ℕ) (slot : Fin 6) (k k' : State) : Prop where
  mapped : k'.pageDirectory 32 = State.userEntry slot
  page : ∀ i < (img.inode d.inodeNum).length,
    k'.userPage slot (programOffset + i) = (contents img d.inodeNum).getD i 0
  inside : programOffset + (loadedBytes img d).length ≤ fourMb
  entry : 28 ≤ (img.inode d.inodeNum).length ∧ ∃ parent fds,
    Obs.spawned act slot parent fds (entryWord img d) ∈ k'.trace.log.drop k.trace.log.length

/-- The inode is one of the image, and the file reaches to the end of its entry point, fits
in the page, and is not longer than `read_data` goes. -/
structure Loadable (img : Image) (d : Dentry) : Prop where
  inode : d.inodeNum < img.bootBlock.fileStat.inodeNum
  entry : 28 ≤ (img.inode d.inodeNum).length
  room : programOffset + (img.inode d.inodeNum).length ≤ fourMb
  blocks : (img.inode d.inodeNum).length ≤ img.bootBlock.fileStat.dataBlockNum * kb4 + 1

section Enter
variable (img : Image) (stack : Stack) (k : State) (act : ℕ) (slot : Fin 6) (d : Dentry)
  (arg : List UInt8)

theorem enter_pageDirectory : (enter img stack k act slot d arg).pageDirectory = k.pageDirectory := by
  simp only [enter]
  split_ifs <;> rfl

theorem enter_page (hfit : programOffset + (loadedBytes img d).length ≤ fourMb) (i : ℕ) :
    (enter img stack k act slot d arg).userPage slot (programOffset + i) =
      overlay (loadedBytes img d) (fun j => k.userPage slot (programOffset + j)) i := by
  have hfit' : ¬ fourMb <
      programOffset + (readData img d.inodeNum 0 true (img.inode d.inodeNum).length).bytes.length :=
    Nat.not_lt.mpr hfit
  rw [enter]
  simp only [if_neg hfit']
  change update k.userPage slot (fun j => if programOffset ≤ j ∧
    j < programOffset + (loadedBytes img d).length then
      (loadedBytes img d).getD (j - programOffset) 0 else k.userPage slot j) slot (programOffset + i) = _
  rw [Function.update_self, overlay]
  by_cases hi : i < (loadedBytes img d).length
  · rw [if_pos ⟨by omega, by omega⟩, Nat.add_sub_cancel_left]
    simp [List.getD_eq_getElem?_getD, hi]
  · rw [if_neg (by omega)]
    simp [List.getD_eq_getElem?_getD, Nat.not_lt.mp hi]

theorem enter_spawned (hfit : programOffset + (loadedBytes img d).length ≤ fourMb) :
    ∃ fds, (enter img stack k act slot d arg).trace.log = k.trace.log ++
      [.spawned act slot k.running fds (word32 (overlay (entryBytes img d) stack.entryPoint))] := by
  have hfit' : ¬ fourMb <
      programOffset + (readData img d.inodeNum 0 true (img.inode d.inodeNum).length).bytes.length :=
    Nat.not_lt.mpr hfit
  rw [enter]
  simp only [if_neg hfit']
  exact ⟨_, rfl⟩

end Enter

/-! The bytes that are stored: the beginning of the file as far as `read_data` goes. -/

theorem loadedBytes_eq {img : Image} {d : Dentry}
    (hino : d.inodeNum < img.bootBlock.fileStat.inodeNum) (hpos : 0 < (img.inode d.inodeNum).length) :
    loadedBytes img d = (contents img d.inodeNum).take (readEnd img 0) := by
  rw [loadedBytes, readData_places, readPlaces_eq img _ hino hpos, contents, ← List.map_take,
    take_range'_min, List.map_map, Nat.sub_zero, Nat.min_comm]
  rfl

theorem readEnd_zero {img : Image} (h : 0 < img.bootBlock.fileStat.dataBlockNum) :
    readEnd img 0 = blockLimit img * kb4 + 1 := by
  have hstop : ¬ stopBlock img (0 / kb4) ≤ 0 / kb4 := by
    rw [Nat.zero_div, stopBlock_le_iff]
    omega
  rw [readEnd, if_neg hstop]
  rfl

namespace Loadable
variable {img : Image} {d : Dentry} (h : Loadable img d)
include h

theorem dataBlockNum_pos : 0 < img.bootBlock.fileStat.dataBlockNum := by
  have h28 := h.entry
  have hblocks := h.blocks
  by_contra hzero
  rw [Nat.eq_zero_of_not_pos hzero] at hblocks
  omega

theorem length_le_readEnd : (img.inode d.inodeNum).length ≤ readEnd img 0 := by
  have hroom : (img.inode d.inodeNum).length ≤ 1022 * kb4 + 1 :=
    (Nat.le_sub_of_add_le' h.room).trans (by decide)
  rw [readEnd_zero h.dataBlockNum_pos, blockLimit, Nat.min_def]
  split_ifs
  · exact hroom
  · exact h.blocks

theorem loadedBytes_eq_contents : loadedBytes img d = contents img d.inodeNum := by
  have h28 := h.entry
  rw [loadedBytes_eq h.inode (by omega), List.take_of_length_le]
  rw [contents_length]
  exact h.length_le_readEnd

theorem fits : programOffset + (loadedBytes img d).length ≤ fourMb := by
  rw [h.loadedBytes_eq_contents, contents_length]
  exact h.room

theorem entryBytes_eq : entryBytes img d = ((contents img d.inodeNum).drop 24).take 4 := by
  have h28 := h.entry
  have hlimit : 0 < blockLimit img := Nat.lt_min.mpr ⟨by decide, h.dataBlockNum_pos⟩
  have hroom : min 4 (blockLimit img * kb4 + 1 - 24) = min 4 ((img.inode d.inodeNum).length - 24) := by
    simp only [kb4]
    omega
  rw [entryBytes, readData_bytes img 4 h.inode (by omega) (by simpa [kb4] using hlimit), hroom, contents,
    ← List.map_drop, ← List.map_take, List.drop_range', take_range'_min]

/-- The four bytes are all stored, and nothing is left of the stack. -/
theorem entryPoint_eq (old : ℕ → UInt8) :
    word32 (overlay (entryBytes img d) old) = entryWord img d := by
  have h28 := h.entry
  have hbyte : ∀ i < 4, overlay (entryBytes img d) old i =
      (contents img d.inodeNum).getD (24 + i) 0 := by
    intro i hi
    have hlt : 24 + i < (contents img d.inodeNum).length := by
      rw [contents_length]
      omega
    rw [overlay, h.entryBytes_eq, List.getD_eq_getElem?_getD, List.getD_eq_getElem?_getD,
      List.getElem?_take_of_lt hi, List.getElem?_drop, List.getElem?_eq_getElem hlt]
    rfl
  simp only [entryWord, word32, hbyte 0 (by decide), hbyte 1 (by decide), hbyte 2 (by decide),
    hbyte 3 (by decide)]

end Loadable

/-! ### What makes a load faithful -/

/-- The stacks with other bytes where `entry_point` will be. -/
def withEntryPoint (stack : ℕ → Stack) (old : ℕ → UInt8) (n : ℕ) : Stack :=
  { stack n with entryPoint := old }

section Load
variable {img : Image} {stack : ℕ → Stack} {k : State} {command : Option CString} {slot : Fin 6}
  {d : Dentry}

theorem admission_of_admitted (hadm : Admitted img stack k command)
    (hd : readDentryByName img (CString.ofBuf (parse command).filename) = some d) :
    admission img (stack k.trace.activations) k command = .admitted d (parse command).arg := by
  have haccepts : (admission img (stack k.trace.activations) k command).accepts = true := hadm
  cases hcheck : admission img (stack k.trace.activations) k command with
  | refused message =>
    rw [hcheck] at haccepts
    cases haccepts
  | admitted d' arg =>
    simp only [admission, hd] at hcheck
    split_ifs at hcheck
    exact hcheck.symm

/-- The checks look at these parts of the stack and of the state only. -/
theorem admission_congr {st st' : Stack} {k' : State} (hmagic : st'.magic = st.magic)
    (hrunning : k'.running = k.running) (hcounter : k'.processCounter = k.processCounter) :
    admission img st' k' command = admission img st k command := by
  simp only [admission, hmagic, hrunning, hcounter]

/-- The state in which an admitted call enters its program, on a stack and in pages that
may have held anything. -/
theorem execute_loads (hadm : Admitted img stack k command) (hfind : findPid k.pid = some slot)
    (hd : readDentryByName img (CString.ofBuf (parse command).filename) = some d)
    (old : ℕ → UInt8) (page : Fin 6 → ℕ → UInt8) :
    (execute img (withEntryPoint stack old) { k with userPage := page } command).1 =
      enter img (withEntryPoint stack old k.trace.activations)
        (claimPid (beginCall { k with userPage := page }) (some slot)) k.trace.activations slot d
        (parse command).arg := by
  have hcheck : admission img (withEntryPoint stack old k.trace.activations)
      (beginCall { k with userPage := page }) command = .admitted d (parse command).arg := by
    rw [← admission_of_admitted hadm hd]
    exact admission_congr rfl rfl rfl
  have hfind' : findPid (beginCall { k with userPage := page }).pid = some slot := hfind
  simp only [execute, hcheck, hfind']

/-- What such a call notes down. -/
theorem enter_notes (k : State) (slot : Fin 6) (st : Stack) (arg : List UInt8)
    (hfit : programOffset + (loadedBytes img d).length ≤ fourMb) :
    ∃ fds, (enter img st (claimPid (beginCall k) (some slot)) k.trace.activations slot d
        arg).trace.log.drop k.trace.log.length =
      [.findPid slot, .mapped (State.userEntry slot), .spawned k.trace.activations slot k.running fds
        (word32 (overlay (entryBytes img d) st.entryPoint))] := by
  obtain ⟨fds, hlog⟩ := enter_spawned img st (claimPid (beginCall k) (some slot))
    k.trace.activations slot d arg hfit
  have hclaim : (claimPid (beginCall k) (some slot)).trace.log =
      k.trace.log ++ [.findPid slot, .mapped (State.userEntry slot)] := by
    simp [claimPid, State.mapUser, State.note, beginCall, pidValue]
  refine ⟨fds, ?_⟩
  rw [hlog, hclaim, List.append_assoc, List.drop_left]
  rfl

theorem Loadable.loaded (h : Loadable img d) (k : State) (slot : Fin 6) (st : Stack)
    (arg : List UInt8) :
    Loaded img d k.trace.activations slot k
      (enter img st (claimPid (beginCall k) (some slot)) k.trace.activations slot d arg) where
  mapped := by
    rw [enter_pageDirectory]
    exact Function.update_self 32 (State.userEntry slot) k.pageDirectory
  page i hi := by
    have hlt : i < (contents img d.inodeNum).length := by rwa [contents_length]
    rw [enter_page _ _ _ _ _ _ _ h.fits, h.loadedBytes_eq_contents, overlay,
      List.getD_eq_getElem _ _ hlt, List.getD_eq_getElem _ _ hlt]
  inside := h.fits
  entry := by
    obtain ⟨fds, hnotes⟩ := enter_notes k slot st arg h.fits
    rw [h.entryPoint_eq] at hnotes
    refine ⟨h.entry, k.running, fds, ?_⟩
    simp [hnotes]

/-- The entry point is the word of the file whatever the stack held: all of it was read. -/
theorem inode_lt_of_entry (h : ∀ old, word32 (overlay (entryBytes img d) old) = entryWord img d) :
    d.inodeNum < img.bootBlock.fileStat.inodeNum := by
  by_contra hino
  have hnone : entryBytes img d = [] := by
    rw [entryBytes, readData_places, List.map_eq_nil_iff]
    exact if_pos (.inl (Nat.not_lt.mp hino))
  rw [hnone] at h
  exact absurd ((h fun _ => 0).trans (h fun _ => 1).symm) (by decide)

theorem readEnd_zero_le (img : Image) :
    readEnd img 0 ≤ img.bootBlock.fileStat.dataBlockNum * kb4 + 1 := by
  rw [readEnd]
  split_ifs
  · exact Nat.zero_le _
  · exact Nat.add_le_add_right (Nat.mul_le_mul_right _ (Nat.min_le_right _ _)) 1

/-- The page holds the file whatever it held before: all of the file was read. -/
theorem length_le_of_page (hino : d.inodeNum < img.bootBlock.fileStat.inodeNum)
    (h : ∀ old : ℕ → UInt8, ∀ i < (img.inode d.inodeNum).length,
      overlay (loadedBytes img d) old i = (contents img d.inodeNum).getD i 0) :
    (img.inode d.inodeNum).length ≤ readEnd img 0 := by
  by_contra hlt
  have hkeeps : ∀ old : ℕ → UInt8, overlay (loadedBytes img d) old (readEnd img 0) =
      old (readEnd img 0) := by
    intro old
    rw [overlay, loadedBytes_eq hino (by omega), List.getD_eq_getElem?_getD, List.getElem?_take,
      if_neg (lt_irrefl _)]
    rfl
  have hzero := h (fun _ => 0) (readEnd img 0) (by omega)
  have hone := h (fun _ => 1) (readEnd img 0) (by omega)
  rw [hkeeps] at hzero hone
  exact absurd (hzero.trans hone.symm) (by decide)

end Load

/-- A command that is accepted is loaded as its file says, whatever its stack and its page
held before, exactly when the file is loadable. -/
theorem loads_file_iff (img : Image) (stack : ℕ → Stack) (k : State) (command : Option CString)
    (slot : Fin 6) (d : Dentry) (hadm : Admitted img stack k command)
    (hfind : findPid k.pid = some slot)
    (hd : readDentryByName img (CString.ofBuf (parse command).filename) = some d) :
    (∀ old page, Loaded img d k.trace.activations slot k
        (execute img (withEntryPoint stack old) { k with userPage := page } command).1) ↔
      Loadable img d := by
  simp only [execute_loads hadm hfind hd]
  constructor
  · intro h
    have hfit := (h (fun _ => 0) k.userPage).inside
    have hentry : ∀ old, word32 (overlay (entryBytes img d) old) = entryWord img d := by
      intro old
      obtain ⟨-, parent, fds, hmem⟩ := (h old k.userPage).entry
      obtain ⟨fds', hnotes⟩ := enter_notes k slot (withEntryPoint stack old k.trace.activations)
        (parse command).arg hfit
      rw [hnotes] at hmem
      simp at hmem
      exact hmem.2.2.symm
    have hino := inode_lt_of_entry hentry
    have hlen : (img.inode d.inodeNum).length ≤ readEnd img 0 := by
      refine length_le_of_page hino fun old i hi => ?_
      have hold : (fun j => old (programOffset + j - programOffset)) = old := by
        funext j
        rw [Nat.add_sub_cancel_left]
      have hpage := (h (fun _ => 0) fun _ j => old (j - programOffset)).page i hi
      rw [enter_page _ _ _ _ _ _ _ hfit] at hpage
      rw [← hpage]
      exact congrArg (fun f => overlay (loadedBytes img d) f i) hold.symm
    have h28 := (h (fun _ => 0) k.userPage).entry.1
    have hbytes : (loadedBytes img d).length = (img.inode d.inodeNum).length := by
      rw [loadedBytes_eq hino (by omega), List.length_take, contents_length, Nat.min_eq_right hlen]
    exact ⟨hino, h28, hbytes ▸ hfit, hlen.trans (readEnd_zero_le img)⟩
  · intro h old page
    have hload := h.loaded { k with userPage := page } slot
      (withEntryPoint stack old k.trace.activations) (parse command).arg
    exact ⟨hload.mapped, hload.page, hload.inside, hload.entry⟩

/-- The files of the image, made 28 bytes long. -/
def programImage : Image := { shellImage with inode := fun i => ⟨28, fun _ => i⟩ }

theorem loads_file_iff_program : ∃ d, Loaded programImage d 0 0 .cleared
    (execute programImage (withEntryPoint (fun _ => .zero) fun _ => 7)
      { State.cleared with userPage := fun _ _ => 7 } (some shellName)).1 := by
  refine ⟨Dentry.regular shellName.bytes 0, ?_⟩
  have hfits : Loadable programImage (Dentry.regular shellName.bytes 0) :=
    ⟨by decide, by decide, by decide, by decide⟩
  exact (loads_file_iff programImage (fun _ => .zero) .cleared (some shellName) 0 _ (by decide +kernel)
    (by decide) (by decide +kernel)).mpr hfits _ _

/-- A file of four bytes passes the checks, and has no entry point. -/
theorem loads_short_file : Admitted shellImage (fun _ => .zero) .cleared (some shellName) ∧
    (shellImage.inode 0).length = 4 ∧
      ¬ ∃ d, readDentryByName shellImage shellName = some d ∧ Loaded shellImage d 0 0 .cleared
        (execute shellImage (fun _ => .zero) .cleared (some shellName)).1 := by
  refine ⟨by decide +kernel, rfl, ?_⟩
  rintro ⟨d, hd, hloaded⟩
  exact absurd hloaded.entry.1 (show ¬ 28 ≤ 4 by decide)

end Ece391.Kernel

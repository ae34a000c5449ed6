import Ece391.Devices.Keyboard
import Ece391.Kernel.Frames

/-! The page tables of `paging.c` and the operations that write them: `paging_init`,
`vidmap`, the switch between terminals and the scheduler. One page table serves two
entries of the page directory, the first for the low 4 MB and the one at 136 MB that
`vidmap` gives to user programs. -/

namespace Ece391.Kernel

open Function (update)
open Lib FileSys Syscall Devices

abbrev lowerboundVid : ℕ := 0x8000000
abbrev upperboundVid : ℕ := 0x8400000
abbrev mb136 : ℕ := 0x8800000
abbrev mb4 : ℕ := 0x400000

/-- The address of `page_table_video`, which the linker puts at the start of a page. -/
def tableAddr (tablePage : ℕ) : ℕ := 0x1000 * tablePage

def pagingInit (tablePage : ℕ) (k : State) : State :=
  let directory := fun i => if i < 1024 then 0 else k.pageDirectory i
  let table := fun i => if i < 1024 then 0 else k.pageTableVideo i
  { k with
    pageDirectory := update (update directory 0 (tableAddr tablePage ||| 0x03)) 1 (0x400000 ||| 0x83)
    pageTableVideo := update (update (update (update table 0xB8 (videoMem ||| 0x03))
      0xB9 (vidPage 0 ||| 0x03)) 0xBA (vidPage 1 ||| 0x03)) 0xBB (vidPage 2 ||| 0x03) }

def mapVideoMemory (tablePage virtualAddr physAddr : ℕ) (k : State) : State :=
  { k with
    pageDirectory := update k.pageDirectory (virtualAddr / mb4) (tableAddr tablePage ||| vidMemFlag)
    pageTableVideo := update k.pageTableVideo 0 (physAddr ||| vidMemFlag) }

/-- A little-endian word in memory. -/
def storeWord (mem : ℕ → UInt8) (addr word : ℕ) : ℕ → UInt8 :=
  fun i => if addr ≤ i ∧ i < addr + 4 then (word / 256 ^ (i - addr)).toUInt8 else mem i

/-- The range check of `vidmap`. -/
def AcceptsPointer (screenStart : ℕ) : Prop :=
  screenStart ≠ 0 ∧ lowerboundVid ≤ screenStart ∧ screenStart ≤ upperboundVid

instance (screenStart : ℕ) : Decidable (AcceptsPointer screenStart) :=
  inferInstanceAs (Decidable (_ ∧ _ ∧ _))

/-- `vidmap` up to the store of its result. The entry for the terminal is stored at the
index `video_mem`, far behind the table, and not at 0. -/
def openWindow (tablePage : ℕ) (k : State) : State :=
  let k := mapVideoMemory tablePage mb136 videoMem k
  { k with pageTableVideo := update k.pageTableVideo videoMem (videoEntry k) }

/-- `vidmap` by the process `p`, with its result. A pointer within the last bytes of the
range makes the store of the result run out of the user page. -/
def vidmap (tablePage : ℕ) (img : Image) (stack : ℕ → Stack) (k : State) (p : Fin 6)
    (screenStart : ℕ) : State × Option ℤ :=
  if AcceptsPointer screenStart then
    let k := openWindow tablePage k
    if screenStart + 4 ≤ upperboundVid then
      let page := storeWord (k.userPage p) (screenStart - lowerboundVid) mb136
      ({ k with userPage := update k.userPage p page }, some 0)
    else (trap img stack k p .pf, none)
  else (k, some (-1))

/-- `terminal_switch`. -/
def switchTerminal (k : State) (newTerminal : Fin 3) : State :=
  let k := { k with dev := { k.dev with display := terminalSwitch newTerminal k.dev.display } }
  { k with pageTableVideo := update k.pageTableVideo 0 (videoEntry k) }

/-- An event of the kernel, a switch, or a call of `vidmap` by the running process. -/
inductive VideoEvent
  | kernel (e : Event)
  | switch (newTerminal : Fin 3)
  | vidmap (screenStart : ℕ)

def videoStep (tablePage : ℕ) (img : Image) (stack : ℕ → Stack) (k : State) :
    VideoEvent → Option State
  | .kernel e => step img stack k e
  | .switch newTerminal => if k.lost then none else some (switchTerminal k newTerminal)
  | .vidmap screenStart =>
    if k.lost then none
    else k.running.map fun p => (vidmap tablePage img stack k p screenStart).1

/-! ### Translation -/

/-- The lowest bit of an entry. -/
def Present (entry : ℕ) : Prop := entry % 2 = 1

/-- The entry of the directory is for a page of 4 MB. -/
def Large (entry : ℕ) : Prop := entry / 0x80 % 2 = 1

instance : DecidablePred Present := fun _ => inferInstanceAs (Decidable (_ = _))
instance : DecidablePred Large := fun _ => inferInstanceAs (Decidable (_ = _))

/-- The physical address of a virtual one, if both entries on the way are present. -/
def translate (tablePage : ℕ) (k : State) (addr : ℕ) : Option ℕ :=
  let pde := k.pageDirectory (addr / mb4)
  let pte := k.pageTableVideo (addr / 0x1000 % 1024)
  if ¬ Present pde then none
  else if Large pde then some (pde / mb4 * mb4 + addr % mb4)
  else if pde / 0x1000 ≠ tablePage then none
  else if ¬ Present pte then none
  else some (pte / 0x1000 * 0x1000 + addr % 0x1000)

/-- The flags of an entry do not touch its address. -/
theorem entry_eq (page : ℕ) {flags : ℕ} (h : flags < 0x1000) :
    0x1000 * page ||| flags = 0x1000 * page + flags :=
  (Nat.two_pow_add_eq_or_of_lt (i := 12) h page).symm

section Translate
variable {tablePage : ℕ} {k : State} {addr : ℕ}

/-- Through an entry of the directory for the table, the entry of the table decides. -/
theorem translate_table {flags : ℕ} (hflags : flags = 0x03 ∨ flags = 0x07)
    (hpde : k.pageDirectory (addr / mb4) = tableAddr tablePage ||| flags) :
    translate tablePage k addr =
      if Present (k.pageTableVideo (addr / 0x1000 % 1024)) then
        some (k.pageTableVideo (addr / 0x1000 % 1024) / 0x1000 * 0x1000 + addr % 0x1000)
      else none := by
  rw [tableAddr, entry_eq tablePage (by omega)] at hpde
  have hpresent : Present (0x1000 * tablePage + flags) := by
    unfold Present
    omega
  have hlarge : ¬ Large (0x1000 * tablePage + flags) := by
    unfold Large
    omega
  have hpage : (0x1000 * tablePage + flags) / 0x1000 = tablePage := by omega
  simp only [translate, hpde, hpresent, hlarge, hpage, not_true_eq_false, if_false, ne_eq]
  split_ifs <;> rfl

end Translate

/-! ### What the operations write -/

/-- Neither table changed outside the user page, nor did the turn or the visible
terminal. -/
structure SameTables (k k' : State) : Prop where
  pageTableVideo : k'.pageTableVideo = k.pageTableVideo
  pageDirectory : ∀ i, i ≠ 32 → k'.pageDirectory i = k.pageDirectory i
  currScheduler : k'.currScheduler = k.currScheduler
  currentTerminal : k'.dev.display.currentTerminal = k.dev.display.currentTerminal

theorem SameTables.trans {k k' k'' : State} (h : SameTables k k') (h' : SameTables k' k'') :
    SameTables k k'' :=
  ⟨h'.pageTableVideo.trans h.pageTableVideo,
    fun i hi => (h'.pageDirectory i hi).trans (h.pageDirectory i hi),
    h'.currScheduler.trans h.currScheduler, h'.currentTerminal.trans h.currentTerminal⟩

theorem Kept.sameTables {k k' : State} (h : Kept k k') : SameTables k k' :=
  ⟨h.pageTableVideo, h.pageDirectory, h.currScheduler, h.currentTerminal⟩

theorem SameTables.videoEntry {k k' : State} (h : SameTables k k') :
    videoEntry k' = videoEntry k := by
  rw [Kernel.videoEntry, Kernel.videoEntry, h.currScheduler, h.currentTerminal]

theorem clearScreen_sameTables (k : State) : SameTables k (clearScreen k) := by
  constructor <;> simp [clearScreen, clearSet, setCursor, clear]

theorem openWindow_directory (tablePage : ℕ) (k : State) (i : ℕ) :
    (openWindow tablePage k).pageDirectory i =
      if i = 34 then tableAddr tablePage ||| vidMemFlag else k.pageDirectory i :=
  Function.update_apply k.pageDirectory 34 _ i

theorem openWindow_entry (tablePage : ℕ) (k : State) :
    (openWindow tablePage k).pageTableVideo 0 = videoMem ||| vidMemFlag := by
  simp only [openWindow, mapVideoMemory]
  rw [Function.update_of_ne (by decide), Function.update_self]

/-- The scheduler and a switch both set the first entry for the terminal whose turn
it is. -/
theorem continueProcess_entry (k : State) (p : Fin 6) :
    (continueProcess k p).pageTableVideo 0 = videoEntry (continueProcess k p) := by
  have hentry : videoEntry (continueProcess k p) = videoEntry k := rfl
  rw [hentry]
  simp [continueProcess, State.mapUser, State.setEsp0, State.note]

theorem switchTerminal_entry (k : State) (n : Fin 3) :
    (switchTerminal k n).pageTableVideo 0 = videoEntry (switchTerminal k n) := by
  simp [switchTerminal, videoEntry]

/-- The tick starts a shell on a terminal that gets its turn for the first time. -/
def FillsTerminal (k : State) : Prop := k.running ≠ none ∧ (nextTurn k).running = none

/-- The tick lets a process go on. -/
def Resumes (k : State) : Prop := k.running ≠ none ∧ (nextTurn k).running ≠ none

instance : DecidablePred FillsTerminal := fun _ => inferInstanceAs (Decidable (_ ∧ _))
instance : DecidablePred Resumes := fun _ => inferInstanceAs (Decidable (_ ∧ _))

/-- How an event can change the tables. -/
inductive Retables (tablePage : ℕ) (k k' : State) : VideoEvent → Prop
  | other (e : Event) (he : e = .tick → ¬ FillsTerminal k ∧ ¬ Resumes k) (h : SameTables k k') :
    Retables tablePage k k' (.kernel e)
  | newShell (hk : FillsTerminal k) (h : SameTables (nextTurn k) k') :
    Retables tablePage k k' (.kernel .tick)
  | turn (q : Fin 6) (hk : Resumes k) (h : k' = continueProcess (nextTurn k) q) :
    Retables tablePage k k' (.kernel .tick)
  | switch (newTerminal : Fin 3) (h : k' = switchTerminal k newTerminal) :
    Retables tablePage k k' (.switch newTerminal)
  | refused (screenStart : ℕ) (hs : ¬ AcceptsPointer screenStart) (h : k' = k) :
    Retables tablePage k k' (.vidmap screenStart)
  | mapped (screenStart : ℕ) (hs : AcceptsPointer screenStart)
    (h : SameTables (openWindow tablePage k) k') : Retables tablePage k k' (.vidmap screenStart)

theorem vidmap_sameTables (tablePage : ℕ) (img : Image) (stack : ℕ → Stack) (k : State) (p : Fin 6)
    {screenStart : ℕ} (hs : AcceptsPointer screenStart) :
    SameTables (openWindow tablePage k) (vidmap tablePage img stack k p screenStart).1 := by
  simp only [vidmap, hs, if_true]
  split_ifs
  · exact ⟨rfl, fun _ _ => rfl, rfl, rfl⟩
  · exact (trap_kept img stack _ p .pf).sameTables

theorem videoStep_cases {tablePage : ℕ} {img : Image} {stack : ℕ → Stack} {k k' : State}
    {e : VideoEvent} (h : videoStep tablePage img stack k e = some k') : Retables tablePage k k' e := by
  cases e with
  | kernel e =>
    simp only [videoStep] at h
    by_cases he : e = .tick
    · subst he
      obtain ⟨-, hby⟩ := step_by h
      cases hby with
      | firstShell hrun hcs =>
        refine .other .tick (fun _ => ⟨fun hk => hk.1 hrun, fun hk => hk.1 hrun⟩) ?_
        exact (clearScreen_sameTables k).trans (startShell_kept img stack _).sameTables
      | noProcess hrun hcs =>
        refine .other .tick (fun _ => ⟨fun hk => hk.1 hrun, fun hk => hk.1 hrun⟩) ?_
        exact ⟨rfl, fun _ _ => rfl, rfl, rfl⟩
      | newShell p hrun hnext =>
        exact .newShell ⟨by simp [hrun], hnext⟩ (startShell_kept img stack _).sameTables
      | turn p q hrun hnext => exact .turn q ⟨by simp [hrun], by simp [hnext]⟩ rfl
    · exact .other e (fun ht => absurd ht he) (step_kept h he).sameTables
  | switch n =>
    simp only [videoStep] at h
    split_ifs at h
    exact .switch n (Option.some.inj h).symm
  | vidmap screenStart =>
    simp only [videoStep] at h
    split_ifs at h
    obtain ⟨p, -, rfl⟩ := Option.map_eq_some_iff.mp h
    by_cases hs : AcceptsPointer screenStart
    · exact .mapped screenStart hs (vidmap_sameTables tablePage img stack k p hs)
    · refine .refused screenStart hs ?_
      simp [vidmap, hs]

end Ece391.Kernel

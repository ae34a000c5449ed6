import Ece391.Devices.Editing
import Ece391.Kernel.Isolation

/-! The page below the screens. `paging_init` leaves it out and no operation of the kernel
puts it in, so a character that is deleted there is a page fault in the keyboard handler. -/

namespace Ece391.Kernel

open Function (update)
open Lib FileSys Syscall Devices Support.Runs

/-- The kernel can use the byte at an address. -/
def mapped (tablePage : ℕ) (k : State) (addr : ℕ) : Bool := (translate tablePage k addr).isSome

/-- The entries of the table behind the first one. -/
def screenTable (i : ℕ) : ℕ := if 0xB8 ≤ i ∧ i ≤ 0xBB then 0x1000 * i ||| 0x03 else 0

theorem screenTable_present (i : ℕ) : Present (screenTable i) ↔ 0xB8 ≤ i ∧ i ≤ 0xBB := by
  unfold screenTable
  split_ifs with hi
  · rw [entry_eq i (by decide), Present]
    omega
  · simp [hi, Present]

/-- The low 4 MB as `paging_init` sets them up. -/
structure LowMemory (tablePage : ℕ) (k : State) : Prop where
  guarded : Guarded tablePage k
  table : ∀ i, 0 < i → i < 1024 → k.pageTableVideo i = screenTable i

theorem pagingInit_lowMemory (tablePage : ℕ) (k : State) :
    LowMemory tablePage (pagingInit tablePage k) := by
  refine ⟨pagingInit_guarded tablePage k, fun i _ hi => ?_⟩
  simp only [pagingInit, Function.update_apply, hi, if_true, screenTable]
  split_ifs <;> first | omega | simp_all [vidPage, videoMem]

section Table
variable {tablePage : ℕ} {k k' : State}

theorem SameTables.table (h : SameTables k k') (i : ℕ) : k'.pageTableVideo i = k.pageTableVideo i :=
  congrFun h.pageTableVideo i

/-- Of the table itself, the operations write the first entry alone. -/
theorem Retables.table {e : VideoEvent} (h : Retables tablePage k k' e) {i : ℕ} (hi : 0 < i)
    (hlast : i < 1024) : k'.pageTableVideo i = k.pageTableVideo i := by
  cases h with
  | other e _ hs => exact hs.table i
  | newShell _ hs => exact hs.table i
  | turn q _ hk => exact hk ▸ Function.update_of_ne hi.ne' _ _
  | switch n hk => exact hk ▸ Function.update_of_ne hi.ne' _ _
  | refused _ _ hk => rw [hk]
  | mapped _ _ hs =>
    have hvideo : i ≠ videoMem := by
      simp only [videoMem]
      omega
    rw [hs.table i, openWindow, mapVideoMemory]
    simp only [Function.update_of_ne hvideo, Function.update_of_ne hi.ne']

theorem LowMemory.step {img : Image} {stack : ℕ → Stack} (h : LowMemory tablePage k) {e : UserEvent}
    (hs : userStep tablePage img stack k e = some k') : LowMemory tablePage k' := by
  refine ⟨h.guarded.step hs, fun i hi hlast => ?_⟩
  rw [← h.table i hi hlast]
  cases userStep_by hs with
  | video e hs => exact (videoStep_cases hs).table hi hlast
  | fault p addr byte _ _ hk => exact hk ▸ (trap_kept img stack k p .pf).sameTables.table i
  | stored p addr byte phys _ _ hk => exact hk ▸ (storePhys_same k phys byte).2.table i
  | readTo p fd addr nbytes keyBuf _ hk =>
    rw [hk, (deliver_same _ p addr _).2.table i, (fileCall_kept img k p _).sameTables.table i]
  | getargsTo p addr nbytes _ hk => exact hk ▸ (deliver_same k p addr _).2.table i

/-- In the low 4 MB behind the first page, only the screens are there. -/
theorem LowMemory.mapped_iff (h : LowMemory tablePage k) {addr : ℕ} (hlow : 0x1000 ≤ addr)
    (hhigh : addr < mb4) :
    mapped tablePage k addr = true ↔ videoMem ≤ addr ∧ addr < videoMem + 4 * 0x1000 := by
  have hpde : addr / mb4 = 0 := Nat.div_eq_of_lt hhigh
  have hpage : 0 < addr / 0x1000 % 1024 := by
    simp only [mb4] at hhigh
    omega
  have htable := @translate_table tablePage k addr 0x03 (.inl rfl) (hpde.symm ▸ h.guarded.low)
  have hpresent : mapped tablePage k addr = true ↔ Present (k.pageTableVideo (addr / 0x1000 % 1024)) := by
    rw [mapped, htable]
    split_ifs with hp <;> simp [hp]
  rw [hpresent, h.table _ hpage (Nat.mod_lt _ (by decide)), screenTable_present]
  simp only [videoMem, mb4] at *
  omega

end Table

/-- What every state of the machine leaves around the screens. -/
theorem screenPages_of_run {tablePage : ℕ} {img : Image} {stack : ℕ → Stack} {k₀ k : State}
    {es : List UserEvent} (hr : run (userStep tablePage img stack) (pagingInit tablePage k₀) es = some k) :
    ScreenPages (mapped tablePage k) := by
  have h := invariant_run (LowMemory tablePage) (fun _ _ _ hs h => h.step hs) hr
    (pagingInit_lowMemory tablePage k₀)
  refine ⟨fun a hlow hhigh => (h.mapped_iff ?_ ?_).mpr ⟨hlow, hhigh⟩, ?_⟩
  · simp only [videoMem] at hlow
    omega
  · simp only [videoMem, mb4] at *
    omega
  · rw [← Bool.not_eq_true, h.mapped_iff (by decide) (by decide)]
    decide

/-- On the pages of any state of the machine, from a state of the keyboard in which the line of
the running and visible terminal is empty and the cursors are on their cells: the read around
which the codes are typed comes back with the reference line just when no Backspace on a line
that is not empty finds the first cell. -/
theorem read_returns_edited_line_iff (tablePage : ℕ) (img : Image) (stack : ℕ → Stack) (k₀ k : State)
    (es : List UserEvent) (hr : run (userStep tablePage img stack) (pagingInit tablePage k₀) es = some k)
    (t : Fin 3) (s : Console) (hplaced : AllPlaced s.display) (before after : List UInt8) (nbytes : ℤ)
    (enter : UInt8) (hs : s.display.currentTerminal = t) (hcount : s.keys.keybufferCount t = 0)
    (hn : 1 ≤ nbytes) (hk : ∀ k ∈ keysOf s.keys.mods (before ++ after), k.edits = true)
    (henter : keyOf ((before ++ after).foldl modifiers s.keys.mods) enter = .enter) :
    ReadsBack (mapped tablePage k) t s before after nbytes enter ↔
      Along (readStep t) (fun s e => ¬ ErasesFirst s e) (.quiet s)
        (lineEvents t before after nbytes enter) :=
  readsBack_iff (screenPages_of_run hr) hplaced hs hcount hn hk henter

/-- The keyboard behind `keyboard_init` and an "x" of a program. -/
def writtenConsole : Console := ⟨keyboardInit blankConsole.keys, putc 0 blankConsole.display 0x78⟩

theorem writtenConsole_placed : AllPlaced writtenConsole.display := by
  have hput : run consoleStep ⟨keyboardInit blankConsole.keys, blankConsole.display⟩ [.put 0 0x78] =
      some writtenConsole := rfl
  have hguard : Along consoleStep (fun s e => ¬ ErasesAtFirst s e)
      ⟨keyboardInit blankConsole.keys, blankConsole.display⟩ [.put 0 0x78] :=
    ⟨not_false, fun _ _ => trivial⟩
  exact allPlaced_of_run (fun _ => ⟨rfl, rfl⟩) hguard hput

/-- "a", a tab and a Backspace are typed around the call of a read with room for three
bytes. -/
theorem read_returns_edited_line_cut :
    ∃ k s', run (pagedStep (mapped 0x500 (pagingInit 0x500 .cleared)) 0) (.quiet writtenConsole)
        (lineEvents 0 [0x1E] [tabPressed, backspacePressed] 3 0x1C ++ List.replicate k .step) = some s' ∧
      s'.reader = .done ∧ s'.buffer = [0x61, space, newline] := by
  obtain ⟨-, k, s', hr, hdone, hbuffer, -⟩ := (read_returns_edited_line_iff 0x500 shellImage
    (fun _ => .zero) .cleared _ [] rfl 0 writtenConsole writtenConsole_placed [0x1E]
    [tabPressed, backspacePressed] 3 0x1C rfl rfl (by decide) (by decide) (by decide)).mpr
    (by decide +kernel)
  exact ⟨k, s', hr, hdone, hbuffer.trans (by decide)⟩

/-- "a", Ctrl+L and Backspace: the key handler takes a page fault, and the Enter never comes
to the read. -/
theorem read_never_returns :
    ¬ ∀ (tablePage : ℕ) (img : Image) (stack : ℕ → Stack) (k₀ k : State) (es : List UserEvent),
      run (userStep tablePage img stack) (pagingInit tablePage k₀) es = some k →
      ∀ (t : Fin 3) (s : Console), AllPlaced s.display → ∀ (before after : List UInt8) (nbytes : ℤ)
        (enter : UInt8), s.display.currentTerminal = t → s.keys.keybufferCount t = 0 → 1 ≤ nbytes →
        (∀ k ∈ keysOf s.keys.mods (before ++ after), k.edits = true) →
        keyOf ((before ++ after).foldl modifiers s.keys.mods) enter = .enter →
        ReadsBack (mapped tablePage k) t s before after nbytes enter := by
  intro h
  have hboot : run (userStep 0x500 shellImage fun _ => .zero) (pagingInit 0x500 .cleared) [] =
      some (pagingInit 0x500 .cleared) := rfl
  have hpages : ScreenPages (mapped 0x500 (pagingInit 0x500 .cleared)) := screenPages_of_run hboot
  have hreads := h 0x500 shellImage (fun _ => .zero) .cleared _ [] rfl 0 writtenConsole
    writtenConsole_placed [] [0x1E, 0x1D, 0x26, 0x0E] 3 0x1C rfl rfl (by decide) (by decide) (by decide)
  have halong := (readsBack_iff hpages writtenConsole_placed rfl rfl (by decide) (by decide)
    (by decide)).mp hreads
  revert halong
  decide +kernel

end Ece391.Kernel

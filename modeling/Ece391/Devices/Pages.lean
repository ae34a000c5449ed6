import Ece391.Devices.Typing

/-! Where the keys store, in the 32-bit arithmetic of the code. The row and the column of a
cursor may both be out of range and name a cell of the screen even so. A Backspace on the
first cell alone goes to another page than those of the screens. -/

namespace Ece391.Devices

open Function (update)
open Lib Support.Runs

/-! ### Cells -/

/-- The cell under a cursor. -/
def cellNumber (x y : ℕ) : ℕ := u32 (numCols * y + x)

/-- The cursor is on a cell of the screen. -/
def Placed (x y : ℕ) : Prop := cellNumber x y < 2000

/-- The two bytes of the cell lie on the four pages of the screens. -/
def OnPages (a : ℕ) : Prop := videoMem ≤ a ∧ a + 1 < videoMem + 4 * 0x1000

theorem u32_add_u32 (m n : ℕ) : u32 (u32 m + n) = u32 (m + n) := Nat.mod_add_mod m _ n

/-- A newline walks down the rows that a long line has filled. -/
theorem wrapLine_rows {fuel x : ℕ} (hfuel : x ≤ fuel) (y : ℕ) :
    ∃ j, u32 (wrapLine fuel x y) = u32 (y + j) ∧ 80 * j ≤ x ∧ x ≤ 80 * j + 80 := by
  induction fuel generalizing x y with
  | zero => exact ⟨0, rfl, by omega, by omega⟩
  | succ fuel ih =>
    rw [wrapLine]
    split
    · next hx =>
      have hx : 80 < x := hx
      obtain ⟨j, hrows, hlow, hhigh⟩ := @ih (x - 80) (by omega) (u32 (y + 1))
      rw [u32_add_u32] at hrows
      exact ⟨j + 1, hrows.trans (congrArg u32 (by omega)), by omega, by omega⟩
    · next hx =>
      have hx : ¬ 80 < x := hx
      exact ⟨0, rfl, by omega, by omega⟩

section Cursor
variable {x y : ℕ} (h : Placed x y)
include h

theorem Placed.landing (c : UInt8) :
    cellNumber (landing c x y).1 (landing c x y).2 < 2080 := by
  unfold Placed cellNumber at *
  rw [Lib.landing]
  split
  · obtain ⟨j, hrows, hlow, hhigh⟩ := wrapLine_rows (le_refl x) y
    have hrow : u32 (wrapLine x x y + 1) = u32 (y + j + 1) := by
      rw [← u32_add_u32, hrows, u32_add_u32]
    have hcell : u32 (numCols * u32 (y + j + 1) + 0) = u32 (numCols * (y + j + 1)) :=
      Nat.mul_mod_mod _ _ _
    have hsum : numCols * (y + j + 1) = numCols * y + x + (80 * j + 80 - x) := by
      simp only [numCols]
      omega
    rw [hrow, hcell, hsum, ← u32_add_u32, u32_of_lt (by omega)]
    omega
  · simp only [u32, numCols] at *
    omega

theorem Placed.putcCursor (c : UInt8) : Placed (putcCursor c x y).1 (putcCursor c x y).2 := by
  have hp := h.landing c
  rw [Lib.putcCursor]
  generalize Lib.landing c x y = p at hp
  have hswap : u32 (p.2 * numCols + p.1) = cellNumber p.1 p.2 := by rw [Nat.mul_comm, cellNumber]
  by_cases hover : Overflows p
  · have hlow : 2000 ≤ cellNumber p.1 p.2 := hswap ▸ hover
    simp only [if_pos hover]
    unfold Placed cellNumber at *
    split_ifs <;>
    · simp only [u32, numCols] at *
      omega
  · have hhigh : cellNumber p.1 p.2 < 2000 := hswap ▸ not_le.mp hover
    simp only [if_neg hover]
    exact hhigh

theorem Placed.cellAddress {base : ℕ} (hb : base + 4000 < 2 ^ 32) :
    cellAddress base x y = base + cellNumber x y * 2 := by
  unfold Placed at h
  simp only [Lib.cellAddress]
  rw [show u32 (numCols * y + x) = cellNumber x y from rfl, u32_of_lt (show _ * 2 < 2 ^ 32 by omega),
    u32_of_lt (by omega)]

theorem Placed.putcCells_in {base : ℕ} (hb : base + 4000 < 2 ^ 32) (c : UInt8) :
    CellsIn base (putcCells base c x y) := by
  intro p hp
  rcases List.mem_append.mp hp with hp | hp
  · split_ifs at hp
    · cases hp
    · obtain rfl := List.mem_singleton.mp hp
      rw [h.cellAddress hb]
      unfold Placed at h
      omega
  · split_ifs at hp
    · exact scrollCells_in base p hp
    · cases hp

end Cursor

/-- Every cursor is on a cell of its screen. -/
def AllPlaced (d : Display) : Prop := ∀ t, Placed (d.screenX t) (d.screenY t)

theorem base_range (d : Display) (t : Fin 3) : videoMem ≤ d.base t ∧ d.base t ≤ 0xBB000 := by
  unfold Display.base vidPage
  split_ifs
  · decide
  · simp only [videoMem]
    omega

theorem CellsIn.onPages {d : Display} {t : Fin 3} {cells : List ℕ} (h : CellsIn (d.base t) cells)
    {a : ℕ} (ha : a ∈ cells) : OnPages a := by
  have hin := h a ha
  have hbase := base_range d t
  unfold OnPages
  simp only [videoMem] at *
  omega

/-! ### Keys -/

/-- A Backspace on a line that is not empty finds the cursor on the first cell. -/
def ErasesAtOrigin (s : Console) (code : UInt8) : Prop :=
  code = backspacePressed ∧ 0 < s.keys.keybufferCount s.display.currentTerminal ∧
    cellNumber (s.display.screenX s.display.currentTerminal)
      (s.display.screenY s.display.currentTerminal) = 0

instance (s : Console) (code : UInt8) : Decidable (ErasesAtOrigin s code) :=
  inferInstanceAs (Decidable (_ ∧ _ ∧ _))

/-- The same of an event. -/
def ErasesAtFirst (s : Console) : ConsoleEvent → Prop
  | .key _ code => ErasesAtOrigin s code
  | .put _ _ => False

instance (s : Console) (e : ConsoleEvent) : Decidable (ErasesAtFirst s e) :=
  match e with
  | .key _ code => inferInstanceAs (Decidable (ErasesAtOrigin s code))
  | .put _ _ => inferInstanceAs (Decidable False)

section Keys
variable {s : Console} {d : Display}

theorem AllPlaced.putc (h : AllPlaced d) (cs : Fin 3) (c : UInt8) : AllPlaced (putc cs d c) := by
  intro t
  rw [Display.putc_screenX, Display.putc_screenY]
  by_cases ht : t = cs
  · subst ht
    rw [Function.update_self, Function.update_self]
    exact (h t).putcCursor c
  · rw [Function.update_of_ne ht, Function.update_of_ne ht]
    exact h t

theorem AllPlaced.putcCall (h : AllPlaced d) (cs : Fin 3) (c : UInt8) :
    ∀ a ∈ (putcCall cs c d).cells, OnPages a :=
  fun _ ha => CellsIn.onPages ((h cs).putcCells_in (d.base_lt cs) c) ha

/-- The cell before the one under the cursor. -/
theorem deleteCall_cell (h : AllPlaced d) {n : ℕ}
    (hn : cellNumber (d.screenX d.currentTerminal) (d.screenY d.currentTerminal) = n + 1) :
    AllPlaced (delete d) ∧ (deleteCall d).cells = [videoMem + n * 2] := by
  have ht := h d.currentTerminal
  have hback : cellNumber (u32 (d.screenX d.currentTerminal + (2 ^ 32 - 1)))
      (d.screenY d.currentTerminal) = n := by
    simp only [Placed, cellNumber, u32, numCols] at *
    omega
  have hplaced : Placed (u32 (d.screenX d.currentTerminal + (2 ^ 32 - 1)))
      (d.screenY d.currentTerminal) := by
    unfold Placed at ht ⊢
    omega
  constructor
  · intro t
    show Placed (update d.screenX d.currentTerminal _ t) (d.screenY t)
    by_cases htc : t = d.currentTerminal
    · subst htc
      rw [Function.update_self]
      exact hplaced
    · rw [Function.update_of_ne htc]
      exact h t
  · rw [deleteCall, hplaced.cellAddress (by decide), hback]

/-- From the first cell `delete` goes to the page below. -/
theorem deleteCall_origin
    (hn : cellNumber (d.screenX d.currentTerminal) (d.screenY d.currentTerminal) = 0) :
    (deleteCall d).cells = [videoMem - 2] := by
  have hback : cellNumber (u32 (d.screenX d.currentTerminal + (2 ^ 32 - 1)))
      (d.screenY d.currentTerminal) = 2 ^ 32 - 1 := by
    simp only [cellNumber, u32, numCols] at *
    omega
  have hlast : ∀ n, n = 2 ^ 32 - 1 → u32 (videoMem + u32 (n * 2)) = videoMem - 2 := by
    intro n hn
    simp only [u32, videoMem]
    omega
  exact congrArg (fun a => [a]) (hlast _ hback)

theorem AllPlaced.typeCharacter (h : AllPlaced s.display) (cs : Fin 3) (c : UInt8) :
    AllPlaced (typeCharacter cs c s).display ∧
      ∀ call ∈ typeCalls cs c s, ∀ a ∈ call.cells, OnPages a := by
  unfold Devices.typeCharacter typeCalls
  split_ifs
  · refine ⟨h.putc cs c, fun call hcall => ?_⟩
    obtain rfl := List.mem_singleton.mp hcall
    exact h.putcCall cs c
  · exact ⟨h, by simp⟩

theorem AllPlaced.iterate (h : AllPlaced s.display) (cs : Fin 3) (c : UInt8) (n : ℕ) :
    AllPlaced ((Devices.typeCharacter cs c)^[n] s).display := by
  induction n with
  | zero => exact h
  | succ n ih =>
    rw [Function.iterate_succ_apply']
    exact (AllPlaced.typeCharacter ih cs c).1

theorem AllPlaced.clearSet (h : AllPlaced d) : AllPlaced (clearSet (clear d)) := by
  intro t
  simp only [Lib.clearSet, setCursor, clear]
  by_cases htc : t = d.currentTerminal
  · subst htc
    rw [Function.update_self, Function.update_self, Placed, cellNumber, u32]
    norm_num
  · rw [Function.update_of_ne htc, Function.update_of_ne htc]
    exact h t

/-- A key keeps the cursors on their cells and stores on the pages of the screens, unless it
is a Backspace on the first cell. -/
theorem AllPlaced.press (h : AllPlaced s.display) (cs : Fin 3) (k : Key)
    (hk : k = .backspace → 0 < s.keys.keybufferCount s.display.currentTerminal →
      cellNumber (s.display.screenX s.display.currentTerminal)
        (s.display.screenY s.display.currentTerminal) ≠ 0) :
    AllPlaced (press cs s k).1.display ∧ ∀ call ∈ pressCalls cs s k, ∀ a ∈ call.cells, OnPages a := by
  have hnewline := h.putcCall cs newline
  cases k with
  | backspace =>
    simp only [Devices.press, pressCalls]
    split_ifs with hcount
    · obtain ⟨n, hn⟩ := Nat.exists_eq_succ_of_ne_zero (hk rfl hcount)
      obtain ⟨hplaced, hcells⟩ := deleteCall_cell h hn
      refine ⟨hplaced, fun call hcall a ha => ?_⟩
      obtain rfl := List.mem_singleton.mp hcall
      rw [hcells, List.mem_singleton] at ha
      have hon := h s.display.currentTerminal
      unfold Placed at hon
      unfold OnPages
      omega
    · exact ⟨h, by simp⟩
  | tab =>
    refine ⟨h.iterate cs space tabLength, fun call hcall => ?_⟩
    obtain ⟨i, -, hcall⟩ := List.mem_flatMap.mp hcall
    exact (AllPlaced.typeCharacter (h.iterate cs space i) cs space).2 call hcall
  | clearScreen => exact ⟨h.clearSet, by simp [pressCalls]⟩
  | switchTo n => exact ⟨h, by simp [pressCalls]⟩
  | interrupt =>
    refine ⟨h.putc cs newline, fun call hcall => ?_⟩
    obtain rfl := List.mem_singleton.mp hcall
    exact hnewline
  | enter =>
    refine ⟨h.putc cs newline, fun call hcall => ?_⟩
    obtain rfl := List.mem_singleton.mp hcall
    exact hnewline
  | character c => exact h.typeCharacter cs c
  | silent => exact ⟨h, by simp [pressCalls]⟩

/-- One event from cursors on their cells. -/
theorem AllPlaced.event {e : ConsoleEvent} (h : AllPlaced s.display)
    (he : ¬ ErasesAtFirst s e) :
    (∀ s', consoleStep s e = some s' → AllPlaced s'.display) ∧
      ∀ call ∈ calls s e, ∀ a ∈ call.cells, OnPages a := by
  cases e with
  | key cs code =>
    have hpress := AllPlaced.press
      (s := { s with keys := { s.keys with mods := modifiers s.keys.mods code } }) h cs
      (keyOf s.keys.mods code) fun hback hcount hx =>
        he ⟨keyOf_eq_backspace.mp hback, hcount, hx⟩
    exact ⟨fun s' hs => Option.some.inj hs ▸ hpress.1, hpress.2⟩
  | put cs c =>
    refine ⟨fun s' hs => Option.some.inj hs ▸ h.putc cs c, fun call hcall => ?_⟩
    obtain rfl := List.mem_singleton.mp hcall
    exact h.putcCall cs c

end Keys

/-- From `keyboard_init` on, the cursors are on their cells as long as no Backspace finds
the first cell. -/
theorem allPlaced_of_run {kb : Keyboard} {d : Display} (hd : ∀ t, d.screenX t = 0 ∧ d.screenY t = 0)
    {es : List ConsoleEvent} {s : Console}
    (hg : Along consoleStep (fun s e => ¬ ErasesAtFirst s e) ⟨keyboardInit kb, d⟩ es)
    (hr : run consoleStep ⟨keyboardInit kb, d⟩ es = some s) : AllPlaced s.display := by
  refine invariant_along (fun s => AllPlaced s.display)
    (fun s e s' he hs h => (h.event he).1 s' hs) hg hr fun t => ?_
  rw [(hd t).1, (hd t).2, Placed, cellNumber, u32]
  norm_num

end Ece391.Devices

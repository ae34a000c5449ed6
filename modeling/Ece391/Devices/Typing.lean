import Ece391.Devices.Screens
import Ece391.Support.Runs

/-! Keys and writes in any order, and the cells they fill. Backspace moves the cursor
to the left whenever the line buffer is not empty. The cursor may stand in the first
column even so, after Ctrl+L or the newline of a program, and then leaves the screen. -/

namespace Ece391.Devices

open Function (update)
open Lib Support.Runs

/-- A scan code, or one character of a `terminal_write`, while `cs` is running. -/
inductive ConsoleEvent
  | key (cs : Fin 3) (code : UInt8)
  | put (cs : Fin 3) (c : UInt8)

def consoleStep (s : Console) : ConsoleEvent → Option Console
  | .key cs code => some (keyboardHandler cs s code).1
  | .put cs c => some { s with display := putc cs s.display c }

/-! ### Stores -/

/-- A call of `putc` or `delete`: the screen it writes on and the cells it fills. -/
structure ScreenCall where
  base : ℕ
  cells : List ℕ

def putcCall (cs : Fin 3) (c : UInt8) (d : Display) : ScreenCall :=
  ⟨d.base cs, putcCells (d.base cs) c (d.screenX cs) (d.screenY cs)⟩

def deleteCall (d : Display) : ScreenCall :=
  ⟨videoMem, [cellAddress videoMem (u32 (d.screenX d.currentTerminal + (2 ^ 32 - 1)))
    (d.screenY d.currentTerminal)]⟩

def typeCalls (cs : Fin 3) (c : UInt8) (s : Console) : List ScreenCall :=
  if s.keys.keybufferCount s.display.currentTerminal < keyboardBufferSize then
    [putcCall cs c s.display]
  else []

/-- The calls behind a key. -/
def pressCalls (cs : Fin 3) (s : Console) : Key → List ScreenCall
  | .backspace =>
    if 0 < s.keys.keybufferCount s.display.currentTerminal then [deleteCall s.display] else []
  | .tab => (List.range tabLength).flatMap fun i =>
      typeCalls cs space ((typeCharacter cs space)^[i] s)
  | .interrupt | .enter => [putcCall cs newline s.display]
  | .character c => typeCalls cs c s
  | .clearScreen | .switchTo _ | .silent => []

def calls (s : Console) : ConsoleEvent → List ScreenCall
  | .key cs code =>
    pressCalls cs { s with keys := { s.keys with mods := modifiers s.keys.mods code } }
      (keyOf s.keys.mods code)
  | .put cs c => [putcCall cs c s.display]

/-- The bytes behind a list of calls. -/
def callBytes (l : List ScreenCall) : Set ℕ := {a | ∃ call ∈ l, a ∈ cellBytes call.cells}

theorem putc_changes (cs : Fin 3) (c : UInt8) (d : Display) :
    Confined (callBytes [putcCall cs c d]) d.vram (putc cs d c).vram := by
  rw [Display.putc_vram]
  apply (putcMem_confined _ _ _ _ _).mono
  exact fun a ha => ⟨_, List.mem_singleton_self _, ha⟩

theorem delete_vram (d : Display) :
    (delete d).vram = setCell d.vram (cellAddress videoMem
      (u32 (d.screenX d.currentTerminal + (2 ^ 32 - 1))) (d.screenY d.currentTerminal)) 0 := by
  simp only [delete, setCursor, cellAddress, Function.update_self]

theorem delete_changes (d : Display) :
    Confined (callBytes [deleteCall d]) d.vram (delete d).vram := by
  rw [delete_vram]
  apply (setCell_confined (List.mem_singleton_self _) d.vram 0).mono
  exact fun a ha => ⟨_, List.mem_singleton_self _, ha⟩

theorem typeCharacter_changes (cs : Fin 3) (c : UInt8) (s : Console) :
    Confined (callBytes (typeCalls cs c s)) s.display.vram (typeCharacter cs c s).display.vram := by
  unfold typeCalls typeCharacter
  split_ifs
  · exact putc_changes cs c s.display
  · exact Confined.refl _ _

theorem typeCharacter_iterate_changes (cs : Fin 3) (c : UInt8) (s : Console) (n : ℕ) :
    Confined (callBytes ((List.range n).flatMap fun i => typeCalls cs c ((typeCharacter cs c)^[i] s)))
      s.display.vram ((typeCharacter cs c)^[n] s).display.vram := by
  induction n with
  | zero => exact Confined.refl _ _
  | succ n ih =>
    rw [List.range_succ, List.flatMap_append, Function.iterate_succ_apply']
    apply Confined.trans (ih.mono _) ((typeCharacter_changes cs c _).mono _)
    · rintro a ⟨call, hcall, ha⟩
      exact ⟨call, List.mem_append_left _ hcall, ha⟩
    · rintro a ⟨call, hcall, ha⟩
      exact ⟨call, List.mem_append_right _ (by simpa using hcall), ha⟩

/-- The calls account for every byte that an event changes, apart from Ctrl+L and a
switch, which fill whole screens. -/
theorem press_changes (cs : Fin 3) (s : Console) (k : Key) (hclear : k ≠ .clearScreen)
    (hswitch : ∀ n, k ≠ .switchTo n) :
    Confined (callBytes (pressCalls cs s k)) s.display.vram (press cs s k).1.display.vram := by
  cases k with
  | backspace =>
    simp only [press, pressCalls]
    split_ifs
    · exact delete_changes s.display
    · exact Confined.refl _ _
  | tab => exact typeCharacter_iterate_changes cs space s tabLength
  | clearScreen => exact absurd rfl hclear
  | switchTo n => exact absurd rfl (hswitch n)
  | interrupt => exact putc_changes cs newline s.display
  | enter => exact putc_changes cs newline s.display
  | character c => exact typeCharacter_changes cs c s
  | silent => exact Confined.refl _ _

/-! ### Cursors -/

/-- Backspace is pressed on a line that is not empty while the cursor of the visible
terminal is in the first column. -/
def DeletesAtMargin (s : Console) : ConsoleEvent → Prop
  | .key _ code => code = backspacePressed ∧
      0 < s.keys.keybufferCount s.display.currentTerminal ∧
      s.display.screenX s.display.currentTerminal = 0
  | .put _ _ => False

instance (s : Console) (e : ConsoleEvent) : Decidable (DeletesAtMargin s e) :=
  match e with
  | .key _ _ => inferInstanceAs (Decidable (_ ∧ _))
  | .put _ _ => inferInstanceAs (Decidable False)

theorem keyOf_eq_backspace {m : Modifiers} {code : UInt8} :
    keyOf m code = .backspace ↔ code = backspacePressed := by
  unfold keyOf decode
  split_ifs <;> simp_all

section Cursors
variable {s : Console} {d : Display}

theorem u32_pred {x : ℕ} (hx : 0 < x) (hlt : x < 2 ^ 32) : u32 (x + (2 ^ 32 - 1)) = x - 1 := by
  unfold u32
  omega

theorem Inside.delete (h : d.Inside) (hx : 0 < d.screenX d.currentTerminal) :
    (delete d).Inside ∧ CellsIn videoMem (deleteCall d).cells := by
  have ht := h d.currentTerminal
  have hback : u32 (d.screenX d.currentTerminal + (2 ^ 32 - 1)) =
      d.screenX d.currentTerminal - 1 := u32_pred hx (by unfold OnScreen at ht; omega)
  have hmoved : OnScreen (d.screenX d.currentTerminal - 1) (d.screenY d.currentTerminal) := by
    unfold OnScreen at ht ⊢
    omega
  constructor
  · intro t
    show OnScreen (update d.screenX d.currentTerminal _ t) (d.screenY t)
    by_cases htc : t = d.currentTerminal
    · subst htc
      rw [Function.update_self, hback]
      exact hmoved
    · rw [Function.update_of_ne htc]
      exact h t
  · intro p hp
    rw [deleteCall, List.mem_singleton, hback, hmoved.cellAddress (by decide)] at hp
    unfold OnScreen at hmoved
    omega

theorem Inside.clear (h : d.Inside) : (clear d).Inside := by
  intro t
  have ht := h t
  simp only [Lib.clear]
  exact ht

theorem Inside.clearSet (h : d.Inside) : (clearSet d).Inside := by
  intro t
  show OnScreen (update d.screenX d.currentTerminal 0 t) (update d.screenY d.currentTerminal 0 t)
  by_cases htc : t = d.currentTerminal
  · subst htc
    rw [Function.update_self, Function.update_self]
    show 80 * 0 + 0 < 2000
    decide
  · rw [Function.update_of_ne htc, Function.update_of_ne htc]
    exact h t

theorem Inside.putcCall (h : d.Inside) (cs : Fin 3) (c : UInt8) :
    CellsIn (putcCall cs c d).base (putcCall cs c d).cells :=
  (h cs).putcCells_in (d.base_lt cs) c

theorem Inside.typeCharacter (h : s.display.Inside) (cs : Fin 3) (c : UInt8) :
    (typeCharacter cs c s).display.Inside ∧
      ∀ call ∈ typeCalls cs c s, CellsIn call.base call.cells := by
  unfold Devices.typeCharacter typeCalls
  split_ifs
  · refine ⟨h.putc cs c, fun call hcall => ?_⟩
    obtain rfl := List.mem_singleton.mp hcall
    exact Inside.putcCall h cs c
  · exact ⟨h, by simp⟩

theorem Inside.iterate (h : s.display.Inside) (cs : Fin 3) (c : UInt8) (n : ℕ) :
    ((Devices.typeCharacter cs c)^[n] s).display.Inside := by
  induction n with
  | zero => exact h
  | succ n ih =>
    rw [Function.iterate_succ_apply']
    exact (Inside.typeCharacter ih cs c).1

/-- A key keeps the cursors and its stores on the screens unless it is a Backspace at
the margin. -/
theorem Inside.press (h : s.display.Inside) (cs : Fin 3) (k : Key)
    (hk : k = .backspace → 0 < s.keys.keybufferCount s.display.currentTerminal →
      0 < s.display.screenX s.display.currentTerminal) :
    (press cs s k).1.display.Inside ∧ ∀ call ∈ pressCalls cs s k, CellsIn call.base call.cells := by
  cases k with
  | backspace =>
    simp only [Devices.press, pressCalls]
    split_ifs with hcount
    · have hdelete := Inside.delete h (hk rfl hcount)
      refine ⟨hdelete.1, fun call hcall => ?_⟩
      obtain rfl := List.mem_singleton.mp hcall
      exact hdelete.2
    · exact ⟨h, by simp⟩
  | tab =>
    refine ⟨Inside.iterate h cs space tabLength, fun call hcall => ?_⟩
    obtain ⟨i, -, hcall⟩ := List.mem_flatMap.mp hcall
    exact (Inside.typeCharacter (Inside.iterate h cs space i) cs space).2 call hcall
  | clearScreen => exact ⟨Inside.clearSet (Inside.clear h), by simp [pressCalls]⟩
  | switchTo n => exact ⟨h, by simp [pressCalls]⟩
  | interrupt =>
    refine ⟨h.putc cs newline, fun call hcall => ?_⟩
    obtain rfl := List.mem_singleton.mp hcall
    exact Inside.putcCall h cs newline
  | enter =>
    refine ⟨h.putc cs newline, fun call hcall => ?_⟩
    obtain rfl := List.mem_singleton.mp hcall
    exact Inside.putcCall h cs newline
  | character c => exact Inside.typeCharacter h cs c
  | silent => exact ⟨h, by simp [pressCalls]⟩

/-- One event from cursors on their screens. -/
theorem Inside.event {e : ConsoleEvent} (h : s.display.Inside) (he : ¬ DeletesAtMargin s e) :
    (∀ s', consoleStep s e = some s' → s'.display.Inside) ∧
      ∀ call ∈ calls s e, CellsIn call.base call.cells := by
  cases e with
  | key cs code =>
    have hpress := Inside.press
      (s := { s with keys := { s.keys with mods := modifiers s.keys.mods code } }) h cs
      (keyOf s.keys.mods code) fun hback hcount =>
        Nat.pos_of_ne_zero fun hx => he ⟨keyOf_eq_backspace.mp hback, hcount, hx⟩
    exact ⟨fun s' hs => Option.some.inj hs ▸ hpress.1, hpress.2⟩
  | put cs c =>
    refine ⟨fun s' hs => Option.some.inj hs ▸ h.putc cs c, fun call hcall => ?_⟩
    obtain rfl := List.mem_singleton.mp hcall
    exact Inside.putcCall h cs c

end Cursors

/-- As long as no Backspace on a line that is not empty finds the cursor in the first
column, every cursor stays on its screen and so does every store of the next event. -/
theorem cursors_stay_on_screen (kb : Keyboard) (d : Display)
    (hd : ∀ t, d.screenX t = 0 ∧ d.screenY t = 0) (es : List ConsoleEvent) (s : Console)
    (hg : Along consoleStep (fun s e => ¬ DeletesAtMargin s e) ⟨keyboardInit kb, d⟩ es)
    (hr : run consoleStep ⟨keyboardInit kb, d⟩ es = some s) :
    (∀ t, 80 * s.display.screenY t + s.display.screenX t < 2000) ∧
      ∀ e, ¬ DeletesAtMargin s e → ∀ call ∈ calls s e, CellsIn call.base call.cells := by
  have hstart : d.Inside := by
    intro t
    rw [(hd t).1, (hd t).2]
    show 80 * 0 + 0 < 2000
    decide
  have hinside : s.display.Inside :=
    invariant_along (fun s => s.display.Inside)
      (fun s e s' he hs h => (Inside.event h he).1 s' hs) hg hr hstart
  exact ⟨hinside, fun e he => (Inside.event hinside he).2⟩

/-- A typed "a", a "b" of a program, and a Backspace. -/
theorem cursors_stay_on_screen_backspace :
    ∃ s, run consoleStep ⟨keyboardInit blankConsole.keys, blankConsole.display⟩
      [.key 0 0x1E, .put 0 0x62, .key 0 0x0E] = some s ∧
      80 * s.display.screenY 0 + s.display.screenX 0 < 2000 := by
  obtain ⟨s, hr, -⟩ := run_eval consoleStep ⟨keyboardInit blankConsole.keys, blankConsole.display⟩
    [.key 0 0x1E, .put 0 0x62, .key 0 0x0E] (fun _ => True) (by decide +kernel)
  exact ⟨s, hr, (cursors_stay_on_screen blankConsole.keys blankConsole.display
    (fun _ => ⟨rfl, rfl⟩) _ s (by decide +kernel) hr).1 0⟩

/-- "a", Ctrl+L and Backspace: the count is still 1 and the column wraps. -/
theorem cursor_leaves_screen :
    ¬ ∀ (kb : Keyboard) (d : Display), (∀ t, d.screenX t = 0 ∧ d.screenY t = 0) →
      ∀ (es : List ConsoleEvent) (s : Console),
        run consoleStep ⟨keyboardInit kb, d⟩ es = some s →
          ∀ t, 80 * s.display.screenY t + s.display.screenX t < 2000 := by
  intro h
  obtain ⟨s, hr, hx⟩ := run_eval consoleStep ⟨keyboardInit blankConsole.keys, blankConsole.display⟩
    [.key 0 0x1E, .key 0 0x1D, .key 0 0x26, .key 0 0x0E]
    (fun s => s.display.screenX 0 = 2 ^ 32 - 1) (by decide +kernel)
  have := h blankConsole.keys blankConsole.display (fun _ => ⟨rfl, rfl⟩) _ s hr 0
  omega

end Ece391.Devices

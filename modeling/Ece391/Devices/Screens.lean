import Ece391.Devices.Keyboard
import Ece391.Lib.Memcpy
import Ece391.Lib.Pages
import Ece391.Support.Unwinding

/-! Three screens and one video memory. Writers on the three terminals and switches
between the terminals are interleaved one character at a time, and each terminal
finds on its screen what its own writes alone would have put there. -/

namespace Ece391.Devices

open Function (update)
open Lib Support.Unwinding

/-- A `putc` of a process on a terminal, or a switch. -/
inductive ScreenEvent
  | put (t : Fin 3) (c : UInt8)
  | switch (newTerminal : Fin 3)

def screenStep (d : Display) : ScreenEvent → Display
  | .put t c => putc t d c
  | .switch newTerminal => terminalSwitch newTerminal d

/-- A character belongs to the terminal it is written on. -/
def ScreenEvent.owner : ScreenEvent → Option (Fin 3)
  | .put t _ => some t
  | .switch _ => none

/-- What the processes of a terminal write, in order. -/
def bytesOf (t : Fin 3) (es : List ScreenEvent) : List UInt8 :=
  es.filterMap fun
    | .put t' c => if t' = t then some c else none
    | .switch _ => none

/-- The position of the visible terminal. -/
def visibleCursor (d : Display) : ℕ :=
  numCols * d.screenY d.currentTerminal + d.screenX d.currentTerminal

/-- The event sends a position to the VGA ports. -/
def WritesPorts (d : Display) : ScreenEvent → Prop
  | .put t _ => t = d.currentTerminal
  | .switch _ => True

/-- Some event of a run does. -/
def PortsWritten : Display → List ScreenEvent → Prop
  | _, [] => False
  | d, e :: es => WritesPorts d e ∨ PortsWritten (screenStep d e) es

/-! ### A switch -/

theorem copyPage_confined (dst src : ℕ) (mem : ℕ → UInt8) :
    Confined (window dst kb4) mem (copyPage dst src mem) := fun _ ha => if_neg ha

theorem copyPage_same (dst src : ℕ) (mem : ℕ → UInt8) :
    SamePage dst src (copyPage dst src mem) mem := by
  intro o ho
  rw [copyPage, if_pos ⟨by omega, by simp only [kb4] at ho; omega⟩, Nat.add_sub_cancel_left]

/-- `memcpy` between pages that do not overlap. -/
theorem memcpy_copyPage (m : Memcpy.Cpu) {dst src : ℕ} (hdst : dst + kb4 ≤ 2 ^ 32)
    (hsrc : src + kb4 ≤ 2 ^ 32) (hapart : dst + kb4 ≤ src ∨ src + kb4 ≤ dst) :
    ∃ m', (∀ fuel, 4101 ≤ fuel → Memcpy.memcpy fuel m (UInt32.ofNat dst) (UInt32.ofNat src) 0x1000 =
        some (UInt32.ofNat dst, m')) ∧ m'.mem = copyPage dst src m.mem := by
  simp only [kb4] at hdst hsrc hapart
  have hd : (UInt32.ofNat dst).toNat = dst := Memcpy.ofNat_toNat (by omega)
  have hs : (UInt32.ofNat src).toNat = src := Memcpy.ofNat_toNat (by omega)
  have hn : (0x1000 : UInt32).toNat = 0x1000 := rfl
  have hup : Support.Copying.Upwards dst src 0x1000 := by
    unfold Support.Copying.Upwards
    omega
  obtain ⟨m', hrun, hmem⟩ := Memcpy.memcpy_eq m (UInt32.ofNat dst) (UInt32.ofNat src) 0x1000
    (by rw [hd, hn]; omega) (by rw [hs, hn]; omega) (by rwa [hd, hs, hn])
  rw [hd, hs] at hmem
  exact ⟨m', hrun, hmem⟩

/-- The two copies of `swap_vid_mem`. -/
theorem swapVidMem_copies (t : Fin 3) (m : Memcpy.Cpu) :
    (∃ m', (∀ fuel, 4101 ≤ fuel → Memcpy.memcpy fuel m (UInt32.ofNat (vidPage t)) (UInt32.ofNat videoMem)
        0x1000 = some (UInt32.ofNat (vidPage t), m')) ∧ m'.mem = copyPage (vidPage t) videoMem m.mem) ∧
      ∃ m', (∀ fuel, 4101 ≤ fuel → Memcpy.memcpy fuel m (UInt32.ofNat videoMem) (UInt32.ofNat (vidPage t))
        0x1000 = some (UInt32.ofNat videoMem, m')) ∧ m'.mem = copyPage videoMem (vidPage t) m.mem := by
  have hpage := Display.vidPage_bounds t
  simp only [videoMem, kb4] at hpage
  constructor
  · exact memcpy_copyPage m (by simp only [kb4]; omega) (by simp only [kb4, videoMem]; omega)
      (by simp only [kb4, videoMem]; omega)
  · exact memcpy_copyPage m (by simp only [kb4, videoMem]; omega) (by simp only [kb4]; omega)
      (by simp only [kb4, videoMem]; omega)

section Switch
variable (d : Display) (n t : Fin 3)

/-- The old screen reaches its backing page, and no other backing page changes. -/
theorem saved_page :
    SamePage (vidPage t) (d.base t) (copyPage (vidPage d.currentTerminal) videoMem d.vram) d.vram := by
  unfold Display.base
  split_ifs with h
  · subst h
    exact copyPage_same _ _ _
  · exact (copyPage_confined _ _ _).samePage (Display.vidPage_apart h)

/-- The screen of a terminal moves with the terminal. -/
theorem terminalSwitch_same :
    SamePage ((terminalSwitch n d).base t) (d.base t) (terminalSwitch n d).vram d.vram := by
  set saved : Display := { d with vram := copyPage (vidPage d.currentTerminal) videoMem d.vram }
  have hcleared : SamePage (vidPage t) (d.base t) (clear saved).vram d.vram := by
    apply SamePage.trans _ (saved_page d t)
    apply (clear_confined saved).samePage
    have := (Display.vidPage_bounds t).1
    simp only [kb4] at this
    omega
  show SamePage (if t = n then videoMem else vidPage t) (d.base t)
    (copyPage videoMem (vidPage n) (clear saved).vram) d.vram
  split_ifs with h
  · subst h
    exact (copyPage_same _ _ _).trans hcleared
  · apply SamePage.trans _ hcleared
    exact (copyPage_confined _ _ _).samePage (.inr (Display.vidPage_bounds t).1)

end Switch

/-! ### The unwinding conditions -/

/-- The screen and the cursor of a terminal are the same. -/
def SameScreen (t : Fin 3) (d d' : Display) : Prop :=
  SamePage (d.base t) (d'.base t) d.vram d'.vram ∧ d.screenX t = d'.screenX t ∧
    d.screenY t = d'.screenY t

theorem putc_consistent {d d' : Display} {t : Fin 3} (hd : d.Inside) (h : SameScreen t d d')
    (c : UInt8) : SameScreen t (putc t d c) (putc t d' c) := by
  obtain ⟨hpage, hx, hy⟩ := h
  refine ⟨?_, ?_, ?_⟩
  · simp only [Display.putc_base, Display.putc_vram, ← hx, ← hy]
    exact hpage.putcMem (hd t) (d.base_lt t) (d'.base_lt t) c
  · simp only [Display.putc_screenX, Function.update_self, hx, hy]
  · simp only [Display.putc_screenY, Function.update_self, hx, hy]

theorem putc_respects {d d' : Display} {t t' : Fin 3} (hd : d.Inside) (ht : t' ≠ t)
    (h : SameScreen t d d') (c : UInt8) : SameScreen t (putc t' d c) d' := by
  obtain ⟨hpage, hx, hy⟩ := h
  refine ⟨?_, ?_, ?_⟩
  · rw [Display.putc_base]
    apply SamePage.trans _ hpage
    apply (hd.putc_confined t' c).samePage
    have := d.base_apart ht
    simp only [kb4] at this ⊢
    omega
  · rw [Display.putc_screenX, Function.update_of_ne ht.symm, hx]
  · rw [Display.putc_screenY, Function.update_of_ne ht.symm, hy]

theorem screens_unwind :
    Unwinds screenStep ScreenEvent.owner Display.Inside SameScreen where
  keeps := by
    intro d e hd
    cases e with
    | put t c => exact hd.putc t c
    | switch n => exact hd
  consistent := by
    intro d d' e t hd _ howner h
    cases e with
    | put t' c =>
      obtain rfl : t' = t := Option.some.inj howner
      exact putc_consistent hd h c
    | switch n => cases howner
  respects := by
    intro d d' e t hd howner h
    cases e with
    | put t' c => exact putc_respects hd (fun he => howner (congrArg some he)) h c
    | switch n => exact ⟨(terminalSwitch_same d n t).trans h.1, h.2⟩

theorem foldl_purge (t : Fin 3) (es : List ScreenEvent) (d : Display) :
    (purge ScreenEvent.owner t es).foldl screenStep d = puts t d (bytesOf t es) := by
  induction es generalizing d with
  | nil => rfl
  | cons e es ih =>
    cases e with
    | put t' c =>
      by_cases ht : t' = t
      · subst ht
        simpa [purge, bytesOf, ScreenEvent.owner, puts, screenStep] using ih (putc t' d c)
      · simpa [purge, bytesOf, ScreenEvent.owner, ht] using ih d
    | switch n => simpa [purge, bytesOf, ScreenEvent.owner] using ih d

/-! ### The hardware cursor -/

/-- The ports hold the position of the visible terminal. -/
def Synced (d : Display) : Prop := d.cursor = visibleCursor d

theorem setCursor_cursor {d : Display} {t : Fin 3} (h : OnScreen (d.screenX t) (d.screenY t)) :
    (setCursor d t).cursor = numCols * d.screenY t + d.screenX t := by
  unfold OnScreen at h
  simp only [setCursor, numCols]
  rw [Nat.mod_eq_of_lt (by omega)]
  omega

/-- A step that writes the ports leaves them right, and any other step leaves them
as they were. -/
theorem synced_step {d : Display} {e : ScreenEvent} (hd : d.Inside)
    (h : WritesPorts d e ∨ Synced d) : Synced (screenStep d e) := by
  cases e with
  | put t c =>
    have hd' := hd.putc t c
    by_cases ht : t = d.currentTerminal
    · have hvisible : putc t d c = setCursor (putcAt videoMem t d c) t := by simp [putc, ht]
      have hcurrent := Display.putc_currentTerminal d t c
      simp only [screenStep, Synced, visibleCursor, hcurrent, ← ht]
      rw [hvisible] at hd' ⊢
      exact setCursor_cursor (hd' t)
    · have hsame := h.resolve_left ht
      simp only [screenStep, Synced, visibleCursor, Display.putc_eq, if_neg ht,
        Function.update_of_ne (Ne.symm ht)]
      exact hsame
  | switch n =>
    have hcursor := setCursor_cursor (d := swapVidMem n d) (t := n) (hd n)
    exact hcursor

theorem synced_foldl (es : List ScreenEvent) {d : Display} (hd : d.Inside)
    (h : Synced d ∨ PortsWritten d es) : Synced (es.foldl screenStep d) := by
  induction es generalizing d with
  | nil => exact h.resolve_right id
  | cons e es ih =>
    apply ih (screens_unwind.keeps e hd)
    rcases h with h | h | h
    · exact .inl (synced_step hd (.inr h))
    · exact .inl (synced_step hd (.inl h))
    · exact .inr h

/-- After any interleaving of writes and switches, each terminal has the screen and
the cursor that its own writes alone give it, and the ports hold the position of the
visible terminal, as long as they did at the start or have been written since. -/
theorem screens_separate (d : Display) (h : d.Inside) (es : List ScreenEvent) :
    (∀ t, (es.foldl screenStep d).logicalScreen t = (puts t d (bytesOf t es)).logicalScreen t ∧
      (es.foldl screenStep d).screenX t = (puts t d (bytesOf t es)).screenX t ∧
      (es.foldl screenStep d).screenY t = (puts t d (bytesOf t es)).screenY t) ∧
    (Synced d ∨ PortsWritten d es → Synced (es.foldl screenStep d)) := by
  refine ⟨fun t => ?_, synced_foldl es h⟩
  have hsame := screens_unwind.agree_purge (i := t) es h h ⟨fun _ _ => rfl, rfl, rfl⟩
  rw [foldl_purge] at hsame
  exact ⟨funext fun o => hsame.1 o o.isLt, hsame.2⟩

/-- Terminal 0 writes "ab" across two switches while terminal 1 writes "c". -/
theorem screens_separate_interleaved :
    ((([.put 0 0x61, .switch 1, .put 0 0x62, .put 1 0x63, .switch 0] : List ScreenEvent).foldl
      screenStep blankConsole.display).logicalScreen 0 =
      (puts 0 blankConsole.display [0x61, 0x62]).logicalScreen 0) ∧
    Synced (([.put 0 0x61, .switch 1, .put 0 0x62, .put 1 0x63, .switch 0] :
      List ScreenEvent).foldl screenStep blankConsole.display) := by
  have h := screens_separate blankConsole.display (fun _ => show 80 * 0 + 0 < 2000 by decide)
    [.put 0 0x61, .switch 1, .put 0 0x62, .put 1 0x63, .switch 0]
  exact ⟨(h.1 0).1, h.2 (.inl rfl)⟩

end Ece391.Devices

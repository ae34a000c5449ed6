import Ece391.Devices.Echo
import Ece391.Lib.Roll

/-! The screens of the three terminals are windows on three rolls. What is written, taken
back or cleared is a mark on one of them, and a switch between the terminals is none. -/

namespace Ece391.Devices

open Function (update)
open Lib

/-- Every screen is the window on the roll of its terminal. -/
def Rolled (d : Display) (r : Fin 3 → Roll) : Prop :=
  ∀ t, Displays (d.base t) d.vram (d.screenX t) (d.screenY t) (r t)

/-- Marks, with the terminals they are made on. -/
abbrev Marks := List (Fin 3 × Roll.Mark)

def marked (r : Fin 3 → Roll) (ms : Marks) : Fin 3 → Roll :=
  ms.foldl (fun r m => update r m.1 ((r m.1).mark m.2)) r

/-- The marks on one terminal, in order. -/
def marksOn (t : Fin 3) (ms : Marks) : List Roll.Mark :=
  ms.filterMap fun m => if m.1 = t then some m.2 else none

/-- A text on a terminal. -/
def printed (t : Fin 3) (l : List UInt8) : Marks := l.map fun c => (t, .put c)

theorem marked_append (r : Fin 3 → Roll) (ms ms' : Marks) :
    marked r (ms ++ ms') = marked (marked r ms) ms' := List.foldl_append

/-- A roll has the marks of its own terminal. -/
theorem marked_apply (r : Fin 3 → Roll) (ms : Marks) (t : Fin 3) :
    marked r ms t = (marksOn t ms).foldl Roll.mark (r t) := by
  induction ms generalizing r with
  | nil => rfl
  | cons m ms ih =>
    have hrest : marked r (m :: ms) t = _ := ih (update r m.1 ((r m.1).mark m.2))
    by_cases ht : m.1 = t
    · subst ht
      rw [Function.update_self] at hrest
      simpa only [marksOn, List.filterMap_cons, if_true, List.foldl_cons] using hrest
    · rw [Function.update_of_ne (Ne.symm ht)] at hrest
      simpa only [marksOn, List.filterMap_cons, if_neg ht] using hrest

section Screens
variable {d d' : Display} {r : Fin 3 → Roll}

/-- The same screen is a window on the same roll. -/
theorem SameScreen.displays {t : Fin 3} {s : Roll} (h : SameScreen t d' d)
    (hs : Displays (d.base t) d.vram (d.screenX t) (d.screenY t) s) :
    Displays (d'.base t) d'.vram (d'.screenX t) (d'.screenY t) s := by
  obtain ⟨hpage, hx, hy⟩ := h
  rw [hx, hy]
  refine ⟨fun i hi => ?_, hs.place, hs.line, hs.onScreen, hs.below⟩
  rw [← hs.cells i hi]
  exact Prod.ext (hpage (i * 2) (by simp only [kb4]; omega))
    (hpage (i * 2 + 1) (by simp only [kb4]; omega))

theorem Rolled.inside (h : Rolled d r) : d.Inside := fun t => (h t).onScreen

/-- One screen changes with its roll, and the others stay. -/
theorem Rolled.update (h : Rolled d r) {t : Fin 3} {s : Roll}
    (hself : Displays (d'.base t) d'.vram (d'.screenX t) (d'.screenY t) s)
    (hother : ∀ t' ≠ t, SameScreen t' d' d) : Rolled d' (Function.update r t s) := by
  intro t'
  by_cases ht : t' = t
  · subst ht
    rw [Function.update_self]
    exact hself
  · rw [Function.update_of_ne ht]
    exact (hother t' ht).displays (h t')

theorem Rolled.putc (h : Rolled d r) (cs : Fin 3) (c : UInt8) :
    Rolled (putc cs d c) (marked r [(cs, .put c)]) := by
  apply h.update
  · have hput := (h cs).put (d.base_lt cs) c
    rw [Display.putc_base, Display.putc_vram, Display.putc_screenX, Display.putc_screenY,
      Function.update_self, Function.update_self]
    exact hput
  · exact fun t' ht => putc_other h.inside ht c

theorem Rolled.puts (h : Rolled d r) (cs : Fin 3) (l : List UInt8) :
    Rolled (puts cs d l) (marked r (printed cs l)) := by
  induction l generalizing d r with
  | nil => exact h
  | cons c l ih => exact ih (h.putc cs c)

theorem Rolled.delete (h : Rolled d r) (hx : 0 < d.screenX d.currentTerminal) :
    Rolled (delete d) (marked r [(d.currentTerminal, .erase)]) := by
  have hshown : OnScreen (d.screenX d.currentTerminal) (d.screenY d.currentTerminal) :=
    h.inside d.currentTerminal
  unfold OnScreen at hshown
  have hback : u32 (d.screenX d.currentTerminal + (2 ^ 32 - 1)) =
      d.screenX d.currentTerminal - 1 := u32_pred hx (by omega)
  have hmoved : OnScreen (d.screenX d.currentTerminal - 1) (d.screenY d.currentTerminal) := by
    unfold OnScreen
    omega
  apply h.update
  · have hbase : (Lib.delete d).base d.currentTerminal = videoMem := if_pos rfl
    have hxy : (Lib.delete d).screenX d.currentTerminal = d.screenX d.currentTerminal - 1 ∧
        (Lib.delete d).screenY d.currentTerminal = d.screenY d.currentTerminal :=
      ⟨(Function.update_self _ _ _).trans hback, rfl⟩
    have herase := (h d.currentTerminal).erase hx
    rw [Display.base, if_pos rfl] at herase
    rw [hbase, hxy.1, hxy.2, delete_vram, hback, hmoved.cellAddress (by decide)]
    exact herase
  · exact fun t' ht => delete_other h.inside hx ht

theorem Rolled.clear (h : Rolled d r) :
    Rolled (clearSet (clear d)) (marked r [(d.currentTerminal, .wipe)]) := by
  apply h.update
  · exact (clearSet_cleared d).displays
  · exact fun t' ht => clear_other ht

theorem Rolled.switch (h : Rolled d r) (n : Fin 3) : Rolled (terminalSwitch n d) r :=
  fun t => (switch_other n).displays (h t)

end Screens

/-! ### Keys -/

/-- The mark of a character that is typed while the line has room. -/
def typeMarks (cs : Fin 3) (c : UInt8) (s : Console) : Marks :=
  if s.keys.keybufferCount s.display.currentTerminal < keyboardBufferSize then [(cs, .put c)] else []

/-- What a key does to the rolls. -/
def keyMarks (cs : Fin 3) (s : Console) : Key → Marks
  | .backspace =>
    if 0 < s.keys.keybufferCount s.display.currentTerminal then
      [(s.display.currentTerminal, .erase)] else []
  | .tab => (List.range tabLength).flatMap fun i =>
      typeMarks cs space ((typeCharacter cs space)^[i] s)
  | .clearScreen => [(s.display.currentTerminal, .wipe)]
  | .interrupt | .enter => [(cs, .put newline)]
  | .character c => typeMarks cs c s
  | .switchTo _ | .silent => []

section Keys
variable {s : Console} {r : Fin 3 → Roll}

theorem Rolled.typeCharacter (h : Rolled s.display r) (cs : Fin 3) (c : UInt8) :
    Rolled (typeCharacter cs c s).display (marked r (typeMarks cs c s)) := by
  unfold Devices.typeCharacter typeMarks
  split_ifs
  · exact h.putc cs c
  · exact h

theorem Rolled.iterate (h : Rolled s.display r) (cs : Fin 3) (c : UInt8) (n : ℕ) :
    Rolled ((Devices.typeCharacter cs c)^[n] s).display
      (marked r ((List.range n).flatMap fun i => typeMarks cs c ((Devices.typeCharacter cs c)^[i] s))) := by
  induction n with
  | zero => exact h
  | succ n ih =>
    have hnext := ih.typeCharacter cs c
    rw [← marked_append] at hnext
    rw [Function.iterate_succ_apply', List.range_succ, List.flatMap_append]
    simpa only [List.flatMap_cons, List.flatMap_nil, List.append_nil] using hnext

/-- A key, unless it is a Backspace at the margin. -/
theorem Rolled.press (h : Rolled s.display r) (cs : Fin 3) (k : Key)
    (hk : k = .backspace → 0 < s.keys.keybufferCount s.display.currentTerminal →
      0 < s.display.screenX s.display.currentTerminal) :
    Rolled (press cs s k).1.display (marked r (keyMarks cs s k)) := by
  cases k with
  | backspace =>
    simp only [Devices.press, keyMarks]
    split_ifs with hcount
    · exact h.delete (hk rfl hcount)
    · exact h
  | tab => exact h.iterate cs space tabLength
  | clearScreen => exact h.clear
  | switchTo n => exact h.switch n
  | interrupt => exact h.putc cs newline
  | enter => exact h.putc cs newline
  | character c => exact h.typeCharacter cs c
  | silent => exact h

end Keys

end Ece391.Devices

import Ece391.Devices.Lines

/-! Which terminal a key acts on. The handler edits the line of the visible terminal,
and shows the key through `putc` on the screen of the running one. -/

namespace Ece391.Devices

open Function (update)
open Lib

/-- Nothing of terminal `t` changed: neither its line nor its screen. -/
structure Untouched (t : Fin 3) (s s' : Console) : Prop where
  keyBuf : s'.keys.keyBuf t = s.keys.keyBuf t
  keybufferCount : s'.keys.keybufferCount t = s.keys.keybufferCount t
  readFlag : s'.keys.readFlag t = s.keys.readFlag t
  screen : SameScreen t s'.display s.display

/-- The key stores a byte or is Ctrl+C, so that something is shown or a process ended. -/
def Echoes (s : Console) (k : Key) : Prop :=
  keyStores s.display.currentTerminal s k ≠ [] ∨ k = .interrupt

instance (s : Console) (k : Key) : Decidable (Echoes s k) := inferInstanceAs (Decidable (_ ∨ _))

theorem SameScreen.refl (t : Fin 3) (d : Display) : SameScreen t d d := ⟨fun _ _ => rfl, rfl, rfl⟩

theorem SameScreen.trans {t : Fin 3} {d₁ d₂ d₃ : Display} (h₁ : SameScreen t d₁ d₂)
    (h₂ : SameScreen t d₂ d₃) : SameScreen t d₁ d₃ :=
  ⟨h₁.1.trans h₂.1, h₁.2.1.trans h₂.2.1, h₁.2.2.trans h₂.2.2⟩

theorem Untouched.refl (t : Fin 3) (s : Console) : Untouched t s s :=
  ⟨rfl, rfl, rfl, SameScreen.refl t s.display⟩

theorem Untouched.trans {t : Fin 3} {s₁ s₂ s₃ : Console} (h₁ : Untouched t s₁ s₂)
    (h₂ : Untouched t s₂ s₃) : Untouched t s₁ s₃ :=
  ⟨h₂.keyBuf.trans h₁.keyBuf, h₂.keybufferCount.trans h₁.keybufferCount,
    h₂.readFlag.trans h₁.readFlag, h₂.screen.trans h₁.screen⟩

section Screens
variable {d : Display} {t : Fin 3}

theorem putc_other (h : d.Inside) {cs : Fin 3} (ht : t ≠ cs) (c : UInt8) :
    SameScreen t (putc cs d c) d :=
  putc_respects h ht.symm (SameScreen.refl t d) c

theorem puts_other (h : d.Inside) {cs : Fin 3} (ht : t ≠ cs) (l : List UInt8) :
    SameScreen t (puts cs d l) d := by
  induction l generalizing d with
  | nil => exact SameScreen.refl t d
  | cons c l ih => exact (ih (h.putc cs c)).trans (putc_other h ht c)

/-- Stores on the visible screen do not reach the page of a hidden terminal. -/
theorem hidden_page {mem : ℕ → UInt8} (ht : t ≠ d.currentTerminal)
    (h : Confined (window videoMem 4000) d.vram mem) :
    SamePage (vidPage t) (d.base t) mem d.vram := by
  rw [Display.base, if_neg ht]
  apply h.samePage
  have := (Display.vidPage_bounds t).1
  simp only [kb4] at this
  omega

theorem delete_other (h : d.Inside) (hx : 0 < d.screenX d.currentTerminal)
    (ht : t ≠ d.currentTerminal) : SameScreen t (delete d) d := by
  have hbase : (delete d).base t = vidPage t := if_neg ht
  refine ⟨?_, Function.update_of_ne ht _ _, rfl⟩
  rw [hbase]
  apply hidden_page ht
  apply (delete_changes d).mono
  rintro a ⟨call, hcall, ha⟩
  obtain rfl := List.mem_singleton.mp hcall
  exact (Inside.delete h hx).2.bytes ha

theorem clear_other (ht : t ≠ d.currentTerminal) : SameScreen t (clearSet (clear d)) d := by
  have hconfined := clear_confined d
  have hclear : clear d = { d with vram := (clear d).vram } := by simp only [clear]
  -- from here on the cleared bytes are just some bytes
  generalize (clear d).vram = mem at hconfined hclear
  rw [hclear]
  refine ⟨?_, Function.update_of_ne ht _ _, Function.update_of_ne ht _ _⟩
  rw [show (clearSet { d with vram := mem }).base t = vidPage t from if_neg ht]
  exact hidden_page ht hconfined

theorem switch_other (n : Fin 3) : SameScreen t (terminalSwitch n d) d :=
  ⟨terminalSwitch_same d n t, rfl, rfl⟩

end Screens

section Press
variable {s : Console} {t : Fin 3}

theorem push_other (h : s.display.Inside) (ht : t ≠ s.display.currentTerminal) (c : UInt8) :
    Untouched t s ⟨s.keys.push s.display.currentTerminal c,
      putc s.display.currentTerminal s.display c⟩ :=
  ⟨Function.update_of_ne ht _ _, Function.update_of_ne ht _ _, rfl, putc_other h ht c⟩

theorem typeCharacter_other (h : s.display.Inside) (ht : t ≠ s.display.currentTerminal)
    {cs : Fin 3} {c : UInt8} (hcs : s.keys.keybufferCount s.display.currentTerminal <
      keyboardBufferSize → cs = s.display.currentTerminal) :
    Untouched t s (typeCharacter cs c s) := by
  unfold typeCharacter
  split_ifs with hroom
  · rw [hcs hroom]
    exact push_other h ht c
  · exact Untouched.refl t s

/-- Once the line is full no further character gets through. -/
theorem typeCharacter_iterate_other (h : s.display.Inside) (ht : t ≠ s.display.currentTerminal)
    {cs : Fin 3} {c : UInt8} (hcs : s.keys.keybufferCount s.display.currentTerminal <
      keyboardBufferSize → cs = s.display.currentTerminal) (n : ℕ) :
    Untouched t s ((typeCharacter cs c)^[n] s) := by
  induction n generalizing s with
  | zero => exact Untouched.refl t s
  | succ n ih =>
    rw [Function.iterate_succ_apply]
    have hcurrent := typeCharacter_currentTerminal cs c s
    have hcount := (typeCharacter_count cs s.display.currentTerminal (c := c) s).1
    refine (typeCharacter_other h ht hcs).trans (ih (Inside.typeCharacter h cs c).1 ?_ ?_)
    · rw [hcurrent]
      exact ht
    · rw [hcurrent]
      exact fun hroom => hcs (by omega)

/-- A key leaves every terminal but the visible one alone, if the running terminal is
the visible one whenever the key is shown. -/
theorem press_other (h : s.display.Inside) (ht : t ≠ s.display.currentTerminal) {cs : Fin 3}
    {k : Key} (hecho : Echoes s k → cs = s.display.currentTerminal)
    (hback : k = .backspace → 0 < s.keys.keybufferCount s.display.currentTerminal →
      0 < s.display.screenX s.display.currentTerminal) :
    Untouched t s (press cs s k).1 := by
  cases k with
  | backspace =>
    simp only [press]
    split_ifs with hcount
    · exact ⟨rfl, Function.update_of_ne ht _ _, rfl, delete_other h (hback rfl hcount) ht⟩
    · exact Untouched.refl t s
  | tab =>
    refine typeCharacter_iterate_other h ht (fun hroom => hecho (.inl ?_)) tabLength
    simp only [keyStores, if_true, ne_eq, List.map_eq_nil_iff, List.filter_eq_nil_iff, List.mem_map,
      List.mem_range]
    exact fun hfull => hfull _ ⟨0, by decide, rfl⟩ (by simpa using hroom)
  | clearScreen => exact ⟨rfl, rfl, rfl, clear_other ht⟩
  | switchTo n => exact ⟨rfl, rfl, rfl, switch_other n⟩
  | interrupt =>
    obtain rfl := hecho (.inr rfl)
    exact ⟨rfl, rfl, rfl, putc_other h ht newline⟩
  | enter =>
    obtain rfl := hecho (.inl (by simp [keyStores]))
    exact ⟨Function.update_of_ne ht _ _, Function.update_of_ne ht _ _, Function.update_of_ne ht _ _,
      putc_other h ht newline⟩
  | character c =>
    exact typeCharacter_other h ht fun hroom => hecho (.inl (by simp [keyStores, hroom]))
  | silent => exact Untouched.refl t s

end Press

/-! ### The echo -/

section Shown
variable (cs : Fin 3) (c : UInt8) (s : Console)

/-- The end of the line after several characters, up to the size of the buffer. -/
theorem typeCharacter_iterate_count (n : ℕ) :
    ((typeCharacter cs c)^[n] s).display.currentTerminal = s.display.currentTerminal ∧
    (((typeCharacter cs c)^[n] s).keys.keybufferCount s.display.currentTerminal <
      keyboardBufferSize ↔ s.keys.keybufferCount s.display.currentTerminal + n <
        keyboardBufferSize) ∧
    (s.keys.keybufferCount s.display.currentTerminal + n ≤ keyboardBufferSize →
      ((typeCharacter cs c)^[n] s).keys.keybufferCount s.display.currentTerminal =
        s.keys.keybufferCount s.display.currentTerminal + n) := by
  induction n with
  | zero => exact ⟨rfl, Iff.rfl, fun _ => rfl⟩
  | succ n ih =>
    obtain ⟨hcurrent, hroom, hcount⟩ := ih
    rw [Function.iterate_succ_apply']
    generalize (typeCharacter cs c)^[n] s = s' at *
    refine ⟨(typeCharacter_currentTerminal cs c s').trans hcurrent, ?_⟩
    rw [typeCharacter, hcurrent]
    split_ifs with hlt
    · have hat := hcount (hroom.mp hlt).le
      simp only [Keyboard.push, Function.update_self, hat]
      exact ⟨Iff.rfl, fun _ => by omega⟩
    · have hfull := mt hroom.mpr hlt
      exact ⟨iff_of_false hlt (by omega), fun _ => by omega⟩

/-- The characters that found room are shown one after the other. -/
theorem typeCharacter_iterate_display (n : ℕ) :
    ((typeCharacter cs c)^[n] s).display = puts cs s.display
      ((((List.range n).map (s.keys.keybufferCount s.display.currentTerminal + ·)).filter
        (· < keyboardBufferSize)).map fun _ => c) := by
  induction n with
  | zero => rfl
  | succ n ih =>
    obtain ⟨hcurrent, hroom, -⟩ := typeCharacter_iterate_count cs c s n
    rw [Function.iterate_succ_apply', typeCharacter, hcurrent, List.range_succ]
    by_cases hlt : s.keys.keybufferCount s.display.currentTerminal + n < keyboardBufferSize
    · rw [if_pos (hroom.mpr hlt), ih]
      simp [hlt, puts]
    · rw [if_neg (mt hroom.mp hlt), ih]
      simp [hlt]

variable {s}

/-- What a key stores in the line is what `putc` shows, byte for byte. -/
theorem press_echo {k : Key} (hk : k = .tab ∨ k = .enter ∨ ∃ c, k = .character c) :
    (press cs s k).1.display =
      puts cs s.display ((keyStores s.display.currentTerminal s k).map Prod.snd) := by
  rcases hk with rfl | rfl | ⟨c, rfl⟩
  · refine (typeCharacter_iterate_display cs space s tabLength).trans ?_
    simp [keyStores, Function.comp_def]
  · simp [press, keyStores, puts]
  · simp only [press, keyStores, if_true, typeCharacter]
    split_ifs <;> rfl

end Shown

end Ece391.Devices

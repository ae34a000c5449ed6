import Ece391.Devices.Typing

/-! `terminal_read` against the keyboard handler. The reader waits for the flag that
Enter clears and then copies the line out of the buffer one byte at a time, while
the handler may already be filling the same buffer with the next line. -/

namespace Ece391.Devices

open Function (update)
open Lib Support.Runs

/-- Where `terminal_read` stands. -/
inductive Reader
  /-- No call is under way. -/
  | idle
  | waiting
  /-- Iteration `i` of the loop is next. -/
  | copying (i : ℕ)
  /-- `buffer[i]` is filled and the test for a newline is next. -/
  | testing (i : ℕ)
  | done
  deriving DecidableEq

/-- A call of `terminal_read` with its buffer. An observer notes the line at the Enter
that released the reader, the number of steps the reader has made since, and the
places of the keyboard buffer that have been read. -/
structure Reading where
  console : Console
  reader : Reader
  nbytes : ℕ
  buffer : List UInt8
  line : Option (List UInt8)
  steps : ℕ
  reads : List ℕ

inductive ReadEvent
  /-- A scan code while `cs` is running. -/
  | key (cs : Fin 3) (code : UInt8)
  /-- The process on the terminal calls `terminal_read`. -/
  | call (buf : Bool) (nbytes : ℤ)
  /-- The reader goes on. -/
  | step

/-- The bytes of the line that is being edited. -/
def editedLine (kb : Keyboard) (t : Fin 3) : List UInt8 :=
  (List.range (kb.keybufferCount t)).map (kb.keyBuf t)

/-- The key is an Enter for the terminal `t`. -/
def Enters (t : Fin 3) (s : Console) (code : UInt8) : Prop :=
  keyOf s.keys.mods code = .enter ∧ s.display.currentTerminal = t

instance (t : Fin 3) (s : Console) (code : UInt8) : Decidable (Enters t s code) :=
  inferInstanceAs (Decidable (_ ∧ _))

/-- A key while a reader of terminal `t` is at work. The halt behind Ctrl+C ends the
process that is running, and with it a read of its own. -/
def keyStep (t : Fin 3) (s : Reading) (cs : Fin 3) (code : UInt8) : Reading :=
  let out := keyboardHandler cs s.console code
  if out.2 = some (.halt ctrlClearVal) ∧ cs = t then
    { s with console := out.1, reader := .idle, line := none }
  else if Enters t s.console code ∧ s.reader = .waiting ∧ s.console.keys.readFlag t = true then
    { s with console := out.1, line := some (editedLine s.console.keys t), steps := 0 }
  else { s with console := out.1 }

/-- The first lines of `terminal_read`. The flag is set before the arguments are
looked at. -/
def callRead (t : Fin 3) (s : Reading) (buf : Bool) (nbytes : ℤ) : Reading :=
  let keys := { s.console.keys with readFlag := update s.console.keys.readFlag t true }
  let s := { s with console := { s.console with keys := keys }, buffer := [], line := none }
  if buf = false ∨ nbytes < 0 then { s with reader := .idle }
  else { s with reader := .waiting, nbytes := nbytes.toNat }

/-- One step of the loops of `terminal_read`. -/
def readerStep (t : Fin 3) (s : Reading) : Option Reading :=
  let keyBuf := s.console.keys.keyBuf t
  match s.reader with
  | .idle | .done => none
  | .waiting =>
    if s.console.keys.readFlag t = true then some s
    else some { s with reader := .copying 0, steps := s.steps + 1 }
  | .copying i =>
    if s.nbytes ≤ i then some { s with reader := .done, steps := s.steps + 1 }
    else if i = s.nbytes - 1 then
      some { s with reader := .done, buffer := s.buffer ++ [newline], steps := s.steps + 1 }
    else some { s with
      reader := .testing i, buffer := s.buffer ++ [keyBuf i], steps := s.steps + 1
      reads := s.reads ++ [i] }
  | .testing i =>
    some { s with
      reader := if keyBuf i = newline then .done else .copying (i + 1), steps := s.steps + 1
      reads := s.reads ++ [i] }

def readStep (t : Fin 3) (s : Reading) : ReadEvent → Option Reading
  | .key cs code => some (keyStep t s cs code)
  | .call buf nbytes =>
    if s.reader = .idle ∨ s.reader = .done then some (callRead t s buf nbytes) else none
  | .step => readerStep t s

/-- What a read of `n` bytes should return for a line. -/
def delivered (n : ℕ) (line : List UInt8) : List UInt8 :=
  if n = 0 then [] else line.take (n - 1) ++ [newline]

/-! ### What a key stores -/

/-- The bytes that a key stores in the buffer of terminal `t`, by their places. -/
def keyStores (t : Fin 3) (s : Console) (k : Key) : List (ℕ × UInt8) :=
  let count := s.keys.keybufferCount t
  if s.display.currentTerminal = t then
    match k with
    | .character c => if count < keyboardBufferSize then [(count, c)] else []
    | .tab => (((List.range tabLength).map (count + ·)).filter (· < keyboardBufferSize)).map (·, space)
    | .enter => [(count, newline)]
    | .backspace | .clearScreen | .switchTo _ | .interrupt | .silent => []
  else []

/-- The line fits the buffer and has no newline in it. -/
def LineOk (kb : Keyboard) (t : Fin 3) : Prop :=
  kb.keybufferCount t ≤ keyboardBufferSize ∧ ∀ j < kb.keybufferCount t, kb.keyBuf t j ≠ newline

theorem editedLine_length (kb : Keyboard) (t : Fin 3) :
    (editedLine kb t).length = kb.keybufferCount t := by
  simp [editedLine]

theorem LineOk.editedLine {kb : Keyboard} {t : Fin 3} (h : LineOk kb t) :
    (editedLine kb t).length ≤ keyboardBufferSize ∧ newline ∉ editedLine kb t := by
  refine ⟨(editedLine_length kb t).trans_le h.1, fun hmem => ?_⟩
  obtain ⟨j, hj, hnew⟩ := List.mem_map.mp hmem
  exact h.2 j (List.mem_range.mp hj) hnew

section Press
variable (cs t : Fin 3) (c : UInt8) (s : Console)

/-- A character goes nowhere, or behind the end of the line of the visible terminal. -/
theorem typeCharacter_keys :
    (typeCharacter cs c s).keys = s.keys ∨
      s.keys.keybufferCount s.display.currentTerminal < keyboardBufferSize ∧
        (typeCharacter cs c s).keys = s.keys.push s.display.currentTerminal c := by
  unfold typeCharacter
  split_ifs with h
  · exact .inr ⟨h, rfl⟩
  · exact .inl rfl

theorem typeCharacter_currentTerminal :
    (typeCharacter cs c s).display.currentTerminal = s.display.currentTerminal := by
  unfold typeCharacter
  split_ifs
  · exact Display.putc_currentTerminal _ _ _
  · rfl

theorem typeCharacter_readFlag : (typeCharacter cs c s).keys.readFlag = s.keys.readFlag := by
  rcases typeCharacter_keys cs c s with h | ⟨-, h⟩ <;> rw [h]
  rfl

variable {c s}

theorem LineOk.push {kb : Keyboard} (h : LineOk kb t) (hc : c ≠ newline) {t' : Fin 3}
    (hroom : kb.keybufferCount t' < keyboardBufferSize) : LineOk (kb.push t' c) t := by
  by_cases ht : t = t'
  · subst ht
    simp only [LineOk, Keyboard.push, Function.update_self]
    refine ⟨hroom, fun j hj => ?_⟩
    by_cases hjc : j = kb.keybufferCount t
    · rw [hjc, Function.update_self]
      exact hc
    · rw [Function.update_of_ne hjc]
      exact h.2 j (by omega)
  · simpa only [LineOk, Keyboard.push, Function.update_of_ne ht] using h

theorem LineOk.typeCharacter (h : LineOk s.keys t) (hc : c ≠ newline) :
    LineOk (typeCharacter cs c s).keys t := by
  rcases typeCharacter_keys cs c s with hkeys | ⟨hroom, hkeys⟩ <;> rw [hkeys]
  · exact h
  · exact h.push t hc hroom

theorem LineOk.press (h : LineOk s.keys t) {k : Key} (hk : ∀ c, k = .character c → c ≠ newline) :
    LineOk (press cs s k).1.keys t := by
  cases k with
  | backspace =>
    simp only [Devices.press]
    split_ifs with hcount
    · by_cases ht : t = s.display.currentTerminal
      · subst ht
        simp only [LineOk, Keyboard.pop, Function.update_self]
        exact ⟨(Nat.sub_le _ _).trans h.1, fun j hj => h.2 j (by omega)⟩
      · simpa only [LineOk, Keyboard.pop, Function.update_of_ne ht] using h
    · exact h
  | tab =>
    show LineOk ((Devices.typeCharacter cs space)^[tabLength] s).keys t
    generalize tabLength = n
    induction n with
    | zero => exact h
    | succ n ih =>
      rw [Function.iterate_succ_apply']
      exact ih.typeCharacter cs t (by decide)
  | enter =>
    by_cases ht : t = s.display.currentTerminal
    · subst ht
      simp [LineOk, Devices.press, Keyboard.finish]
    · simpa only [LineOk, Devices.press, Keyboard.finish, Function.update_of_ne ht] using h
  | character c => exact h.typeCharacter cs t (hk c rfl)
  | clearScreen => simpa only [Devices.press] using h
  | switchTo n => simpa only [Devices.press] using h
  | interrupt => simpa only [Devices.press] using h
  | silent => exact h

variable (s)

/-- Only an Enter for the terminal touches its flag. -/
theorem press_readFlag (k : Key) :
    (press cs s k).1.keys.readFlag t =
      if k = .enter ∧ s.display.currentTerminal = t then false else s.keys.readFlag t := by
  cases k with
  | backspace =>
    simp only [press]
    split_ifs <;> simp_all [Keyboard.pop]
  | tab =>
    have hkeep : ∀ n, ((typeCharacter cs space)^[n] s).keys.readFlag = s.keys.readFlag := by
      intro n
      induction n with
      | zero => rfl
      | succ n ih => rw [Function.iterate_succ_apply', typeCharacter_readFlag, ih]
    simp only [press, hkeep, reduceCtorEq, false_and, if_false]
  | enter =>
    by_cases ht : s.display.currentTerminal = t
    · subst ht
      simp [press, Keyboard.finish]
    · simp [press, Keyboard.finish, ht, Function.update_of_ne (Ne.symm ht)]
  | character c => simp [press, typeCharacter_readFlag]
  | clearScreen => simp [press]
  | switchTo n => simp [press]
  | interrupt => simp [press]
  | silent => simp [press]

/-- A byte of a buffer that a character has changed. -/
theorem typeCharacter_keyBuf (j : ℕ) :
    (typeCharacter cs c s).keys.keyBuf t j = s.keys.keyBuf t j ∨
      s.display.currentTerminal = t ∧ s.keys.keybufferCount t < keyboardBufferSize ∧
        j = s.keys.keybufferCount t ∧ (typeCharacter cs c s).keys.keyBuf t j = c := by
  rcases typeCharacter_keys cs c s with hkeys | ⟨hroom, hkeys⟩ <;> rw [hkeys]
  · exact .inl rfl
  · by_cases ht : t = s.display.currentTerminal
    · subst ht
      by_cases hj : j = s.keys.keybufferCount s.display.currentTerminal
      · subst hj
        exact .inr ⟨rfl, hroom, rfl, by simp [Keyboard.push]⟩
      · exact .inl (by simp [Keyboard.push, Function.update_of_ne hj])
    · exact .inl (by simp [Keyboard.push, Function.update_of_ne ht])

theorem typeCharacter_count :
    s.keys.keybufferCount t ≤ (typeCharacter cs c s).keys.keybufferCount t ∧
      (typeCharacter cs c s).keys.keybufferCount t ≤ s.keys.keybufferCount t + 1 := by
  rcases typeCharacter_keys cs c s with hkeys | ⟨-, hkeys⟩ <;> rw [hkeys]
  · exact ⟨le_rfl, Nat.le_succ _⟩
  · by_cases ht : t = s.display.currentTerminal
    · subst ht
      simp [Keyboard.push]
    · simp [Keyboard.push, Function.update_of_ne ht]

/-- Several of the same character fill consecutive places from the end of the line. -/
theorem typeCharacter_iterate_keyBuf (n j : ℕ) :
    ((typeCharacter cs c)^[n] s).keys.keyBuf t j = s.keys.keyBuf t j ∨
      s.display.currentTerminal = t ∧ j < keyboardBufferSize ∧ s.keys.keybufferCount t ≤ j ∧
        j < s.keys.keybufferCount t + n ∧ ((typeCharacter cs c)^[n] s).keys.keyBuf t j = c := by
  induction n generalizing s with
  | zero => exact .inl rfl
  | succ n ih =>
    rw [Function.iterate_succ_apply]
    have hcount := typeCharacter_count cs t (c := c) s
    rcases ih (typeCharacter cs c s) with hrest | ⟨ht, hsize, hlow, hhigh, hbyte⟩
    · rw [hrest]
      rcases typeCharacter_keyBuf cs t s (c := c) j with hfirst | ⟨ht, hsize, hj, hbyte⟩
      · exact .inl hfirst
      · exact .inr ⟨ht, hj ▸ hsize, hj.ge, by omega, hbyte⟩
    · rw [typeCharacter_currentTerminal] at ht
      exact .inr ⟨ht, hsize, by omega, by omega, hbyte⟩

/-- A byte that a key has changed is one it stores. -/
theorem press_keyBuf (k : Key) (j : ℕ) :
    (press cs s k).1.keys.keyBuf t j = s.keys.keyBuf t j ∨
      (j, (press cs s k).1.keys.keyBuf t j) ∈ keyStores t s k := by
  cases k with
  | backspace =>
    simp only [press]
    split_ifs <;> exact .inl rfl
  | tab =>
    rcases typeCharacter_iterate_keyBuf cs t (c := space) s tabLength j with
      h | ⟨ht, hsize, hlow, hhigh, hbyte⟩
    · exact .inl h
    · right
      simp only [press, hbyte, keyStores, ht, if_true, List.mem_map, List.mem_filter,
        List.mem_range, decide_eq_true_eq, Prod.mk.injEq, and_true, exists_eq_right]
      exact ⟨⟨j - s.keys.keybufferCount t, by omega, by omega⟩, hsize⟩
  | enter =>
    by_cases ht : t = s.display.currentTerminal
    · subst ht
      by_cases hj : j = s.keys.keybufferCount s.display.currentTerminal
      · subst hj
        exact .inr (by simp [press, keyStores, Keyboard.finish])
      · exact .inl (by simp [press, Keyboard.finish, Function.update_of_ne hj])
    · exact .inl (by simp [press, Keyboard.finish, Function.update_of_ne ht])
  | character c =>
    rcases typeCharacter_keyBuf cs t s (c := c) j with h | ⟨ht, hsize, hj, hbyte⟩
    · exact .inl h
    · right
      simp only [press, hbyte, keyStores, ht, if_true, hsize, List.mem_singleton, Prod.mk.injEq,
        and_true]
      exact hj
  | clearScreen => exact .inl rfl
  | switchTo n => exact .inl rfl
  | interrupt => exact .inl rfl
  | silent => exact .inl rfl

end Press

theorem keyOf_character_ne {m : Modifiers} {code c : UInt8} (h : keyOf m code = .character c) :
    c ≠ newline := by
  unfold keyOf decode at h
  split_ifs at h with _ _ _ _ _ _ _ _ hne
  cases h
  exact hne

theorem press_request {cs : Fin 3} {s : Console} {k : Key} {status : UInt8}
    (h : (press cs s k).2 = some (.halt status)) : k = .interrupt := by
  cases k <;> simp_all [press]
  split_ifs at h

/-! ### The copy -/

/-- A reader that is about to read place `i` comes to place `j` later. -/
def StillToRead (keyBuf : ℕ → UInt8) (n i j : ℕ) : Prop :=
  i ≤ j ∧ j + 1 < n ∧ ∀ k < j, i ≤ k → keyBuf k ≠ newline

/-- The reader of terminal `t` has been released, and the byte `b` at place `j` would
not be the one it should find there. -/
def Disturbs (t : Fin 3) (s : Reading) (j : ℕ) (b : UInt8) : Prop :=
  match s.reader with
  | .idle | .done => False
  | .waiting => s.console.keys.readFlag t = false ∧
      StillToRead (s.console.keys.keyBuf t) s.nbytes 0 j ∧ b ≠ s.console.keys.keyBuf t j
  | .copying i =>
      StillToRead (s.console.keys.keyBuf t) s.nbytes i j ∧ b ≠ s.console.keys.keyBuf t j
  | .testing i =>
      j = i ∧ ¬ (b = newline ↔ s.console.keys.keyBuf t i = newline) ∨
      s.console.keys.keyBuf t i ≠ newline ∧
        StillToRead (s.console.keys.keyBuf t) s.nbytes (i + 1) j ∧ b ≠ s.console.keys.keyBuf t j

/-- A key stores such a byte. -/
def Overwrites (t : Fin 3) (s : Reading) : ReadEvent → Prop
  | .key _ code =>
    ∃ p ∈ keyStores t s.console (keyOf s.console.keys.mods code), Disturbs t s p.1 p.2
  | .call _ _ | .step => False

instance (keyBuf : ℕ → UInt8) (n i j : ℕ) : Decidable (StillToRead keyBuf n i j) :=
  inferInstanceAs (Decidable (_ ∧ _ ∧ ∀ k < j, i ≤ k → keyBuf k ≠ newline))

instance (t : Fin 3) (s : Reading) (j : ℕ) (b : UInt8) : Decidable (Disturbs t s j b) :=
  match s with
  | ⟨_, .idle, _, _, _, _, _⟩ => inferInstanceAs (Decidable False)
  | ⟨_, .done, _, _, _, _, _⟩ => inferInstanceAs (Decidable False)
  | ⟨_, .waiting, _, _, _, _, _⟩ => inferInstanceAs (Decidable (_ ∧ _ ∧ _))
  | ⟨_, .copying _, _, _, _, _, _⟩ => inferInstanceAs (Decidable (_ ∧ _))
  | ⟨_, .testing _, _, _, _, _, _⟩ => inferInstanceAs (Decidable (_ ∧ ¬ (_ ↔ _) ∨ _ ∧ _ ∧ _))

instance (t : Fin 3) (s : Reading) (e : ReadEvent) : Decidable (Overwrites t s e) :=
  match e with
  | .key _ code => inferInstanceAs (Decidable
      (∃ p ∈ keyStores t s.console (keyOf s.console.keys.mods code), Disturbs t s p.1 p.2))
  | .call _ _ => inferInstanceAs (Decidable False)
  | .step => inferInstanceAs (Decidable False)

/-- The bytes of the line from place `i` on are still in the buffer. -/
def Intact (keyBuf : ℕ → UInt8) (n : ℕ) (line : List UInt8) (i : ℕ) : Prop :=
  ∀ j, i ≤ j → j ≤ line.length → j + 1 < n → keyBuf j = (line ++ [newline]).getD j 0

/-- How far a released reader has come. -/
def Copied (t : Fin 3) (s : Reading) (line : List UInt8) : Prop :=
  match s.reader with
  | .idle => False
  | .waiting => s.console.keys.readFlag t = false ∧ s.buffer = [] ∧ s.steps = 0 ∧
      Intact (s.console.keys.keyBuf t) s.nbytes line 0
  | .copying i => i ≤ line.length ∧ (i < s.nbytes ∨ i = 0) ∧ s.buffer = line.take i ∧
      s.steps = 2 * i + 1 ∧ Intact (s.console.keys.keyBuf t) s.nbytes line i
  | .testing i => i ≤ line.length ∧ i + 1 < s.nbytes ∧
      s.buffer = (line ++ [newline]).take (i + 1) ∧ s.steps = 2 * i + 2 ∧
      (s.console.keys.keyBuf t i = newline ↔ i = line.length) ∧
      Intact (s.console.keys.keyBuf t) s.nbytes line (i + 1)
  | .done => s.buffer = delivered s.nbytes line

/-- The invariant of the reader. -/
structure Delivers (t : Fin 3) (s : Reading) : Prop where
  lineOk : LineOk s.console.keys t
  reads : ∀ r ∈ s.reads, r < 128
  locked : s.line = none → s.reader = .idle ∨
    s.reader = .waiting ∧ s.console.keys.readFlag t = true ∧ s.buffer = []
  released : ∀ line, s.line = some line →
    line.length ≤ keyboardBufferSize ∧ newline ∉ line ∧ Copied t s line

section Line
variable {line : List UInt8} {keyBuf keyBuf' : ℕ → UInt8} {n i j : ℕ}

theorem getD_of_lt (hj : j < line.length) :
    (line ++ [newline]).getD j 0 = line.get ⟨j, hj⟩ := by
  simp [List.getElem?_append_left hj, List.getElem?_eq_getElem hj]

theorem getD_line (hline : newline ∉ line) (hj : j ≤ line.length) :
    (line ++ [newline]).getD j 0 = newline ↔ j = line.length := by
  rcases Nat.lt_or_eq_of_le hj with hlt | rfl
  · rw [getD_of_lt hlt]
    refine ⟨fun h => absurd (h ▸ List.get_mem line ⟨j, hlt⟩) hline, fun h => by omega⟩
  · simp

/-- A reader of an intact line comes to every place of it that `nbytes` allows. -/
theorem Intact.stillToRead (h : Intact keyBuf n line i) (hline : newline ∉ line) (hij : i ≤ j)
    (hj : j ≤ line.length) (hn : j + 1 < n) : StillToRead keyBuf n i j := by
  refine ⟨hij, hn, fun k hk hik hnew => ?_⟩
  rw [h k hik (by omega) (by omega), getD_line hline (by omega)] at hnew
  omega

/-- What a key does to the buffer leaves the line intact when it changes no byte that
is still to be read. -/
theorem Intact.keep (h : Intact keyBuf n line i) (hline : newline ∉ line)
    (hkeep : ∀ j, StillToRead keyBuf n i j → keyBuf' j = keyBuf j) : Intact keyBuf' n line i := by
  intro j hij hj hn
  rw [hkeep j (h.stillToRead hline hij hj hn)]
  exact h j hij hj hn

end Line

section Steps
variable {t : Fin 3} {s : Reading}

/-- The console after the modifier keys of a scan code. -/
abbrev withModifiers (s : Console) (code : UInt8) : Console :=
  { s with keys := { s.keys with mods := modifiers s.keys.mods code } }

theorem key_lineOk (h : LineOk s.console.keys t) (cs : Fin 3) (code : UInt8) :
    LineOk (keyboardHandler cs s.console code).1.keys t :=
  LineOk.press (s := withModifiers s.console code) cs t h fun _ => keyOf_character_ne

theorem keyboardHandler_readFlag (cs t : Fin 3) (s : Console) (code : UInt8) :
    (keyboardHandler cs s code).1.keys.readFlag t =
      if Enters t s code then false else s.keys.readFlag t :=
  press_readFlag cs t (withModifiers s code) (keyOf s.keys.mods code)

/-- The Enter that releases the reader leaves the line behind, with its newline. -/
theorem enter_intact {cs : Fin 3} {code : UInt8} (he : Enters t s.console code) (n : ℕ) :
    Intact ((keyboardHandler cs s.console code).1.keys.keyBuf t) n
      (editedLine s.console.keys t) 0 := by
  have hbuf : (keyboardHandler cs s.console code).1.keys.keyBuf t =
      update (s.console.keys.keyBuf t) (s.console.keys.keybufferCount t) newline := by
    rw [keyboardHandler, he.1, ← he.2]
    simp [press, Keyboard.finish]
  intro j _ hj _
  have hlength := editedLine_length s.console.keys t
  rw [hbuf]
  rcases Nat.lt_or_eq_of_le hj with hlt | rfl
  · rw [Function.update_of_ne (by omega), getD_of_lt hlt]
    simp [editedLine]
  · rw [hlength, Function.update_self, ← hlength]
    simp

/-- It lets a waiting reader go. -/
theorem enter_copied {cs : Fin 3} {code : UInt8} (he : Enters t s.console code)
    (hwaiting : s.reader = .waiting) (hbuffer : s.buffer = []) :
    Copied t { s with
      console := (keyboardHandler cs s.console code).1
      line := some (editedLine s.console.keys t)
      steps := 0 } (editedLine s.console.keys t) := by
  simp only [Copied, hwaiting]
  refine ⟨?_, hbuffer, trivial, enter_intact he s.nbytes⟩
  rw [keyboardHandler_readFlag, if_pos he]

/-- A key that overwrites nothing keeps every byte whose change would disturb the reader. -/
theorem keyBuf_kept {cs : Fin 3} {code : UInt8} (hg : ¬ Overwrites t s (.key cs code)) {j : ℕ}
    (hd : (keyboardHandler cs s.console code).1.keys.keyBuf t j ≠ s.console.keys.keyBuf t j →
      Disturbs t s j ((keyboardHandler cs s.console code).1.keys.keyBuf t j)) :
    (keyboardHandler cs s.console code).1.keys.keyBuf t j = s.console.keys.keyBuf t j := by
  by_contra hne
  rcases press_keyBuf cs t (withModifiers s.console code) (keyOf s.console.keys.mods code) j with
    hj | hj
  · exact hne hj
  · exact hg ⟨_, hj, hd hne⟩

/-- The reader goes on undisturbed. -/
theorem Copied.key {line : List UInt8} (h : Copied t s line) (hline : newline ∉ line) {cs : Fin 3}
    {code : UInt8} (hg : ¬ Overwrites t s (.key cs code)) :
    Copied t { s with console := (keyboardHandler cs s.console code).1 } line := by
  obtain ⟨console, reader, nbytes, buffer, l, steps, reads⟩ := s
  cases reader with
  | idle => exact h
  | done => exact h
  | waiting =>
    obtain ⟨hflag, hbuffer, hsteps, hintact⟩ := h
    refine ⟨?_, hbuffer, hsteps, hintact.keep hline fun j hj => ?_⟩
    · rw [keyboardHandler_readFlag]
      split_ifs
      · rfl
      · exact hflag
    · exact keyBuf_kept hg fun hne => ⟨hflag, hj, hne⟩
  | copying i =>
    obtain ⟨hi, hn, hbuffer, hsteps, hintact⟩ := h
    refine ⟨hi, hn, hbuffer, hsteps, hintact.keep hline fun j hj => ?_⟩
    exact keyBuf_kept hg fun hne => ⟨hj, hne⟩
  | testing i =>
    obtain ⟨hi, hn, hbuffer, hsteps, htest, hintact⟩ := h
    refine ⟨hi, hn, hbuffer, hsteps, ?_, ?_⟩
    · rw [← htest]
      by_contra hiff
      have hsame := keyBuf_kept hg fun _ => .inl ⟨rfl, hiff⟩
      exact hiff (iff_of_eq (congrArg (· = newline) hsame))
    · by_cases hend : i = line.length
      · intro j hij hj
        omega
      · apply hintact.keep hline
        intro j hj
        exact keyBuf_kept hg fun hne => .inr ⟨fun hnew => hend (htest.mp hnew), hj, hne⟩

theorem Delivers.key (h : Delivers t s) {cs : Fin 3} {code : UInt8}
    (hg : ¬ Overwrites t s (.key cs code)) : Delivers t (keyStep t s cs code) := by
  have hok := key_lineOk h.lineOk cs code
  simp only [keyStep]
  split_ifs with hhalt hrelease
  · exact ⟨hok, h.reads, fun _ => .inl rfl, fun _ hl => nomatch hl⟩
  · obtain ⟨henter, hwaiting, hflag⟩ := hrelease
    -- a reader whose flag is still up has not been released
    have hnone : s.line = none := by
      cases hl : s.line with
      | none => rfl
      | some line =>
        have hcopied := (h.released line hl).2.2
        simp [Copied, hwaiting, hflag] at hcopied
    have hbuffer : s.buffer = [] := by
      rcases h.locked hnone with hidle | hlocked
      · rw [hwaiting] at hidle
        cases hidle
      · exact hlocked.2.2
    refine ⟨hok, h.reads, (fun hl => nomatch hl), fun line hl => ?_⟩
    obtain rfl := Option.some.inj hl
    obtain ⟨hlength, hline⟩ := h.lineOk.editedLine
    exact ⟨hlength, hline, enter_copied henter hwaiting hbuffer⟩
  · refine ⟨hok, h.reads, fun hl => ?_, fun line hl => ?_⟩
    · rcases h.locked hl with hidle | ⟨hwaiting, hflag, hbuffer⟩
      · exact .inl hidle
      · refine .inr ⟨hwaiting, ?_, hbuffer⟩
        rw [keyboardHandler_readFlag, if_neg fun he => hrelease ⟨he, hwaiting, hflag⟩]
        exact hflag
    · obtain ⟨hlength, hline, hcopied⟩ := h.released line hl
      exact ⟨hlength, hline, hcopied.key hline hg⟩

theorem Delivers.call (h : Delivers t s) (buf : Bool) (nbytes : ℤ) :
    Delivers t (callRead t s buf nbytes) := by
  simp only [callRead]
  split_ifs
  · exact ⟨h.lineOk, h.reads, fun _ => .inl rfl, fun _ hl => nomatch hl⟩
  · refine ⟨h.lineOk, h.reads, fun _ => .inr ⟨rfl, ?_, rfl⟩, fun _ hl => nomatch hl⟩
    exact Function.update_self _ _ _

/-- A place of the line is a place of the buffer. -/
theorem reads_snoc {reads : List ℕ} {i : ℕ} (h : ∀ r ∈ reads, r < 128) (hi : i < 128) :
    ∀ r ∈ reads ++ [i], r < 128 := by
  intro r hr
  rcases List.mem_append.mp hr with hr | hr
  · exact h r hr
  · exact (List.mem_singleton.mp hr).symm ▸ hi

/-- A step of the copy. -/
theorem Copied.step {line : List UInt8} (h : Copied t s line)
    (hlength : line.length ≤ keyboardBufferSize) (hline : newline ∉ line)
    (hreads : ∀ r ∈ s.reads, r < 128) {s' : Reading} (hs : readerStep t s = some s') :
    Copied t s' line ∧ ∀ r ∈ s'.reads, r < 128 := by
  obtain ⟨console, reader, nbytes, buffer, l, steps, reads⟩ := s
  have hsize : line.length ≤ 127 := hlength
  cases reader with
  | idle => cases hs
  | done => cases hs
  | waiting =>
    obtain ⟨hflag, hbuffer, hsteps, hintact⟩ := h
    simp only at hflag hsteps
    simp only [readerStep, hflag, Bool.false_eq_true, if_false, Option.some.injEq] at hs
    subst hs
    exact ⟨⟨Nat.zero_le _, .inr rfl, hbuffer, by simp [hsteps], hintact⟩, hreads⟩
  | copying i =>
    obtain ⟨hi, hn, hbuffer, hsteps, hintact⟩ := h
    simp only at hn hbuffer hsteps hintact
    simp only [readerStep] at hs
    split_ifs at hs with hlast hcut
    · obtain rfl := Option.some.inj hs
      have hzero : nbytes = 0 := by omega
      refine ⟨?_, hreads⟩
      simp only [Copied, delivered, hzero, if_true, hbuffer]
      rw [show i = 0 by omega, List.take_zero]
    · obtain rfl := Option.some.inj hs
      refine ⟨?_, hreads⟩
      simp only [Copied, delivered, show nbytes ≠ 0 by omega, if_false, hbuffer, hcut]
    · obtain rfl := Option.some.inj hs
      have hbyte := hintact i le_rfl hi (by omega)
      refine ⟨⟨hi, by simp only; omega, ?_, by simp only; omega, ?_, ?_⟩,
        reads_snoc hreads (by omega)⟩
      · simp only
        rw [hbuffer, hbyte, List.take_add_one, List.take_append_of_le_length hi]
        simp [List.getElem?_eq_getElem (show i < (line ++ [newline]).length by simp; omega)]
      · simp only
        rw [hbyte]
        exact getD_line hline hi
      · exact fun j hj => hintact j (by omega)
  | testing i =>
    obtain ⟨hi, hn, hbuffer, hsteps, htest, hintact⟩ := h
    simp only at hn hbuffer hsteps htest hintact
    simp only [readerStep, Option.some.injEq] at hs
    subst hs
    refine ⟨?_, reads_snoc hreads (by omega)⟩
    by_cases hend : console.keys.keyBuf t i = newline
    · have hlen := htest.mp hend
      simp only [Copied, hend, if_true, delivered, show nbytes ≠ 0 by omega, if_false, hbuffer]
      rw [List.take_of_length_le (by simp; omega), List.take_of_length_le (by omega)]
    · have hlen : i ≠ line.length := fun he => hend (htest.mpr he)
      simp only [Copied, hend, if_false]
      refine ⟨by omega, .inl hn, ?_, by omega, hintact⟩
      rw [hbuffer, List.take_append_of_le_length (by omega)]

theorem readerStep_keeps {s' : Reading} (hs : readerStep t s = some s') :
    s'.line = s.line ∧ s'.console = s.console := by
  obtain ⟨console, reader, nbytes, buffer, l, steps, reads⟩ := s
  cases reader with
  | idle => cases hs
  | done => cases hs
  | waiting =>
    simp only [readerStep] at hs
    split_ifs at hs <;> obtain rfl := Option.some.inj hs <;> exact ⟨rfl, rfl⟩
  | copying i =>
    simp only [readerStep] at hs
    split_ifs at hs <;> obtain rfl := Option.some.inj hs <;> exact ⟨rfl, rfl⟩
  | testing i =>
    obtain rfl := Option.some.inj hs
    exact ⟨rfl, rfl⟩

theorem Delivers.step (h : Delivers t s) {e : ReadEvent} (hg : ¬ Overwrites t s e) {s' : Reading}
    (hs : readStep t s e = some s') : Delivers t s' := by
  cases e with
  | key cs code =>
    obtain rfl := Option.some.inj hs
    exact h.key hg
  | call buf nbytes =>
    simp only [readStep] at hs
    split_ifs at hs
    obtain rfl := Option.some.inj hs
    exact h.call buf nbytes
  | step =>
    obtain ⟨hline, hconsole⟩ := readerStep_keeps hs
    cases hl : s.line with
    | none =>
      rcases h.locked hl with hidle | ⟨hwaiting, hflag, -⟩
      · simp [readStep, readerStep, hidle] at hs
      · obtain rfl : s = s' := by simpa [readStep, readerStep, hwaiting, hflag] using hs
        exact h
    | some line =>
      obtain ⟨hlength, hnew, hcopied⟩ := h.released line hl
      obtain ⟨hcopied', hreads⟩ := hcopied.step hlength hnew h.reads hs
      refine ⟨hconsole ▸ h.lineOk, hreads, fun hnone => ?_, fun line' hl' => ?_⟩
      · rw [hline, hl] at hnone
        cases hnone
      · obtain rfl : line = line' := by
          rw [hline, hl] at hl'
          exact Option.some.inj hl'
        exact ⟨hlength, hnew, hcopied'⟩

end Steps

/-- The machine before the first read. -/
def Reading.start (kb : Keyboard) (d : Display) : Reading :=
  ⟨⟨keyboardInit kb, d⟩, .idle, 0, [], none, 0, []⟩

/-- From `keyboard_init` on, as long as no key overwrites what a released reader has
still to read: a reader that is done was released by an Enter and has the line of
that Enter, one that is not done yet has made at most `2 * nbytes + 1` steps since,
and no reader has looked behind the buffer. -/
theorem read_returns_line (t : Fin 3) (kb : Keyboard) (d : Display) (es : List ReadEvent)
    (s : Reading) (hg : Along (readStep t) (fun s e => ¬ Overwrites t s e) (.start kb d) es)
    (hr : run (readStep t) (.start kb d) es = some s) :
    (s.reader = .done → ∃ line, s.line = some line ∧ s.buffer = delivered s.nbytes line) ∧
    (s.line ≠ none → s.reader ≠ .done → s.steps ≤ 2 * s.nbytes + 1) ∧
    ∀ r ∈ s.reads, r < 128 := by
  have hstart : Delivers t (.start kb d) :=
    ⟨⟨Nat.zero_le _, fun j hj => absurd hj (Nat.not_lt_zero j)⟩, by simp [Reading.start],
      fun _ => .inl rfl, fun _ hl => nomatch hl⟩
  have h : Delivers t s :=
    invariant_along (Delivers t) (fun _ _ _ he hs h => h.step he hs) hg hr hstart
  refine ⟨fun hdone => ?_, fun hl hdone => ?_, h.reads⟩
  · cases hl : s.line with
    | none => rcases h.locked hl with hr | ⟨hr, -⟩ <;> rw [hr] at hdone <;> cases hdone
    | some line =>
      have hcopied := (h.released line hl).2.2
      rw [Copied, hdone] at hcopied
      exact ⟨line, rfl, hcopied⟩
  · obtain ⟨line, hl⟩ := Option.ne_none_iff_exists'.mp hl
    have hcopied := (h.released line hl).2.2
    unfold Copied at hcopied
    cases hreader : s.reader <;> simp only [hreader, ne_eq, not_true_eq_false] at hcopied hdone
    all_goals omega

/-- "ab" is typed around the call of a read, and an "x" during the copy, at a place
that has been read already. -/
theorem read_returns_line_ab :
    ∃ s, run (readStep 0) (.start blankConsole.keys blankConsole.display)
      [.key 0 0x1E, .call true 10, .key 0 0x30, .key 0 0x1C, .step, .step, .step, .key 0 0x2D,
        .step, .step, .step, .step] = some s ∧ s.reader = .done ∧
      ∃ line, s.line = some line ∧ s.buffer = delivered s.nbytes line := by
  obtain ⟨s, hr, hdone⟩ := run_eval (readStep 0) (.start blankConsole.keys blankConsole.display)
    [.key 0 0x1E, .call true 10, .key 0 0x30, .key 0 0x1C, .step, .step, .step,
      .key 0 0x2D, .step, .step, .step, .step] (fun s => s.reader = .done) (by decide +kernel)
  exact ⟨s, hr, hdone, (read_returns_line 0 blankConsole.keys blankConsole.display _ s
    (by decide +kernel) hr).1 hdone⟩

/-- An "x" between Enter on an empty line and the copy takes the place of the newline.
The read returns bytes that were never typed, and with a large buffer it runs on
behind the keyboard buffer. -/
theorem read_returns_other_bytes :
    (¬ ∀ (t : Fin 3) (kb : Keyboard) (d : Display) (es : List ReadEvent) (s : Reading),
      run (readStep t) (.start kb d) es = some s → s.reader = .done →
        ∃ line, s.line = some line ∧ s.buffer = delivered s.nbytes line) ∧
    ¬ ∀ (t : Fin 3) (kb : Keyboard) (d : Display) (es : List ReadEvent) (s : Reading),
      run (readStep t) (.start kb d) es = some s → ∀ r ∈ s.reads, r < 128 := by
  constructor
  · intro h
    obtain ⟨s, hr, hdone, hline, hn, hbuffer⟩ := run_eval (readStep 0)
      (.start blankConsole.keys blankConsole.display)
      ([.call true 3, .key 0 0x1C, .key 0 0x2D] ++ List.replicate 6 .step)
      (fun s => s.reader = .done ∧ s.line = some [] ∧ s.nbytes = 3 ∧ s.buffer = [0x78, 0, newline])
      (by decide +kernel)
    obtain ⟨line, hl, hb⟩ := h 0 _ _ _ s hr hdone
    obtain rfl : [] = line := Option.some.inj (hline.symm.trans hl)
    rw [hn, hbuffer] at hb
    exact absurd hb (by decide)
  · intro h
    obtain ⟨s, hr, hmem⟩ := run_eval (readStep 0) (.start blankConsole.keys blankConsole.display)
      ([.call true 200, .key 0 0x1C, .key 0 0x2D] ++ List.replicate 258 .step)
      (fun s => 128 ∈ s.reads) (by decide +kernel)
    exact absurd (h 0 _ _ _ s hr 128 hmem) (by decide)

end Ece391.Devices

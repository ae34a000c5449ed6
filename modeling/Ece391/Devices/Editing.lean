import Ece391.Devices.Lines
import Ece391.Devices.Modifiers
import Ece391.Devices.Pages

/-! The line that the keyboard handler edits, against a line editor on lists, and what a
read that waits for its Enter brings back. -/

namespace Ece391.Devices

open Function (update)
open Lib Support.Runs

/-- The keys of a sequence of scan codes; each code finds the modifier keys as the codes
before it have left them. -/
def keysOf : Modifiers → List UInt8 → List Key
  | _, [] => []
  | m, c :: codes => keyOf m c :: keysOf (modifiers m c) codes

/-- The editor: at most 127 characters, a tab is up to four spaces, and a key without a
character of its own does nothing. -/
def edit (line : List UInt8) : Key → List UInt8
  | .character c => if line.length < keyboardBufferSize then line ++ [c] else line
  | .tab => line ++ List.replicate (min tabLength (keyboardBufferSize - line.length)) space
  | .backspace => line.dropLast
  | .clearScreen | .switchTo _ | .interrupt | .enter | .silent => line

/-- The key neither ends the line nor leaves the terminal or its process. -/
def Key.edits : Key → Bool
  | .enter | .switchTo _ | .interrupt => false
  | .character _ | .tab | .backspace | .clearScreen | .silent => true

/-- The tables of characters. -/
inductive Keymap
  | plain | shift | capslock

/-- Shift turns caps lock off, and caps lock turns shift off. -/
def Keymap.selected : (shift capslock : Bool) → Keymap
  | true, false => .shift
  | false, true => .capslock
  | true, true | false, false => .plain

/-- The character of a code, if it has one. -/
def Keymap.char (map : Keymap) (code : UInt8) : Option UInt8 :=
  let table := match map with
    | .plain => keymapTable
    | .shift => keymapShiftTable
    | .capslock => keymapCapslockTable
  table[code.toNat]?.filter (· ≠ 0)

/-- The line behind a scan code that neither ends it nor leaves the terminal, with the
modifier keys as the code has left them. -/
def retype (m : Modifiers) (line : List UInt8) (code : UInt8) : List UInt8 :=
  if code = backspacePressed then line.dropLast
  else if code = tabPressed then
    line ++ List.replicate (min tabLength (keyboardBufferSize - line.length)) space
  else if m.control = true ∧ code = lKey then line
  else match (Keymap.selected m.shift m.capslock).char code with
    | some c => if line.length < keyboardBufferSize then line ++ [c] else line
    | none => line

/-- The reference line of a sequence of scan codes. -/
def referenceLine : Modifiers → List UInt8 → List UInt8 → List UInt8
  | _, line, [] => line
  | m, line, c :: codes => referenceLine (modifiers m c) (retype (modifiers m c) line c) codes

theorem selected_char (m : Modifiers) (code : UInt8) :
    (Keymap.selected m.shift m.capslock).char code =
      if keyMapped m code = 0 then none else some (keyMapped m code) := by
  have hentry : ∀ table : List UInt8, table[code.toNat]?.filter (· ≠ 0) =
      if lookup table code = 0 then none else some (lookup table code) := by
    intro table
    rw [lookup, List.getD_eq_getElem?_getD]
    cases table[code.toNat]? with
    | none => rfl
    | some c =>
      by_cases hc : c = 0
      · simp [hc]
      · simp [hc]
  obtain ⟨shift, capslock, -, -, -⟩ := m
  cases shift <;> cases capslock <;> exact hentry _

/-- A code that edits does to the line what its key does. -/
theorem retype_eq {m : Modifiers} {code : UInt8} (h : (keyOf m code).edits = true) (line : List UInt8) :
    retype (modifiers m code) line code = edit line (keyOf m code) := by
  unfold keyOf at *
  generalize modifiers m code = m at *
  rw [retype, selected_char]
  unfold decode at *
  by_cases hback : code = backspacePressed
  · simp only [if_pos hback, edit]
  by_cases htab : code = tabPressed
  · simp only [if_neg hback, if_pos htab, edit]
  by_cases hclear : m.control = true ∧ code = lKey
  · simp only [if_neg hback, if_neg htab, if_pos hclear, edit]
  simp only [if_neg hback, if_neg htab, if_neg hclear] at h ⊢
  split_ifs at h ⊢ <;> simp_all [edit, Key.edits]

theorem referenceLine_eq {m : Modifiers} {codes : List UInt8}
    (h : ∀ k ∈ keysOf m codes, k.edits = true) (line : List UInt8) :
    referenceLine m line codes = (keysOf m codes).foldl edit line := by
  induction codes generalizing m line with
  | nil => rfl
  | cons c codes ih =>
    obtain ⟨hc, hrest⟩ := List.forall_mem_cons.mp h
    rw [referenceLine, retype_eq hc, ih hrest]
    rfl

/-! ### One key -/

section Press
variable (cs t : Fin 3) {s : Console}

theorem editedLine_push (kb : Keyboard) (c : UInt8) :
    editedLine (kb.push t c) t = editedLine kb t ++ [c] := by
  have hold : ∀ j ∈ List.range (kb.keybufferCount t),
      update (kb.keyBuf t) (kb.keybufferCount t) c j = kb.keyBuf t j := by
    intro j hj
    exact Function.update_of_ne (List.mem_range.mp hj).ne _ _
  simp only [editedLine, Keyboard.push, Function.update_self, List.range_succ, List.map_append,
    List.map_congr_left hold, List.map_cons, List.map_nil]

theorem editedLine_pop (kb : Keyboard) : editedLine (kb.pop t) t = (editedLine kb t).dropLast := by
  simp only [editedLine, Keyboard.pop, Function.update_self]
  cases kb.keybufferCount t with
  | zero => rfl
  | succ n => rw [List.range_succ, List.map_append, Nat.add_sub_cancel, List.map_singleton,
      List.dropLast_concat]

variable (hs : s.display.currentTerminal = t)
include hs

theorem editedLine_typeCharacter (c : UInt8) :
    editedLine (typeCharacter cs c s).keys t = edit (editedLine s.keys t) (.character c) := by
  subst hs
  simp only [typeCharacter, edit, editedLine_length]
  split_ifs
  · exact editedLine_push _ _ c
  · rfl

/-- As many of the spaces as there is room for. -/
theorem editedLine_typeCharacter_iterate (n : ℕ) :
    editedLine ((typeCharacter cs space)^[n] s).keys t =
      editedLine s.keys t ++
        List.replicate (min n (keyboardBufferSize - s.keys.keybufferCount t)) space := by
  induction n generalizing s with
  | zero => simp
  | succ n ih =>
    have hterminal : (typeCharacter cs space s).display.currentTerminal = t :=
      (typeCharacter_currentTerminal cs space s).trans hs
    have hcount := congrArg List.length (editedLine_typeCharacter cs t hs space)
    rw [Function.iterate_succ_apply, ih hterminal, editedLine_typeCharacter cs t hs]
    simp only [editedLine_length, edit] at hcount ⊢
    split_ifs at hcount ⊢ with hroom
    · rw [List.length_append, editedLine_length, List.length_singleton] at hcount
      rw [List.append_assoc, hcount, ← List.replicate_one, List.replicate_append_replicate]
      congr 2
      omega
    · rw [editedLine_length] at hcount
      rw [hcount]
      congr 2
      omega

/-- Every key that edits does to the buffer what the editor does to the line. -/
theorem editedLine_press {k : Key} (hk : k.edits = true) :
    editedLine (press cs s k).1.keys t = edit (editedLine s.keys t) k ∧
      (press cs s k).1.display.currentTerminal = t := by
  cases k with
  | backspace =>
    simp only [press]
    split_ifs with hcount
    · exact ⟨hs ▸ editedLine_pop _ _, hs⟩
    · rw [hs] at hcount
      have hempty : editedLine s.keys t = [] := by
        rw [← List.length_eq_zero_iff, editedLine_length]
        omega
      exact ⟨by rw [hempty]; rfl, hs⟩
  | tab =>
    refine ⟨?_, ?_⟩
    · rw [edit, editedLine_length]
      exact editedLine_typeCharacter_iterate cs t hs tabLength
    · show ((typeCharacter cs space)^[tabLength] s).display.currentTerminal = t
      generalize tabLength = n
      induction n with
      | zero => exact hs
      | succ n ih => rw [Function.iterate_succ_apply', typeCharacter_currentTerminal, ih]
  | character c =>
    exact ⟨editedLine_typeCharacter cs t hs c, (typeCharacter_currentTerminal cs c s).trans hs⟩
  | clearScreen =>
    simp only [press, edit, true_and]
    simpa only [clearSet, setCursor, clear] using hs
  | silent => exact ⟨rfl, hs⟩
  | switchTo n => cases hk
  | interrupt => cases hk
  | enter => cases hk

end Press

/-! ### A run of keys -/

/-- Scan codes that arrive while the terminal is running and shown. -/
def keyEvents (t : Fin 3) (codes : List UInt8) : List ReadEvent := codes.map (.key t)

section Keys
variable {t : Fin 3} {s : Reading}

/-- A key that edits the line of the reader's terminal leaves the reader alone. -/
theorem keyStep_edits {code : UInt8}
    (hk : (keyOf s.console.keys.mods code).edits = true) :
    keyStep t s t code = { s with console := (keyboardHandler t s.console code).1 } := by
  have henter : ¬ Enters t s.console code := by
    rintro ⟨he, -⟩
    rw [he] at hk
    cases hk
  have hhalt : (keyboardHandler t s.console code).2 ≠ some (.halt ctrlClearVal) := by
    intro h
    have hinterrupt := press_request h
    rw [hinterrupt] at hk
    cases hk
  simp [keyStep, henter, hhalt]

/-- Keys that edit: the line is edited by each of them in turn, and the reader waits on. -/
theorem run_keyEvents {codes : List UInt8} (hs : s.console.display.currentTerminal = t)
    (hk : ∀ k ∈ keysOf s.console.keys.mods codes, k.edits = true) :
    ∃ console, run (readStep t) s (keyEvents t codes) = some { s with console := console } ∧
      editedLine console.keys t =
        (keysOf s.console.keys.mods codes).foldl edit (editedLine s.console.keys t) ∧
      console.display.currentTerminal = t ∧
      console.keys.mods = codes.foldl modifiers s.console.keys.mods ∧
      console.keys.readFlag t = s.console.keys.readFlag t := by
  induction codes generalizing s with
  | nil => exact ⟨s.console, rfl, rfl, hs, rfl, rfl⟩
  | cons c codes ih =>
    obtain ⟨hc, hrest⟩ := List.forall_mem_cons.mp hk
    have hmods : (keyboardHandler t s.console c).1.keys.mods = modifiers s.console.keys.mods c :=
      press_mods _ _ _
    obtain ⟨hline, hterminal⟩ := editedLine_press t t (s := withModifiers s.console c) hs hc
    have hflag : (keyboardHandler t s.console c).1.keys.readFlag t = s.console.keys.readFlag t := by
      have henter : ¬ Enters t s.console c := by
        rintro ⟨he, -⟩
        rw [he] at hc
        cases hc
      rw [keyboardHandler_readFlag, if_neg henter]
    obtain ⟨console, hr, hline', hterminal', hmods', hflag'⟩ :=
      @ih { s with console := (keyboardHandler t s.console c).1 } hterminal (hmods.symm ▸ hrest)
    refine ⟨console, ?_, ?_, hterminal', ?_, hflag'.trans hflag⟩
    · rw [keyEvents, List.map_cons, run, readStep, keyStep_edits hc]
      exact hr
    · rw [hline', hmods, keysOf, List.foldl_cons]
      exact congrArg (fun l => List.foldl edit l _) hline
    · rw [hmods', hmods]
      rfl

end Keys

/-! ### The bounds of the buffer -/

/-- Whatever happens, the line fits the buffer. -/
theorem readStep_lineOk {t : Fin 3} {s s' : Reading} {e : ReadEvent} (h : LineOk s.console.keys t)
    (hs : readStep t s e = some s') : LineOk s'.console.keys t := by
  cases e with
  | key cs code =>
    obtain rfl := Option.some.inj hs
    have hkey := key_lineOk h cs code
    simp only [keyStep]
    split_ifs <;> exact hkey
  | call buf nbytes =>
    simp only [readStep] at hs
    split_ifs at hs
    obtain rfl := Option.some.inj hs
    simp only [callRead]
    split_ifs <;> exact h
  | step => exact (readerStep_keeps hs).2 ▸ h

theorem run_lineOk {t : Fin 3} {s s' : Reading} {es : List ReadEvent} (h : LineOk s.console.keys t)
    (hr : run (readStep t) s es = some s') : LineOk s'.console.keys t :=
  invariant_run (fun s => LineOk s.console.keys t) (fun _ _ _ hs h => readStep_lineOk h hs) hr h

theorem keyStores_le {t : Fin 3} {s : Console} (h : s.keys.keybufferCount t ≤ keyboardBufferSize)
    {k : Key} {p : ℕ × UInt8} (hp : p ∈ keyStores t s k) : p.1 ≤ keyboardBufferSize := by
  unfold keyStores at hp
  split_ifs at hp
  · cases k with
    | character c =>
      simp only at hp
      split_ifs at hp with hroom
      · rw [List.mem_singleton.mp hp]
        exact h
      · cases hp
    | tab =>
      obtain ⟨j, hj, rfl⟩ := List.mem_map.mp hp
      exact (of_decide_eq_true (List.mem_filter.mp hj).2).le
    | enter =>
      rw [List.mem_singleton.mp hp]
      exact h
    | _ => cases hp
  · cases hp

/-- The console with other bytes in the line buffer of `t`. -/
def Console.withBuffer (s : Console) (t : Fin 3) (bytes : ℕ → UInt8) : Console :=
  { s with keys := { s.keys with keyBuf := update s.keys.keyBuf t bytes } }

/-- Whatever the buffer holds, the handler leaves everything behind its last place alone. -/
theorem keyboardHandler_keyBuf_behind {t : Fin 3} {s : Console}
    (h : s.keys.keybufferCount t ≤ keyboardBufferSize) (cs : Fin 3) (code : UInt8) (bytes : ℕ → UInt8)
    {j : ℕ} (hj : keyboardBufferSize < j) :
    (keyboardHandler cs (s.withBuffer t bytes) code).1.keys.keyBuf t j = bytes j := by
  have hbuffer : (s.withBuffer t bytes).keys.keyBuf t = bytes := by
    simp only [Console.withBuffer, Function.update_self]
  rcases press_keyBuf cs t (withModifiers (s.withBuffer t bytes) code) (keyOf s.keys.mods code) j with
    hkept | hstored
  · exact hkept.trans (congrFun hbuffer j)
  · have hplace := keyStores_le (t := t) (s := withModifiers (s.withBuffer t bytes) code) h hstored
    exact absurd hplace (not_le.mpr hj)

/-! ### The read -/

/-- A released reader that is under way has not made many steps, and makes another one. -/
theorem Copied.moves {t : Fin 3} {s : Reading} {line : List UInt8} (h : Copied t s line)
    (hdone : s.reader ≠ .done) :
    s.steps < 2 * line.length + 3 ∧ ∃ s', readerStep t s = some s' ∧ s'.steps = s.steps + 1 ∧
      s'.nbytes = s.nbytes := by
  obtain ⟨console, reader, nbytes, buffer, l, steps, reads⟩ := s
  cases reader with
  | idle => exact absurd h id
  | done => exact absurd rfl hdone
  | waiting =>
    obtain ⟨hflag, -, hsteps, -⟩ := h
    simp only at hflag hsteps
    have hgo : readerStep t ⟨console, .waiting, nbytes, buffer, l, steps, reads⟩ =
        some ⟨console, .copying 0, nbytes, buffer, l, steps + 1, reads⟩ := by
      simp [readerStep, hflag]
    exact ⟨by simp only; omega, _, hgo, rfl, rfl⟩
  | copying i =>
    obtain ⟨hi, -, -, hsteps, -⟩ := h
    simp only at hsteps
    refine ⟨by simp only; omega, ?_⟩
    simp only [readerStep]
    split_ifs <;> exact ⟨_, rfl, rfl, rfl⟩
  | testing i =>
    obtain ⟨hi, -, -, hsteps, -⟩ := h
    simp only at hsteps
    exact ⟨by simp only; omega, _, rfl, rfl, rfl⟩

/-- So it comes to its end. -/
theorem copy_finishes {t : Fin 3} {line : List UInt8} (hlength : line.length ≤ keyboardBufferSize)
    (hline : newline ∉ line) (m : ℕ) {s : Reading} (h : Copied t s line) (hreads : ∀ r ∈ s.reads, r < 128)
    (hm : 2 * line.length + 3 ≤ s.steps + m) :
    ∃ k s', run (readStep t) s (List.replicate k .step) = some s' ∧ s'.reader = .done ∧
      s'.buffer = delivered s.nbytes line := by
  by_cases hdone : s.reader = .done
  · exact ⟨0, s, rfl, hdone, by simpa only [Copied, hdone] using h⟩
  obtain ⟨hsteps, s', hs', hsteps', hn⟩ := h.moves hdone
  induction m generalizing s s' with
  | zero => omega
  | succ m ih =>
    obtain ⟨h', hreads'⟩ := h.step hlength hline hreads hs'
    by_cases hdone' : s'.reader = .done
    · refine ⟨1, s', by simp [run, readStep, hs'], hdone', ?_⟩
      rw [← hn]
      simpa only [Copied, hdone'] using h'
    · obtain ⟨hsteps'', s'', hs'', hnext, hn'⟩ := h'.moves hdone'
      obtain ⟨k, s₁, hr, hd, hbuffer⟩ := ih h' hreads' (by omega) hdone' hsteps'' s'' hs'' hnext hn'
      refine ⟨k + 1, s₁, ?_, hd, hn ▸ hbuffer⟩
      rw [List.replicate_succ]
      exact run_cons_eq_some.mpr ⟨s', hs', hr⟩

/-- The scan codes of a line around the call of the read that waits for it, and the Enter. -/
def lineEvents (t : Fin 3) (before after : List UInt8) (nbytes : ℤ) (enter : UInt8) : List ReadEvent :=
  keyEvents t before ++ .call true nbytes :: (keyEvents t after ++ [.key t enter])

theorem keysOf_append (m : Modifiers) (codes codes' : List UInt8) :
    keysOf m (codes ++ codes') = keysOf m codes ++ keysOf (codes.foldl modifiers m) codes' := by
  induction codes generalizing m with
  | nil => rfl
  | cons c codes ih => rw [List.cons_append, keysOf, keysOf, ih, List.foldl_cons, List.cons_append]

/-- The Enter releases the reader, with the edited line behind it in the buffer. -/
theorem Copied.enter {t : Fin 3} {s : Reading} {code : UInt8} (henter : Enters t s.console code)
    (hreader : s.reader = .waiting) (hflag : s.console.keys.readFlag t = true) (hbuffer : s.buffer = []) :
    Copied t (keyStep t s t code) (editedLine s.console.keys t) ∧
      (keyStep t s t code).nbytes = s.nbytes ∧ (keyStep t s t code).reads = s.reads := by
  have hhalt : (keyboardHandler t s.console code).2 ≠ some (.halt ctrlClearVal) := by
    intro h
    have hinterrupt := (press_request h).symm.trans henter.1
    cases hinterrupt
  have hstep : keyStep t s t code = { s with
      console := (keyboardHandler t s.console code).1
      line := some (editedLine s.console.keys t)
      steps := 0 } := by
    simp [keyStep, hhalt, henter, hreader, hflag]
  rw [hstep]
  exact ⟨enter_copied henter hreader hbuffer, rfl, rfl⟩

/-- Around the call the keys edit the line; the Enter hands it to the reader. -/
theorem run_lineEvents {t : Fin 3} {s : Reading} {before after : List UInt8} {nbytes : ℤ} {enter : UInt8}
    (hs : s.console.display.currentTerminal = t) (hreader : s.reader = .idle ∨ s.reader = .done)
    (hk : ∀ k ∈ keysOf s.console.keys.mods (before ++ after), k.edits = true)
    (henter : keyOf ((before ++ after).foldl modifiers s.console.keys.mods) enter = .enter)
    (hok : LineOk s.console.keys t) (hn : 0 ≤ nbytes) :
    ∃ s' line, run (readStep t) s (lineEvents t before after nbytes enter) = some s' ∧
      line = (keysOf s.console.keys.mods (before ++ after)).foldl edit (editedLine s.console.keys t) ∧
      line.length ≤ keyboardBufferSize ∧ newline ∉ line ∧ Copied t s' line ∧
      s'.nbytes = nbytes.toNat ∧ s'.reads = s.reads := by
  rw [keysOf_append] at hk ⊢
  rw [List.foldl_append] at henter
  obtain ⟨console₁, hr₁, hline₁, hterminal₁, hmods₁, -⟩ :=
    run_keyEvents hs fun k hkey => hk k (List.mem_append_left _ hkey)
  -- the call sets the flag and leaves the line alone
  obtain ⟨s₁, hcall, hkeys, hdisplay, hwaiting, hbuffer, hnbytes, hreads⟩ :
      ∃ s₁, readStep t { s with console := console₁ } (.call true nbytes) = some s₁ ∧
        s₁.console.keys = { console₁.keys with readFlag := update console₁.keys.readFlag t true } ∧
        s₁.console.display = console₁.display ∧ s₁.reader = .waiting ∧ s₁.buffer = [] ∧
        s₁.nbytes = nbytes.toNat ∧ s₁.reads = s.reads := by
    have hnot : ¬ (true = false ∨ nbytes < 0) := by simp; omega
    refine ⟨_, if_pos hreader, ?_⟩
    rw [callRead, if_neg hnot]
    exact ⟨rfl, rfl, rfl, rfl, rfl, rfl⟩
  have hmods : s₁.console.keys.mods = console₁.keys.mods := by rw [hkeys]
  have hline : editedLine s₁.console.keys t = editedLine console₁.keys t := by rw [hkeys]; rfl
  have hflag : s₁.console.keys.readFlag t = true := by rw [hkeys]; exact Function.update_self _ _ _
  have hrest : ∀ k ∈ keysOf s₁.console.keys.mods after, k.edits = true := by
    rw [hmods, hmods₁]
    exact fun k hkey => hk k (List.mem_append_right _ hkey)
  obtain ⟨console₂, hr₂, hline₂, hterminal₂, hmods₂, hflag₂⟩ :=
    run_keyEvents (hdisplay ▸ hterminal₁) hrest
  have henters : Enters t console₂ enter := by
    refine ⟨?_, hterminal₂⟩
    rw [hmods₂, hmods, hmods₁]
    exact henter
  obtain ⟨hcopied, hnbytes', hreads'⟩ := Copied.enter (s := { s₁ with console := console₂ }) henters
    hwaiting (hflag₂.trans hflag) hbuffer
  have hrun : run (readStep t) s (keyEvents t before ++ .call true nbytes :: keyEvents t after) =
      some { s₁ with console := console₂ } := by
    rw [run_append, hr₁, Option.bind_some]
    exact run_cons_eq_some.mpr ⟨s₁, hcall, hr₂⟩
  obtain ⟨hlength, hnew⟩ := LineOk.editedLine (run_lineOk hok hrun)
  refine ⟨_, _, ?_, ?_, hlength, hnew, hcopied, hnbytes'.trans hnbytes, hreads'.trans hreads⟩
  · rw [lineEvents, ← List.cons_append, ← List.append_assoc]
    exact run_snoc hrun rfl
  · show editedLine console₂.keys t = _
    rw [hline₂, hmods, hmods₁, hline, hline₁, List.foldl_append]

/-- A machine with no read under way. -/
def Reading.quiet (s : Console) : Reading := ⟨s, .idle, 0, [], none, 0, []⟩

/-! ### The pages behind the screen -/

/-- What `paging_init` leaves around the screens: their four pages are there, and the page
below them is not. -/
structure ScreenPages (mapped : ℕ → Bool) : Prop where
  there : ∀ a, videoMem ≤ a → a < videoMem + 4 * 0x1000 → mapped a = true
  below : mapped (videoMem - 2) = false

/-- The characters that the handler puts on a screen or deletes are all on pages that are
there. If one is not, `PF_exception` prints its message at the very cursor that led there,
and `putc` takes the next page fault. -/
def Lands (mapped : ℕ → Bool) (s : Reading) : ReadEvent → Prop
  | .key cs code => ∀ call ∈ calls s.console (.key cs code), ∀ a ∈ call.cells,
      mapped a = true ∧ mapped (a + 1) = true
  | .call _ _ | .step => True

instance (mapped : ℕ → Bool) (s : Reading) (e : ReadEvent) : Decidable (Lands mapped s e) :=
  match e with
  | .key _ _ => inferInstanceAs (Decidable (∀ _ ∈ _, _))
  | .call _ _ | .step => inferInstanceAs (Decidable True)

/-- `readStep` on these pages. Nothing follows a key whose stores do not land. -/
def pagedStep (mapped : ℕ → Bool) (t : Fin 3) : Reading → ReadEvent → Option Reading :=
  guarded (readStep t) (Lands mapped)

/-- A Backspace on a line that is not empty finds the cursor on the first cell. -/
def ErasesFirst (s : Reading) : ReadEvent → Prop
  | .key _ code => ErasesAtOrigin s.console code
  | .call _ _ | .step => False

instance (s : Reading) (e : ReadEvent) : Decidable (ErasesFirst s e) :=
  match e with
  | .key _ code => inferInstanceAs (Decidable (ErasesAtOrigin s.console code))
  | .call _ _ | .step => inferInstanceAs (Decidable False)

section Paged
variable {mapped : ℕ → Bool} {t : Fin 3} {s : Reading}

theorem lands_iff (hpages : ScreenPages mapped) (hs : AllPlaced s.console.display) (e : ReadEvent) :
    Lands mapped s e ↔ ¬ ErasesFirst s e := by
  cases e with
  | key cs code =>
    constructor
    · rintro hlands ⟨rfl, hcount, hcell⟩
      have hkey : keyOf s.console.keys.mods backspacePressed = .backspace :=
        keyOf_eq_backspace.mpr rfl
      have hcall : deleteCall s.console.display ∈ calls s.console (.key cs backspacePressed) := by
        simp [calls, hkey, pressCalls, hcount]
      have hthere := (hlands _ hcall (videoMem - 2) (by simp [deleteCall_origin hcell])).1
      rw [hpages.below] at hthere
      cases hthere
    · intro herases call hcall a ha
      have hon := (hs.event (e := .key cs code) herases).2 call hcall a ha
      unfold OnPages at hon
      exact ⟨hpages.there a (by omega) (by omega), hpages.there (a + 1) (by omega) (by omega)⟩
  | call buf nbytes => simp [Lands, ErasesFirst]
  | step => simp [Lands, ErasesFirst]

/-- Neither the call nor the reader moves a cursor. -/
theorem readStep_placed (hpages : ScreenPages mapped) {s' : Reading} {e : ReadEvent}
    (h : AllPlaced s.console.display) (he : Lands mapped s e) (hs : readStep t s e = some s') :
    AllPlaced s'.console.display := by
  cases e with
  | key cs code =>
    obtain rfl := Option.some.inj hs
    have hkey := (h.event (e := .key cs code) ((lands_iff hpages h _).mp he)).1 _ rfl
    simp only [keyStep]
    split_ifs <;> exact hkey
  | call buf nbytes =>
    simp only [readStep] at hs
    split_ifs at hs
    obtain rfl := Option.some.inj hs
    simp only [callRead]
    split_ifs <;> exact h
  | step => exact (readerStep_keeps hs).2 ▸ h

theorem along_lands_iff (hpages : ScreenPages mapped) (hs : AllPlaced s.console.display)
    (es : List ReadEvent) :
    Along (readStep t) (Lands mapped) s es ↔ Along (readStep t) (fun s e => ¬ ErasesFirst s e) s es :=
  along_congr (fun _ e h => lands_iff hpages h e) (fun _ _ _ h he hs => readStep_placed hpages h he hs) hs

end Paged

/-- Scan codes around the call of a read, and an Enter behind them. At every moment the line
has at most 127 characters, and the handler stores nothing behind place 127 of the buffer,
whatever is there. The reader, left to itself, comes back with the reference line, cut to leave
room for a newline, and the newline. -/
def ReadsBack (mapped : ℕ → Bool) (t : Fin 3) (s : Console) (before after : List UInt8) (nbytes : ℤ)
    (enter : UInt8) : Prop :=
  let line := referenceLine s.keys.mods [] (before ++ after)
  (∀ es s', es <+: lineEvents t before after nbytes enter →
    run (pagedStep mapped t) (.quiet s) es = some s' →
      s'.console.keys.keybufferCount t ≤ 127 ∧ ∀ cs code bytes j, 127 < j →
        (keyboardHandler cs (s'.console.withBuffer t bytes) code).1.keys.keyBuf t j = bytes j) ∧
  ∃ k s', run (pagedStep mapped t) (.quiet s)
      (lineEvents t before after nbytes enter ++ List.replicate k .step) = some s' ∧
    s'.reader = .done ∧ s'.buffer = line.take (nbytes.toNat - 1) ++ [newline] ∧
    s'.buffer.length = min nbytes.toNat (line.length + 1)

/-- From an empty line on, with the terminal running and shown, codes that neither end the line
nor leave the terminal or its process: the read comes back with the line just when no
Backspace on a line that is not empty finds the first cell. -/
theorem readsBack_iff {mapped : ℕ → Bool} (hpages : ScreenPages mapped) {t : Fin 3} {s : Console}
    (hplaced : AllPlaced s.display) {before after : List UInt8} {nbytes : ℤ} {enter : UInt8}
    (hs : s.display.currentTerminal = t) (hcount : s.keys.keybufferCount t = 0) (hn : 1 ≤ nbytes)
    (hk : ∀ k ∈ keysOf s.keys.mods (before ++ after), k.edits = true)
    (henter : keyOf ((before ++ after).foldl modifiers s.keys.mods) enter = .enter) :
    ReadsBack mapped t s before after nbytes enter ↔
      Along (readStep t) (fun s e => ¬ ErasesFirst s e) (.quiet s)
        (lineEvents t before after nbytes enter) := by
  rw [← along_lands_iff hpages hplaced]
  constructor
  · rintro ⟨-, k, s', hr, -⟩
    exact (along_append.mp (run_guarded_eq_some.mp hr).2).1
  intro hlands
  have hempty : editedLine s.keys t = [] := by rw [← List.length_eq_zero_iff, editedLine_length, hcount]
  have hok : LineOk (Reading.quiet s).console.keys t :=
    ⟨hcount.trans_le (Nat.zero_le _), fun j hj => absurd (hcount ▸ hj) (Nat.not_lt_zero j)⟩
  constructor
  · intro es s' _ hr
    have hcount' := (run_lineOk hok (run_guarded_eq_some.mp hr).1).1
    exact ⟨hcount', fun cs code bytes j hj => keyboardHandler_keyBuf_behind hcount' cs code bytes hj⟩
  · obtain ⟨s₁, line, hr₁, hline, hlength, hnew, hcopied, hnbytes, hreads⟩ :=
      run_lineEvents (s := .quiet s) hs (.inl rfl) hk henter hok (show 0 ≤ nbytes by omega)
    have hnoreads : ∀ r ∈ s₁.reads, r < 128 := by
      rw [hreads]
      exact fun r hr => absurd hr List.not_mem_nil
    obtain ⟨k, s', hr, hdone, hbuffer⟩ :=
      copy_finishes hlength hnew (2 * line.length + 3) hcopied hnoreads (Nat.le_add_left _ _)
    have hreference : line = referenceLine s.keys.mods [] (before ++ after) := by
      rw [referenceLine_eq hk, ← hempty]
      exact hline
    have hsteps : ∀ e ∈ List.replicate k ReadEvent.step, ∀ s, Lands mapped s e := by
      intro e he s
      rw [List.eq_of_mem_replicate he]
      trivial
    rw [hnbytes, delivered, if_neg (by omega), hreference] at hbuffer
    refine ⟨k, s', run_guarded_eq_some.mpr ⟨?_, ?_⟩, hdone, hbuffer, ?_⟩
    · rw [run_append, hr₁]
      exact hr
    · exact along_append.mpr ⟨hlands, fun m _ => along_of_forall hsteps m⟩
    · rw [hbuffer, List.length_append, List.length_take, List.length_singleton]
      omega

end Ece391.Devices

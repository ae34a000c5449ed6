import Ece391.Devices.Keyboard
import Ece391.Support.Runs

/-! The modifier keys as the handler follows them through its scan codes. Each of them should
be what the history of its presses and releases makes of it. -/

namespace Ece391.Devices

open Lib Support.Runs

/-- The keyboard and the screens, with the scan codes an observer has seen. -/
structure Typed where
  console : Console
  codes : List UInt8

/-- `keyboard_handler` for one scan code, while `cs` is running. -/
def typeStep (s : Typed) (e : Fin 3 × UInt8) : Option Typed :=
  some ⟨(keyboardHandler e.1 s.console e.2).1, s.codes ++ [e.2]⟩

def Typed.start (kb : Keyboard) (d : Display) : Typed := ⟨⟨keyboardInit kb, d⟩, []⟩

/-- A key with these codes has been pressed and not released since. -/
def held (pressed released : UInt8) (codes : List UInt8) : Bool :=
  codes.foldl (fun h c => if c = pressed then true else if c = released then false else h) false

/-- The presses of a key; codes that repeat a press while the key is down are not counted. -/
def presses (pressed released : UInt8) : (down : Bool) → List UInt8 → ℕ
  | _, [] => 0
  | down, c :: codes =>
    if c = pressed then (if down then 0 else 1) + presses pressed released true codes
    else if c = released then presses pressed released false codes
    else presses pressed released down codes

abbrev leftShiftHeld : List UInt8 → Bool := held lShiftPressed lShiftRelease
abbrev rightShiftHeld : List UInt8 → Bool := held rShiftPressed rShiftRelease
abbrev capslockHeld : List UInt8 → Bool := held capslockPressed capslockRelease

/-- The flags that follow a key of their own. -/
structure TracksSingle (m : Modifiers) (codes : List UInt8) : Prop where
  control : m.control = held controlPressed controlRelease codes
  leftAlt : m.leftAlt = held leftAltPressed leftAltRelease codes
  capslock : m.capslock = true ↔ Odd (presses capslockPressed capslockRelease false codes)

/-- All flags are what the codes have made of them. -/
structure TracksKeys (m : Modifiers) (codes : List UInt8) : Prop extends TracksSingle m codes where
  shift : m.shift = (leftShiftHeld codes || rightShiftHeld codes)

/-- One shift key is released while the other is held. -/
def ReleasesOneShift (s : Typed) (e : Fin 3 × UInt8) : Prop :=
  e.2 = lShiftRelease ∧ rightShiftHeld s.codes = true ∨
    e.2 = rShiftRelease ∧ leftShiftHeld s.codes = true

instance (s : Typed) (e : Fin 3 × UInt8) : Decidable (ReleasesOneShift s e) :=
  inferInstanceAs (Decidable (_ ∨ _))

/-! ### The history of a key -/

section History
variable (pressed released : UInt8) (codes : List UInt8) (c : UInt8)

theorem held_snoc :
    held pressed released (codes ++ [c]) =
      if c = pressed then true else if c = released then false else held pressed released codes := by
  rw [held, List.foldl_append]
  rfl

/-- One more code counts if it presses the key while it is up. -/
theorem presses_snoc (down : Bool) :
    presses pressed released down (codes ++ [c]) = presses pressed released down codes +
      if c = pressed ∧ codes.foldl (fun h c => if c = pressed then true else
        if c = released then false else h) down = false then 1 else 0 := by
  induction codes generalizing down with
  | nil =>
    simp only [List.nil_append, presses, List.foldl_nil]
    split_ifs <;> simp_all
  | cons b codes ih =>
    rw [List.cons_append, presses, presses, ih, ih, ih, List.foldl_cons]
    split_ifs <;> omega

end History

/-! ### The flags after a scan code -/

section Flags
variable (m : Modifiers) (c : UInt8)

/-- The three parts of `modifiers` around `capsStep`. -/
def shiftStep : Modifiers :=
  if c = lShiftRelease ∨ c = rShiftRelease then { m with shift := false }
  else if c = lShiftPressed ∨ c = rShiftPressed then { m with shift := true } else m

def controlStep : Modifiers :=
  if c = controlPressed then { m with control := true }
  else if c = controlRelease then { m with control := false } else m

def leftAltStep : Modifiers :=
  let m := if c = leftAltPressed then { m with leftAlt := true } else m
  if c = leftAltRelease then { m with leftAlt := false } else m

theorem modifiers_eq :
    modifiers m c = leftAltStep (controlStep (capsStep (shiftStep m c) c) c) c := rfl

/-- Each part has its own flags. -/
theorem shiftStep_others :
    (shiftStep m c).capslock = m.capslock ∧ (shiftStep m c).capsChecker = m.capsChecker ∧
      (shiftStep m c).control = m.control ∧ (shiftStep m c).leftAlt = m.leftAlt := by
  unfold shiftStep
  split_ifs <;> exact ⟨rfl, rfl, rfl, rfl⟩

theorem capsStep_others :
    (capsStep m c).shift = m.shift ∧ (capsStep m c).control = m.control ∧
      (capsStep m c).leftAlt = m.leftAlt := by
  unfold capsStep
  split_ifs <;> exact ⟨rfl, rfl, rfl⟩

theorem controlStep_others :
    (controlStep m c).shift = m.shift ∧ (controlStep m c).capslock = m.capslock ∧
      (controlStep m c).capsChecker = m.capsChecker ∧ (controlStep m c).leftAlt = m.leftAlt := by
  unfold controlStep
  split_ifs <;> exact ⟨rfl, rfl, rfl, rfl⟩

theorem leftAltStep_others :
    (leftAltStep m c).shift = m.shift ∧ (leftAltStep m c).capslock = m.capslock ∧
      (leftAltStep m c).capsChecker = m.capsChecker ∧ (leftAltStep m c).control = m.control := by
  unfold leftAltStep
  split_ifs <;> exact ⟨rfl, rfl, rfl, rfl⟩

theorem modifiers_shift :
    (modifiers m c).shift =
      if c = lShiftRelease ∨ c = rShiftRelease then false
      else if c = lShiftPressed ∨ c = rShiftPressed then true else m.shift := by
  rw [modifiers_eq, (leftAltStep_others _ _).1, (controlStep_others _ _).1, (capsStep_others _ _).1,
    shiftStep]
  split_ifs <;> rfl

theorem modifiers_control :
    (modifiers m c).control =
      if c = controlPressed then true else if c = controlRelease then false else m.control := by
  have hold : (capsStep (shiftStep m c) c).control = m.control :=
    (capsStep_others _ _).2.1.trans (shiftStep_others _ _).2.2.1
  rw [modifiers_eq, (leftAltStep_others _ _).2.2.2, controlStep, ← hold]
  split_ifs <;> rfl

theorem modifiers_leftAlt :
    (modifiers m c).leftAlt =
      if c = leftAltPressed then true else if c = leftAltRelease then false else m.leftAlt := by
  have hold : (controlStep (capsStep (shiftStep m c) c) c).leftAlt = m.leftAlt :=
    (controlStep_others _ _).2.2.2.trans ((capsStep_others _ _).2.2.trans (shiftStep_others _ _).2.2.2)
  rw [modifiers_eq, leftAltStep, ← hold]
  split_ifs with hreleased hpressed hpressed
  · rw [hreleased] at hpressed
    exact absurd hpressed (by decide)
  all_goals rfl

/-- The machine of the caps lock key looks at no other flag. -/
theorem modifiers_caps :
    (modifiers m c).capslock = (capsStep m c).capslock ∧
      (modifiers m c).capsChecker = (capsStep m c).capsChecker := by
  rw [modifiers_eq, (leftAltStep_others _ _).2.1, (leftAltStep_others _ _).2.2.1,
    (controlStep_others _ _).2.1, (controlStep_others _ _).2.2.1, capsStep, capsStep,
    (shiftStep_others _ _).2.1]
  split_ifs
  · exact ⟨rfl, rfl⟩
  · exact ⟨(shiftStep_others _ _).1, rfl⟩
  · exact ⟨rfl, rfl⟩
  · exact ⟨(shiftStep_others _ _).1, rfl⟩
  · exact ⟨(shiftStep_others _ _).1, (shiftStep_others _ _).2.1⟩

end Flags

/-! ### Caps lock -/

/-- What each state of the machine stands for: whether the key is down, and whether the
lock is on, which is so after an odd number of presses. -/
def CapsAgrees (m : Modifiers) (codes : List UInt8) : Prop :=
  m.capsChecker = (match capslockHeld codes, m.capslock with
    | false, false => .state0
    | true, true => .state1
    | false, true => .state2
    | true, false => .state3) ∧
  (m.capslock = true ↔ Odd (presses capslockPressed capslockRelease false codes))

theorem CapsAgrees.step {m : Modifiers} {codes : List UInt8} (h : CapsAgrees m codes) (c : UInt8) :
    CapsAgrees (modifiers m c) (codes ++ [c]) := by
  obtain ⟨hstate, hparity⟩ := h
  have hheld : (codes.foldl (fun h c => if c = capslockPressed then true else
      if c = capslockRelease then false else h) false) = capslockHeld codes := rfl
  have hne : capslockRelease ≠ capslockPressed ∧ capslockPressed ≠ capslockRelease := by decide
  obtain ⟨hlock, hchecker⟩ := modifiers_caps m c
  simp only [CapsAgrees, hlock, hchecker, presses_snoc, held_snoc, hheld]
  unfold capsStep
  by_cases hpressed : c = capslockPressed
  · subst hpressed
    cases hdown : capslockHeld codes <;> cases hon : m.capslock <;>
      simp_all [Nat.odd_add_one]
  · by_cases hreleased : c = capslockRelease
    · subst hreleased
      cases hdown : capslockHeld codes <;> cases hon : m.capslock <;> simp_all
    · simp_all

/-! ### Runs -/

/-- The handler touches the flags only where it takes the scan code. -/
theorem press_mods (cs : Fin 3) (s : Console) (k : Key) : (press cs s k).1.keys.mods = s.keys.mods := by
  have htype : ∀ c s, (typeCharacter cs c s).keys.mods = s.keys.mods := by
    intro c s
    unfold typeCharacter
    split_ifs <;> rfl
  cases k with
  | backspace =>
    simp only [press]
    split_ifs <;> rfl
  | tab =>
    show ((typeCharacter cs space)^[tabLength] s).keys.mods = s.keys.mods
    generalize tabLength = n
    induction n with
    | zero => rfl
    | succ n ih => rw [Function.iterate_succ_apply', htype, ih]
  | character c => exact htype c s
  | _ => rfl

theorem typeStep_eq {s s' : Typed} {e : Fin 3 × UInt8} (hs : typeStep s e = some s') :
    s'.console.keys.mods = modifiers s.console.keys.mods e.2 ∧ s'.codes = s.codes ++ [e.2] := by
  obtain rfl := Option.some.inj hs
  exact ⟨press_mods _ _ _, rfl⟩

/-- What holds in every run, whatever the order of the keys. -/
structure Follows (s : Typed) : Prop where
  control : s.console.keys.mods.control = held controlPressed controlRelease s.codes
  leftAlt : s.console.keys.mods.leftAlt = held leftAltPressed leftAltRelease s.codes
  caps : CapsAgrees s.console.keys.mods s.codes

theorem Follows.step {s s' : Typed} {e : Fin 3 × UInt8} (h : Follows s) (hs : typeStep s e = some s') :
    Follows s' := by
  obtain ⟨hmods, hcodes⟩ := typeStep_eq hs
  refine ⟨?_, ?_, ?_⟩
  · rw [hmods, hcodes, modifiers_control, held_snoc, h.control]
  · rw [hmods, hcodes, modifiers_leftAlt, held_snoc, h.leftAlt]
  · rw [hmods, hcodes]
    exact h.caps.step e.2

theorem Follows.single {s : Typed} (h : Follows s) : TracksSingle s.console.keys.mods s.codes :=
  ⟨h.control, h.leftAlt, h.caps.2⟩

/-- The shift flag after a code, against the two keys. -/
theorem shift_step {s s' : Typed} {e : Fin 3 × UInt8}
    (h : s.console.keys.mods.shift = (leftShiftHeld s.codes || rightShiftHeld s.codes))
    (hs : typeStep s e = some s') :
    s'.console.keys.mods.shift = (leftShiftHeld s'.codes || rightShiftHeld s'.codes) ↔
      ¬ ReleasesOneShift s e := by
  obtain ⟨hmods, hcodes⟩ := typeStep_eq hs
  have h : s.console.keys.mods.shift =
      (held lShiftPressed lShiftRelease s.codes || held rShiftPressed rShiftRelease s.codes) := h
  rw [hmods, hcodes, modifiers_shift, ReleasesOneShift, leftShiftHeld, rightShiftHeld, held_snoc,
    held_snoc, h]
  generalize held lShiftPressed lShiftRelease s.codes = left
  generalize held rShiftPressed rShiftRelease s.codes = right
  generalize e.2 = c
  by_cases h₁ : c = lShiftRelease
  · subst h₁; revert left right; decide
  by_cases h₂ : c = rShiftRelease
  · subst h₂; revert left right; decide
  by_cases h₃ : c = lShiftPressed
  · subst h₃; revert left right; decide
  by_cases h₄ : c = rShiftPressed
  · subst h₄; revert left right; decide
  simp [h₁, h₂, h₃, h₄]

/-- In every run from `keyboard_init`, all modifier flags are what the presses and releases
of their keys have made of them in every state, if and only if neither shift key is released
while the other is held. -/
theorem modifiers_track_keys_iff (kb : Keyboard) (d : Display) (es : List (Fin 3 × UInt8)) :
    (∀ es' s, es' <+: es → run typeStep (.start kb d) es' = some s →
        TracksKeys s.console.keys.mods s.codes) ↔
      Along typeStep (fun s e => ¬ ReleasesOneShift s e) (.start kb d) es := by
  have hstart : Follows (.start kb d) := ⟨rfl, rfl, rfl, by simp [Typed.start, keyboardInit, presses]⟩
  refine along_iff (fun s e s' _ hs (h : Follows s) => h.step hs) ?_ ?_ (along_true _ es) hstart
    ⟨hstart.single, rfl⟩
  · intro s e s' _ hb h he hs
    exact ⟨(hb.step hs).single, (shift_step h.shift hs).mpr he⟩
  · intro s e _ _ h he
    exact ⟨_, rfl, fun h' => he ((shift_step h.shift rfl).mp h'.shift)⟩

/-- Both shift keys are pressed and the left one is released: the flag is off while the
right one is still down. -/
theorem shift_lost :
    ∃ s, run typeStep (.start blankConsole.keys blankConsole.display)
        [(0, lShiftPressed), (0, rShiftPressed), (0, lShiftRelease)] = some s ∧
      s.console.keys.mods.shift = false ∧ rightShiftHeld s.codes = true ∧
      ¬ TracksKeys s.console.keys.mods s.codes := by
  refine ⟨_, rfl, by decide, by decide, fun h => ?_⟩
  exact absurd h.shift (by decide)

end Ece391.Devices

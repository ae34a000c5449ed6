import Ece391.Devices.Echo
import Ece391.Kernel.Frames

/-! The kernel with its keyboard. An interrupt of the keyboard comes through only while
IRQ 1 is not masked, and the scheduler unmasks it only for the turn of the visible
terminal. A switch of terminals is itself a key, so after it the next key arrives
while another terminal than the visible one is running. -/

namespace Ece391.Kernel

open Function (update)
open Lib FileSys Syscall Devices Support.Runs

/-- The kernel and the keyboard. An observer notes whether the visible terminal was
changed to another than the running one since the turn was last passed on. -/
structure Machine where
  kernel : State
  keys : Keyboard
  switched : Bool

inductive MachineEvent
  | kernel (e : Event)
  | key (code : UInt8)

/-- IRQ 1 is let through. -/
def Unmasked (p : Pic) : Prop := p.masterMask &&& 2 = 0

instance (p : Pic) : Decidable (Unmasked p) := inferInstanceAs (Decidable (_ = _))

namespace Machine

def console (m : Machine) : Console := ⟨m.keys, m.kernel.dev.display⟩

/-- `current_terminal`. -/
def visible (m : Machine) : Fin 3 := m.kernel.dev.display.currentTerminal

/-- The machine before interrupts are let in. -/
structure Boot (m : Machine) : Prop where
  kernel : m.kernel.Boot
  keys : ∃ kb, m.keys = keyboardInit kb
  unmasked : Unmasked m.kernel.pic
  visible : m.visible = 0
  cursors : ∀ t, m.kernel.dev.display.screenX t = 0 ∧ m.kernel.dev.display.screenY t = 0
  switched : m.switched = false

end Machine

def State.withDisplay (k : State) (d : Display) : State :=
  { k with dev := { k.dev with display := d } }

/-- What the handler asks of the rest of the kernel. Without a process `halt` would
begin with a load through NULL. -/
def answer (img : Image) (stack : ℕ → Stack) (k : State) : Option Request → State
  | none => k
  | some .remap => { k with pageTableVideo := update k.pageTableVideo 0 (videoEntry k) }
  | some (.halt status) =>
    match k.running with
    | none => { k with lost := true }
    | some p => halt img stack (k.note (.ended (k.trace.born p) status)) p status

/-- An interrupt of the keyboard. -/
def keyInterrupt (img : Image) (stack : ℕ → Stack) (m : Machine) (code : UInt8) : Machine :=
  let out := keyboardHandler m.kernel.currScheduler m.console code
  let k := answer img stack (m.kernel.withDisplay out.1.display) out.2
  ⟨k, out.1.keys, if out.2 = some .remap then
    decide (k.currScheduler ≠ k.dev.display.currentTerminal) else m.switched⟩

def machineStep (img : Image) (stack : ℕ → Stack) (m : Machine) : MachineEvent → Option Machine
  | .kernel .tick => (step img stack m.kernel .tick).map fun k =>
      ⟨k, m.keys, m.switched && m.kernel.running.isNone⟩
  | .kernel e => (step img stack m.kernel e).map fun k => { m with kernel := k }
  | .key code =>
    if m.kernel.lost = false ∧ Unmasked m.kernel.pic then some (keyInterrupt img stack m code)
    else none

/-- The key acts on the visible terminal and on no other: what it stores there is shown
there, and Ctrl+C ends the process there. -/
structure ActsOnVisible (img : Image) (stack : ℕ → Stack) (m : Machine) (code : UInt8)
    (m' : Machine) : Prop where
  others : ∀ t ≠ m.visible, Untouched t m.console m'.console
  echo : (keyOf m.keys.mods code = .tab ∨ keyOf m.keys.mods code = .enter ∨
      ∃ c, keyOf m.keys.mods code = .character c) →
    m'.kernel.dev.display = puts m.visible m.kernel.dev.display
      ((keyStores m.visible m.console (keyOf m.keys.mods code)).map Prod.snd)
  interrupt : keyOf m.keys.mods code = .interrupt → ∃ p, m.kernel.terminal m.visible = some p ∧
    m'.kernel = halt img stack
      ((m.kernel.withDisplay (putc m.visible m.kernel.dev.display newline)).note
        (.ended (m.kernel.trace.born p) ctrlClearVal)) p ctrlClearVal

/-- The key is shown, or ends a process, behind a switch away from the running terminal;
or it is a Backspace at the margin, or Ctrl+C without a process. -/
def Misroutes (m : Machine) : MachineEvent → Prop
  | .kernel _ => False
  | .key code =>
    m.switched = true ∧ m.kernel.currScheduler ≠ m.visible ∧
      Echoes m.console (keyOf m.keys.mods code) ∨
    DeletesAtMargin m.console (.key m.kernel.currScheduler code) ∨
    keyOf m.keys.mods code = .interrupt ∧ m.kernel.terminal m.visible = none

instance (m : Machine) : (e : MachineEvent) → Decidable (Misroutes m e)
  | .kernel _ => isFalse id
  | .key _ => inferInstanceAs (Decidable (_ ∧ _ ∧ _ ∨ _ ∨ _ ∧ _))

/-- The keyboard is let through only for the visible terminal, or after a switch; and
the cursors are on their screens. -/
structure Aligned (m : Machine) : Prop where
  turn : Unmasked m.kernel.pic → m.switched = true ∨ m.kernel.currScheduler = m.visible
  inside : m.kernel.dev.display.Inside

/-! ### The invariant -/

theorem disableIrq_masks (p : Pic) : ¬ Unmasked (disableIrq keyboardControllerIrq p) := by
  have hmask : (disableIrq keyboardControllerIrq p).masterMask = p.masterMask ||| 2 := rfl
  rw [Unmasked, hmask]
  intro h
  have hbit := congrArg (fun x : UInt8 => x.toNat.testBit 1) h
  simp [Nat.testBit_and, Nat.testBit_or] at hbit
  exact absurd (hbit (.inr (by decide))) (by decide)

/-- The scheduler lets the keyboard through only for the visible terminal. -/
theorem nextTurn_unmasked {k : State} (h : Unmasked (nextTurn k).pic) :
    (nextTurn k).currScheduler = k.dev.display.currentTerminal := by
  by_contra hne
  have hpic : (nextTurn k).pic = disableIrq keyboardControllerIrq k.pic := by
    simp only [nextTurn] at hne ⊢
    rw [if_neg hne]
  rw [hpic] at h
  exact disableIrq_masks k.pic h

section Invariant
variable {img : Image} {stack : ℕ → Stack} {m m' : Machine}

theorem Boot.aligned (h : m.Boot) : Aligned m := by
  refine ⟨fun _ => .inr (h.kernel.currScheduler.trans h.visible.symm), fun t => ?_⟩
  rw [(h.cursors t).1, (h.cursors t).2]
  show 80 * 0 + 0 < 2000
  decide

theorem Aligned.kept (h : Aligned m) {k : State} (hk : Kept m.kernel k) :
    Aligned { m with kernel := k } := by
  refine ⟨fun hp => ?_, hk.inside h.inside⟩
  have hturn := h.turn (hk.pic ▸ hp)
  simp only [Machine.visible, hk.currScheduler, hk.currentTerminal]
  exact hturn

theorem Aligned.clearScreen (h : Aligned m) :
    Aligned { m with kernel := clearScreen m.kernel } := by
  have hinside := Inside.clearSet (Inside.clear h.inside)
  have hturn := h.turn
  simp only [Machine.visible] at hturn
  constructor
  · simp only [Machine.visible, Kernel.clearScreen, clearSet, setCursor, clear]
    exact hturn
  · simp only [Kernel.clearScreen]
    exact hinside

theorem Aligned.nextTurn (h : Aligned m) : Aligned ⟨nextTurn m.kernel, m.keys, false⟩ :=
  ⟨fun hp => .inr (nextTurn_unmasked hp), h.inside⟩

theorem Aligned.tick (h : Aligned m) {k : State} (hk : step img stack m.kernel .tick = some k) :
    Aligned ⟨k, m.keys, m.switched && m.kernel.running.isNone⟩ := by
  obtain ⟨-, hby⟩ := step_by hk
  cases hby with
  | firstShell hrun hcs =>
    rw [hrun, Option.isNone_none, Bool.and_true]
    exact h.clearScreen.kept (startShell_kept img stack (Kernel.clearScreen m.kernel))
  | noProcess hrun hcs =>
    rw [hrun, Option.isNone_none, Bool.and_true]
    exact ⟨h.turn, h.inside⟩
  | newShell p hrun hnext =>
    rw [hrun, Option.isNone_some, Bool.and_false]
    exact h.nextTurn.kept (startShell_kept img stack (Kernel.nextTurn m.kernel))
  | turn p q hrun hnext =>
    rw [hrun, Option.isNone_some, Bool.and_false]
    exact ⟨h.nextTurn.turn, h.nextTurn.inside⟩

theorem answer_halt_kept (img : Image) (stack : ℕ → Stack) (k : State) (status : UInt8) :
    Kept k (answer img stack k (some (.halt status))) := by
  simp only [answer]
  cases k.running with
  | none => exact ⟨rfl, fun _ _ => rfl, rfl, rfl, [], rfl⟩
  | some p =>
    have hnote : Kept k (k.note (.ended (k.trace.born p) status)) :=
      ⟨rfl, fun _ _ => rfl, rfl, rfl, [], rfl⟩
    exact hnote.trans (halt_kept img stack _ p status)

/-- A key other than a switch leaves the visible terminal visible. -/
theorem press_visible (cs : Fin 3) (s : Console) {k : Key} (hk : ∀ n, k ≠ .switchTo n) :
    (press cs s k).1.display.currentTerminal = s.display.currentTerminal ∧
      (press cs s k).2 ≠ some .remap := by
  cases k with
  | backspace =>
    simp only [press]
    split_ifs
    · exact ⟨rfl, by simp⟩
    · exact ⟨rfl, by simp⟩
  | tab => exact ⟨(typeCharacter_iterate_count cs space s tabLength).1, by simp [press]⟩
  | clearScreen => exact ⟨by simp only [press, clearSet, setCursor, clear], by simp [press]⟩
  | switchTo n => exact absurd rfl (hk n)
  | interrupt => exact ⟨Display.putc_currentTerminal _ _ _, by simp [press]⟩
  | enter => exact ⟨Display.putc_currentTerminal _ _ _, by simp [press]⟩
  | character c => exact ⟨typeCharacter_currentTerminal cs c s, by simp [press]⟩
  | silent => exact ⟨rfl, by simp [press]⟩

/-- The handler keeps the cursors on their screens. -/
theorem handler_inside (h : Aligned m) {code : UInt8}
    (hg : ¬ DeletesAtMargin m.console (.key m.kernel.currScheduler code)) :
    (keyboardHandler m.kernel.currScheduler m.console code).1.display.Inside :=
  (Inside.event (s := m.console) h.inside hg).1 _ rfl

theorem Aligned.key (h : Aligned m) {code : UInt8}
    (hg : ¬ DeletesAtMargin m.console (.key m.kernel.currScheduler code)) :
    Aligned (keyInterrupt img stack m code) := by
  have hinside := handler_inside h hg
  by_cases hswitch : ∃ n, keyOf m.keys.mods code = .switchTo n
  · obtain ⟨n, hn⟩ := hswitch
    have hrequest : (keyboardHandler m.kernel.currScheduler m.console code).2 = some .remap := by
      simp only [keyboardHandler, Machine.console, hn, press]
    simp only [keyInterrupt, hrequest, if_true, answer]
    refine ⟨fun _ => ?_, hinside⟩
    simp only [Machine.visible, decide_eq_true_eq]
    exact (ne_or_eq _ _)
  · have hvisible := press_visible m.kernel.currScheduler (withModifiers m.console code)
      (k := keyOf m.keys.mods code) fun n hn => hswitch ⟨n, hn⟩
    have hkeyed : Aligned ⟨m.kernel.withDisplay
        (keyboardHandler m.kernel.currScheduler m.console code).1.display,
        (keyboardHandler m.kernel.currScheduler m.console code).1.keys, m.switched⟩ := by
      refine ⟨fun hp => ?_, hinside⟩
      have hturn := h.turn hp
      simp only [Machine.visible, State.withDisplay]
      rw [show (keyboardHandler m.kernel.currScheduler m.console code).1.display.currentTerminal =
        m.visible from hvisible.1]
      exact hturn
    have hremap : (keyboardHandler m.kernel.currScheduler m.console code).2 ≠ some .remap :=
      hvisible.2
    simp only [keyInterrupt, if_neg hremap]
    cases hrequest : (keyboardHandler m.kernel.currScheduler m.console code).2 with
    | none => exact hkeyed
    | some r =>
      cases r with
      | remap => exact absurd hrequest hremap
      | halt status => exact hkeyed.kept (answer_halt_kept img stack _ status)

theorem Aligned.step (h : Aligned m) {e : MachineEvent} (hg : ¬ Misroutes m e)
    (hs : machineStep img stack m e = some m') : Aligned m' := by
  cases e with
  | key code =>
    simp only [machineStep] at hs
    split_ifs at hs
    obtain rfl := Option.some.inj hs
    exact h.key fun hd => hg (.inr (.inl hd))
  | kernel e =>
    by_cases he : e = .tick
    · subst he
      obtain ⟨k, hk, rfl⟩ := Option.map_eq_some_iff.mp hs
      exact h.tick hk
    · have hkernel : machineStep img stack m (.kernel e) =
          (Kernel.step img stack m.kernel e).map fun k => { m with kernel := k } := by
        cases e with
        | tick => exact absurd rfl he
        | _ => rfl
      rw [hkernel] at hs
      obtain ⟨k, hk, rfl⟩ := Option.map_eq_some_iff.mp hs
      exact h.kept (step_kept hk he)

end Invariant

/-! ### Keys -/

section Keys
variable {img : Image} {stack : ℕ → Stack} {m : Machine} {code : UInt8}

theorem running_withDisplay (k : State) (d : Display) : (k.withDisplay d).running = k.running := rfl

/-- A key that is shown or ends a process comes during the turn of the visible
terminal. -/
theorem Aligned.echo_turn (h : Aligned m) (hun : Unmasked m.kernel.pic)
    (hg : ¬ Misroutes m (.key code)) (he : Echoes m.console (keyOf m.keys.mods code)) :
    m.kernel.currScheduler = m.visible := by
  by_contra hcs
  exact hg (.inl ⟨(h.turn hun).resolve_right hcs, hcs, he⟩)

theorem handler_others (h : Aligned m) (hun : Unmasked m.kernel.pic)
    (hg : ¬ Misroutes m (.key code)) {t : Fin 3} (ht : t ≠ m.visible) :
    Untouched t m.console (keyboardHandler m.kernel.currScheduler m.console code).1 := by
  have hpress : Untouched t (withModifiers m.console code)
      (keyboardHandler m.kernel.currScheduler m.console code).1 := by
    refine press_other (s := withModifiers m.console code) h.inside ht ?_ ?_
    · exact fun he => h.echo_turn hun hg he
    · intro hback hcount
      have hcode := keyOf_eq_backspace.mp hback
      exact Nat.pos_of_ne_zero fun hx => hg (.inr (.inl ⟨hcode, hcount, hx⟩))
  exact ⟨hpress.keyBuf, hpress.keybufferCount, hpress.readFlag, hpress.screen⟩

/-- What the rest of the kernel does about a key stays on the visible screen. -/
theorem answer_others (h : Aligned m) (hun : Unmasked m.kernel.pic)
    (hg : ¬ Misroutes m (.key code)) {t : Fin 3} (ht : t ≠ m.visible) :
    SameScreen t (keyInterrupt img stack m code).kernel.dev.display
      (keyboardHandler m.kernel.currScheduler m.console code).1.display := by
  simp only [keyInterrupt]
  cases hrequest : (keyboardHandler m.kernel.currScheduler m.console code).2 with
  | none => exact SameScreen.refl _ _
  | some r =>
    cases r with
    | remap => exact SameScreen.refl _ _
    | halt status =>
      have hkey : keyOf m.keys.mods code = .interrupt := press_request hrequest
      have hcs := h.echo_turn hun hg (.inr hkey)
      have hinside := handler_inside h fun hd => hg (.inr (.inl hd))
      obtain ⟨l, hl⟩ := (answer_halt_kept img stack
        (m.kernel.withDisplay (keyboardHandler m.kernel.currScheduler m.console code).1.display)
        status).display
      rw [hl]
      exact puts_other hinside (hcs ▸ ht) l

theorem keyInterrupt_acts (h : Aligned m) (hun : Unmasked m.kernel.pic)
    (hg : ¬ Misroutes m (.key code)) :
    ActsOnVisible img stack m code (keyInterrupt img stack m code) where
  others t ht := by
    have hothers := handler_others h hun hg ht
    exact ⟨hothers.keyBuf, hothers.keybufferCount, hothers.readFlag,
      (answer_others h hun hg ht).trans hothers.screen⟩
  echo hkey := by
    have hshown := press_echo m.kernel.currScheduler (s := withModifiers m.console code) hkey
    have hrequest : (keyboardHandler m.kernel.currScheduler m.console code).2 = none := by
      simp only [keyboardHandler]
      rcases hkey with hk | hk | ⟨c, hk⟩ <;> simp only [Machine.console, hk, press]
    simp only [keyInterrupt, hrequest, answer]
    refine hshown.trans ?_
    by_cases he : Echoes m.console (keyOf m.keys.mods code)
    · rw [h.echo_turn hun hg he]
      rfl
    · have hnone : keyStores m.visible m.console (keyOf m.keys.mods code) = [] :=
        not_not.mp fun hne => he (.inl hne)
      rw [hnone]
      exact congrArg (fun l => puts _ _ (List.map Prod.snd l)) hnone
  interrupt hkey := by
    have hcs := h.echo_turn hun hg (.inr hkey)
    cases hp : m.kernel.terminal m.visible with
    | none => exact absurd (.inr (.inr ⟨hkey, hp⟩)) hg
    | some p =>
      refine ⟨p, rfl, ?_⟩
      have hout : keyboardHandler m.kernel.currScheduler m.console code =
          (⟨(withModifiers m.console code).keys,
            putc m.visible m.kernel.dev.display newline⟩, some (.halt ctrlClearVal)) := by
        simp only [keyboardHandler]
        rw [show keyOf m.console.keys.mods code = .interrupt from hkey, hcs]
        rfl
      have hrun : m.kernel.running = some p := by rw [State.running, hcs, hp]
      simp only [keyInterrupt, hout, answer, running_withDisplay, hrun]
      rfl

end Keys

/-- In every run from boot in which no key is misrouted, each key that comes through
acts on the visible terminal only. -/
theorem keys_act_on_visible (img : Image) (stack : ℕ → Stack) (m₀ m m' : Machine)
    (es : List MachineEvent) (hb : m₀.Boot)
    (hg : Along (machineStep img stack) (fun m e => ¬ Misroutes m e) m₀ es)
    (hr : run (machineStep img stack) m₀ es = some m) (code : UInt8)
    (hcode : ¬ Misroutes m (.key code)) (hs : machineStep img stack m (.key code) = some m') :
    ActsOnVisible img stack m code m' := by
  have h : Aligned m :=
    invariant_along Aligned (fun _ _ _ he hs h => h.step he hs) hg hr (Boot.aligned hb)
  simp only [machineStep] at hs
  split_ifs at hs with hopen
  obtain rfl := Option.some.inj hs
  exact keyInterrupt_acts h hopen.2 hcode

/-- A machine that has just booted in cleared memory. -/
def Machine.cleared : Machine where
  kernel := { State.cleared with pic := enableIrq keyboardControllerIrq State.cleared.pic }
  keys := keyboardInit blankConsole.keys
  switched := false

theorem Machine.cleared_boot : Machine.cleared.Boot where
  kernel := ⟨fun _ => rfl, rfl, rfl, fun _ => rfl, rfl, rfl, rfl, rfl, rfl⟩
  keys := ⟨_, rfl⟩
  unmasked := by decide
  visible := rfl
  cursors _ := ⟨rfl, rfl⟩
  switched := rfl

/-- Runs on the image with a shell. -/
abbrev machineRuns (es : List MachineEvent) : Option Machine :=
  run (machineStep shellImage fun _ => .zero) .cleared es

/-- Alt+F2, the tick that passes the turn to terminal 1, and an "a". -/
theorem keys_act_on_visible_switched :
    ∃ m m', machineRuns [.kernel .tick, .key 0x38, .key 0x3C, .kernel .tick] = some m ∧
      machineStep shellImage (fun _ => .zero) m (.key 0x1E) = some m' ∧ m.visible = 1 ∧
      m'.kernel.dev.display = puts 1 m.kernel.dev.display
        ((keyStores 1 m.console (keyOf m.keys.mods 0x1E)).map Prod.snd) := by
  obtain ⟨m, hr, hvisible, hg, hkey, hstep⟩ := run_eval (machineStep shellImage fun _ => .zero)
    .cleared [.kernel .tick, .key 0x38, .key 0x3C, .kernel .tick]
    (fun m => m.visible = 1 ∧ ¬ Misroutes m (.key 0x1E) ∧
      keyOf m.keys.mods 0x1E = .character 0x61 ∧
      (machineStep shellImage (fun _ => .zero) m (.key 0x1E)).isSome) (by decide +kernel)
  obtain ⟨m', hs⟩ := Option.isSome_iff_exists.mp hstep
  refine ⟨m, m', hr, hs, hvisible, ?_⟩
  rw [← hvisible]
  exact (keys_act_on_visible shellImage (fun _ => .zero) .cleared m m' _ Machine.cleared_boot
    (by decide +kernel) hr 0x1E hg hs).echo (.inr (.inr ⟨0x61, hkey⟩))

/-- Alt+F2 and an "a" in one turn of terminal 0: the "a" goes to the line of terminal 1
and to the screen of terminal 0. -/
theorem key_acts_on_two_terminals :
    ¬ ∀ (img : Image) (stack : ℕ → Stack) (m₀ m m' : Machine) (es : List MachineEvent),
      m₀.Boot → run (machineStep img stack) m₀ es = some m → ∀ code,
      machineStep img stack m (.key code) = some m' → ActsOnVisible img stack m code m' := by
  intro h
  obtain ⟨m, hr, hvisible, hstep⟩ := run_eval (machineStep shellImage fun _ => .zero)
    .cleared [.kernel .tick, .key 0x38, .key 0x3C]
    (fun m => m.visible = 1 ∧ (machineStep shellImage (fun _ => .zero) m (.key 0x1E)).any fun m' =>
      m'.kernel.dev.display.screenX 0 ≠ m.kernel.dev.display.screenX 0) (by decide +kernel)
  obtain ⟨m', hs, hmoved⟩ := (Option.any_eq_true _ _).mp hstep
  have hothers := (h shellImage (fun _ => .zero) .cleared m m' _ Machine.cleared_boot hr 0x1E
    hs).others 0 (by rw [hvisible]; decide)
  exact of_decide_eq_true hmoved hothers.screen.2.1

end Ece391.Kernel

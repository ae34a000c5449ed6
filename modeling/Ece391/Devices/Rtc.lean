import Ece391.Lib.Screen
import Ece391.Support.Runs

/-! `rtc_read` against the RTC interrupt. All readers share the one flag
`rtc_interrupt_occurred`: a read sets it to `LOCK` and waits for it to become `UNLOCK`, and the
handler sets it to `UNLOCK`. A reader looks at the flag only while its terminal has the turn,
so a read on another terminal can lock the flag again before it has seen that it was free. -/

namespace Ece391.Devices

open Function (update)
open Support.Runs

/-- The values of `rtc_interrupt_occurred`. -/
inductive Flag
  | lock | unlock
  deriving DecidableEq

/-- The process of a terminal: at work, or in the loop of `rtc_read`. An observer notes
whether an interrupt has been handled since the loop began. -/
inductive RtcReader
  | idle
  | waiting (interrupted : Bool)
  deriving DecidableEq

/-- The flag, whose turn it is, and the processes of the terminals. -/
structure Rtc where
  rtcInterruptOccurred : Flag
  currScheduler : Fin 3
  reader : Fin 3 → RtcReader

inductive RtcEvent
  /-- The running process calls `rtc_read`, which locks the flag. -/
  | read
  /-- The running process, in the loop, looks at the flag. -/
  | poll
  /-- An RTC interrupt is handled. -/
  | interrupt
  /-- The scheduler passes the turn on. -/
  | switch
  /-- The running process is ended by Ctrl+C. -/
  | halt
  deriving DecidableEq

/-- The observer's note of an interrupt. -/
def RtcReader.interrupt : RtcReader → RtcReader
  | .idle => .idle
  | .waiting _ => .waiting true

/-- `rtc_handler`. -/
def rtcHandler (s : Rtc) : Rtc :=
  { s with rtcInterruptOccurred := .unlock, reader := fun t => (s.reader t).interrupt }

/-- The first line of `rtc_read`. -/
def beginRead (s : Rtc) : Rtc :=
  { s with
    rtcInterruptOccurred := .lock
    reader := update s.reader s.currScheduler (.waiting false) }

/-- The process whose turn it is leaves the loop. -/
def release (s : Rtc) : Rtc := { s with reader := update s.reader s.currScheduler .idle }

/-- One step; a process in the loop of `rtc_read` makes no other call. -/
def rtcStep (s : Rtc) : RtcEvent → Option Rtc
  | .read => if s.reader s.currScheduler = .idle then some (beginRead s) else none
  | .poll =>
    if s.reader s.currScheduler = .idle then none
    else if s.rtcInterruptOccurred = .lock then some s
    else some (release s)
  | .interrupt => some (rtcHandler s)
  | .switch => some { s with currScheduler := s.currScheduler + 1 }
  | .halt => some (release s)

abbrev rtcRuns : Rtc → List RtcEvent → Option Rtc := run rtcStep

/-! ### Waiting for an interrupt -/

/-- However the processes go on, the reader of terminal `t` is not released before a further
interrupt. -/
def NeedsInterrupt (s : Rtc) (t : Fin 3) : Prop :=
  ∀ es s', .interrupt ∉ es → .halt ∉ es → rtcRuns s es = some s' → s'.reader t ≠ .idle

/-- No reader that has had its interrupt needs a further one. -/
def NoWakeupLost (s : Rtc) : Prop :=
  ∀ t, s.reader t = .waiting true → ¬ NeedsInterrupt s t

/-- As long as the flag is locked and no interrupt comes, a reader stays where it is. -/
theorem locked_step {s s' : Rtc} {t : Fin 3} {e : RtcEvent} (h : rtcStep s e = some s')
    (hint : e ≠ .interrupt) (hhalt : e ≠ .halt)
    (hs : s.rtcInterruptOccurred = .lock ∧ s.reader t ≠ .idle) :
    s'.rtcInterruptOccurred = .lock ∧ s'.reader t ≠ .idle := by
  obtain ⟨hlock, hreader⟩ := hs
  cases e with
  | read =>
    simp only [rtcStep] at h
    split_ifs at h with hidle
    cases h
    refine ⟨rfl, ?_⟩
    have hne : t ≠ s.currScheduler := by
      rintro rfl
      exact hreader hidle
    simpa [beginRead, hne] using hreader
  | poll =>
    simp only [rtcStep, hlock, if_true] at h
    split_ifs at h with hidle
    cases h
    exact ⟨hlock, hreader⟩
  | interrupt => exact absurd rfl hint
  | switch =>
    cases h
    exact ⟨hlock, hreader⟩
  | halt => exact absurd rfl hhalt

theorem locked_run {s s' : Rtc} {t : Fin 3} {es : List RtcEvent} (hint : .interrupt ∉ es)
    (hhalt : .halt ∉ es) (h : rtcRuns s es = some s')
    (hs : s.rtcInterruptOccurred = .lock ∧ s.reader t ≠ .idle) :
    s'.rtcInterruptOccurred = .lock ∧ s'.reader t ≠ .idle := by
  induction es generalizing s with
  | nil =>
    obtain rfl : s = s' := by simpa [run] using h
    exact hs
  | cons e es ih =>
    obtain ⟨m, hm, hr⟩ := run_cons_eq_some.mp h
    rw [List.mem_cons, not_or] at hint hhalt
    exact ih hint.2 hhalt.2 hr (locked_step hm (Ne.symm hint.1) (Ne.symm hhalt.1) hs)

/-- The turn comes round to any terminal. -/
theorem switches_run (s : Rtc) (t : Fin 3) :
    ∃ n, rtcRuns s (List.replicate n .switch) = some { s with currScheduler := t } := by
  have hturn : ∀ cs t : Fin 3, t = cs ∨ t = cs + 1 ∨ t = cs + 1 + 1 := by decide
  rcases hturn s.currScheduler t with rfl | rfl | rfl
  · exact ⟨0, rfl⟩
  · exact ⟨1, rfl⟩
  · exact ⟨2, rfl⟩

/-- Once the flag is unlocked, the reader is released at its next turn. -/
theorem unlocked_releases {s : Rtc} {t : Fin 3} (hflag : s.rtcInterruptOccurred = .unlock)
    (hreader : s.reader t ≠ .idle) : ¬ NeedsInterrupt s t := by
  intro hneeds
  obtain ⟨n, hrun⟩ := switches_run s t
  have hpoll : rtcStep { s with currScheduler := t } .poll = some (release { s with currScheduler := t }) := by
    simp [rtcStep, hreader, hflag]
  refine hneeds _ _ ?_ ?_ (run_snoc hrun hpoll) ?_
  · simp
  · simp
  · simp [release]

/-- A reader needs a further interrupt just when the flag is locked. -/
theorem needsInterrupt_iff {s : Rtc} {t : Fin 3} (hreader : s.reader t ≠ .idle) :
    NeedsInterrupt s t ↔ s.rtcInterruptOccurred = .lock := by
  constructor
  · intro hneeds
    cases hflag : s.rtcInterruptOccurred with
    | lock => rfl
    | unlock => exact absurd hneeds (unlocked_releases hflag hreader)
  · intro hflag es s' hint hhalt hr
    exact (locked_run hint hhalt hr ⟨hflag, hreader⟩).2

theorem noWakeupLost_iff (s : Rtc) :
    NoWakeupLost s ↔ ∀ t, s.reader t = .waiting true → s.rtcInterruptOccurred = .unlock := by
  refine forall_congr' fun t => forall_congr' fun ht => ?_
  rw [needsInterrupt_iff (by simp [ht])]
  cases s.rtcInterruptOccurred <;> simp

/-! ### Runs -/

/-- The flag is locked while a reader has not had its interrupt. -/
def FreshLocked (s : Rtc) : Prop := ∀ t, s.reader t = .waiting false → s.rtcInterruptOccurred = .lock

/-- A call of `rtc_read` that locks the flag while another reader has yet to see it free. -/
def Relocks (s : Rtc) (e : RtcEvent) : Prop :=
  e = .read ∧ s.reader s.currScheduler = .idle ∧ s.rtcInterruptOccurred = .unlock ∧
    ∃ t, s.reader t ≠ .idle

instance (s : Rtc) (e : RtcEvent) : Decidable (Relocks s e) := inferInstanceAs (Decidable (_ ∧ _))

theorem release_waiting {s : Rtc} {t : Fin 3} {i : Bool} (ht : (release s).reader t = .waiting i) :
    s.reader t = .waiting i := by
  by_cases hcs : t = s.currScheduler
  · subst hcs
    simp [release] at ht
  · simpa [release, hcs] using ht

/-- The reader of terminal `t` was in the same loop before the step. -/
theorem waiting_of_step {s s' : Rtc} {e : RtcEvent} (h : rtcStep s e = some s') {t : Fin 3} {i : Bool}
    (ht : s'.reader t = .waiting i) :
    (e = .interrupt ∧ s'.rtcInterruptOccurred = .unlock ∧ i = true) ∨
      (e = .read ∧ s'.rtcInterruptOccurred = .lock ∧ t = s.currScheduler ∧ i = false) ∨
      (e = .read ∧ s'.rtcInterruptOccurred = .lock ∧ s.reader s.currScheduler = .idle ∧
        s.reader t = .waiting i) ∨
      (s'.rtcInterruptOccurred = s.rtcInterruptOccurred ∧ s.reader t = .waiting i) := by
  cases e with
  | read =>
    simp only [rtcStep] at h
    split_ifs at h with hidle
    cases h
    by_cases hcs : t = s.currScheduler
    · subst hcs
      have hi : false = i := by simpa [beginRead] using ht
      exact .inr (.inl ⟨rfl, rfl, rfl, hi.symm⟩)
    · exact .inr (.inr (.inl ⟨rfl, rfl, hidle, by simpa [beginRead, hcs] using ht⟩))
  | poll =>
    simp only [rtcStep] at h
    split_ifs at h with hidle hlock
    · cases h
      exact .inr (.inr (.inr ⟨rfl, ht⟩))
    · cases h
      exact .inr (.inr (.inr ⟨rfl, release_waiting ht⟩))
  | interrupt =>
    cases h
    refine .inl ⟨rfl, rfl, ?_⟩
    cases hr : s.reader t with
    | idle => simp [rtcHandler, hr, RtcReader.interrupt] at ht
    | waiting j => simpa [rtcHandler, hr, RtcReader.interrupt] using ht.symm
  | switch =>
    cases h
    exact .inr (.inr (.inr ⟨rfl, ht⟩))
  | halt =>
    cases h
    exact .inr (.inr (.inr ⟨rfl, release_waiting ht⟩))

theorem FreshLocked.step {s s' : Rtc} {e : RtcEvent} (h : rtcStep s e = some s') (hs : FreshLocked s) :
    FreshLocked s' := by
  intro t ht
  rcases waiting_of_step h ht with ⟨-, -, hi⟩ | ⟨-, hflag, -⟩ | ⟨-, hflag, -⟩ | ⟨hflag, hwait⟩
  · cases hi
  · exact hflag
  · exact hflag
  · rw [hflag]
    exact hs t hwait

/-- A step that locks no flag anew loses no wake-up. -/
theorem NoWakeupLost.step {s s' : Rtc} {e : RtcEvent} (hs : NoWakeupLost s) (hguard : ¬ Relocks s e)
    (h : rtcStep s e = some s') : NoWakeupLost s' := by
  rw [noWakeupLost_iff] at hs ⊢
  intro t ht
  rcases waiting_of_step h ht with ⟨-, hflag, -⟩ | ⟨-, -, -, hi⟩ | ⟨rfl, -, hidle, hwait⟩ | ⟨hflag, hwait⟩
  · exact hflag
  · cases hi
  · exact absurd ⟨rfl, hidle, hs t hwait, t, by simp [hwait]⟩ hguard
  · rw [hflag]
    exact hs t hwait

/-- One that does loses the wake-up of the other reader. -/
theorem Relocks.loses {s : Rtc} {e : RtcEvent} (hs : FreshLocked s) (h : Relocks s e) :
    ∃ s', rtcStep s e = some s' ∧ ¬ NoWakeupLost s' := by
  obtain ⟨rfl, hidle, hflag, t, ht⟩ := h
  refine ⟨beginRead s, by simp [rtcStep, hidle], fun hgood => ?_⟩
  have hne : t ≠ s.currScheduler := by
    rintro rfl
    exact ht hidle
  cases hr : s.reader t with
  | idle => exact ht hr
  | waiting i =>
    cases i with
    | false => simp [hs t hr] at hflag
    | true =>
      have hafter : (beginRead s).reader t = .waiting true := by simpa [beginRead, hne] using hr
      exact absurd ((noWakeupLost_iff _).mp hgood t hafter) (by simp [beginRead])

/-- In every interleaving no wake-up is lost in any state on the way exactly when no read
locks the flag while another reader has yet to see it free. -/
theorem wakeups_kept_iff (s : Rtc) (hidle : ∀ t, s.reader t = .idle) (es : List RtcEvent) :
    (∀ es' s', es' <+: es → rtcRuns s es' = some s' → NoWakeupLost s') ↔
      Along rtcStep (fun s e => ¬ Relocks s e) s es := by
  have hfresh : FreshLocked s := fun t ht => by simp [hidle t] at ht
  have hgood : NoWakeupLost s := fun t ht => by simp [hidle t] at ht
  refine along_iff (fun s e s' _ => FreshLocked.step) (fun s e s' _ _ => NoWakeupLost.step) ?_
    (along_true s es) hfresh hgood
  intro s e _ hs _ hguard
  exact Relocks.loses hs (not_not.mp hguard)

/-- No process in the loop. -/
def quietRtc : Rtc := ⟨.unlock, 0, fun _ => .idle⟩

/-- Two terminals wait for the same interrupt, and neither needs a further one. -/
theorem wakeups_kept_iff_shared : ∃ s, rtcRuns quietRtc [.read, .switch, .read, .interrupt] = some s ∧
    s.reader 0 = .waiting true ∧ s.reader 1 = .waiting true ∧ NoWakeupLost s := by
  have h := (wakeups_kept_iff quietRtc (fun _ => rfl) [.read, .switch, .read, .interrupt]).mpr
    (by decide)
  exact ⟨_, rfl, by decide, by decide, h _ _ List.prefix_rfl rfl⟩

/-- The interrupt comes during the turn of terminal 1, whose process then calls `rtc_read`
itself. -/
theorem wakeup_lost : ∃ s, rtcRuns quietRtc [.read, .switch, .interrupt, .read] = some s ∧
    s.reader 0 = .waiting true ∧ NeedsInterrupt s 0 := by
  refine ⟨_, rfl, by decide, (needsInterrupt_iff (by decide)).mpr (by decide)⟩

end Ece391.Devices

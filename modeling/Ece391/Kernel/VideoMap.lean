import Ece391.Kernel.Paging
import Ece391.Kernel.Residence

/-! The first entry of the video page table. It is the screen behind the window that
`vidmap` opens at 136 MB, and at the same time the page at address 0. -/

namespace Ece391.Kernel

open Function (update)
open Lib FileSys Syscall Devices Support.Runs

/-! ### Drawing -/

/-- The event leaves the window of the running program on another screen: `vidmap`
called while the terminal is not shown, or a shell started while the window is open. -/
def Misdraws (k : State) : VideoEvent → Prop
  | .kernel .tick => FillsTerminal k ∧ Present (k.pageDirectory 34)
  | .vidmap screenStart =>
    AcceptsPointer screenStart ∧ k.currScheduler ≠ k.dev.display.currentTerminal
  | .kernel _ | .switch _ => False

instance (k : State) : (e : VideoEvent) → Decidable (Misdraws k e)
  | .kernel .tick => inferInstanceAs (Decidable (_ ∧ _))
  | .vidmap _ => inferInstanceAs (Decidable (_ ∧ _))
  | .kernel (.execute _) => isFalse id
  | .kernel (.halt _) => isFalse id
  | .kernel (.exception _) => isFalse id
  | .kernel (.call _) => isFalse id
  | .switch _ => isFalse id

/-- The window is closed, or open on the screen of the terminal whose turn it is. -/
structure DrawsHome (tablePage : ℕ) (k : State) : Prop where
  window : k.pageDirectory 34 = 0 ∨ k.pageDirectory 34 = tableAddr tablePage ||| vidMemFlag
  entry : Present (k.pageDirectory 34) → k.pageTableVideo 0 = videoEntry k

section Steps
variable {tablePage : ℕ} {k k' : State}

theorem DrawsHome.same (h : DrawsHome tablePage k) (hs : SameTables k k') :
    DrawsHome tablePage k' := by
  have hwindow := hs.pageDirectory 34 (by decide)
  refine ⟨hwindow ▸ h.window, fun hp => ?_⟩
  rw [hs.pageTableVideo, hs.videoEntry]
  exact h.entry (hwindow ▸ hp)

theorem DrawsHome.step (h : DrawsHome tablePage k) {e : VideoEvent} (he : ¬ Misdraws k e)
    (hs : Retables tablePage k k' e) : DrawsHome tablePage k' := by
  cases hs with
  | other e _ hs => exact h.same hs
  | newShell hk hs =>
    have hclosed : ¬ Present (k.pageDirectory 34) := fun hp => he ⟨hk, hp⟩
    have hnext : DrawsHome tablePage (nextTurn k) := ⟨h.window, fun hp => absurd hp hclosed⟩
    exact hnext.same hs
  | turn q _ hk =>
    subst hk
    exact ⟨h.window, fun _ => continueProcess_entry _ q⟩
  | switch n hk =>
    subst hk
    exact ⟨h.window, fun _ => switchTerminal_entry k n⟩
  | refused screenStart _ hk => exact hk ▸ h
  | mapped screenStart haccept hs =>
    have hvisible : k.currScheduler = k.dev.display.currentTerminal :=
      not_not.mp fun hne => he ⟨haccept, hne⟩
    have hentry : videoEntry (openWindow tablePage k) = videoMem ||| vidMemFlag := by
      simp [videoEntry, openWindow, mapVideoMemory, hvisible]
    refine DrawsHome.same ⟨.inr (openWindow_directory tablePage k 34), fun _ => ?_⟩ hs
    rw [openWindow_entry, hentry]

end Steps

/-- A screen begins at the start of a page. -/
theorem base_page (d : Display) (t : Fin 3) : ∃ page, d.base t = 0x1000 * page := by
  unfold Display.base
  split_ifs
  · exact ⟨0xB8, rfl⟩
  · exact ⟨0xB9 + t, by simp only [vidPage]; omega⟩

theorem videoEntry_eq (k : State) :
    videoEntry k = k.dev.display.base k.currScheduler + vidMemFlag := by
  obtain ⟨page, hpage⟩ := base_page k.dev.display k.currScheduler
  rw [hpage, ← entry_eq page (by decide), ← hpage]
  rfl

theorem translate_window {tablePage : ℕ} {k : State} {o : ℕ} (ho : o < 0x1000)
    (hwindow : k.pageDirectory 34 = tableAddr tablePage ||| vidMemFlag)
    (hentry : k.pageTableVideo 0 = videoEntry k) :
    translate tablePage k (mb136 + o) = some (k.dev.display.base k.currScheduler + o) := by
  have hpde : (mb136 + o) / mb4 = 34 := by simp only [mb136, mb4]; omega
  have hpte : (mb136 + o) / 0x1000 % 1024 = 0 := by simp only [mb136]; omega
  have hoffset : (mb136 + o) % 0x1000 = o := by simp only [mb136]; omega
  obtain ⟨page, hpage⟩ := base_page k.dev.display k.currScheduler
  rw [translate_table (.inr rfl) (hpde.symm ▸ hwindow), hpte, hoffset, hentry, videoEntry_eq, hpage,
    if_pos]
  · simp only [vidMemFlag, Option.some.injEq]
    omega
  · simp only [Present, vidMemFlag]
    omega

/-- As long as no `vidmap` is called from a terminal that is not shown and no shell is
started while the window is open, whoever finds the window open draws on the screen of
the terminal whose turn it is. -/
theorem vidmap_draws_home (tablePage : ℕ) (img : Image) (stack : ℕ → Stack) (k₀ k : State)
    (es : List VideoEvent)
    (hg : Along (videoStep tablePage img stack) (fun k e => ¬ Misdraws k e)
      (pagingInit tablePage k₀) es)
    (hr : run (videoStep tablePage img stack) (pagingInit tablePage k₀) es = some k)
    (hopen : Present (k.pageDirectory 34)) :
    k.pageTableVideo 0 = (if k.currScheduler = k.dev.display.currentTerminal then videoMem
      else vidPage k.currScheduler) ||| vidMemFlag ∧
    ∀ o < 0x1000,
      translate tablePage k (mb136 + o) = some (k.dev.display.base k.currScheduler + o) := by
  have hstart : DrawsHome tablePage (pagingInit tablePage k₀) :=
    ⟨.inl rfl, fun hp => absurd hp (by decide : ¬ Present 0)⟩
  have h : DrawsHome tablePage k :=
    invariant_along (DrawsHome tablePage) (fun _ _ _ he hs h => h.step he (videoStep_cases hs))
      hg hr hstart
  have hentry := h.entry hopen
  refine ⟨hentry, fun o ho => translate_window ho (h.window.resolve_left fun hzero => ?_) hentry⟩
  rw [hzero] at hopen
  exact absurd hopen (by decide)

/-- Runs on the image with a shell, from cleared memory. -/
abbrev videoRuns (es : List VideoEvent) : Option State :=
  run (videoStep 0x500 shellImage fun _ => .zero) (pagingInit 0x500 .cleared) es

/-- All three shells are up, the one that is shown calls `vidmap`, and the next one
gets its turn. -/
theorem vidmap_draws_home_background :
    ∃ k, videoRuns [.kernel .tick, .kernel .tick, .kernel .tick, .kernel .tick,
        .vidmap 0x8000000, .kernel .tick] = some k ∧
      k.pageTableVideo 0 = vidPage 1 ||| vidMemFlag := by
  obtain ⟨k, hr, hopen, hcs, hcur⟩ := run_eval (videoStep 0x500 shellImage fun _ => .zero)
    (pagingInit 0x500 .cleared)
    [.kernel .tick, .kernel .tick, .kernel .tick, .kernel .tick, .vidmap 0x8000000, .kernel .tick]
    (fun k => Present (k.pageDirectory 34) ∧ k.currScheduler = 1 ∧
      k.dev.display.currentTerminal = 0) (by decide +kernel)
  refine ⟨k, hr, ?_⟩
  rw [(vidmap_draws_home 0x500 shellImage _ .cleared k _ (by decide +kernel) hr hopen).1, hcs, hcur]
  rfl

/-- The shell on terminal 1 calls `vidmap` while terminal 0 is shown; or the shell on
terminal 0 does, and the next tick starts the shell on terminal 1. Each time the
program on terminal 1 runs with the window on the visible screen. -/
theorem vidmap_draws_elsewhere :
    (∃ k, videoRuns [.kernel .tick, .kernel .tick, .vidmap 0x8000000] = some k ∧ UserRuns k 1 ∧
      Present (k.pageDirectory 34) ∧ k.currScheduler = 1 ∧ k.dev.display.currentTerminal = 0 ∧
      k.pageTableVideo 0 = videoMem ||| vidMemFlag) ∧
    ∃ k, videoRuns [.kernel .tick, .vidmap 0x8000000, .kernel .tick] = some k ∧ UserRuns k 1 ∧
      Present (k.pageDirectory 34) ∧ k.currScheduler = 1 ∧ k.dev.display.currentTerminal = 0 ∧
      k.pageTableVideo 0 = videoMem ||| vidMemFlag :=
  ⟨run_eval _ _ _ _ (by decide +kernel), run_eval _ _ _ _ (by decide +kernel)⟩

/-! ### Address 0 -/

/-- The event makes the first entry of the video page table present. -/
def MapsPageZero (k : State) : VideoEvent → Prop
  | .kernel .tick => Resumes k
  | .switch _ => True
  | .vidmap screenStart => AcceptsPointer screenStart
  | .kernel _ => False

instance (k : State) : (e : VideoEvent) → Decidable (MapsPageZero k e)
  | .kernel .tick => inferInstanceAs (Decidable (Resumes k))
  | .switch _ => isTrue trivial
  | .vidmap _ => inferInstanceAs (Decidable (AcceptsPointer _))
  | .kernel (.execute _) => isFalse id
  | .kernel (.halt _) => isFalse id
  | .kernel (.exception _) => isFalse id
  | .kernel (.call _) => isFalse id

theorem videoEntry_present (k : State) : Present (videoEntry k) := by
  obtain ⟨page, hpage⟩ := base_page k.dev.display k.currScheduler
  rw [videoEntry_eq, hpage]
  simp only [Present, vidMemFlag]
  omega

/-- The entry is never taken away again. -/
theorem pageZero_step {tablePage : ℕ} {k k' : State} {e : VideoEvent}
    (hs : Retables tablePage k k' e) :
    Present (k'.pageTableVideo 0) ↔ Present (k.pageTableVideo 0) ∨ MapsPageZero k e := by
  cases hs with
  | other e he hs =>
    rw [hs.pageTableVideo]
    refine (or_iff_left ?_).symm
    cases e with
    | tick => exact (he rfl).2
    | _ => exact id
  | newShell hk hs =>
    rw [hs.pageTableVideo]
    exact (or_iff_left fun hresumes : Resumes k => hresumes.2 hk.2).symm
  | turn q hk hk' =>
    subst hk'
    rw [continueProcess_entry]
    exact iff_of_true (videoEntry_present _) (.inr hk)
  | switch n hk' =>
    subst hk'
    rw [switchTerminal_entry]
    exact iff_of_true (videoEntry_present _) (.inr trivial)
  | refused screenStart hs hk => rw [hk]; exact (or_iff_left hs).symm
  | mapped screenStart haccept hs =>
    refine iff_of_true ?_ (.inr haccept)
    rw [hs.pageTableVideo, openWindow_entry]
    decide

/-- No event touches the entry of the directory for the low 4 MB. -/
theorem low_directory {tablePage : ℕ} {k k' : State} {e : VideoEvent}
    (hs : Retables tablePage k k' e) : k'.pageDirectory 0 = k.pageDirectory 0 := by
  cases hs with
  | other e _ hs => exact hs.pageDirectory 0 (by decide)
  | newShell _ hs => exact hs.pageDirectory 0 (by decide)
  | turn q _ hk => subst hk; rfl
  | switch n hk => subst hk; rfl
  | refused _ _ hk => rw [hk]
  | mapped _ _ hs =>
    exact (hs.pageDirectory 0 (by decide)).trans (openWindow_directory tablePage k 0)

/-- In a state that a run from `paging_init` has reached, every address of the first
page faults if and only if the run had no tick that lets a process go on, no switch of
terminals and no `vidmap` that was accepted. -/
theorem null_faults_iff (tablePage : ℕ) (img : Image) (stack : ℕ → Stack) (k₀ k : State)
    (es : List VideoEvent)
    (hr : run (videoStep tablePage img stack) (pagingInit tablePage k₀) es = some k) :
    (∀ addr < 0x1000, translate tablePage k addr = none) ↔
      Along (videoStep tablePage img stack) (fun k e => ¬ MapsPageZero k e)
        (pagingInit tablePage k₀) es := by
  have hlow : k.pageDirectory 0 = tableAddr tablePage ||| 0x03 :=
    invariant_run (fun k => k.pageDirectory 0 = tableAddr tablePage ||| 0x03)
      (fun _ _ _ hs h => (low_directory (videoStep_cases hs)).trans h) hr rfl
  have hfaults : (∀ addr < 0x1000, translate tablePage k addr = none) ↔
      ¬ Present (k.pageTableVideo 0) := by
    have hnull : ∀ addr < 0x1000, translate tablePage k addr =
        if Present (k.pageTableVideo 0) then
          some (k.pageTableVideo 0 / 0x1000 * 0x1000 + addr % 0x1000) else none := by
      intro addr haddr
      have hpde : addr / mb4 = 0 := Nat.div_eq_of_lt (by simp only [mb4]; omega)
      have hpte : addr / 0x1000 % 1024 = 0 := by omega
      rw [translate_table (.inl rfl) (hpde.symm ▸ hlow), hpte]
    constructor
    · intro h hpresent
      have := (hnull 0 (by decide)).symm.trans (h 0 (by decide))
      simp [hpresent] at this
    · intro h addr haddr
      rw [hnull addr haddr, if_neg h]
  have hstart : ¬ Present ((pagingInit tablePage k₀).pageTableVideo 0) := by
    show ¬ Present 0
    decide
  have hmarked := marked_iff (fun _ _ _ hs => pageZero_step (videoStep_cases hs)) hr
  rw [hfaults, hmarked]
  simp [hstart]

/-- While the three shells are being started, NULL still faults. -/
theorem null_faults_iff_starting :
    ∃ k, videoRuns [.kernel .tick, .kernel .tick, .kernel .tick] = some k ∧
      ∀ addr < 0x1000, translate 0x500 k addr = none := by
  obtain ⟨k, hr, -⟩ := run_eval (videoStep 0x500 shellImage fun _ => .zero) (pagingInit 0x500 .cleared)
    [.kernel .tick, .kernel .tick, .kernel .tick] (fun _ => True) (by decide +kernel)
  exact ⟨k, hr, (null_faults_iff 0x500 shellImage _ .cleared k _ hr).mpr (by decide +kernel)⟩

/-- The fourth tick lets the first shell go on, and address 0 leads to video memory. -/
theorem null_reaches_video_memory :
    ∃ k, videoRuns [.kernel .tick, .kernel .tick, .kernel .tick, .kernel .tick] = some k ∧
      UserRuns k 0 ∧ translate 0x500 k 0 = some videoMem :=
  run_eval _ _ _ _ (by decide +kernel)

end Ece391.Kernel

import Ece391.Kernel.Memory

/-! What a program can reach, and who can change its memory. The page tables let user
code into one frame and onto one page of the screens. Nothing but the program of a
process itself, or the kernel when this program calls it, stores into its frame. -/

namespace Ece391.Kernel

open Function (update)
open Lib FileSys Syscall Devices Support.Runs

/-! ### The tables -/

/-- A page that shows the screen of a terminal. -/
def IsScreen (s : ℕ) : Prop := s = videoMem ∨ ∃ t, s = vidPage t

/-- The entries of the tables, apart from that of the user page. -/
structure Guarded (tablePage : ℕ) (k : State) : Prop where
  low : k.pageDirectory 0 = tableAddr tablePage ||| 0x03
  kernel : k.pageDirectory 1 = 0x400000 ||| 0x83
  absent : ∀ i < 1024, i ≠ 0 → i ≠ 1 → i ≠ 32 → i ≠ 34 → k.pageDirectory i = 0
  window : k.pageDirectory 34 = 0 ∨ k.pageDirectory 34 = tableAddr tablePage ||| vidMemFlag ∧
    ∃ s, IsScreen s ∧ k.pageTableVideo 0 = s ||| vidMemFlag
  closed : ∀ i, 0 < i → i < 1024 → ¬ AllowsUser (k.pageTableVideo i)

theorem pagingInit_guarded (tablePage : ℕ) (k : State) : Guarded tablePage (pagingInit tablePage k) where
  low := rfl
  kernel := rfl
  absent i hi h0 h1 _ _ := by
    show update (update (fun i => if i < 1024 then 0 else k.pageDirectory i) 0 _) 1 _ i = 0
    rw [Function.update_of_ne h1, Function.update_of_ne h0, if_pos hi]
  window := .inl rfl
  closed i _ hi := by
    simp only [pagingInit, Function.update_apply, hi, if_true]
    split_ifs <;> decide

theorem videoEntry_screen (k : State) : ∃ s, IsScreen s ∧ videoEntry k = s ||| vidMemFlag := by
  unfold videoEntry
  split_ifs
  · exact ⟨videoMem, .inl rfl, rfl⟩
  · exact ⟨_, .inr ⟨k.currScheduler, rfl⟩, rfl⟩

section Guarded
variable {tablePage : ℕ} {k k' : State}

/-- An operation that keeps the directory, and of the table all but the first entry. -/
theorem Guarded.retable (h : Guarded tablePage k)
    (hdir : ∀ i, i ≠ 32 → k'.pageDirectory i = k.pageDirectory i)
    (htable : ∀ i, 0 < i → i < 1024 → k'.pageTableVideo i = k.pageTableVideo i)
    (hentry : k'.pageTableVideo 0 = k.pageTableVideo 0 ∨
      ∃ s, IsScreen s ∧ k'.pageTableVideo 0 = s ||| vidMemFlag) : Guarded tablePage k' where
  low := (hdir 0 (by decide)).trans h.low
  kernel := (hdir 1 (by decide)).trans h.kernel
  absent i hi h0 h1 h32 h34 := (hdir i h32).trans (h.absent i hi h0 h1 h32 h34)
  window := by
    rw [hdir 34 (by decide)]
    refine h.window.imp_right fun ⟨hpde, hscreen⟩ => ⟨hpde, ?_⟩
    rcases hentry with hsame | hentry
    · rwa [hsame]
    · exact hentry
  closed i h0 hi := by
    rw [htable i h0 hi]
    exact h.closed i h0 hi

theorem Guarded.same (h : Guarded tablePage k) (hs : SameTables k k') : Guarded tablePage k' :=
  h.retable hs.pageDirectory (fun i _ _ => congrFun hs.pageTableVideo i)
    (.inl (congrFun hs.pageTableVideo 0))

theorem Guarded.openWindow (h : Guarded tablePage k) :
    Guarded tablePage (openWindow tablePage k) := by
  have hdir := openWindow_directory tablePage k
  refine ⟨(hdir 0).trans h.low, (hdir 1).trans h.kernel, fun i hi h0 h1 h32 h34 => ?_,
    .inr ⟨hdir 34, videoMem, .inl rfl, openWindow_entry tablePage k⟩, fun i h0 hi => ?_⟩
  · rw [hdir, if_neg h34]
    exact h.absent i hi h0 h1 h32 h34
  · have hvideo : i ≠ videoMem := by
      simp only [videoMem]
      omega
    simp only [Kernel.openWindow, mapVideoMemory]
    rw [Function.update_of_ne hvideo, Function.update_of_ne h0.ne']
    exact h.closed i h0 hi

theorem Guarded.video (h : Guarded tablePage k) {e : VideoEvent} (hs : Retables tablePage k k' e) :
    Guarded tablePage k' := by
  cases hs with
  | other e _ hs => exact h.same hs
  | newShell _ hs =>
    have hnext : Guarded tablePage (nextTurn k) := h.retable (fun _ _ => rfl) (fun _ _ _ => rfl) (.inl rfl)
    exact hnext.same hs
  | turn q _ hk =>
    subst hk
    refine h.retable (fun i hi => ?_) (fun i h0 _ => ?_) (.inr ?_)
    · exact Function.update_of_ne hi _ _
    · exact Function.update_of_ne h0.ne' _ _
    · rw [continueProcess_entry]
      exact videoEntry_screen _
  | switch n hk =>
    subst hk
    refine h.retable (fun _ _ => rfl) (fun i h0 _ => ?_) (.inr ?_)
    · exact Function.update_of_ne h0.ne' _ _
    · rw [switchTerminal_entry]
      exact videoEntry_screen _
  | refused _ _ hk => exact hk ▸ h
  | mapped _ _ hs => exact h.openWindow.same hs

theorem Guarded.step {img : Image} {stack : ℕ → Stack} (h : Guarded tablePage k) {e : UserEvent}
    (hs : userStep tablePage img stack k e = some k') : Guarded tablePage k' := by
  cases userStep_by hs with
  | video e hs => exact h.video (videoStep_cases hs)
  | fault p addr byte _ _ hk => exact hk ▸ h.same (trap_kept img stack k p .pf).sameTables
  | stored p addr byte phys _ _ hk => exact hk ▸ h.same (storePhys_same k phys byte).2
  | readTo p fd addr nbytes keyBuf _ hk =>
    exact hk ▸ (h.same (fileCall_kept img k p _).sameTables).same (deliver_same _ p addr _).2
  | getargsTo p addr nbytes _ hk => exact hk ▸ h.same (deliver_same k p addr _).2

end Guarded

/-! ### What user code reaches -/

/-- The memory of the program of `p`: its frame at 128 MB and, if there is one, a window
at 136 MB. -/
def userMap (p : Fin 6) (window : Option ℕ) (addr : ℕ) : Option ℕ :=
  if lowerboundVid ≤ addr ∧ addr < upperboundVid then some (frame p + (addr - lowerboundVid))
  else if mb136 ≤ addr ∧ addr < mb136 + 0x1000 then window.map (· + (addr - mb136))
  else none

theorem tableEntry_allows (tablePage : ℕ) : AllowsUser (tableAddr tablePage ||| vidMemFlag) ∧
    ¬ AllowsUser (tableAddr tablePage ||| 0x03) ∧ ¬ Large (tableAddr tablePage ||| vidMemFlag) := by
  rw [tableAddr, entry_eq tablePage (by decide), entry_eq tablePage (by decide)]
  simp only [AllowsUser, Large, vidMemFlag]
  omega

theorem userEntry_eq (p : Fin 6) : State.userEntry p = frame p + 0x87 := by
  fin_cases p <;> rfl

theorem screenEntry {s : ℕ} (h : IsScreen s) :
    s ||| vidMemFlag = s + vidMemFlag ∧ s % 0x1000 = 0 := by
  obtain ⟨page, rfl⟩ : ∃ page, s = 0x1000 * page := by
    rcases h with rfl | ⟨t, rfl⟩
    · exact ⟨0xB8, rfl⟩
    · exact ⟨0xB9 + t, by simp only [vidPage]; omega⟩
  exact ⟨entry_eq page (by decide), Nat.mul_mod_right _ _⟩

section Reach
variable {tablePage : ℕ} {k : State} {addr : ℕ}

theorem userTranslate_page {p : Fin 6} (hpage : k.pageDirectory 32 = State.userEntry p)
    (h : lowerboundVid ≤ addr ∧ addr < upperboundVid) :
    userTranslate tablePage k addr = some (frame p + (addr - lowerboundVid)) := by
  obtain ⟨hlow, hhigh⟩ := h
  have hpde : addr / mb4 = 32 := by
    simp only [lowerboundVid, upperboundVid, mb4] at *
    omega
  have hlarge : Large (frame p + 0x87) ∧ AllowsUser (frame p + 0x87) ∧ Present (frame p + 0x87) := by
    simp only [Large, AllowsUser, Present, frame, userFrames, mb4]
    omega
  simp only [userTranslate, translate, hpde, hpage, userEntry_eq, hlarge, true_and, true_or, if_true,
    not_true_eq_false, if_false, Option.some.injEq]
  simp only [frame, userFrames, mb4, lowerboundVid, upperboundVid] at *
  omega

theorem userTranslate_window (h : Guarded tablePage k) (hpde : addr / mb4 = 34) :
    userTranslate tablePage k addr = if addr < mb136 + 0x1000 then
      (if k.pageDirectory 34 = 0 then none
        else some (k.pageTableVideo 0 - vidMemFlag + (addr - mb136))) else none := by
  obtain ⟨hallows, -, hlarge⟩ := tableEntry_allows tablePage
  rcases h.window with hclosed | ⟨hopen, s, hs, hentry⟩
  · have hzero : ¬ AllowsUser 0 := by decide
    simp only [userTranslate, hpde, hclosed, hzero, false_and, if_false, if_true, ite_self]
  · have hne : tableAddr tablePage ||| vidMemFlag ≠ 0 := by
      rw [tableAddr, entry_eq tablePage (by decide)]
      simp only [vidMemFlag]
      omega
    have htable := @translate_table tablePage k addr _ (.inr rfl) (hpde.symm ▸ hopen)
    obtain ⟨hflags, hpage⟩ := screenEntry hs
    simp only [userTranslate, hpde, hopen, hallows, hlarge, true_and, false_or, hne, if_false, htable]
    by_cases hfirst : addr < mb136 + 0x1000
    · have hpte : addr / 0x1000 % 1024 = 0 := by
        simp only [mb136, mb4] at *
        omega
      have hscreen : AllowsUser (s + vidMemFlag) ∧ Present (s + vidMemFlag) := by
        simp only [AllowsUser, Present, vidMemFlag]
        omega
      simp only [hpte, hentry, hflags, hscreen, hfirst, if_true, Option.some.injEq]
      simp only [vidMemFlag, mb136, mb4] at *
      omega
    · have hclosed := h.closed (addr / 0x1000 % 1024)
        (by simp only [mb136, mb4] at *; omega) (Nat.mod_lt _ (by decide))
      simp only [hclosed, hfirst, if_false]

theorem userTranslate_elsewhere (h : Guarded tablePage k) (haddr : addr < 2 ^ 32)
    (h32 : addr / mb4 ≠ 32) (h34 : addr / mb4 ≠ 34) : userTranslate tablePage k addr = none := by
  have hallows : ¬ AllowsUser (k.pageDirectory (addr / mb4)) := by
    by_cases h0 : addr / mb4 = 0
    · rw [h0, h.low]
      exact (tableEntry_allows tablePage).2.1
    · by_cases h1 : addr / mb4 = 1
      · rw [h1, h.kernel]
        decide
      · rw [h.absent _ (by simp only [mb4] at *; omega) h0 h1 h32 h34]
        decide
  simp only [userTranslate, hallows, false_and, if_false]

theorem userTranslate_eq (h : Guarded tablePage k) {p : Fin 6}
    (hpage : k.pageDirectory 32 = State.userEntry p) (haddr : addr < 2 ^ 32) :
    userTranslate tablePage k addr = userMap p (if k.pageDirectory 34 = 0 then none
      else some (k.pageTableVideo 0 - vidMemFlag)) addr := by
  by_cases h32 : addr / mb4 = 32
  · have hin : lowerboundVid ≤ addr ∧ addr < upperboundVid := by
      simp only [lowerboundVid, upperboundVid, mb4] at *
      omega
    rw [userTranslate_page hpage hin, userMap, if_pos hin]
  have hout : ¬ (lowerboundVid ≤ addr ∧ addr < upperboundVid) := by
    simp only [lowerboundVid, upperboundVid, mb4] at *
    omega
  rw [userMap, if_neg hout]
  by_cases h34 : addr / mb4 = 34
  · have hlow : mb136 ≤ addr := by
      simp only [mb136, mb4] at *
      omega
    rw [userTranslate_window h h34]
    simp only [hlow, true_and]
    split_ifs <;> rfl
  · have hnot : ¬ (mb136 ≤ addr ∧ addr < mb136 + 0x1000) := by
      simp only [mb136, mb4] at *
      omega
    rw [userTranslate_elsewhere h haddr h32 h34, if_neg hnot]

end Reach

theorem frameOf_frame (p : Fin 6) {o : ℕ} (ho : o < mb4) :
    frameOf (frame p + o) = some p ∧ frameOffset (frame p + o) = o := by
  have hrange : userFrames ≤ frame p + o ∧ frame p + o < userFrames + 6 * mb4 := by
    simp only [frame, userFrames, mb4] at *
    omega
  constructor
  · rw [frameOf, dif_pos hrange, Option.some.injEq]
    apply Fin.ext
    simp only [frame, userFrames, mb4] at *
    omega
  · simp only [frameOffset, frame, userFrames, mb4] at *
    omega

theorem frameOf_screen {s o : ℕ} (hs : IsScreen s) (ho : o < 0x1000) :
    frameOf (s + o) = none ∧ OnScreens (s + o) := by
  have hrange : videoMem ≤ s ∧ s + 0x1000 ≤ videoMem + 4 * 0x1000 := by
    rcases hs with rfl | ⟨t, rfl⟩
    · decide
    · simp only [videoMem, vidPage]
      omega
  have hbelow : ¬ (userFrames ≤ s + o ∧ s + o < userFrames + 6 * mb4) := by
    simp only [userFrames, videoMem, mb4] at *
    omega
  refine ⟨by rw [frameOf, dif_neg hbelow], ?_⟩
  simp only [OnScreens]
  omega

/-- What every reachable state has. -/
structure Walled (tablePage : ℕ) (k : State) : Prop where
  guarded : Guarded tablePage k
  housed : Housed k

theorem walled_of_run {tablePage : ℕ} {img : Image} {stack : ℕ → Stack} {k₀ k : State}
    {es : List UserEvent} (hb : State.Boot k₀)
    (hr : run (userStep tablePage img stack) (pagingInit tablePage k₀) es = some k) :
    Walled tablePage k := by
  have hboot : State.Boot (pagingInit tablePage k₀) :=
    ⟨hb.pid, hb.processCounter, hb.globalHalt, hb.terminal, hb.currScheduler, hb.directoryIndex,
      hb.activations, hb.log, hb.lost⟩
  refine invariant_run (Walled tablePage) (fun _ _ _ hs h => ?_) hr
    ⟨pagingInit_guarded tablePage k₀, Boot.housed hboot⟩
  exact ⟨h.guarded.step hs, h.housed.userStep hs⟩

theorem Walled.page {tablePage : ℕ} {k : State} (h : Walled tablePage k) {p : Fin 6}
    (hp : UserRuns k p) : k.pageDirectory 32 = State.userEntry p := by
  obtain ⟨st, hc⟩ := h.housed.chained
  have hplace := h.housed.resident hp.1 p hp.2
  rw [hc.pid_eq k.currScheduler p (hc.running_mem hp.2)] at hplace
  exact congrArg Prod.fst hplace

/-- In every state in which the program of a process runs, the addresses it can use are
those of its own frame and of one page of the screens, the latter only while the window
is open. The frames of other processes and the pages of the kernel are not among them. -/
theorem user_reaches_own_memory (tablePage : ℕ) (img : Image) (stack : ℕ → Stack) (k₀ k : State)
    (es : List UserEvent) (hb : State.Boot k₀)
    (hr : run (userStep tablePage img stack) (pagingInit tablePage k₀) es = some k) (p : Fin 6)
    (hp : UserRuns k p) :
    ∃ window : Option ℕ, (window.isSome ↔ Present (k.pageDirectory 34)) ∧
      (∀ s ∈ window, IsScreen s) ∧
      (∀ addr < 2 ^ 32, userTranslate tablePage k addr = userMap p window addr) ∧
      ∀ addr < 2 ^ 32, ∀ phys, userTranslate tablePage k addr = some phys →
        frameOf phys = some p ∨ frameOf phys = none ∧ OnScreens phys := by
  have h := walled_of_run hb hr
  set window : Option ℕ := if k.pageDirectory 34 = 0 then none
    else some (k.pageTableVideo 0 - vidMemFlag) with hwindow
  have hmap : ∀ addr < 2 ^ 32, userTranslate tablePage k addr = userMap p window addr :=
    fun addr haddr => userTranslate_eq h.guarded (h.page hp) haddr
  have hscreens : ∀ s ∈ window, IsScreen s := by
    intro s hs
    rcases h.guarded.window with hclosed | ⟨hopen, s', hs', hentry⟩
    · simp [hwindow, hclosed] at hs
    · rw [hentry, (screenEntry hs').1, Nat.add_sub_cancel] at hwindow
      split_ifs at hwindow
      · rw [hwindow] at hs
        cases hs
      · rw [hwindow, Option.mem_some_iff] at hs
        exact hs ▸ hs'
  refine ⟨window, ?_, hscreens, hmap, fun addr haddr phys hphys => ?_⟩
  · rcases h.guarded.window with hclosed | ⟨hopen, -⟩
    · simp [hwindow, hclosed, Present]
    · have hpresent : Present (tableAddr tablePage ||| vidMemFlag) := by
        rw [tableAddr, entry_eq tablePage (by decide)]
        simp only [Present, vidMemFlag]
        omega
      have hne : tableAddr tablePage ||| vidMemFlag ≠ 0 := by
        intro hzero
        rw [hzero] at hpresent
        exact absurd hpresent (by decide)
      simp [hwindow, hopen, hpresent, hne]
  · rw [hmap addr haddr, userMap] at hphys
    split_ifs at hphys with hpage hscreen
    · obtain rfl := Option.some.inj hphys
      refine .inl (frameOf_frame p ?_).1
      simp only [lowerboundVid, upperboundVid, mb4] at *
      omega
    · obtain ⟨s, hs, rfl⟩ := Option.map_eq_some_iff.mp hphys
      refine .inr (frameOf_screen (hscreens s hs) ?_)
      omega

/-- Runs with user code on the image with a shell, from cleared memory. -/
abbrev userRuns (es : List UserEvent) : Option State :=
  run (userStep 0x500 shellImage fun _ => .zero) (pagingInit 0x500 .cleared) es

/-- The first shell at the address where its program was loaded. -/
theorem user_reaches_own_memory_first : ∃ k, userRuns [.video (.kernel .tick)] = some k ∧
    userTranslate 0x500 k 0x8048000 = some 0x848000 := by
  obtain ⟨k, hr, hp⟩ := run_eval (userStep 0x500 shellImage fun _ => .zero)
    (pagingInit 0x500 .cleared) [.video (.kernel .tick)] (fun k => UserRuns k 0) (by decide +kernel)
  obtain ⟨window, -, -, hmap, -⟩ :=
    user_reaches_own_memory 0x500 shellImage _ .cleared k _ State.cleared_boot hr 0 hp
  exact ⟨k, hr, (hmap 0x8048000 (by decide)).trans rfl⟩

end Ece391.Kernel

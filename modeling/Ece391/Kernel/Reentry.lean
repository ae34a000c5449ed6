import Ece391.Kernel.Nesting

/-! NULL in the scheduler. Behind `sti` the scheduler calls `execute("shell")` with no PCB
on its terminal, and so does `halt` of a root. An interrupt there is caught by the test at
the head of the scheduler on the first terminal only. And since `halt` gives the pid back
before anything else, a PCB may be filled again while its terminal still uses it. As long as
neither happens the chains of the terminals stay apart, and with them the registers that the
scheduler keeps in their PCBs. -/

namespace Ece391.Kernel

open Function (update)
open Lib FileSys Syscall Devices Support.Runs

/-! ### The condition -/

/-- With these pids `find_pid` gives out the PCB of another terminal, whose process has been
interrupted in `halt`. -/
def TakesSeat (s : Nest) (pid : ℤ → ℤ) : Prop :=
  ∃ slot t, findPid pid = some slot ∧ t ≠ s.kernel.currScheduler ∧ s.kernel.terminal t = some slot

/-- The timer interrupts terminal 1 or 2 while it has no PCB; or a program is started in the
PCB of a process that was interrupted in `halt`. -/
def Unsafe (img : Image) (stack : ℕ → Stack) (s : Nest) : NestEvent → Prop
  | .pit => s.kernel.currScheduler ≠ 0 ∧ (s.point s.kernel.currScheduler).isOpen = true
  | .go => (s.point s.kernel.currScheduler).startsShell = true ∧ TakesSeat s s.kernel.pid
  | .program (.execute command) => Admitted img stack s.kernel command ∧ TakesSeat s s.kernel.pid
  | .program _ => False

instance (s : Nest) (pid : ℤ → ℤ) : Decidable (TakesSeat s pid) :=
  inferInstanceAs (Decidable (∃ _ _, _ ∧ _ ∧ _))

instance decidableUnsafe (img : Image) (stack : ℕ → Stack) (s : Nest) :
    (e : NestEvent) → Decidable (Unsafe img stack s e)
  | .pit => inferInstanceAs (Decidable (_ ∧ _))
  | .go => inferInstanceAs (Decidable (_ ∧ _))
  | .program (.execute _) => inferInstanceAs (Decidable (_ ∧ _))
  | .program (.halt _) => isFalse id
  | .program (.exception _) => isFalse id
  | .program .tick => isFalse id
  | .program (.call _) => isFalse id

/-- "shell" is a file that passes the checks of `execute`, whatever its stack holds. -/
def ShellLoadable (img : Image) : Prop :=
  (readDentryByName img shellName).isSome = true ∧ ∀ buf, isExe img buf shellName = true

theorem ShellLoadable.admitted {img : Image} (h : ShellLoadable img) (stack : ℕ → Stack) {k : State}
    (hrun : k.running = none) : Admitted img stack k (some shellName) := by
  have hname : CString.ofBuf (parse (some shellName)).filename = shellName := by decide +kernel
  have hret : (parse (some shellName)).ret ≠ -1 := by decide +kernel
  obtain ⟨d, hd⟩ := Option.isSome_iff_exists.mp h.1
  simp only [Admitted, admission, hret, if_false, hrun, ne_eq, not_true_eq_false, false_and, hname, hd,
    h.2, Bool.true_eq_false]
  rfl

/-! ### Pids on hold -/

section Hold
variable {k k' : State} {held : Fin 6 → Prop} {st : Chains} {p slot : Fin 6}

open Classical in
/-- The kernel as if the processes that are held had not given their pids back yet. -/
noncomputable def State.hold (k : State) (held : Fin 6 → Prop) : State :=
  { k with pid := fun i => if ∃ q : Fin 6, (q : ℤ) = i ∧ held q then occupied else k.pid i }

theorem hold_pid (k : State) (hp : ¬ held p) : (k.hold held).pid p = k.pid p := by
  refine if_neg ?_
  rintro ⟨q, hq, hheld⟩
  obtain rfl : q = p := Fin.ext (by simpa using hq)
  exact hp hheld

theorem hold_pid_held (k : State) (hp : held p) : (k.hold held).pid p = occupied :=
  if_pos ⟨p, rfl, hp⟩

/-- Who else is held does not matter for a pid. -/
theorem hold_pid_or (k : State) {i : ℤ} (hi : i ≠ p) :
    (k.hold fun q => q = p ∨ held q).pid i = (k.hold held).pid i := by
  have hiff : (∃ q : Fin 6, (q : ℤ) = i ∧ (q = p ∨ held q)) ↔ ∃ q : Fin 6, (q : ℤ) = i ∧ held q := by
    refine exists_congr fun q => and_congr_right fun hq => or_iff_right ?_
    rintro rfl
    exact hi hq.symm
  simp only [State.hold]
  by_cases hheld : ∃ q : Fin 6, (q : ℤ) = i ∧ held q
  · rw [if_pos hheld, if_pos (hiff.mpr hheld)]
  · rw [if_neg hheld, if_neg (mt hiff.mp hheld)]

theorem Forest.hold_congr (h : Forest (k.hold held) st) (hterm : k'.terminal = k.terminal)
    (hpid : k'.pid = k.pid) (hlinks : ∀ p, (k'.pcbs p).links = (k.pcbs p).links) :
    Forest (k'.hold held) st :=
  h.congr hterm (by simp only [State.hold, hpid]) hlinks

/-- A process is created in a PCB that is not held. -/
theorem Forest.hold_entered (h : Forest (k.hold held) st) (he : Entered k k' slot)
    (hslot : ¬ held slot) :
    Forest (k'.hold held) (update st k.currScheduler (slot :: st k.currScheduler)) := by
  have hv : (k.hold held).pid slot = vacant := (hold_pid k hslot).trans (findPid_eq_some he.found)
  have hparent : pidOf k.pcbs k.running = pidValue k.running := by
    cases hr : k.running with
    | none => rfl
    | some q => exact h.pid_eq k.currScheduler q (h.running_mem hr)
  refine h.push hv he.terminal ?_ ?_ he.links_other
  · funext i
    simp only [State.hold, he.pid, Function.update_apply]
    split_ifs <;> rfl
  · have hlinks := he.links_slot (h.running_ne hv)
    rw [hparent] at hlinks
    exact hlinks

/-- A process gives its pid back and is held from then on. -/
theorem Forest.hold_vacate (h : Forest (k.hold held) st) (hp : k.running = some p) (hheld : ¬ held p) :
    Forest ((Nest.vacate k p).hold fun q => q = p ∨ held q) st := by
  have hmem := h.running_mem hp
  have hpid : (k.pcbs p).pid = p := h.pid_eq k.currScheduler p hmem
  have hocc : k.pid p = occupied := (hold_pid k hheld).symm.trans (h.occupied_eq _ p hmem)
  refine h.congr rfl ?_ fun _ => rfl
  funext i
  by_cases hi : i = p
  · subst hi
    exact (hold_pid_held _ (.inl rfl)).trans ((hold_pid k hheld).trans hocc).symm
  · refine (hold_pid_or _ hi).trans ?_
    simp only [State.hold, Nest.vacate, hpid, Function.update_of_ne hi]

/-- A process that was held leaves its terminal to its parent. -/
theorem Forest.hold_leave (k' : State) (h : Forest (k.hold fun q => q = p ∨ held q) st)
    (hp : k.running = some p) (hheld : ¬ held p) (hvacant : k.pid p = vacant)
    (hterm : k'.terminal = update k.terminal k.currScheduler (k.pcbs p).parentPcb)
    (hpid : k'.pid = k.pid) (hlinks : ∀ q, (k'.pcbs q).links = (k.pcbs q).links) :
    ∃ st', Forest (k'.hold held) st' := by
  obtain ⟨rest, hst, -⟩ := h.running_eq hp
  refine ⟨_, h.pop hst hterm ?_ hlinks⟩
  funext i
  by_cases hi : i = p
  · subst hi
    rw [Function.update_self, hold_pid k' hheld, hpid, hvacant]
  · rw [Function.update_of_ne hi, hold_pid_or k hi]
    simp only [State.hold, hpid]

/-- A process ends all at once. -/
theorem Forest.hold_end (k' : State) (h : Forest (k.hold held) st) (hp : k.running = some p)
    (hheld : ¬ held p) (hterm : k'.terminal = update k.terminal k.currScheduler (k.pcbs p).parentPcb)
    (hpid : k'.pid = update k.pid (k.pcbs p).pid vacant)
    (hlinks : ∀ q, (k'.pcbs q).links = (k.pcbs q).links) : ∃ st', Forest (k'.hold held) st' := by
  have hself : (k.pcbs p).pid = p := h.pid_eq k.currScheduler p (h.running_mem hp)
  refine (h.hold_vacate hp hheld).hold_leave (k := Nest.vacate k p) k' hp hheld ?_ hterm hpid hlinks
  simp only [Nest.vacate, hself, Function.update_self]

theorem Forest.root_alone (h : Forest k st) (hp : k.running = some p) (hroot : (k.pcbs p).parentPid = -1) :
    (k.pcbs p).parentPcb = none := by
  have hparent := h.parent_eq k.currScheduler p (h.running_mem hp)
  rw [hroot] at hparent
  cases hq : (k.pcbs p).parentPcb with
  | none => rfl
  | some q =>
    rw [hq] at hparent
    simp only [pidValue] at hparent
    omega

end Hold

/-! ### The invariant -/

namespace Nest
variable (s : Nest)

/-- The process of another terminal that was interrupted in `halt` with its pid given back. -/
def Others (q : Fin 6) : Prop :=
  ∃ t ≠ s.kernel.currScheduler, (s.point t).isVacated = true ∧ s.kernel.terminal t = some q

/-- Of any terminal, with the code of the running one at the point `p`. -/
def Held (p : Point) (q : Fin 6) : Prop :=
  p.isVacated = true ∧ s.kernel.running = some q ∨ s.Others q

end Nest

/-- What holds wherever the running code stands. A terminal that waits for a shell has no PCB.
A process whose pid was given back is still on its terminal, and if it is being left it has a
parent. With the pids of these on hold the chains of the terminals are in order, and every
other terminal has its own registers in its PCB. -/
structure Orderly (s : Nest) : Prop where
  empty : ∀ t, (s.point t).isOpen = true → s.kernel.terminal t = none
  vacated : ∀ t, (s.point t).isVacated = true → ∀ q, s.kernel.terminal t = some q →
    s.kernel.pid q = vacant
  leaving : ∀ t, (s.point t).isLeaving = true →
    ∃ p, s.kernel.terminal t = some p ∧ (s.kernel.pcbs p).parentPcb ≠ none
  own : OwnRegisters s.saved s.kernel
  forest : ∃ st, Forest (s.kernel.hold (s.Held (s.point s.kernel.currScheduler))) st

/-- The running terminal has a PCB unless it is the first or waits for a shell. -/
structure Sound (s : Nest) : Prop extends Orderly s where
  seat : s.kernel.running = none →
    s.kernel.currScheduler = 0 ∨ (s.point s.kernel.currScheduler).isOpen = true

/-- The running code leaves the other terminals and the processes held there alone. -/
structure Spares (s : Nest) (k : State) : Prop extends SparesTerminals s.kernel k where
  vacated : ∀ q, s.Others q → k.pid q = vacant
  parent : ∀ q, s.Others q → (k.pcbs q).parentPcb = (s.kernel.pcbs q).parentPcb

/-- Neither the terminals nor the pids nor the links changed. -/
structure SameSeats (k k' : State) : Prop where
  currScheduler : k'.currScheduler = k.currScheduler
  terminal : k'.terminal = k.terminal
  pid : k'.pid = k.pid
  links : ∀ p, (k'.pcbs p).links = (k.pcbs p).links

theorem SameSeats.running {k k' : State} (h : SameSeats k k') : k'.running = k.running := by
  rw [State.running, State.running, h.terminal, h.currScheduler]

theorem Quiet.sameSeats {k k' : State} (h : Quiet k k') : SameSeats k k' :=
  ⟨h.currScheduler, h.terminal, h.pid, fun p => by rw [h.pcbs]⟩

section Invariant
variable {img : Image} {stack : ℕ → Stack} {s : Nest} {k k' : State} {p : Point} {q slot : Fin 6}

theorem isVacated_of_isLeaving (h : p.isLeaving = true) : p.isVacated = true := by
  cases p <;> first | rfl | cases h

theorem Nest.held_running (hp : p.isVacated = true) (hrun : s.kernel.running = some q) :
    s.Held p = fun r => r = q ∨ s.Others r := by
  funext r
  simp only [Nest.Held, hp, hrun, true_and, Option.some.injEq, eq_comm (a := q)]

theorem Nest.held_others (hp : p.isVacated = false ∨ s.kernel.running = none) : s.Held p = s.Others := by
  funext r
  rcases hp with hp | hp <;> simp [Nest.Held, hp]

theorem Orderly.others_vacant (h : Orderly s) (hq : s.Others q) : s.kernel.pid q = vacant := by
  obtain ⟨t, -, hvacated, hseat⟩ := hq
  exact h.vacated t hvacated q hseat

theorem Orderly.apart (h : Orderly s) {t u : Fin 3} (ht : s.kernel.terminal t = some q)
    (hu : s.kernel.terminal u = some q) : t = u := by
  obtain ⟨st, hst⟩ := h.forest
  exact hst.terminals_apart ht hu

/-- The PCBs of the terminals are apart. -/
theorem Orderly.running_not_others (h : Orderly s) (hrun : s.kernel.running = some q) :
    ¬ s.Others q := by
  rintro ⟨t, ht, -, hseat⟩
  exact ht (h.apart hseat hrun)

theorem SameSeats.spares (h : Orderly s) (hk : SameSeats s.kernel k) : Spares s k where
  currScheduler := hk.currScheduler
  terminal t _ := by rw [hk.terminal]
  vacated q hq := by
    rw [hk.pid]
    exact h.others_vacant hq
  parent q _ := (Pcb.links_eq (hk.links q)).2.2

/-- The running code moves on. -/
theorem Orderly.moves (h : Orderly s) (hk : Spares s k)
    (hseat : k.running = none → s.kernel.currScheduler = 0 ∨ p.isOpen = true)
    (hempty : p.isOpen = true → k.running = none)
    (hvacated : p.isVacated = true → ∀ q, k.running = some q → k.pid q = vacant)
    (hleaving : p.isLeaving = true → ∃ q, k.running = some q ∧ (k.pcbs q).parentPcb ≠ none)
    (hforest : ∃ st, Forest (k.hold fun q => p.isVacated = true ∧ k.running = some q ∨ s.Others q) st) :
    Sound ({ s with kernel := k }.moveTo p) := by
  have hcs := hk.currScheduler
  have hself := { s with kernel := k }.moveTo_point p
  have hother : ∀ t ≠ k.currScheduler, ({ s with kernel := k }.moveTo p).point t = s.point t :=
    fun t ht => { s with kernel := k }.moveTo_other p ht
  have hothers : ({ s with kernel := k }.moveTo p).Others = s.Others := by
    funext q
    simp only [Nest.Others, eq_iff_iff]
    refine exists_congr fun t => ?_
    constructor
    · rintro ⟨ht, hv, hq⟩
      rw [hother t ht] at hv
      exact ⟨hcs ▸ ht, hv, (hk.terminal t (hcs ▸ ht)).symm.trans hq⟩
    · rintro ⟨ht, hv, hq⟩
      refine ⟨fun heq => ht (heq.trans hcs), ?_, (hk.terminal t ht).trans hq⟩
      rwa [hother t fun heq => ht (heq.trans hcs)]
  refine ⟨⟨fun t ht => ?_, fun t ht q hq => ?_, fun t hl => ?_, h.own.keep hk.toSparesTerminals, ?_⟩,
    fun hrun => ?_⟩
  · by_cases heq : t = k.currScheduler
    · subst heq
      exact hempty (hself ▸ ht)
    · rw [hother t heq] at ht
      exact (hk.terminal t (hcs ▸ heq)).trans (h.empty t ht)
  · by_cases heq : t = k.currScheduler
    · subst heq
      exact hvacated (hself ▸ ht) q hq
    · rw [hother t heq] at ht
      exact hk.vacated q ⟨t, hcs ▸ heq, ht, (hk.terminal t (hcs ▸ heq)).symm.trans hq⟩
  · by_cases heq : t = k.currScheduler
    · subst heq
      exact hleaving (hself ▸ hl)
    · rw [hother t heq] at hl
      obtain ⟨q, hq, hparent⟩ := h.leaving t hl
      have hsame := hk.parent q ⟨t, hcs ▸ heq, isVacated_of_isLeaving hl, hq⟩
      exact ⟨q, (hk.terminal t (hcs ▸ heq)).trans hq, fun hnone => hparent (hsame.symm.trans hnone)⟩
  · have hheld : ({ s with kernel := k }.moveTo p).Held p =
        fun q => p.isVacated = true ∧ k.running = some q ∨ s.Others q := by
      funext q
      simp only [Nest.Held, hothers]
      rfl
    exact hself.symm ▸ hheld.symm ▸ hforest
  · refine (hseat hrun).imp (fun h0 => hcs.trans h0) fun hopen => ?_
    exact hself.symm ▸ hopen

/-- The forest behind a step that changes no seat and no link. -/
theorem Orderly.forest_same (h : Orderly s) (hk : SameSeats s.kernel k)
    (hp : p.isVacated = (s.point s.kernel.currScheduler).isVacated) :
    ∃ st, Forest (k.hold fun q => p.isVacated = true ∧ k.running = some q ∨ s.Others q) st := by
  obtain ⟨st, hst⟩ := h.forest
  have hheld : s.Held (s.point s.kernel.currScheduler) =
      fun q => p.isVacated = true ∧ k.running = some q ∨ s.Others q := by
    funext q
    simp only [Nest.Held, hk.running, hp]
  exact ⟨st, hheld ▸ hst.hold_congr hk.terminal hk.pid hk.links⟩

/-- The same where the running code holds no process. -/
theorem Orderly.forest_free (h : Orderly s) (hk : SameSeats s.kernel k)
    (hp : (s.point s.kernel.currScheduler).isVacated = false ∨ s.kernel.running = none) :
    ∃ st, Forest (k.hold s.Others) st := by
  obtain ⟨st, hst⟩ := h.forest
  rw [Nest.held_others hp] at hst
  exact ⟨st, hst.hold_congr hk.terminal hk.pid hk.links⟩

/-- The running code moves on to a point at which it holds no process. -/
theorem Orderly.moves_free (h : Orderly s) (hk : Spares s k) (hp : p.isVacated = false)
    (hseat : k.running = none → s.kernel.currScheduler = 0 ∨ p.isOpen = true)
    (hempty : p.isOpen = true → k.running = none) (hforest : ∃ st, Forest (k.hold s.Others) st) :
    Sound ({ s with kernel := k }.moveTo p) := by
  refine h.moves hk hseat hempty (fun hv => ?_) (fun hl => ?_) ?_
  · cases hp.symm.trans hv
  · cases hp.symm.trans (isVacated_of_isLeaving hl)
  · simpa only [hp, Bool.false_eq_true, false_and, false_or] using hforest

/-- A slot that a start does not take from another terminal. -/
theorem not_others_of_free {pid : ℤ → ℤ} (hfree : ¬ TakesSeat s pid) (hfound : findPid pid = some slot) :
    ¬ s.Others slot := by
  rintro ⟨t, ht, -, hseat⟩
  exact hfree ⟨slot, t, hfound, ht, hseat⟩

/-- The code of a process moves on with the terminals as they were. -/
theorem Sound.stays (h : Sound s) (hk : SameSeats s.kernel k)
    (hrun : s.kernel.running = none → s.kernel.currScheduler = 0) (hopen : p.isOpen = false)
    (hpoint : (s.point s.kernel.currScheduler).isVacated = false) (hvacated : p.isVacated = false) :
    Sound ({ s with kernel := k }.moveTo p) := by
  refine h.moves_free (hk.spares h.toOrderly) hvacated (fun hnone => .inl (hrun (hk.running ▸ hnone))) ?_
    (h.forest_free hk (.inl hpoint))
  simp [hopen]

/-- A process is created in a PCB that no other terminal uses. -/
theorem Orderly.enters (h : Orderly s) (hk : Spares s k) (he : Entered k k' slot)
    (hfree : ¬ s.Others slot) (hforest : ∃ st, Forest (k.hold s.Others) st) :
    Sound ({ s with kernel := k' }.moveTo .user) := by
  obtain ⟨st, hst⟩ := hforest
  have hne : ∀ q, s.Others q → q ≠ slot := by
    rintro q hq rfl
    exact hfree hq
  have hspares : Spares s k' := by
    refine ⟨hk.toSparesTerminals.trans he.spares, fun q hq => ?_, fun q hq => ?_⟩
    · rw [he.pid, update_pid_of_ne (hne q hq)]
      exact hk.vacated q hq
    · exact (Pcb.links_eq (he.links_other q (hne q hq))).2.2.trans (hk.parent q hq)
  refine h.moves_free hspares rfl (fun hnone => ?_) (fun hopen => nomatch hopen)
    ⟨_, hst.hold_entered he hfree⟩
  rw [he.running] at hnone
  cases hnone

/-- Nothing has gone wrong: the scheduler has used no NULL pointer and no registers of another
terminal, and unless the kernel is lost for another reason the records are in order. -/
structure Safe (s : Nest) : Prop where
  nullAccess : s.nullAccess = false
  strayed : s.strayed = false
  sound : s.kernel.lost = true ∨ Sound s

theorem Nest.held_all (s : Nest) : s.Held (s.point s.kernel.currScheduler) =
    fun q => ∃ t, (s.point t).isVacated = true ∧ s.kernel.terminal t = some q := by
  funext q
  rw [eq_iff_iff]
  constructor
  · rintro (⟨hv, hq⟩ | ⟨t, -, hv, hq⟩)
    · exact ⟨_, hv, hq⟩
    · exact ⟨t, hv, hq⟩
  · rintro ⟨t, hv, hq⟩
    by_cases ht : t = s.kernel.currScheduler
    · subst ht
      exact .inl ⟨hv, hq⟩
    · exact .inr ⟨t, ht, hv, hq⟩

/-- The turn is passed on with the registers saved, and the next terminal finds its own. -/
theorem Orderly.turn (h : Orderly s) (hrun : s.kernel.running = some q) :
    Orderly { s with
      saved := update s.saved q (some s.kernel.currScheduler), kernel := nextTurn s.kernel } ∧
    ∀ r, (nextTurn s.kernel).running = some r →
      update s.saved q (some s.kernel.currScheduler) r = some (nextTurn s.kernel).currScheduler := by
  have hsaved : ∀ t r, s.kernel.terminal t = some r →
      update s.saved q (some s.kernel.currScheduler) r = some t :=
    fun t r hr => h.own.save hrun (fun _ _ _ => h.apart) hr
  obtain ⟨st, hst⟩ := h.forest
  rw [Nest.held_all] at hst
  refine ⟨⟨h.empty, h.vacated, h.leaving, fun t _ r hr => hsaved t r hr, st, ?_⟩, fun r hr => hsaved _ r hr⟩
  rw [Nest.held_all]
  exact hst.hold_congr rfl rfl fun _ => rfl

/-- The running process, which is held, and the forest it is in. -/
theorem Orderly.held_forest (h : Orderly s) (hrun : s.kernel.running = some q)
    (hpoint : (s.point s.kernel.currScheduler).isVacated = true) :
    s.kernel.pid q = vacant ∧ ∃ st, Forest (s.kernel.hold fun r => r = q ∨ s.Others r) st := by
  obtain ⟨st, hst⟩ := h.forest
  rw [Nest.held_running hpoint hrun] at hst
  exact ⟨h.vacated _ hpoint q hrun, st, hst⟩

theorem restoreParent_links (k : State) (q i : Fin 6) :
    ((Nest.restoreParent k q).pcbs i).links = (k.pcbs i).links := by
  refine update_proj Pcb.links k.pcbs q i ?_
  simp only [Pcb.links]
  rfl

theorem resume_sameSeats (k : State) (act : ℕ) : SameSeats k (resume k act) := by
  rw [resume_eq]
  exact ⟨rfl, rfl, rfl, fun _ => rfl⟩

section Steps
variable (hnull : s.nullAccess = false) (hstray : s.strayed = false)
include hnull hstray

theorem Sound.pit (h : Sound s) (hg : ¬ Unsafe img stack s .pit) : Safe s.pit := by
  unfold Nest.pit
  cases hrun : s.kernel.running with
  | none =>
    -- only the first terminal can be without a PCB here
    have hcs : s.kernel.currScheduler = 0 :=
      (h.seat hrun).elim id fun hopen => not_not.mp fun hne => hg ⟨hne, hopen⟩
    have hsame : SameSeats s.kernel s.kernel := ⟨rfl, rfl, rfl, fun _ => rfl⟩
    rw [if_pos hcs]
    refine ⟨hnull, hstray, .inr ?_⟩
    exact h.moves_free (hsame.spares h.toOrderly) rfl (fun _ => .inr rfl) (fun _ => hrun)
      (h.forest_free hsame (.inr hrun))
  | some p =>
    obtain ⟨horderly, hown⟩ := h.turn hrun
    have hsame : SameSeats (nextTurn s.kernel) (nextTurn s.kernel) := ⟨rfl, rfl, rfl, fun _ => rfl⟩
    dsimp only
    cases hnext : (nextTurn s.kernel).running with
    | none =>
      refine ⟨hnull, hstray, .inr ?_⟩
      exact horderly.moves_free (hsame.spares horderly) rfl (fun _ => .inr rfl) (fun _ => hnext)
        (horderly.forest_free hsame (.inr hnext))
    | some q =>
      have hrunning : (continueProcess (nextTurn s.kernel) q).running = some q := hnext
      obtain ⟨st, hst⟩ := horderly.forest
      dsimp only
      rw [if_pos (hown q hnext)]
      refine ⟨hnull, hstray, .inr ⟨⟨horderly.empty, horderly.vacated, horderly.leaving, horderly.own,
        st, ?_⟩, fun hnone => ?_⟩⟩
      · exact hst.hold_congr rfl rfl fun _ => rfl
      · cases hrunning.symm.trans hnone

/-- A shell is started on a terminal that has no process. -/
theorem Sound.starts (h : Sound s) (hshell : ShellLoadable img)
    (hopen : (s.point s.kernel.currScheduler).isOpen = true) (hfree : ¬ TakesSeat s s.kernel.pid)
    (first : Bool) : Safe (s.startFrom img stack first) := by
  have hk : Quiet s.kernel (if first then clearScreen s.kernel else s.kernel) := by
    cases first
    · exact ⟨rfl, rfl, rfl, rfl, rfl, rfl, rfl⟩
    · exact clearScreen_quiet s.kernel
  simp only [Nest.startFrom]
  generalize (if first then clearScreen s.kernel else s.kernel) = k at hk
  have hrun : s.kernel.running = none := h.empty _ hopen
  have hreturned := execute_not_returned (hshell.admitted stack (hk.sameSeats.running.trans hrun))
  have hcases := execute_cases img stack k (some shellName)
  rcases hexec : execute img stack k (some shellName) with ⟨k', r⟩
  rw [hexec] at hcases hreturned
  rcases hcases with ⟨rfl, -⟩ | ⟨rfl, -, -⟩ | ⟨rfl, -, slot, he⟩
  · exact absurd rfl hreturned
  · exact ⟨hnull, hstray, .inl rfl⟩
  · have hslot := not_others_of_free hfree (hk.pid ▸ he.found)
    exact ⟨hnull, hstray, .inr (h.enters (hk.sameSeats.spares h.toOrderly) he hslot
      (h.forest_free hk.sameSeats (.inr hrun)))⟩

theorem Sound.restarts (h : Sound s) (hopen : (s.point s.kernel.currScheduler).isOpen = true)
    (hfree : ¬ TakesSeat s s.kernel.pid) :
    Safe ({ s with kernel := startShell img stack s.kernel }.moveTo .user) := by
  have hrun : s.kernel.running = none := h.empty _ hopen
  have hsame : SameSeats s.kernel s.kernel := ⟨rfl, rfl, rfl, fun _ => rfl⟩
  rcases startShell_started img stack s.kernel with ⟨slot, he⟩ | ⟨hlost, -⟩
  · have hslot := not_others_of_free hfree he.found
    exact ⟨hnull, hstray, .inr (h.enters (hsame.spares h.toOrderly) he hslot
      (h.forest_free hsame (.inr hrun)))⟩
  · exact ⟨hnull, hstray, .inl hlost⟩

/-- The running process gives its pid back and is held. -/
theorem Sound.vacates (h : Sound s) (hrun : s.kernel.running = some q)
    (hpoint : (s.point s.kernel.currScheduler).isVacated = false) (hk : SameSeats s.kernel k)
    (status : UInt8) :
    Safe ({ s with kernel := Nest.vacate k q }.moveTo (.halting status)) := by
  have hrunk : k.running = some q := hk.running.trans hrun
  obtain ⟨st, hst⟩ := h.forest_free hk (.inl hpoint)
  have hself : (k.pcbs q).pid = q := hst.pid_eq _ q (hst.running_mem hrunk)
  have hspares := hk.spares h.toOrderly
  refine ⟨hnull, hstray, .inr (h.moves ⟨⟨hk.currScheduler, hspares.terminal⟩, fun r hr => ?_, hspares.parent⟩
    (fun hnone => ?_) (fun hopen => nomatch hopen) (fun _ r hr => ?_) (fun hleaving => nomatch hleaving)
    ⟨st, ?_⟩)⟩
  · have hne : r ≠ q := by
      rintro rfl
      exact h.running_not_others hrun hr
    rw [Nest.vacate, hself]
    exact (update_pid_of_ne hne _).trans (hspares.vacated r hr)
  · cases hrunk.symm.trans hnone
  · obtain rfl : q = r := Option.some.inj (hrunk.symm.trans hr)
    simp only [Nest.vacate, hself, Function.update_self]
  · have hvacated := hst.hold_vacate hrunk (h.running_not_others hrun)
    have hheld : (fun r => (Point.halting status).isVacated = true ∧ (Nest.vacate k q).running = some r ∨
        s.Others r) = fun r => r = q ∨ s.Others r := by
      funext r
      rw [show (Nest.vacate k q).running = some q from hrunk]
      simp only [Point.isVacated, true_and, Option.some.injEq, eq_comm (a := q)]
    rw [hheld]
    exact hvacated

theorem Sound.halts (h : Sound s) (hrun : s.kernel.running = some q)
    (hpoint : (s.point s.kernel.currScheduler).isVacated = true) (status : UInt8) :
    Safe (s.haltFrom q status) := by
  obtain ⟨hvacant, st, hst⟩ := h.held_forest hrun hpoint
  unfold Nest.haltFrom
  split_ifs with hroot
  · have hk : Spares s (Nest.unseat s.kernel) :=
      ⟨⟨rfl, fun t ht => Function.update_of_ne ht _ _⟩, fun _ hq => h.others_vacant hq, fun _ _ => rfl⟩
    have hnone : (Nest.unseat s.kernel).running = none := Function.update_self _ _ _
    have hparent : (s.kernel.pcbs q).parentPcb = none := hst.root_alone hrun hroot
    have hforest := hst.hold_leave (Nest.unseat s.kernel) hrun (h.running_not_others hrun) hvacant
      (by rw [hparent]; rfl) rfl fun _ => rfl
    exact ⟨hnull, hstray, .inr (h.moves_free hk rfl (fun _ => .inr rfl) (fun _ => hnone) hforest)⟩
  · cases hparent : (s.kernel.pcbs q).parentPcb with
    | none => exact ⟨hnull, hstray, .inl rfl⟩
    | some r =>
      have hk : SameSeats s.kernel (Nest.restoreParent s.kernel q) :=
        ⟨rfl, rfl, rfl, restoreParent_links s.kernel q⟩
      have hrunning := hk.running.trans hrun
      refine ⟨hnull, hstray, .inr (h.moves (hk.spares h.toOrderly) (fun hnone => ?_)
        (fun hopen => nomatch hopen) (fun _ i hi => ?_) (fun _ => ⟨q, hrunning, ?_⟩)
        (h.forest_same hk hpoint.symm))⟩
      · cases hrunning.symm.trans hnone
      · obtain rfl : q = i := Option.some.inj (hrunning.symm.trans hi)
        exact hvacant
      · rw [(Pcb.links_eq (hk.links q)).2.2, hparent]
        exact Option.some_ne_none r

/-- The terminal is handed to the parent, which is not NULL. -/
theorem Sound.leaves (h : Sound s) (hrun : s.kernel.running = some q)
    (hleaving : (s.point s.kernel.currScheduler).isLeaving = true) (status : UInt8) (act : ℕ) :
    Safe ({ s with kernel := Nest.seatParent s.kernel q }.moveTo (.seated status act)) := by
  obtain ⟨hvacant, st, hst⟩ := h.held_forest hrun (isVacated_of_isLeaving hleaving)
  have hk : Spares s (Nest.seatParent s.kernel q) :=
    ⟨⟨rfl, fun t ht => Function.update_of_ne ht _ _⟩, fun _ hq => h.others_vacant hq, fun _ _ => rfl⟩
  have hseat : (Nest.seatParent s.kernel q).running = (s.kernel.pcbs q).parentPcb :=
    Function.update_self _ _ _
  have hforest := hst.hold_leave (Nest.seatParent s.kernel q) hrun (h.running_not_others hrun)
    hvacant rfl rfl fun _ => rfl
  refine ⟨hnull, hstray, .inr (h.moves_free hk rfl (fun hnone => ?_) (fun hopen => nomatch hopen)
    hforest)⟩
  obtain ⟨p, hp, hparent⟩ := h.leaving _ hleaving
  obtain rfl : q = p := Option.some.inj (hrun.symm.trans hp)
  exact absurd (hseat.symm.trans hnone) hparent

/-- The running code goes on from a point inside the kernel. -/
theorem Sound.go (h : Sound s) (hshell : ShellLoadable img) (hg : ¬ Unsafe img stack s .go) {s' : Nest}
    (hs : s.go img stack = some s') : Safe s' := by
  have hseat := h.seat
  have hempty := h.empty s.kernel.currScheduler
  have hfree : (s.point s.kernel.currScheduler).startsShell = true → ¬ TakesSeat s s.kernel.pid :=
    fun hstarts htakes => hg ⟨hstarts, htakes⟩
  unfold Nest.go at hs
  cases hpoint : s.point s.kernel.currScheduler with
  | user => simp [hpoint] at hs
  | starting first =>
    obtain rfl : s.startFrom img stack first = s' := by simpa [hpoint] using hs
    exact h.starts hnull hstray hshell (by rw [hpoint]; rfl) (hfree (by rw [hpoint]; rfl)) first
  | trapped =>
    cases hrun : s.kernel.running with
    | none => simp [hpoint, hrun] at hs
    | some q =>
      obtain rfl : { s with kernel := Nest.vacate s.kernel q }.moveTo (.halting 1) = s' := by
        simpa [hpoint, hrun] using hs
      exact h.vacates hnull hstray hrun (by rw [hpoint]; rfl) ⟨rfl, rfl, rfl, fun _ => rfl⟩ 1
  | halting status =>
    cases hrun : s.kernel.running with
    | none => simp [hpoint, hrun] at hs
    | some q =>
      obtain rfl : s.haltFrom q status = s' := by simpa [hpoint, hrun] using hs
      exact h.halts hnull hstray hrun (by rw [hpoint]; rfl) status
  | unseated =>
    obtain rfl : { s with kernel := Nest.countOff s.kernel }.moveTo .restarting = s' := by
      simpa [hpoint] using hs
    have hrun : s.kernel.running = none := hempty (by rw [hpoint]; rfl)
    have hk : SameSeats s.kernel (Nest.countOff s.kernel) := ⟨rfl, rfl, rfl, fun _ => rfl⟩
    exact ⟨hnull, hstray, .inr (h.moves_free (hk.spares h.toOrderly) rfl (fun _ => .inr rfl)
      (fun _ => hrun) (h.forest_free hk (.inr hrun)))⟩
  | restarting =>
    obtain rfl : { s with kernel := startShell img stack s.kernel }.moveTo .user = s' := by
      simpa [hpoint] using hs
    exact h.restarts hnull hstray (by rw [hpoint]; rfl) (hfree (by rw [hpoint]; rfl))
  | leaving status act =>
    cases hrun : s.kernel.running with
    | none => simp [hpoint, hrun] at hs
    | some q =>
      obtain rfl : { s with kernel := Nest.seatParent s.kernel q }.moveTo (.seated status act) = s' := by
        simpa [hpoint, hrun] using hs
      exact h.leaves hnull hstray hrun (by rw [hpoint]; rfl) status act
  | seated status act =>
    obtain rfl : { s with kernel := { Nest.countOff s.kernel with globalStatus := status } }.moveTo
        (.returning act) = s' := by
      simpa [hpoint] using hs
    refine ⟨hnull, hstray, .inr (h.stays ⟨rfl, rfl, rfl, fun _ => rfl⟩ (fun hnone => ?_) rfl
      (by rw [hpoint]; rfl) rfl)⟩
    simpa [hpoint, Point.isOpen] using hseat hnone
  | returning act =>
    obtain rfl : { s with kernel := resume s.kernel act }.moveTo .user = s' := by
      simpa [hpoint] using hs
    refine ⟨hnull, hstray, .inr (h.stays (resume_sameSeats s.kernel act) (fun hnone => ?_) rfl
      (by rw [hpoint]; rfl) rfl)⟩
    simpa [hpoint, Point.isOpen] using hseat hnone

/-- The page fault of a call of `execute` with no pid free ends the process there and
then, with the flag clear. No process is held while no pid is free. -/
theorem Sound.faults (h : Sound s) (hrun : s.kernel.running = some q)
    (hpoint : (s.point s.kernel.currScheduler).isVacated = false) (hf : Faulted s.kernel k) :
    Safe ({ s with kernel := trap img stack k q .pf }.moveTo .user) := by
  have hnobody : ∀ r, ¬ s.Others r := fun r hr => findPid_eq_none hf.full r (h.others_vacant hr)
  have hraised : SameSeats s.kernel (raise k q .pf) :=
    ⟨hf.currScheduler, hf.terminal, hf.pid, fun i => congrArg Pcb.links (congrFun hf.pcbs i)⟩
  have hrunning : (raise k q .pf).running = some q := hraised.running.trans hrun
  obtain ⟨st, hst⟩ := h.forest_free hraised (.inl hpoint)
  have hspares : ∀ {k' : State}, SparesTerminals (raise k q .pf) k' → Spares s k' := fun hk' =>
    ⟨(hraised.spares h.toOrderly).toSparesTerminals.trans hk', fun r hr => absurd hr (hnobody r),
      fun r hr => absurd hr (hnobody r)⟩
  cases halt_ended img stack (raise k q .pf) q 1 with
  | root hroot hs =>
    have hparent : ((raise k q .pf).pcbs q).parentPcb = none := hst.root_alone hrunning hroot
    have hforest := hst.hold_end (freed (raise k q .pf) q) hrunning (hnobody q)
      (by rw [hparent]; rfl) rfl fun _ => rfl
    rcases hs with ⟨slot, he⟩ | ⟨hlost, -⟩
    · exact ⟨hnull, hstray, .inr (h.enters (hspares (freed_spares _ q)) he (hnobody slot) hforest)⟩
    · exact ⟨hnull, hstray, .inl hlost⟩
  | child r hchild hr hret =>
    have hforest := hst.hold_end (trap img stack k q .pf) hrunning (hnobody q)
      (hret.terminal.trans (by rw [← hr])) hret.pid hret.links
    refine ⟨hnull, hstray, .inr (h.moves_free (hspares hret.spares) rfl (fun hnone => ?_)
      (fun hopen => nomatch hopen) hforest)⟩
    cases hret.running.symm.trans hnone
  | orphan hchild hr =>
    refine ⟨hnull, hstray, .inl ?_⟩
    simp only [trap, halt, if_neg hchild, hr]
    rfl

theorem Sound.executes (h : Sound s) (hrun : s.kernel.running = some q)
    (hpoint : s.point s.kernel.currScheduler = .user) {command : Option CString}
    (hg : ¬ Unsafe img stack s (.program (.execute command))) :
    Safe ({ s with kernel := executeBy img stack s.kernel q command }.moveTo .user) := by
  have hvacated : (s.point s.kernel.currScheduler).isVacated = false := by
    rw [hpoint]
    rfl
  have hcases := execute_cases img stack s.kernel command
  simp only [executeBy]
  rcases hexec : execute img stack s.kernel command with ⟨k, r⟩
  rw [hexec] at hcases
  rcases hcases with ⟨rfl, hr⟩ | ⟨rfl, -, hf⟩ | ⟨rfl, hadm, slot, he⟩
  · refine ⟨hnull, hstray, .inr (h.stays hr.sameSeats (fun hnone => ?_) rfl hvacated rfl)⟩
    cases hrun.symm.trans hnone
  · exact h.faults hnull hstray hrun hvacated hf
  · have hsame : SameSeats s.kernel s.kernel := ⟨rfl, rfl, rfl, fun _ => rfl⟩
    have hslot := not_others_of_free (fun htakes => hg ⟨hadm, htakes⟩) he.found
    exact ⟨hnull, hstray, .inr (h.enters (hsame.spares h.toOrderly) he hslot
      (h.forest_free hsame (.inl hvacated)))⟩

/-- The running program calls the kernel. -/
theorem Sound.program (h : Sound s) (hrun : s.kernel.running = some q)
    (hpoint : s.point s.kernel.currScheduler = .user) {e : Event}
    (hg : ¬ Unsafe img stack s (.program e)) {s' : Nest} (hs : s.program img stack q e = some s') :
    Safe s' := by
  have hvacated : (s.point s.kernel.currScheduler).isVacated = false := by
    rw [hpoint]
    rfl
  have hseat : s.kernel.running = none → s.kernel.currScheduler = 0 :=
    fun hnone => nomatch hrun.symm.trans hnone
  cases e with
  | execute command =>
    obtain rfl := Option.some.inj hs
    exact h.executes hnull hstray hrun hpoint hg
  | halt status =>
    obtain rfl := Option.some.inj hs
    exact h.vacates (k := s.kernel.note (.ended (s.kernel.trace.born q) status)) hnull hstray hrun
      hvacated ⟨rfl, rfl, rfl, fun _ => rfl⟩ status
  | exception e =>
    obtain rfl := Option.some.inj hs
    exact ⟨hnull, hstray, .inr (h.stays ⟨rfl, rfl, rfl, fun _ => rfl⟩ hseat rfl hvacated rfl)⟩
  | tick => cases hs
  | call c =>
    obtain rfl := Option.some.inj hs
    have hk : SameSeats s.kernel (fileCall img s.kernel q c) :=
      ⟨rfl, rfl, rfl, fun i => update_proj Pcb.links s.kernel.pcbs q i (by simp only [Pcb.links])⟩
    exact ⟨hnull, hstray, .inr (h.stays hk hseat rfl hvacated rfl)⟩

end Steps

theorem nestStep_safe (hshell : ShellLoadable img) {e : NestEvent} {s' : Nest}
    (hg : ¬ Unsafe img stack s e) (hs : nestStep img stack s e = some s') (h : Safe s) : Safe s' := by
  unfold nestStep at hs
  split_ifs at hs with hstop
  have hlost : ¬ s.kernel.lost = true := fun hlost => hstop (.inr (.inr hlost))
  have hsound : Sound s := h.sound.resolve_left hlost
  cases e with
  | pit =>
    obtain rfl := Option.some.inj hs
    exact hsound.pit h.nullAccess h.strayed hg
  | go => exact hsound.go h.nullAccess h.strayed hshell hg hs
  | program e =>
    cases hpoint : s.point s.kernel.currScheduler with
    | user =>
      cases hrun : s.kernel.running with
      | none => simp [hpoint, hrun] at hs
      | some q =>
        have hprogram : s.program img stack q e = some s' := by simpa [hpoint, hrun] using hs
        exact hsound.program h.nullAccess h.strayed hrun hpoint hg hprogram
    | _ => simp [hpoint] at hs

end Invariant

/-! ### Every interleaving -/

theorem Nest.Boot.safe {s : Nest} (h : s.Boot) : Safe s := by
  have hnobody : ∀ q, ¬ s.Held (s.point s.kernel.currScheduler) q := by
    intro q
    rw [Nest.held_all]
    rintro ⟨t, hv, -⟩
    rw [h.point t] at hv
    cases hv
  refine ⟨h.nullAccess, h.strayed, .inr ⟨⟨fun t _ => h.kernel.terminal t, fun t hv => ?_, fun t hl => ?_,
    fun t _ q hq => ?_, fun _ => [], ?_⟩, fun _ => .inl h.kernel.currScheduler⟩⟩
  · rw [h.point t] at hv
    cases hv
  · rw [h.point t] at hl
    cases hl
  · cases (h.kernel.terminal t).symm.trans hq
  · refine ⟨h.kernel.terminal, by simp, by simp, by simp, by simp, fun p _ => ?_⟩
    exact (hold_pid s.kernel (hnobody p)).trans (h.kernel.pid p)

/-- Wherever the timer interrupts the kernel apart from the two unsafe ways, the scheduler never
uses a NULL `terminal[curr_scheduler].pcb`, and gives every terminal its own registers back. -/
theorem scheduler_avoids_null {img : Image} {stack : ℕ → Stack} (hshell : ShellLoadable img)
    {s s' : Nest} (hboot : s.Boot) {es : List NestEvent}
    (hg : Along (nestStep img stack) (fun s e => ¬ Unsafe img stack s e) s es)
    (hr : run (nestStep img stack) s es = some s') : s'.nullAccess = false ∧ s'.strayed = false := by
  have hsafe : Safe s' := invariant_along Safe (fun _ _ _ => nestStep_safe hshell) hg hr hboot.safe
  exact ⟨hsafe.nullAccess, hsafe.strayed⟩

theorem shellImage_loadable : ShellLoadable shellImage := ⟨by decide +kernel, fun _ => rfl⟩

/-- The shell of the first terminal is interrupted twice in `halt`, the second time with
its terminal empty. -/
def interruptedHalt : List NestEvent :=
  [.pit, .go, .pit, .go, .pit, .go, .pit, .program (.halt 0), .pit, .pit, .pit, .go, .go, .pit, .go]

theorem scheduler_avoids_null_halting : ∃ s,
    run (nestStep shellImage fun _ => .zero) .cleared interruptedHalt = some s ∧
      s.kernel.running = some 0 ∧ s.nullAccess = false := by
  obtain ⟨s, hs, hrun⟩ := run_eval (nestStep shellImage fun _ => .zero) .cleared interruptedHalt
    (fun s => s.kernel.running = some 0) (by decide +kernel)
  obtain ⟨hnull, -⟩ := scheduler_avoids_null shellImage_loadable Nest.cleared_boot
    (by decide +kernel) hs
  exact ⟨s, hs, hrun, hnull⟩

/-- The timer interrupts the scheduler while it starts the shell of terminal 1. -/
theorem scheduler_uses_null : ShellLoadable shellImage ∧ Nest.cleared.Boot ∧
    ∃ s, run (nestStep shellImage fun _ => .zero) .cleared [.pit, .go, .pit, .pit] = some s ∧
      s.nullAccess = true :=
  ⟨shellImage_loadable, Nest.cleared_boot, run_eval _ _ _ _ (by decide +kernel)⟩

end Ece391.Kernel

import Ece391.Kernel.Forest

/-! Every reachable state of the kernel is such a forest. As long as `find_pid` has
not failed, `process_counter` counts the processes on the chains less one. -/

namespace Ece391.Kernel

open Function (update)
open FileSys Syscall Support Support.Runs

/-- The number of processes. -/
def total (st : Chains) : ℤ := ((st 0).length + (st 1).length + (st 2).length : ℕ)

theorem total_update (st : Chains) (t : Fin 3) (l : List (Fin 6)) :
    total (update st t l) = total st - (st t).length + l.length := by
  fin_cases t <;> simp [total, Function.update] <;> omega

/-- `find_pid` has never failed. -/
def NeverFull (k : State) : Prop := .findPid (-1) ∉ k.trace.log

/-- The chains with their count. -/
structure Chained (k : State) (st : Chains) : Prop extends Forest k st where
  counted : NeverFull k → k.processCounter + 1 = total st

theorem findPid_eq_some {pid : ℤ → ℤ} {p : Fin 6} (h : findPid pid = some p) : pid p = vacant := by
  simpa using List.find?_some h

theorem findPid_eq_none {pid : ℤ → ℤ} (h : findPid pid = none) (p : Fin 6) : pid p ≠ vacant := by
  have hall := List.find?_eq_none.mp h
  have hmem : ∀ p : Fin 6, p ∈ ([0, 1, 2, 3, 4, 5] : List (Fin 6)) := by decide
  simpa using hall p (hmem p)

section Preserved
variable {k k' : State} {st : Chains}

theorem Chained.congr (h : Chained k st) (hterm : k'.terminal = k.terminal) (hpid : k'.pid = k.pid)
    (hpcbs : ∀ p, (k'.pcbs p).links = (k.pcbs p).links) (hcount : k'.processCounter = k.processCounter)
    (hlog : NeverFull k' → NeverFull k) : Chained k' st where
  toForest := h.toForest.congr hterm hpid hpcbs
  counted := fun hn => by rw [hcount, h.counted (hlog hn)]

/-- A longer log has seen what the shorter one has. -/
theorem NeverFull.of_append {os : List Obs} (hlog : k'.trace.log = k.trace.log ++ os)
    (h : NeverFull k') : NeverFull k := by
  intro hmem
  exact h (by rw [hlog]; exact List.mem_append_left _ hmem)

theorem NeverFull.of_eq (hlog : k'.trace.log = k.trace.log) (h : NeverFull k') : NeverFull k := by
  rwa [NeverFull, hlog] at h

theorem Chained.refused (h : Chained k st) (hr : Refused k k') : Chained k' st :=
  h.congr hr.terminal hr.pid (fun p => by rw [hr.pcbs]) hr.counter (.of_append hr.log)

theorem Chained.faulted (h : Chained k st) (hf : Faulted k k') : Chained k' st where
  toForest := h.toForest.congr hf.terminal hf.pid fun p => by rw [hf.pcbs]
  counted := fun hn => absurd (by rw [hf.log]; simp) hn

theorem Chained.entered (h : Chained k st) {slot : Fin 6} (he : Entered k k' slot) :
    Chained k' (update st k.currScheduler (slot :: st k.currScheduler)) := by
  have hv := findPid_eq_some he.found
  have hparent : pidOf k.pcbs k.running = pidValue k.running := by
    cases hr : k.running with
    | none => rfl
    | some q => exact h.pid_eq k.currScheduler q (h.running_mem hr)
  refine ⟨h.push hv he.terminal he.pid ?_ he.links_other, fun hn => ?_⟩
  · rw [he.links_slot (h.running_ne hv), hparent]
    rfl
  · have hn' : NeverFull k := by
      rcases he.outcome with ⟨-, hlog⟩ | ⟨⟨_, hlog⟩, -⟩
      · exact .of_append hlog hn
      · exact .of_append hlog hn
    have := h.counted hn'
    rw [he.counter, total_update, List.length_cons]
    push_cast
    omega

theorem Chained.started (h : Chained k st) (hs : Started k k') : ∃ st', Chained k' st' := by
  rcases hs with ⟨slot, he⟩ | ⟨-, hr | hf⟩
  · exact ⟨_, h.entered he⟩
  · exact ⟨st, h.refused hr⟩
  · exact ⟨st, h.faulted hf⟩

theorem Chained.parent_none (h : Chained k st) {p : Fin 6} (hp : k.running = some p) :
    (k.pcbs p).parentPid = -1 ↔ (k.pcbs p).parentPcb = none := by
  rw [h.parent_eq k.currScheduler p (h.running_mem hp)]
  cases (k.pcbs p).parentPcb with
  | none => simp [pidValue]
  | some q =>
    simp only [pidValue, reduceCtorEq]

/-- What the end of the running process does to the chains. -/
theorem Chained.pop (h : Chained k st) {p : Fin 6} (hp : k.running = some p)
    (hterm : k'.terminal = update k.terminal k.currScheduler (k.pcbs p).parentPcb)
    (hpid : k'.pid = update k.pid (k.pcbs p).pid vacant)
    (hlinks : ∀ q, (k'.pcbs q).links = (k.pcbs q).links)
    (hcount : k'.processCounter = k.processCounter - 1) (hlog : NeverFull k' → NeverFull k) :
    ∃ rest, st k.currScheduler = p :: rest ∧ Chained k' (update st k.currScheduler rest) := by
  obtain ⟨rest, hst, -⟩ := h.running_eq hp
  rw [h.pid_eq k.currScheduler p (h.running_mem hp)] at hpid
  refine ⟨rest, hst, h.toForest.pop hst hterm hpid hlinks, fun hn => ?_⟩
  have := h.counted (hlog hn)
  rw [hcount, total_update, hst, List.length_cons]
  push_cast
  omega

/-- The chains while the root of a terminal is replaced. -/
theorem Chained.freed (h : Chained k st) {p : Fin 6} (hp : k.running = some p)
    (hroot : (k.pcbs p).parentPid = -1) : ∃ st', Chained (freed k p) st' := by
  have hterm : (Kernel.freed k p).terminal =
      update k.terminal k.currScheduler (k.pcbs p).parentPcb := by
    rw [(h.parent_none hp).mp hroot]
    rfl
  obtain ⟨rest, -, hpop⟩ := h.pop hp hterm rfl (fun _ => rfl) rfl (.of_eq rfl)
  exact ⟨_, hpop⟩

theorem Chained.ended (h : Chained k st) {p : Fin 6} (hp : k.running = some p) (he : Ended k p k') :
    ∃ st', Chained k' st' := by
  cases he with
  | root hroot hs =>
    obtain ⟨st', hfreed⟩ := h.freed hp hroot
    exact hfreed.started hs
  | child q hchild hq hr =>
    obtain ⟨rest, -, hpop⟩ := h.pop hp (by rw [hq]; exact hr.terminal) hr.pid hr.links hr.counter
      (.of_append hr.log)
    exact ⟨_, hpop⟩
  | orphan hchild hq => exact absurd ((h.parent_none hp).mpr hq) hchild

theorem Chained.cleared (h : Chained k st) : Chained (clearScreen k) st := by
  have hq := clearScreen_quiet k
  exact h.congr hq.terminal hq.pid (fun p => by rw [hq.pcbs]) (clearScreen_counter k)
    (.of_append (clearScreen_log k))

theorem Chained.turned (h : Chained k st) : Chained (nextTurn k) st :=
  h.congr rfl rfl (fun _ => rfl) rfl (.of_eq rfl)

theorem Chained.note (h : Chained k st) (o : Obs) : Chained (k.note o) st :=
  h.congr rfl rfl (fun _ => rfl) rfl (.of_append rfl)

theorem Chained.raised (h : Chained k st) (p : Fin 6) (e : Exception) : Chained (raise k p e) st :=
  h.congr rfl rfl (fun _ => rfl) rfl (.of_append rfl)

theorem Chained.fileCall (h : Chained k st) (img : Image) (p : Fin 6) (c : Call) :
    Chained (fileCall img k p c) st :=
  h.congr rfl rfl (fun i => update_proj Pcb.links k.pcbs p i (by simp only [Pcb.links])) rfl
    (.of_append rfl)

/-- One step of the kernel. -/
theorem Chained.step {img : Image} {stack : ℕ → Stack} {e : Event} (h : Chained k st)
    (hstep : step img stack k e = some k') : ∃ st', Chained k' st' := by
  obtain ⟨-, hcase⟩ := step_cases hstep
  clear hstep
  cases hcase with
  | firstShell hrun hcs hs => exact h.cleared.started hs
  | noProcess hrun hk =>
    subst hk
    exact ⟨st, h.congr rfl rfl (fun _ => rfl) rfl (.of_eq rfl)⟩
  | newShell hrun hnext hs => exact h.turned.started hs
  | turn p hrun hnext hk =>
    subst hk
    exact ⟨st, h.congr rfl rfl (fun _ => rfl) rfl (.of_append rfl)⟩
  | refused command p hrun hr => exact ⟨st, h.refused hr⟩
  | entered command p slot hrun hadm he => exact ⟨_, h.entered he⟩
  | faulted command p k₁ hrun hadm hf he =>
    have hrun₁ := hf.running_raise hrun (e := .pf)
    exact ((h.faulted hf).raised p .pf).ended hrun₁ he
  | halt status p hrun he => exact (h.note _).ended hrun he
  | exception e p hrun he => exact (h.raised p e).ended hrun he
  | call c p hrun hk =>
    subst hk
    exact ⟨st, h.fileCall img p c⟩

end Preserved

theorem Boot.chained {k : State} (h : State.Boot k) : Chained k fun _ => [] := by
  refine ⟨Boot.forest h, fun _ => ?_⟩
  rw [h.processCounter]
  rfl

/-- The chains of every reachable state. -/
theorem chained_of_run {img : Image} {stack : ℕ → Stack} {k₀ k : State} {es : List Event}
    (hb : State.Boot k₀) (hr : runs img stack k₀ es = some k) : ∃ st, Chained k st := by
  refine invariant_run (fun k => ∃ st, Chained k st) ?_ hr ⟨_, Boot.chained hb⟩
  rintro k e k' hs ⟨st, h⟩
  exact h.step hs

/-- All processes, terminal by terminal. -/
def Chains.all (st : Chains) : List (Fin 6) := st 0 ++ st 1 ++ st 2

/-- The three records of the processes agree: the chains of `parent_pcb` pointers
from the terminals, the table `pid[]`, and the counter. -/
structure RecordsAgree (k : State) (st : Chains) : Prop where
  chain : ∀ t, Linked (fun p => (k.pcbs p).parentPcb) (k.terminal t) (st t)
  distinct : (st.all.map fun p => (k.pcbs p).pid).Nodup
  range : ∀ p ∈ st.all, 0 ≤ (k.pcbs p).pid ∧ (k.pcbs p).pid ≤ 5
  root : ∀ t p, (st t).getLast? = some p →
    (k.pcbs p).parentPcb = none ∧ (k.pcbs p).parentPid = -1
  child : ∀ t, ∀ p ∈ st t, (st t).getLast? ≠ some p →
    ∃ q ∈ st t, (k.pcbs p).parentPcb = some q ∧ (k.pcbs p).parentPid = (k.pcbs q).pid
  table : ∀ i : ℤ, 0 ≤ i → i ≤ 5 → (k.pid i = occupied ↔ ∃ p ∈ st.all, (k.pcbs p).pid = i)
  counter : k.processCounter + 1 = st.all.length

section Agree
variable {k : State} {st : Chains}

theorem Chains.mem_all {p : Fin 6} : p ∈ st.all ↔ ∃ t, p ∈ st t := by
  simp only [Chains.all, List.mem_append]
  constructor
  · rintro ((h | h) | h)
    exacts [⟨0, h⟩, ⟨1, h⟩, ⟨2, h⟩]
  · rintro ⟨t, h⟩
    fin_cases t
    exacts [Or.inl (Or.inl h), Or.inl (Or.inr h), Or.inr h]

theorem Forest.all_nodup (h : Forest k st) : st.all.Nodup := by
  have hapart {t u : Fin 3} (htu : t ≠ u) : List.Disjoint (st t) (st u) :=
    fun p hp hq => htu (h.apart t u p hp hq)
  have hnodup (t : Fin 3) := linked_nodup (h.linked t)
  refine List.nodup_append'.mpr ⟨List.nodup_append'.mpr ⟨hnodup 0, hnodup 1, hapart (by decide)⟩,
    hnodup 2, ?_⟩
  exact List.disjoint_append_left.mpr ⟨hapart (by decide), hapart (by decide)⟩

theorem Forest.pid_all (h : Forest k st) {p : Fin 6} (hp : p ∈ st.all) : (k.pcbs p).pid = p := by
  obtain ⟨t, ht⟩ := Chains.mem_all.mp hp
  exact h.pid_eq t p ht

theorem Chained.agree (h : Chained k st) (hn : NeverFull k) : RecordsAgree k st where
  chain := h.linked
  distinct := by
    have hmap : st.all.map (fun p => (k.pcbs p).pid) = st.all.map (fun p : Fin 6 => (p : ℤ)) :=
      List.map_congr_left fun p hp => h.pid_all hp
    rw [hmap]
    exact h.all_nodup.map fun p q hpq => Fin.ext (by simpa using hpq)
  range := by
    intro p hp
    rw [h.pid_all hp]
    omega
  root := by
    intro t p hp
    obtain ⟨l, hl⟩ := List.getLast?_eq_some_iff.mp hp
    have hnext := linked_next (m := []) (hl ▸ h.linked t)
    refine ⟨hnext, ?_⟩
    rw [h.parent_eq t p (by simp [hl]), hnext]
    rfl
  child := by
    intro t p hp hlast
    obtain ⟨l, m, hl⟩ := List.append_of_mem hp
    have hnext := linked_next (hl ▸ h.linked t)
    cases m with
    | nil => exact absurd (by simp [hl]) hlast
    | cons q m =>
      have hq : q ∈ st t := by simp [hl]
      refine ⟨q, hq, hnext, ?_⟩
      rw [h.parent_eq t p hp, hnext, h.pid_eq t q hq]
      rfl
  table := by
    intro i h0 h5
    obtain ⟨p, rfl⟩ : ∃ p : Fin 6, (p : ℤ) = i := ⟨⟨i.toNat, by omega⟩, by simpa using h0⟩
    by_cases hp : ∃ t, p ∈ st t
    · obtain ⟨t, ht⟩ := hp
      refine iff_of_true (h.occupied_eq t p ht) ⟨p, Chains.mem_all.mpr ⟨t, ht⟩, h.pid_eq t p ht⟩
    · refine iff_of_false ?_ ?_
      · rw [h.vacant_eq p (not_exists.mp hp)]
        decide
      · rintro ⟨q, hq, hpid⟩
        rw [h.pid_all hq] at hpid
        obtain rfl : q = p := Fin.ext (by simpa using hpid)
        exact hp (Chains.mem_all.mp hq)
  counter := by
    rw [h.counted hn, total, Chains.all, List.length_append, List.length_append]

end Agree

/-- In every reachable state, as long as `find_pid` has not failed, the three
records of the processes agree. -/
theorem records_agree (img : Image) (stack : ℕ → Stack) (k₀ k : State) (es : List Event)
    (hb : State.Boot k₀) (hr : runs img stack k₀ es = some k)
    (hpid : .findPid (-1) ∉ k.trace.log) : ∃ st, RecordsAgree k st := by
  obtain ⟨st, h⟩ := chained_of_run hb hr
  exact ⟨st, h.agree hpid⟩

/-- A shell that starts a second one and sees it end. -/
theorem records_agree_shell : ∃ k st,
    shellRuns [.tick, .execute (some shellName), .halt 0] = some k ∧ RecordsAgree k st := by
  obtain ⟨k, hk, hlog⟩ := shellRuns_eval [.tick, .execute (some shellName), .halt 0]
    (fun k => .findPid (-1) ∉ k.trace.log) (by decide)
  obtain ⟨st, h⟩ := records_agree _ _ _ _ _ State.cleared_boot hk hlog
  exact ⟨k, st, hk, h⟩

end Ece391.Kernel

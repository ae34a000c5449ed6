import Ece391.Kernel.Moves
import Ece391.Support.Linked

/-! The processes of a terminal form a chain from the running one to its root. The
three chains are disjoint, and the pids on them are exactly the occupied ones.
Starting a process makes one chain longer by a vacant slot and ending one makes a
chain shorter by its head; nothing else touches the links. -/

namespace Ece391.Kernel

open Function (update)
open Lib FileSys Syscall Support

/-- The chains of the three terminals, from the running process to the root. -/
abbrev Chains := Fin 3 → List (Fin 6)

/-- The links of the PCBs form these chains. -/
structure Forest (k : State) (st : Chains) : Prop where
  linked : ∀ t, Linked (fun p => (k.pcbs p).parentPcb) (k.terminal t) (st t)
  apart : ∀ t u p, p ∈ st t → p ∈ st u → t = u
  pid_eq : ∀ t, ∀ p ∈ st t, (k.pcbs p).pid = p
  parent_eq : ∀ t, ∀ p ∈ st t, (k.pcbs p).parentPid = pidValue (k.pcbs p).parentPcb
  occupied_eq : ∀ t, ∀ p ∈ st t, k.pid p = occupied
  vacant_eq : ∀ p, (∀ t, p ∉ st t) → k.pid p = vacant

theorem Boot.forest {k : State} (h : State.Boot k) : Forest k fun _ => [] where
  linked t := h.terminal t
  apart := by simp
  pid_eq := by simp
  parent_eq := by simp
  occupied_eq := by simp
  vacant_eq p _ := h.pid p

/-- A store to one element of `pid[]` is not seen at another. -/
theorem update_pid_of_ne {pid : ℤ → ℤ} {p q : Fin 6} (h : q ≠ p) (v : ℤ) :
    update pid p v q = pid q := by
  apply Function.update_of_ne
  exact fun he => h (Fin.ext (by omega))

section Links
variable {k k' : State} {st : Chains}

/-- Only the terminals, the pids and the links matter. -/
theorem Forest.congr (h : Forest k st) (hterm : k'.terminal = k.terminal) (hpid : k'.pid = k.pid)
    (hlinks : ∀ p, (k'.pcbs p).links = (k.pcbs p).links) : Forest k' st := by
  have hl (p : Fin 6) := Pcb.links_eq (hlinks p)
  refine ⟨fun t => ?_, h.apart, fun t p hp => ?_, fun t p hp => ?_, fun t p hp => ?_, fun p hp => ?_⟩
  · rw [hterm]
    exact linked_congr (h.linked t) fun p _ => (hl p).2.2
  · rw [(hl p).1, h.pid_eq t p hp]
  · rw [(hl p).2.1, (hl p).2.2, h.parent_eq t p hp]
  · rw [hpid, h.occupied_eq t p hp]
  · rw [hpid, h.vacant_eq p hp]

/-- A process of a chain has a vacant slot nowhere. -/
theorem Forest.not_mem (h : Forest k st) {p : Fin 6} (hp : k.pid p = vacant) (t : Fin 3) :
    p ∉ st t := by
  intro hmem
  have := h.occupied_eq t p hmem
  rw [hp] at this
  exact absurd this (by decide)

theorem Forest.running_eq (h : Forest k st) {p : Fin 6} (hp : k.running = some p) :
    ∃ rest, st k.currScheduler = p :: rest ∧
      Linked (fun q => (k.pcbs q).parentPcb) (k.pcbs p).parentPcb rest := by
  have hl := h.linked k.currScheduler
  rw [show k.terminal k.currScheduler = some p from hp] at hl
  exact linked_some hl

theorem Forest.running_mem (h : Forest k st) {p : Fin 6} (hp : k.running = some p) :
    p ∈ st k.currScheduler := by
  obtain ⟨rest, hst, -⟩ := h.running_eq hp
  rw [hst]
  exact List.mem_cons_self

theorem Forest.running_ne (h : Forest k st) {p : Fin 6} (hp : k.pid p = vacant) :
    k.running ≠ some p :=
  fun hr => h.not_mem hp k.currScheduler (h.running_mem hr)

theorem mem_push (st : Chains) (t u : Fin 3) (slot p : Fin 6) :
    p ∈ update st t (slot :: st t) u ↔ (u = t ∧ p = slot) ∨ p ∈ st u := by
  by_cases hu : u = t
  · subst hu
    simp
  · simp [hu]

/-- A vacant slot put in front of a chain. -/
theorem Forest.push (h : Forest k st) {t : Fin 3} {slot : Fin 6} (hv : k.pid slot = vacant)
    (hterm : k'.terminal = update k.terminal t (some slot))
    (hpid : k'.pid = update k.pid slot occupied)
    (hslot : (k'.pcbs slot).links = (↑slot, pidValue (k.terminal t), k.terminal t))
    (hother : ∀ p ≠ slot, (k'.pcbs p).links = (k.pcbs p).links) :
    Forest k' (update st t (slot :: st t)) := by
  have hnot := h.not_mem hv
  have hslot' : (k'.pcbs slot).pid = slot ∧ (k'.pcbs slot).parentPid = pidValue (k.terminal t) ∧
      (k'.pcbs slot).parentPcb = k.terminal t := by
    simpa [Pcb.links] using hslot
  have hl (p : Fin 6) (hp : p ≠ slot) := Pcb.links_eq (hother p hp)
  have hmem (u : Fin 3) (p : Fin 6) := mem_push st t u slot p
  have hne (u : Fin 3) (p : Fin 6) (hp : p ∈ st u) : p ≠ slot := by
    rintro rfl
    exact hnot u hp
  refine ⟨fun u => ?_, fun u v p => ?_, fun u p => ?_, fun u p => ?_, fun u p => ?_, fun p hp => ?_⟩
  · rw [hterm]
    by_cases hu : u = t
    · subst hu
      rw [Function.update_self, Function.update_self]
      exact linked_push (h.linked u) hslot'.2.2 fun p hp => (hl p (hne u p hp)).2.2
    · rw [Function.update_of_ne hu, Function.update_of_ne hu]
      exact linked_congr (h.linked u) fun p hp => (hl p (hne u p hp)).2.2
  · rw [hmem, hmem]
    rintro (⟨rfl, rfl⟩ | hu) (⟨rfl, hs⟩ | hv')
    · rfl
    · exact absurd hv' (hnot v)
    · exact absurd hs (hne u p hu)
    · exact h.apart u v p hu hv'
  · rw [hmem]
    rintro (⟨-, rfl⟩ | hp)
    · exact hslot'.1
    · rw [(hl p (hne u p hp)).1, h.pid_eq u p hp]
  · rw [hmem]
    rintro (⟨-, rfl⟩ | hp)
    · rw [hslot'.2.1, hslot'.2.2]
    · rw [(hl p (hne u p hp)).2.1, (hl p (hne u p hp)).2.2, h.parent_eq u p hp]
  · rw [hmem, hpid]
    rintro (⟨-, rfl⟩ | hp)
    · exact Function.update_self _ _ _
    · rw [update_pid_of_ne (hne u p hp), h.occupied_eq u p hp]
  · have hps : p ≠ slot := fun he => hp t ((hmem t p).mpr (Or.inl ⟨rfl, he⟩))
    rw [hpid, update_pid_of_ne hps]
    exact h.vacant_eq p fun u hu => hp u ((hmem u p).mpr (Or.inr hu))

/-- A process is on one chain at most, and there only once. -/
theorem Forest.mem_pop (h : Forest k st) {t : Fin 3} {p : Fin 6} {rest : List (Fin 6)}
    (hst : st t = p :: rest) (u : Fin 3) (q : Fin 6) :
    q ∈ update st t rest u ↔ q ∈ st u ∧ q ≠ p := by
  by_cases hu : u = t
  · subst hu
    have hnodup := linked_nodup (h.linked u)
    rw [hst] at hnodup
    rw [Function.update_self, hst, List.mem_cons]
    constructor
    · intro hq
      refine ⟨Or.inr hq, ?_⟩
      rintro rfl
      exact (List.nodup_cons.mp hnodup).1 hq
    · rintro ⟨hq | hq, hne⟩
      · exact absurd hq hne
      · exact hq
  · rw [Function.update_of_ne hu, iff_self_and]
    rintro hq rfl
    exact hu (h.apart u t q hq (by simp [hst]))

/-- The head of a chain taken off and its slot freed. -/
theorem Forest.pop (h : Forest k st) {t : Fin 3} {p : Fin 6} {rest : List (Fin 6)}
    (hst : st t = p :: rest)
    (hterm : k'.terminal = update k.terminal t (k.pcbs p).parentPcb)
    (hpid : k'.pid = update k.pid p vacant)
    (hlinks : ∀ q, (k'.pcbs q).links = (k.pcbs q).links) : Forest k' (update st t rest) := by
  have hl (q : Fin 6) := Pcb.links_eq (hlinks q)
  have hmem := h.mem_pop hst
  have hchain := h.linked t
  rw [hst] at hchain
  refine ⟨fun u => ?_, fun u v q => ?_, fun u q => ?_, fun u q => ?_, fun u q => ?_, fun q hq => ?_⟩
  · rw [hterm]
    by_cases hu : u = t
    · subst hu
      rw [Function.update_self, Function.update_self]
      exact linked_congr hchain.2 fun q _ => (hl q).2.2
    · rw [Function.update_of_ne hu, Function.update_of_ne hu]
      exact linked_congr (h.linked u) fun q _ => (hl q).2.2
  · rw [hmem, hmem]
    rintro ⟨hu, -⟩ ⟨hv, -⟩
    exact h.apart u v q hu hv
  · rw [hmem]
    rintro ⟨hu, -⟩
    rw [(hl q).1, h.pid_eq u q hu]
  · rw [hmem]
    rintro ⟨hu, -⟩
    rw [(hl q).2.1, (hl q).2.2, h.parent_eq u q hu]
  · rw [hmem, hpid]
    rintro ⟨hu, hne⟩
    rw [update_pid_of_ne hne, h.occupied_eq u q hu]
  · rw [hpid]
    by_cases hqp : q = p
    · subst hqp
      exact Function.update_self _ _ _
    · rw [update_pid_of_ne hqp]
      exact h.vacant_eq q fun u hu => hq u ((hmem u q).mpr ⟨hu, hqp⟩)

end Links

end Ece391.Kernel

import Ece391.Kernel.Isolation

/-! Whose stores change the frame of a process. An operation spares a process if it
neither ends it nor touches its frame; everything that happens while another process runs
does. What is left are the stores of the program itself and those the kernel makes for
it, and the frame is what these make of it. -/

namespace Ece391.Kernel

open Function (update)
open Lib FileSys Syscall Devices Support.Runs

/-! ### Sparing a process -/

/-- The process `p`, if there is one, goes on with the same memory. -/
def SparesUser (p : Fin 6) (k k' : State) : Prop :=
  k.pid p = occupied → k'.pid p = occupied ∧ k'.userPage p = k.userPage p

section SparesUser
variable {p : Fin 6} {k k' k'' : State}

theorem SparesUser.of_eq (hpid : k'.pid = k.pid) (hpage : k'.userPage = k.userPage) : SparesUser p k k' :=
  fun h => ⟨by rw [hpid, h], by rw [hpage]⟩

theorem SparesUser.trans (h : SparesUser p k k') (h' : SparesUser p k' k'') : SparesUser p k k'' := by
  intro hk
  obtain ⟨hpid, hpage⟩ := h hk
  obtain ⟨hpid', hpage'⟩ := h' hpid
  exact ⟨hpid', hpage'.trans hpage⟩

theorem enter_spares (img : Image) (stack : Stack) (act : ℕ) {slot : Fin 6} (d : Dentry)
    (arg : List UInt8) (hslot : k.pid slot = vacant) : SparesUser p k (enter img stack k act slot d arg) := by
  intro hp
  have hne : p ≠ slot := by
    rintro rfl
    exact absurd (hp.symm.trans hslot) (by decide)
  have hpid : update k.pid slot occupied p = occupied := (update_pid_of_ne hne _).trans hp
  simp only [enter]
  split_ifs
  · exact ⟨hpid, rfl⟩
  · exact ⟨hpid, Function.update_of_ne hne _ _⟩

theorem execute_spares (img : Image) (stack : ℕ → Stack) (k : State) (command : Option CString) :
    SparesUser p k (execute img stack k command).1 := by
  simp only [execute]
  cases admission img (stack k.trace.activations) (beginCall k) command with
  | refused message => exact .of_eq rfl rfl
  | admitted d arg =>
    cases hfind : findPid (beginCall k).pid with
    | none => exact .of_eq rfl rfl
    | some slot =>
      have hclaim : SparesUser p k (claimPid (beginCall k) (some slot)) := .of_eq rfl rfl
      exact hclaim.trans (enter_spares img _ _ d arg (findPid_eq_some hfind))

theorem startShell_spares (img : Image) (stack : ℕ → Stack) (k : State) :
    SparesUser p k (startShell img stack k) := by
  have hexec := execute_spares (p := p) img stack k (some shellName)
  simp only [startShell]
  rcases hk' : execute img stack k (some shellName) with ⟨k', r⟩
  rw [hk'] at hexec
  cases r with
  | entered => exact hexec
  | returned => exact hexec.trans (.of_eq rfl rfl)
  | pageFault => exact hexec.trans (.of_eq rfl rfl)

/-- The end of another process. -/
theorem halt_spares (img : Image) (stack : ℕ → Stack) {q : Fin 6} (status : UInt8)
    (hq : (k.pcbs q).pid ≠ p) : SparesUser p k (halt img stack k q status) := by
  have hfree : SparesUser p k { k with pid := update k.pid (k.pcbs q).pid vacant } := by
    intro hp
    exact ⟨(Function.update_of_ne hq.symm _ _).trans hp, rfl⟩
  simp only [halt]
  split_ifs
  · have hfreed : SparesUser p k (freed k q) := hfree
    exact hfreed.trans (startShell_spares img stack _)
  · cases (k.pcbs q).parentPcb with
    | none => exact hfree
    | some i =>
      simp only [resume_eq]
      exact hfree

theorem trap_spares (img : Image) (stack : ℕ → Stack) {q : Fin 6} (e : Exception)
    (hq : (k.pcbs q).pid ≠ p) : SparesUser p k (trap img stack k q e) := by
  have hraise : SparesUser p k (raise k q e) := .of_eq rfl rfl
  exact hraise.trans (halt_spares img stack 1 hq)

theorem executeBy_spares (img : Image) (stack : ℕ → Stack) {q : Fin 6} (command : Option CString)
    (hq : (k.pcbs q).pid ≠ p ∨ ¬ Traps img stack k (.execute command)) :
    SparesUser p k (executeBy img stack k q command) := by
  have hexec := execute_spares (p := p) img stack k command
  have hcases := execute_cases img stack k command
  simp only [executeBy]
  rcases hk' : execute img stack k command with ⟨k', r⟩
  rw [hk'] at hexec
  simp only [hk'] at hcases
  rcases hcases with ⟨rfl, -⟩ | ⟨rfl, hadm, hf⟩ | ⟨rfl, -⟩
  · exact hexec
  · have hother : (k.pcbs q).pid ≠ p := hq.resolve_right fun h => h ⟨hadm, hf.full⟩
    exact hexec.trans (trap_spares img stack .pf (by rwa [hf.pcbs]))
  · exact hexec

theorem scheduler_spares (img : Image) (stack : ℕ → Stack) (k : State) :
    SparesUser p k (scheduler img stack k) := by
  unfold scheduler
  cases k.running with
  | none =>
    dsimp only
    split_ifs
    · have hclear : SparesUser p k (clearScreen k) :=
        .of_eq (clearScreen_quiet k).pid (by simp only [clearScreen])
      exact hclear.trans (startShell_spares img stack _)
    · exact .of_eq rfl rfl
  | some i =>
    cases (nextTurn k).running with
    | none =>
      have hturn : SparesUser p k (nextTurn k) := .of_eq rfl rfl
      exact hturn.trans (startShell_spares img stack _)
    | some j => exact .of_eq rfl rfl

end SparesUser

/-! ### The stores of a program -/

/-- The bytes of a word in memory. -/
def wordBytes (word : ℕ) : List UInt8 :=
  (List.range 4).map fun i => (word / 256 ^ i).toUInt8

/-- What the running program stores into its frame with an event, by offset. -/
def ownStores (img : Image) (k : State) (p : Fin 6) : UserEvent → List (ℕ × List UInt8)
  | .store addr byte =>
    if FitsPage addr.toNat 1 then [(addr.toNat - lowerboundVid, [byte])] else []
  | .readTo fd addr nbytes keyBuf =>
    let bytes := readBytes img k p fd addr nbytes keyBuf
    if FitsPage addr bytes.length then [(addr - lowerboundVid, bytes)] else []
  | .getargsTo addr nbytes =>
    let bytes := getargsBytes k p addr nbytes
    if FitsPage addr bytes.length then [(addr - lowerboundVid, bytes)] else []
  | .video (.vidmap screenStart) =>
    if AcceptsPointer screenStart ∧ screenStart + 4 ≤ upperboundVid then
      [(screenStart - lowerboundVid, wordBytes mb136)] else []
  | .video _ => []

/-- A frame after a list of stores. -/
def stored (page : ℕ → UInt8) (stores : List (ℕ × List UInt8)) : ℕ → UInt8 :=
  stores.foldl (fun page s => splice page s.1 s.2) page

/-- The stores of the program of `p` along a run, in order. -/
def storesOf (tablePage : ℕ) (img : Image) (stack : ℕ → Stack) (p : Fin 6) :
    State → List UserEvent → List (ℕ × List UInt8)
  | _, [] => []
  | k, e :: es =>
    (if k.running = some p then ownStores img k p e else []) ++
      match userStep tablePage img stack k e with
      | some k' => storesOf tablePage img stack p k' es
      | none => []

/-- The event ends the program of `p`: it halts, or it faults. -/
def EndsUser (tablePage : ℕ) (img : Image) (stack : ℕ → Stack) (p : Fin 6) (k : State) :
    UserEvent → Prop
  | .video (.kernel (.halt _)) => k.running = some p
  | .video (.kernel e) => k.running = some p ∧ Traps img stack k e
  | .video (.vidmap screenStart) =>
    k.running = some p ∧ AcceptsPointer screenStart ∧ upperboundVid < screenStart + 4
  | .store addr _ => k.running = some p ∧ userTranslate tablePage k addr.toNat = none
  | _ => False

instance decidableEndsUser (tablePage : ℕ) (img : Image) (stack : ℕ → Stack) (p : Fin 6) (k : State) :
    (e : UserEvent) → Decidable (EndsUser tablePage img stack p k e)
  | .video (.kernel (.halt _)) => inferInstanceAs (Decidable (_ = _))
  | .video (.kernel (.execute _)) => inferInstanceAs (Decidable (_ ∧ _))
  | .video (.kernel (.exception _)) => inferInstanceAs (Decidable (_ ∧ _))
  | .video (.kernel .tick) => inferInstanceAs (Decidable (_ ∧ _))
  | .video (.kernel (.call _)) => inferInstanceAs (Decidable (_ ∧ _))
  | .video (.vidmap _) => inferInstanceAs (Decidable (_ ∧ _ ∧ _))
  | .video (.switch _) => isFalse id
  | .store _ _ => inferInstanceAs (Decidable (_ ∧ _))
  | .readTo _ _ _ _ => isFalse id
  | .getargsTo _ _ => isFalse id

theorem stored_append (page : ℕ → UInt8) (s t : List (ℕ × List UInt8)) :
    stored page (s ++ t) = stored (stored page s) t := List.foldl_append

theorem stored_singleton (page : ℕ → UInt8) (start : ℕ) (bytes : List UInt8) :
    stored page [(start, bytes)] = splice page start bytes := rfl

theorem splice_nil (page : ℕ → UInt8) (start : ℕ) : splice page start [] = page := by
  funext o
  rw [splice, if_neg]
  simp only [List.length_nil]
  omega

theorem splice_singleton (page : ℕ → UInt8) (start : ℕ) (byte : UInt8) :
    splice page start [byte] = update page start byte := by
  funext o
  rw [splice, Function.update_apply]
  by_cases ho : o = start
  · subst ho
    simp
  · rw [if_neg ho, if_neg]
    simp only [List.length_singleton]
    omega

theorem storeWord_eq_splice (page : ℕ → UInt8) (start word : ℕ) :
    storeWord page start word = splice page start (wordBytes word) := by
  funext o
  simp only [storeWord, splice, wordBytes, List.length_map, List.length_range]
  split_ifs with h
  · rw [List.getD_eq_getElem _ _ (by simp; omega)]
    simp
  · rfl

/-! ### One event -/

section Steps
variable {tablePage : ℕ} {img : Image} {stack : ℕ → Stack} {p : Fin 6} {k k' : State}

/-- What an event does to the process `p`: it goes on, and its frame is as the stores of
its own program leave it. -/
def Owns (img : Image) (p : Fin 6) (k k' : State) (e : UserEvent) : Prop :=
  k.pid p = occupied → k'.pid p = occupied ∧
    k'.userPage p = stored (k.userPage p) (if k.running = some p then ownStores img k p e else [])

/-- An event that spares `p`, while its program stores nothing. -/
theorem SparesUser.owns {e : UserEvent} (h : SparesUser p k k')
    (hnone : k.running = some p → ownStores img k p e = []) : Owns img p k k' e := by
  intro hk
  obtain ⟨hpid, hpage⟩ := h hk
  refine ⟨hpid, ?_⟩
  split_ifs with hrun
  · rw [hnone hrun, hpage]
    rfl
  · exact hpage

/-- The bytes that an operation for the running process stores. -/
theorem Owns.of_page {q : Fin 6} (hrun : k.running = some q) {e : UserEvent}
    (hpid : k'.pid = k.pid) (hother : ∀ i ≠ q, k'.userPage i = k.userPage i)
    (hown : k'.userPage q = stored (k.userPage q) (ownStores img k q e)) : Owns img p k k' e := by
  intro hk
  refine ⟨by rw [hpid, hk], ?_⟩
  by_cases hp : p = q
  · subst hp
    rw [if_pos hrun, hown]
  · rw [if_neg (by rw [hrun, Option.some.injEq]; exact Ne.symm hp), hother p hp]
    rfl

theorem Walled.pid_ne (h : Walled tablePage k) {q : Fin 6} (hrun : k.running = some q)
    (hq : k.running ≠ some p) : (k.pcbs q).pid ≠ p := by
  obtain ⟨st, hc⟩ := h.housed.chained
  rw [hc.pid_eq k.currScheduler q (hc.running_mem hrun)]
  intro heq
  exact hq (hrun.trans (congrArg some (Fin.ext (by omega))))

theorem deliver_owns {q : Fin 6} (k₁ : State) (addr : ℕ) (bytes : List UInt8)
    (hpage : k₁.userPage = k.userPage) :
    (∀ i ≠ q, (deliver k₁ q addr bytes).userPage i = k.userPage i) ∧
    (deliver k₁ q addr bytes).userPage q = stored (k.userPage q)
      (if FitsPage addr bytes.length then [(addr - lowerboundVid, bytes)] else []) := by
  unfold deliver
  by_cases hbytes : bytes = []
  · subst hbytes
    rw [if_pos rfl, hpage]
    refine ⟨fun _ _ => rfl, ?_⟩
    split_ifs
    · rw [stored_singleton, splice_nil]
    · rfl
  · rw [if_neg hbytes]
    by_cases hfits : FitsPage addr bytes.length
    · rw [if_pos hfits, if_pos hfits, hpage, stored_singleton]
      dsimp only
      exact ⟨fun i hi => Function.update_of_ne hi _ _, Function.update_self _ _ _⟩
    · rw [if_neg hfits, if_neg hfits]
      exact ⟨fun i _ => congrFun hpage i, congrFun hpage q⟩

theorem vidmap_owns {q : Fin 6} (hrun : k.running = some q) (hq : k.running ≠ some p →
    (k.pcbs q).pid ≠ p) {screenStart : ℕ}
    (hend : ¬ EndsUser tablePage img stack p k (.video (.vidmap screenStart))) :
    Owns img p k (vidmap tablePage img stack k q screenStart).1 (.video (.vidmap screenStart)) := by
  by_cases hs : AcceptsPointer screenStart
  · by_cases hroom : screenStart + 4 ≤ upperboundVid
    · have hstores : ownStores img k q (.video (.vidmap screenStart)) =
          [(screenStart - lowerboundVid, wordBytes mb136)] := if_pos ⟨hs, hroom⟩
      simp only [vidmap, hs, hroom, if_true]
      refine .of_page hrun (openWindow_same tablePage k).pid
        (fun i hi => Function.update_of_ne hi _ _) ?_
      rw [hstores, stored_singleton, ← storeWord_eq_splice]
      exact Function.update_self _ _ _
    · simp only [vidmap, hs, hroom, if_true, if_false]
      have hp : k.running ≠ some p := fun hp => hend ⟨hp, hs, by omega⟩
      have hopen : SparesUser p k (openWindow tablePage k) :=
        .of_eq (openWindow_same tablePage k).pid (by simp only [openWindow, mapVideoMemory])
      exact (hopen.trans (trap_spares img stack .pf (hq hp))).owns fun h => absurd h hp
  · simp only [vidmap, hs, if_false]
    exact SparesUser.owns (.of_eq rfl rfl) fun _ => by simp [ownStores, hs]

theorem storePhys_frame {phys : ℕ} {q : Fin 6} (hframe : frameOf phys = some q) (k : State)
    (byte : UInt8) : storePhys k phys byte =
      { k with userPage := update k.userPage q (splice (k.userPage q) (frameOffset phys) [byte]) } := by
  simp only [storePhys, hframe, splice_singleton]

theorem storePhys_screen {phys : ℕ} (hframe : frameOf phys = none) (k : State) (byte : UInt8) :
    SparesUser p k (storePhys k phys byte) := by
  simp only [storePhys, hframe]
  split_ifs <;> exact .of_eq rfl rfl

theorem userMap_owns {window : Option ℕ} (hwindow : ∀ s ∈ window, IsScreen s) {q : Fin 6}
    {addr phys : ℕ} (haddr : userMap q window addr = some phys) :
    FitsPage addr 1 ∧ addr - lowerboundVid < mb4 ∧ phys = frame q + (addr - lowerboundVid) ∨
    ¬ FitsPage addr 1 ∧ frameOf phys = none := by
  rw [userMap] at haddr
  split_ifs at haddr with hpage hscreen
  · refine .inl ⟨hpage, ?_, (Option.some.inj haddr).symm⟩
    simp only [lowerboundVid, upperboundVid, mb4] at *
    omega
  · obtain ⟨s, hs, rfl⟩ := Option.map_eq_some_iff.mp haddr
    exact .inr ⟨hpage, (frameOf_screen (hwindow s hs) (by omega)).1⟩

theorem Guarded.screens (h : Guarded tablePage k) :
    ∀ s ∈ (if k.pageDirectory 34 = 0 then none else some (k.pageTableVideo 0 - vidMemFlag)),
      IsScreen s := by
  intro s hs
  rcases h.window with hclosed | ⟨-, s', hs', hentry⟩
  · simp [hclosed] at hs
  · rw [hentry, (screenEntry hs').1, Nat.add_sub_cancel] at hs
    split_ifs at hs
    · cases hs
    · exact Option.mem_some_iff.mp hs ▸ hs'

theorem storePhys_owns (h : Walled tablePage k) {q : Fin 6} (hq : UserRuns k q) {addr : UInt32}
    {phys : ℕ} {byte : UInt8} (haddr : userTranslate tablePage k addr.toNat = some phys) :
    Owns img p k (storePhys k phys byte) (.store addr byte) := by
  have hmap := userTranslate_eq h.guarded (h.page hq) addr.toNat_lt
  rw [haddr] at hmap
  rcases userMap_owns h.guarded.screens hmap.symm with ⟨hfits, hoffset, hphys⟩ | ⟨hfits, hframe⟩
  · obtain ⟨hframe, hmod⟩ := frameOf_frame q hoffset
    rw [hphys, storePhys_frame hframe, hmod]
    have hstores : ownStores img k q (.store addr byte) =
        [(addr.toNat - lowerboundVid, [byte])] := if_pos hfits
    refine .of_page hq.2 rfl (fun i hi => Function.update_of_ne hi _ _) ?_
    rw [hstores, stored_singleton]
    exact Function.update_self _ _ _
  · have hstores : ownStores img k p (.store addr byte) = [] := if_neg hfits
    exact (storePhys_screen hframe k byte).owns fun _ => hstores

/-- An event of the kernel alone. -/
theorem step_owns (h : Walled tablePage k) {e : Event} (hstep : step img stack k e = some k')
    (hend : ¬ EndsUser tablePage img stack p k (.video (.kernel e))) :
    Owns img p k k' (.video (.kernel e)) := by
  refine SparesUser.owns ?_ fun _ => rfl
  obtain ⟨hlost, hcase⟩ := step_by hstep
  by_cases he : e = .tick
  · subst he
    have hk : scheduler img stack k = k' := by simpa [step, hlost] using hstep
    exact hk ▸ scheduler_spares img stack k
  cases hcase with
  | firstShell | noProcess | newShell | turn => exact absurd rfl he
  | execute command q hrun =>
    refine executeBy_spares img stack command ?_
    by_cases hp : k.running = some p
    · exact .inr fun htraps => hend ⟨hp, htraps⟩
    · exact .inl (h.pid_ne hrun hp)
  | halt status q hrun =>
    have hnote : SparesUser p k (k.note (.ended (k.trace.born q) status)) := .of_eq rfl rfl
    exact hnote.trans (halt_spares img stack status (h.pid_ne hrun hend))
  | exception x q hrun =>
    exact trap_spares img stack x (h.pid_ne hrun fun hp => hend ⟨hp, trivial⟩)
  | call c q hrun => exact .of_eq rfl rfl

/-- Any event that does not end the program of `p`. -/
theorem userStep_owns (h : Walled tablePage k) {e : UserEvent}
    (hstep : userStep tablePage img stack k e = some k') (hend : ¬ EndsUser tablePage img stack p k e) :
    Owns img p k k' e := by
  have hlost := userStep_lost hstep
  cases userStep_by hstep with
  | video e hs =>
    cases e with
    | kernel e => exact step_owns h hs hend
    | switch n =>
      simp only [videoStep, hlost, Bool.false_eq_true, if_false, Option.some.injEq] at hs
      subst hs
      exact SparesUser.owns (.of_eq rfl rfl) fun _ => rfl
    | vidmap screenStart =>
      simp only [videoStep, hlost, Bool.false_eq_true, if_false] at hs
      obtain ⟨q, hrun, rfl⟩ := Option.map_eq_some_iff.mp hs
      exact vidmap_owns hrun (h.pid_ne hrun) hend
  | fault q addr byte hrun haddr hk =>
    subst hk
    have hp : k.running ≠ some p := fun hp => hend ⟨hp, haddr⟩
    exact (trap_spares img stack .pf (h.pid_ne hrun hp)).owns fun hp' => absurd hp' hp
  | stored q addr byte phys hrun haddr hk => exact hk ▸ storePhys_owns h ⟨hlost, hrun⟩ haddr
  | readTo q fd addr nbytes keyBuf hrun hk =>
    subst hk
    have hpage := deliver_owns (q := q) (fileCall img k q (readCall fd addr nbytes keyBuf)) addr
      (readBytes img k q fd addr nbytes keyBuf) (k := k) rfl
    exact .of_page hrun (deliver_same _ q addr _).1.pid hpage.1 hpage.2
  | getargsTo q addr nbytes hrun hk =>
    subst hk
    have hpage := deliver_owns (q := q) k addr (getargsBytes k q addr nbytes) rfl
    exact .of_page hrun (deliver_same _ q addr _).1.pid hpage.1 hpage.2

end Steps

/-! ### Runs -/

theorem run_owns {tablePage : ℕ} {img : Image} {stack : ℕ → Stack} {p : Fin 6} {k k' : State}
    {es : List UserEvent} (h : Walled tablePage k)
    (hr : run (userStep tablePage img stack) k es = some k')
    (hend : Along (userStep tablePage img stack) (fun k e => ¬ EndsUser tablePage img stack p k e) k es)
    (hk : k.pid p = occupied) :
    k'.pid p = occupied ∧
      k'.userPage p = stored (k.userPage p) (storesOf tablePage img stack p k es) := by
  induction es generalizing k with
  | nil =>
    obtain rfl : k = k' := by simpa [run] using hr
    exact ⟨hk, rfl⟩
  | cons e es ih =>
    obtain ⟨m, hm, hr⟩ := run_cons_eq_some.mp hr
    obtain ⟨hpid, hpage⟩ := userStep_owns h hm hend.1 hk
    have hwalled : Walled tablePage m := ⟨h.guarded.step hm, h.housed.userStep hm⟩
    obtain ⟨hpid', hpage'⟩ := ih hwalled hr (hend.2 m hm) hpid
    refine ⟨hpid', ?_⟩
    rw [hpage', hpage, storesOf, hm, stored_append]

theorem loadPhys_frame {phys : ℕ} {q : Fin 6} (hframe : frameOf phys = some q) (k : State) :
    loadPhys k phys = some (k.userPage q (frameOffset phys)) := by
  simp only [loadPhys, hframe]

theorem userLoad_page {tablePage : ℕ} {k : State} (h : Walled tablePage k) {p : Fin 6}
    (hp : UserRuns k p) {addr : ℕ} (haddr : lowerboundVid ≤ addr ∧ addr < upperboundVid) :
    userLoad tablePage k addr = some (k.userPage p (addr - lowerboundVid)) := by
  have hoffset : addr - lowerboundVid < mb4 := by
    simp only [lowerboundVid, upperboundVid, mb4] at *
    omega
  obtain ⟨hframe, hmod⟩ := frameOf_frame p hoffset
  rw [userLoad, userTranslate_page (h.page hp) haddr, Option.bind_some, loadPhys_frame hframe, hmod]

/-- The frame of a process is the work of its own program. From any reachable state on, as
long as this program does not halt or fault, the frame holds what it held with the stores
of the program, and those the kernel made into buffers it passed, put over it in order,
whatever other processes run, start, end, draw or store meanwhile; and this is what the
program reads whenever it runs. -/
theorem memory_is_own (tablePage : ℕ) (img : Image) (stack : ℕ → Stack) (k₀ k k' : State)
    (es fs : List UserEvent) (hb : State.Boot k₀)
    (hr : run (userStep tablePage img stack) (pagingInit tablePage k₀) es = some k) (p : Fin 6)
    (hlive : k.pid p = occupied) (hr' : run (userStep tablePage img stack) k fs = some k')
    (hend : Along (userStep tablePage img stack) (fun k e => ¬ EndsUser tablePage img stack p k e) k fs) :
    k'.pid p = occupied ∧
      k'.userPage p = stored (k.userPage p) (storesOf tablePage img stack p k fs) ∧
      (UserRuns k' p → ∀ addr, lowerboundVid ≤ addr → addr < upperboundVid →
        userLoad tablePage k' addr = some (k'.userPage p (addr - lowerboundVid))) := by
  obtain ⟨hpid, hpage⟩ := run_owns (walled_of_run hb hr) hr' hend hlive
  refine ⟨hpid, hpage, fun hp addr hlow hhigh => ?_⟩
  have hrun : run (userStep tablePage img stack) (pagingInit tablePage k₀) (es ++ fs) = some k' := by
    rw [run_append, hr, Option.bind_some, hr']
  exact userLoad_page (walled_of_run hb hrun) hp ⟨hlow, hhigh⟩

/-- The first shell stores a byte, the second one stores another at the same address, and
the first finds its own when its turn comes again. -/
theorem memory_is_own_two_shells : ∃ k', userRuns ([.video (.kernel .tick)] ++
      [.store 0x8000010 0x41, .video (.kernel .tick), .store 0x8000010 0x42, .video (.kernel .tick),
        .video (.kernel .tick)]) = some k' ∧
    userLoad 0x500 k' 0x8000010 = some 0x41 := by
  set fs : List UserEvent := [.store 0x8000010 0x41, .video (.kernel .tick),
    .store 0x8000010 0x42, .video (.kernel .tick), .video (.kernel .tick)]
  obtain ⟨k, hr, hlive, hend, hstores, hrest⟩ := run_eval (userStep 0x500 shellImage fun _ => .zero)
    (pagingInit 0x500 .cleared) [.video (.kernel .tick)]
    (fun k => k.pid (0 : Fin 6) = occupied ∧
      Along (userStep 0x500 shellImage fun _ => .zero)
        (fun k e => ¬ EndsUser 0x500 shellImage (fun _ => .zero) 0 k e) k fs ∧
      storesOf 0x500 shellImage (fun _ => .zero) 0 k fs = [(0x10, [0x41])] ∧
      (run (userStep 0x500 shellImage fun _ => .zero) k fs).any
        (fun k' => decide (UserRuns k' 0)) = true) (by decide +kernel)
  obtain ⟨k', hr', hp⟩ := run_eval _ k fs (UserRuns · 0) hrest
  obtain ⟨-, hpage, hload⟩ := memory_is_own 0x500 shellImage _ .cleared k k' _ fs State.cleared_boot
    hr 0 hlive hr' hend
  refine ⟨k', by rw [userRuns, run_append, hr, Option.bind_some, hr'], ?_⟩
  rw [hload hp 0x8000010 (by decide) (by decide), hpage, hstores]
  rfl

end Ece391.Kernel

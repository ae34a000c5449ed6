import Ece391.Kernel.Brackets
import Ece391.Kernel.Commands

/-! The argument of a program, from the command that started it to the program itself.
`parse` stores it beside the file name, in buffers of `execute`; `init_pcb` keeps a pointer
to it; and `getargs` copies it from there for as long as the process runs. -/

namespace Ece391.Kernel

open Function (update)
open Lib FileSys Syscall Support.Runs

/-! ### The buffers of `execute` -/

/-- What `parse` stored lies in the buffers that `execute` passes. -/
def FitsBuffers (out : ParseOut) : Prop :=
  out.filename.length ≤ maxFileLen ∧ out.arg.length ≤ maxArgLen

theorem storeName_length_le (length : ℕ) (l : List UInt8) (h : length ≤ maxFileLen) :
    length + (storeName length l).2.1.length ≤ maxFileLen := by
  induction l generalizing length with
  | nil => simpa [storeName] using h
  | cons c rest ih =>
    rw [storeName]
    split_ifs with hspace hfull
    · exact h
    · exact h
    · have hrest := ih (length + 1) (by omega)
      change length + ((storeName (length + 1) rest).2.1.length + 1) ≤ maxFileLen
      omega

theorem storeArg_length_le (limit argLen : ℕ) (l : List UInt8) (h : argLen ≤ limit) :
    argLen + (storeArg limit argLen l).2.length ≤ limit := by
  induction l generalizing argLen with
  | nil => simpa [storeArg] using h
  | cons c rest ih =>
    rw [storeArg]
    split_ifs with hfull
    · exact h
    · have hrest := ih (argLen + 1) (by omega)
      change argLen + ((storeArg limit (argLen + 1) rest).2.length + 1) ≤ limit
      omega

/-- Without a name there is no argument. -/
theorem argOf_of_no_name {c : CString} (h : nameOf c = []) : argOf c = [] := by
  rw [argOf]
  cases hleft : c.bytes.dropWhile (· = space) with
  | nil => rfl
  | cons b rest =>
    have hb : b ≠ space := by
      have hhead := List.head_dropWhile_not (· = space) (l := c.bytes) (by simp [hleft])
      simpa [hleft] using hhead
    rw [nameOf, hleft, takeWhile_cons_of_ne hb] at h
    cases h

/-- The argument and its terminator keep to their buffer: a name takes at least one byte
off the limit of the argument. -/
theorem parse_arg_fits (command : Option CString) :
    (parse command).arg.length ≤ maxArgLen := by
  cases command with
  | none => exact Nat.zero_le _
  | some c =>
    by_cases hname : (nameOf c).length ≤ maxFileLen
    · rw [parse_name_fits hname]
      have harg := storeArg_length_le (maxArgLen - (nameOf c).length) 0 (argOf c) (Nat.zero_le _)
      rw [Nat.zero_add] at harg
      split_ifs
      · exact harg.trans (Nat.sub_le _ _)
      · rw [List.length_append, List.length_singleton]
        rcases Nat.eq_zero_or_pos (nameOf c).length with hnil | hpos
        · rw [argOf_of_no_name (List.length_eq_zero_iff.mp hnil)]
          exact Nat.succ_le_succ (Nat.zero_le _)
        · simp only [maxArgLen, maxFileLen] at *
          omega
    · have hstore : (storeName 0 (c.bytes.dropWhile (· = space))).1 = false :=
        storeName_overruns (by decide) (by rw [Nat.zero_add]; exact not_le.mp hname)
      simp only [parse, hstore, if_true, List.length_singleton]
      decide

/-- The name keeps to its buffer, and so does its terminator unless the name fills it. -/
theorem parse_filename_fits_iff (c : CString) :
    (parse (some c)).filename.length ≤ maxFileLen ↔ (nameOf c).length ≠ maxFileLen := by
  by_cases hname : (nameOf c).length ≤ maxFileLen
  · have hstored : (parse (some c)).filename = nameOf c ++ [0] := by
      rw [parse_name_fits hname]
      split_ifs <;> rfl
    rw [hstored, List.length_append, List.length_singleton]
    omega
  · have hover : maxFileLen < 0 + (nameOf c).length := by omega
    have hstore : (storeName 0 (c.bytes.dropWhile (· = space))).1 = false :=
      storeName_overruns (by decide) hover
    have hlen := storeName_length_le 0 (c.bytes.dropWhile (· = space)) (by decide)
    simp only [parse, hstore, if_true]
    rw [Nat.zero_add] at hlen
    exact iff_of_true hlen (by omega)

theorem parse_ret (c : CString) : (parse (some c)).ret = 0 ∨ (parse (some c)).ret = -1 := by
  by_cases hname : (nameOf c).length ≤ maxFileLen
  · rw [parse_name_fits hname]
    split_ifs
    · exact .inr rfl
    · exact .inl rfl
  · exact .inr (parse_long_name (not_le.mp hname))

/-- `parse` keeps to the buffers on every command but those whose name has 32 bytes. -/
theorem parse_keeps_buffers_iff (command : Option CString) :
    FitsBuffers (parse command) ↔ ∀ c, command = some c → (nameOf c).length ≠ maxFileLen := by
  cases command with
  | none => exact iff_of_true ⟨Nat.zero_le _, Nat.zero_le _⟩ fun c hc => by cases hc
  | some c =>
    have hfits := parse_filename_fits_iff c
    constructor
    · rintro ⟨hname, -⟩ c' hc
      obtain rfl : c = c' := Option.some.inj hc
      exact hfits.mp hname
    · intro h
      exact ⟨hfits.mpr (h c rfl), parse_arg_fits (some c)⟩

/-- The name of the file "verylargetextwithverylongname.tx", all 32 bytes of it. -/
def fullName : CString :=
  ⟨text "verylargetextwithverylongname.tx", CString.noNul_of_all rfl⟩

theorem parse_overruns_filename : ¬ FitsBuffers (parse (some fullName)) := by
  rintro ⟨hname, -⟩
  exact absurd hname (by decide)

/-! ### The argument of a process -/

/-- Only a later call of `execute` takes the argument of a PCB away, and puts its own
number on the PCB. -/
structure KeepsArguments (k k' : State) : Prop where
  activations : k.trace.activations ≤ k'.trace.activations
  argument : ∀ p, k'.trace.born p = k.trace.born p ∧
      (k'.pcbs p).argument = (k.pcbs p).argument ∨
    k.trace.activations ≤ k'.trace.born p

theorem KeepsArguments.refl (k : State) : KeepsArguments k k :=
  ⟨le_rfl, fun _ => .inl ⟨rfl, rfl⟩⟩

theorem KeepsArguments.trans {k₁ k₂ k₃ : State} (h : KeepsArguments k₁ k₂)
    (h' : KeepsArguments k₂ k₃) : KeepsArguments k₁ k₃ := by
  refine ⟨h.activations.trans h'.activations, fun p => ?_⟩
  rcases h'.argument p with ⟨hborn', harg'⟩ | hlater
  · rw [hborn', harg']
    exact h.argument p
  · exact .inr (h.activations.trans hlater)

section Steps

theorem enter_argument (img : Image) (stack : Stack) (k : State) (act : ℕ) (slot : Fin 6)
    (d : Dentry) (arg : List UInt8) :
    ((enter img stack k act slot d arg).pcbs slot).argument = arg := by
  have hinit : ((initPcb k slot arg).pcbs slot).argument = arg := by
    simp [initPcb, State.modifyPcb]
  simp only [enter]
  split_ifs
  · exact hinit
  · have hsave := saveFrame_proj Pcb.argument (fun _ _ => rfl) (initPcb k slot arg) k.running act slot
    rw [hinit] at hsave
    exact hsave

/-- The argument that an admitted command brings is the one `parse` split off. -/
theorem admission_argument {img : Image} {stack : Stack} {k : State} {c : CString} {d : Dentry}
    {arg : List UInt8} (h : admission img stack k (some c) = .admitted d arg) :
    arg = argOf c ++ [0] := by
  simp only [admission] at h
  split_ifs at h with hparse hfull hexe
  · split at h <;> cases h
  · split at h
    · cases h
    · obtain ⟨-, rfl⟩ := Admission.admitted.inj h
      exact ((parse_splits c).2 ((parse_ret c).resolve_right hparse)).2

theorem execute_keepsArguments (img : Image) (stack : ℕ → Stack) (k : State)
    (command : Option CString) : KeepsArguments k (execute img stack k command).1 := by
  simp only [execute]
  cases admission img (stack k.trace.activations) (beginCall k) command with
  | refused message => exact ⟨Nat.le_succ _, fun _ => .inl ⟨rfl, rfl⟩⟩
  | admitted d arg =>
    cases hfind : findPid (beginCall k).pid with
    | none => exact ⟨Nat.le_succ _, fun _ => .inl ⟨rfl, rfl⟩⟩
    | some slot =>
      have he := enter_entered img (stack k.trace.activations) k slot d arg hfind
      refine ⟨he.activations ▸ Nat.le_succ _, fun p => ?_⟩
      by_cases hp : p = slot
      · refine .inr ?_
        rw [he.born, hp, Function.update_self]
      · refine .inl ⟨?_, (Pcb.kept_eq (enter_other_pcb _ _ slot d arg hp)).2.1⟩
        rw [he.born, Function.update_of_ne hp]

theorem startShell_keepsArguments (img : Image) (stack : ℕ → Stack) (k : State) :
    KeepsArguments k (startShell img stack k) := by
  have h := execute_keepsArguments img stack k (some shellName)
  simp only [startShell]
  rcases hexec : execute img stack k (some shellName) with ⟨k₁, r⟩
  rw [hexec] at h
  cases r with
  | entered => exact h
  | returned => exact ⟨h.activations, h.argument⟩
  | pageFault => exact ⟨h.activations, h.argument⟩

theorem halt_keepsArguments (img : Image) (stack : ℕ → Stack) (k : State) (p : Fin 6)
    (status : UInt8) : KeepsArguments k (halt img stack k p status) := by
  simp only [halt]
  split_ifs
  · have h := startShell_keepsArguments img stack (freed k p)
    exact ⟨h.activations, h.argument⟩
  · cases (k.pcbs p).parentPcb with
    | none => exact ⟨le_rfl, fun _ => .inl ⟨rfl, rfl⟩⟩
    | some q =>
      simp only [resume_eq]
      exact ⟨le_rfl, fun i => .inl ⟨rfl, update_proj Pcb.argument k.pcbs p i rfl⟩⟩

theorem trap_keepsArguments (img : Image) (stack : ℕ → Stack) (k : State) (p : Fin 6)
    (e : Exception) : KeepsArguments k (trap img stack k p e) := by
  have h := halt_keepsArguments img stack (raise k p e) p 1
  exact ⟨h.activations, h.argument⟩

variable {img : Image} {stack : ℕ → Stack} {k k' : State}

theorem step_keepsArguments {e : Event} (hs : step img stack k e = some k') :
    KeepsArguments k k' := by
  obtain ⟨-, hcase⟩ := step_by hs
  cases hcase with
  | firstShell hrun hcs =>
    have h := startShell_keepsArguments img stack (clearScreen k)
    exact ⟨h.activations, h.argument⟩
  | noProcess hrun hcs => exact ⟨le_rfl, fun _ => .inl ⟨rfl, rfl⟩⟩
  | newShell p hrun hnext =>
    have h := startShell_keepsArguments img stack (nextTurn k)
    exact ⟨h.activations, h.argument⟩
  | turn p q hrun hnext => exact ⟨le_rfl, fun _ => .inl ⟨rfl, rfl⟩⟩
  | execute command p hrun =>
    have h := execute_keepsArguments img stack k command
    simp only [executeBy]
    rcases hexec : execute img stack k command with ⟨k₁, r⟩
    rw [hexec] at h
    cases r with
    | pageFault => exact h.trans (trap_keepsArguments img stack k₁ p .pf)
    | returned => exact h
    | entered => exact h
  | halt status p hrun =>
    have h := halt_keepsArguments img stack (k.note (.ended (k.trace.born p) status)) p status
    exact ⟨h.activations, h.argument⟩
  | exception x p hrun => exact trap_keepsArguments img stack k p x
  | call c p hrun =>
    exact ⟨le_rfl, fun i => .inl ⟨rfl, update_proj Pcb.argument k.pcbs p i rfl⟩⟩

theorem run_keepsArguments {es : List Event} (hr : runs img stack k es = some k') :
    KeepsArguments k k' :=
  invariant_run (KeepsArguments k) (fun _ _ _ hs h => h.trans (step_keepsArguments hs)) hr (.refl k)

/-- An admitted command leaves its argument with the new process. -/
theorem execute_argument {c : CString} (hadm : Admitted img stack k (some c)) {slot : Fin 6}
    (hslot : findPid k.pid = some slot) :
    (execute img stack k (some c)).2 = .entered ∧
      ((execute img stack k (some c)).1.pcbs slot).argument = argOf c ++ [0] ∧
      (execute img stack k (some c)).1.trace.activations = k.trace.activations + 1 := by
  have hslot' : findPid (beginCall k).pid = some slot := hslot
  have hadm' : (admission img (stack k.trace.activations) (beginCall k) (some c)).accepts = true :=
    hadm
  simp only [execute]
  cases hcheck : admission img (stack k.trace.activations) (beginCall k) (some c) with
  | refused message =>
    rw [hcheck] at hadm'
    cases hadm'
  | admitted d arg =>
    have harg : arg = argOf c ++ [0] := admission_argument hcheck
    have he := enter_entered img (stack k.trace.activations) k slot d arg hslot
    simp only [hslot']
    exact ⟨trivial, harg ▸ enter_argument img _ _ _ slot d arg, he.activations⟩

end Steps

/-! ### Reading it back -/

/-- The result of a call, and what it stored from index 0 of its buffer on. -/
structure ArgsOut where
  ret : ℤ
  stored : List UInt8

/-- `getargs` into a buffer that held `buf`; NULL is `none`. There is no result where the
PCB would be read through NULL. -/
def getargs (k : State) (buf : Option (ℕ → UInt8)) (nbytes : ℤ) : Option ArgsOut :=
  if nbytes ≤ 0 then some ⟨-1, []⟩
  else match buf, k.running with
    | none, _ => some ⟨-1, []⟩
    | some _, none => none
    | some buf, some p =>
      if strlen (k.pcbs p).argument = 0 then some ⟨-1, []⟩
      else
        let stored := strncpy (bufMem (k.pcbs p).argument) nbytes.toNat
        if (List.range nbytes.toNat).any fun i => overlay stored buf i = 0 then some ⟨0, stored⟩
        else some ⟨-1, stored⟩

/-- A search of the bytes that were stored does not depend on what was there before. -/
theorem any_overlay_iff (stored : List UInt8) (buf : ℕ → UInt8) :
    ((List.range stored.length).any fun i => overlay stored buf i = 0) = true ↔ 0 ∈ stored := by
  rw [List.any_eq_true]
  constructor
  · rintro ⟨i, hi, hzero⟩
    have hlt := List.mem_range.mp hi
    rw [decide_eq_true_eq, overlay, List.getD_eq_getElem _ _ hlt] at hzero
    exact hzero ▸ List.getElem_mem hlt
  · intro h
    obtain ⟨i, hlt, hzero⟩ := List.getElem_of_mem h
    refine ⟨i, List.mem_range.mpr hlt, ?_⟩
    rw [decide_eq_true_eq, overlay, List.getD_eq_getElem _ _ hlt, hzero]

/-- `getargs` copies the argument, and fails where it has no room for the argument and its
terminator. -/
theorem getargs_eq {k : State} {p : Fin 6} (hrun : k.running = some p) {a : CString}
    (harg : (k.pcbs p).argument = a.bytes ++ [0]) (buf : ℕ → UInt8) {nbytes : ℤ}
    (hnbytes : 0 < nbytes) (ha : a.bytes ≠ []) :
    getargs k (some buf) nbytes = some
      ⟨if a.bytes.length < nbytes.toNat then 0 else -1, strncpy a.mem nbytes.toNat⟩ := by
  have hlen : strlen (k.pcbs p).argument = a.bytes.length := by
    rw [harg]
    exact strlen_padded a 0
  have hmem : bufMem (k.pcbs p).argument = a.mem := by
    rw [harg]
    exact bufMem_padded a 1
  have hstored : (strncpy a.mem nbytes.toNat).length = nbytes.toNat := by
    rw [strncpy_string, List.length_append, List.length_take, List.length_replicate]
    omega
  have hsearch := any_overlay_iff (strncpy a.mem nbytes.toNat) buf
  rw [hstored, strncpy_string, List.mem_append, List.mem_replicate] at hsearch
  have hnoNul : (0 : UInt8) ∉ a.bytes.take nbytes.toNat := fun h =>
    a.noNul 0 (List.mem_of_mem_take h) rfl
  have hfits : ((List.range nbytes.toNat).any fun i =>
      overlay (strncpy a.mem nbytes.toNat) buf i = 0) = true ↔ a.bytes.length < nbytes.toNat := by
    rw [strncpy_string, hsearch]
    constructor
    · rintro (hmem | ⟨hroom, -⟩)
      · exact absurd hmem hnoNul
      · omega
    · intro hroom
      exact .inr ⟨by omega, rfl⟩
  have hne : ¬ a.bytes.length = 0 := by simpa using ha
  simp only [getargs, if_neg (not_le.mpr hnbytes), hrun, hlen, if_neg hne, hmem, hfits]
  split_ifs <;> rfl

theorem argOf_subset (c : CString) : argOf c ⊆ c.bytes :=
  ((List.dropWhile_sublist _).trans
    ((List.dropWhile_sublist _).trans (List.dropWhile_sublist _))).subset

/-- The argument stays with the process that the command created. -/
theorem run_argument {img : Image} {stack : ℕ → Stack} {k k₁ k₂ : State} {c : CString}
    (hadm : Admitted img stack k (some c)) {child : Fin 6} (hslot : findPid k.pid = some child)
    (hexec : step img stack k (.execute (some c)) = some k₁) {es : List Event}
    (hr : runs img stack k₁ es = some k₂) (hborn : k₂.trace.born child = k.trace.activations) :
    (k₂.pcbs child).argument = argOf c ++ [0] := by
  obtain ⟨hentered, hstart, hact⟩ := execute_argument hadm hslot
  obtain ⟨-, hcase⟩ := step_by hexec
  cases hcase with
  | execute _ p hparent =>
    have hk₁ : executeBy img stack k p (some c) = (execute img stack k (some c)).1 := by
      rcases hx : execute img stack k (some c) with ⟨k', r⟩
      rw [hx] at hentered
      obtain rfl : r = .entered := hentered
      simp only [executeBy, hx]
    rw [hk₁] at hr
    -- a later process in the slot would carry the number of a later call
    rcases (run_keepsArguments hr).argument child with ⟨-, hkept⟩ | hlater
    · rw [hkept, hstart]
    · omega

/-- What a program may expect of `getargs` when its argument is `a` and the buffer is there
or not. -/
structure HandsOver (a : List UInt8) (given : Prop) (nbytes : ℤ) (out : ArgsOut) : Prop where
  success : out.ret = 0 ↔ given ∧ 1 ≤ a.length ∧ a.length < nbytes
  failure : out.ret ≠ 0 → out.ret = -1
  stored : out.ret = 0 → out.stored = a ++ List.replicate (nbytes.toNat - a.length) 0
  bound : out.stored.length ≤ nbytes.toNat

section HandsOver
variable {a : List UInt8} {given : Prop} {nbytes : ℤ}

theorem HandsOver.refused (h : ¬ (given ∧ 1 ≤ a.length ∧ a.length < nbytes)) :
    HandsOver a given nbytes ⟨-1, []⟩ :=
  ⟨iff_of_false (by decide) h, fun _ => rfl, fun h => absurd h (by decide), Nat.zero_le _⟩

theorem HandsOver.copied (hgiven : given) (ha : a ≠ []) (hnbytes : 0 < nbytes) :
    HandsOver a given nbytes ⟨if a.length < nbytes.toNat then 0 else -1,
      a.take nbytes.toNat ++ List.replicate (nbytes.toNat - a.length) 0⟩ := by
  have hpos := List.length_pos_iff.mpr ha
  have hlen : (a.take nbytes.toNat ++ List.replicate (nbytes.toNat - a.length) 0).length ≤
      nbytes.toNat := by
    rw [List.length_append, List.length_take, List.length_replicate]
    omega
  by_cases hroom : a.length < nbytes.toNat
  · refine ⟨iff_of_true (if_pos hroom) ⟨hgiven, hpos, by omega⟩, ?_, fun _ => ?_, hlen⟩
    · exact fun h => absurd (if_pos hroom) h
    · rw [List.take_of_length_le hroom.le]
  · refine ⟨iff_of_false ?_ fun h => hroom (by omega), fun _ => if_neg hroom, fun h => ?_, hlen⟩
    · simp [hroom]
    · simp [hroom] at h

end HandsOver

/-- A command that a running process gives to `execute` brings its argument to the new
process, and from there to every call of `getargs` while this process runs. -/
theorem getargs_delivers_argument (img : Image) (stack : ℕ → Stack) (k k₁ k₂ : State)
    (c : CString) (hadm : Admitted img stack k (some c)) (child : Fin 6)
    (hslot : findPid k.pid = some child)
    (hexec : step img stack k (.execute (some c)) = some k₁) (es : List Event)
    (hr : runs img stack k₁ es = some k₂) (hrun : k₂.running = some child)
    (hborn : k₂.trace.born child = k.trace.activations) (buf : Option (ℕ → UInt8)) (nbytes : ℤ) :
    ∃ out, getargs k₂ buf nbytes = some out ∧
      HandsOver (argOf c) (buf ≠ none) nbytes out := by
  have harg : (k₂.pcbs child).argument = argOf c ++ [0] := run_argument hadm hslot hexec hr hborn
  rcases le_or_gt nbytes 0 with hnbytes | hnbytes
  · refine ⟨⟨-1, []⟩, if_pos hnbytes, .refused ?_⟩
    rintro ⟨-, hpos, hroom⟩
    omega
  · cases buf with
    | none =>
      refine ⟨⟨-1, []⟩, ?_, .refused fun h => h.1 rfl⟩
      simp only [getargs, if_neg (not_le.mpr hnbytes)]
    | some buf =>
      rcases eq_or_ne (argOf c) [] with hnil | hne
      · have hempty : strlen (k₂.pcbs child).argument = 0 := by
          rw [harg, hnil]
          rfl
        refine ⟨⟨-1, []⟩, ?_, .refused fun h => ?_⟩
        · simp only [getargs, if_neg (not_le.mpr hnbytes), hrun, hempty, if_true]
        · rw [hnil] at h
          exact absurd h.2.1 (by decide)
      · have hnoNul : ∀ b ∈ argOf c, b ≠ 0 := fun b hb => c.noNul b (argOf_subset c hb)
        refine ⟨_, getargs_eq hrun (a := ⟨argOf c, hnoNul⟩) harg buf hnbytes hne, ?_⟩
        rw [strncpy_string]
        exact .copied (Option.some_ne_none buf) hne hnbytes

/-- A command with an argument of two bytes. -/
def shellHi : CString := ⟨text "shell hi", CString.noNul_of_all rfl⟩

/-- The new shell starts and ends another one and then asks for its argument. -/
theorem getargs_delivers_argument_nested : ∃ k₂ out,
    shellRuns [.tick, .execute (some shellHi), .execute (some shellName), .halt 0] = some k₂ ∧
      getargs k₂ (some fun _ => 0xFF) 4 = some out ∧ out.ret = 0 ∧
      out.stored = text "hi" ++ [0, 0] := by
  obtain ⟨k, hk, hact, hadm, hslot⟩ := shellRuns_eval [.tick] (fun k => k.trace.activations = 1 ∧
    Admitted shellImage (fun _ => .zero) k (some shellHi) ∧ findPid k.pid = some 1)
    (by decide +kernel)
  obtain ⟨k₂, hk₂, hrun, hborn⟩ := shellRuns_eval
    [.tick, .execute (some shellHi), .execute (some shellName), .halt 0]
    (fun k => k.running = some 1 ∧ k.trace.born 1 = 1) (by decide +kernel)
  obtain ⟨k', hs, hrest⟩ := run_cons_eq_some.mp hk₂
  obtain rfl : k' = k := Option.some.inj ((run_cons_eq_some.mpr ⟨k', hs, rfl⟩).symm.trans hk)
  obtain ⟨k₁, hs₁, hrest₁⟩ := run_cons_eq_some.mp hrest
  obtain ⟨out, hout, h⟩ := getargs_delivers_argument _ _ _ _ _ shellHi hadm 1 hslot hs₁ _ hrest₁
    hrun (hborn.trans hact.symm) (some fun _ => 0xFF) 4
  have hret : out.ret = 0 := h.success.mpr (by decide)
  exact ⟨k₂, out, hk₂, hout, hret, h.stored hret⟩

end Ece391.Kernel

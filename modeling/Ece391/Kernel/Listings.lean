import Ece391.Kernel.Chains
import Ece391.Syscall.Calls

/-! Directory listings. The position of `dir_read` is one counter for all descriptors
and all processes: it counts the directory reads since boot modulo the length of a
listing with its final 0. A descriptor sees the directory from its start only where the
reads made through others add up to whole listings. -/

namespace Ece391.Kernel

open Function (update)
open Lib FileSys Syscall Support.Runs

/-! ### The reads of a descriptor -/

/-- The result of a read and what it stored. -/
abbrev DirResult := ℤ × List UInt8

/-- One more observation for the reads through a descriptor since it was opened. -/
def addRead (act : ℕ) (fd : ℤ) (reads : List DirResult) : Obs → List DirResult
  | .dirOpened a f => if a = act ∧ f = fd then [] else reads
  | .dirRead a f ret stored => if a = act ∧ f = fd then reads ++ [(ret, stored)] else reads
  | _ => reads

/-- The reads through a descriptor of a process since it was last opened. -/
def readsOf (act : ℕ) (fd : ℤ) (log : List Obs) : List DirResult :=
  log.foldl (addRead act fd) []

/-- The number of directory reads through any descriptor. -/
def readCount (log : List Obs) : ℕ :=
  log.countP fun o => match o with
    | .dirRead _ _ _ _ => true
    | _ => false

/-- The directory reads through anything else, a closed descriptor included. -/
def otherReads (act : ℕ) (fd : ℤ) (log : List Obs) : ℕ := readCount log - (readsOf act fd log).length

/-- The names delivered before the first 0. -/
def deliveredNames (reads : List DirResult) : List (List UInt8) :=
  (reads.takeWhile fun r => r.1 ≠ 0).map fun r => r.2.take r.1.toNat

/-- The names of all entries in directory order. -/
def directoryNames (img : Image) : List (List UInt8) :=
  (List.range img.bootBlock.fileStat.dirEntryNum).map fun m => (entryName img m).bytes

/-- The reads deliver the directory from its start, all of it before the first 0. -/
def ListsDirectory (img : Image) (reads : List DirResult) : Prop :=
  deliveredNames reads <+: directoryNames img ∧
    ((∃ r ∈ reads, r.1 = 0) → deliveredNames reads = directoryNames img)

/-- The length of a listing with its final 0. -/
def listingLength (img : Image) : ℕ := img.bootBlock.fileStat.dirEntryNum + 1

/-- The result that belongs to the `m`-th read of a descriptor. -/
def Right (img : Image) (m : ℕ) (r : DirResult) : Prop :=
  if m % listingLength img = img.bootBlock.fileStat.dirEntryNum then r.1 = 0
  else r.1 = (entryName img (m % listingLength img)).bytes.length ∧
    r.2.take (entryName img (m % listingLength img)).bytes.length =
      (entryName img (m % listingLength img)).bytes

/-- The results from the `j`-th read on, up to the first 0. -/
def AllRight (img : Image) : ℕ → List DirResult → Prop
  | _, [] => True
  | j, r :: rs => Right img j r ∧ (r.1 ≠ 0 → AllRight img (j + 1) rs)

theorem allRight_snoc {img : Image} {j : ℕ} {rs : List DirResult} {r : DirResult}
    (h : AllRight img j rs) (hr : (∀ a ∈ rs, a.1 ≠ 0) → Right img (j + rs.length) r) :
    AllRight img j (rs ++ [r]) := by
  induction rs generalizing j with
  | nil => exact ⟨by simpa using hr, fun _ => trivial⟩
  | cons a rs ih =>
    refine ⟨h.1, fun ha => ih (h.2 ha) fun hrs => ?_⟩
    have hright := hr (List.forall_mem_cons.mpr ⟨ha, hrs⟩)
    rw [List.length_cons] at hright
    rwa [show j + 1 + rs.length = j + (rs.length + 1) by omega]

section Names
variable {img : Image}
  (hnames : ∀ m < img.bootBlock.fileStat.dirEntryNum, (entryName img m).bytes ≠ [])
include hnames

theorem right_entry {j : ℕ} (hj : j < img.bootBlock.fileStat.dirEntryNum) {r : DirResult}
    (hr : Right img j r) : r.1 ≠ 0 ∧ r.2.take r.1.toNat = (entryName img j).bytes := by
  have hmod : j % listingLength img = j := Nat.mod_eq_of_lt (by simp only [listingLength]; omega)
  rw [Right, hmod, if_neg (by omega)] at hr
  have hpos := List.length_pos_iff.mpr (hnames j hj)
  rw [hr.1, Int.toNat_natCast]
  exact ⟨by omega, hr.2⟩

omit hnames in
theorem right_end {j : ℕ} (hj : j = img.bootBlock.fileStat.dirEntryNum) {r : DirResult}
    (hr : Right img j r) : r.1 = 0 := by
  have hmod : j % listingLength img = j := Nat.mod_eq_of_lt (by simp only [listingLength]; omega)
  rwa [Right, hmod, if_pos hj] at hr

/-- From the `j`-th read on, the names from the `j`-th on are delivered. -/
theorem deliveredNames_eq {j : ℕ} (hj : j ≤ img.bootBlock.fileStat.dirEntryNum)
    {rs : List DirResult} (h : AllRight img j rs) :
    deliveredNames rs = ((directoryNames img).drop j).take rs.length := by
  induction rs generalizing j with
  | nil => simp [deliveredNames]
  | cons r rs ih =>
    rcases hj.lt_or_eq with hlt | heq
    · obtain ⟨hne, hname⟩ := right_entry hnames hlt h.1
      have hdrop : (directoryNames img).drop j =
          (entryName img j).bytes :: (directoryNames img).drop (j + 1) := by
        rw [List.drop_eq_getElem_cons (by simpa [directoryNames] using hlt)]
        simp [directoryNames]
      have hrec := ih hlt (h.2 hne)
      rw [hdrop, List.length_cons, List.take_succ_cons, ← hrec, ← hname]
      simp [deliveredNames, hne]
    · have hzero := right_end heq h.1
      rw [heq, List.drop_of_length_le (by simp [directoryNames])]
      simp [deliveredNames, hzero]

theorem zero_behind {j : ℕ} {rs : List DirResult} (h : AllRight img j rs)
    (hz : ∃ r ∈ rs, r.1 = 0) : img.bootBlock.fileStat.dirEntryNum < j + rs.length := by
  induction rs generalizing j with
  | nil => simp at hz
  | cons a rs ih =>
    rw [List.length_cons]
    rcases Nat.lt_or_ge j img.bootBlock.fileStat.dirEntryNum with hj | hj
    · obtain ⟨r, hr, hr0⟩ := hz
      have hne := (right_entry hnames hj h.1).1
      rcases List.mem_cons.mp hr with rfl | hr
      · exact absurd hr0 hne
      · have := ih (h.2 hne) ⟨r, hr, hr0⟩
        omega
    · omega

/-- Reads that are all right list the directory. -/
theorem allRight_lists {rs : List DirResult} (h : AllRight img 0 rs) : ListsDirectory img rs := by
  have heq := deliveredNames_eq hnames (Nat.zero_le _) h
  rw [List.drop_zero] at heq
  refine ⟨heq ▸ List.take_prefix _ _, fun hz => ?_⟩
  have hlen := zero_behind hnames h hz
  rw [heq]
  exact List.take_of_length_le (by simp only [directoryNames, List.length_map, List.length_range]; omega)

end Names

/-! ### The log -/

/-- The observation concerns no directory. -/
def Silent : Obs → Prop
  | .dirOpened _ _ => False
  | .dirRead _ _ _ _ => False
  | _ => True

theorem readsOf_append (act : ℕ) (fd : ℤ) (log os : List Obs) :
    readsOf act fd (log ++ os) = os.foldl (addRead act fd) (readsOf act fd log) := by
  rw [readsOf, List.foldl_append, ← readsOf]

theorem readCount_append (log os : List Obs) :
    readCount (log ++ os) = readCount log + readCount os := List.countP_append

theorem silent_foldl {os : List Obs} (hos : ∀ o ∈ os, Silent o) (act : ℕ) (fd : ℤ)
    (reads : List DirResult) : os.foldl (addRead act fd) reads = reads := by
  induction os generalizing reads with
  | nil => rfl
  | cons o os ih =>
    have ho : addRead act fd reads o = reads := by
      have hsilent := hos o (by simp)
      cases o <;> simp [Silent, addRead] at hsilent ⊢
    rw [List.foldl_cons, ho]
    exact ih (fun o' ho' => hos o' (by simp [ho'])) reads

theorem silent_readCount {os : List Obs} (hos : ∀ o ∈ os, Silent o) : readCount os = 0 := by
  refine List.countP_eq_zero.mpr fun o ho => ?_
  have hsilent := hos o ho
  cases o <;> simp [Silent] at hsilent ⊢

theorem foldl_addRead_length (act : ℕ) (fd : ℤ) (log : List Obs) (reads : List DirResult) :
    (log.foldl (addRead act fd) reads).length ≤ reads.length + readCount log := by
  induction log generalizing reads with
  | nil => simp [readCount]
  | cons o log ih =>
    have hcount : readCount (o :: log) = readCount [o] + readCount log := readCount_append [o] log
    have hlen : (addRead act fd reads o).length ≤ reads.length + readCount [o] := by
      cases o <;> simp only [addRead, readCount] <;> try exact Nat.le_add_right _ _
      · split_ifs <;> simp
      · split_ifs <;> simp
    have := ih (addRead act fd reads o)
    rw [List.foldl_cons]
    omega

theorem readCount_eq (act : ℕ) (fd : ℤ) (log : List Obs) :
    readCount log = (readsOf act fd log).length + otherReads act fd log := by
  have h := foldl_addRead_length act fd log []
  rw [List.length_nil] at h
  simp only [otherReads, readsOf]
  omega

/-! ### One read -/

/-- The call that `dirReadOn` recognises. -/
theorem dirReadOn_eq_some {fds : Fds} {c : Call} {fd : ℤ} (h : dirReadOn fds c = some fd) :
    ∃ (i : Fin 8) (n : ℤ) (keyBuf : ℕ → UInt8), fd = i ∧ c = .read i true n keyBuf ∧ 0 ≤ n ∧
      (fds i).flags ≠ 0 ∧ (fds i).pointer = .dirFops := by
  cases c with
  | read fd' buf n keyBuf =>
    simp only [dirReadOn, Option.bind_eq_some_iff] at h
    obtain ⟨i, hi, h⟩ := h
    split_ifs at h with hcond
    obtain rfl := Option.some.inj h
    obtain rfl := fdIndex_eq_some hi
    obtain ⟨hn, rfl, hf, hp⟩ := hcond
    exact ⟨i, n, keyBuf, rfl, rfl, hn, hf, hp⟩
  | _ => simp [dirReadOn] at h

theorem readOp_directoryIndex {img : Image} {cs : Fin 3} {keyBuf : ℕ → UInt8} {dev : Devices}
    {entry : FileArray} (hp : entry.pointer ≠ .dirFops) (buf : Bool) (n : ℤ) :
    (readOp img cs keyBuf dev entry buf n).dev.directoryIndex = dev.directoryIndex := by
  unfold readOp
  cases hpointer : entry.pointer with
  | stdinFops =>
    simp only [terminalRead]
    split_ifs <;> rfl
  | stdoutFops => rfl
  | rtcFops => rfl
  | dirFops => exact absurd hpointer hp
  | fileFops =>
    simp only [fileRead]
    split_ifs <;> rfl

theorem writeOp_directoryIndex (cs : Fin 3) (dev : Devices) (entry : FileArray)
    (buf : Option (ℕ → UInt8)) (n : ℤ) :
    (writeOp cs dev entry buf n).dev.directoryIndex = dev.directoryIndex := by
  unfold writeOp
  cases entry.pointer with
  | stdoutFops =>
    cases buf with
    | none => rfl
    | some bytes =>
      simp only [terminalWrite]
      split_ifs <;> rfl
  | rtcFops =>
    cases buf with
    | none => rfl
    | some bytes =>
      simp only [rtcWrite]
      split_ifs
      · rfl
      · rfl
      · cases rtcRate (word32 bytes) <;> rfl
  | _ => rfl

/-- Every other call leaves the listing position alone. -/
theorem call_directoryIndex {img : Image} {cs : Fin 3} {p : Proc} {c : Call}
    (h : dirReadOn p.fds c = none) :
    (call img cs p c).proc.dev.directoryIndex = p.dev.directoryIndex := by
  cases c with
  | «open» filename =>
    rw [call, sysOpen_eq]
    rcases openable img filename with _ | ⟨d, f⟩
    · rfl
    · cases firstFree p.fds with
      | none => rfl
      | some i => cases f <;> rfl
  | close fd =>
    cases hi : fdIndex fd with
    | none => simp [call, close, hi, Syscall.failure]
    | some i =>
      simp only [call, close, hi]
      split_ifs <;> rfl
  | write fd buf n =>
    cases hi : fdIndex fd with
    | none => simp [call, write, hi, Syscall.failure]
    | some i =>
      simp only [call, write, hi]
      split_ifs
      · rfl
      · rfl
      · rfl
      · exact writeOp_directoryIndex cs p.dev (p.fds i) buf n
  | read fd buf n keyBuf =>
    by_cases hcl : n < 0 ∨ buf = false ∨ Closed p fd
    · rw [call, read_failure hcl]
      rfl
    · obtain ⟨i, rfl, rfl, hn, hf⟩ := read_passed hcl
      have hp : (p.fds i).pointer ≠ .dirFops := by
        intro hp
        simp [dirReadOn, fdIndex_coe, hn, hf, hp] at h
      rw [call, read_open hn hf]
      exact readOp_directoryIndex hp true n

/-- A read on a directory is one `dir_read` at the common position. -/
theorem call_dirRead (img : Image) (cs : Fin 3) {p : Proc} {c : Call} {fd : ℤ}
    (h : dirReadOn p.fds c = some fd) :
    (call img cs p c).ret = (dirRead img p.dev.directoryIndex true).ret ∧
      (call img cs p c).stored = (dirRead img p.dev.directoryIndex true).stored ∧
      (call img cs p c).proc.dev.directoryIndex =
        (dirRead img p.dev.directoryIndex true).directoryIndex := by
  obtain ⟨i, n, keyBuf, -, rfl, hn, hf, hp⟩ := dirReadOn_eq_some h
  rw [call, read_open hn hf]
  simp only [readOp, hp, dirReadOp, and_self]

theorem right_congr {img : Image} {a b : ℕ} (hab : a % listingLength img = b % listingLength img)
    {r : DirResult} (h : Right img a r) : Right img b r := by
  rw [Right] at h ⊢
  rwa [← hab]

/-- A read at the position of the `t`-th read delivers what belongs there and moves the
position to the next. -/
theorem dirRead_right {img : Image} (hdot : img.bootBlock.dirDentry.name = FileSys.period)
    (hint : img.bootBlock.fileStat.dirEntryNum < 2 ^ 31) {index : ℤ} {t : ℕ}
    (hindex : index + 1 = (t % listingLength img : ℕ)) :
    Right img t ((dirRead img index true).ret, (dirRead img index true).stored) ∧
      (dirRead img index true).directoryIndex + 1 = ((t + 1) % listingLength img : ℕ) := by
  refine ⟨?_, dirRead_next hdot hint hindex⟩
  have hlt : t % listingLength img < listingLength img := Nat.mod_lt _ (Nat.succ_pos _)
  generalize hm : t % listingLength img = m at hindex hlt
  obtain rfl : index = m - 1 := by omega
  rw [Right, hm]
  rcases Nat.lt_or_eq_of_le (Nat.lt_succ_iff.mp hlt) with hm' | hm'
  · obtain ⟨hret, hstored, -⟩ := dirRead_entry hdot hint hm'
    rw [if_neg (by omega)]
    exact ⟨hret, hstored⟩
  · subst hm'
    rw [dirRead_end hint, if_pos rfl]

/-! ### The steps -/

/-- A listing that has not ended goes on only where the reads through anything else,
counted from boot, add up to whole listings. -/
def WholeListings (img : Image) (k : State) : Event → Prop
  | .call c => ∀ p, k.running = some p → ∀ fd ∈ dirReadOn (k.pcbs p).fileDescriptor c,
      (∀ r ∈ readsOf (k.trace.born p) fd k.trace.log, r.1 ≠ 0) →
        listingLength img ∣ otherReads (k.trace.born p) fd k.trace.log
  | _ => True

instance decidableWholeListings (img : Image) (k : State) :
    (e : Event) → Decidable (WholeListings img k e)
  | .call _ => inferInstanceAs (Decidable (∀ _, _ → ∀ _ ∈ _, (∀ _ ∈ _, _) → _))
  | .tick => isTrue trivial
  | .execute _ => isTrue trivial
  | .halt _ => isTrue trivial
  | .exception _ => isTrue trivial

/-- The position counts the reads, and every descriptor has seen what belongs to it up
to its first 0. -/
structure Listed (img : Image) (k : State) : Prop where
  position : k.dev.directoryIndex + 1 = (readCount k.trace.log % listingLength img : ℕ)
  right : ∀ act fd, AllRight img 0 (readsOf act fd k.trace.log)

section Listed
variable {img : Image} {k k' : State}

theorem Listed.append (h : Listed img k) (os : List Obs)
    (hindex : k'.dev.directoryIndex = k.dev.directoryIndex)
    (hlog : k'.trace.log = k.trace.log ++ os) (hos : ∀ o ∈ os, Silent o) : Listed img k' := by
  refine ⟨?_, fun act fd => ?_⟩
  · rw [hindex, hlog, readCount_append, silent_readCount hos, Nat.add_zero, h.position]
  · rw [hlog, readsOf_append, silent_foldl hos]
    exact h.right act fd

theorem Listed.refused (h : Listed img k) (hr : Refused k k') : Listed img k' :=
  h.append _ hr.directoryIndex hr.log (by simp [Silent])

theorem Listed.faulted (h : Listed img k) (hf : Faulted k k') : Listed img k' :=
  h.append _ hf.directoryIndex hf.log (by simp [Silent])

theorem Listed.entered (h : Listed img k) {slot : Fin 6} (he : Entered k k' slot) :
    Listed img k' := by
  rcases he.outcome with ⟨-, hlog⟩ | ⟨⟨_, hlog⟩, -⟩
  · exact h.append _ he.directoryIndex hlog (by simp [Silent])
  · exact h.append _ he.directoryIndex hlog (by simp [Silent])

theorem Listed.started (h : Listed img k) (hs : Started k k') : Listed img k' := by
  rcases hs with ⟨slot, he⟩ | ⟨-, hr | hf⟩
  exacts [h.entered he, h.refused hr, h.faulted hf]

theorem Listed.raised (h : Listed img k) (p : Fin 6) (e : Exception) : Listed img (raise k p e) :=
  h.append [.trapped (k.trace.born p)] rfl rfl (by simp [Silent])

theorem Listed.ended (h : Listed img k) {st : Chains} (hc : Chained k st) {p : Fin 6}
    (hp : k.running = some p) (he : Ended k p k') : Listed img k' := by
  cases he with
  | root hroot hs => exact Listed.started (k := freed k p) ⟨h.position, h.right⟩ hs
  | child q hchild hq hr => exact h.append _ hr.directoryIndex hr.log (by simp [Silent])
  | orphan hchild hq => exact absurd ((hc.parent_none hp).mpr hq) hchild

/-- A call on the descriptors: an `open` starts a listing, a `read` goes on with one. -/
theorem Listed.fileCall (h : Listed img k) (hdot : img.bootBlock.dirDentry.name = FileSys.period)
    (hint : img.bootBlock.fileStat.dirEntryNum < 2 ^ 31) {p : Fin 6} {c : Call}
    (hwhole : ∀ fd ∈ dirReadOn (k.pcbs p).fileDescriptor c,
      (∀ r ∈ readsOf (k.trace.born p) fd k.trace.log, r.1 ≠ 0) →
        listingLength img ∣ otherReads (k.trace.born p) fd k.trace.log) :
    Listed img (fileCall img k p c) := by
  set out := call img k.currScheduler ⟨(k.pcbs p).fileDescriptor, k.dev⟩ c with hout
  have hlog : (Kernel.fileCall img k p c).trace.log =
      k.trace.log ++ observe (k.trace.born p) (k.pcbs p).fileDescriptor c out := rfl
  have hindex : (Kernel.fileCall img k p c).dev.directoryIndex = out.proc.dev.directoryIndex := rfl
  cases hread : dirReadOn (k.pcbs p).fileDescriptor c with
  | none =>
    have hindex' : out.proc.dev.directoryIndex = k.dev.directoryIndex := call_directoryIndex hread
    simp only [observe, hread, Option.map_none, Option.toList_none, List.append_nil] at hlog
    cases hopen : dirOpenedOn c out with
    | none =>
      rw [hopen] at hlog
      exact h.append _ (hindex.trans hindex') hlog (by simp)
    | some fd =>
      simp only [hopen, Option.map_some, Option.toList_some] at hlog
      refine ⟨?_, fun act fd' => ?_⟩
      · rw [hindex, hindex', hlog, readCount_append, h.position]
        rfl
      · rw [hlog, readsOf_append, List.foldl_cons, List.foldl_nil, addRead]
        split_ifs
        · trivial
        · exact h.right act fd'
  | some fd =>
    obtain ⟨hret, hstored, hindex'⟩ := call_dirRead img k.currScheduler
      (p := ⟨(k.pcbs p).fileDescriptor, k.dev⟩) hread
    have hopen : dirOpenedOn c out = none := by
      obtain ⟨i, n, keyBuf, -, rfl, -⟩ := dirReadOn_eq_some hread
      rfl
    simp only [observe, hread, hopen, Option.map_none, Option.toList_none, List.nil_append,
      Option.map_some, Option.toList_some] at hlog
    obtain ⟨hright, hnext⟩ := dirRead_right hdot hint h.position
    refine ⟨?_, fun act fd' => ?_⟩
    · rw [hindex, hlog, readCount_append]
      exact (congrArg (· + 1) hindex').trans hnext
    · rw [hlog, readsOf_append, List.foldl_cons, List.foldl_nil, addRead]
      split_ifs with hmine
      · obtain ⟨rfl, rfl⟩ := hmine
        refine allRight_snoc (h.right _ _) fun hgoing => ?_
        obtain ⟨b, hb⟩ := hwhole fd (by simp [hread]) hgoing
        rw [hout, hret, hstored, Nat.zero_add]
        refine right_congr ?_ hright
        rw [readCount_eq (k.trace.born p) fd, hb, Nat.add_mul_mod_self_left]
      · exact h.right act fd'

theorem Listed.step {stack : ℕ → Stack} {st : Chains} {e : Event} (h : Listed img k)
    (hc : Chained k st) (hdot : img.bootBlock.dirDentry.name = FileSys.period)
    (hint : img.bootBlock.fileStat.dirEntryNum < 2 ^ 31) (hwhole : WholeListings img k e)
    (hstep : step img stack k e = some k') : Listed img k' := by
  obtain ⟨-, hcase⟩ := step_cases hstep
  clear hstep
  cases hcase with
  | firstShell hrun hcs hs =>
    have hclear : Listed img (clearScreen k) :=
      h.append [] (clearScreen_quiet k).directoryIndex (clearScreen_log k) (by simp)
    exact hclear.started hs
  | noProcess hrun hk =>
    subst hk
    exact ⟨h.position, h.right⟩
  | newShell hrun hnext hs => exact Listed.started (k := nextTurn k) ⟨h.position, h.right⟩ hs
  | turn p hrun hnext hk =>
    subst hk
    exact h.append [.mapped (State.userEntry (k.pcbs p).pid)] rfl rfl (by simp [Silent])
  | refused command p hrun hr => exact h.refused hr
  | entered command p slot hrun hadm he => exact h.entered he
  | faulted command p k₁ hrun hadm hf he =>
    have hrun₁ := hf.running_raise hrun (e := .pf)
    exact ((h.faulted hf).raised p .pf).ended ((hc.faulted hf).raised p .pf) hrun₁ he
  | halt status p hrun he =>
    have hlisted : Listed img (k.note (.ended (k.trace.born p) status)) :=
      h.append [.ended (k.trace.born p) status] rfl rfl (by simp [Silent])
    exact hlisted.ended (hc.note _) hrun he
  | exception e p hrun he => exact (h.raised p e).ended (hc.raised p e) hrun he
  | call c p hrun hk =>
    subst hk
    exact h.fileCall hdot hint (hwhole p hrun)

end Listed

/-- In a run in which listings that have not ended go on only where the other reads add
up to whole listings, every descriptor lists the directory from its start. -/
theorem descriptors_list_directory (img : Image) (stack : ℕ → Stack) (k₀ k : State)
    (es : List Event) (hdot : img.bootBlock.dirDentry.name = FileSys.period)
    (hint : img.bootBlock.fileStat.dirEntryNum < 2 ^ 31)
    (hnames : ∀ m < img.bootBlock.fileStat.dirEntryNum, (entryName img m).bytes ≠ [])
    (hb : State.Boot k₀) (hwhole : Along (step img stack) (WholeListings img) k₀ es)
    (hr : runs img stack k₀ es = some k) (act : ℕ) (fd : ℤ) :
    ListsDirectory img (readsOf act fd k.trace.log) := by
  have hboot : Listed img k₀ := by
    refine ⟨?_, fun act fd => ?_⟩
    · rw [hb.directoryIndex, hb.log]
      rfl
    · rw [hb.log]
      trivial
  obtain ⟨-, h⟩ := invariant_along (fun k => (∃ st, Chained k st) ∧ Listed img k)
    (fun k e k' hg hs ⟨⟨st, hc⟩, h⟩ => ⟨hc.step hs, h.step hc hdot hint hg hs⟩) hwhole hr
    ⟨⟨_, Boot.chained hb⟩, hboot⟩
  exact allRight_lists hnames (h.right act fd)

/-- A read of the running process. -/
def readEvent (fd : ℤ) : Event := .call (.read fd true 32 fun _ => 0)

/-- Two listings, one after the other, through two descriptors. -/
theorem descriptors_list_directory_twice : ∃ k,
    shellRuns ([.tick, .call (.open (some FileSys.period)), .call (.open (some FileSys.period))] ++
      List.replicate 4 (readEvent 2) ++ List.replicate 4 (readEvent 3)) = some k ∧
      deliveredNames (readsOf 0 3 k.trace.log) = [[0x2E], shellName.bytes, exitName.bytes] := by
  obtain ⟨k, hk, hzero⟩ := shellRuns_eval
    ([.tick, .call (.open (some FileSys.period)), .call (.open (some FileSys.period))] ++
      List.replicate 4 (readEvent 2) ++ List.replicate 4 (readEvent 3))
    (fun k => ∃ r ∈ readsOf 0 3 k.trace.log, r.1 = 0) (by decide +kernel)
  have h := descriptors_list_directory _ _ _ _ _ (by decide) (by decide) (by decide)
    State.cleared_boot (by decide +kernel) hk 0 3
  exact ⟨k, hk, h.2 hzero⟩

/-- Two descriptors read in turn: the second misses the first entry. -/
theorem descriptors_share_position : State.Boot .cleared ∧
    ∃ k, shellRuns [.tick, .call (.open (some FileSys.period)), .call (.open (some FileSys.period)),
        readEvent 2, readEvent 3] = some k ∧
      deliveredNames (readsOf 0 2 k.trace.log) = [[0x2E]] ∧
      deliveredNames (readsOf 0 3 k.trace.log) = [shellName.bytes] ∧
      ¬ deliveredNames (readsOf 0 3 k.trace.log) <+: directoryNames shellImage :=
  ⟨State.cleared_boot, run_eval _ _ _ _ (by decide +kernel)⟩

end Ece391.Kernel

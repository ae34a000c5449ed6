import Ece391.Syscall.Table

/-! Reading a regular file to its end through one descriptor while the process
uses its others. The position of the descriptor is the number of bytes delivered
so far, so the reads deliver the file from its start, whatever their sizes. -/

namespace Ece391.Syscall

open Function (update)
open Lib FileSys Support

/-- The descriptor a call names. -/
def Call.fd : Call → Option ℤ
  | .open _ => none
  | .close fd => some fd
  | .read fd _ _ _ => some fd
  | .write fd _ _ => some fd

/-- The calls of a streaming process: reads of a non-negative size into a real
buffer on the descriptor itself, and anything on the others. -/
def Streams (fd : Fin 8) : Call → Prop
  | .read fd' buf nbytes _ => fd' = fd → buf = true ∧ 0 ≤ nbytes
  | c => c.fd ≠ some (fd : ℤ)

/-- The number of bytes that the reads on a descriptor ask for. -/
def asked (fd : Fin 8) : List Call → ℕ
  | [] => 0
  | .read fd' _ nbytes _ :: cl => (if fd' = fd then nbytes.toNat else 0) + asked fd cl
  | _ :: cl => asked fd cl

/-- The bytes that the reads on a descriptor deliver, one after another. -/
def delivered (img : Image) (cs : Fin 3) (fd : Fin 8) : Proc → List Call → List UInt8
  | _, [] => []
  | p, .read fd' buf nbytes keyBuf :: cl =>
    (if fd' = fd then (read img cs p fd' buf nbytes keyBuf).stored else []) ++
      delivered img cs fd (read img cs p fd' buf nbytes keyBuf).proc cl
  | p, c :: cl => delivered img cs fd (call img cs p c).proc cl

/-- A call that names another descriptor, or none, leaves an open one alone. -/
theorem call_frame (img : Image) (cs : Fin 3) {p : Proc} {c : Call} {j : Fin 8}
    (hj : (p.fds j).flags ≠ 0) (hc : c.fd ≠ some (j : ℤ)) : (call img cs p c).proc.fds j = p.fds j := by
  cases c with
  | «open» filename =>
    rw [call, sysOpen_eq]
    rcases openable img filename with _ | ⟨d, f⟩
    · rfl
    · cases hfree : firstFree p.fds with
      | none => rfl
      | some i =>
        have hi : (p.fds i).flags = 0 := by simpa using List.find?_some hfree
        have hij : j ≠ i := by
          rintro rfl
          exact hj hi
        exact Function.update_of_ne hij _ _
  | close fd => exact close_frame fd fun h => hc (congrArg some h)
  | write fd buf n => rw [call, write_fds]
  | read fd buf n keyBuf =>
    rw [call]
    by_cases hcl : n < 0 ∨ buf = false ∨ Closed p fd
    · rw [read_failure hcl, failure]
    · obtain ⟨i, rfl, rfl, hn, hf⟩ := read_passed hcl
      have hij : j ≠ i := by
        rintro rfl
        exact hc rfl
      rw [read_open hn hf]
      exact Function.update_of_ne hij _ _

/-- The loop's two limits are out of reach of a file on distinct data blocks. -/
theorem blocks_le_blockLimit {img : Image} {ino : Inode} (hspan : ino.blocks ≤ 1022)
    (hlt : ∀ i < ino.blocks, ino.dataBlock i < img.bootBlock.fileStat.dataBlockNum)
    (hinj : ∀ i < ino.blocks, ∀ j < ino.blocks, ino.dataBlock i = ino.dataBlock j → i = j) :
    ino.blocks ≤ blockLimit img :=
  Nat.le_min.mpr ⟨hspan, blocks_le_dataBlockNum hlt hinj⟩

/-- The descriptor is open on the inode and stands behind the bytes delivered. -/
structure Streaming (inode : ℕ) (fd : Fin 8) (p : Proc) (done : List UInt8) : Prop where
  pointer : (p.fds fd).pointer = .fileFops
  inode : (p.fds fd).inode = inode
  position : (p.fds fd).filePosition = done.length
  opened : (p.fds fd).flags ≠ 0
  bounded : done.length < 2 ^ 32 - 1

section Reads
variable (img : Image) (cs : Fin 3) {inode : ℕ} {fd : Fin 8} {p : Proc} {done : List UInt8}

theorem Streaming.other (h : Streaming inode fd p done) {c : Call} (hc : c.fd ≠ some (fd : ℤ)) :
    Streaming inode fd (call img cs p c).proc done := by
  have hframe := call_frame img cs h.opened hc
  exact ⟨hframe ▸ h.pointer, hframe ▸ h.inode, hframe ▸ h.position, hframe ▸ h.opened, h.bounded⟩

variable (hino : inode < img.bootBlock.fileStat.inodeNum)
  (hspan : (img.inode inode).blocks ≤ blockLimit img)
include hino hspan

/-- One read on the descriptor: the bytes at its position, and the position moved
by their number. -/
theorem Streaming.read (h : Streaming inode fd p done) {n : ℤ} (hn : 0 ≤ n) (keyBuf : ℕ → UInt8) :
    Delivers (contents img inode) done.length n.toNat
        (Syscall.read img cs p fd true n keyBuf).stored ∧
      Streaming inode fd (Syscall.read img cs p fd true n keyBuf).proc
        (done ++ (Syscall.read img cs p fd true n keyBuf).stored) := by
  have hop : readOp img cs keyBuf p.dev (p.fds fd) true n = fileRead img cs p.dev (p.fds fd) true n := by
    rw [readOp, h.pointer]
  have hout := readData_stays img done.length n.toNat hino hspan (2 ^ 32 - 2)
    (by decide) (by have := h.bounded; omega)
  rw [read_open hn h.opened, hop, fileRead, h.inode, h.position]
  refine ⟨readData_delivers img _ _ hino hspan, ?_⟩
  constructor <;> simp only [Function.update_self, advanced, List.length_append]
  · exact h.pointer
  · exact h.inode
  · rw [readData_ret img _ _ hino, h.position, u32]
    omega
  · exact h.opened
  · omega

/-- Any sequence of calls makes progress by what its reads asked for. -/
theorem Streaming.calls (cl : List Call) (hcl : ∀ c ∈ cl, Streams fd c) {total : ℕ}
    (h : Streaming inode fd p done) (hp : Progress (contents img inode) done total) :
    Progress (contents img inode) (done ++ delivered img cs fd p cl) (total + asked fd cl) := by
  induction cl generalizing p done total with
  | nil => simpa [delivered, asked] using hp
  | cons c cl ih =>
    have hc := hcl c (by simp)
    have hrest : ∀ c ∈ cl, Streams fd c := fun c' hc' => hcl c' (by simp [hc'])
    cases c with
    | read fd' buf n keyBuf =>
      by_cases hfd : fd' = fd
      · subst hfd
        obtain ⟨rfl, hn⟩ := hc rfl
        obtain ⟨hout, hnext⟩ := h.read img cs hino hspan hn keyBuf
        have := ih hrest hnext (hp.read hout)
        simpa [delivered, asked, List.append_assoc, Nat.add_assoc] using this
      · have hother : (Call.read fd' buf n keyBuf).fd ≠ some (fd : ℤ) := by simpa [Call.fd] using hfd
        have := ih hrest (h.other img cs hother) hp
        simpa [delivered, asked, hfd, call] using this
    | «open» filename => exact ih hrest (h.other img cs hc) hp
    | close fd' => exact ih hrest (h.other img cs hc) hp
    | write fd' buf n => exact ih hrest (h.other img cs hc) hp

end Reads

/-- The descriptor returned by a successful `open` of a regular file streams it. -/
theorem streaming_open {img : Image} {p : Proc} {name : CString} {d : Dentry} {fd : Fin 8}
    (hd : readDentryByName img name = some d) (htype : d.fileType = fileTypeRegular)
    (hopen : (sysOpen img p (some name)).ret = fd) :
    Streaming d.inodeNum fd (sysOpen img p (some name)).proc [] := by
  have hops : fopsOfType d.fileType = some .fileFops := by rw [htype]; rfl
  have hname : openable img (some name) = some (d, .fileFops) ∨ openable img (some name) = none := by
    simp only [openable, hd]
    split_ifs <;> simp [hops]
  rw [sysOpen_eq] at hopen ⊢
  rcases hname with hname | hname
  · rw [hname] at hopen ⊢
    cases hfree : firstFree p.fds with
    | none =>
      simp only [hfree, failure] at hopen
      omega
    | some i =>
      obtain rfl : i = fd := by
        simp only [hfree] at hopen
        exact Fin.ext (by omega)
      constructor <;> simp [openedEntry]
  · simp only [hname, failure] at hopen
    omega

/-- The reads on a descriptor deliver the file from its start without a gap,
whatever the process does with its other descriptors in between. -/
theorem reads_deliver_file (img : Image) (cs : Fin 3) (p : Proc) (name : CString) (d : Dentry)
    (fd : Fin 8) (hd : readDentryByName img name = some d) (htype : d.fileType = fileTypeRegular)
    (hopen : (sysOpen img p (some name)).ret = fd)
    (hino : d.inodeNum < img.bootBlock.fileStat.inodeNum)
    (hspan : (img.inode d.inodeNum).blocks ≤ 1022)
    (hlt : ∀ i < (img.inode d.inodeNum).blocks,
      (img.inode d.inodeNum).dataBlock i < img.bootBlock.fileStat.dataBlockNum)
    (hinj : ∀ i < (img.inode d.inodeNum).blocks, ∀ j < (img.inode d.inodeNum).blocks,
      (img.inode d.inodeNum).dataBlock i = (img.inode d.inodeNum).dataBlock j → i = j)
    (cl : List Call) (hcl : ∀ c ∈ cl, Streams fd c) :
    (delivered img cs fd (sysOpen img p (some name)).proc cl).take (img.inode d.inodeNum).length =
      (contents img d.inodeNum).take (min (asked fd cl) (img.inode d.inodeNum).length) := by
  have hlimit := blocks_le_blockLimit hspan hlt hinj
  have h := (streaming_open hd htype hopen).calls img cs hino hlimit cl hcl (progress_start _)
  simpa using h.prefix_eq

/-- A four-byte file read as 3 and then 10 bytes, with another file opened and
closed in between: the second read runs on into the rest of the block. -/
theorem reads_deliver_file_stale :
    (delivered staleImage 0 2 (sysOpen staleImage freshProc (some nameA)).proc
        [.read 2 true 3 fun _ => 0, .open (some nameB), .close 3,
          .read 2 true 10 fun _ => 0]).take 4 = [0x7F, 0x45, 0x4C, 0x46] := by
  have h := reads_deliver_file staleImage 0 freshProc nameA (Dentry.regular [0x61] 0) 2
    (by decide) rfl (by decide) (by decide) (by decide) (by decide) (by decide)
    [.read 2 true 3 fun _ => 0, .open (some nameB), .close 3,
      .read 2 true 10 fun _ => 0] (by simp [Streams, Call.fd])
  exact h

end Ece391.Syscall

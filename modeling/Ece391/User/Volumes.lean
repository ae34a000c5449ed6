import Ece391.FileSys.Volume
import Ece391.Kernel.Loading
import Ece391.User.Programs

/-! A volume in use. The program of a file that `execute` is told the name of finds the
bytes of the file in its memory, and `cat` prints the bytes of a file. Between the volume
and the user lie the image in memory, the lookup, the reads of whole blocks, the user page,
and the other processes. -/

namespace Ece391.User

open Lib hiding kb4
open FileSys Syscall Kernel Support.Layout Support.Runs Support.Scripts

/-! ### Programs -/

/-- The file is a program: it begins with the magic bytes, has an entry point, and its
bytes have room in a user page. -/
structure IsProgram (f : File) : Prop where
  magic : f.contents.take 4 = magicIdentifiers
  entry : 28 ≤ f.contents.length
  room : programOffset + f.contents.length ≤ fourMb

instance (f : File) : Decidable (IsProgram f) :=
  decidable_of_iff (f.contents.take 4 = magicIdentifiers ∧ 28 ≤ f.contents.length ∧
    programOffset + f.contents.length ≤ fourMb) ⟨fun ⟨h, h', h''⟩ => ⟨h, h', h''⟩,
      fun ⟨h, h', h''⟩ => ⟨h, h', h''⟩⟩

/-- The command names the file, and its argument has room. -/
structure Invokes (command : CString) (f : File) : Prop where
  name : nameOf command = f.name.bytes
  arg : (argOf command).length ≤ maxArgLen - (nameOf command).length

instance (command : CString) (f : File) : Decidable (Invokes command f) :=
  decidable_of_iff (nameOf command = f.name.bytes ∧
    (argOf command).length ≤ maxArgLen - (nameOf command).length)
    ⟨fun ⟨h, h'⟩ => ⟨h, h'⟩, fun ⟨h, h'⟩ => ⟨h, h'⟩⟩

section Load
variable {img : Image} {v : Volume} (h : Represents img v) {i : ℕ} (hi : i < v.files.length)
include h

theorem Represents.length_eq :
    (img.inode (img.bootBlock.dentry i).inodeNum).length = v.files[i].contents.length := by
  rw [← h.contents i hi, contents_length]

include hi in
theorem Represents.length_le :
    (img.inode (img.bootBlock.dentry i).inodeNum).length ≤ blockLimit img * FileSys.kb4 :=
  (Inode.length_le_blocks _).trans (Nat.mul_le_mul_right _ (h.blocks i hi))

theorem Represents.loadable (hf : IsProgram v.files[i]) : Loadable img (img.bootBlock.dentry i) where
  inode := h.inode i hi
  entry := by
    rw [Represents.length_eq h hi]
    exact hf.entry
  room := by
    rw [Represents.length_eq h hi]
    exact hf.room
  blocks := by
    have hlimit : blockLimit img * FileSys.kb4 ≤ img.bootBlock.fileStat.dataBlockNum * FileSys.kb4 :=
      Nat.mul_le_mul_right _ (Nat.min_le_right _ _)
    exact ((Represents.length_le h hi).trans hlimit).trans (Nat.le_succ _)

theorem Represents.isExe (hf : IsProgram v.files[i]) (buf : ℕ → UInt8) :
    isExe img buf v.files[i].name = true := by
  have hload := Represents.loadable h hi hf
  have h28 := hload.entry
  have hfills : FillsBuffer img (img.bootBlock.dentry i).inodeNum :=
    ⟨hload.inode, by omega, hload.dataBlockNum_pos⟩
  rw [isExe_of_fills (h.found_nth hi) hfills, ← contents_head _ _ (by omega), h.contents i hi]
  exact hf.magic

/-- Below the limit a command that names a program is admitted. -/
theorem Represents.admission (hf : IsProgram v.files[i]) {command : CString}
    (hc : Invokes command v.files[i]) (st : Stack) {k : State}
    (hlimit : k.running = none ∨ k.processCounter ≠ maxPid) :
    admission img st k (some command) =
      .admitted (img.bootBlock.dentry i) (argOf command ++ [0]) := by
  have hshort : (nameOf command).length ≤ maxFileLen := hc.name ▸ v.files[i].short
  have hret : (parse (some command)).ret = 0 := (parse_splits command).1.mpr ⟨hshort, hc.arg⟩
  obtain ⟨hfilename, harg⟩ := (parse_splits command).2 hret
  have hname : CString.ofBuf (parse (some command)).filename = v.files[i].name := by
    rw [hfilename, hc.name]
    exact CString.ofBuf_bytes _ []
  have hroom : ¬ (k.running ≠ none ∧ k.processCounter = maxPid ∧
      strncmp (bufMem (parse (some command)).filename) exitName.mem 5 ≠ 0) :=
    fun hfull => hlimit.elim hfull.1 fun hne => hne hfull.2.1
  have hexe : ¬ Kernel.isExe img st.magic v.files[i].name = false := by
    rw [Represents.isExe h hi hf]
    decide
  have hparsed : ¬ (parse (some command)).ret = -1 := by
    rw [hret]
    decide
  simp only [Kernel.admission, if_neg hparsed, if_neg hroom, hname, h.found_nth hi, if_neg hexe, harg]

theorem Represents.execute (hf : IsProgram v.files[i]) {command : CString}
    (hc : Invokes command v.files[i]) (stack : ℕ → Stack) {k : State} {slot : Fin 6}
    (hlimit : k.running = none ∨ k.processCounter ≠ maxPid) (hslot : findPid k.pid = some slot) :
    execute img stack k (some command) =
      (enter img (stack k.trace.activations) (claimPid (beginCall k) (some slot))
        k.trace.activations slot (img.bootBlock.dentry i) (argOf command ++ [0]), .entered) := by
  have hadm := Represents.admission h hi hf hc (stack k.trace.activations) (k := beginCall k) hlimit
  have hslot' : findPid (beginCall k).pid = some slot := hslot
  simp only [Kernel.execute, hadm, hslot']

end Load

theorem enter_lost {img : Image} {d : Dentry} (st : Stack) (k : State) (act : ℕ) (slot : Fin 6)
    (arg : List UInt8) (hfit : programOffset + (loadedBytes img d).length ≤ fourMb) :
    (enter img st k act slot d arg).lost = k.lost := by
  have hfit' : ¬ fourMb <
      programOffset + (readData img d.inodeNum 0 true (img.inode d.inodeNum).length).bytes.length :=
    Nat.not_lt.mpr hfit
  simp only [enter, if_neg hfit']
  rfl

def nameC : CString := ⟨[0x63], CString.noNul_of_all rfl⟩

theorem regular_lt : fileTypeRegular < 2 ^ 32 := by decide

theorem nothing_fits : ([] : List UInt8).length ≤ 1022 * FileSys.kb4 := by decide

/-- A shell that is not longer than it must be, and an empty file called "c". -/
def shellVolume : Volume where
  files := [⟨shellName, fileTypeRegular, magicIdentifiers ++ List.replicate 20 0 ++ [0x1C, 0x80, 4, 8],
      by decide, by decide, by decide, regular_lt, by decide⟩,
    ⟨nameC, fileTypeRegular, [], by decide, by decide, by decide, regular_lt, nothing_fits⟩]
  count := by decide
  distinct := by decide

/-- Its blocks, without what fills them up. -/
def shellBlocks : List (List UInt8) :=
  [padded 64 [3, 0, 0, 0, 2, 0, 0, 0, 1, 0, 0, 0] ++ (dentryBytes period.bytes dirType 0 ++
      (dentryBytes shellName.bytes fileTypeRegular 0 ++ dentryBytes nameC.bytes fileTypeRegular 1)),
    [28, 0, 0, 0, 0, 0, 0, 0], [0, 0, 0, 0], shellVolume.files[0].contents]

theorem shellVolume_bytes : shellVolume.bytes = shellBlocks.flatMap (padded FileSys.kb4) := by
  have hboot : shellVolume.bootBytes = padded FileSys.kb4 shellBlocks[0] := by
    rw [Volume.bootBytes]
    congr 1
  have hinodes : (shellVolume.files.zipIdx.flatMap fun f => inodeBytes f.1.contents.length
      (shellVolume.firstBlock f.2) f.1.blocks) =
        padded FileSys.kb4 shellBlocks[1] ++ (padded FileSys.kb4 shellBlocks[2] ++ []) := by
    congr 1
  have hdata : shellVolume.files.flatMap File.data = padded FileSys.kb4 shellBlocks[3] ++ [] := by
    congr 1
  rw [Volume.bytes, hboot, hinodes, hdata]
  simp only [shellBlocks, List.flatMap_cons, List.flatMap_nil, List.append_assoc, List.nil_append,
    List.getElem_cons_zero, List.getElem_cons_succ]

/-- The volume in memory, and the image that `file_sys_init` finds there. -/
def shellMemory : ℕ → UInt8 := blocksAt FileSys.kb4 0x10A000 shellBlocks

theorem shellVolume_lies : Lies shellMemory 0x10A000 shellVolume.bytes := by
  rw [shellVolume_bytes]
  exact lies_blocksAt _ (by decide +kernel)

abbrev shellLoaded : Image := loadedImage shellMemory 0x10A000

theorem shellVolume_fits : 0x10A000 + shellVolume.bytes.length ≤ 2 ^ 32 := by
  rw [bytes_length]
  decide

/-- A list that is filled up in pieces of 1024 bytes. -/
def inPieces (l : List UInt8) : List UInt8 := padded (1024 * ((l.length + 1023) / 1024)) l

theorem inPieces_length (l : List UInt8) : (inPieces l).length = 1024 * ((l.length + 1023) / 1024) :=
  padded_length (by omega)

theorem inPieces_get (l : List UInt8) {q : ℕ} (hq : q < (inPieces l).length) :
    (inPieces l)[q] = l.getD q 0 := by
  simp only [inPieces, padded, List.getElem_append]
  split_ifs with hin
  · rw [List.getD_eq_getElem _ _ hin]
  · rw [List.getElem_replicate, List.getD_eq_default _ _ (not_lt.mp hin)]

section Text
variable {img : Image} {v : Volume} (h : Represents img v) {i : ℕ} (hi : i < v.files.length)
include h hi

theorem Represents.catText :
    catText img (img.bootBlock.dentry i).inodeNum = inPieces v.files[i].contents := by
  have hlength := Represents.length_eq h hi
  have hlimit := Represents.length_le h hi
  have hcontents := v.files[i].contents_le
  have hpieces : pieces img (img.bootBlock.dentry i).inodeNum =
      (v.files[i].contents.length + 1023) / 1024 := by
    rw [pieces, Nat.min_eq_left hlimit, hlength]
  have hquiet : complaint img (img.bootBlock.dentry i).inodeNum = [] :=
    if_neg fun hlong => hlong.1.not_ge hlimit
  rw [User.catText, hpieces, hquiet, List.append_nil]
  apply List.ext_getElem
  · rw [List.length_map, List.length_range', inPieces_length]
  · intro q hq hq'
    have hblock : q < FileSys.kb4 * v.files[i].blocks := by
      rw [List.length_map, List.length_range'] at hq
      simp only [FileSys.kb4] at hcontents ⊢
      omega
    rw [inPieces_get, List.getElem_map, List.getElem_range', Nat.one_mul, Nat.zero_add]
    exact h.fileByte i hi q hblock

theorem Represents.catSays (hregular : v.files[i].fileType = fileTypeRegular) :
    openable img (some v.files[i].name) = some (img.bootBlock.dentry i, .fileFops) ∧
      catSays img v.files[i].name = (0, inPieces v.files[i].contents) := by
  have htype : fopsOfType (img.bootBlock.dentry i).fileType = some .fileFops := by
    rw [h.fileType i hi, hregular]
    rfl
  have hopen : openable img (some v.files[i].name) = some (img.bootBlock.dentry i, .fileFops) := by
    simp only [openable, if_neg v.files[i].named, h.found_nth hi, Option.bind_some, htype,
      Option.map_some]
  refine ⟨hopen, ?_⟩
  simp only [User.catSays, hopen, if_true, if_pos (h.inode i hi), Represents.catText h hi]

end Text

/-- The first shell plays `cat` on the file of the shell, while another one prints. -/
def volumeCat : List UserEvent :=
  [callEvent (.open (some shellName)), callEvent (.read 2 true 1024 fun _ => 0), tickEvent,
    printEvent (text "hi"), tickEvent, tickEvent,
    callEvent (.write 1 (some fun i => (shellVolume.files[0]).contents.getD i 0) 1024),
    callEvent (.read 2 true 1024 fun _ => 0)]

end Ece391.User

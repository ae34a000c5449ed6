import Ece391.FileSys.Directory
import Ece391.FileSys.ReadData
import Ece391.Support.Layout

/-! The image in memory. `file_sys_init` finds the boot block, the inodes and the data blocks
by their sizes, and the structures of `file_sys.h` are packed, so every field has its place.
A volume is what an image is for: files with names, types and contents. It is written down
block after block, and the lookups and reads give it back. -/

namespace Ece391.FileSys

open Lib (CString)
open Support Support.Layout

/-! ### The structures in memory -/

/-- `boot_block_addr`, `inode_addr` and `data_block_addr`. -/
structure FileSysAddrs where
  bootBlockAddr : ℕ
  inodeAddr : ℕ
  dataBlockAddr : ℕ

def fileStatAt (mem : ℕ → UInt8) (a : ℕ) : FileStat := ⟨word mem a, word mem (a + 4), word mem (a + 8)⟩

def dentryAt (mem : ℕ → UInt8) (a : ℕ) : Dentry :=
  ⟨Vector.ofFn fun i : Fin 32 => mem (a + i), word mem (a + 32), word mem (a + 36)⟩

/-- The 64 bytes of `file_stat_`, those of `dir_dentry_`, and the entries. -/
def bootBlockAt (mem : ℕ → UInt8) (a : ℕ) : BootBlock :=
  ⟨fileStatAt mem a, dentryAt mem (a + 64), fun i => dentryAt mem (a + 128 + 64 * i)⟩

def inodeAt (mem : ℕ → UInt8) (a : ℕ) : Inode := ⟨word mem a, fun i => word mem (a + 4 + 4 * i)⟩

/-- `file_sys_init`. -/
def fileSysInit (mem : ℕ → UInt8) (startAddr : ℕ) : FileSysAddrs :=
  let inodeAddr := startAddr + kb4
  let inodeNum := (bootBlockAt mem startAddr).fileStat.inodeNum
  ⟨startAddr, inodeAddr, inodeAddr + kb4 * inodeNum⟩

/-- The image that the three pointers lead to. -/
def imageAt (mem : ℕ → UInt8) (fs : FileSysAddrs) : Image where
  bootBlock := bootBlockAt mem fs.bootBlockAddr
  inode i := inodeAt mem (fs.inodeAddr + kb4 * i)
  dataBlock b off := mem (fs.dataBlockAddr + kb4 * b + off)

/-- The image of a kernel that is told an address. Pointers are words, so addresses wrap. -/
def loadedImage (mem : ℕ → UInt8) (startAddr : ℕ) : Image :=
  let wrapped := fun a => mem (a % 2 ^ 32)
  imageAt wrapped (fileSysInit wrapped startAddr)

/-! ### Volumes -/

/-- A file that the driver can name and read to its end. -/
structure File where
  name : CString
  fileType : ℕ
  contents : List UInt8
  named : name.bytes ≠ []
  short : name.bytes.length ≤ 32
  notDirectory : name ≠ period
  typed : fileType < 2 ^ 32
  fits : contents.length ≤ 1022 * kb4

/-- Files of different names, as many as the boot block has entries for. -/
structure Volume where
  files : List File
  count : files.length ≤ fileNum
  distinct : (files.map File.name).Nodup

/-- The file of a name. -/
def Volume.lookup (v : Volume) (name : CString) : Option File := v.files.find? fun f => f.name = name

/-- The number of blocks of a file. -/
def File.blocks (f : File) : ℕ := (f.contents.length + (kb4 - 1)) / kb4

/-- The first block of the `i`-th file; the files lie one behind another. -/
def Volume.firstBlock (v : Volume) (i : ℕ) : ℕ := ((v.files.take i).map File.blocks).sum

def Volume.blockCount (v : Volume) : ℕ := (v.files.map File.blocks).sum

def dentryBytes (name : List UInt8) (fileType inodeNum : ℕ) : List UInt8 :=
  padded 64 (padded 32 name ++ (wordBytes fileType ++ wordBytes inodeNum))

def inodeBytes (length firstBlock blocks : ℕ) : List UInt8 :=
  padded kb4 (wordBytes length ++ (List.range' firstBlock blocks).flatMap wordBytes)

def File.data (f : File) : List UInt8 := padded (kb4 * f.blocks) f.contents

def Volume.bootBytes (v : Volume) : List UInt8 :=
  padded kb4 (padded 64 (wordBytes (v.files.length + 1) ++ (wordBytes v.files.length ++
    wordBytes v.blockCount)) ++ (dentryBytes period.bytes dirType 0 ++
      v.files.zipIdx.flatMap fun f => dentryBytes f.1.name.bytes f.1.fileType f.2))

/-- A volume as an image, byte for byte. -/
def Volume.bytes (v : Volume) : List UInt8 :=
  v.bootBytes ++ (v.files.zipIdx.flatMap (fun f =>
    inodeBytes f.1.contents.length (v.firstBlock f.2) f.1.blocks) ++ v.files.flatMap File.data)

/-! ### Sizes -/

theorem File.contents_le (f : File) : f.contents.length ≤ kb4 * f.blocks := by
  simp only [File.blocks, kb4]
  omega

theorem File.blocks_le (f : File) : f.blocks ≤ 1022 := by
  have hfits := f.fits
  simp only [File.blocks, kb4] at *
  omega

theorem dentryBytes_length {name : List UInt8} (h : name.length ≤ 32) (fileType inodeNum : ℕ) :
    (dentryBytes name fileType inodeNum).length = 64 := by
  refine padded_length ?_
  rw [List.length_append, padded_length h, List.length_append]
  simp [wordBytes]

theorem inodeBytes_length {blocks : ℕ} (h : blocks ≤ 1022) (length firstBlock : ℕ) :
    (inodeBytes length firstBlock blocks).length = kb4 := by
  refine padded_length ?_
  rw [List.length_append, flatMap_length 4 fun _ _ => wordBytes_length _, List.length_range']
  simp only [wordBytes_length, kb4]
  omega

theorem File.data_length (f : File) : f.data.length = kb4 * f.blocks := padded_length f.contents_le

theorem data_flatMap_length (fs : List File) :
    (fs.flatMap File.data).length = kb4 * (fs.map File.blocks).sum := by
  induction fs with
  | nil => rfl
  | cons f fs ih =>
    rw [List.flatMap_cons, List.length_append, f.data_length, ih, List.map_cons, List.sum_cons,
      Nat.mul_add]

section Volume
variable (v : Volume)

theorem entries_length : (v.files.zipIdx.flatMap fun f =>
    dentryBytes f.1.name.bytes f.1.fileType f.2).length = 64 * v.files.length := by
  rw [flatMap_length 64 fun f _ => dentryBytes_length f.1.short _ _, List.length_zipIdx]

theorem bootBytes_content_length :
    (padded 64 (wordBytes (v.files.length + 1) ++ (wordBytes v.files.length ++
      wordBytes v.blockCount)) ++ (dentryBytes period.bytes dirType 0 ++
        v.files.zipIdx.flatMap fun f => dentryBytes f.1.name.bytes f.1.fileType f.2)).length =
      128 + 64 * v.files.length := by
  rw [List.length_append, List.length_append, entries_length, padded_length (by simp [wordBytes]),
    dentryBytes_length (by decide)]
  omega

theorem bootBytes_length : v.bootBytes.length = kb4 := by
  refine padded_length ?_
  have hcount := v.count
  rw [bootBytes_content_length]
  simp only [fileNum, kb4] at *
  omega

theorem inodes_length : (v.files.zipIdx.flatMap fun f =>
    inodeBytes f.1.contents.length (v.firstBlock f.2) f.1.blocks).length = kb4 * v.files.length := by
  rw [flatMap_length kb4 fun f _ => inodeBytes_length f.1.blocks_le _ _, List.length_zipIdx]

theorem blockCount_le (fs : List File) : (fs.map File.blocks).sum ≤ fs.length * 1022 := by
  induction fs with
  | nil => exact Nat.le_refl 0
  | cons f fs ih =>
    have hblocks := f.blocks_le
    rw [List.map_cons, List.sum_cons, List.length_cons, Nat.succ_mul]
    omega

/-- The blocks of a file lie inside the volume. -/
theorem firstBlock_add_le {i : ℕ} (hi : i < v.files.length) :
    v.firstBlock i + v.files[i].blocks ≤ v.blockCount := by
  have hsplit : v.files.map File.blocks =
      (v.files.take i).map File.blocks ++ (v.files[i].blocks :: (v.files.drop (i + 1)).map File.blocks) := by
    rw [← List.map_cons, List.getElem_cons_drop, ← List.map_append, List.take_append_drop]
  rw [Volume.blockCount, hsplit, List.sum_append, List.sum_cons, Volume.firstBlock]
  omega

end Volume

/-! ### The fields of an image in memory -/

section Fields
variable {mem : ℕ → UInt8} {a : ℕ}

theorem takeWhile_name (name : CString) (n : ℕ) :
    (name.bytes ++ List.replicate n 0).takeWhile (· != 0) = name.bytes := by
  have hname : ∀ b ∈ name.bytes, (b != 0) = true := fun b hb => by simpa using name.noNul b hb
  rw [List.takeWhile_append_of_pos hname]
  cases n <;> simp [List.replicate_succ]

theorem dentryAt_bytes {name : CString} {fileType inodeNum : ℕ}
    (h : Lies mem a (dentryBytes name.bytes fileType inodeNum)) (hname : name.bytes.length ≤ 32)
    (htype : fileType < 2 ^ 32) (hinode : inodeNum < 2 ^ 32) :
    (dentryAt mem a).name = name ∧ (dentryAt mem a).fileType = fileType ∧
      (dentryAt mem a).inodeNum = inodeNum := by
  have hlen := padded_length hname
  have hfields := h.left.right
  rw [hlen] at hfields
  refine ⟨CString.ext ?_, hfields.left.word htype, hfields.right.word hinode⟩
  have hfield : (dentryAt mem a).fileName.toList = padded 32 name.bytes := by
    apply List.ext_getElem
    · rw [Vector.length_toList, hlen]
    · intro i hi hi'
      simp only [dentryAt, Vector.getElem_toList, Vector.getElem_ofFn]
      exact h.left.left i hi'
  simp only [Dentry.name, CString.ofBuf, hfield, padded, takeWhile_name]

theorem dentryAt_zero (h : ∀ i < 32, mem (a + i) = 0) : (dentryAt mem a).name.bytes = [] := by
  have hfirst : mem (a + 0) = 0 := h 0 (by decide)
  have hfield : (dentryAt mem a).fileName.toList = List.replicate 32 0 := by
    apply List.ext_getElem
    · rw [Vector.length_toList, List.length_replicate]
    · intro i hi hi'
      simp only [dentryAt, Vector.getElem_toList, Vector.getElem_ofFn, List.getElem_replicate]
      exact h i (by simpa using hi')
  simp only [Dentry.name, CString.ofBuf, hfield]
  rfl

theorem inodeAt_bytes {length firstBlock blocks : ℕ} (h : Lies mem a (inodeBytes length firstBlock blocks))
    (hlength : length < 2 ^ 32) (hblocks : firstBlock + blocks ≤ 2 ^ 32) :
    (inodeAt mem a).length = length ∧
      ∀ i < blocks, (inodeAt mem a).dataBlock i = firstBlock + i := by
  refine ⟨h.left.left.word hlength, fun i hi => ?_⟩
  have hnumbers := h.left.right
  rw [wordBytes_length] at hnumbers
  have hnumber := hnumbers.record (fun _ _ => wordBytes_length _)
    (show i < (List.range' firstBlock blocks).length by rwa [List.length_range'])
  rw [List.getElem_range', Nat.one_mul] at hnumber
  exact hnumber.word (by omega)

end Fields

section Image
variable {mem : ℕ → UInt8} {start : ℕ} {v : Volume} (h : Lies mem start v.bytes)
include h

theorem fileStat_volume : (bootBlockAt mem start).fileStat =
    ⟨v.files.length + 1, v.files.length, v.blockCount⟩ := by
  have hstat := h.left.left.left.left
  have hcount := v.count
  have hblocks := blockCount_le v.files
  have hdir := hstat.left.word (by simp only [fileNum] at hcount; omega)
  have hinodes := hstat.right.left.word (by simp only [fileNum] at hcount; omega)
  have hdata := hstat.right.right.word (by
    simp only [fileNum] at hcount
    simp only [Volume.blockCount]
    omega)
  simp only [wordBytes_length, Nat.add_assoc] at hinodes hdata
  simp only [bootBlockAt, fileStatAt, hdir, hinodes, hdata]

theorem entries_volume : Lies mem (start + 64) (dentryBytes period.bytes dirType 0 ++
    v.files.zipIdx.flatMap fun f => dentryBytes f.1.name.bytes f.1.fileType f.2) := by
  have hentries := h.left.left.right
  rwa [padded_length (by simp [wordBytes])] at hentries

theorem dirDentry_volume : (bootBlockAt mem start).dirDentry.name = period ∧
    (bootBlockAt mem start).dirDentry.fileType = dirType := by
  have hentry := dentryAt_bytes (entries_volume h).left (by decide) (by decide) (by decide)
  exact ⟨hentry.1, hentry.2.1⟩

theorem dentry_volume {i : ℕ} (hi : i < v.files.length) :
    ((bootBlockAt mem start).dentry i).name = v.files[i].name ∧
      ((bootBlockAt mem start).dentry i).fileType = v.files[i].fileType ∧
      ((bootBlockAt mem start).dentry i).inodeNum = i := by
  have hrows := (entries_volume h).right
  rw [dentryBytes_length (by decide), Nat.add_assoc] at hrows
  have hrow := hrows.record (fun f _ => dentryBytes_length f.1.short _ _)
    (show i < v.files.zipIdx.length by rwa [List.length_zipIdx])
  simp only [List.getElem_zipIdx, Nat.zero_add] at hrow
  have hcount := v.count
  exact dentryAt_bytes hrow v.files[i].short v.files[i].typed (by simp only [fileNum] at hcount; omega)

/-- The entries behind the last file. -/
theorem free_volume {i : ℕ} (hlow : v.files.length ≤ i) (hhigh : i < fileNum) :
    ((bootBlockAt mem start).dentry i).name.bytes = [] := by
  refine dentryAt_zero fun o ho => ?_
  have hzero := h.left.padding (i := 128 + 64 * i + o) (by rw [bootBytes_content_length]; omega)
    (by simp only [fileNum, kb4] at *; omega)
  simpa only [Nat.add_assoc] using hzero

theorem inode_volume {i : ℕ} (hi : i < v.files.length) :
    (inodeAt mem (start + kb4 + kb4 * i)).length = v.files[i].contents.length ∧
      ∀ j < v.files[i].blocks,
        (inodeAt mem (start + kb4 + kb4 * i)).dataBlock j = v.firstBlock i + j := by
  have hrows := h.right.left
  rw [bootBytes_length] at hrows
  have hrow := hrows.record (fun f _ => inodeBytes_length f.1.blocks_le _ _)
    (show i < v.files.zipIdx.length by rwa [List.length_zipIdx])
  simp only [List.getElem_zipIdx, Nat.zero_add] at hrow
  have hfits := v.files[i].fits
  have hcount := v.count
  have hblocks := blockCount_le v.files
  have hinside := firstBlock_add_le v hi
  refine inodeAt_bytes hrow (by simp only [kb4] at hfits; omega) ?_
  simp only [fileNum, Volume.blockCount] at *
  omega

theorem data_volume {i : ℕ} (hi : i < v.files.length) {q : ℕ} (hq : q < v.files[i].contents.length) :
    mem (start + kb4 + kb4 * v.files.length + kb4 * v.firstBlock i + q) = v.files[i].contents[q] := by
  have hrows := h.right.right
  rw [bootBytes_length, inodes_length] at hrows
  have hrow := hrows.flatMap hi
  rw [data_flatMap_length] at hrow
  exact hrow.left q hq

end Image

/-! ### What the driver sees of a volume -/

/-- The driver sees the files of a volume, wherever their inodes and blocks lie. -/
structure Represents (img : Image) (v : Volume) : Prop where
  period : img.bootBlock.dirDentry.name = period
  directory : img.bootBlock.dirDentry.fileType = dirType
  count : img.bootBlock.fileStat.dirEntryNum = v.files.length + 1
  name : ∀ i (hi : i < v.files.length), (img.bootBlock.dentry i).name = v.files[i].name
  fileType : ∀ i (hi : i < v.files.length), (img.bootBlock.dentry i).fileType = v.files[i].fileType
  inode : ∀ i, i < v.files.length →
    (img.bootBlock.dentry i).inodeNum < img.bootBlock.fileStat.inodeNum
  contents : ∀ i (hi : i < v.files.length),
    contents img (img.bootBlock.dentry i).inodeNum = v.files[i].contents
  /-- Behind its end a file has zeros up to the end of its last block. -/
  fileByte : ∀ i (hi : i < v.files.length), ∀ q < kb4 * v.files[i].blocks,
    fileByte img (img.inode (img.bootBlock.dentry i).inodeNum) q = v.files[i].contents.getD q 0
  blocks : ∀ i, i < v.files.length →
    (img.inode (img.bootBlock.dentry i).inodeNum).blocks ≤ blockLimit img
  free : ∀ i, v.files.length ≤ i → i < fileNum → (img.bootBlock.dentry i).name.bytes = []

section Loaded
variable {mem : ℕ → UInt8} {start : ℕ} {v : Volume}

theorem bytes_length (v : Volume) :
    v.bytes.length = kb4 + (kb4 * v.files.length + kb4 * v.blockCount) := by
  rw [Volume.bytes, List.length_append, List.length_append, bootBytes_length, inodes_length,
    data_flatMap_length, Volume.blockCount]

/-- An image that does not wrap around is there behind wrapping pointers too. -/
theorem lies_wrapped {l : List UInt8} (h : Lies mem start l) (hfits : start + l.length ≤ 2 ^ 32) :
    Lies (fun a => mem (a % 2 ^ 32)) start l := by
  intro i hi
  dsimp only
  rw [Nat.mod_eq_of_lt (by omega)]
  exact h i hi

/-- The places that `file_sys_init` finds. -/
theorem loadedImage_eq (h : Lies mem start v.bytes) (hfits : start + v.bytes.length ≤ 2 ^ 32) :
    loadedImage mem start =
      imageAt (fun a => mem (a % 2 ^ 32)) ⟨start, start + kb4, start + kb4 + kb4 * v.files.length⟩ := by
  have hstat := fileStat_volume (lies_wrapped h hfits)
  simp only [loadedImage, fileSysInit, hstat]

/-- A byte of a file, also behind its end in the last block. -/
theorem fileByte_volume (h : Lies mem start v.bytes) (hfits : start + v.bytes.length ≤ 2 ^ 32) {i : ℕ}
    (hi : i < v.files.length) {q : ℕ} (hq : q < kb4 * v.files[i].blocks) :
    fileByte (loadedImage mem start) ((loadedImage mem start).inode i) q =
      v.files[i].contents.getD q 0 := by
  have hwrapped := lies_wrapped h hfits
  have hblock : q / kb4 < v.files[i].blocks := Nat.div_lt_of_lt_mul hq
  have hplace : start + kb4 + kb4 * v.files.length + kb4 * (v.firstBlock i + q / kb4) + q % kb4 =
      start + kb4 + kb4 * v.files.length + kb4 * v.firstBlock i + q := by
    have hdiv := Nat.div_add_mod q kb4
    rw [Nat.mul_add]
    omega
  rw [loadedImage_eq h hfits, fileByte]
  simp only [imageAt, (inode_volume hwrapped hi).2 _ hblock]
  rw [hplace]
  rcases Nat.lt_or_ge q v.files[i].contents.length with hin | hout
  · rw [List.getD_eq_getElem _ _ hin]
    exact data_volume hwrapped hi hin
  · have hrows := hwrapped.right.right
    rw [bootBytes_length, inodes_length] at hrows
    have hrow := hrows.flatMap hi
    rw [data_flatMap_length] at hrow
    rw [List.getD_eq_default _ _ hout]
    exact hrow.padding hout hq

/-- A volume in memory is seen as such. -/
theorem loaded_represents (h : Lies mem start v.bytes) (hfits : start + v.bytes.length ≤ 2 ^ 32) :
    Represents (loadedImage mem start) v := by
  have hwrapped := lies_wrapped h hfits
  have himage := loadedImage_eq h hfits
  have hstat : (loadedImage mem start).bootBlock.fileStat =
      ⟨v.files.length + 1, v.files.length, v.blockCount⟩ := by
    rw [himage]
    exact fileStat_volume hwrapped
  have hdentry : ∀ i (hi : i < v.files.length),
      ((loadedImage mem start).bootBlock.dentry i).name = v.files[i].name ∧
      ((loadedImage mem start).bootBlock.dentry i).fileType = v.files[i].fileType ∧
      ((loadedImage mem start).bootBlock.dentry i).inodeNum = i := by
    rw [himage]
    exact fun i hi => dentry_volume hwrapped hi
  have hinode : ∀ i (hi : i < v.files.length),
      ((loadedImage mem start).inode i).length = v.files[i].contents.length := by
    rw [himage]
    exact fun i hi => (inode_volume hwrapped hi).1
  refine ⟨?_, ?_, by rw [hstat], fun i hi => (hdentry i hi).1, fun i hi => (hdentry i hi).2.1,
    fun i hi => ?_, fun i hi => ?_, fun i hi q hq => ?_, fun i hi => ?_, ?_⟩
  · rw [himage]
    exact (dirDentry_volume hwrapped).1
  · rw [himage]
    exact (dirDentry_volume hwrapped).2
  · rw [(hdentry i hi).2.2, hstat]
    exact hi
  · rw [(hdentry i hi).2.2]
    apply List.ext_getElem
    · rw [contents_length, hinode i hi]
    · intro q hq hq'
      have hblocks := v.files[i].contents_le
      simp only [FileSys.contents, List.getElem_map, List.getElem_range', Nat.one_mul, Nat.zero_add]
      rw [fileByte_volume h hfits hi (by omega), List.getD_eq_getElem _ _ hq']
  · rw [(hdentry i hi).2.2]
    exact fileByte_volume h hfits hi hq
  · have hinside := firstBlock_add_le v hi
    have hblocks := v.files[i].blocks_le
    rw [(hdentry i hi).2.2, Inode.blocks, hinode i hi, blockLimit, hstat]
    exact Nat.le_min.mpr ⟨hblocks, Nat.le_trans (Nat.le_add_left _ _) hinside⟩
  · rw [himage]
    exact fun i hlow hhigh => free_volume hwrapped hlow hhigh

end Loaded

section Represented
variable {img : Image} {v : Volume} (h : Represents img v)
include h

theorem Represents.found {name : CString} (hperiod : name ≠ FileSys.period) {i : ℕ}
    (hi : i < v.files.length) (hname : v.files[i].name = name)
    (hfirst : ∀ j (hj : j < i), v.files[j].name ≠ name) :
    readDentryByName img name = some (img.bootBlock.dentry i) := by
  refine (readDentryByName_eq_some hperiod).mpr ⟨i, hi.trans_le v.count, rfl, ?_, fun j hj => ?_⟩
  · rw [h.name i hi, hname]
  · rw [h.name j (hj.trans hi)]
    exact hfirst j hj

theorem Represents.found_nth {i : ℕ} (hi : i < v.files.length) :
    readDentryByName img v.files[i].name = some (img.bootBlock.dentry i) := by
  refine h.found v.files[i].notDirectory hi rfl fun j hj hname => ?_
  have hne := List.pairwise_iff_getElem.mp v.distinct j i (by rw [List.length_map]; omega)
    (by rwa [List.length_map]) hj
  exact hne (by rwa [List.getElem_map, List.getElem_map])

/-- The lookup by name is that of the volume. -/
theorem Represents.lookup {name : CString} (hne : name.bytes ≠ []) (hperiod : name ≠ FileSys.period) :
    (readDentryByName img name).map (fun d => (d.fileType, FileSys.contents img d.inodeNum)) =
      (v.lookup name).map fun f => (f.fileType, f.contents) := by
  cases hfile : v.lookup name with
  | some f =>
    obtain ⟨hp, i, hi, rfl, hfirst⟩ := List.find?_eq_some_iff_getElem.mp hfile
    have hname : v.files[i].name = name := by simpa using hp
    rw [h.found hperiod hi hname fun j hj => by simpa using hfirst j hj]
    simp only [Option.map_some, h.fileType i hi, h.contents i hi]
  | none =>
    have hnone : readDentryByName img name = none := by
      by_contra hsome
      obtain ⟨d, hd⟩ := Option.ne_none_iff_exists'.mp hsome
      obtain ⟨i, hi, rfl, hname, -⟩ := (readDentryByName_eq_some hperiod).mp hd
      rcases Nat.lt_or_ge i v.files.length with hlow | hhigh
      · have hall := List.find?_eq_none.mp hfile v.files[i] (List.getElem_mem hlow)
        rw [h.name i hlow] at hname
        exact hall (by simpa using hname)
      · exact hne (hname ▸ h.free i hhigh hi)
    rw [hnone]
    rfl

/-- A listing is that of the volume. -/
theorem Represents.listing : (List.range img.bootBlock.fileStat.dirEntryNum).map (entryName img) =
    FileSys.period :: v.files.map File.name := by
  apply List.ext_getElem
  · simp [h.count]
  · intro m hm hm'
    rw [List.getElem_map, List.getElem_range]
    cases m with
    | zero => exact h.period
    | succ i =>
      rw [List.getElem_cons_succ, List.getElem_map]
      exact h.name i (by simpa using hm')

end Represented

/-- A memory that holds nothing but a list. -/
theorem lies_getD (start : ℕ) (l : List UInt8) : Lies (fun a => l.getD (a - start) 0) start l := by
  intro i hi
  dsimp only
  rw [Nat.add_sub_cancel_left, List.getD_eq_getElem _ _ hi]

/-- "a" with three bytes, and "b" of the type of the clock. -/
def smallVolume : Volume where
  files := [⟨nameA, fileTypeRegular, [1, 2, 3], by decide, by decide, by decide, by decide, by decide⟩,
    ⟨nameB, rtcType, [], by decide, by decide, by decide, by decide, by decide⟩]
  count := by decide
  distinct := by decide

end Ece391.FileSys

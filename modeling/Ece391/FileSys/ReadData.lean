import Ece391.FileSys.Image
import Ece391.Support.Cursor

/-! `read_data` of `file_sys.c`. The loop walks the blocks of an inode and tests
the index of the block it has just left, so the first byte behind the last
admitted block is still delivered. It never looks at the length of the file after
its first test, and may deliver bytes that lie behind the end of the file. -/

namespace Ece391.FileSys

open Support

/-- What `read_data` did: its result, the bytes it stored at `buf[0]`, `buf[1]`
and so on, and whether it printed "invalid data block!". -/
structure ReadOut where
  ret : ℤ
  bytes : List UInt8
  complained : Bool

/-- The loop of `read_data` with `n` iterations to go. -/
def readLoop (img : Image) (ino : Inode) (length : ℕ) :
    (n dataCounter blockIndex currBlockNum offset : ℕ) → List UInt8 × Bool
  | 0, _, _, _, _ => ([], false)
  | n + 1, dataCounter, blockIndex, currBlockNum, offset =>
    if dataCounter = length ∨ blockIndex = 1024 - 2 then ([], false)
    else if img.bootBlock.fileStat.dataBlockNum ≤ blockIndex then ([], true)
    else if offset = kb4 then
      -- the current block is finished: go to the next one
      let next := ino.dataBlock (blockIndex + 1)
      let rest := readLoop img ino length n (dataCounter + 1) (blockIndex + 1) next 1
      (img.dataBlock next 0 :: rest.1, rest.2)
    else
      let rest := readLoop img ino length n (dataCounter + 1) blockIndex currBlockNum (offset + 1)
      (img.dataBlock currBlockNum offset :: rest.1, rest.2)

/-- `read_data`; `buf` says that the buffer address is not NULL. -/
def readData (img : Image) (inode offset : ℕ) (buf : Bool) (length : ℕ) : ReadOut :=
  let ino := img.inode inode
  if img.bootBlock.fileStat.inodeNum ≤ inode ∨ buf = false then ⟨-1, [], false⟩
  else if ino.length ≤ offset then ⟨0, [], false⟩
  else
    let blockIndex := offset / kb4
    let out := readLoop img ino length length 0 blockIndex (ino.dataBlock blockIndex)
      (offset - blockIndex * kb4)
    ⟨out.1.length, out.1, out.2⟩

/-- The byte at a position of a file, its blocks taken in `data_block_` order. -/
def fileByte (img : Image) (ino : Inode) (q : ℕ) : UInt8 :=
  img.dataBlock (ino.dataBlock (q / kb4)) (q % kb4)

/-- The contents of a file. -/
def contents (img : Image) (inode : ℕ) : List UInt8 :=
  (List.range' 0 (img.inode inode).length).map (fileByte img (img.inode inode))

/-- The number of blocks a file spans. -/
def Inode.blocks (ino : Inode) : ℕ := (ino.length + (kb4 - 1)) / kb4

/-- The first block index at which the loop gives up. -/
def blockLimit (img : Image) : ℕ := min 1022 img.bootBlock.fileStat.dataBlockNum

/-- The most bytes the loop can deliver from a block and an offset in it. -/
def loopRoom (img : Image) (blockIndex offset : ℕ) : ℕ :=
  if blockLimit img ≤ blockIndex then 0
  else blockLimit img * kb4 + 1 - (blockIndex * kb4 + offset)

/-- The block index at which the loop gives up when it begins in block `b`. The test for
1022 is one for equality, and a loop that begins behind it only meets the other one. -/
def stopBlock (img : Image) (b : ℕ) : ℕ :=
  if b ≤ 1022 then blockLimit img else img.bootBlock.fileStat.dataBlockNum

/-- The first position that a read from `pos` does not reach, however long. -/
def readEnd (img : Image) (pos : ℕ) : ℕ :=
  if stopBlock img (pos / kb4) ≤ pos / kb4 then pos else stopBlock img (pos / kb4) * kb4 + 1

theorem stopBlock_le_iff (img : Image) (b : ℕ) :
    stopBlock img b ≤ b ↔ b = 1022 ∨ img.bootBlock.fileStat.dataBlockNum ≤ b := by
  unfold stopBlock blockLimit
  split_ifs <;> omega

theorem stopBlock_succ {img : Image} {b : ℕ} (h : b ≠ 1022) :
    stopBlock img (b + 1) = stopBlock img b := by
  unfold stopBlock
  split_ifs <;> omega

/-- The places that the loop of `read_data` reads, each a block number and an offset in the
block; the loop is that of `readLoop`. -/
def placeLoop (img : Image) (ino : Inode) (length : ℕ) :
    (n dataCounter blockIndex currBlockNum offset : ℕ) → List (ℕ × ℕ)
  | 0, _, _, _, _ => []
  | n + 1, dataCounter, blockIndex, currBlockNum, offset =>
    if dataCounter = length ∨ blockIndex = 1024 - 2 then []
    else if img.bootBlock.fileStat.dataBlockNum ≤ blockIndex then []
    else if offset = kb4 then
      let next := ino.dataBlock (blockIndex + 1)
      (next, 0) :: placeLoop img ino length n (dataCounter + 1) (blockIndex + 1) next 1
    else
      (currBlockNum, offset) ::
        placeLoop img ino length n (dataCounter + 1) blockIndex currBlockNum (offset + 1)

theorem readLoop_places (img : Image) (ino : Inode) (length n dc b cur off : ℕ) :
    (readLoop img ino length n dc b cur off).1 =
      (placeLoop img ino length n dc b cur off).map fun p => img.dataBlock p.1 p.2 := by
  induction n generalizing dc b cur off with
  | zero => rfl
  | succ n ih =>
    simp only [readLoop, placeLoop]
    split_ifs
    · rfl
    · rfl
    · rw [List.map_cons, ih]
    · rw [List.map_cons, ih]

/-- Where the byte at a position of a file lies. -/
def filePlace (ino : Inode) (q : ℕ) : ℕ × ℕ := (ino.dataBlock (q / kb4), q % kb4)

theorem filePlace_at (ino : Inode) {b off : ℕ} (h : off < kb4) :
    filePlace ino (b * kb4 + off) = (ino.dataBlock b, off) := by
  rw [filePlace, Nat.mul_comm, Nat.mul_add_div (by decide), Nat.div_eq_of_lt h, Nat.add_zero,
    Nat.mul_add_mod, Nat.mod_eq_of_lt h]

/-- The loop reads consecutive places of the file, as many as it has iterations or room
for. -/
theorem placeLoop_eq (img : Image) (ino : Inode) {length n dc b off : ℕ} (hn : dc + n = length)
    (hoff : off ≤ kb4) :
    placeLoop img ino length n dc b (ino.dataBlock b) off =
      (List.range' (b * kb4 + off) (min n (if stopBlock img b ≤ b then 0
        else stopBlock img b * kb4 + 1 - (b * kb4 + off)))).map (filePlace ino) := by
  induction n generalizing dc b off with
  | zero => simp [placeLoop]
  | succ n ih =>
    have hdc : dc ≠ length := by omega
    simp only [placeLoop, hdc, false_or]
    by_cases hstop : stopBlock img b ≤ b
    · rw [if_pos hstop, Nat.min_zero, List.range'_zero, List.map_nil]
      rcases (stopBlock_le_iff img b).mp hstop with h | h
      · rw [if_pos h]
      · split_ifs <;> rfl
    · obtain ⟨h1022, hblocks⟩ := not_or.mp (mt (stopBlock_le_iff img b).mpr hstop)
      rw [if_neg hstop, if_neg h1022, if_neg hblocks]
      by_cases hk : off = kb4
      · subst hk
        have hroom : min (n + 1) (stopBlock img b * kb4 + 1 - (b * kb4 + kb4)) =
            min n (if stopBlock img b ≤ b + 1 then 0
              else stopBlock img b * kb4 + 1 - ((b + 1) * kb4 + 1)) + 1 := by
          split_ifs <;> simp only [kb4] at * <;> omega
        have hpos : b * kb4 + kb4 = (b + 1) * kb4 + 0 := by ring
        rw [if_pos rfl, ih (by omega) (by decide), stopBlock_succ h1022, hroom, List.range'_succ,
          hpos, List.map_cons, filePlace_at ino (show 0 < kb4 by decide)]
      · have hroom : min (n + 1) (stopBlock img b * kb4 + 1 - (b * kb4 + off)) =
            min n (stopBlock img b * kb4 + 1 - (b * kb4 + (off + 1))) + 1 := by
          simp only [kb4] at *
          omega
        rw [if_neg hk, ih (by omega) (by omega), if_neg hstop, hroom, List.range'_succ,
          List.map_cons, filePlace_at ino (show off < kb4 by omega), Nat.add_assoc]

/-- From an admitted block the loop delivers consecutive bytes of the file. -/
theorem readLoop_eq (img : Image) (ino : Inode) {length n dc b off : ℕ} (hn : dc + n = length)
    (hb : b ≤ 1022) (hoff : off ≤ kb4) :
    (readLoop img ino length n dc b (ino.dataBlock b) off).1 =
      (List.range' (b * kb4 + off) (min n (loopRoom img b off))).map (fileByte img ino) := by
  have hstop : stopBlock img b = blockLimit img := if_pos hb
  rw [readLoop_places, placeLoop_eq img ino hn hoff, hstop, List.map_map]
  rfl

/-- The places that `read_data` reads from. -/
def readPlaces (img : Image) (inode offset length : ℕ) : List (ℕ × ℕ) :=
  if img.bootBlock.fileStat.inodeNum ≤ inode ∨ (img.inode inode).length ≤ offset then []
  else placeLoop img (img.inode inode) length length 0 (offset / kb4)
    ((img.inode inode).dataBlock (offset / kb4)) (offset - offset / kb4 * kb4)

theorem readData_places (img : Image) (inode offset length : ℕ) :
    (readData img inode offset true length).bytes =
      (readPlaces img inode offset length).map fun p => img.dataBlock p.1 p.2 := by
  simp only [readData, readPlaces, Bool.true_eq_false, or_false]
  by_cases hino : img.bootBlock.fileStat.inodeNum ≤ inode
  · simp [hino]
  · by_cases hpos : (img.inode inode).length ≤ offset
    · simp [hino, hpos]
    · simp only [hino, hpos, or_self, if_false]
      exact readLoop_places img _ length length 0 _ _ _

/-- The block of a position and the offset in it. -/
theorem block_split (pos : ℕ) :
    pos / kb4 * kb4 + (pos - pos / kb4 * kb4) = pos ∧ pos - pos / kb4 * kb4 ≤ kb4 := by
  have hle := Nat.div_mul_le_self pos kb4
  simp only [kb4] at *
  omega

/-- From an offset inside the file a read reads consecutive places, as many as were asked
for and the loop has room for. -/
theorem readPlaces_eq (img : Image) {inode pos : ℕ} (n : ℕ)
    (hino : inode < img.bootBlock.fileStat.inodeNum) (hpos : pos < (img.inode inode).length) :
    readPlaces img inode pos n =
      (List.range' pos (min n (readEnd img pos - pos))).map (filePlace (img.inode inode)) := by
  obtain ⟨hdiv, hrest⟩ := block_split pos
  have hloop := placeLoop_eq img (img.inode inode) (b := pos / kb4) (Nat.zero_add n) hrest
  rw [hdiv] at hloop
  rw [readPlaces, if_neg (by omega), hloop, readEnd]
  split_ifs
  · rw [Nat.sub_self]
  · rfl

@[simp] theorem contents_length (img : Image) (inode : ℕ) :
    (contents img inode).length = (img.inode inode).length := by simp [contents]

theorem Inode.length_le_blocks (ino : Inode) : ino.length ≤ ino.blocks * kb4 := by
  simp only [Inode.blocks, kb4]
  omega

/-- A file on distinct data blocks spans no more blocks than there are. -/
theorem blocks_le_dataBlockNum {img : Image} {ino : Inode}
    (hlt : ∀ i < ino.blocks, ino.dataBlock i < img.bootBlock.fileStat.dataBlockNum)
    (hinj : ∀ i < ino.blocks, ∀ j < ino.blocks, ino.dataBlock i = ino.dataBlock j → i = j) :
    ino.blocks ≤ img.bootBlock.fileStat.dataBlockNum := by
  have hcard := Finset.card_le_card_of_injOn ino.dataBlock
    (s := Finset.range ino.blocks) (t := Finset.range img.bootBlock.fileStat.dataBlockNum)
    (fun i hi => by simpa using hlt i (by simpa using hi))
    (fun i hi j hj => hinj i (by simpa using hi) j (by simpa using hj))
  simpa using hcard

theorem take_range'_min (s n k : ℕ) :
    (List.range' s n).take k = List.range' s (min k n) := by
  rcases Nat.le_total n k with h | h
  · rw [List.take_range'_of_length_le h, Nat.min_eq_right h]
  · rw [List.take_range'_of_length_ge h, Nat.min_eq_left h]

/-- From an offset inside the file a read delivers consecutive bytes, as many as
were asked for and the loop has room for. -/
theorem readData_bytes (img : Image) {inode pos : ℕ} (n : ℕ)
    (hino : inode < img.bootBlock.fileStat.inodeNum) (hpos : pos < (img.inode inode).length)
    (hblock : pos / kb4 < blockLimit img) :
    (readData img inode pos true n).bytes =
      (List.range' pos (min n (blockLimit img * kb4 + 1 - pos))).map
        (fileByte img (img.inode inode)) := by
  obtain ⟨hdiv, hrest⟩ := block_split pos
  have hlim : blockLimit img ≤ 1022 := Nat.min_le_left _ _
  have hloop := readLoop_eq img (img.inode inode) (Nat.zero_add n)
    (show pos / kb4 ≤ 1022 by omega) hrest
  rw [loopRoom, if_neg (by omega), hdiv] at hloop
  simpa [readData, Nat.not_le.mpr hino, Nat.not_le.mpr hpos] using hloop

section Spanned
variable (img : Image) {inode : ℕ} (pos n : ℕ) (hino : inode < img.bootBlock.fileStat.inodeNum)
  (hspan : (img.inode inode).blocks ≤ blockLimit img)
include hino

theorem readData_past_end (hpos : (img.inode inode).length ≤ pos) :
    (readData img inode pos true n).bytes = [] := by
  simp [readData, Nat.not_le.mpr hino, hpos]

theorem readData_ret :
    (readData img inode pos true n).ret = (readData img inode pos true n).bytes.length := by
  simp only [readData, Nat.not_le.mpr hino, Bool.true_eq_false, or_self, if_false]
  split_ifs <;> rfl

include hspan

omit hino in
theorem block_lt_limit {q : ℕ} (hq : q < (img.inode inode).length) : q / kb4 < blockLimit img := by
  have hlen := (img.inode inode).length_le_blocks
  exact lt_of_lt_of_le ((Nat.div_lt_iff_lt_mul (by decide)).mpr (by omega)) hspan

/-- Inside a file that spans no more blocks than the loop admits, a read delivers
the bytes at its offset, and stops early only behind the end of the file. -/
theorem readData_delivers :
    Delivers (contents img inode) pos n (readData img inode pos true n).bytes := by
  rcases Nat.lt_or_ge pos (img.inode inode).length with hpos | hpos
  · have hroom : (img.inode inode).length ≤ blockLimit img * kb4 :=
      (img.inode inode).length_le_blocks.trans (Nat.mul_le_mul_right _ hspan)
    rw [readData_bytes img n hino hpos (block_lt_limit img hspan hpos)]
    refine ⟨?_, by simp; omega, by simp⟩
    rw [contents, ← List.map_take, ← List.map_drop, ← List.map_take, take_range'_min,
      List.drop_range', take_range'_min]
    congr 2
    · omega
    · simp only [List.length_map, List.length_range']
      omega
  · rw [readData_past_end img pos n hino hpos]
    constructor <;> simp [hpos]

/-- A read never takes a position beyond the first byte behind block 1021. -/
theorem readData_stays (bound : ℕ) (hb : 1022 * kb4 + 1 ≤ bound) (hpos : pos ≤ bound) :
    pos + (readData img inode pos true n).bytes.length ≤ bound := by
  rcases Nat.lt_or_ge pos (img.inode inode).length with hlt | hge
  · have hlim : blockLimit img * kb4 ≤ 1022 * kb4 := Nat.mul_le_mul_right _ (Nat.min_le_left _ _)
    rw [readData_bytes img n hino hlt (block_lt_limit img hspan hlt), List.length_map,
      List.length_range']
    omega
  · rw [readData_past_end img pos n hino hge]
    simpa using hpos

end Spanned

end Ece391.FileSys

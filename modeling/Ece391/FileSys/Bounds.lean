import Ece391.FileSys.Lookup
import Ece391.FileSys.ReadData

/-! The ends of `read_data`. The loop is stopped by the length asked for, by block index
1022 and by a block index that is not below `data_block_num_`. None of these is the end
of the file, the second leaves out the last block of a full file, and the third is no
test of the block number that is read from. -/

namespace Ece391.FileSys

section Ends
variable {img : Image} {inode : ℕ} (pos n : ℕ) (hino : inode < img.bootBlock.fileStat.inodeNum)
include hino

theorem readData_ret_places :
    (readData img inode pos true n).ret = (readPlaces img inode pos n).length := by
  rw [readData_ret img pos n hino, readData_places, List.length_map]

omit hino in
theorem readPlaces_past_end (hpos : (img.inode inode).length ≤ pos) : readPlaces img inode pos n = [] :=
  if_pos (.inr hpos)

theorem readPlaces_length (hpos : pos < (img.inode inode).length) :
    (readPlaces img inode pos n).length = min n (readEnd img pos - pos) := by
  rw [readPlaces_eq img n hino hpos, List.length_map, List.length_range']

end Ends

/-! ### The end of the file -/

/-- The result is at most what is left of the file, and no byte is stored at or behind
`buf[result]`. -/
def StaysInFile (img : Image) (inode offset length : ℕ) : Prop :=
  (readData img inode offset true length).ret ≤ ((img.inode inode).length - offset : ℕ) ∧
    (readData img inode offset true length).bytes.length ≤ (readData img inode offset true length).ret

/-- A read stays inside the file exactly when it asks for no more than is left, or one of
the other limits stops it before the end of the file. -/
theorem read_stays_in_file_iff (img : Image) (inode : ℕ)
    (hino : inode < img.bootBlock.fileStat.inodeNum) (offset length : ℕ) :
    StaysInFile img inode offset length ↔
      (img.inode inode).length ≤ offset ∨ offset + length ≤ (img.inode inode).length ∨
        readEnd img offset ≤ (img.inode inode).length := by
  have hbytes : (readData img inode offset true length).bytes.length ≤
      (readData img inode offset true length).ret := by
    rw [readData_ret img offset length hino]
  rw [StaysInFile, and_iff_left hbytes, readData_ret_places offset length hino]
  rcases Nat.lt_or_ge offset (img.inode inode).length with hpos | hpos
  · rw [readPlaces_length offset length hino hpos]
    omega
  · simp [readPlaces_past_end offset length hpos, hpos]

/-- The last two bytes of a four-byte file. -/
theorem read_stays_in_file_iff_tail : StaysInFile staleImage 0 2 2 :=
  (read_stays_in_file_iff staleImage 0 (by decide) 2 2).mpr (.inr (.inl (by decide)))

/-- A read of ten bytes runs on into the rest of the block. -/
theorem read_leaves_file : 0 < staleImage.bootBlock.fileStat.inodeNum ∧
    (staleImage.inode 0).length = 4 ∧ (readData staleImage 0 0 true 10).ret = 10 ∧
      ¬ StaysInFile staleImage 0 0 10 := by
  refine ⟨by decide, rfl, by decide, fun h => ?_⟩
  exact absurd h.1 (by decide)

/-! ### The last block -/

/-- The image is well formed as far as a file goes: its blocks are its own and lie inside
the image. -/
structure WellFormed (img : Image) (inode : ℕ) : Prop where
  blocks : (img.inode inode).blocks ≤ 1023
  inside : ∀ i < (img.inode inode).blocks,
    (img.inode inode).dataBlock i < img.bootBlock.fileStat.dataBlockNum
  distinct : ∀ i < (img.inode inode).blocks, ∀ j < (img.inode inode).blocks,
    (img.inode inode).dataBlock i = (img.inode inode).dataBlock j → i = j

/-- Inside a well-formed file the number of data blocks is no limit. -/
theorem WellFormed.block_lt {img : Image} {inode pos : ℕ} (h : WellFormed img inode)
    (hpos : pos < (img.inode inode).length) :
    pos / kb4 ≤ 1022 ∧ pos / kb4 < img.bootBlock.fileStat.dataBlockNum := by
  have hcard := blocks_le_dataBlockNum h.inside h.distinct
  have hlen := (img.inode inode).length_le_blocks
  have hlt : pos / kb4 < (img.inode inode).blocks := (Nat.div_lt_iff_lt_mul (by decide)).mpr (by omega)
  have := h.blocks
  omega

theorem WellFormed.readEnd_of_lt {img : Image} {inode pos : ℕ} (h : WellFormed img inode)
    (hpos : pos < (img.inode inode).length) (hlast : pos < 1022 * kb4) :
    readEnd img pos = blockLimit img * kb4 + 1 := by
  obtain ⟨h1022, hblocks⟩ := h.block_lt hpos
  have hne : pos / kb4 ≠ 1022 := by
    simp only [kb4] at *
    omega
  have hstop : ¬ stopBlock img (pos / kb4) ≤ pos / kb4 := by
    rw [stopBlock_le_iff]
    omega
  rw [readEnd, if_neg hstop, stopBlock, if_pos h1022]

theorem WellFormed.readEnd_of_ge {img : Image} {inode pos : ℕ} (h : WellFormed img inode)
    (hpos : pos < (img.inode inode).length) (hlast : 1022 * kb4 ≤ pos) : readEnd img pos = pos := by
  obtain ⟨h1022, -⟩ := h.block_lt hpos
  have hge : 1022 ≤ pos / kb4 := (Nat.le_div_iff_mul_le (by decide)).mpr hlast
  have hstop : stopBlock img (pos / kb4) ≤ pos / kb4 := (stopBlock_le_iff img _).mpr (.inl (by omega))
  rw [readEnd, if_pos hstop]

/-- A file on distinct blocks is no longer than the image has blocks for. -/
theorem WellFormed.length_le {img : Image} {inode : ℕ} (h : WellFormed img inode) :
    (img.inode inode).length ≤ img.bootBlock.fileStat.dataBlockNum * kb4 :=
  (img.inode inode).length_le_blocks.trans
    (Nat.mul_le_mul_right _ (blocks_le_dataBlockNum h.inside h.distinct))

/-- A read inside the file delivers something, and all it was asked for if the file
has it. -/
def ReachesFile (img : Image) (inode offset length : ℕ) : Prop :=
  offset < (img.inode inode).length → 0 < length →
    1 ≤ (readData img inode offset true length).ret ∧
      (offset + length ≤ (img.inode inode).length →
        (readData img inode offset true length).ret = length)

/-- A read of a well-formed file does so exactly when it does not start in block 1022 and
does not have to go beyond the first byte of that block. -/
theorem read_reaches_file_iff (img : Image) (inode : ℕ)
    (hino : inode < img.bootBlock.fileStat.inodeNum) (hform : WellFormed img inode)
    (offset length : ℕ) :
    ReachesFile img inode offset length ↔
      (offset < (img.inode inode).length → 0 < length → offset < 1022 * kb4 ∧
        (offset + length ≤ (img.inode inode).length → offset + length ≤ 1022 * kb4 + 1)) := by
  rw [ReachesFile, readData_ret_places offset length hino]
  refine forall_congr' fun hpos => forall_congr' fun hlength => ?_
  rw [readPlaces_length offset length hino hpos]
  have hlen := hform.length_le
  rcases Nat.lt_or_ge offset (1022 * kb4) with hlast | hlast
  · rw [hform.readEnd_of_lt hpos hlast]
    have hblock := hform.block_lt hpos
    unfold blockLimit
    simp only [kb4] at *
    omega
  · rw [hform.readEnd_of_ge hpos hlast, Nat.sub_self, Nat.min_zero]
    omega

/-- A file of 1023 blocks, the most that an inode can name. -/
def fullImage : Image where
  bootBlock := { staleImage.bootBlock with fileStat := ⟨1, 1, 1023⟩ }
  inode := fun _ => ⟨1023 * kb4, id⟩
  dataBlock := fun _ _ => 0

theorem fullImage_wellFormed : WellFormed fullImage 0 where
  blocks := by decide
  inside i hi := by
    have hblocks : (fullImage.inode 0).blocks = 1023 := by decide
    exact lt_of_lt_of_eq hi hblocks
  distinct _ _ _ _ h := h

/-- A page from the middle of the file. -/
theorem read_reaches_file_iff_middle : (readData fullImage 0 5000 true 4096).ret = 4096 := by
  have h := (read_reaches_file_iff fullImage 0 (by decide) fullImage_wellFormed 5000 4096).mpr
    fun _ _ => ⟨by decide, fun _ => by decide⟩
  exact (h (by decide) (by decide)).2 (by decide)

/-- A read in the last block returns 0, and one that comes into it stops there after
one byte. -/
theorem read_misses_last_block : 0 < fullImage.bootBlock.fileStat.inodeNum ∧
    WellFormed fullImage 0 ∧ (readData fullImage 0 (1022 * kb4) true 1).ret = 0 ∧
      ¬ ReachesFile fullImage 0 (1022 * kb4) 1 ∧ ¬ ReachesFile fullImage 0 (1022 * kb4 - 1) 3 := by
  refine ⟨by decide, fullImage_wellFormed, by decide, fun h => ?_, fun h => ?_⟩
  · exact absurd (h (by decide) (by decide)).1 (by decide)
  · exact absurd ((h (by decide) (by decide)).2 (by decide)) (by decide)

/-! ### Block numbers -/

/-- Every block that is read from is one of the image, and the result is the number of
bytes read. -/
def ReadsValidBlocks (img : Image) (inode offset length : ℕ) : Prop :=
  (∀ p ∈ readPlaces img inode offset length, p.1 < img.bootBlock.fileStat.dataBlockNum) ∧
    (readData img inode offset true length).ret = (readPlaces img inode offset length).length

/-- A read inside the file does so exactly when the inode names blocks of the image
wherever the read goes. -/
theorem reads_valid_blocks_iff (img : Image) (inode : ℕ)
    (hino : inode < img.bootBlock.fileStat.inodeNum) (offset length : ℕ)
    (hpos : offset < (img.inode inode).length) :
    ReadsValidBlocks img inode offset length ↔
      ∀ q, offset ≤ q → q < offset + length → q < readEnd img offset →
        (img.inode inode).dataBlock (q / kb4) < img.bootBlock.fileStat.dataBlockNum := by
  rw [ReadsValidBlocks, and_iff_left (readData_ret_places offset length hino),
    readPlaces_eq img length hino hpos]
  constructor
  · intro h q hge hlt hend
    refine h (filePlace (img.inode inode) q) (List.mem_map_of_mem ?_)
    rw [List.mem_range'_1]
    omega
  · intro h p hp
    obtain ⟨q, hq, rfl⟩ := List.mem_map.mp hp
    rw [List.mem_range'_1] at hq
    exact h q hq.1 (by omega) (by omega)

theorem reads_valid_blocks_iff_stale : ReadsValidBlocks staleImage 0 0 4 :=
  (reads_valid_blocks_iff staleImage 0 (by decide) 0 4 (by decide)).mpr
    fun _ _ _ _ => Nat.zero_lt_two

/-- The image with an inode that names a block behind its end. -/
def strayImage : Image :=
  { staleImage with inode := fun _ => ⟨4, fun _ => 5⟩ }

/-- Block index 0 passes the test, so the read takes its byte from block 5. -/
theorem reads_outside_image : 0 < strayImage.bootBlock.fileStat.inodeNum ∧
    0 < (strayImage.inode 0).length ∧ strayImage.bootBlock.fileStat.dataBlockNum ≤ 5 ∧
      readPlaces strayImage 0 0 1 = [(5, 0)] ∧ ¬ ReadsValidBlocks strayImage 0 0 1 := by
  refine ⟨by decide, by decide, by decide, by decide, fun h => ?_⟩
  exact absurd (h.1 (5, 0) (by decide)) (by decide)

end Ece391.FileSys

import Ece391.Kernel.Scheduler

/-! What the two checks of `execute` accept. `parse` splits every command the way a shell
would, within its two limits. `isExe` compares four bytes of its buffer, whether or not
`read_data` has stored them there, and looks neither at the type of the entry nor at the
length of the file. -/

namespace Ece391.Kernel

open FileSys
open Lib (CString bufMem strncmp strncmpFrom_memory)

/-! ### Splitting a command -/

/-- The file name in a command: the first run of bytes other than a space. -/
def nameOf (c : CString) : List UInt8 := (c.bytes.dropWhile (· = space)).takeWhile (· ≠ space)

/-- The argument in a command: what follows the name and the spaces behind it. -/
def argOf (c : CString) : List UInt8 :=
  ((c.bytes.dropWhile (· = space)).dropWhile (· ≠ space)).dropWhile (· = space)

theorem takeWhile_cons_of_ne {c : UInt8} {rest : List UInt8} (hc : c ≠ space) :
    (c :: rest).takeWhile (· ≠ space) = c :: rest.takeWhile (· ≠ space) :=
  List.takeWhile_cons_of_pos (by simpa using hc)

theorem storeName_fits {length : ℕ} {l : List UInt8}
    (h : length + (l.takeWhile (· ≠ space)).length ≤ maxFileLen) :
    storeName length l = (true, l.takeWhile (· ≠ space), l.dropWhile (· ≠ space)) := by
  induction l generalizing length with
  | nil => rfl
  | cons c rest ih =>
    by_cases hc : c = space
    · simp [storeName, hc]
    · have hdrop : (c :: rest).dropWhile (· ≠ space) = rest.dropWhile (· ≠ space) :=
        List.dropWhile_cons_of_pos (by simpa using hc)
      rw [takeWhile_cons_of_ne hc, List.length_cons] at h
      rw [storeName, if_neg hc, if_neg (by omega), ih (by omega), takeWhile_cons_of_ne hc, hdrop]

theorem storeName_overruns {length : ℕ} {l : List UInt8} (hlength : length ≤ maxFileLen)
    (h : maxFileLen < length + (l.takeWhile (· ≠ space)).length) : (storeName length l).1 = false := by
  induction l generalizing length with
  | nil =>
    rw [List.takeWhile_nil, List.length_nil] at h
    omega
  | cons c rest ih =>
    by_cases hc : c = space
    · simp [hc] at h
      omega
    · rw [takeWhile_cons_of_ne hc, List.length_cons] at h
      rw [storeName, if_neg hc]
      split_ifs with hfull
      · rfl
      · exact ih (by omega) (by omega)

theorem storeArg_fits {limit argLen : ℕ} {l : List UInt8} (h : argLen + l.length ≤ limit) :
    storeArg limit argLen l = (true, l) := by
  induction l generalizing argLen with
  | nil => rfl
  | cons c rest ih =>
    rw [List.length_cons] at h
    rw [storeArg, if_neg (by omega), ih (by omega)]

theorem storeArg_overruns {limit argLen : ℕ} {l : List UInt8} (hlen : argLen ≤ limit)
    (h : limit < argLen + l.length) : (storeArg limit argLen l).1 = false := by
  induction l generalizing argLen with
  | nil =>
    rw [List.length_nil] at h
    omega
  | cons c rest ih =>
    rw [List.length_cons] at h
    rw [storeArg]
    split_ifs with hfull
    · rfl
    · exact ih (by omega) (by omega)

/-- Behind a name that keeps its limit `parse` comes to the argument; there is an empty one
to store where the command ends with the name. -/
theorem parse_name_fits {c : CString} (hname : (nameOf c).length ≤ maxFileLen) :
    parse (some c) =
      if (storeArg (maxArgLen - (nameOf c).length) 0 (argOf c)).1 = false then
        ⟨-1, nameOf c ++ [0], (storeArg (maxArgLen - (nameOf c).length) 0 (argOf c)).2⟩
      else ⟨0, nameOf c ++ [0], (storeArg (maxArgLen - (nameOf c).length) 0 (argOf c)).2 ++ [0]⟩ := by
  have hstore : storeName 0 (c.bytes.dropWhile (· = space)) = (true, nameOf c, _) :=
    storeName_fits (by rwa [Nat.zero_add])
  rw [parse, hstore]
  simp only [Bool.true_eq_false, if_false]
  cases hleft : (c.bytes.dropWhile (· = space)).dropWhile (· ≠ space) with
  | nil =>
    have hnone : argOf c = [] := by rw [argOf, hleft, List.dropWhile_nil]
    rw [hnone]
    rfl
  | cons b rest =>
    have hrest : argOf c = (b :: rest).dropWhile (· = space) := by rw [argOf, hleft]
    rw [hrest]

theorem parse_long_name {c : CString} (hname : maxFileLen < (nameOf c).length) :
    (parse (some c)).ret = -1 := by
  have hstore : (storeName 0 (c.bytes.dropWhile (· = space))).1 = false :=
    storeName_overruns (by decide) (by rwa [Nat.zero_add])
  simp only [parse, hstore, if_true]

/-- `parse` succeeds exactly on the commands whose name and argument keep the limits, and
then stores the two. -/
theorem parse_splits (c : CString) :
    ((parse (some c)).ret = 0 ↔
      (nameOf c).length ≤ maxFileLen ∧ (argOf c).length ≤ maxArgLen - (nameOf c).length) ∧
    ((parse (some c)).ret = 0 →
      (parse (some c)).filename = nameOf c ++ [0] ∧ (parse (some c)).arg = argOf c ++ [0]) := by
  by_cases hname : (nameOf c).length ≤ maxFileLen
  · by_cases harg : (argOf c).length ≤ maxArgLen - (nameOf c).length
    · rw [parse_name_fits hname, storeArg_fits (by rwa [Nat.zero_add])]
      simp [hname, harg]
    · rw [parse_name_fits hname, if_pos (storeArg_overruns (Nat.zero_le _) (by omega))]
      simp [harg]
  · rw [parse_long_name (by omega)]
    simp [hname]

/-! ### Recognising an executable -/

/-- The first four bytes of the first block of a file. -/
def headBytes (img : Image) (ino : Inode) : List UInt8 := (List.range' 0 4).map (fileByte img ino)

/-- The name is that of a regular file that begins with the magic bytes. -/
def NamesExecutable (img : Image) (name : CString) : Prop :=
  ∃ d, readDentryByName img name = some d ∧ d.fileType = fileTypeRegular ∧
    d.inodeNum < img.bootBlock.fileStat.inodeNum ∧ 4 ≤ (img.inode d.inodeNum).length ∧
      (contents img d.inodeNum).take 4 = magicIdentifiers

/-- The inode is one of the image and its file has a byte, in a block of the image, so
that `read_data` reads four. -/
def FillsBuffer (img : Image) (inode : ℕ) : Prop :=
  inode < img.bootBlock.fileStat.inodeNum ∧ 0 < (img.inode inode).length ∧
    0 < img.bootBlock.fileStat.dataBlockNum

theorem readData_head {img : Image} {inode : ℕ} (h : FillsBuffer img inode) :
    (readData img inode 0 true 4).bytes = headBytes img (img.inode inode) := by
  obtain ⟨hino, hlen, hblocks⟩ := h
  have hlimit : 0 < blockLimit img := Nat.lt_min.mpr ⟨by decide, hblocks⟩
  have hroom : min 4 (blockLimit img * kb4 + 1 - 0) = 4 := by
    simp only [kb4]
    omega
  rw [readData_bytes img 4 hino hlen (by rwa [Nat.zero_div]), hroom, headBytes]

theorem readData_no_head {img : Image} {inode : ℕ} (h : ¬ FillsBuffer img inode) :
    (readData img inode 0 true 4).bytes = [] := by
  rw [readData_places, List.map_eq_nil_iff]
  by_cases hino : img.bootBlock.fileStat.inodeNum ≤ inode
  · exact if_pos (.inl hino)
  · by_cases hlen : (img.inode inode).length ≤ 0
    · exact if_pos (.inr hlen)
    · have hblocks : img.bootBlock.fileStat.dataBlockNum = 0 := by
        by_contra hne
        exact h ⟨by omega, by omega, by omega⟩
      have hend : readEnd img 0 = 0 :=
        if_pos ((stopBlock_le_iff img _).mpr (.inr (hblocks.trans_le (Nat.zero_le _))))
      rw [readPlaces_eq img 4 (by omega) (by omega), hend]
      rfl

/-- A buffer compares equal to the magic bytes when its first four bytes are those. -/
theorem magic_compare (buf : ℕ → UInt8) :
    strncmp buf (bufMem magicIdentifiers) 4 = 0 ↔ (List.range' 0 4).map buf = magicIdentifiers := by
  have hnul : ∀ j < 4, bufMem magicIdentifiers (0 + j) ≠ 0 := by decide
  have hmagic : (List.range' 0 4).map (bufMem magicIdentifiers) = magicIdentifiers := by decide
  have hmap : (List.range' 0 4).map buf = (List.range' 0 4).map (bufMem magicIdentifiers) ↔
      ∀ j < 4, buf j = bufMem magicIdentifiers j := by
    rw [List.map_inj_left]
    simp [List.mem_range'_1]
  rw [strncmp, strncmpFrom_memory _ _ 0 4 hnul, ← hmagic, hmap, hmagic]
  simp only [Nat.zero_add]

theorem isExe_of_fills {img : Image} {buf : ℕ → UInt8} {name : CString} {d : Dentry}
    (hd : readDentryByName img name = some d) (h : FillsBuffer img d.inodeNum) :
    isExe img buf name = true ↔ headBytes img (img.inode d.inodeNum) = magicIdentifiers := by
  simp only [isExe, hd, decide_eq_true_eq, magic_compare, readData_head h]
  rfl

theorem isExe_of_not_fills {img : Image} {buf : ℕ → UInt8} {name : CString} {d : Dentry}
    (hd : readDentryByName img name = some d) (h : ¬ FillsBuffer img d.inodeNum) :
    isExe img buf name = true ↔ (List.range' 0 4).map buf = magicIdentifiers := by
  simp only [isExe, hd, decide_eq_true_eq, magic_compare, readData_no_head h]
  rfl

theorem contents_head (img : Image) (inode : ℕ) (h : 4 ≤ (img.inode inode).length) :
    (contents img inode).take 4 = headBytes img (img.inode inode) := by
  rw [contents, ← List.map_take, take_range'_min, Nat.min_eq_left h, headBytes]

/-- On whatever stack it runs, `isExe` recognises the executables exactly when its name
leads to no entry, or to one whose file fills the buffer and is a regular file of four
bytes if it begins with the magic ones. -/
theorem isExe_recognises_iff (img : Image) (name : CString) :
    (∀ buf, isExe img buf name = true ↔ NamesExecutable img name) ↔
      ∀ d, readDentryByName img name = some d → FillsBuffer img d.inodeNum ∧
        (headBytes img (img.inode d.inodeNum) = magicIdentifiers →
          d.fileType = fileTypeRegular ∧ 4 ≤ (img.inode d.inodeNum).length) := by
  cases hd : readDentryByName img name with
  | none => simp [isExe, NamesExecutable, hd]
  | some d =>
    simp only [Option.some.injEq, forall_eq']
    by_cases hfills : FillsBuffer img d.inodeNum
    · have hnames : NamesExecutable img name ↔ d.fileType = fileTypeRegular ∧
          4 ≤ (img.inode d.inodeNum).length ∧
            headBytes img (img.inode d.inodeNum) = magicIdentifiers := by
        simp only [NamesExecutable, hd, Option.some.injEq, exists_eq_left', hfills.1, true_and]
        refine and_congr_right fun _ => and_congr_right fun hlen => ?_
        rw [contents_head img _ hlen]
      simp only [isExe_of_fills hd hfills, hnames, hfills, true_and, forall_const]
      tauto
    · -- the answer is the stack's, so two stacks give two answers
      simp only [isExe_of_not_fills hd hfills, hfills, false_and, iff_false, not_forall]
      by_cases hnames : NamesExecutable img name
      · exact ⟨fun _ => 0, by simp [hnames, magicIdentifiers]⟩
      · exact ⟨fun i => magicIdentifiers.getD i 0, by simp [hnames]; decide⟩

/-- The directory entry passes for an executable, as its inode number 0 is that of a file
that is one; and a name whose file is empty passes if the stack held the magic bytes. -/
theorem isExe_accepts_directory :
    isExe shellImage (fun _ => 0) period = true ∧ ¬ NamesExecutable shellImage period ∧
      isExe { shellImage with inode := fun _ => ⟨0, fun _ => 0⟩ }
        (fun i => magicIdentifiers.getD i 0) shellName = true := by
  refine ⟨by decide, ?_, by decide⟩
  rintro ⟨d, hd, htype, -⟩
  obtain rfl : shellImage.bootBlock.dirDentry = d := by simpa [readDentryByName_period] using hd
  exact absurd htype (by decide)

end Ece391.Kernel

import Ece391.Lib.Strings

/-! The file-system image of `file_sys.h`: a boot block with the directory,
then the inodes, then the data blocks. Arrays of the image are functions of the
index; an index past the end of an array reads the memory behind it, which may
hold anything. The reserved fields are never read and are left out. -/

namespace Ece391.FileSys

open Lib (CString)

abbrev fileNum : ℕ := 62
abbrev kb4 : ℕ := 4096
abbrev rtcType : ℕ := 0
abbrev dirType : ℕ := 1
abbrev fileTypeRegular : ℕ := 2

/-- `dentry_t`. -/
structure Dentry where
  fileName : Vector UInt8 32
  fileType : ℕ
  inodeNum : ℕ
  deriving DecidableEq

/-- The name of an entry: the 32-byte field up to its first NUL. -/
def Dentry.name (d : Dentry) : CString := CString.ofBuf d.fileName.toList

theorem Dentry.name_length (d : Dentry) : d.name.bytes.length ≤ 32 := by
  have h := (List.takeWhile_prefix (p := (· != (0 : UInt8))) (l := d.fileName.toList)).length_le
  simpa [Dentry.name, CString.ofBuf] using h

/-- `file_stat_t`. -/
structure FileStat where
  dirEntryNum : ℕ
  inodeNum : ℕ
  dataBlockNum : ℕ

/-- `boot_block_t`; the first 62 of `dentry` are the array, and the live ones
among them are those below `dirEntryNum - 1`. -/
structure BootBlock where
  fileStat : FileStat
  dirDentry : Dentry
  dentry : ℕ → Dentry

/-- `inode_t`; the first 1023 of `dataBlock` are the array. -/
structure Inode where
  length : ℕ
  dataBlock : ℕ → ℕ

structure Image where
  bootBlock : BootBlock
  inode : ℕ → Inode
  dataBlock : ℕ → ℕ → UInt8

/-- The name of the directory itself. -/
def period : CString := ⟨[0x2E], CString.noNul_of_all rfl⟩

/-- An entry with the given name, for a regular file. -/
def Dentry.regular (name : List UInt8) (inodeNum : ℕ) : Dentry :=
  ⟨Vector.ofFn fun i => name.getD i 0, fileTypeRegular, inodeNum⟩

/-- A small image for concrete runs: "." and one four-byte executable for each
name, of which the first `live - 1` are in the directory. -/
def toyImage (live : ℕ) (names : List (List UInt8)) : Image where
  bootBlock :=
    { fileStat := ⟨live, names.length, names.length⟩
      dirDentry := { Dentry.regular period.bytes 0 with fileType := dirType }
      dentry := fun i => Dentry.regular (names.getD i []) i }
  inode := fun i => ⟨4, fun _ => i⟩
  dataBlock := fun _ off => [0x7F, 0x45, 0x4C, 0x46].getD off 0

end Ece391.FileSys

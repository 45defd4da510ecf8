/-!
# Kernel parameters

The constants of `param.h`, `fs.h` and `stat.h` that the modelled code reads.
-/

namespace Xv6Lab

/-- Maximum number of processes. -/
abbrev nproc : Nat := 64

instance neZero_nproc : @NeZero Nat Zero.ofOfNat0 nproc := ⟨Nat.succ_ne_zero 63⟩

/-- Open files per process. -/
abbrev nofile : Nat := 16

instance neZero_nofile : @NeZero Nat Zero.ofOfNat0 nofile := ⟨Nat.succ_ne_zero 15⟩

/-- Open files per system. -/
abbrev nfile : Nat := 100

/-- Maximum number of active inodes. -/
abbrev ninode : Nat := 50

/-- Maximum major device number. -/
abbrev ndev : Nat := 10

/-- Maximum number of blocks any file system operation writes. -/
abbrev maxOpBlocks : Nat := 10

/-- Maximum number of data blocks in the on-disk log. -/
abbrev logBlocks : Nat := maxOpBlocks * 3

/-- Block size in bytes. -/
abbrev bsize : Nat := 1024

/-- Direct block addresses in an inode. -/
abbrev ndirect : Nat := 12

/-- Block addresses in an indirect block. -/
abbrev nindirect : Nat := bsize / 4

/-- Maximum file size in blocks. -/
abbrev maxfile : Nat := ndirect + nindirect

/-- Inodes per block. -/
abbrev ipb : Nat := bsize / 64

/-- Bitmap bits per block. -/
abbrev bpb : Nat := bsize * 8

/-- Length of a file name in a directory entry. -/
abbrev dirsiz : Nat := 14

/-- Size of a directory entry. -/
abbrev direntSize : Nat := 16

/-- Inode number of the root directory. -/
abbrev rootino : Nat := 1

/-- Maximum length of a path, with its terminating zero. -/
abbrev maxpath : Nat := 128

/-- The contents of a disk block. -/
abbrev Block := Fin bsize → UInt8

end Xv6Lab

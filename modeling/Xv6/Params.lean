import Xv6.Lib.Bytes

/-
  The compile-time constants of the kernel and of the
  on-disk format, under the names of `param.h` and `fs.h`,
  the increment of an `int`, and the type of a disk block.
-/

namespace Xv6

---- Kernel Parameters

/- The number of processes. -/
def NPROC : Nat := 64

/- Open files per process, and in the whole system. -/
def NOFILE : Nat := 16

def NFILE : Nat := 100

/- The entries of the argument vector of `exec`. -/
def MAXARG : Nat := 32

/- The longest path, with its final zero. -/
def MAXPATH : Nat := 128

/- The pages of a user stack. -/
def USERSTACK : Nat := 1

/- The most blocks any file-system operation writes. -/
def MAXOPBLOCKS : Nat := 10

/- The most data blocks in the on-disk log. -/
def LOGSIZE : Nat := MAXOPBLOCKS * 3

/- A C `int` that is incremented, such as `nextpid`. -/
def incr (n : Int) : Int := (n + 1).bmod (2 ^ 32)

---- Disk Format

/- The size of a disk block in bytes. -/
def BSIZE : Nat := 1024

/- The contents of one disk block. -/
abbrev Block := Bytes BSIZE

/- A disk gives the contents of every block number. -/
abbrev Disk := Nat → Block

/- Replace the contents of one block. -/
def Disk.write (d : Disk) (b : Nat) (v : Block) : Disk := fun c => if c = b then v else d c

@[simp] theorem Disk.write_same (d : Disk) (b : Nat) (v : Block) : d.write b v b = v := by
  simp [Disk.write]

theorem Disk.write_other (d : Disk) {b c : Nat} (v : Block) (hNe : c ≠ b) :
    d.write b v c = d c := by
  simp [Disk.write, hNe]

end Xv6

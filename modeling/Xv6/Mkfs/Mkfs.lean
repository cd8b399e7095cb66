import Xv6.Fs.Names
import Xv6.Lib.Bitmap
import Xv6.Lib.Prog

/-
  The program that makes a file system (`mkfs.c`).

  The image is a file of the host: `len` sectors, which read
  as zero before they are written. Inodes and blocks are taken
  from two counters. A failed assertion, a file that cannot be
  opened and a read beyond the end of the image stop the
  program; writes to the image do not fail.

  A file of the host is the sequence of pieces that `read`
  returns for it.

  Key definitions include:
    * `Img`
    * `HostFile`
    * `iappend`
-/

namespace Xv6.Mkfs

open Fs

---- Layout

/- The size of the image in blocks. -/
def FSSIZE : Nat := 2000

def NINODES : Nat := 200

def nbitmap : Nat := FSSIZE / BPB + 1

def ninodeblocks : Nat := NINODES / IPB + 1

def nlog : Nat := LOGSIZE

/- The blocks before the data blocks. -/
def nmeta : Nat := 2 + nlog + ninodeblocks + nbitmap

def nblocks : Nat := FSSIZE - nmeta

def sb : Superblock where
  magic := UInt32.ofNat FSMAGIC
  size := UInt32.ofNat FSSIZE
  nblocks := UInt32.ofNat nblocks
  ninodes := UInt32.ofNat NINODES
  nlog := UInt32.ofNat nlog
  logstart := 2
  inodestart := UInt32.ofNat (2 + nlog)
  bmapstart := UInt32.ofNat (2 + nlog + ninodeblocks)

---- The Image

structure Img where
  disk : Disk
  len : Nat
  freeinode : Nat
  freeblock : Nat

/- A call of `die`, and an assertion that fails. -/
inductive Fail where
  | die
  | assertion
deriving DecidableEq

abbrev MkfsM (α : Type) := Prog Img Fail α

def wsect (sec : Nat) (buf : Block) : MkfsM Unit :=
  modify fun img =>
    { img with
      disk := img.disk.write sec buf
      len := max img.len (sec + 1) }

def rsect (sec : Nat) : MkfsM Block := do
  let img ← get
  if sec < img.len then pure (img.disk sec) else throw .die

def winode (inum : Nat) (ip : Dinode) : MkfsM Unit := do
  let buf ← rsect (IBLOCK inum sb)
  wsect (IBLOCK inum sb) (putSlot buf (inum % IPB) ip)

def rinode (inum : Nat) : MkfsM Dinode := do
  let buf ← rsect (IBLOCK inum sb)
  pure (getSlot buf (inum % IPB))

def ialloc (type : UInt16) : MkfsM Nat := do
  let img ← get
  set { img with freeinode := img.freeinode + 1 }
  winode img.freeinode { Dinode.zero with type := type, nlink := 1 }
  pure img.freeinode

/- The bitmap with the first `used` bits set. -/
def bitmap : Nat → Block
  | 0 => Bytes.zero
  | used + 1 => Bitmap.set (bitmap used) used

def balloc (used : Nat) : MkfsM Unit := do
  if used < BPB then wsect sb.bmapstart.toNat (bitmap used) else throw .assertion

---- Appending

/- `freeblock++` -/
def takeBlock : MkfsM Nat := do
  let img ← get
  set { img with freeblock := img.freeblock + 1 }
  pure img.freeblock

/- Give `addrs[k]` a block if it has none. -/
def mapAddr (k : Nat) (din : Dinode) : MkfsM Dinode := do
  if din.addr k = 0 then do
    let b ← takeBlock
    pure (din.setAddr k b)
  else
    pure din

/- The sector of block `fbn`, and the inode with it mapped. -/
def mapBlock (fbn : Nat) (din : Dinode) : MkfsM (Nat × Dinode) := do
  if fbn < NDIRECT then do
    let din ← mapAddr fbn din
    pure (din.addr fbn, din)
  else do
    let din ← mapAddr NDIRECT din
    let indirect ← rsect (din.addr NDIRECT)
    if entry indirect (fbn - NDIRECT) = 0 then do
      let b ← takeBlock
      let indirect := putEntry indirect (fbn - NDIRECT) b
      wsect (din.addr NDIRECT) indirect
      pure (entry indirect (fbn - NDIRECT), din)
    else
      pure (entry indirect (fbn - NDIRECT), din)

/-
  The loop of `iappend`: the offset reached and the inode.
  Every round appends a byte, so as many rounds as there are
  bytes are enough.
-/
def iappendLoop : (fuel off : Nat) → List UInt8 → Dinode → MkfsM (Nat × Dinode)
  | 0, off, _, din => pure (off, din)
  | fuel + 1, off, p, din => do
    if 0 < p.length then do
      let fbn := off / BSIZE
      if fbn < MAXFILE then do
        let (x, din) ← mapBlock fbn din
        let n1 := min p.length ((fbn + 1) * BSIZE - off)
        let buf ← rsect x
        wsect x (buf.put (off - fbn * BSIZE) (p.take n1))
        iappendLoop fuel (off + n1) (p.drop n1) din
      else
        throw .assertion
    else
      pure (off, din)

def iappend (inum : Nat) (p : List UInt8) : MkfsM Unit := do
  let din ← rinode inum
  let (off, din) ← iappendLoop p.length din.size.toNat p din
  winode inum { din with size := UInt32.ofNat off }

---- The Program

/- What one call of `read` returns before the end of a file. -/
abbrev Piece := { p : List UInt8 // p ≠ [] ∧ p.length ≤ BSIZE }

/- An argument of the program, and the pieces of the file if it can be opened. -/
structure HostFile where
  path : List UInt8
  pieces : Option (List Piece)
  path_ne : ∀ c ∈ path, c ≠ 0

namespace HostFile

def user : List UInt8 := [117, 115, 101, 114, 47]

def underscore : UInt8 := 95

/- The argument without `user/`. -/
def shortname (h : HostFile) : List UInt8 :=
  if strncmp 5 h.path user = 0 then h.path.drop 5 else h.path

/- The name without a leading `_`. -/
def name (h : HostFile) : List UInt8 :=
  if h.shortname.headD 0 = underscore then h.shortname.drop 1 else h.shortname

end HostFile

def appendPieces (inum : Nat) : List Piece → MkfsM Unit
  | [] => pure ()
  | p :: ps => do
    iappend inum p.1
    appendPieces inum ps

def addFile (rootino : Nat) (h : HostFile) : MkfsM Unit := do
  if slash ∈ h.shortname then
    throw .assertion
  else
    match h.pieces with
    | none => throw .die
    | some pieces => do
      if h.name.length ≤ DIRSIZ then do
        let inum ← ialloc T_FILE
        iappend rootino (Dirent.make (UInt16.ofNat inum) h.name).bytes
        appendPieces inum pieces
      else
        throw .assertion

def addFiles (rootino : Nat) : List HostFile → MkfsM Unit
  | [] => pure ()
  | h :: hs => do
    addFile rootino h
    addFiles rootino hs

/- Write zeros to the sectors below `n`. -/
def zeroSectors : Nat → MkfsM Unit
  | 0 => pure ()
  | n + 1 => do
    zeroSectors n
    wsect n Bytes.zero

/- Round the size of the root directory up. -/
def fixRoot (rootino : Nat) : MkfsM Unit := do
  let din ← rinode rootino
  let off := (din.size / UInt32.ofNat BSIZE + 1) * UInt32.ofNat BSIZE
  winode rootino { din with size := off }

def main (files : List HostFile) : MkfsM Unit := do
  zeroSectors FSSIZE
  wsect 1 (Bytes.zero.put 0 sb.bytes)
  let rootino ← ialloc T_DIR
  if rootino = ROOTINO then do
    iappend rootino (Dirent.make (UInt16.ofNat rootino) dot).bytes
    iappend rootino (Dirent.make (UInt16.ofNat rootino) dotdot).bytes
    addFiles rootino files
    fixRoot rootino
    let img ← get
    balloc img.freeblock
  else
    throw .assertion

/- The state in which the program starts. -/
def start : Img where
  disk := fun _ => Bytes.zero
  len := 0
  freeinode := 1
  freeblock := nmeta

end Xv6.Mkfs

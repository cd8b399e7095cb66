import Xv6.Fs.Format
import Xv6.Lib.Bitmap
import Xv6.Lib.Prog

/-
  Blocks and inode content (`fs.c`).

  The functions work on the disk, as it is seen through the
  buffer cache, and on one inode: the in-memory copy that the
  caller has locked. The copy is written back by `iupdate`
  alone.

  Copies from and to user memory may fail. A source says
  which bytes it has and where a copy stops; a destination
  says which copies succeed. What was copied before a copy
  stopped stays in the buffer, though it is not logged.

  Key definitions include:
    * `Ip`
    * `balloc`
    * `bfree`
-/

namespace Xv6.Fs

open Prog

inductive Panic where
  | freeingFreeBlock
  | bmapOutOfRange
deriving DecidableEq

/- The disk and the inode that the caller has locked. -/
structure Ip where
  disk : Disk
  inum : Nat
  ip : Dinode

abbrev IpM (α : Type) := Prog Ip Panic α

def setDisk (change : Disk → Disk) : IpM Unit := modify fun s => { s with disk := change s.disk }

def setIp (change : Dinode → Dinode) : IpM Unit := modify fun s => { s with ip := change s.ip }

@[simp] theorem wp_setDisk (change : Disk → Disk) (Q : Unit → Ip → Prop) (E : Panic → Prop) (s : Ip) :
    wp (setDisk change) Q E s ↔ Q () { s with disk := change s.disk } := wp_modify _ Q E s

@[simp] theorem wp_setIp (change : Dinode → Dinode) (Q : Unit → Ip → Prop) (E : Panic → Prop)
    (s : Ip) : wp (setIp change) Q E s ↔ Q () { s with ip := change s.ip } := wp_modify _ Q E s

---- Blocks

/- The block of the bitmap with the bit of block `b`. -/
def BBLOCK (b : Nat) (sb : Superblock) : Nat := b / BPB + sb.bmapstart.toNat

variable (sb : Superblock)

/- The bit of block `b`. -/
def bit (disk : Disk) (b : Nat) : Bool :=
  Bitmap.test (disk (BBLOCK b sb)) (b % BPB)

def setBit (disk : Disk) (b : Nat) : Disk :=
  disk.write (BBLOCK b sb) (Bitmap.set (disk (BBLOCK b sb)) (b % BPB))

def clearBit (disk : Disk) (b : Nat) : Disk :=
  disk.write (BBLOCK b sb) (Bitmap.clear (disk (BBLOCK b sb)) (b % BPB))

def bzero (b : Nat) : IpM Unit := setDisk fun disk => disk.write b Bytes.zero

/-
  Allocate a zeroed block. The two loops of the source visit
  the blocks in order, one block of the bitmap at a time.
-/
def balloc : IpM Nat := do
  let s ← get
  match (List.range sb.size.toNat).find? (fun b => !bit sb s.disk b) with
  | none => pure 0
  | some b => do
    setDisk fun disk => setBit sb disk b
    bzero b
    pure b

def bfree (b : Nat) : IpM Unit := do
  let s ← get
  if bit sb s.disk b = false then
    throw .freeingFreeBlock
  else
    setDisk fun disk => clearBit sb disk b

---- The Map Of An Inode

/- Write the copy back. -/
def iupdate : IpM Unit :=
  modify fun s => { s with disk := putDinode sb s.disk s.inum s.ip }

@[simp] theorem wp_iupdate (Q : Unit → Ip → Prop) (E : Panic → Prop) (s : Ip) :
    wp (iupdate sb) Q E s ↔ Q () { s with disk := putDinode sb s.disk s.inum s.ip } :=
  wp_modify _ Q E s

/- The address in `addrs[k]`, allocated if it is not there. -/
def getAddr (k : Nat) : IpM Nat := do
  let s ← get
  if s.ip.addr k = 0 then do
    let addr ← balloc sb
    if addr = 0 then
      pure 0
    else do
      setIp fun ip => ip.setAddr k addr
      pure addr
  else
    pure (s.ip.addr k)

/- The address in entry `j` of indirect block `b`. -/
def getEntry (b j : Nat) : IpM Nat := do
  let s ← get
  if entry (s.disk b) j = 0 then do
    let addr ← balloc sb
    if addr = 0 then
      pure 0
    else do
      setDisk fun disk =>
        disk.write b (putEntry (disk b) j addr)
      pure addr
  else
    pure (entry (s.disk b) j)

/- The disk block of block `bn` of the inode. -/
def bmap (bn : Nat) : IpM Nat := do
  if bn < NDIRECT then
    getAddr sb bn
  else if bn - NDIRECT < NINDIRECT then do
    let addr ← getAddr sb NDIRECT
    if addr = 0 then pure 0 else getEntry sb addr (bn - NDIRECT)
  else
    throw .bmapOutOfRange

/- Free the blocks of the direct addresses. -/
def itruncDirect : List Nat → IpM Unit
  | [] => pure ()
  | i :: is => do
    let s ← get
    if s.ip.addr i = 0 then
      itruncDirect is
    else do
      bfree sb (s.ip.addr i)
      setIp fun ip => ip.setAddr i 0
      itruncDirect is

/- Free the blocks of the entries of an indirect block. -/
def itruncEntries (a : Block) : List Nat → IpM Unit
  | [] => pure ()
  | j :: js => do
    if entry a j = 0 then
      itruncEntries a js
    else do
      bfree sb (entry a j)
      itruncEntries a js

def itruncIndirect : IpM Unit := do
  let s ← get
  if s.ip.addr NDIRECT = 0 then
    pure ()
  else do
    itruncEntries sb (s.disk (s.ip.addr NDIRECT)) (List.range NINDIRECT)
    bfree sb (s.ip.addr NDIRECT)
    setIp fun ip => ip.setAddr NDIRECT 0

/- Discard the contents. -/
def itrunc : IpM Unit := do
  itruncDirect sb (List.range NDIRECT)
  itruncIndirect sb
  setIp fun ip => { ip with size := 0 }
  iupdate sb

---- Reading And Writing

/- A destination: whether the copy of `m` bytes to the place after the first `tot` succeeds. -/
abbrev Dst := Nat → Nat → Bool

/- A destination in the kernel. -/
def Dst.kernel : Dst := fun _ _ => true

/-
  A source: its bytes, and how far the copy of `m` bytes from
  the place after the first `tot` gets if it fails.
-/
structure Src where
  byte : Nat → UInt8
  fails : Nat → Nat → Option Nat

/- The bytes a copy of `m` bytes after the first `tot` gets. -/
def Src.bytes (src : Src) (tot m : Nat) : List UInt8 :=
  (List.range m).map (fun i => src.byte (tot + i))

/- A list of bytes in the kernel. -/
def Src.kernel (xs : List UInt8) : Src where
  byte i := xs.getD i 0
  fails _ _ := none

/-
  The loop of `readi`: the bytes delivered, or none if a
  copy fails. Every round delivers a byte, so `n` rounds are
  enough.
-/
def readLoop (dst : Dst) : (fuel tot off n : Nat) → IpM (Option (List UInt8))
  | 0, _, _, _ => pure (some [])
  | fuel + 1, tot, off, n => do
    if tot < n then do
      let addr ← bmap sb (off / BSIZE)
      if addr = 0 then
        pure (some [])
      else do
        let s ← get
        let m := min (n - tot) (BSIZE - off % BSIZE)
        if dst tot m = true then do
          let data := (s.disk addr).slice (off % BSIZE) m
          let rest ← readLoop dst fuel (tot + m) (off + m) n
          pure (rest.map (data ++ ·))
        else
          pure none
    else
      pure (some [])

/- The number of bytes read, and the bytes; -1 if a copy fails. -/
def readi (dst : Dst) (off n : UInt32) : IpM (Int × List UInt8) := do
  let s ← get
  if off > s.ip.size ∨ off + n < off then
    pure (0, [])
  else do
    let n := if off + n > s.ip.size then s.ip.size - off else n
    match ← readLoop sb dst n.toNat 0 off.toNat n.toNat with
    | none => pure (-1, [])
    | some data => pure (data.length, data)

/- The loop of `writei`: the number of bytes written and the offset reached. -/
def writeLoop (src : Src) : (fuel tot off n : Nat) → IpM (Nat × Nat)
  | 0, tot, off, _ => pure (tot, off)
  | fuel + 1, tot, off, n => do
    if tot < n then do
      let addr ← bmap sb (off / BSIZE)
      if addr = 0 then
        pure (tot, off)
      else do
        let m := min (n - tot) (BSIZE - off % BSIZE)
        match src.fails tot m with
        | some k => do
          setDisk fun disk =>
            disk.write addr ((disk addr).put (off % BSIZE) (src.bytes tot (min k m)))
          pure (tot, off)
        | none => do
          setDisk fun disk =>
            disk.write addr ((disk addr).put (off % BSIZE) (src.bytes tot m))
          writeLoop src fuel (tot + m) (off + m) n
    else
      pure (tot, off)

def writei (src : Src) (off n : UInt32) : IpM Int := do
  let s ← get
  if off > s.ip.size ∨ off + n < off then
    pure (-1)
  else if (off + n).toNat > MAXFILE * BSIZE then
    pure (-1)
  else do
    let (tot, off) ← writeLoop sb src n.toNat 0 off.toNat n.toNat
    setIp fun ip =>
      if off > ip.size.toNat then { ip with size := UInt32.ofNat off } else ip
    iupdate sb
    pure tot

end Xv6.Fs

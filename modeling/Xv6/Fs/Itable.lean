import Xv6.Fs.Inode
import Xv6.Fs.Names

/-
  The inode table, directories and paths (`fs.c`).

  One system call runs at a time. A slot of the table is
  given by its index; there is one device. The lock of a slot
  is a flag: taking it twice is a deadlock. Transactions are
  counted as `begin_op` and `end_op` do (`log.c`).

  Key definitions include:
    * `State`
    * `iget`
    * `ilock`
-/

namespace Xv6.Fs

def NINODE : Nat := 50

inductive Fault where
  | inode (p : Panic)
  | igetNoInodes
  | ilock
  | ilockNoType
  | iunlock
  | dirlookupNotDir
  | dirlookupRead
  | dirlinkRead
  | isdiremptyReadi
  | unlinkNlink
  | unlinkWritei
  | filedup
  | fileclose
  | fileread
  | filewrite
  | initExiting
  | deadlock
deriving DecidableEq

/- A slot of the inode table. -/
structure Inode where
  inum : Nat
  ref : Int
  locked : Bool
  valid : Bool
  copy : Dinode

structure State where
  disk : Disk
  inode : Nat → Inode
  outstanding : Int

abbrev FsM (α : Type) := Prog State Fault α

def setInode (k : Nat) (change : Inode → Inode) : FsM Unit :=
  modify fun s => { s with inode := Function.update s.inode k (change (s.inode k)) }

/- The disk and the copy in slot `k`. -/
def State.ip (s : State) (k : Nat) : Ip where
  disk := s.disk
  inum := (s.inode k).inum
  ip := (s.inode k).copy

def State.putIp (k : Nat) (s : State) (t : Ip) : State :=
  { s with
    disk := t.disk
    inode := Function.update s.inode k { s.inode k with copy := t.ip } }

/- Run code on the inode in slot `k`. -/
def onIp {α : Type} (k : Nat) (x : IpM α) : FsM α :=
  Prog.within (fun s => s.ip k) (State.putIp k) Fault.inode x

---- Transactions

def beginOp : FsM Unit := modify fun s => { s with outstanding := s.outstanding + 1 }

def endOp : FsM Unit := modify fun s => { s with outstanding := s.outstanding - 1 }

---- The Inode Table

/- The slot of an inode, which is not read from disk. -/
def iget (inum : Nat) : FsM Nat := do
  let s ← get
  match (List.range NINODE).find? (fun k =>
      decide (0 < (s.inode k).ref ∧ (s.inode k).inum = inum))
    with
  | some k => do
    setInode k fun ip => { ip with ref := ip.ref + 1 }
    pure k
  | none => do
    match (List.range NINODE).find? (fun k =>
        decide ((s.inode k).ref = 0)) with
    | none => throw .igetNoInodes
    | some k => do
      setInode k fun ip => { ip with inum := inum, ref := 1, valid := false }
      pure k

def idup (k : Nat) : FsM Nat := do
  setInode k fun ip => { ip with ref := ip.ref + 1 }
  pure k

def acquiresleep (k : Nat) : FsM Unit := do
  let s ← get
  if (s.inode k).locked = true then
    throw .deadlock
  else
    setInode k fun ip => { ip with locked := true }

def releasesleep (k : Nat) : FsM Unit := setInode k fun ip => { ip with locked := false }

variable (sb : Superblock)

def ilock (k : Nat) : FsM Unit := do
  let s ← get
  if (s.inode k).ref < 1 then
    throw .ilock
  else do
    acquiresleep k
    let s ← get
    if (s.inode k).valid = false then do
      setInode k fun ip =>
        { ip with
          copy := dinode sb s.disk ip.inum
          valid := true }
      let s ← get
      if (s.inode k).copy.type = 0 then
        throw .ilockNoType

def iunlock (k : Nat) : FsM Unit := do
  let s ← get
  if (s.inode k).locked = false ∨ (s.inode k).ref < 1 then throw .iunlock else releasesleep k

/- Free the inode in slot `k`, which has no links. -/
def ifree (k : Nat) : FsM Unit := do
  acquiresleep k
  onIp k (itrunc sb)
  onIp k (setIp fun ip => { ip with type := 0 })
  onIp k (iupdate sb)
  setInode k fun ip => { ip with valid := false }
  releasesleep k

def iput (k : Nat) : FsM Unit := do
  let s ← get
  if (s.inode k).ref = 1 ∧ (s.inode k).valid = true ∧ (s.inode k).copy.nlink = 0 then
    ifree sb k
  setInode k fun ip => { ip with ref := ip.ref - 1 }

def iunlockput (k : Nat) : FsM Unit := do
  iunlock k
  iput sb k

/- Allocate an inode on disk; none if there is no free one. -/
def ialloc (type : UInt16) : FsM (Option Nat) := do
  let s ← get
  match (List.range' 1 (sb.ninodes.toNat - 1)).find? (fun i =>
      decide ((dinode sb s.disk i).type = 0)) with
  | none => pure none
  | some inum => do
    modify fun s =>
      { s with
        disk := putDinode sb s.disk inum { Dinode.zero with type := type } }
    let k ← iget inum
    pure (some k)

/- Change fields of the copy and write it to disk. -/
def setFields (k : Nat) (change : Dinode → Dinode) : FsM Unit :=
  onIp k do
    setIp change
    iupdate sb

---- Directories

/- The entry at an offset; none if it cannot be read. -/
def readDirent (k off : Nat) : FsM (Option Dirent) := do
  let r ← onIp k (readi sb .kernel (UInt32.ofNat off) (UInt32.ofNat DIRENT))
  if r.1 ≠ DIRENT then pure none else pure (some (Dirent.ofBytes r.2))

/-
  A loop over the entries of a directory from an offset on:
  the first entry that is wanted, with its offset. The size
  divided by the size of an entry bounds the rounds.
-/
def scan (k : Nat) (short : Fault) (wanted : Dirent → Bool) :
    Nat → Nat → FsM (Option (Nat × Dirent))
  | 0, _ => pure none
  | fuel + 1, off => do
    let s ← get
    if off < (s.inode k).copy.size.toNat then do
      match ← readDirent sb k off with
      | none => throw short
      | some de =>
        if wanted de = true then
          pure (some (off, de))
        else
          scan k short wanted fuel (off + DIRENT)
    else
      pure none

/- The rounds of a loop over all entries. -/
def State.rounds (s : State) (k : Nat) : Nat := (s.inode k).copy.size.toNat / DIRENT + 1

/- The inode of a name, and the offset of its entry. -/
def dirlookup (k : Nat) (name : List UInt8) : FsM (Option (Nat × Nat)) := do
  let s ← get
  if (s.inode k).copy.type ≠ T_DIR then
    throw .dirlookupNotDir
  else do
    let found ←
      scan sb k .dirlookupRead
        (fun de =>
          decide (de.inum ≠ 0 ∧ namecmp name (de.name.slice 0 DIRSIZ) = 0))
        (s.rounds k) 0
    match found with
    | none => pure none
    | some (off, de) => do
      let ip ← iget de.inum.toNat
      pure (some (ip, off))

/- Enter a name; -1 if it is there or cannot be written. -/
def dirlink (k : Nat) (name : List UInt8) (inum : Nat) : FsM Int := do
  match ← dirlookup sb k name with
  | some (ip, _) => do
    iput sb ip
    pure (-1)
  | none => do
    let s ← get
    let found ← scan sb k .dirlinkRead (fun de => decide (de.inum = 0)) (s.rounds k) 0
    -- Without a free entry the loop ends past the last one.
    let off :=
      match found with
      | some (off, _) => off
      | none => ((s.inode k).copy.size.toNat + (DIRENT - 1)) / DIRENT * DIRENT
    let de := Dirent.make (UInt16.ofNat inum) name
    let r ← onIp k (writei sb (.kernel de.bytes) (UInt32.ofNat off) (UInt32.ofNat DIRENT))
    if r ≠ DIRENT then pure (-1) else pure 0

---- Paths

/-
  The loop of `namex`. The result has the last element of the
  path if the parent is wanted. Every round takes an element
  off the path.
-/
def walk (parent : Bool) :
    Nat → Nat → List UInt8 → FsM (Option (Nat × List UInt8))
  | 0, _, _ => pure none
  | fuel + 1, ip, path => do
    match skipelem path with
    | none =>
      if parent = true then do
        iput sb ip
        pure none
      else
        pure (some (ip, []))
    | some (name, rest) => do
      ilock sb ip
      let s ← get
      if (s.inode ip).copy.type ≠ T_DIR then do
        iunlockput sb ip
        pure none
      else if parent = true ∧ rest = [] then do
        -- Stop one level early.
        iunlock ip
        pure (some (ip, name))
      else do
        match ← dirlookup sb ip name with
        | none => do
          iunlockput sb ip
          pure none
        | some (next, _) => do
          iunlockput sb ip
          walk parent fuel next rest

def namex (cwd : Nat) (path : List UInt8) (parent : Bool) :
    FsM (Option (Nat × List UInt8)) := do
  let ip ←
    if path.head? = some slash then iget ROOTINO else idup cwd
  walk sb parent (path.length + 1) ip path

def namei (cwd : Nat) (path : List UInt8) : FsM (Option Nat) := do
  let r ← namex sb cwd path false
  pure (r.map Prod.fst)

def nameiparent (cwd : Nat) (path : List UInt8) :
    FsM (Option (Nat × List UInt8)) := namex sb cwd path true

end Xv6.Fs

import Xv6.Fs.Itable
import Xv6.Fs.Sharing
import Xv6.Kernel.State

/-
  Open files over the file system (`file.c`, `pipe.c`).

  Calls run to their end one after another. What they take
  from user memory or from the allocator enters as an
  argument: strings and sources, whether a copy succeeds, and
  the page `kalloc` returns. The data of pipes and devices is
  left out; their reads and writes change nothing here.

  Key definitions include:
    * `State`
    * `filealloc`
    * `fileclose`
-/

namespace Xv6.Sysfile

open Function (update)

open Kernel (FileType ProcState)
open Fs (Fault Superblock Src Dst beginOp endOp)

structure File where
  type : FileType
  ref : Int
  readable : Bool
  writable : Bool
  pipe : Nat
  ip : Nat
  off : UInt32
  major : UInt16

structure Pipe where
  readopen : Bool
  writeopen : Bool

/- What the calls use of a process. -/
structure Proc where
  state : ProcState
  parent : Option Nat
  ofile : Nat → Option Nat
  cwd : Option Nat

/- A pipe is given by its page. Files, processes and inodes are given by their index. -/
structure State where
  fs : Fs.State
  file : Nat → File
  pipe : Nat → Option Pipe
  proc : Nat → Proc
  initproc : Nat

abbrev SysM (α : Type) := Prog State Fault α

/- Run code on the file system. -/
def fs {α : Type} (x : Fs.FsM α) : SysM α := Prog.focus State.fs (fun s t => { s with fs := t }) x

def setFile (f : Nat) (change : File → File) : SysM Unit :=
  modify fun s => { s with file := update s.file f (change (s.file f)) }

def setPipe (pi : Nat) (p : Option Pipe) : SysM Unit :=
  modify fun s => { s with pipe := update s.pipe pi p }

def setProc (i : Nat) (change : Proc → Proc) : SysM Unit :=
  modify fun s => { s with proc := update s.proc i (change (s.proc i)) }

---- Open And Close

/- Allocate a file structure. -/
def filealloc : SysM (Option Nat) := do
  let s ← get
  match (List.range NFILE).find? (fun f => decide ((s.file f).ref = 0)) with
  | none => pure none
  | some f => do
    setFile f fun file => { file with ref := 1 }
    pure (some f)

def filedup (f : Nat) : SysM Nat := do
  let s ← get
  if (s.file f).ref < 1 then
    throw .filedup
  else do
    setFile f fun file => { file with ref := file.ref + 1 }
    pure f

/- Without an open end the page is freed. -/
def pipeclose (pi : Nat) (writable : Bool) : SysM Unit := do
  let s ← get
  match s.pipe pi with
  | none => pure ()
  | some p =>
    let p' :=
      if writable = true then { p with writeopen := false } else { p with readopen := false }
    if p'.readopen = false ∧ p'.writeopen = false then setPipe pi none else setPipe pi (some p')

def fileclose (sb : Superblock) (f : Nat) : SysM Unit := do
  let s ← get
  let ff := s.file f
  if ff.ref < 1 then
    throw .fileclose
  else if ff.ref - 1 > 0 then
    setFile f fun file => { file with ref := ff.ref - 1 }
  else do
    setFile f fun file => { file with ref := 0, type := .none }
    if ff.type = .pipe then
      pipeclose ff.pipe ff.writable
    else if ff.type = .inode ∨ ff.type = .device then do
      fs beginOp
      fs (Fs.iput sb ff.ip)
      fs endOp

/- The page that `kalloc` returns is not in use. -/
def kalloc (page : Option Nat) : SysM (Option Nat) := do
  let s ← get
  pure (page.filter fun pi => (s.pipe pi).isNone)

/- A pipe with its read end and its write end. -/
def pipealloc (sb : Superblock) (page : Option Nat) : SysM (Option (Nat × Nat)) := do
  match ← filealloc with
  | none => pure none
  | some f0 => do
    match ← filealloc with
    | none => do
      fileclose sb f0
      pure none
    | some f1 => do
      match ← kalloc page with
      | none => do
        fileclose sb f0
        fileclose sb f1
        pure none
      | some pi => do
        setPipe pi (some ⟨true, true⟩)
        setFile f0 fun file =>
          { file with
            type := .pipe
            readable := true
            writable := false
            pipe := pi }
        setFile f1 fun file =>
          { file with
            type := .pipe
            readable := false
            writable := true
            pipe := pi }
        pure (some (f0, f1))

---- Read And Write

def filestat (sb : Superblock) (f : Nat) (copied : Bool) : SysM Int := do
  let s ← get
  let file := s.file f
  if file.type = .inode ∨ file.type = .device then do
    fs (Fs.ilock sb file.ip)
    fs (Fs.iunlock file.ip)
    if copied = true then pure 0 else pure (-1)
  else
    pure (-1)

/- `other` is what a pipe or a device returns. -/
def fileread (sb : Superblock) (f : Nat) (dst : Dst) (n other : Int) : SysM Int := do
  let s ← get
  let file := s.file f
  if file.readable = false then
    pure (-1)
  else if file.type = .pipe ∨ file.type = .device then
    pure other
  else if file.type = .inode then do
    fs (Fs.ilock sb file.ip)
    let r ← fs (Fs.onIp file.ip (Fs.readi sb dst file.off (UInt32.ofInt n)))
    setFile f fun file => { file with off := Fs.Sharing.moveOff file.off r.1 }
    fs (Fs.iunlock file.ip)
    pure r.1
  else
    throw .fileread

/-
  The loop of `filewrite` on an inode: how far it gets. Every
  round that goes on has written a byte.
-/
def writeParts (sb : Superblock) (f : Nat) (src : Src) (n : Int) : Nat → Nat → SysM Nat
  | 0, i => pure i
  | fuel + 1, i => do
    if (i : Int) < n then do
      let n1 := Fs.Sharing.partLen n i
      let s ← get
      let file := s.file f
      fs beginOp
      fs (Fs.ilock sb file.ip)
      let r ←
        fs (Fs.onIp file.ip (Fs.writei sb (Fs.Sharing.shifted src i) file.off (UInt32.ofNat n1)))
      setFile f fun file => { file with off := Fs.Sharing.moveOff file.off r }
      fs (Fs.iunlock file.ip)
      fs endOp
      if r ≠ n1 then pure i else writeParts sb f src n fuel (i + r.toNat)
    else
      pure i

def filewrite (sb : Superblock) (f : Nat) (src : Src) (n other : Int) : SysM Int := do
  let s ← get
  let file := s.file f
  if file.writable = false then
    pure (-1)
  else if file.type = .pipe ∨ file.type = .device then
    pure other
  else if file.type = .inode then do
    let i ← writeParts sb f src n (n.toNat + 1) 0
    if (i : Int) = n then pure n else pure (-1)
  else
    throw .filewrite

end Xv6.Sysfile

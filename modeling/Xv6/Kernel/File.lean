import Xv6.Kernel.State

/-
  Open files and pipe ends (`file.c`, `pipe.c`,
  `sysfile.c`).

  A pipe is a page. Its two flags stand in that page as the
  source lays them out; its lock and its buffer are not
  used here. Closing a file that is not a pipe gives back an
  inode and no page.

  Key definitions include:
    * `filealloc`
    * `fileclose`
    * `pipealloc`
-/

namespace Xv6.Kernel

open Vm

---- Pipes

/- The offsets of the fields of `struct pipe`. -/
def NREAD : Nat := 536
def NWRITE : Nat := 540
def READOPEN : Nat := 544
def WRITEOPEN : Nat := 548

/- Read a 32-bit word. -/
def ldw (a : Nat) : VmM Nat := do
  let s ← get
  pure (s.mem.load a 4)

/- Write a 32-bit word. -/
def stw (a v : Nat) : VmM Unit := modify fun s => { s with mem := s.mem.store a 4 v }

def pipeclose (kend pi : Nat) (writable : Bool) : VmM Unit := do
  if writable = true then stw (pi + WRITEOPEN) 0 else stw (pi + READOPEN) 0
  let readopen ← ldw (pi + READOPEN)
  let writeopen ← ldw (pi + WRITEOPEN)
  if readopen = 0 ∧ writeopen = 0 then
    kfree kend pi

---- The File Table

/- Allocate a file structure. -/
def filealloc : KernelM (Option Nat) := do
  let s ← get
  match (List.range NFILE).find? (fun f => decide ((s.file f).ref = 0)) with
  | none => pure none
  | some f => do
    setFile f fun file => { file with ref := 1 }
    pure (some f)

def filedup (f : Nat) : KernelM Nat := do
  let s ← get
  if (s.file f).ref < 1 then
    throw .filedup
  setFile f fun file => { file with ref := file.ref + 1 }
  pure f

def fileclose (kend f : Nat) : KernelM Unit := do
  let s ← get
  let ff := s.file f
  if ff.ref < 1 then
    throw .fileclose
  if ff.ref - 1 > 0 then
    setFile f fun file => { file with ref := ff.ref - 1 }
  else do
    setFile f fun file => { file with ref := 0, type := .none }
    if ff.type = .pipe then
      vm (pipeclose kend ff.pipe ff.writable)

---- System Calls

/- A pipe with its read end and its write end. -/
def pipealloc (kend : Nat) : KernelM (Option (Nat × Nat)) := do
  match ← filealloc with
  | none => pure none
  | some f0 => do
    match ← filealloc with
    | none => do
      fileclose kend f0
      pure none
    | some f1 => do
      let pi ← vm kalloc
      if pi = 0 then do
        fileclose kend f0
        fileclose kend f1
        pure none
      else do
        vm (stw (pi + READOPEN) 1)
        vm (stw (pi + WRITEOPEN) 1)
        vm (stw (pi + NWRITE) 0)
        vm (stw (pi + NREAD) 0)
        setFile f0 fun file =>
          { file with
            type := .pipe
            readable := true
            writable := false
            pipe := pi }
        setFile f1 fun file =>
          { file with
            type := .pipe
            readable := false
            writable := true
            pipe := pi }
        pure (some (f0, f1))

def setOfile (i fd : Nat) (f : Option Nat) : KernelM Unit :=
  setProc i fun p => { p with ofile := Function.update p.ofile fd f }

/- The lowest free descriptor of a process. -/
def fdalloc (i f : Nat) : KernelM (Option Nat) := do
  let p ← getProc i
  match (List.range NOFILE).find? (fun fd => (p.ofile fd).isNone) with
  | none => pure none
  | some fd => do
    setOfile i fd (some f)
    pure (some fd)

def sysPipe (kend i fdarray : Nat) : KernelM Int := do
  match ← pipealloc kend with
  | none => pure (-1)
  | some (rf, wf) => do
    match ← fdalloc i rf with
    | none => do
      fileclose kend rf
      fileclose kend wf
      pure (-1)
    | some fd0 => do
      match ← fdalloc i wf with
      | none => do
        setOfile i fd0 none
        fileclose kend rf
        fileclose kend wf
        pure (-1)
      | some fd1 => do
        let p ← getProc i
        let r0 ← vm (copyout p.pagetable fdarray (Bytes.le 4 fd0))
        let r1 ←
          if r0 < 0 then
            pure (-1)
          else
            vm (copyout p.pagetable ((fdarray + 4) % UINT64) (Bytes.le 4 fd1))
        if r1 < 0 then do
          setOfile i fd0 none
          setOfile i fd1 none
          fileclose kend rf
          fileclose kend wf
          pure (-1)
        else
          pure 0

/- The open file of a descriptor, as `argfd` finds it. -/
def argfd (p : Proc) (fd : Int) : Option Nat :=
  if fd < 0 ∨ fd ≥ NOFILE then none else p.ofile fd.toNat

def sysClose (kend i : Nat) (fd : Int) : KernelM Int := do
  let p ← getProc i
  match argfd p fd with
  | none => pure (-1)
  | some f => do
    setOfile i fd.toNat none
    fileclose kend f
    pure 0

end Xv6.Kernel

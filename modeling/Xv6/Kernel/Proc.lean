import Xv6.Kernel.File

/-
  Processes (`proc.c`): their page tables, creation, growth,
  exit and wait.

  The calls of one process run without interruption. `wait`
  that finds children but no zombie goes to sleep and does
  not complete; its result is then `none`.

  Key definitions include:
    * `procPagetable`
    * `procFreepagetable`
    * `allocproc`
-/

namespace Xv6.Kernel

open Vm

---- Page Tables Of Processes

/- A page table with the trampoline and the trapframe and no user memory, or `0`. -/
def procPagetable (L : Layout) (trapframe : Nat) : VmM Nat := do
  let pagetable ← uvmcreate
  if pagetable = 0 then
    pure 0
  else do
    let r ← mappages pagetable TRAMPOLINE PGSIZE L.trampoline (PTE_R ||| PTE_X)
    if r < 0 then do
      uvmfree L.kend pagetable 0
      pure 0
    else do
      let r ← mappages pagetable TRAPFRAME PGSIZE trapframe (PTE_R ||| PTE_W)
      if r < 0 then do
        uvmunmap L.kend pagetable TRAMPOLINE 1 false
        uvmfree L.kend pagetable 0
        pure 0
      else
        pure pagetable

def procFreepagetable (kend pagetable sz : Nat) : VmM Unit := do
  uvmunmap kend pagetable TRAMPOLINE 1 false
  uvmunmap kend pagetable TRAPFRAME 1 false
  uvmfree kend pagetable sz

---- Slots Of The Process Table

def allocpid : KernelM Int := do
  let s ← get
  set { s with nextpid := incr s.nextpid }
  pure s.nextpid

def freeproc (kend i : Nat) : KernelM Unit := do
  let p ← getProc i
  if p.trapframe ≠ 0 then
    vm (kfree kend p.trapframe)
  setProc i fun p => { p with trapframe := 0 }
  if p.pagetable ≠ 0 then
    vm (procFreepagetable kend p.pagetable p.sz)
  setProc i fun p =>
    { p with
      pagetable := 0
      sz := 0
      pid := 0
      parent := none
      chan := none
      killed := false
      xstate := 0
      state := .unused }

/- A new process with an empty address space. -/
def allocproc (L : Layout) : KernelM (Option Nat) := do
  let s ← get
  match (List.range NPROC).find? (fun i => decide ((s.proc i).state = .unused)) with
  | none => pure none
  | some i => do
    let pid ← allocpid
    setProc i fun p => { p with pid := pid, state := .used }
    let trapframe ← vm kalloc
    setProc i fun p => { p with trapframe := trapframe }
    if trapframe = 0 then do
      freeproc L.kend i
      pure none
    else do
      let pagetable ← vm (procPagetable L trapframe)
      setProc i fun p => { p with pagetable := pagetable, guard := none }
      if pagetable = 0 then do
        freeproc L.kend i
        pure none
      else
        pure (some i)

---- The First Process

/- `initcode.S`, assembled: it calls `exec("/init")`. -/
def initcode : List UInt8 :=
  [0x17, 0x05, 0x00, 0x00, 0x13, 0x05, 0x45, 0x02, 0x97, 0x05, 0x00, 0x00, 0x93, 0x85, 0x35, 0x02,
   0x93, 0x08, 0x70, 0x00, 0x73, 0x00, 0x00, 0x00, 0x93, 0x08, 0x20, 0x00, 0x73, 0x00, 0x00, 0x00,
   0xef, 0xf0, 0x9f, 0xff, 0x2f, 0x69, 0x6e, 0x69, 0x74, 0x00, 0x00, 0x24, 0x00, 0x00, 0x00, 0x00,
   0x00, 0x00, 0x00, 0x00]

/- The offsets of fields of `struct trapframe`. -/
def EPC : Nat := 24
def SP : Nat := 48
def A0 : Nat := 112
def A1 : Nat := 120

/- The size of `struct trapframe`. -/
def TRAPFRAMESIZE : Nat := 288

/-
  The first process. A null pointer that the source would
  follow here is a page fault in the kernel.
-/
def userinit (L : Layout) : KernelM Unit := do
  match ← allocproc L with
  | none => throw .kerneltrap
  | some i => do
    modify fun s => { s with initproc := i }
    let p ← getProc i
    vm (uvmfirst p.pagetable initcode)
    setProc i fun p => { p with sz := PGSIZE }
    vm (st (p.trapframe + EPC) 0)
    vm (st (p.trapframe + SP) PGSIZE)
    setProc i fun p => { p with state := .runnable }

---- Growing And Forking

/- A `uint64` plus a signed number. -/
def addInt (sz : Nat) (n : Int) : Nat := ((sz + n) % UINT64).toNat

def growproc (kend i : Nat) (n : Int) : KernelM Int := do
  let p ← getProc i
  if n > 0 then do
    let sz ← vm (uvmalloc kend p.pagetable p.sz (addInt p.sz n) PTE_W)
    if sz = 0 then
      pure (-1)
    else do
      setProc i fun p => { p with sz := sz }
      pure 0
  else if n < 0 then do
    let sz ← vm (uvmdealloc kend p.pagetable p.sz (addInt p.sz n))
    setProc i fun p => { p with sz := sz }
    pure 0
  else do
    setProc i fun q => { q with sz := p.sz }
    pure 0

/- The break before the call, or `-1`. -/
def sysSbrk (kend i : Nat) (n : Int) : KernelM Int := do
  let p ← getProc i
  let r ← growproc kend i n
  if r < 0 then pure (-1) else pure p.sz

/- The loop of `fork` over the open files of process `i`. -/
def dupFiles (i np : Nat) : List Nat → KernelM Unit
| [] => pure ()
| fd :: fds => do
  let p ← getProc i
  match p.ofile fd with
  | none => pure ()
  | some f => do
    let f ← filedup f
    setOfile np fd (some f)
  dupFiles i np fds

def fork (L : Layout) (i : Nat) : KernelM Int := do
  match ← allocproc L with
  | none => pure (-1)
  | some np => do
    let p ← getProc i
    let child ← getProc np
    let r ← vm (uvmcopy L.kend p.pagetable child.pagetable p.sz)
    if r < 0 then do
      freeproc L.kend np
      pure (-1)
    else do
      setProc np fun q => { q with sz := p.sz, guard := p.guard }
      vm (memmove child.trapframe p.trapframe TRAPFRAMESIZE)
      vm (st (child.trapframe + A0) 0)
      dupFiles i np (List.range NOFILE)
      setProc np fun q => { q with parent := some i, state := .runnable }
      pure child.pid

---- Exit And Wait

/- The loop of `exit` over the open files. -/
def closeFiles (kend i : Nat) : List Nat → KernelM Unit
| [] => pure ()
| fd :: fds => do
  let p ← getProc i
  match p.ofile fd with
  | none => pure ()
  | some f => do
    fileclose kend f
    setOfile i fd none
  closeFiles kend i fds

/- Process `i` wakes up all others that sleep on `chan`. -/
def wakeup (i chan : Nat) : KernelM Unit :=
  modify fun s =>
    { s with
      proc := fun j =>
        if j ≠ i ∧ (s.proc j).state = .sleeping ∧ (s.proc j).chan = some chan then
          { s.proc j with state := .runnable }
        else
          s.proc j }

/- Pass the children of a process to `initproc`. -/
def reparent (i : Nat) : List Nat → KernelM Unit
| [] => pure ()
| j :: js => do
  let s ← get
  if (s.proc j).parent = some i then do
    setProc j fun p => { p with parent := some s.initproc }
    wakeup i s.initproc
  reparent i js

def exit (kend i : Nat) (status : Int) : KernelM Unit := do
  let s ← get
  if i = s.initproc then
    throw .initExiting
  closeFiles kend i (List.range NOFILE)
  reparent i (List.range NPROC)
  let p ← getProc i
  match p.parent with
  | none => pure ()
  | some q => wakeup i q
  setProc i fun p => { p with xstate := status, state := .zombie }

/- The bytes of a C `int`. -/
def intBytes (x : Int) : List UInt8 := Bytes.le 4 (x % 2 ^ 32).toNat

/-
  The loop of `wait` up to its result or, with the result
  `none`, to its `sleep`. A process that was asleep there
  comes back here.
-/
def wait (kend i addr : Nat) : KernelM (Option Int) := do
  setProc i fun p => { p with chan := none, waiting := none }
  let s ← get
  match (List.range NPROC).find? (fun j =>
      decide ((s.proc j).parent = some i ∧ (s.proc j).state = .zombie)) with
  | some j => do
    let pp := s.proc j
    let r ←
      if addr ≠ 0 then vm (copyout (s.proc i).pagetable addr (intBytes pp.xstate)) else pure 0
    if r < 0 then
      pure (some (-1))
    else do
      freeproc kend j
      pure (some pp.pid)
  | none =>
    if (s.proc i).killed = true ∨ ∀ j ∈ List.range NPROC, (s.proc j).parent ≠ some i then
      pure (some (-1))
    else do
      setProc i fun p =>
        { p with
          chan := some i
          state := .sleeping
          waiting := some addr }
      pure none

def kill (pid : Int) : KernelM Int := do
  let s ← get
  match (List.range NPROC).find? (fun j => decide ((s.proc j).pid = pid)) with
  | none => pure (-1)
  | some j => do
    setProc j fun p =>
      { p with
        killed := true
        state :=
          if p.state = .sleeping then .runnable else p.state }
    pure 0

end Xv6.Kernel

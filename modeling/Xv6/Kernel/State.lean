import Mathlib.Logic.Function.Basic
import Xv6.Params
import Xv6.Vm.Books
import Xv6.Vm.Uvm

/-
  The state of the kernel that system calls on processes and
  pipes work on: physical memory, the process table and the
  file table.

  System calls run one after another here, so a process that
  could run is `runnable`: `RUNNING` and `SLEEPING` differ
  from it only while calls overlap. Names, working
  directories, saved contexts and locks have no part in
  these calls.

  Key definitions include:
    * `Proc`
    * `File`
    * `State`
-/

namespace Xv6.Kernel

open Function (update)

open Prog

open Vm (Kmem Panic VmM Layout)

---- Files

/- `FD_NONE`, `FD_PIPE`, `FD_INODE` and `FD_DEVICE`. -/
inductive FileType where
  | none
  | pipe
  | inode
  | device
deriving DecidableEq

structure File where
  type : FileType
  ref : Nat
  readable : Bool
  writable : Bool
  pipe : Nat
deriving DecidableEq

---- Processes

inductive ProcState where
  | unused
  | used
  | sleeping
  | runnable
  | zombie
deriving DecidableEq

/-
  A slot of the process table. Files and processes are
  given by their index, and so are the channels that `wait`
  sleeps on. Two fields are not in the source: `guard`
  remembers the virtual page of the stack guard that `exec`
  made, and `waiting` the argument of a call of `wait` that
  has not returned.
-/
structure Proc where
  state : ProcState
  chan : Option Nat
  killed : Bool
  xstate : Int
  pid : Int
  parent : Option Nat
  sz : Nat
  pagetable : Nat
  trapframe : Nat
  ofile : Nat → Option Nat
  guard : Option Nat
  waiting : Option Nat

/- A slot before its first use. -/
def Proc.zero : Proc where
  state := .unused
  chan := none
  killed := false
  xstate := 0
  pid := 0
  parent := none
  sz := 0
  pagetable := 0
  trapframe := 0
  ofile := fun _ => none
  guard := none
  waiting := none

---- The Kernel

structure State where
  kmem : Kmem
  proc : Nat → Proc
  file : Nat → File
  nextpid : Int
  initproc : Nat

abbrev KernelM (α : Type) := Prog State Panic α

/- Run code on physical memory. -/
def vm {α : Type} (x : VmM α) : KernelM α :=
  Prog.focus State.kmem (fun s kmem => { s with kmem := kmem }) x

def getProc (i : Nat) : KernelM Proc := do
  let s ← get
  pure (s.proc i)

def setProc (i : Nat) (change : Proc → Proc) : KernelM Unit :=
  modify fun s => { s with proc := update s.proc i (change (s.proc i)) }

def setFile (f : Nat) (change : File → File) : KernelM Unit :=
  modify fun s => { s with file := update s.file f (change (s.file f)) }

---- Rules

section

variable {α : Type} {E : Panic → Prop} {s : State}

@[simp] theorem wp_vm (x : VmM α) (Q : α → State → Prop) :
    wp (vm x) Q E s ↔ wp x (fun a kmem => Q a { s with kmem := kmem }) E
      s.kmem := Prog.wp_focus _ _ x Q E s

@[simp] theorem wp_getProc (i : Nat) (Q : Proc → State → Prop) :
    wp (getProc i) Q E s ↔ Q (s.proc i) s := by
  simp only [getProc, wp_bind, wp_get, wp_pure]

@[simp] theorem wp_setProc (i : Nat) (change : Proc → Proc) (Q : Unit → State → Prop) :
    wp (setProc i change) Q E s ↔ Q () { s with
      proc := update s.proc i (change (s.proc i)) } := wp_modify _ Q E s

@[simp] theorem wp_setFile (f : Nat) (change : File → File) (Q : Unit → State → Prop) :
    wp (setFile f change) Q E s ↔ Q () { s with
      file := update s.file f (change (s.file f)) } := wp_modify _ Q E s

end

end Xv6.Kernel

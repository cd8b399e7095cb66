import Xv6.Fs.Itable
import Xv6.Kernel.Fork

/-
  Processes with their memory and the file system together.

  `fork` and `exec` work on both. The working directory of a
  process is a slot of the inode table, and its name is kept
  for debugging.

  Key definitions include:
    * `State`
    * `MachineM`
    * `fork`
-/

namespace Xv6.Machine

open Prog

open Vm (Layout)

structure State where
  kernel : Kernel.State
  fs : Fs.State
  cwd : Nat → Nat
  name : Nat → List UInt8

/- A panic of either part. -/
inductive Halt where
  | kernel (p : Vm.Panic)
  | fs (f : Fs.Fault)

abbrev MachineM (α : Type) := Prog State Halt α

/- Run code on processes and memory. -/
def kernel {α : Type} (x : Kernel.KernelM α) : MachineM α :=
  Prog.within State.kernel (fun s k => { s with kernel := k }) Halt.kernel x

/- Run code on the file system. -/
def fs {α : Type} (x : Fs.FsM α) : MachineM α :=
  Prog.within State.fs (fun s t => { s with fs := t }) Halt.fs x

/- `sizeof(p->name)`. -/
def NAMESIZE : Nat := 16

/- The string that `safestrcpy` leaves in `n` bytes. -/
def safestrcpy (t : List UInt8) (n : Nat) : List UInt8 := (t.takeWhile (· ≠ 0)).take (n - 1)

def fork (L : Layout) (i : Nat) : MachineM Int := do
  match ← kernel (Kernel.forkStart L i) with
  | none => pure (-1)
  | some (np, pid) => do
    let s ← get
    let ip ← fs (Fs.idup (s.cwd i))
    modify fun s =>
      { s with
        cwd := Function.update s.cwd np ip
        name := Function.update s.name np (safestrcpy (s.name i) NAMESIZE) }
    kernel (Kernel.forkEnd i np)
    pure pid

---- Rules

section

variable {α : Type} {E : Halt → Prop} {s : State}

@[simp] theorem wp_kernel (x : Kernel.KernelM α) (Q : α → State → Prop) :
    wp (kernel x) Q E s ↔ wp x (fun a k => Q a { s with kernel := k })
      (fun p => E (.kernel p)) s.kernel := Prog.wp_within _ _ _ x Q E s

@[simp] theorem wp_fs (x : Fs.FsM α) (Q : α → State → Prop) :
    wp (fs x) Q E s ↔ wp x (fun a t => Q a { s with fs := t }) (fun f => E (.fs f)) s.fs :=
  Prog.wp_within _ _ _ x Q E s

end

end Xv6.Machine

import Xv6.Kernel.Exec

/-
  Runs of the kernel: system calls of any processes, one
  after another, and stores of user programs in between.

  Key definitions include:
    * `Call`
    * `syscall`
    * `Booted`
-/

namespace Xv6.Kernel

open Vm

---- Calls

/-
  System calls with the values of their arguments, and a
  user program's store of one byte. `exec` carries what
  `namei` finds for its path.
-/
inductive Call where
  | fork
  | exec (path uargv : Nat) (ip : Option Inode)
  | sbrk (n : Int)
  | exit (status : Int)
  | wait (addr : Nat)
  | pipe (fdarray : Nat)
  | close (fd : Int)
  | kill (pid : Int)
  | store (va : Nat) (byte : UInt8)

/- A `uint64` from the result of a system call. -/
def ret64 (r : Int) : Nat := (r % UINT64).toNat

/- The result of a call goes to `a0`. -/
def return_ (i : Nat) (r : Int) : KernelM (Option Int) := do
  let p ← getProc i
  vm (st (p.trapframe + A0) (ret64 r))
  pure (some r)

/- One call of process `i`. The result `none` means that the process is asleep in the call. -/
def syscall (L : Layout) (i : Nat) : Call → KernelM (Option Int)
| .fork => do
  return_ i (← fork L i)
| .exec path uargv ip => do
  return_ i (← sysExec L i path uargv ip)
| .sbrk n => do
  return_ i (← sysSbrk L.kend i n)
| .exit status => do
  exit L.kend i status
  pure (some 0)
| .wait addr => do
  match ← wait L.kend i addr with
  | none => pure none
  | some r => return_ i r
| .pipe fdarray => do
  return_ i (← sysPipe L.kend i fdarray)
| .close fd => do
  return_ i (← sysClose L.kend i fd)
| .kill pid => do
  return_ i (← kill pid)
| .store va byte => do
  let p ← getProc i
  let r ← vm (copyout p.pagetable va [byte])
  pure (some r)

---- Runs

/-
  Memory and tables as boot leaves them to `userinit`: the
  pages of `boot` are taken, the others are free.
-/
structure Fresh (L : Layout) (boot : Multiset Nat) (s : State) : Prop where
  books : Books L s.kmem boot
  procs : ∀ i, s.proc i = Proc.zero
  files : ∀ f, (s.file f).ref = 0 ∧ (s.file f).type = .none

/-
  The kernel after boot. `userinit` does not look whether
  `initcode` was mapped; boot succeeded if it was.
-/
def Booted (L : Layout) (boot : Multiset Nat) (s : State) : Prop :=
  ∃ s₀, Fresh L boot s₀ ∧
      userinit L s₀ = .ok ((), s) ∧ leaf s.kmem.mem (s.proc s.initproc).pagetable 0 ≠ none

/- The states that calls lead to. A process that was woken up in `wait` goes on with it. -/
inductive Reachable (L : Layout) (boot : Multiset Nat) : State → Prop where
  | boot {s : State} (h : Booted L boot s) : Reachable L boot s
  | call {s s' : State}
      {i : Nat} {c : Call} {r : Option Int} (h : Reachable L boot s) (hi : i < NPROC)
      (hState : (s.proc i).state = .runnable)
      (hWaiting : ∀ addr ∈ (s.proc i).waiting, c = .wait addr)
      (hCall : syscall L i c s = .ok (r, s')) :
      Reachable L boot s'

end Xv6.Kernel

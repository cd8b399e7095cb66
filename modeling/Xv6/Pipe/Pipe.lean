import Xv6.Lib.RingBuf
import Mathlib.Data.List.Basic

/-
  Pipes (`pipe.c`) as a concurrent object.

  Any number of processes call `pipewrite` and `piperead` on
  one pipe. A step is a part of a call between two points
  at which another process, `kill` or `pipeclose` can be
  noticed: one acquisition of `pi->lock`, one test of a
  loop, one byte moved, or the wakeup, release and return
  at the end. `sleep` gives up the lock and blocks in one
  step; a woken process has to take the lock again.

  The user memory of a call does not change while it runs.
  `src i` is the result of `copyin` at `addr + i`, and
  `dst i` says whether `copyout` to `addr + i` succeeds.

  Key definitions include:
    * `State`
    * `pipewrite`
-/

namespace Xv6.Pipe

def PIPESIZE : Nat := 512

/- The range of the C type `uint`. -/
def UINT : Nat := 2 ^ 32

---- States

/- `struct pipe` without its lock. -/
structure Buffer where
  data : Nat → UInt8
  nread : Nat
  nwrite : Nat
  readopen : Bool
  writeopen : Bool

/- The ring of a pipe. -/
def Buffer.ring (pi : Buffer) : RingBuf UInt8 PIPESIZE UINT where
  data := pi.data
  head := pi.nread
  tail := pi.nwrite

/- The two addresses slept on. -/
inductive Chan where
  | nread
  | nwrite
deriving DecidableEq

/- A call with its user memory and its length. -/
inductive Call where
  | write (src : Nat → Option UInt8) (n : Int)
  | read (dst : Nat → Bool) (n : Int)

/-
  Positions in `pipewrite`, with the loop variable. A
  process asleep in the loop is at `acquire`.
-/
inductive WritePc where
  | acquire (i : Nat)
  | loop (i : Nat)
  | body (i : Nat)
  | finish (i : Nat)
deriving DecidableEq

/- Positions in `piperead`. -/
inductive ReadPc where
  | acquire
  | loop
  | sleep
  | copy (i : Nat)
  | finish (i : Nat)
deriving DecidableEq

inductive Pc where
  | idle
  | write (src : Nat → Option UInt8) (n : Int) (pos : WritePc)
  | read (dst : Nat → Bool) (n : Int) (pos : ReadPc)

/-
  A process. `chan` is the channel it is SLEEPING on, if it
  is, and `call` numbers its current call.
-/
structure Proc where
  pc : Pc
  chan : Option Chan
  killed : Bool
  call : Nat

/-
  One pipe and its users. `freed` holds after `pipeclose`
  has given the page back; no file refers to the pipe then.

  The rest records the history. `calls` lists the calls in
  the order they were issued, `put` and `delivered` the
  bytes stored into the ring and copied out to readers, each
  with the number of the call, and `returned` the return
  values.
-/
structure State where
  pipe : Buffer
  lock : Option Nat
  procs : Nat → Proc
  freed : Bool
  calls : List Call
  put : List (Nat × UInt8)
  delivered : List (Nat × UInt8)
  returned : List (Nat × Int)

/- The pipe that `pipealloc` makes of any page. -/
def State.init (page : Nat → UInt8) : State where
  pipe := ⟨page, 0, 0, true, true⟩
  lock := none
  procs := fun _ => ⟨.idle, none, false, 0⟩
  freed := false
  calls := []
  put := []
  delivered := []
  returned := []

/- Change one process. -/
def State.setProc (s : State) (p : Nat) (pr : Proc) : State :=
  { s with procs := fun q => if q = p then pr else s.procs q }

/- Move one process. -/
def State.goto (s : State) (p : Nat) (pc : Pc) : State := s.setProc p { s.procs p with pc := pc }

/- `acquire(&pi->lock)`, with the position after it. -/
def State.acquire (s : State) (p : Nat) (pc : Pc) : Option State :=
  if s.lock = none then some { s.goto p pc with lock := some p } else none

/- `wakeup(chan)`. -/
def State.wakeup (s : State) (chan : Chan) : State :=
  { s with
    procs := fun q =>
      if (s.procs q).chan = some chan then { s.procs q with chan := none } else s.procs q }

/- `sleep(chan, &pi->lock)`, with the position after it. -/
def State.sleep (s : State) (p : Nat) (chan : Chan) (pc : Pc) : State :=
  { s.setProc p
      { s.procs p with pc := pc, chan := some chan } with
    lock := none }

/- `release(&pi->lock)` and return. -/
def State.ret (s : State) (p : Nat) (r : Int) : State :=
  { s.goto p .idle with
    lock := none
    returned := s.returned ++ [((s.procs p).call, r)] }

---- Writing And Reading

/- `pi->data[pi->nwrite++ % PIPESIZE] = ch`. -/
def State.putByte (s : State) (p : Nat) (ch : UInt8) : State :=
  { s with
    pipe :=
      { s.pipe with
        data := fun i =>
          if i = s.pipe.nwrite % PIPESIZE then ch
          else s.pipe.data i
        nwrite := (s.pipe.nwrite + 1) % UINT }
    put := s.put ++ [((s.procs p).call, ch)] }

/- `ch = pi->data[pi->nread++ % PIPESIZE]`. -/
def State.takeByte (s : State) : UInt8 × State :=
  (s.pipe.data (s.pipe.nread % PIPESIZE), { s with
      pipe :=
        { s.pipe with
          nread := (s.pipe.nread + 1) % UINT } })

/- One step of `pipewrite`. -/
def pipewrite (s : State) (p : Nat) (src : Nat → Option UInt8) (n : Int) : WritePc → Option State
  | .acquire i => s.acquire p (.write src n (.loop i))
  | .loop i =>
    if (i : Int) < n then
      if s.pipe.readopen = false ∨ (s.procs p).killed = true then
        some (s.ret p (-1))
      else
        some (s.goto p (.write src n (.body i)))
    else
      some (s.goto p (.write src n (.finish i)))
  | .body i =>
    if s.pipe.nwrite =
        (s.pipe.nread + PIPESIZE) % UINT then
      some ((s.wakeup .nread).sleep p .nwrite (.write src n (.acquire i)))
    else
      match src i with
      | none => some (s.goto p (.write src n (.finish i)))
      | some ch => some ((s.putByte p ch).goto p (.write src n (.loop (i + 1))))
  | .finish i => some ((s.wakeup .nread).ret p i)

/- One step of `piperead`. -/
def piperead (s : State) (p : Nat) (dst : Nat → Bool) (n : Int) : ReadPc → Option State
  | .acquire => s.acquire p (.read dst n .loop)
  | .loop =>
    if s.pipe.nread = s.pipe.nwrite ∧ s.pipe.writeopen = true then
      if (s.procs p).killed = true then
        some (s.ret p (-1))
      else
        some (s.goto p (.read dst n .sleep))
    else
      some (s.goto p (.read dst n (.copy 0)))
  | .sleep => some (s.sleep p .nread (.read dst n .acquire))
  | .copy i =>
    if (i : Int) < n then
      if s.pipe.nread = s.pipe.nwrite then
        some (s.goto p (.read dst n (.finish i)))
      else
        let (ch, s') := s.takeByte
        if dst i = true then
          some ({ s' with
            delivered := s.delivered ++ [((s.procs p).call, ch)]
            }.goto p (.read dst n (.copy (i + 1))))
        else
          some (s'.goto p (.read dst n (.finish i)))
    else
      some (s.goto p (.read dst n (.finish i)))
  | .finish i => some ((s.wakeup .nwrite).ret p i)

/- Close one end and wake up the other. -/
def State.closeEnd (s : State) : Bool → State
  | true => { s with pipe.writeopen := false }.wakeup .nread
  | false => { s with pipe.readopen := false }.wakeup .nwrite

/- `pipeclose(pi, writable)`, one critical section. -/
def pipeclose (s : State) (writable : Bool) : State :=
  if (s.closeEnd writable).pipe.readopen = false ∧ (s.closeEnd writable).pipe.writeopen = false then
    { s.closeEnd writable with freed := true }
  else
    s.closeEnd writable

---- Runs

inductive Action where
  | call (p : Nat) (c : Call)
  | run (p : Nat)
  | kill (p : Nat)
  | close (writable : Bool)

/- The entry of a call. -/
def Call.entry : Call → Pc
  | .write src n => .write src n (.acquire 0)
  | .read dst n => .read dst n .acquire

/- A process issues a call. -/
def State.issue (s : State) (p : Nat) (c : Call) : State :=
  { s.setProc p
      { s.procs p with pc := c.entry, call := s.calls.length } with
    calls := s.calls ++ [c] }

/- `kill`: a sleeping victim becomes runnable. -/
def kill (s : State) (p : Nat) : State :=
  s.setProc p { s.procs p with killed := true, chan := none }

/- The next step of a running process. -/
def advance (s : State) (p : Nat) : Option State :=
  match (s.procs p).pc with
  | .idle => none
  | .write src n pos => pipewrite s p src n pos
  | .read dst n pos => piperead s p dst n pos

/- One step of the system; `none` if the action cannot happen. `pipeclose` waits for the lock. -/
def step (s : State) : Action → Option State
  | .call p c =>
    match s.freed, (s.procs p).pc with
    | false, .idle => some (s.issue p c)
    | _, _ => none
  | .run p =>
    if s.freed = false ∧ (s.procs p).chan = none then advance s p else none
  | .kill p => some (kill s p)
  | .close writable =>
    if s.freed = false ∧ s.lock = none then some (pipeclose s writable) else none

/- Follow a schedule. -/
def run (s : State) : List Action → Option State
  | [] => some s
  | a :: as => (step s a).bind fun s' => run s' as

/- The user addresses of a call are valid. -/
def Call.Valid : Call → Prop
  | .write src n => ∀ i : Nat, (i : Int) < n → (src i).isSome = true
  | .read dst n => ∀ i : Nat, (i : Int) < n → dst i = true

def Action.Valid : Action → Prop
  | .call _ c => c.Valid
  | _ => True

/- The states reached by valid calls. -/
inductive Reachable (page : Nat → UInt8) : State → Prop where
  | init : Reachable page (State.init page)
  | step {s s' : State}
      {a : Action} (hReach : Reachable page s) (hValid : a.Valid) (hStep : step s a = some s') :
      Reachable page s'

end Xv6.Pipe

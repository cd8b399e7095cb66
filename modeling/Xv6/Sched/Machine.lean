import Xv6.Params
import Mathlib.Logic.Function.Basic

/-
  Processes, CPUs and spin locks (`proc.c`).

  Every CPU runs either its scheduler loop or a process on
  that process's kernel stack. A step is one lock-delimited
  piece of the code of one CPU: an `acquire`, a `release`, a
  `swtch`, one assignment made under a lock, or a whole
  critical section that takes one more lock and gives it
  back. Timer interrupts (`yield`) and device interrupts
  (which set a condition and call `wakeup`) arrive at any
  point where the CPU holds no lock.

  Code outside of `proc.c` takes part through conditions: a
  monitor `m` is any other spin lock (`pi->lock`,
  `cons.lock`, `tickslock`, ...), and `cond m k` says whether
  a process that waits at the address `k` of the monitor may
  go on.

  `allocpid` takes and gives back `pid_lock`, which nothing
  else takes, inside the step that calls it.

  Key definitions include:
    * `Slot`, `Data`, `Cpu`, `State`
    * `Pc`, `Choice`, `Instr`
    * `code`
-/

namespace Xv6.Sched

open Function (update)

---- Shared Data

/- The field `state` of a process. -/
inductive ProcState where
  | unused
  | used
  | sleeping
  | runnable
  | running
  | zombie
deriving DecidableEq, Repr

/- The spin locks: `p->lock` of a process, `wait_lock`, and the lock of a monitor. -/
inductive Lock where
  | proc (p : Nat)
  | wait
  | monitor (m : Nat)
deriving DecidableEq

/-
  The addresses processes sleep on: none, the `struct proc`
  of a process, or an address of a monitor.
-/
inductive Chan where
  | null
  | proc (p : Nat)
  | monitor (m k : Nat)
deriving DecidableEq

/- A pointer to a process, as a channel. -/
def Chan.ofProc : Option Nat → Chan
| none => .null
| some p => .proc p

/-
  The fields of `struct proc` that scheduling reads. The
  field `life` is history: it numbers the processes that
  ever occupied a slot.
-/
structure Slot where
  state : ProcState
  chan : Chan
  killed : Bool
  xstate : Int
  pid : Int
  parent : Option Nat
  life : Nat

/- The part of `wakeup` inside `p->lock`. -/
def Slot.rouse (x : Slot) (ch : Chan) : Slot :=
  if x.state = .sleeping ∧ x.chan = ch then { x with state := .runnable } else x

/- The part of `kill` inside `p->lock`. -/
def Slot.kill (x : Slot) : Slot :=
  { x with
    killed := true
    state := if x.state = .sleeping then .runnable else x.state }

/- `freeproc` -/
def Slot.free (x : Slot) : Slot :=
  { x with
    pid := 0
    parent := none
    chan := .null
    killed := false
    xstate := 0
    state := .unused }

/-
  What all threads share. The last five fields are history:
  how many calls of `wakeup` on a channel are over, that
  number when a process last found the condition it waits
  for false, how many processes were ever made, and what was
  passed to `exit` and returned by `wait`, as the number of
  the process, its pid and its status.
-/
structure Data where
  slot : Nat → Slot
  initproc : Nat
  nextpid : Int
  cond : Nat → Nat → Bool
  wakes : Chan → Nat
  tested : Nat → Nat
  lives : Nat
  exits : List (Nat × Int × Int)
  reaped : List (Nat × Int × Int)

/- Change one slot. -/
def Data.modify (d : Data) (p : Nat) (f : Slot → Slot) : Data :=
  { d with slot := update d.slot p (f (d.slot p)) }

/- Set one condition. -/
def Data.setCond (d : Data) (m k : Nat) (b : Bool) : Data :=
  { d with cond := update d.cond m (update (d.cond m) k b) }

/- A call of `wakeup` is over. -/
def Data.woke (d : Data) (ch : Chan) : Data :=
  { d with wakes := update d.wakes ch (d.wakes ch + 1) }

/- A process found the condition it waits for false. -/
def Data.test (d : Data) (p : Nat) (ch : Chan) : Data :=
  { d with tested := update d.tested p (d.wakes ch) }

/- `allocproc` after the scan: a pid and the state USED. -/
def Data.alloc (d : Data) (k : Nat) : Data :=
  { d.modify k fun x =>
      { x with pid := d.nextpid, state := .used, life := d.lives } with
    nextpid := incr d.nextpid
    lives := d.lives + 1 }

/- `exit` under `p->lock`: the status and the state ZOMBIE. -/
def Data.exit (d : Data) (p : Nat) (status : Int) : Data :=
  { d.modify p fun x =>
      { x with xstate := status, state := .zombie } with
    exits := ((d.slot p).life, (d.slot p).pid, status) :: d.exits }

/- `wait` under `pp->lock`: the zombie's slot is freed. -/
def Data.reap (d : Data) (k : Nat) : Data :=
  { d.modify k Slot.free with
    reaped := ((d.slot k).life, (d.slot k).pid, (d.slot k).xstate) :: d.reaped }

---- Program Points

/-
  When a loop that sleeps tests `killed()`: not at all,
  before it calls `sleep`, or before it tests its condition.
-/
inductive Check where
  | never
  | after
  | before
deriving DecidableEq

/-
  A loop that sleeps at an address of a monitor until its
  condition holds, and the other address it wakes before.
-/
structure Loop where
  monitor : Nat
  chan : Nat
  check : Check
  wakes : Option Nat
  apart : wakes ≠ some chan
deriving DecidableEq

/- The loops of the kernel that test `killed()`. -/
def piperead (m : Nat) : Loop := ⟨m, 0, .after, none, nofun⟩

def pipewrite (m : Nat) : Loop := ⟨m, 1, .before, some 0, by decide⟩

def consoleread (m : Nat) : Loop := ⟨m, 0, .after, none, nofun⟩

def sysSleep (m : Nat) : Loop := ⟨m, 0, .after, none, nofun⟩

/-
  Program points. An argument `ret` is where the function
  returns, or what an interrupt suspended.
-/
inductive Pc where
  -- outside of proc.c, with no lock held
  | user
  -- scheduler: before slot k; after swtch came back from it
  | pick (k : Nat)
  | back (k : Nat)
  | forkret
  -- yield, once p->lock is held
  | yieldState (ret : Pc)
  | yieldSwitch (ret : Pc)
  | yieldBack (ret : Pc)
  | sleepLock (ch : Chan) (lk : Lock) (ret : Pc)
  | sleepRelease (ch : Chan) (lk : Lock) (ret : Pc)
  | sleepState (ch : Chan) (lk : Lock) (ret : Pc)
  | sleepSwitch (ch : Chan) (lk : Lock) (ret : Pc)
  | sleepBack (ch : Chan) (lk : Lock) (ret : Pc)
  | sleepRelock (lk : Lock) (ret : Pc)
  | wakeup (ch : Chan) (k : Nat) (ret : Pc)
  | kill (pid : Int) (k : Nat)
  -- fork: allocproc's scan, then the steps on slot k
  | forkScan (k : Nat)
  | forkAlloc (k : Nat)
  | forkBuild (k : Nat)
  | forkParent (k : Nat)
  | forkRun (k : Nat)
  -- exit, once wait_lock is held
  | exitReparent (status : Int) (k : Nat)
  | exitLock (status : Int)
  | exitState (status : Int)
  | exitRelease
  | exitSwitch
  | exited
  -- wait, once wait_lock is held
  | waitScan (addr k : Nat) (havekids : Bool)
  | waitChild (addr k : Nat)
  | waitKilled (addr : Nat)
  | waitRelease
  -- a loop that sleeps, once its monitor is held
  | loopTest (L : Loop)
  | loopKilled (L : Loop)
  | loopReturn (m : Nat)
  -- a monitor's critical section
  | inside (m : Nat) (ret : Pc)
deriving DecidableEq

/- Where a round of a loop starts. -/
def Loop.start (L : Loop) : Pc :=
  match L.check with
  | .before => .loopKilled L
  | _ => .loopTest L

/- The end of a round that found the condition false. -/
def Loop.sleep (L : Loop) : Pc :=
  let asleep := .sleepLock (.monitor L.monitor L.chan) (.monitor L.monitor) L.start
  match L.wakes with
  | none => asleep
  | some k => .wakeup (.monitor L.monitor k) 0 asleep

/-
  What the code does not decide: the system call a process
  makes, the interrupts, what a critical section of a
  monitor does, and whether memory is short.
-/
inductive Choice where
  | go
  | fork
  | exit (status : Int)
  | wait (addr : Nat)
  | kill (pid : Int)
  | setkilled
  | loop (L : Loop)
  | preempt
  | interrupt (m : Nat)
  | setCond (k : Nat) (b : Bool)
  | wake (k : Nat)
  | again (b : Bool)
  | leave
  | fail

/-
  What a step does: take a lock, give one back, change the
  shared data, start the context of a slot at `forkret`,
  run a critical section, switch to a process, give back the
  lock of the process that switched back, or switch to the
  scheduler.
-/
inductive Instr where
  | acquire (l : Lock) (next : Pc)
  | release (l : Lock) (d : Data) (next : Pc)
  | compute (d : Data) (next : Pc)
  | spawn (k : Nat) (d : Data) (next : Pc)
  | critical (l : Lock) (d : Data) (next : Pc)
  | dispatch (k : Nat) (d : Data)
  | idle (k : Nat)
  | switch (next : Pc)

---- The Code

/-
  The next step of the thread `self` (a process, or the
  scheduler for `none`) at a program point.
-/
def code (d : Data) (self : Option Nat) (ch : Choice) : Pc → Option Instr
| .user =>
  match self, ch with
  | some _, .fork => some (.compute d (.forkScan 0))
  | some p, .exit status =>
    -- panic("init exiting")
    if p = d.initproc then none else some (.acquire .wait (.exitReparent status 0))
  | some _, .wait addr => some (.acquire .wait (.waitScan addr 0 false))
  | some _, .kill pid => some (.compute d (.kill pid 0))
  | some p, .setkilled =>
    some (.critical (.proc p) (d.modify p fun x => { x with killed := true })
      .user)
  | some _, .loop L => some (.acquire (.monitor L.monitor) L.start)
  | _, _ => none
| .pick k =>
  if k < NPROC then
    if (d.slot k).state = .runnable then
      some (.dispatch k (d.modify k fun x => { x with state := .running }))
    else
      some (.critical (.proc k) d (.pick (k + 1)))
  else
    some (.compute d (.pick 0))
| .back k => some (.idle k)
| .forkret => self.map fun p => .release (.proc p) d .user
| .yieldState ret =>
  self.map fun p =>
    .compute (d.modify p fun x => { x with state := .runnable })
      (.yieldSwitch ret)
| .yieldSwitch ret => some (.switch (.yieldBack ret))
| .yieldBack ret => self.map fun p => .release (.proc p) d ret
| .sleepLock c lk ret =>
  self.map fun p =>
    .acquire (.proc p) (.sleepRelease c lk ret)
| .sleepRelease c lk ret => some (.release lk d (.sleepState c lk ret))
| .sleepState c lk ret =>
  self.map fun p =>
    .compute
      (d.modify p fun x =>
        { x with chan := c, state := .sleeping })
      (.sleepSwitch c lk ret)
| .sleepSwitch c lk ret => some (.switch (.sleepBack c lk ret))
| .sleepBack _ lk ret =>
  self.map fun p =>
    .release (.proc p) (d.modify p fun x => { x with chan := .null })
      (.sleepRelock lk ret)
| .sleepRelock lk ret => some (.acquire lk ret)
| .wakeup c k ret =>
  if k < NPROC then
    if self = some k then
      some (.compute d (.wakeup c (k + 1) ret))
    else
      some (.critical (.proc k) (d.modify k fun x => x.rouse c) (.wakeup c (k + 1) ret))
  else
    some (.compute (d.woke c) ret)
| .kill pid k =>
  if k < NPROC then
    if (d.slot k).pid = pid then
      some (.critical (.proc k) (d.modify k Slot.kill) .user)
    else
      some (.critical (.proc k) d (.kill pid (k + 1)))
  else
    some (.compute d .user)
| .forkScan k =>
  if k < NPROC then
    if (d.slot k).state = .unused then
      some (.acquire (.proc k) (.forkAlloc k))
    else
      some (.critical (.proc k) d (.forkScan (k + 1)))
  else
    some (.compute d .user)
| .forkAlloc k => some (.spawn k (d.alloc k) (.forkBuild k))
| .forkBuild k =>
  match ch with
  | .fail => some (.release (.proc k) (d.modify k Slot.free) .user)
  | _ => some (.release (.proc k) d (.forkParent k))
| .forkParent k =>
  self.map fun p =>
    .critical .wait (d.modify k fun x => { x with parent := some p })
      (.forkRun k)
| .forkRun k =>
  some (.critical (.proc k) (d.modify k fun x => { x with state := .runnable })
    .user)
| .exitReparent status k =>
  self.map fun p =>
    if k < NPROC then
      if (d.slot k).parent = some p then
        .compute
          (d.modify k fun x =>
            { x with parent := some d.initproc })
          (.wakeup (.proc d.initproc) 0 (.exitReparent status (k + 1)))
      else
        .compute d (.exitReparent status (k + 1))
    else
      .compute d (.wakeup (.ofProc (d.slot p).parent) 0 (.exitLock status))
| .exitLock status => self.map fun p => .acquire (.proc p) (.exitState status)
| .exitState status => self.map fun p => .compute (d.exit p status) .exitRelease
| .exitRelease => some (.release .wait d .exitSwitch)
| .exitSwitch => some (.switch .exited)
| .exited => none
| .waitScan addr k havekids =>
  self.map fun p =>
    if k < NPROC then
      if (d.slot k).parent = some p then
        .compute d (.waitChild addr k)
      else
        .compute d (.waitScan addr (k + 1) havekids)
    else if havekids then
      .compute (d.test p (.proc p)) (.waitKilled addr)
    else
      .release .wait d .user
| .waitChild addr k =>
  if (d.slot k).state = .zombie then
    match ch with
    | .fail =>
      if addr ≠ 0 then
        some (.critical (.proc k) d .waitRelease)
      else
        some (.critical (.proc k) (d.reap k) .waitRelease)
    | _ => some (.critical (.proc k) (d.reap k) .waitRelease)
  else
    some (.critical (.proc k) d (.waitScan addr (k + 1) true))
| .waitKilled addr =>
  self.map fun p =>
    .critical (.proc p) d
      (if (d.slot p).killed then
        .waitRelease
      else
        .sleepLock (.proc p) .wait (.waitScan addr 0 false))
| .waitRelease => some (.release .wait d .user)
| .loopTest L =>
  self.map fun p =>
    if d.cond L.monitor L.chan then
      match ch with
      | .again b => .compute (d.setCond L.monitor L.chan b) L.start
      | _ => .compute d (.inside L.monitor .user)
    else
      .compute (d.test p (.monitor L.monitor L.chan))
        (match L.check with
        | .after => .loopKilled L
        | _ => L.sleep)
| .loopKilled L =>
  self.map fun p =>
    .critical (.proc p) d
      (if (d.slot p).killed then
        .loopReturn L.monitor
      else
        match L.check with
        | .after => L.sleep
        | _ => .loopTest L)
| .loopReturn m => some (.release (.monitor m) d .user)
| .inside m ret =>
  match ch with
  | .setCond k b => some (.compute (d.setCond m k b) (.inside m ret))
  | .wake k => some (.compute (d.setCond m k true) (.wakeup (.monitor m k) 0 (.inside m ret)))
  | _ => some (.release (.monitor m) d ret)

---- The Machine

/-
  A CPU: `c->proc`, `c->noff`, the process whose kernel stack
  it executes on (none on its scheduler's), and the program
  point of its scheduler.
-/
structure Cpu where
  proc : Option Nat
  noff : Nat
  stack : Option Nat
  pc : Pc

/-
  A state of the machine: the shared data, the program point
  each process's kernel stack is at, the CPUs, and the CPU
  that holds each lock.
-/
structure State where
  data : Data
  pc : Nat → Pc
  cpu : Nat → Cpu
  lock : Lock → Option Nat

/- The program point a CPU is at. -/
def State.at (s : State) (c : Nat) : Pc :=
  match (s.cpu c).stack with
  | some p => s.pc p
  | none => (s.cpu c).pc

/- Continue at another program point. -/
def State.goto (s : State) (c : Nat) (next : Pc) : State :=
  match (s.cpu c).stack with
  | some p => { s with pc := update s.pc p next }
  | none =>
    { s with
      cpu := update s.cpu c { s.cpu c with pc := next } }

/- Replace the shared data. -/
def State.withData (s : State) (d : Data) : State := { s with data := d }

/- `acquire` and `release`, once they succeed. -/
def State.hold (s : State) (c : Nat) (l : Lock) : State :=
  { s with
    lock := update s.lock l (some c)
    cpu := update s.cpu c { s.cpu c with noff := (s.cpu c).noff + 1 } }

def State.drop (s : State) (c : Nat) (l : Lock) : State :=
  { s with
    lock := update s.lock l none
    cpu := update s.cpu c { s.cpu c with noff := (s.cpu c).noff - 1 } }

/- The step a CPU is about to make. Interrupts arrive only while the CPU holds no lock. -/
def fetch (s : State) (c : Nat) (ch : Choice) : Option Instr :=
  match ch with
  | .interrupt m =>
    if (s.cpu c).noff = 0 then some (.acquire (.monitor m) (.inside m (s.at c))) else none
  | .preempt =>
    if (s.cpu c).noff = 0 then
      (s.cpu c).stack.map fun p =>
        .acquire (.proc p) (.yieldState (s.at c))
    else
      none
  | ch => code s.data (s.cpu c).stack ch (s.at c)

/-
  Execute a step on a CPU. A lock that is taken makes
  `acquire` spin; a failed check of `release` or of `sched`
  is a panic. Neither is a step.
-/
def State.exec (s : State) (c : Nat) : Instr → Option State
| .acquire l next =>
  if s.lock l = none then some ((s.goto c next).hold c l) else none
| .release l d next =>
  if s.lock l = some c then some (((s.withData d).goto c next).drop c l) else none
| .compute d next => some ((s.withData d).goto c next)
| .spawn k d next =>
  let s := (s.withData d).goto c next
  some { s with pc := update s.pc k .forkret }
| .critical l d next =>
  if s.lock l = none then some ((s.withData d).goto c next) else none
| .dispatch k d =>
  if s.lock (.proc k) = none then
    some
      { s with
        data := d
        lock := update s.lock (.proc k) (some c)
        cpu :=
          update s.cpu c
            { proc := some k
              noff := (s.cpu c).noff + 1
              stack := some k
              pc := .back k } }
  else
    none
| .idle k =>
  if s.lock (.proc k) = some c then
    some
      { s with
        lock := update s.lock (.proc k) none
        cpu :=
          update s.cpu c
            { s.cpu c with
              proc := none
              noff := (s.cpu c).noff - 1
              pc := .pick (k + 1) } }
  else
    none
| .switch next =>
  match (s.cpu c).stack with
  | none => none
  | some p =>
    -- the panics of sched
    if s.lock (.proc p) = some c ∧ (s.cpu c).noff = 1 ∧ (s.data.slot p).state ≠ .running then
      some
        { s with
          pc := update s.pc p next
          cpu := update s.cpu c { s.cpu c with stack := none } }
    else
      none

/- One step of the machine: CPU `c` makes its next step. -/
def step (s : State) (c : Nat) (ch : Choice) : Option State := (fetch s c ch).bind (s.exec c)

/- A sequence of steps. -/
def run : List (Nat × Choice) → State → Option State
| [], s => some s
| (c, ch) :: steps, s => (step s c ch).bind (run steps)

---- Runs

/- A slot no process occupies. -/
def Slot.empty : Slot := ⟨.unused, .null, false, 0, 0, none, 0⟩

/-
  The state after `userinit`: the first process is runnable,
  every CPU is about to enter its scheduler loop.
-/
def boot : State where
  data :=
    { slot := fun p =>
        if p = 0 then { Slot.empty with state := .runnable, pid := 1 } else Slot.empty
      initproc := 0
      nextpid := 2
      cond := fun _ _ => false
      wakes := fun _ => 0
      tested := fun _ => 0
      lives := 1
      exits := []
      reaped := [] }
  pc := fun p => if p = 0 then .forkret else .exited
  cpu := fun _ => ⟨none, 0, none, .pick 0⟩
  lock := fun _ => none

/- The states that some interleaving reaches. -/
inductive Reachable : State → Prop where
  | boot : Reachable boot
  | step {s s' : State}
      (c : Nat) (ch : Choice) (hReach : Reachable s) (hStep : step s c ch = some s') : Reachable s'

end Xv6.Sched

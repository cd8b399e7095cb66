import Xv6.Sched.Locks

/-
  What a step of the machine changes: the shared data, the
  program point of the thread that makes it, the stack its
  CPU is on, and the states of the slots.

  The rules used by name are:
    * `fetch_cases`
    * `fetch_lawful`
    * `exec_data`, `exec_stack`, `exec_self`, `exec_other`
-/

namespace Xv6.Sched

---- The Parts of a Step

namespace Instr

/- The shared data after a step. -/
def data (d : Data) : Instr → Data
| .acquire _ _ => d
| .release _ d' _ => d'
| .compute d' _ => d'
| .spawn _ d' _ => d'
| .critical _ d' _ => d'
| .dispatch _ d' => d'
| .idle _ => d
| .switch _ => d

/- Where the thread that makes a step continues. -/
def next : Instr → Pc
| .acquire _ pc => pc
| .release _ _ pc => pc
| .compute _ pc => pc
| .spawn _ _ pc => pc
| .critical _ _ pc => pc
| .dispatch k _ => .back k
| .idle k => .pick (k + 1)
| .switch pc => pc

/- The lock a step finds free. -/
def needs : Instr → Option Lock
| .acquire l _ => some l
| .critical l _ _ => some l
| .dispatch k _ => some (.proc k)
| _ => none

/- The slot whose context a step sets up. -/
def spawned : Instr → Option Nat
| .spawn k _ _ => some k
| _ => none

/- The stack of the CPU after a step. -/
def stack (old : Option Nat) : Instr → Option Nat
| .dispatch k _ => some k
| .switch _ => none
| _ => old

end Instr

variable {s s' : State} {c : Nat} {i : Instr}

section

variable (hExec : s.exec c i = some s')
include hExec

theorem exec_data : s'.data = i.data s.data := by
  cases i <;> simp only [State.exec] at hExec <;>
    (repeat' split at hExec) <;> cases hExec <;>
    simp [Instr.data, State.withData, State.hold, State.drop]

theorem exec_stack (x : Nat) :
    (s'.cpu x).stack = if x = c then i.stack (s.cpu c).stack else (s.cpu x).stack := by
  cases i <;> simp only [State.exec] at hExec <;>
    (repeat' split at hExec) <;> cases hExec <;>
    by_cases hx : x = c <;> simp [Instr.stack, hx]

theorem exec_cpu_other {x : Nat} (hOther : x ≠ c) : s'.cpu x = s.cpu x := by
  cases i <;> simp only [State.exec] at hExec <;>
    (repeat' split at hExec) <;> cases hExec <;>
    simp [State.hold, State.drop, hOther, goto_cpu_other _ hOther, State.withData]

theorem exec_sched (hStack : (s.cpu c).stack = none) : (s'.cpu c).pc = i.next := by
  cases i <;> simp only [State.exec] at hExec <;>
    (repeat' split at hExec) <;> cases hExec <;>
    simp_all [Instr.next, State.hold, State.drop, State.goto, State.withData]

theorem exec_free {l : Lock} (hNeeds : i.needs = some l) : s.lock l = none := by
  cases i <;> simp only [State.exec] at hExec <;>
    (repeat' split at hExec) <;> cases hExec <;>
    simp_all [Instr.needs]

theorem exec_spawned {k : Nat} (hSpawn : i.spawned = some k) : s'.pc k = .forkret := by
  cases i <;> simp only [Instr.spawned] at hSpawn <;> cases hSpawn
  simp only [State.exec, Option.some.injEq] at hExec
  simp [← hExec]

theorem exec_self {p : Nat} (hLaw : Lawful (s.cpu c).stack (s.at c) i)
    (hStack : (s.cpu c).stack = some p) (hSpawn : i.spawned ≠ some p) : s'.pc p = i.next := by
  cases i <;> simp only [State.exec] at hExec <;>
    (repeat' split at hExec) <;> cases hExec <;>
    simp_all [Instr.next, Instr.spawned, Lawful, State.goto,
      State.withData, State.hold, State.drop, Ne.symm]

theorem exec_other {q : Nat} (hStack : (s.cpu c).stack ≠ some q) (hSpawn : i.spawned ≠ some q) :
    s'.pc q = s.pc q := by
  have hGoto : ∀ d next, ((s.withData d).goto c next).pc q = s.pc q := by
    intro d next
    exact goto_pc_other next hStack
  cases i <;> simp only [State.exec] at hExec <;> (repeat' split at hExec) <;> cases hExec
  case acquire next _ => exact goto_pc_other next hStack
  case release => exact hGoto _ _
  case compute => exact hGoto _ _
  case spawn k _ _ =>
    have hNe : q ≠ k := by
      rintro rfl
      exact hSpawn rfl
    simpa [hNe] using hGoto _ _
  case critical => exact hGoto _ _
  case dispatch => rfl
  case idle => rfl
  · rename_i p hp _
    have hNe : q ≠ p := by
      rintro rfl
      exact hStack hp
    simp [hNe]

end

---- The Next Step

/-
  The code a program point belongs to, below the functions
  it called and the interrupts that suspended it.
-/
def Pc.base : Pc → Pc
| .yieldState ret | .yieldSwitch ret | .yieldBack ret | .sleepLock _ _ ret
| .sleepRelease _ _ ret | .sleepState _ _ ret | .sleepSwitch _ _ ret | .sleepBack _ _ ret
| .sleepRelock _ ret | .wakeup _ _ ret | .inside _ ret => ret.base
| pc => pc

variable {ch : Choice}

/- A step is the code's, or an interrupt arrives. -/
theorem fetch_cases (hFetch : fetch s c ch = some i) :
    code s.data (s.cpu c).stack ch (s.at c) = some i ∨ ((s.cpu c).noff = 0 ∧ ((∃ m,
        i = .acquire (.monitor m) (.inside m (s.at c))) ∨
      ∃ p, (s.cpu c).stack = some p ∧ i = .acquire (.proc p) (.yieldState (s.at c)))) := by
  unfold fetch at hFetch
  split at hFetch
  · split at hFetch
    · rename_i m hOff
      cases hFetch
      exact .inr ⟨hOff, .inl ⟨m, rfl⟩⟩
    · cases hFetch
  · split at hFetch
    · rename_i hOff
      rcases Option.map_eq_some_iff.1 hFetch with ⟨p, hp, rfl⟩
      exact .inr ⟨hOff, .inr ⟨p, hp, rfl⟩⟩
    · cases hFetch
  · exact .inl hFetch

/- The same for a process, as seen from its program point. -/
theorem fetch_self (h : Locks s) {p : Nat} (hStack : (s.cpu c).stack = some p)
    (hFetch : fetch s c ch = some i) :
    code s.data (some p) ch (s.pc p) = some i ∨ ((s.pc p).held (some p) = [] ∧
      i.data s.data = s.data ∧
      ((∃ m, i.next = .inside m (s.pc p)) ∨ i.next = .yieldState (s.pc p))) := by
  have hAt : s.at c = s.pc p := by rw [State.at, hStack]
  rcases fetch_cases hFetch with hCode | ⟨hOff, hCase⟩
  · rw [hStack, hAt] at hCode
    exact .inl hCode
  · rw [h.noff c, hStack, hAt] at hOff
    have hNone := List.length_eq_zero_iff.1 hOff
    rw [hAt] at hCase
    rcases hCase with ⟨m, rfl⟩ | ⟨_, _, rfl⟩
    · exact .inr ⟨hNone, rfl, .inl ⟨m, rfl⟩⟩
    · exact .inr ⟨hNone, rfl, .inr rfl⟩

/- An interrupt leaves what the process is doing. -/
theorem interrupt_base {p : Nat}
    (hCase : (∃ m, i.next = .inside m (s.pc p)) ∨ i.next = .yieldState (s.pc p)) :
    i.next.base = (s.pc p).base := by
  rcases hCase with ⟨m, hNext⟩ | hNext
  · rw [hNext]
    rfl
  · rw [hNext]
    rfl

theorem fetch_lawful (h : Locks s) (hFetch : fetch s c ch = some i) :
    Lawful (s.cpu c).stack (s.at c) i := by
  rcases fetch_cases hFetch with hCode | ⟨hOff, hCase⟩
  · exact code_lawful (h.ok_at c) hCode
  rw [h.noff c] at hOff
  have hNone := List.length_eq_zero_iff.1 hOff
  have hOk := h.ok_at c
  have hAway : (s.at c).isBack = false := not_isBack (s.cpu c).stack (by simp [hNone])
  rcases hCase with ⟨m, rfl⟩ | ⟨p, hp, rfl⟩
  · exact ⟨by simp [Pc.held, hNone], ⟨hNone, hOk⟩, fun _ => ⟨by simp [hAway], by simp [Pc.isBack]⟩⟩
  · rw [hp] at hNone hOk
    simp [Lawful, Pc.held, Pc.Ok, hp, ownLock, hNone, hOk]

---- States of Slots

@[simp] theorem modify_slot (d : Data) (k j : Nat) (f : Slot → Slot) :
    (d.modify k f).slot j = if j = k then f (d.slot k) else d.slot j := by
  simp [Data.modify, Function.update_apply]

/-
  The state of a process that executes at a program point:
  RUNNING, but for the last steps before `swtch`.
-/
def Pc.expects : Pc → ProcState
| .yieldSwitch _ => .runnable
| .sleepSwitch _ _ _ => .sleeping
| .exitRelease => .zombie
| .exitSwitch => .zombie
| _ => .running

/- The states of a slot whose kernel stack is off the CPUs, at the program point it was left. -/
def Pc.parked : Pc → List ProcState
| .yieldBack _ => [.runnable]
| .sleepBack _ _ _ => [.sleeping, .runnable]
| .forkret => [.runnable, .used, .unused]
| .exited => [.zombie, .unused]
| _ => []

/- How a step can change slot `j`, and where it happens. -/
inductive Edit (d : Data) (self : Option Nat) (pc : Pc) (i : Instr) (j : Nat) : Slot → Prop where
  | setkilled (hSelf : self = some j)
      (hPc : pc = .user) (hNext : i.next = .user) :
      Edit d self pc i j { d.slot j with killed := true }
  | dispatch {d' : Data}
      (hInstr : i = .dispatch j d') (hOld : (d.slot j).state = .runnable) :
      Edit d self pc i j { d.slot j with state := .running }
  | yield {ret : Pc}
      (hSelf : self = some j) (hPc : pc = .yieldState ret) (hNext : i.next = .yieldSwitch ret) :
      Edit d self pc i j { d.slot j with state := .runnable }
  | sleep {c : Chan}
      {lk : Lock} {ret : Pc} (hSelf : self = some j) (hPc : pc = .sleepState c lk ret)
      (hNext : i.next = .sleepSwitch c lk ret) :
      Edit d self pc i j { d.slot j with chan := c, state := .sleeping }
  | awake {c : Chan}
      {lk : Lock} {ret : Pc} (hSelf : self = some j) (hPc : pc = .sleepBack c lk ret)
      (hNext : i.next = .sleepRelock lk ret) :
      Edit d self pc i j { d.slot j with chan := .null }
  | rouse {c : Chan}
      {ret : Pc} (hSelf : self ≠ some j) (hPc : pc = .wakeup c j ret)
      (hNeeds : i.needs = some (.proc j)) (hNext : i.next = .wakeup c (j + 1) ret) :
      Edit d self pc i j ((d.slot j).rouse c)
  | kill {pid : Int}
      (hPc : pc = .kill pid j) (hPid : (d.slot j).pid = pid) (hNeeds : i.needs = some (.proc j))
      (hNext : i.next = .user) :
      Edit d self pc i j (d.slot j).kill
  | alloc (hPc : pc = .forkAlloc j)
      (hSpawn : i.spawned = some j) (hNext : i.next = .forkBuild j) :
      Edit d self pc i j { d.slot j with pid := d.nextpid, state := .used, life := d.lives }
  | free (hPc : pc = .forkBuild j) (hNext : i.next = .user) : Edit d self pc i j (d.slot j).free
  | adopt {p : Nat}
      (hSelf : self = some p) (hPc : pc = .forkParent j) (hNeeds : i.needs = some .wait)
      (hNext : i.next = .forkRun j) :
      Edit d self pc i j { d.slot j with parent := some p }
  | run (hPc : pc = .forkRun j)
      (hNeeds : i.needs = some (.proc j)) (hNext : i.next = .user) :
      Edit d self pc i j { d.slot j with state := .runnable }
  | reparent {p : Nat}
      {status : Int} (hSelf : self = some p) (hPc : pc = .exitReparent status j)
      (hOld : (d.slot j).parent = some p)
      (hNext : i.next = .wakeup (.proc d.initproc) 0 (.exitReparent status (j + 1))) :
      Edit d self pc i j { d.slot j with parent := some d.initproc }
  | exit {status : Int}
      (hSelf : self = some j) (hPc : pc = .exitState status) (hNext : i.next = .exitRelease) :
      Edit d self pc i j { d.slot j with xstate := status, state := .zombie }
  | reap {addr : Nat}
      (hPc : pc = .waitChild addr j) (hOld : (d.slot j).state = .zombie)
      (hNeeds : i.needs = some (.proc j)) (hNext : i.next = .waitRelease) :
      Edit d self pc i j (d.slot j).free

/- A step that writes to one slot. -/
theorem edit_update {d : Data} {self : Option Nat} {pc : Pc} {i : Instr} {k : Nat} {x : Slot}
    (hData : (i.data d).slot = Function.update d.slot k x) (hEdit : Edit d self pc i k x) (j : Nat) :
    (i.data d).slot j = d.slot j ∨ Edit d self pc i j ((i.data d).slot j) := by
  rw [hData, Function.update_apply]
  split
  · subst j
    exact .inr hEdit
  · exact .inl rfl

theorem code_edit {d : Data} {self : Option Nat} {ch : Choice} {pc : Pc} {i : Instr}
    (hCode : code d self ch pc = some i) (j : Nat) :
    (i.data d).slot j = d.slot j ∨ Edit d self pc i j ((i.data d).slot j) := by
  -- the program points that write to a slot
  cases pc with
  | user =>
    simp only [code] at hCode
    split at hCode
    case h_2 =>
      split at hCode
      · cases hCode
      · cases hCode
        exact .inl rfl
    case h_5 p =>
      cases hCode
      exact edit_update rfl (.setkilled rfl rfl rfl) j
    all_goals cases hCode <;> exact .inl rfl
  | pick k =>
    simp only [code] at hCode
    split at hCode
    · split at hCode
      · rename_i hRun
        cases hCode
        exact edit_update rfl (.dispatch rfl hRun) j
      · cases hCode
        exact .inl rfl
    · cases hCode
      exact .inl rfl
  | yieldState ret =>
    rcases Option.map_eq_some_iff.1 hCode with ⟨p, rfl, rfl⟩
    exact edit_update rfl (.yield rfl rfl rfl) j
  | sleepState c lk ret =>
    rcases Option.map_eq_some_iff.1 hCode with ⟨p, rfl, rfl⟩
    exact edit_update rfl (.sleep rfl rfl rfl) j
  | sleepBack c lk ret =>
    rcases Option.map_eq_some_iff.1 hCode with ⟨p, rfl, rfl⟩
    exact edit_update rfl (.awake rfl rfl rfl) j
  | wakeup c k ret =>
    simp only [code] at hCode
    split at hCode
    · split at hCode
      · cases hCode
        exact .inl rfl
      · rename_i hSelf
        cases hCode
        exact edit_update rfl (.rouse hSelf rfl rfl rfl) j
    · cases hCode
      exact .inl rfl
  | kill pid k =>
    simp only [code] at hCode
    split at hCode
    · split at hCode
      · rename_i hPid
        cases hCode
        exact edit_update rfl (.kill rfl hPid rfl rfl) j
      · cases hCode
        exact .inl rfl
    · cases hCode
      exact .inl rfl
  | forkAlloc k =>
    cases hCode
    exact edit_update rfl (.alloc rfl rfl rfl) j
  | forkBuild k =>
    simp only [code] at hCode
    split at hCode
    · cases hCode
      exact edit_update rfl (.free rfl rfl) j
    · cases hCode
      exact .inl rfl
  | forkParent k =>
    rcases Option.map_eq_some_iff.1 hCode with ⟨p, rfl, rfl⟩
    exact edit_update rfl (.adopt rfl rfl rfl rfl) j
  | forkRun k =>
    cases hCode
    exact edit_update rfl (.run rfl rfl rfl) j
  | exitReparent status k =>
    rcases Option.map_eq_some_iff.1 hCode with ⟨p, rfl, rfl⟩
    split
    · split
      · rename_i hParent
        exact edit_update rfl (.reparent rfl rfl hParent rfl) j
      · exact .inl rfl
    · exact .inl rfl
  | exitState status =>
    rcases Option.map_eq_some_iff.1 hCode with ⟨p, rfl, rfl⟩
    exact edit_update rfl (.exit rfl rfl rfl) j
  | exited => cases hCode
  | waitScan addr k havekids =>
    rcases Option.map_eq_some_iff.1 hCode with ⟨p, rfl, rfl⟩
    (repeat' split) <;> exact .inl rfl
  | waitChild addr k =>
    simp only [code] at hCode
    split at hCode
    · rename_i hZombie
      (repeat' split at hCode) <;> cases hCode
      · exact .inl rfl
      all_goals
        exact edit_update rfl (.reap rfl hZombie rfl rfl) j
    · cases hCode
      exact .inl rfl
  | loopTest L =>
    rcases Option.map_eq_some_iff.1 hCode with ⟨p, rfl, rfl⟩
    (repeat' split) <;> exact .inl rfl
  | _ =>
    simp only [code, Option.map_eq_some_iff] at hCode
    (repeat' split at hCode) <;> first
      | (cases hCode; exact .inl rfl)
      | (rcases hCode with ⟨p, rfl, rfl⟩; exact .inl rfl)

theorem fetch_edit {s : State} {c : Nat} {ch : Choice} {i : Instr} (hFetch : fetch s c ch = some i)
    (j : Nat) :
    (i.data s.data).slot j = s.data.slot j ∨
      Edit s.data (s.cpu c).stack (s.at c) i j ((i.data s.data).slot j) := by
  rcases fetch_cases hFetch with hCode | ⟨_, hCase⟩
  · exact code_edit hCode j
  · rcases hCase with ⟨m, rfl⟩ | ⟨p, _, rfl⟩
    · exact .inl rfl
    · exact .inl rfl

/- How a step can change the state of slot `j`. -/
inductive Shift (self : Option Nat) (pc : Pc) (i : Instr)
    (j : Nat) : ProcState → ProcState → Prop where
  | own {old new : ProcState}
      (hSelf : self = some j) (hPc : pc.expects = .running) (hNext : new = i.next.expects)
      (hNew : new ∈ [.runnable, .sleeping, .zombie]) :
      Shift self pc i j old new
  | rouse (hNeeds : i.needs = some (.proc j)) : Shift self pc i j .sleeping .runnable
  | alloc {old : ProcState}
      (hPc : pc = .forkAlloc j) (hSpawn : i.spawned = some j) :
      Shift self pc i j old .used
  | free {old : ProcState}
      (hPc : pc = .forkBuild j) (hNext : i.next = .user) :
      Shift self pc i j old .unused
  | run {old : ProcState}
      (hPc : pc = .forkRun j) (hNext : i.next = .user) :
      Shift self pc i j old .runnable
  | reap (hNeeds : i.needs = some (.proc j)) : Shift self pc i j .zombie .unused
  | dispatch {d : Data} (hInstr : i = .dispatch j d) : Shift self pc i j .runnable .running

theorem rouse_state (x : Slot) (ch : Chan) :
    (x.rouse ch).state = x.state ∨ (x.state = .sleeping ∧ (x.rouse ch).state = .runnable) := by
  unfold Slot.rouse
  split
  · rename_i hAsleep
    exact .inr ⟨hAsleep.1, rfl⟩
  · exact .inl rfl

theorem kill_state (x : Slot) :
    x.kill.state = x.state ∨ (x.state = .sleeping ∧ x.kill.state = .runnable) := by
  by_cases hAsleep : x.state = .sleeping
  · exact .inr ⟨hAsleep, by simp [Slot.kill, hAsleep]⟩
  · exact .inl (by simp [Slot.kill, hAsleep])

theorem Edit.shift {d : Data} {self : Option Nat} {pc : Pc} {i : Instr} {j : Nat} {x : Slot}
    (hEdit : Edit d self pc i j x) :
    x.state = (d.slot j).state ∨ Shift self pc i j (d.slot j).state x.state := by
  cases hEdit with
  | setkilled _ _ _ => exact .inl rfl
  | dispatch hInstr hOld =>
    rw [hOld]
    exact .inr (.dispatch hInstr)
  | yield hSelf hPc hNext | sleep hSelf hPc hNext =>
    exact .inr (.own hSelf (by rw [hPc]; rfl) (by rw [hNext]; rfl) (by simp))
  | awake _ _ _ => exact .inl rfl
  | @rouse c _ _ _ hNeeds _ =>
    rcases rouse_state (d.slot j) c with hSame | ⟨hOld, hNew⟩
    · exact .inl hSame
    · rw [hNew, hOld]
      exact .inr (.rouse hNeeds)
  | kill _ _ hNeeds _ =>
    rcases kill_state (d.slot j) with hSame | ⟨hOld, hNew⟩
    · exact .inl hSame
    · rw [hNew, hOld]
      exact .inr (.rouse hNeeds)
  | alloc hPc hSpawn _ => exact .inr (.alloc hPc hSpawn)
  | free hPc hNext => exact .inr (.free hPc hNext)
  | adopt _ _ _ _ => exact .inl rfl
  | run hPc _ hNext => exact .inr (.run hPc hNext)
  | reparent _ _ _ _ => exact .inl rfl
  | exit hSelf hPc hNext =>
    exact .inr (.own hSelf (by rw [hPc]; rfl) (by rw [hNext]; rfl) (by simp))
  | reap _ hOld hNeeds _ =>
    rw [hOld]
    exact .inr (.reap hNeeds)

theorem fetch_shift {s : State} {c : Nat} {ch : Choice} {i : Instr} (hFetch : fetch s c ch = some i)
    (j : Nat) :
    ((i.data s.data).slot j).state = (s.data.slot j).state ∨
      Shift (s.cpu c).stack (s.at c) i j (s.data.slot j).state ((i.data s.data).slot j).state := by
  rcases fetch_edit hFetch j with hSame | hEdit
  · exact .inl (by rw [hSame])
  · exact hEdit.shift

end Xv6.Sched

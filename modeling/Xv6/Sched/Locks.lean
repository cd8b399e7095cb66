import Xv6.Sched.Machine

/-
  The locking discipline of `proc.c`: which locks a thread
  holds at each program point, and that each step of the code
  takes and gives back exactly what the next program point
  says.

  Main declarations:
    * `code_lawful`
    * `Locks`
    * `Locks.exec`
-/

namespace Xv6.Sched

---- Held Locks

/- The lock of the process a thread belongs to. -/
def ownLock : Option Nat → List Lock
| some p => [.proc p]
| none => []

/- The locks a thread holds at a program point. -/
def Pc.held (self : Option Nat) : Pc → List Lock
| .user => []
| .pick _ => []
| .back k => [.proc k]
| .forkret => ownLock self
| .yieldState _ => ownLock self
| .yieldSwitch _ => ownLock self
| .yieldBack _ => ownLock self
| .sleepLock _ lk _ => [lk]
| .sleepRelease _ lk _ => ownLock self ++ [lk]
| .sleepState _ _ _ => ownLock self
| .sleepSwitch _ _ _ => ownLock self
| .sleepBack _ _ _ => ownLock self
| .sleepRelock _ _ => []
| .wakeup _ _ ret => ret.held self
| .kill _ _ => []
| .forkScan _ => []
| .forkAlloc k => [.proc k]
| .forkBuild k => [.proc k]
| .forkParent _ => []
| .forkRun _ => []
| .exitReparent _ _ => [.wait]
| .exitLock _ => [.wait]
| .exitState _ => ownLock self ++ [.wait]
| .exitRelease => ownLock self ++ [.wait]
| .exitSwitch => ownLock self
| .exited => ownLock self
| .waitScan _ _ _ => [.wait]
| .waitChild _ _ => [.wait]
| .waitKilled _ => [.wait]
| .waitRelease => [.wait]
| .loopTest L => [.monitor L.monitor]
| .loopKilled L => [.monitor L.monitor]
| .loopReturn m => [.monitor m]
| .inside m _ => [.monitor m]

/- The locks `sleep` and `wakeup` on a channel need. -/
def Chan.guard : Chan → List Lock
| .null => []
| .proc _ => [.wait]
| .monitor m _ => [.monitor m]

@[simp] theorem Chan.guard_proc (p : Nat) : (Chan.proc p).guard = [.wait] := rfl

@[simp] theorem Chan.guard_monitor (m k : Nat) : (Chan.monitor m k).guard = [.monitor m] := rfl

theorem Chan.guard_ofProc (p : Option Nat) : (Chan.ofProc p).guard ⊆ [.wait] := by
  cases p <;> simp [Chan.ofProc, Chan.guard]

/- The program points `sleep` returns to. -/
inductive Pc.AfterSleep : Pc → Prop where
  | waitScan (addr : Nat) : AfterSleep (.waitScan addr 0 false)
  | start (L : Loop) : AfterSleep L.start

/- The program points `wakeup` returns to. -/
inductive Pc.AfterWakeup : Pc → Prop where
  | sleepLock (ch : Chan) (lk : Lock) (ret : Pc) : AfterWakeup (.sleepLock ch lk ret)
  | exitReparent (status : Int) (k : Nat) : AfterWakeup (.exitReparent status k)
  | exitLock (status : Int) : AfterWakeup (.exitLock status)
  | inside (m : Nat) (ret : Pc) : AfterWakeup (.inside m ret)

attribute [simp] Pc.AfterSleep.waitScan Pc.AfterSleep.start Pc.AfterWakeup.sleepLock
  Pc.AfterWakeup.exitReparent Pc.AfterWakeup.exitLock
  Pc.AfterWakeup.inside

/-
  The program points a thread can be at: the scheduler runs
  only its own code and interrupt handlers, interrupts hit
  where no lock is held, `sleep` is called with exactly the
  lock it is given, and `wakeup` without any `p->lock`.
-/
def Pc.Ok (self : Option Nat) : Pc → Prop
| .pick _ => self = none
| .back _ => self = none
| .yieldState ret | .yieldSwitch ret | .yieldBack ret => self ≠ none ∧ ret.held self = [] ∧ ret.Ok self
| .sleepLock ch lk ret | .sleepRelease ch lk ret | .sleepState ch lk ret
| .sleepSwitch ch lk ret | .sleepBack ch lk ret =>
  self ≠ none ∧ ret.held self = [lk] ∧ (∀ j, Lock.proc j ≠ lk) ∧ ch.guard = [lk] ∧
    ret.AfterSleep ∧ ret.Ok self
| .sleepRelock lk ret =>
  self ≠ none ∧ ret.held self = [lk] ∧ (∀ j, Lock.proc j ≠ lk) ∧ ret.AfterSleep ∧ ret.Ok self
| .wakeup ch _ ret =>
  (∀ j, Lock.proc j ∉ ret.held self) ∧ ch.guard ⊆ ret.held self ∧ ret.AfterWakeup ∧ ret.Ok self
| .inside _ ret => ret.held self = [] ∧ ret.Ok self
| _ => self ≠ none

/- The scheduler's point after `swtch`. -/
def Pc.isBack : Pc → Bool
| .back _ => true
| _ => false

/- What the discipline asks of a step that leaves from a program point. -/
def Lawful (self : Option Nat) (pc : Pc) : Instr → Prop
| .acquire l next =>
  next.held self = l :: pc.held self ∧ next.Ok self ∧ (self = none → ¬ pc.isBack ∧ ¬ next.isBack)
| .release l _ next =>
  (pc.held self).Perm (l :: next.held self) ∧ next.Ok self ∧
    (self = none → ¬ pc.isBack ∧ ¬ next.isBack)
| .compute _ next =>
  next.held self = pc.held self ∧ next.Ok self ∧ (self = none → ¬ pc.isBack ∧ ¬ next.isBack)
| .spawn k _ next =>
  Lock.proc k ∈ pc.held self ∧ next.held self = pc.held self ∧ next.Ok self ∧
    (self = none → ¬ pc.isBack ∧ ¬ next.isBack)
| .critical _ _ next =>
  next.held self = pc.held self ∧ next.Ok self ∧ (self = none → ¬ pc.isBack ∧ ¬ next.isBack)
| .dispatch _ _ => self = none ∧ pc.held self = []
| .idle k => self = none ∧ pc = .back k
| .switch next => pc.held self = ownLock self ∧ next.held self = ownLock self ∧ next.Ok self

---- The Code Keeps the Discipline

section Discipline

variable {p : Nat}

@[simp] theorem held_start (L : Loop) : L.start.held (some p) = [.monitor L.monitor] := by
  unfold Loop.start
  split <;> rfl

@[simp] theorem ok_start (L : Loop) : L.start.Ok (some p) := by
  unfold Loop.start
  split <;> simp [Pc.Ok]

@[simp] theorem held_sleep (L : Loop) : L.sleep.held (some p) = [.monitor L.monitor] := by
  unfold Loop.sleep
  split <;> rfl

@[simp] theorem ok_sleep (L : Loop) : L.sleep.Ok (some p) := by
  unfold Loop.sleep
  split <;> simp [Pc.Ok, Pc.held]

end Discipline

theorem not_isBack (self : Option Nat) {pc : Pc} (hHeld : ∀ j, Lock.proc j ∉ pc.held self) :
    pc.isBack = false := by
  cases pc with
  | back k => exact absurd (List.mem_singleton_self _) (hHeld k)
  | _ => rfl

theorem code_lawful {d : Data} {self : Option Nat} {ch : Choice} {pc : Pc} {i : Instr}
    (hOk : pc.Ok self) (hCode : code d self ch pc = some i) : Lawful self pc i := by
  -- one case per program point and branch of the code
  cases self with
  | none =>
    cases pc <;> simp only [Pc.Ok, code] at hOk hCode <;>
      (repeat' split at hCode) <;>
      (try cases hCode) <;>
      simp_all [Lawful, Pc.held, Pc.Ok, Pc.isBack]
    all_goals exact not_isBack none (by simp_all)
  | some p =>
    cases pc <;>
      simp only [Pc.Ok, code, Option.map_some] at hOk hCode <;>
      (repeat' split at hCode) <;>
      (try cases hCode) <;>
      simp_all [Lawful, Pc.held, Pc.Ok, ownLock, List.Perm.swap, Chan.guard_ofProc]

---- Moving a Thread

section Moves

variable {s : State} {c x : Nat} {next : Pc} {l : Lock}

@[simp] theorem goto_stack : ((s.goto c next).cpu x).stack = (s.cpu x).stack := by
  unfold State.goto
  split
  · rfl
  · by_cases hx : x = c <;> simp_all

@[simp] theorem goto_proc : ((s.goto c next).cpu x).proc = (s.cpu x).proc := by
  unfold State.goto
  split
  · rfl
  · by_cases hx : x = c <;> simp_all

@[simp] theorem goto_noff : ((s.goto c next).cpu x).noff = (s.cpu x).noff := by
  unfold State.goto
  split
  · rfl
  · by_cases hx : x = c <;> simp_all

@[simp] theorem goto_lock : (s.goto c next).lock = s.lock := by
  unfold State.goto
  split <;> rfl

@[simp] theorem goto_data : (s.goto c next).data = s.data := by
  unfold State.goto
  split <;> rfl

@[simp] theorem hold_stack : ((s.hold c l).cpu x).stack = (s.cpu x).stack := by
  by_cases hx : x = c <;> simp_all [State.hold]

@[simp] theorem hold_proc : ((s.hold c l).cpu x).proc = (s.cpu x).proc := by
  by_cases hx : x = c <;> simp_all [State.hold]

@[simp] theorem hold_sched : ((s.hold c l).cpu x).pc = (s.cpu x).pc := by
  by_cases hx : x = c <;> simp_all [State.hold]

@[simp] theorem drop_stack : ((s.drop c l).cpu x).stack = (s.cpu x).stack := by
  by_cases hx : x = c <;> simp_all [State.drop]

@[simp] theorem drop_proc : ((s.drop c l).cpu x).proc = (s.cpu x).proc := by
  by_cases hx : x = c <;> simp_all [State.drop]

@[simp] theorem drop_sched : ((s.drop c l).cpu x).pc = (s.cpu x).pc := by
  by_cases hx : x = c <;> simp_all [State.drop]

@[simp] theorem withData_stack (d : Data) : ((s.withData d).cpu x).stack = (s.cpu x).stack := rfl

end Moves

theorem goto_pc_self {s : State} {c p : Nat} (next : Pc) (hStack : (s.cpu c).stack = some p) :
    (s.goto c next).pc p = next := by
  simp [State.goto, hStack]

theorem goto_pc_other {s : State} {c p : Nat} (next : Pc) (hStack : (s.cpu c).stack ≠ some p) :
    (s.goto c next).pc p = s.pc p := by
  unfold State.goto
  split
  · rename_i q hq
    have hNe : p ≠ q := by
      rintro rfl
      exact hStack hq
    simp [hNe]
  · rfl

theorem goto_sched_self {s : State} {c : Nat} (next : Pc) (hStack : (s.cpu c).stack = none) :
    ((s.goto c next).cpu c).pc = next := by
  simp [State.goto, hStack]

theorem goto_sched_other {s : State} {c x : Nat} (next : Pc)
    (hOther : x ≠ c ∨ (s.cpu x).stack ≠ none) : ((s.goto c next).cpu x).pc = (s.cpu x).pc := by
  unfold State.goto
  split
  · rfl
  · rename_i hNone
    have hNe : x ≠ c := by
      rintro rfl
      exact hOther.elim (fun h => h rfl) (fun h => h hNone)
    simp [hNe]

theorem goto_cpu_other {s : State} {c x : Nat} (next : Pc) (hOther : x ≠ c) :
    (s.goto c next).cpu x = s.cpu x := by
  unfold State.goto
  split
  · rfl
  · simp [hOther]

---- The Invariant

/-
  The locks are held as the program points say, each CPU
  counts its own, no two CPUs execute on one kernel stack, a
  process off the CPUs is about to come back from `swtch`
  with its lock held, and `c->proc` is the process whose
  stack the CPU is on or has just left.
-/
structure Locks (s : State) : Prop where
  ok : ∀ p, (s.pc p).Ok (some p)
  back : ∀ c p, (s.cpu c).stack = some p → (s.cpu c).pc = .back p
  idle : ∀ c, (s.cpu c).stack = none → (s.cpu c).pc.Ok none
  unique : ∀ c x p, (s.cpu c).stack = some p → (s.cpu x).stack = some p → c = x
  holder : ∀ l c, s.lock l = some c ↔ l ∈ (s.at c).held (s.cpu c).stack
  nodup : ∀ c, ((s.at c).held (s.cpu c).stack).Nodup
  noff : ∀ c, (s.cpu c).noff = ((s.at c).held (s.cpu c).stack).length
  parked : ∀ p, (∀ c, (s.cpu c).stack ≠ some p) → (s.pc p).held (some p) = [.proc p]
  proc : ∀ c p, (s.cpu c).proc = some p ↔ (s.cpu c).pc = .back p

namespace Locks

variable {s s' : State} {c : Nat}

section

variable (h : Locks s)
include h

theorem ok_at (c : Nat) : (s.at c).Ok (s.cpu c).stack := by
  unfold State.at
  split
  · rename_i p hp
    rw [hp]
    exact h.ok p
  · rename_i hNone
    rw [hNone]
    exact h.idle c hNone

/- A lock that is free is held at no program point. -/
theorem free {l : Lock} (hFree : s.lock l = none) (c : Nat) :
    l ∉ (s.at c).held (s.cpu c).stack := by
  intro hMem
  rw [(h.holder l c).2 hMem] at hFree
  cases hFree

theorem at_goto (next : Pc) (x : Nat) : (s.goto c next).at x = if x = c then next else s.at x := by
  unfold State.at
  rw [goto_stack]
  cases hx : (s.cpu x).stack with
  | none =>
    by_cases hEq : x = c
    · subst hEq
      simpa using goto_sched_self next hx
    · simpa [hEq] using goto_sched_other next (.inl hEq)
  | some p =>
    by_cases hEq : x = c
    · subst hEq
      simpa using goto_pc_self next hx
    · have hNe : (s.cpu c).stack ≠ some p := fun hc =>
        hEq (h.unique x c p hx hc)
      simpa [hEq] using goto_pc_other next hNe

/- A step of one CPU: what it has to show of its own record and of the processes off the CPUs. -/
theorem frame (hCpu : ∀ x, x ≠ c → s'.cpu x = s.cpu x) (hAt : ∀ x, x ≠ c → s'.at x = s.at x)
    (hOk : ∀ p, (s'.pc p).Ok (some p))
    (hBack : ∀ p, (s'.cpu c).stack = some p → (s'.cpu c).pc = .back p)
    (hIdle : (s'.cpu c).stack = none → (s'.cpu c).pc.Ok none)
    (hUnique : ∀ p x, (s'.cpu c).stack = some p → x ≠ c → (s.cpu x).stack ≠ some p)
    (hHolder : ∀ l x, s'.lock l = some x ↔
      if x = c then l ∈ (s'.at c).held (s'.cpu c).stack
      else s.lock l = some x) (hNodup : ((s'.at c).held (s'.cpu c).stack).Nodup)
    (hNoff : (s'.cpu c).noff = ((s'.at c).held (s'.cpu c).stack).length)
    (hParked : ∀ p, (∀ x, (s'.cpu x).stack ≠ some p) → (s'.pc p).held (some p) = [.proc p])
    (hProc : ∀ p, (s'.cpu c).proc = some p ↔ (s'.cpu c).pc = .back p) : Locks s' := by
  constructor
  case ok => exact hOk
  case back =>
    intro x p hx
    by_cases hc : x = c
    · subst hc
      exact hBack p hx
    · rw [hCpu x hc] at hx ⊢
      exact h.back x p hx
  case idle =>
    intro x hx
    by_cases hc : x = c
    · subst hc
      exact hIdle hx
    · rw [hCpu x hc] at hx ⊢
      exact h.idle x hx
  case unique =>
    intro x y p hx hy
    by_cases hxc : x = c <;> by_cases hyc : y = c
    · rw [hxc, hyc]
    · subst hxc
      rw [hCpu y hyc] at hy
      exact absurd hy (hUnique p y hx hyc)
    · subst hyc
      rw [hCpu x hxc] at hx
      exact absurd hx (hUnique p x hy hxc)
    · rw [hCpu x hxc] at hx
      rw [hCpu y hyc] at hy
      exact h.unique x y p hx hy
  case holder =>
    intro l x
    rw [hHolder]
    by_cases hc : x = c
    · subst hc
      simp
    · rw [if_neg hc, hAt x hc, hCpu x hc]
      exact h.holder l x
  case nodup =>
    intro x
    by_cases hc : x = c
    · subst hc
      exact hNodup
    · rw [hAt x hc, hCpu x hc]
      exact h.nodup x
  case noff =>
    intro x
    by_cases hc : x = c
    · subst hc
      exact hNoff
    · rw [hAt x hc, hCpu x hc]
      exact h.noff x
  case parked => exact hParked
  case proc =>
    intro x p
    by_cases hc : x = c
    · subst hc
      exact hProc p
    · rw [hCpu x hc]
      exact h.proc x p

/- A thread moves to a program point that says which locks its CPU now holds. -/
theorem advance (next : Pc) (hOk : next.Ok (s.cpu c).stack)
    (hBack : (s.cpu c).stack = none → ¬ (s.at c).isBack ∧ ¬ next.isBack)
    (hNodup : (next.held (s.cpu c).stack).Nodup) (hPc : ∀ p, s'.pc p = (s.goto c next).pc p)
    (hCpu : ∀ x, x ≠ c → s'.cpu x = s.cpu x) (hStack : (s'.cpu c).stack = (s.cpu c).stack)
    (hProc : (s'.cpu c).proc = (s.cpu c).proc) (hSched : (s'.cpu c).pc = ((s.goto c next).cpu c).pc)
    (hHolder : ∀ l x, s'.lock l = some x ↔
      if x = c then l ∈ next.held (s.cpu c).stack
      else s.lock l = some x) (hNoff : (s'.cpu c).noff = (next.held (s.cpu c).stack).length) :
    Locks s' := by
  have hHere : s'.at c = next := by
    have hGoto := h.at_goto (c := c) next c
    simpa [State.at, hStack, hPc, hSched] using hGoto
  refine h.frame hCpu ?_ ?_ ?_ ?_ ?_ ?_ ?_ ?_ ?_ ?_
  · intro x hx
    have hGoto := h.at_goto (c := c) next x
    rw [if_neg hx] at hGoto
    rw [← hGoto]
    simp [State.at, hPc, hCpu x hx, goto_sched_other next (.inl hx)]
  · intro p
    rw [hPc]
    by_cases hp : (s.cpu c).stack = some p
    · rw [goto_pc_self next hp, ← hp]
      exact hOk
    · rw [goto_pc_other next hp]
      exact h.ok p
  · intro p hp
    rw [hStack] at hp
    rw [hSched, goto_sched_other next (.inr (by simp [hp]))]
    exact h.back c p hp
  · intro hNone
    rw [hStack] at hNone
    rw [hSched, goto_sched_self next hNone, ← hNone]
    exact hOk
  · intro p x hp hx hMine
    rw [hStack] at hp
    exact hx (h.unique x c p hMine hp)
  · rw [hHere, hStack]
    exact hHolder
  · rw [hHere, hStack]
    exact hNodup
  · rw [hHere, hStack]
    exact hNoff
  · intro p hp
    have hOff : ∀ x, (s.cpu x).stack ≠ some p := by
      intro x hx
      refine hp x ?_
      by_cases hc : x = c
      · subst hc
        rw [hStack, hx]
      · rw [hCpu x hc, hx]
    rw [hPc, goto_pc_other next (hOff c)]
    exact h.parked p hOff
  · intro p
    rw [hProc, h.proc c p, hSched]
    cases hc : (s.cpu c).stack with
    | some q => rw [goto_sched_other next (.inr (by simp [hc]))]
    | none =>
      have hAway := hBack hc
      rw [State.at, hc] at hAway
      rw [goto_sched_self next hc]
      refine iff_of_false ?_ ?_
      · intro hEq
        simp [hEq, Pc.isBack] at hAway
      · intro hEq
        simp [hEq, Pc.isBack] at hAway

theorem spawn {k : Nat} (hOff : ∀ x, (s.cpu x).stack ≠ some k) :
    Locks { s with pc := Function.update s.pc k .forkret } := by
  have hAt : ∀ x, State.at { s with pc := Function.update s.pc k .forkret }
        x =
      s.at x := by
    intro x
    unfold State.at
    cases hx : (s.cpu x).stack with
    | none => rfl
    | some p =>
      have hNe : p ≠ k := by
        rintro rfl
        exact hOff x hx
      simp [hNe]
  constructor
  case ok =>
    intro p
    by_cases hp : p = k
    · subst hp
      simp [Pc.Ok]
    · simpa [hp] using h.ok p
  case back => exact h.back
  case idle => exact h.idle
  case unique => exact h.unique
  case holder =>
    intro l c
    rw [hAt]
    exact h.holder l c
  case nodup =>
    intro c
    rw [hAt]
    exact h.nodup c
  case noff =>
    intro c
    rw [hAt]
    exact h.noff c
  case parked =>
    intro p hp
    by_cases hEq : p = k
    · subst hEq
      simp [Pc.held, ownLock]
    · simpa [hEq] using h.parked p hp
  case proc => exact h.proc

/- Shared data does not matter to the locks. -/
theorem withData (d : Data) : Locks (s.withData d) :=
  ⟨h.ok, h.back, h.idle, h.unique, h.holder, h.nodup, h.noff, h.parked, h.proc⟩

theorem goto {next : Pc} (hHeld : next.held (s.cpu c).stack = (s.at c).held (s.cpu c).stack)
    (hOk : next.Ok (s.cpu c).stack)
    (hBack : (s.cpu c).stack = none → ¬ (s.at c).isBack ∧ ¬ next.isBack) :
    Locks (s.goto c next) := by
  refine h.advance next hOk hBack ?_ (fun _ => rfl)
    (fun _ => goto_cpu_other next) goto_stack goto_proc rfl ?_ ?_
  · rw [hHeld]
    exact h.nodup c
  · intro l x
    rw [goto_lock, hHeld]
    split
    · subst x
      exact h.holder l c
    · exact Iff.rfl
  · rw [goto_noff, hHeld]
    exact h.noff c

/- A thread takes a free lock. -/
theorem acquire {l : Lock} {next : Pc} (hLaw : Lawful (s.cpu c).stack (s.at c) (.acquire l next))
    (hFree : s.lock l = none) : Locks ((s.goto c next).hold c l) := by
  rcases hLaw with ⟨hHeld, hOk, hBack⟩
  refine h.advance next hOk hBack ?_ (fun _ => rfl) ?_ (by simp) (by simp) (by simp) ?_ ?_
  · rw [hHeld]
    exact List.nodup_cons.2 ⟨h.free hFree c, h.nodup c⟩
  · intro x hx
    simp [State.hold, hx, goto_cpu_other next hx]
  · intro m x
    have hHolder := h.holder m x
    rw [hHeld]
    by_cases hm : m = l
    · subst hm
      by_cases hx : x = c
      · simp [State.hold, hx]
      · simp [State.hold, hx, hFree, Ne.symm hx]
    · by_cases hx : x = c
      · subst hx
        simpa [State.hold, hm] using hHolder
      · simp [State.hold, hm, hx]
  · simp [State.hold, h.noff, hHeld]

/- A thread gives back a lock it holds. -/
theorem release {l : Lock} {d : Data} {next : Pc}
    (hLaw : Lawful (s.cpu c).stack (s.at c) (.release l d next)) (hMine : s.lock l = some c) :
    Locks ((s.goto c next).drop c l) := by
  rcases hLaw with ⟨hPerm, hOk, hBack⟩
  have hNodup := hPerm.nodup_iff.1 (h.nodup c)
  rcases List.nodup_cons.1 hNodup with ⟨hOut, hNext⟩
  refine h.advance next hOk hBack hNext (fun _ => rfl) ?_ (by simp) (by simp) (by simp) ?_ ?_
  · intro x hx
    simp [State.drop, hx, goto_cpu_other next hx]
  · intro m x
    have hHolder := h.holder m x
    by_cases hm : m = l
    · subst hm
      by_cases hx : x = c
      · simp [State.drop, hx, hOut]
      · simp [State.drop, hx, hMine, Ne.symm hx]
    · by_cases hx : x = c
      · subst hx
        rw [hPerm.mem_iff] at hHolder
        simpa [State.drop, hm] using hHolder
      · simp [State.drop, hm, hx]
  · simp [State.drop, h.noff, hPerm.length_eq]

/- The scheduler switches to a process off the CPUs. -/
theorem dispatch {k : Nat} {d : Data} (hLaw : Lawful (s.cpu c).stack (s.at c) (.dispatch k d))
    (hOff : ∀ x, (s.cpu x).stack ≠ some k) (hExec : s.exec c (.dispatch k d) = some s') :
    Locks s' := by
  rcases hLaw with ⟨hNone, hHeld⟩
  simp only [State.exec] at hExec
  split at hExec
  case isFalse => cases hExec
  rename_i hFree
  cases hExec
  have hNoff := h.noff c
  rw [hHeld] at hNoff
  refine h.frame (c := c) (fun x hx => by simp [hx]) (fun x hx => by simp [State.at, hx]) h.ok
    (by simp) (by simp) ?_ ?_ ?_ ?_ ?_ (by simp)
  · intro p x hp _
    simp only [Function.update_self, Option.some.injEq] at hp
    exact hp ▸ hOff x
  · intro l x
    have hHolder := h.holder l c
    rw [hHeld] at hHolder
    by_cases hl : l = .proc k <;> by_cases hx : x = c <;>
      simp_all [State.at, h.parked k hOff, Ne.symm]
  · simp [State.at, h.parked k hOff]
  · simp [State.at, h.parked k hOff, hNoff]
  · intro p hp
    refine h.parked p fun x hx => ?_
    by_cases hc : x = c
    · subst hc
      simp [hNone] at hx
    · exact hp x (by simpa [hc] using hx)

/- The scheduler gives back the lock of a process. -/
theorem putBack {k : Nat} (hLaw : Lawful (s.cpu c).stack (s.at c) (.idle k))
    (hExec : s.exec c (.idle k) = some s') : Locks s' := by
  rcases hLaw with ⟨hNone, hAt⟩
  simp only [State.exec] at hExec
  split at hExec
  case isFalse => cases hExec
  rename_i hMine
  cases hExec
  have hNoff := h.noff c
  rw [hAt] at hNoff
  refine h.frame (c := c) (fun x hx => by simp [hx]) (fun x hx => by simp [State.at, hx]) h.ok
    (by simp [hNone]) (by simp [Pc.Ok]) (by simp [hNone]) ?_ ?_ ?_ ?_ (by simp)
  · intro l x
    have hHolder := h.holder l c
    rw [hAt] at hHolder
    by_cases hl : l = .proc k <;> by_cases hx : x = c <;> simp_all [State.at, Pc.held, Ne.symm]
  · simp [State.at, hNone, Pc.held]
  · simp [State.at, hNone, Pc.held, hNoff]
  · intro p hp
    refine h.parked p fun x hx => hp x ?_
    by_cases hc : x = c <;> simp_all

/- A process switches to its CPU's scheduler. -/
theorem switch {next : Pc} (hLaw : Lawful (s.cpu c).stack (s.at c) (.switch next))
    (hExec : s.exec c (.switch next) = some s') : Locks s' := by
  rcases hLaw with ⟨hHeld, hNext, hOk⟩
  simp only [State.exec] at hExec
  split at hExec
  case h_1 => cases hExec
  rename_i p hp
  split at hExec
  case isFalse => cases hExec
  cases hExec
  have hBack := h.back c p hp
  rw [hp] at hHeld hNext hOk
  refine h.frame (c := c) (fun x hx => by simp [hx]) ?_ ?_
    (by simp) (by simp [hBack, Pc.Ok]) (by simp) ?_ ?_ ?_ ?_ (by simpa using h.proc c)
  · intro x hx
    unfold State.at
    simp only [Function.update_of_ne hx]
    cases hStack : (s.cpu x).stack with
    | none => rfl
    | some q =>
      have hNe : q ≠ p := by
        rintro rfl
        exact hx (h.unique x c q hStack hp)
      simp [hNe]
  · intro q
    by_cases hq : q = p
    · subst hq
      simpa using hOk
    · simpa [hq] using h.ok q
  · intro l x
    have hHolder := h.holder l c
    rw [hp, hHeld] at hHolder
    by_cases hx : x = c
    · subst hx
      simpa [State.at, hBack, Pc.held, ownLock] using hHolder
    · simp [hx]
  · simp [State.at, hBack, Pc.held]
  · have hNoff := h.noff c
    rw [hp, hHeld] at hNoff
    simpa [State.at, hBack, Pc.held, ownLock] using hNoff
  · intro q hq
    by_cases hEq : q = p
    · subst hEq
      simpa [ownLock] using hNext
    · have hOff : ∀ x, (s.cpu x).stack ≠ some q := by
        intro x hx
        by_cases hc : x = c
        · subst hc
          exact hEq (Option.some.inj (hx.symm.trans hp))
        · exact hq x (by simpa [hc] using hx)
      simpa [hEq] using h.parked q hOff

end

end Locks

/- The process a step switches to or starts. -/
def Instr.target : Instr → Option Nat
| .spawn k _ _ => some k
| .dispatch k _ => some k
| _ => none

/-
  Lawful steps keep the locks in order, as long as nothing
  switches to a process that is already on a CPU.
-/
theorem Locks.exec {s s' : State} {c : Nat} {i : Instr} (h : Locks s)
    (hLaw : Lawful (s.cpu c).stack (s.at c) i)
    (hOff : ∀ k ∈ i.target, ∀ x, (s.cpu x).stack ≠ some k) (hExec : s.exec c i = some s') :
    Locks s' := by
  cases i with
  | acquire l next =>
    simp only [State.exec, Option.ite_none_right_eq_some, Option.some.injEq] at hExec
    rcases hExec with ⟨hFree, rfl⟩
    exact h.acquire hLaw hFree
  | release l d next =>
    simp only [State.exec, Option.ite_none_right_eq_some, Option.some.injEq] at hExec
    rcases hExec with ⟨hMine, rfl⟩
    exact (h.withData d).release (d := d) hLaw hMine
  | compute d next =>
    simp only [State.exec, Option.some.injEq] at hExec
    subst hExec
    rcases hLaw with ⟨hHeld, hOk, hBack⟩
    exact (h.withData d).goto hHeld hOk hBack
  | spawn k d next =>
    simp only [State.exec, Option.some.injEq] at hExec
    subst hExec
    rcases hLaw with ⟨_, hHeld, hOk, hBack⟩
    have hMoved := (h.withData d).goto hHeld hOk hBack
    refine hMoved.spawn fun x => ?_
    simpa using hOff k rfl x
  | critical l d next =>
    simp only [State.exec, Option.ite_none_right_eq_some, Option.some.injEq] at hExec
    rcases hExec with ⟨_, rfl⟩
    rcases hLaw with ⟨hHeld, hOk, hBack⟩
    exact (h.withData d).goto hHeld hOk hBack
  | dispatch k d => exact h.dispatch hLaw (hOff k rfl) hExec
  | idle k => exact h.putBack hLaw hExec
  | switch next => exact h.switch hLaw hExec

end Xv6.Sched

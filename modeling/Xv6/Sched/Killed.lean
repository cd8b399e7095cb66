import Xv6.Sched.Wakeup

/-
  Killed processes and the loops that test `killed()` before
  they sleep (`piperead`, `pipewrite`, `consoleread`,
  `sys_sleep`, `wait`).

  The flag is protected by `p->lock`, the condition of a loop
  by another lock. A `kill` that comes after the test of the
  flag and before `sleep` takes `p->lock` finds the process
  RUNNING, and the process then sleeps with the flag set.

  Main declarations:
    * `Spares`, `Spared`
    * `killed_process_awake`
    * `killed_process_sleeps`
-/

namespace Xv6.Sched

---- Loops That Test the Flag

/- A round of a loop that tests `killed()` starts here. -/
def Pc.guarded : Pc → Bool
| .loopTest L => L.check != .never
| .loopKilled L => L.check != .never
| .waitScan _ _ _ => true
| _ => false

/- The process has found its flag clear and does not hold `p->lock` again yet. -/
def Pc.window : Pc → Bool
| .loopTest L => L.check == .before
| .wakeup _ _ ret => ret.window
| .sleepLock _ _ ret => ret.guarded
| _ => false

/- The process is in `sleep`, called by such a loop. -/
def Pc.dozing : Pc → Bool
| .sleepRelease _ _ ret => ret.guarded
| .sleepState _ _ ret => ret.guarded
| .sleepSwitch _ _ ret => ret.guarded
| .sleepBack _ _ ret => ret.guarded
| _ => false

/-
  A killed process is not on its way to sleep in such a loop,
  and if it slept there, it was made runnable.
-/
def Roused (s : State) : Prop :=
  ∀ p, (s.data.slot p).killed → ¬ (s.pc p).window ∧
      ((s.pc p).dozing → (s.pc p).rests ∧ (s.data.slot p).state ≠ .sleeping)

variable {d : Data} {p : Nat} {ch : Choice} {pc : Pc} {i : Instr}

@[simp] theorem window_start (L : Loop) : L.start.window = false := by
  unfold Loop.start
  split
  · rfl
  · rename_i hCheck
    simpa [Pc.window] using hCheck

@[simp] theorem dozing_start (L : Loop) : L.start.dozing = false := by
  rcases start_cases L with hStart | hStart <;> rw [hStart] <;> rfl

@[simp] theorem dozing_sleep (L : Loop) : L.sleep.dozing = false := by
  rcases sleep_cases L with hSleep | ⟨k, _, hSleep⟩ <;> rw [hSleep] <;> rfl

theorem window_sleep {L : Loop} (hWindow : L.sleep.window) : L.check ≠ .never := by
  rcases sleep_cases L with hSleep | ⟨k, _, hSleep⟩ <;> rw [hSleep] at hWindow
  all_goals
    rcases start_cases L with hStart | hStart <;>
      simpa [Pc.window, Pc.guarded, hStart] using hWindow

theorem not_window_of_held (hOk : pc.Ok (some p)) (hHeld : pc.held (some p) = []) :
    pc.window = false ∧ pc.dozing = false := by
  cases pc with
  | wakeup a k ret => exact (wakeup_held hOk hHeld).elim
  | _ => simp_all [Pc.held, ownLock, Pc.window, Pc.dozing]

theorem not_window_of_afterSleep (hAfter : pc.AfterSleep) :
    pc.window = false ∧ pc.dozing = false := by
  cases hAfter with
  | waitScan addr => exact ⟨rfl, rfl⟩
  | start L => exact ⟨window_start L, dozing_start L⟩

section

variable (hOk : pc.Ok (some p)) (hCode : code d (some p) ch pc = some i)
include hOk hCode

theorem code_window (hNext : i.next.window) : pc.window ∨ (d.slot p).killed = false := by
  cases pc with
  | yieldBack ret =>
    cases hCode
    have hNone := not_window_of_held hOk.2.2 hOk.2.1
    cases hNone.1.symm.trans hNext
  | sleepRelock lk ret =>
    cases hCode
    have hNone := not_window_of_afterSleep hOk.2.2.2.1
    cases hNone.1.symm.trans hNext
  | inside m ret =>
    have hNone := not_window_of_held hOk.2 hOk.1
    simp only [code] at hCode
    split at hCode <;> cases hCode
    · cases hNext
    · cases hNext
    · cases hNone.1.symm.trans hNext
  | loopTest L =>
    simp only [code, Option.map_some] at hCode
    (repeat' split at hCode) <;> cases hCode
    · cases (window_start L).symm.trans hNext
    · cases hNext
    · cases hNext
    · rename_i hCheck
      have hNever := window_sleep hNext
      refine .inl ?_
      cases hCase : L.check <;> simp_all [Pc.window]
  | _ =>
    simp only [code, Option.map_some] at hCode
    (repeat' split at hCode) <;> cases hCode <;> first
      | exact .inl hNext
      | (cases hNext; done)
      | cases (window_start _).symm.trans hNext
      | exact .inr (eq_false_of_ne_true (by assumption))

theorem code_dozing (hNext : i.next.dozing) : pc.window ∨ (pc.dozing ∧ ¬ pc.rests) := by
  cases pc with
  | yieldBack ret =>
    cases hCode
    have hNone := not_window_of_held hOk.2.2 hOk.2.1
    cases hNone.2.symm.trans hNext
  | sleepRelock lk ret =>
    cases hCode
    have hNone := not_window_of_afterSleep hOk.2.2.2.1
    cases hNone.2.symm.trans hNext
  | inside m ret =>
    have hNone := not_window_of_held hOk.2 hOk.1
    simp only [code] at hCode
    split at hCode <;> cases hCode
    · cases hNext
    · cases hNext
    · cases hNone.2.symm.trans hNext
  | wakeup a k ret =>
    have hNone : ret.dozing = false := by
      cases hOk.2.2.1 <;> rfl
    simp only [code] at hCode
    (repeat' split at hCode) <;> cases hCode
    · cases hNext
    · cases hNext
    · cases hNone.symm.trans hNext
  | _ =>
    simp only [code, Option.map_some] at hCode
    (repeat' split at hCode) <;> cases hCode <;> first
      | exact .inl hNext
      | exact .inr ⟨hNext, by rintro ⟨⟩⟩
      | cases hNext
      | cases (dozing_start _).symm.trans hNext
      | cases (dozing_sleep _).symm.trans hNext

end

---- Kills Outside of the Window

/- The timer and the devices. -/
def Choice.isInterrupt : Choice → Bool
| .preempt => true
| .interrupt _ => true
| _ => false

/-
  If CPU `c` is about to mark a process in `kill`, that
  process is not between its test of the flag and `sleep`.
-/
def Spares (s : State) (c : Nat) (ch : Choice) : Prop :=
  match s.at c with
  | .kill pid k => (s.data.slot k).pid = pid → ch.isInterrupt = false → (s.pc k).window = false
  | _ => True

instance (s : State) (c : Nat) (ch : Choice) :
    Decidable (Spares s c ch) := by
  unfold Spares
  split <;> infer_instance

/- The states reached by steps that spare the window. -/
inductive Spared : State → Prop where
  | boot : Spared boot
  | step {s s' : State}
      (c : Nat) (ch : Choice) (hReach : Spared s) (hSpares : Spares s c ch)
      (hStep : step s c ch = some s') : Spared s'

theorem Spared.reachable {s : State} (hSpared : Spared s) : Reachable s := by
  induction hSpared with
  | boot => exact .boot
  | step c ch _ _ hStep ih => exact .step c ch ih hStep

/- A run whose steps are checked for this. -/
def runSpared : List (Nat × Choice) → State → Option State
| [], s => some s
| (c, ch) :: steps, s =>
  if Spares s c ch then (step s c ch).bind (runSpared steps) else none

theorem Spared.run {s s' : State} (steps : List (Nat × Choice)) (hSpared : Spared s)
    (hRun : runSpared steps s = some s') : Spared s' := by
  induction steps generalizing s with
  | nil =>
    cases hRun
    exact hSpared
  | cons head steps ih =>
    simp only [runSpared, Option.ite_none_right_eq_some] at hRun
    rcases hRun with ⟨hSpares, hRun⟩
    rcases Option.bind_eq_some_iff.1 hRun with ⟨t, hStep, hRest⟩
    exact ih (.step head.1 head.2 hSpared hSpares hStep) hRest

variable {s s' : State} {c : Nat}

theorem Taken.killed_before (h : Taken s s' c ch i) {p : Nat} (hKilled : (s'.data.slot p).killed) :
    (s.data.slot p).killed ∨ ((s.cpu c).stack = some p ∧ i.next = .user) ∨ (∃ pid,
      s.at c = .kill pid p ∧ (s.data.slot p).pid = pid ∧ i.needs = some (.proc p) ∧ i.next = .user ∧
      (s'.data.slot p).state ≠ .sleeping) := by
  rcases h.edit p with hSame | hEdit
  · rw [hSame] at hKilled
    exact .inl hKilled
  generalize s'.data.slot p = x at hEdit hKilled ⊢
  cases hEdit with
  | setkilled hSelf _ hNext => exact .inr (.inl ⟨hSelf, hNext⟩)
  | rouse _ _ _ _ =>
    unfold Slot.rouse at hKilled
    split at hKilled <;> exact .inl hKilled
  | kill hAt hPid hNeeds hNext =>
    refine .inr (.inr ⟨_, hAt, hPid, hNeeds, hNext, ?_⟩)
    rcases kill_state (s.data.slot p) with
      hSame | ⟨_, hNew⟩
    · intro hAsleep
      simp [Slot.kill, hSame ▸ hAsleep] at hAsleep
    · simp [hNew]
  | free _ _ => cases hKilled
  | reap _ _ _ _ => cases hKilled
  | _ => exact .inl hKilled

theorem not_interrupt_of_user (hFetch : fetch s c ch = some i) (hNext : i.next = .user) :
    ch.isInterrupt = false := by
  cases ch with
  | preempt =>
    simp only [Sched.fetch, Option.ite_none_right_eq_some, Option.map_eq_some_iff] at hFetch
    rcases hFetch with ⟨_, p, _, rfl⟩
    cases hNext
  | interrupt m =>
    simp only [Sched.fetch, Option.ite_none_right_eq_some, Option.some.injEq] at hFetch
    rcases hFetch with ⟨_, rfl⟩
    cases hNext
  | _ => rfl

/- With its lock free, a process in `sleep` is off the CPU. -/
theorem Phases.rests_of_free (h : Phases s) (hLocks : Locks s) {p : Nat}
    (hFree : s.lock (.proc p) = none) (hDozing : (s.pc p).dozing) : (s.pc p).rests := by
  by_cases hOff : Off s p
  · have hParked := h.parked p hOff
    revert hParked hDozing
    cases s.pc p <;> simp [Pc.parked, Pc.dozing, Pc.rests]
  · rcases not_forall_not.1 hOff with ⟨x, hx⟩
    have hHeld : Lock.proc p ∉ (s.pc p).held (some p) := by
      intro hHeld
      rw [hLocks.holds hx hHeld] at hFree
      cases hFree
    revert hHeld hDozing
    cases s.pc p <;> simp [Pc.dozing, Pc.rests, Pc.held, ownLock]

theorem Roused.step (hRoused : Roused s) (h : Taken s s' c ch i) (hSpares : Spares s c ch) :
    Roused s' := by
  intro p hKilled
  rcases h.killed_before hKilled with
    hBefore | ⟨hSelf, hUser⟩ | ⟨pid, hAt, hPid, hNeeds, hUser, hAwake⟩
  · -- the flag was set before
    rcases hRoused p hBefore with ⟨hWindow, hDozing⟩
    rcases h.pc_cases p with ⟨hSelf, _, hNext⟩ | ⟨hOther, hSame⟩ | ⟨_, hNew⟩
    · rw [hNext]
      rcases fetch_self h.locks hSelf h.fetch with
        hCode | ⟨_, _, hCase⟩
      · constructor
        · intro hIn
          rcases code_window (h.locks.ok p) hCode hIn with
            hOld | hClear
          · exact hWindow hOld
          · simp [hClear] at hBefore
        · intro hIn
          rcases code_dozing (h.locks.ok p) hCode hIn with
            hOld | ⟨hOld, hRests⟩
          · exact absurd hOld hWindow
          · exact absurd (hDozing hOld).1 hRests
      · rcases hCase with ⟨m, hInside⟩ | hYield
        · rw [hInside]
          exact ⟨nofun, nofun⟩
        · rw [hYield]
          exact ⟨nofun, nofun⟩
    · rw [hSame]
      refine ⟨hWindow, fun hIn => ⟨(hDozing hIn).1, ?_⟩⟩
      intro hAsleep
      exact (hDozing hIn).2 (h.sleeping_before hOther hAsleep)
    · rw [hNew]
      exact ⟨nofun, nofun⟩
  · rw [h.phases.self_pc h.locks h.fetch h.exec hSelf, hUser]
    exact ⟨nofun, nofun⟩
  · -- kill sets the flag now, with the lock of the process
    rcases h.pc_cases p with ⟨_, _, hNext⟩ | ⟨_, hSame⟩ | ⟨_, hNew⟩
    · rw [hNext, hUser]
      exact ⟨nofun, nofun⟩
    · rw [hSame]
      simp only [Spares, hAt] at hSpares
      have hCode := not_interrupt_of_user h.fetch hUser
      refine ⟨by simp [hSpares hPid hCode], fun hIn => ?_⟩
      have hFree := exec_free h.exec hNeeds
      exact ⟨h.phases.rests_of_free h.locks hFree hIn, hAwake⟩
    · rw [hNew]
      exact ⟨nofun, nofun⟩

theorem Spared.roused {s : State} (hSpared : Spared s) : Roused s := by
  induction hSpared with
  | boot =>
    intro p hKilled
    by_cases hp : p = 0 <;> simp [Sched.boot, hp, Slot.empty] at hKilled
  | step c ch hSpared hSpares hStep ih =>
    rcases Taken.of_step hSpared.reachable hStep with ⟨i, hTaken⟩
    exact ih.step hTaken hSpares

/-
  In every run whose kills spare the window between the test
  of the flag and `sleep`, no process whose flag is set sleeps
  in a loop that tests it.
-/
theorem killed_process_awake (s : State) (hSpared : Spared s) (p : Nat)
    (hKilled : (s.data.slot p).killed) (hLoop : (s.pc p).dozing) :
    (s.data.slot p).state ≠ .sleeping := ((hSpared.roused p hKilled).2 hLoop).2

/- The first process makes a child, which CPU 1 runs. -/
def forkSteps : List (Nat × Choice) :=
  [(0, .go), (0, .go), (0, .fork), (0, .go), (0, .go), (0, .go), (0, .go), (0, .go), (0, .go),
    (1, .go), (1, .go), (1, .go)]

/- It goes to sleep in `piperead`, and the child kills it then. -/
def killAsleep : List (Nat × Choice) :=
  forkSteps ++
  [(0, .loop (piperead 0)), (0, .go), (0, .go), (0, .go), (0, .go), (0, .go), (0, .go), (0, .go),
    (1, .kill 1), (1, .go)]

theorem killed_process_awake_asleep :
    ∃ s, runSpared killAsleep boot = some s ∧ (s.data.slot 0).killed ∧ (s.pc 0).dozing ∧
      (s.data.slot 0).state ≠ .sleeping := by
  refine ⟨_, rfl, rfl, rfl, ?_⟩
  have hSpared := Spared.boot.run killAsleep rfl
  exact killed_process_awake _ hSpared 0 rfl rfl

/-
  The child kills it after its test of the flag and before
  `sleep` takes its lock: the kill is over, the flag is set,
  and the process sleeps.
-/
def killWindow : List (Nat × Choice) :=
  forkSteps ++
  [(0, .loop (piperead 0)), (0, .go), (0, .go), (1, .kill 1), (1, .go),
    (0, .go), (0, .go), (0, .go), (0, .go), (0, .go)]

theorem killed_process_sleeps :
    ∃ s, run killWindow boot = some s ∧ Reachable s ∧ s.pc 1 = .user ∧ (s.data.slot 0).killed ∧
      (s.data.slot 0).state = .sleeping ∧
      s.pc 0 = .sleepBack (.monitor 0 0) (.monitor 0) (.loopTest (piperead 0)) :=
  ⟨_, rfl, Reachable.boot.run killWindow rfl, rfl, rfl, rfl, rfl⟩

end Xv6.Sched

import Xv6.Sched.Family

/-
  No wakeup is lost: a process that sleeps on a channel has
  tested its condition after the last `wakeup` on the channel
  was over. And `sched` is entered with `p->lock` as the only
  lock.

  The first part rests on what holds while a `wakeup` scans
  the table: the processes asleep on its channel are in slots
  it has not passed yet, since a process can only fall asleep
  while it holds the lock that the caller of `wakeup` holds.

  Main declarations:
    * `Vigil`
    * `Vigil.step`
    * `no_lost_wakeup`
-/

namespace Xv6.Sched

---- Sleepers

/-
  The channel of a process that has found its condition false
  and still holds the lock it found it under.
-/
def Pc.pledged (p : Nat) : Pc → Option Chan
| .loopKilled L =>
  if L.check = .after then some (.monitor L.monitor L.chan) else none
| .waitKilled _ => some (.proc p)
| .wakeup _ _ ret => ret.pledged p
| .sleepLock ch _ _ => some ch
| .sleepRelease ch _ _ => some ch
| _ => none

/- The channel of a process that has given that lock back. -/
def Pc.bed : Pc → Option Chan
| .sleepState ch _ _ => some ch
| .sleepSwitch ch _ _ => some ch
| .sleepBack ch _ _ => some ch
| _ => none

/- The process is off the CPU in `sleep`. -/
def Pc.rests : Pc → Bool
| .sleepBack _ _ _ => true
| _ => false

/- The process falls asleep or sleeps on a channel. -/
def Asleep (s : State) (p : Nat) (ch : Chan) : Prop :=
  (s.pc p).bed = some ch ∧ ((s.pc p).rests → (s.data.slot p).state = .sleeping)

/-
  Every process that waits has tested its condition after the
  last `wakeup` on its channel was over, and a `wakeup` in
  progress has passed no process that sleeps on its channel.
-/
structure Vigil (s : State) : Prop where
  bound : ∀ p, NPROC ≤ p → (s.data.slot p).state = .unused
  chan : ∀ p ch lk ret, s.pc p = .sleepSwitch ch lk ret ∨
      (s.pc p = .sleepBack ch lk ret ∧ (s.data.slot p).state = .sleeping) →
    (s.data.slot p).chan = ch
  apart : ∀ p ch j ret, s.pc p = .wakeup ch j ret → ret.pledged p ≠ some ch
  pledged : ∀ p ch, (s.pc p).pledged p = some ch → s.data.tested p = s.data.wakes ch
  asleep : ∀ p ch, Asleep s p ch → s.data.tested p = s.data.wakes ch
  scan : ∀ c ch j ret, s.at c = .wakeup ch j ret → ∀ p, Asleep s p ch → j ≤ p

---- Facts about the Code

variable {d : Data} {p : Nat} {ch : Choice} {pc : Pc} {i : Instr} {a : Chan} {self : Option Nat}

section Code

variable {ret : Pc}

theorem sleep_cases (L : Loop) :
    L.sleep = .sleepLock (.monitor L.monitor L.chan) (.monitor L.monitor) L.start ∨
      ∃ k, k ≠ L.chan ∧ L.sleep = .wakeup (.monitor L.monitor k) 0
        (.sleepLock (.monitor L.monitor L.chan) (.monitor L.monitor) L.start) := by
  unfold Loop.sleep
  have hApart := L.apart
  split
  · exact .inl rfl
  · rename_i k hWakes
    refine .inr ⟨k, ?_, rfl⟩
    rintro rfl
    exact hApart hWakes

@[simp] theorem pledged_start (L : Loop) : L.start.pledged p = none := by
  unfold Loop.start
  split
  · rename_i hCheck
    simp [Pc.pledged, hCheck]
  · rfl

@[simp] theorem pledged_sleep (L : Loop) :
    L.sleep.pledged p = some (.monitor L.monitor L.chan) := by
  rcases sleep_cases L with hSleep | ⟨k, _, hSleep⟩ <;> rw [hSleep] <;> rfl

@[simp] theorem bed_start (L : Loop) : L.start.bed = none := by
  rcases start_cases L with hStart | hStart <;> rw [hStart] <;> rfl

@[simp] theorem bed_sleep (L : Loop) : L.sleep.bed = none := by
  rcases sleep_cases L with hSleep | ⟨k, _, hSleep⟩ <;> rw [hSleep] <;> rfl

/- It holds the lock of the channel it is going to sleep on. -/
theorem pledged_held (hOk : pc.Ok (some p)) (hPledged : pc.pledged p = some a) :
    ∃ lk, a.guard = [lk] ∧ lk ∈ pc.held (some p) := by
  induction pc with
  | loopKilled L =>
    simp only [Pc.pledged] at hPledged
    split at hPledged
    · cases hPledged
      exact ⟨_, rfl, List.mem_singleton_self _⟩
    · cases hPledged
  | waitKilled _ =>
    cases hPledged
    exact ⟨_, rfl, List.mem_singleton_self _⟩
  | wakeup _ _ ret ih => exact ih hOk.2.2.2 hPledged
  | sleepLock _ lk _ _ =>
    cases hPledged
    exact ⟨lk, hOk.2.2.2.1, List.mem_singleton_self _⟩
  | sleepRelease _ lk _ _ =>
    cases hPledged
    exact ⟨lk, hOk.2.2.2.1, by simp [Pc.held]⟩
  | _ => cases hPledged

/- How the counts change. -/
theorem code_wakes (hCode : code d self ch pc = some i) :
    (i.data d).wakes = d.wakes ∨
    ∃ a j ret, pc = .wakeup a j ret ∧ NPROC ≤ j ∧ i.data d = d.woke a := by
  cases self <;> cases pc <;>
    simp only [code, Option.map_some, Option.map_none] at hCode <;>
    (repeat' split at hCode) <;> cases hCode <;> first
      | exact .inl rfl
      | exact .inr ⟨_, _, _, rfl, Nat.not_lt.1 (by assumption), rfl⟩

theorem code_tested (hCode : code d self ch pc = some i) (q : Nat) :
    (i.data d).tested q = d.tested q ∨ (self = some q ∧
      ((∃ L, pc = .loopTest L) ∨ ∃ addr k havekids, pc = .waitScan addr k havekids)) := by
  have hTest : ∀ p a, (d.test p a).tested q = d.tested q ∨ p = q := by
    intro p a
    by_cases hp : q = p
    · exact .inr hp.symm
    · exact .inl (by simp [Data.test, hp])
  cases self <;> cases pc <;>
    simp only [code, Option.map_some, Option.map_none] at hCode <;>
    (repeat' split at hCode) <;> cases hCode <;> first
      | exact .inl rfl
      | exact (hTest _ _).imp_right
          fun hEq => ⟨congrArg some hEq, .inl ⟨_, rfl⟩⟩
      | exact (hTest _ _).imp_right
          fun hEq => ⟨congrArg some hEq, .inr ⟨_, _, _, rfl⟩⟩

/- Where interrupts and `sleep` return, nobody waits. -/
theorem not_pledged_of_held (hOk : pc.Ok (some p)) (hHeld : pc.held (some p) = []) :
    pc.pledged p = none ∧ pc.bed = none := by
  constructor
  · cases hPledged : pc.pledged p with
    | none => rfl
    | some a =>
      rcases pledged_held hOk hPledged with ⟨lk, _, hMem⟩
      rw [hHeld] at hMem
      cases hMem
  · cases pc <;> simp_all [Pc.held, ownLock, Pc.bed]

theorem not_pledged_of_afterSleep (hAfter : pc.AfterSleep) :
    pc.pledged p = none ∧ pc.bed = none := by
  cases hAfter with
  | waitScan addr => exact ⟨rfl, rfl⟩
  | start L => exact ⟨pledged_start L, bed_start L⟩

section

variable (hOk : pc.Ok (some p)) (hCode : code d (some p) ch pc = some i)
include hOk hCode

/- A promise to sleep is kept, or made by a test. -/
theorem code_pledged (hNext : i.next.pledged p = some a) :
    pc.pledged p = some a ∨ (i.data d).tested p = (i.data d).wakes a := by
  cases pc with
  | yieldBack ret =>
    cases hCode
    have hNone := not_pledged_of_held hOk.2.2 hOk.2.1
    cases hNone.1.symm.trans hNext
  | sleepRelock lk ret =>
    cases hCode
    have hNone := not_pledged_of_afterSleep (p := p) hOk.2.2.2.1
    cases hNone.1.symm.trans hNext
  | inside m ret =>
    have hNone := not_pledged_of_held hOk.2 hOk.1
    simp only [code] at hCode
    split at hCode <;> cases hCode
    · cases hNext
    · cases hNext
    · cases hNone.1.symm.trans hNext
  | _ =>
    simp only [code, Option.map_some] at hCode
    (repeat' split at hCode) <;> cases hCode <;> first
      | exact .inl hNext
      | (cases hNext; done)
      | simp_all [Instr.next, Pc.pledged, Instr.data, Data.test]

/- A process falls asleep from the lock it promised under. -/
theorem code_bed (hNext : i.next.bed = some a) :
    (pc.bed = some a ∧ pc.rests = false) ∨
    (pc.pledged p = some a ∧ i.data d = d ∧ ∃ lk ret, i.next = .sleepState a lk ret) := by
  cases pc with
  | yieldBack ret =>
    cases hCode
    have hNone := not_pledged_of_held hOk.2.2 hOk.2.1
    cases hNone.2.symm.trans hNext
  | sleepRelock lk ret =>
    cases hCode
    have hNone := not_pledged_of_afterSleep (p := p) hOk.2.2.2.1
    cases hNone.2.symm.trans hNext
  | inside m ret =>
    have hNone := not_pledged_of_held hOk.2 hOk.1
    simp only [code] at hCode
    split at hCode <;> cases hCode
    · cases hNext
    · cases hNext
    · cases hNone.2.symm.trans hNext
  | wakeup c k ret =>
    have hNone : ret.bed = none := by
      cases hOk.2.2.1 <;> rfl
    simp only [code] at hCode
    (repeat' split at hCode) <;> cases hCode
    · cases hNext
    · cases hNext
    · cases hNone.symm.trans hNext
  | _ =>
    simp only [code, Option.map_some] at hCode
    (repeat' split at hCode) <;> cases hCode <;> first
      | exact .inl ⟨hNext, rfl⟩
      | (cases hNext; exact .inr ⟨rfl, rfl, _, _, rfl⟩)
      | cases hNext
      | simp_all [Instr.next]

end

/- A `wakeup` holds a lock, so no interrupt returns to it. -/
theorem wakeup_held {k : Nat} (hOk : (Pc.wakeup a k ret).Ok self) : ret.held self ≠ [] := by
  cases hOk.2.2.1 <;> simp [Pc.held]

theorem afterSleep_ne_wakeup {k : Nat} (hAfter : pc.AfterSleep) : pc ≠ .wakeup a k ret := by
  cases hAfter with
  | waitScan addr => nofun
  | start L =>
    rcases start_cases L with hStart | hStart <;> simp [hStart]

theorem start_ne_wakeup (L : Loop) {k : Nat} {ret : Pc} : L.start ≠ .wakeup a k ret :=
  afterSleep_ne_wakeup (.start L)

theorem sleep_eq_wakeup {L : Loop} {j : Nat} (hSleep : L.sleep = .wakeup a j ret) :
    j = 0 ∧ ret.pledged p ≠ some a := by
  rcases sleep_cases L with hLock | ⟨k, hk, hWakeup⟩
  · rw [hLock] at hSleep
    cases hSleep
  · rw [hWakeup] at hSleep
    cases hSleep
    refine ⟨rfl, fun hEq => ?_⟩
    simp only [Pc.pledged, Option.some.injEq, Chan.monitor.injEq, true_and] at hEq
    exact hk hEq.symm

/- A `wakeup` is entered, or passes one slot. -/
theorem code_scan {j : Nat} (hOk : pc.Ok self) (hCode : code d self ch pc = some i)
    (hNext : i.next = .wakeup a j ret) :
    (j = 0 ∧ ∀ p, ret.pledged p ≠ some a) ∨ ∃ k, j = k + 1 ∧ pc = .wakeup a k ret ∧
      (self = some k ∨ (i.needs = some (.proc k) ∧ (i.data d).slot k = (d.slot k).rouse a)) := by
  cases pc with
  | yieldBack r =>
    rcases Option.map_eq_some_iff.1 hCode with ⟨p, rfl, rfl⟩
    have hRet : r = .wakeup a j ret := hNext
    subst hRet
    exact (wakeup_held hOk.2.2 hOk.2.1).elim
  | sleepRelock lk r =>
    cases hCode
    exact absurd hNext (afterSleep_ne_wakeup hOk.2.2.2.1)
  | inside m r =>
    simp only [code] at hCode
    split at hCode <;> cases hCode
    · cases hNext
    · cases hNext
      exact .inl ⟨rfl, by rintro _ ⟨⟩⟩
    · have hRet : r = .wakeup a j ret := hNext
      subst hRet
      exact (wakeup_held hOk.2 hOk.1).elim
  | wakeup c k r =>
    simp only [code] at hCode
    (repeat' split at hCode) <;> cases hCode
    · rename_i hSelf
      cases hNext
      exact .inr ⟨k, rfl, rfl, .inl hSelf⟩
    · cases hNext
      exact .inr ⟨k, rfl, rfl, .inr ⟨rfl, by simp [Instr.data]⟩⟩
    · have hRet : r = .wakeup a j ret := hNext
      have hAfter := hOk.2.2.1
      rw [hRet] at hAfter
      cases hAfter
  | exitReparent status k =>
    rcases Option.map_eq_some_iff.1 hCode with ⟨p, rfl, rfl⟩
    split at hNext
    · split at hNext
      · cases hNext
        exact .inl ⟨rfl, by rintro _ ⟨⟩⟩
      · cases hNext
    · cases hNext
      exact .inl ⟨rfl, by rintro _ ⟨⟩⟩
  | _ =>
    cases self <;>
      simp only [code, Option.map_some, Option.map_none] at hCode <;>
      (repeat' split at hCode) <;> cases hCode <;> first
        | cases hNext
        | exact absurd hNext (start_ne_wakeup _)
        | exact .inl ⟨(sleep_eq_wakeup (p := 0) hNext).1, fun _ => (sleep_eq_wakeup hNext).2⟩

theorem code_chan {lk : Lock} (hOk : pc.Ok (some p)) (hCode : code d (some p) ch pc = some i)
    (hNext : i.next = .sleepSwitch a lk ret ∨ i.next = .sleepBack a lk ret) :
    ((i.data d).slot p).chan = a ∨ (pc = .sleepSwitch a lk ret ∧ i.data d = d) := by
  have hBed : i.next.bed = some a := by
    rcases hNext with hNext | hNext <;> rw [hNext] <;> rfl
  rcases code_bed hOk hCode hBed with ⟨hIn, hAwake⟩ | ⟨_, _, _, _, hState⟩
  · cases pc with
    | sleepState c lk' r =>
      cases hCode
      cases hIn
      exact .inl (by simp [Instr.data])
    | sleepSwitch c lk' r =>
      cases hCode
      rcases hNext with hNext | hNext
      · cases hNext
      · cases hNext
        exact .inr ⟨rfl, rfl⟩
    | sleepBack _ _ _ => cases hAwake
    | _ => cases hIn
  · rw [hState] at hNext
    rcases hNext with hNext | hNext <;> cases hNext

end Code

---- One Step

variable {s s' : State} {c : Nat}

theorem Taken.wakes (h : Taken s s' c ch i) :
    s'.data.wakes = s.data.wakes ∨
    ∃ a j ret, s.at c = .wakeup a j ret ∧ NPROC ≤ j ∧ s'.data = s.data.woke a := by
  rw [exec_data h.exec]
  rcases fetch_cases h.fetch with hCode | ⟨_, hCase⟩
  · exact code_wakes hCode
  · rcases hCase with ⟨m, rfl⟩ | ⟨_, _, rfl⟩
    · exact .inl rfl
    · exact .inl rfl

theorem Taken.tested (h : Taken s s' c ch i) (q : Nat) :
    s'.data.tested q = s.data.tested q ∨ ((s.cpu c).stack = some q ∧
      ((∃ L, s.at c = .loopTest L) ∨ ∃ addr k havekids, s.at c = .waitScan addr k havekids)) := by
  rw [exec_data h.exec]
  rcases fetch_cases h.fetch with hCode | ⟨_, hCase⟩
  · exact code_tested hCode q
  · rcases hCase with ⟨m, rfl⟩ | ⟨_, _, rfl⟩
    · exact .inl rfl
    · exact .inl rfl

theorem Taken.at_other (h : Taken s s' c ch i) {x : Nat} (hOther : x ≠ c) : s'.at x = s.at x := by
  have hCpu := exec_cpu_other h.exec hOther
  unfold State.at
  rw [hCpu]
  cases hStack : (s.cpu x).stack with
  | none => rfl
  | some q => exact (h.phases.elsewhere h.locks h.fetch h.exec hStack hOther).1

/- A promise is made on a CPU, which holds the lock. -/
theorem Phases.pledged_on (h : Phases s) (hLocks : Locks s) {p : Nat}
    (hPledged : (s.pc p).pledged p = some a) :
    ∃ x lk, (s.cpu x).stack = some p ∧ a.guard = [lk] ∧ s.lock lk = some x := by
  rcases pledged_held (hLocks.ok p) hPledged with ⟨lk, hGuard, hHeld⟩
  by_cases hOff : Off s p
  · have hParked := h.parked p hOff
    revert hParked hPledged
    cases s.pc p <;> simp [Pc.parked, Pc.pledged]
  · rcases not_forall_not.1 hOff with ⟨x, hx⟩
    exact ⟨x, lk, hx, hGuard, hLocks.holds hx hHeld⟩

/- A `wakeup` in progress holds the lock of its channel. -/
theorem Locks.wakeup_holds (h : Locks s) {j : Nat} {ret : Pc} (hAt : s.at c = .wakeup a j ret)
    {lk : Lock} (hGuard : a.guard = [lk]) : s.lock lk = some c := by
  have hOk := h.ok_at c
  rw [hAt] at hOk
  refine (h.holder lk c).2 ?_
  rw [hAt]
  exact hOk.2.1 (by simp [hGuard])

theorem Phases.asleep_state (h : Phases s) {p : Nat} (hAsleep : Asleep s p a) :
    (s.data.slot p).state ≠ .unused := by
  intro hUnused
  by_cases hOff : Off s p
  · have hParked := h.parked p hOff
    rcases hAsleep with ⟨hBed, hRests⟩
    rw [hUnused] at hParked hRests
    revert hParked hBed hRests
    cases s.pc p <;> simp [Pc.parked, Pc.bed, Pc.rests]
  · rcases not_forall_not.1 hOff with ⟨x, hx⟩
    have hActive := h.active x p hx
    exact (expects_ne_unused _).1 (hActive.symm.trans hUnused)

theorem Taken.sleeping_before (h : Taken s s' c ch i) {p : Nat} (hOther : (s.cpu c).stack ≠ some p)
    (hAsleep : (s'.data.slot p).state = .sleeping) : (s.data.slot p).state = .sleeping := by
  rw [exec_data h.exec] at hAsleep
  rcases fetch_shift h.fetch p with hSame | hShift
  · rw [← hSame]
    exact hAsleep
  · rw [hAsleep] at hShift
    generalize (s.data.slot p).state = old at hShift ⊢
    cases hShift with
    | own hSelf _ _ _ => exact absurd hSelf hOther

/- A sleeper slept before the step, or promised to. -/
theorem Taken.asleep_before (h : Taken s s' c ch i) {p : Nat} (hAsleep : Asleep s' p a) :
    (Asleep s p a ∧ ((s.cpu c).stack = some p → s.at c = s.pc p ∧ s'.pc p = i.next)) ∨
    ((s.cpu c).stack = some p ∧ (s.pc p).pledged p = some a ∧ s'.data = s.data ∧
      ∃ lk ret, i.next = .sleepState a lk ret) := by
  rcases hAsleep with ⟨hBed, hRests⟩
  rcases h.pc_cases p with ⟨hSelf, hAt, hNext⟩ | ⟨hOther, hSame⟩ | ⟨_, hNew⟩
  · have hBed' := hBed
    rw [hNext] at hBed
    rcases fetch_self h.locks hSelf h.fetch with
      hCode | ⟨_, _, hCase⟩
    · rcases code_bed (h.locks.ok p) hCode hBed with ⟨hIn, hAwake⟩ | ⟨hPledged, hData, hState⟩
      · refine .inl ⟨⟨hIn, fun hRest => ?_⟩, fun _ => ⟨hAt, hNext⟩⟩
        rw [hAwake] at hRest
        cases hRest
      · refine .inr ⟨hSelf, hPledged, ?_, hState⟩
        rw [exec_data h.exec, hData]
    · rcases hCase with ⟨m, hInside⟩ | hYield
      · rw [hInside] at hBed
        cases hBed
      · rw [hYield] at hBed
        cases hBed
  · rw [hSame] at hBed hRests
    refine .inl ⟨⟨hBed, fun hRest => ?_⟩, fun hSelf => absurd hSelf hOther⟩
    exact h.sleeping_before hOther (hRests hRest)
  · rw [hNew] at hBed
    cases hBed

/- A CPU is in `wakeup` after its own step only from code. -/
theorem Taken.at_self (h : Taken s s' c ch i) {j : Nat} {ret : Pc} (hAt : s'.at c = .wakeup a j ret) :
    i.next = .wakeup a j ret := by
  have hLaw := fetch_lawful h.locks h.fetch
  have hStack' := exec_stack h.exec c
  rw [if_pos rfl] at hStack'
  cases hStack : (s.cpu c).stack with
  | none =>
    rw [hStack] at hStack'
    cases hNew : i.stack none with
    | none =>
      rw [State.at, hStack', hNew] at hAt
      rw [← exec_sched h.exec hStack]
      exact hAt
    | some k =>
      -- nobody is switched to in the middle of wakeup
      rcases stack_cases hNew with ⟨d, rfl⟩ | ⟨hNone, _⟩
      · have hOff :=
          h.phases.target_off h.locks h.fetch h.exec k rfl
        have hParked := h.phases.parked k hOff
        rw [State.at, hStack', hNew] at hAt
        dsimp only at hAt
        rw [exec_other h.exec (hOff c) (by rintro ⟨⟩)] at hAt
        rw [hAt] at hParked
        cases hParked
      · cases hNone
  | some p =>
    rw [hStack] at hStack' hLaw
    by_cases hStay : i.stack (some p) = some p
    · rw [State.at, hStack', hStay] at hAt
      dsimp only at hAt
      rw [← h.phases.self_pc h.locks h.fetch h.exec hStack]
      exact hAt
    · rcases stack_left hLaw hStay with ⟨next, rfl⟩
      have hBack := h.locks.back c p hStack
      have hExec := h.exec
      simp only [State.exec, hStack, Option.ite_none_right_eq_some, Option.some.injEq] at hExec
      rw [← hExec.2] at hAt
      simp [State.at, hBack] at hAt

namespace Vigil

variable {a : Chan}

theorem step_bound (hVigil : Vigil s) (hFamily : Family s) (h : Taken s s' c ch i) (p : Nat)
    (hOut : NPROC ≤ p) : (s'.data.slot p).state = .unused := by
  have hUnused := hVigil.bound p hOut
  rw [exec_data h.exec]
  rcases fetch_shift h.fetch p with hSame | hShift
  · rw [hSame]
    exact hUnused
  have hMove := h.phases.transition h.locks hShift
  rw [hUnused] at hShift hMove
  generalize ((i.data s.data).slot p).state = new at hShift hMove ⊢
  cases hMove
  cases hShift with
  | alloc hAt _ =>
    rcases h.locks.pc_of_at hAt (by simp [Pc.Ok]) with ⟨q, _, hPc⟩
    have hSmall := hFamily.small q p (.inr hPc)
    exact absurd hOut (Nat.not_le.2 hSmall)
  | own _ _ _ hNew => simp at hNew

/- No sleeper is left when a `wakeup` is over. -/
theorem none_asleep (hVigil : Vigil s) (hPhases : Phases s) {j : Nat} {ret : Pc}
    (hAt : s.at c = .wakeup a j ret) (hEnd : NPROC ≤ j) (p : Nat) : ¬ Asleep s p a := by
  intro hAsleep
  have hLe := hVigil.scan c a j ret hAt p hAsleep
  exact hPhases.asleep_state hAsleep (hVigil.bound p (Nat.le_trans hEnd hLe))

/- The counts a waiting process compares stay as they are. -/
theorem wakes_eq (hVigil : Vigil s) (h : Taken s s' c ch i) {p : Nat}
    (hWaits : Asleep s p a ∨ (s.pc p).pledged p = some a) : s'.data.wakes a = s.data.wakes a := by
  rcases h.wakes with hSame | ⟨b, j, ret, hAt, hEnd, hData⟩
  · rw [hSame]
  rw [hData]
  by_cases hab : a = b
  · subst hab
    rcases hWaits with hAsleep | hPledged
    · exact absurd hAsleep (hVigil.none_asleep h.phases hAt hEnd p)
    -- it holds the lock, so it is the one that wakes
    rcases h.phases.pledged_on h.locks hPledged with ⟨x, lk, hx, hGuard, hHeld⟩
    have hMine := h.locks.wakeup_holds hAt hGuard
    rw [hHeld] at hMine
    cases hMine
    rw [State.at, hx] at hAt
    dsimp only at hAt
    rw [hAt] at hPledged
    exact absurd hPledged (hVigil.apart p a j ret hAt)
  · simp [Data.woke, hab]

theorem tested_eq (h : Taken s s' c ch i) {p : Nat}
    (hWaits : Asleep s p a ∨ (s.pc p).pledged p = some a) : s'.data.tested p = s.data.tested p := by
  rcases h.tested p with hSame | ⟨hSelf, hTest⟩
  · exact hSame
  · have hAt : s.at c = s.pc p := by rw [State.at, hSelf]
    rw [hAt] at hTest
    rcases hWaits with ⟨hBed, _⟩ | hPledged
    · rcases hTest with ⟨L, hPc⟩ | ⟨_, _, _, hPc⟩ <;> rw [hPc] at hBed <;> cases hBed
    · rcases hTest with ⟨L, hPc⟩ | ⟨_, _, _, hPc⟩ <;> rw [hPc] at hPledged <;> cases hPledged

section

variable (hVigil : Vigil s) (h : Taken s s' c ch i)
include hVigil h

theorem step_pledged (p : Nat) (a : Chan) (hPledged : (s'.pc p).pledged p = some a) :
    s'.data.tested p = s'.data.wakes a := by
  have hBefore : (s.pc p).pledged p = some a ∨ s'.data.tested p = s'.data.wakes a := by
    rcases h.pc_cases p with ⟨hSelf, _, hNext⟩ | ⟨_, hSame⟩ | ⟨_, hNew⟩
    · rw [hNext] at hPledged
      rcases fetch_self h.locks hSelf h.fetch with
        hCode | ⟨_, _, hCase⟩
      · rw [exec_data h.exec]
        exact code_pledged (h.locks.ok p) hCode hPledged
      · rcases hCase with ⟨m, hInside⟩ | hYield
        · rw [hInside] at hPledged
          cases hPledged
        · rw [hYield] at hPledged
          cases hPledged
    · rw [hSame] at hPledged
      exact .inl hPledged
    · rw [hNew] at hPledged
      cases hPledged
  rcases hBefore with hOld | hNow
  · rw [tested_eq h (.inr hOld), hVigil.wakes_eq h (.inr hOld)]
    exact hVigil.pledged p a hOld
  · exact hNow

theorem step_asleep (p : Nat) (a : Chan) (hAsleep : Asleep s' p a) :
    s'.data.tested p = s'.data.wakes a := by
  rcases h.asleep_before hAsleep with ⟨hOld, _⟩ | ⟨_, hPledged, hData, _⟩
  · rw [tested_eq h (.inl hOld), hVigil.wakes_eq h (.inl hOld)]
    exact hVigil.asleep p a hOld
  · rw [hData]
    exact hVigil.pledged p a hPledged

theorem step_apart (p : Nat) (a : Chan) (j : Nat) (ret : Pc) (hPc : s'.pc p = .wakeup a j ret) :
    ret.pledged p ≠ some a := by
  rcases h.pc_cases p with ⟨hSelf, _, hNext⟩ | ⟨_, hSame⟩ | ⟨_, hNew⟩
  · rw [hNext] at hPc
    rcases fetch_self h.locks hSelf h.fetch with
      hCode | ⟨_, _, hCase⟩
    · rcases code_scan (h.locks.ok p) hCode hPc with ⟨_, hApart⟩ | ⟨k, _, hOld, _⟩
      · exact hApart p
      · exact hVigil.apart p a k ret hOld
    · rcases hCase with ⟨m, hInside⟩ | hYield
      · rw [hInside] at hPc
        cases hPc
      · rw [hYield] at hPc
        cases hPc
  · exact hVigil.apart p a j ret (hSame ▸ hPc)
  · rw [hNew] at hPc
    cases hPc

end

/- Nobody else writes the channel of a sleeping process. -/
theorem chan_eq (h : Taken s s' c ch i) {p : Nat} (hOther : (s.cpu c).stack ≠ some p)
    (hAsleep : (s.data.slot p).state = .sleeping) :
    (s'.data.slot p).chan = (s.data.slot p).chan := by
  rcases h.edit p with hSame | hEdit
  · rw [hSame]
  generalize s'.data.slot p = x at hEdit ⊢
  cases hEdit with
  | sleep hSelf _ _ => exact absurd hSelf hOther
  | awake hSelf _ _ => exact absurd hSelf hOther
  | rouse _ _ _ _ =>
    unfold Slot.rouse
    split <;> rfl
  | free hAt _ =>
    have hUsed := h.phases.at_embryo h.locks (k := p) (by rw [hAt]; rfl)
    rw [hAsleep] at hUsed
    cases hUsed.1
  | reap _ hZombie _ _ =>
    rw [hAsleep] at hZombie
    cases hZombie
  | _ => rfl

section

variable (hVigil : Vigil s) (h : Taken s s' c ch i)
include hVigil h

theorem step_chan (p : Nat) (a : Chan) (lk : Lock) (ret : Pc)
    (hPc : s'.pc p = .sleepSwitch a lk ret ∨
      (s'.pc p = .sleepBack a lk ret ∧ (s'.data.slot p).state = .sleeping)) :
    (s'.data.slot p).chan = a := by
  rcases h.pc_cases p with ⟨hSelf, _, hNext⟩ | ⟨hOther, hSame⟩ | ⟨_, hNew⟩
  · have hPoint : i.next = .sleepSwitch a lk ret ∨ i.next = .sleepBack a lk ret := by
      rw [hNext] at hPc
      exact hPc.imp_right And.left
    rw [exec_data h.exec]
    rcases fetch_self h.locks hSelf h.fetch with
      hCode | ⟨_, _, hCase⟩
    · rcases code_chan (h.locks.ok p) hCode hPoint with
        hChan | ⟨hOld, hData⟩
      · exact hChan
      · rw [hData]
        exact hVigil.chan p a lk ret (.inl hOld)
    · rcases hCase with ⟨m, hInside⟩ | hYield
      · rw [hInside] at hPoint
        rcases hPoint with hPoint | hPoint <;> cases hPoint
      · rw [hYield] at hPoint
        rcases hPoint with hPoint | hPoint <;> cases hPoint
  · rw [hSame] at hPc
    have hAsleep : (s.data.slot p).state = .sleeping := by
      rcases hPc with hPc | ⟨_, hAsleep⟩
      · by_cases hOff : Off s p
        · have hParked := h.phases.parked p hOff
          rw [hPc] at hParked
          cases hParked
        · rcases not_forall_not.1 hOff with ⟨x, hx⟩
          rw [h.phases.active x p hx, hPc]
          rfl
      · exact h.sleeping_before hOther hAsleep
    rw [chan_eq h hOther hAsleep]
    refine hVigil.chan p a lk ret ?_
    rcases hPc with hPc | ⟨hPc, _⟩
    · exact .inl hPc
    · exact .inr ⟨hPc, hAsleep⟩
  · rw [hNew] at hPc
    rcases hPc with hPc | ⟨hPc, _⟩ <;> cases hPc

/- The sleeper `wakeup` passes is asleep no longer. -/
theorem not_asleep_of_rouse {p : Nat} (hOther : (s.cpu c).stack ≠ some p)
    (hNeeds : i.needs = some (.proc p)) (hSlot : (i.data s.data).slot p = (s.data.slot p).rouse a)
    (hOld : Asleep s p a) : ¬ Asleep s' p a := by
  intro hNew
  have hFree := exec_free h.exec hNeeds
  -- with its lock free, it is off the CPUs
  have hOff : Off s p := by
    intro x hx
    have hRunning := h.phases.running h.locks hx hFree
    have hHeld : Lock.proc p ∉ (s.pc p).held (some p) := by
      intro hHeld
      rw [h.locks.holds hx hHeld] at hFree
      cases hFree
    rcases hOld with ⟨hBed, hRests⟩
    revert hBed hRests hHeld
    rw [hRunning]
    cases s.pc p <;> simp [Pc.bed, Pc.rests, Pc.held, ownLock]
  have hParked := h.phases.parked p hOff
  rcases hOld with ⟨hBed, hRests⟩
  cases hPc : s.pc p with
  | sleepBack b lk ret =>
    rw [hPc] at hBed hRests
    cases hBed
    have hAsleep := hRests rfl
    have hChan := hVigil.chan p a lk ret (.inr ⟨hPc, hAsleep⟩)
    have hAwake : (s'.data.slot p).state = .runnable := by
      rw [exec_data h.exec, hSlot, Slot.rouse, if_pos ⟨hAsleep, hChan⟩]
    have hSpawn : i.spawned ≠ some p := by
      intro hSpawn
      cases i <;> simp_all [Instr.spawned, Instr.needs]
    have hRest := hNew.2
    rw [exec_other h.exec hOther hSpawn, hPc] at hRest
    rw [hAwake] at hRest
    cases hRest rfl
  | _ =>
    rw [hPc] at hParked hBed
    simp_all [Pc.parked, Pc.bed]

theorem step_scan (x : Nat) (a : Chan) (j : Nat) (ret : Pc) (hAt : s'.at x = .wakeup a j ret)
    (p : Nat) (hAsleep : Asleep s' p a) : j ≤ p := by
  by_cases hx : x = c
  · subst hx
    have hNext := h.at_self hAt
    -- the scan passes a slot, and whoever slept there wakes
    have hOld : Asleep s p a := by
      rcases h.asleep_before hAsleep with ⟨hOld, _⟩ | ⟨_, _, _, _, _, hState⟩
      · exact hOld
      · rw [hNext] at hState
        cases hState
    have hOther : (s.cpu x).stack ≠ some p := by
      intro hSelf
      have hPc := h.phases.self_pc h.locks h.fetch h.exec hSelf
      rcases hAsleep with ⟨hBed, _⟩
      rw [hPc, hNext] at hBed
      cases hBed
    rcases fetch_cases h.fetch with hCode | ⟨_, hCase⟩
    · rcases code_scan (h.locks.ok_at x) hCode hNext with ⟨rfl, _⟩ | ⟨k, rfl, hBefore, hPass⟩
      · exact Nat.zero_le p
      · have hLe := hVigil.scan x a k ret hBefore p hOld
        refine Nat.lt_of_le_of_ne hLe ?_
        rintro rfl
        rcases hPass with hSelf | ⟨hNeeds, hSlot⟩
        · exact hOther hSelf
        · exact not_asleep_of_rouse hVigil h hOther hNeeds hSlot hOld hAsleep
    · rcases hCase with ⟨m, rfl⟩ | ⟨_, _, rfl⟩
      · cases hNext
      · cases hNext
  · -- a process that falls asleep now holds the lock
    rw [h.at_other hx] at hAt
    rcases h.asleep_before hAsleep with ⟨hOld, _⟩ | ⟨hSelf, hPledged, _, _⟩
    · exact hVigil.scan x a j ret hAt p hOld
    · rcases h.phases.pledged_on h.locks hPledged with ⟨y, lk, hy, hGuard, hHeld⟩
      have hMine := h.locks.wakeup_holds hAt hGuard
      rw [hHeld] at hMine
      cases hMine
      exact absurd (h.locks.unique x c p hy hSelf) hx

end

theorem step (hVigil : Vigil s) (hFamily : Family s) (h : Taken s s' c ch i) : Vigil s' where
  bound := hVigil.step_bound hFamily h
  chan := hVigil.step_chan h
  apart := hVigil.step_apart h
  pledged := hVigil.step_pledged h
  asleep := hVigil.step_asleep h
  scan := hVigil.step_scan h

end Vigil

---- Every Run

theorem boot_vigil : Vigil boot where
  bound p hOut := by
    have hp : p ≠ 0 := by
      rintro rfl
      exact absurd hOut (by decide)
    simp [boot, hp, Slot.empty]
  chan p a lk ret hPc := by
    rw [boot_pc] at hPc
    split at hPc <;> rcases hPc with hPc | ⟨hPc, _⟩ <;> cases hPc
  apart p a j ret hPc := by
    rw [boot_pc] at hPc
    split at hPc <;> cases hPc
  pledged p a hPledged := by
    rw [boot_pc] at hPledged
    split at hPledged <;> cases hPledged
  asleep p a hAsleep := rfl
  scan c a j ret hAt := by cases hAt

theorem Reachable.vigil {s : State} (hReach : Reachable s) : Vigil s := by
  induction hReach with
  | boot => exact boot_vigil
  | step c ch hReach hStep ih =>
    rcases Taken.of_step hReach hStep with ⟨i, hTaken⟩
    exact ih.step hReach.family hTaken

/- The points at which `sched` is called. -/
def Pc.entersSched : Pc → Bool
| .yieldSwitch _ => true
| .sleepSwitch _ _ _ => true
| .exitSwitch => true
| _ => false

theorem held_of_entersSched {p : Nat} {pc : Pc} (hEnters : pc.entersSched) :
    pc.held (some p) = [.proc p] := by
  cases pc <;> simp_all [Pc.entersSched, Pc.held, ownLock]

/- A sleeping process is asleep on its channel. -/
theorem Vigil.asleep_of_sleeping {s : State} (h : Vigil s) (hPhases : Phases s) {p : Nat}
    (hSleeping : (s.data.slot p).state = .sleeping) : Asleep s p (s.data.slot p).chan := by
  have hChan := h.chan p
  refine ⟨?_, fun _ => hSleeping⟩
  by_cases hOff : Off s p
  · have hParked := hPhases.parked p hOff
    rw [hSleeping] at hParked
    cases hPc : s.pc p with
    | sleepBack a lk ret =>
      rw [hChan a lk ret (.inr ⟨hPc, hSleeping⟩)]
      rfl
    | _ => simp [hPc, Pc.parked] at hParked
  · rcases not_forall_not.1 hOff with ⟨x, hx⟩
    have hActive := hPhases.active x p hx
    rw [hSleeping] at hActive
    cases hPc : s.pc p with
    | sleepSwitch a lk ret =>
      rw [hChan a lk ret (.inl hPc)]
      rfl
    | _ => simp [hPc, Pc.expects] at hActive

/-
  In every interleaving: no call of `wakeup` on the channel of
  a sleeping process has ended since the process last found
  its condition false; and whoever calls `sched` holds its own
  `p->lock` and no other lock.
-/
theorem no_lost_wakeup
    (s : State)
    (hReach : Reachable s) :
    (∀ p,
      (s.data.slot p).state = .sleeping →
      s.data.tested p = s.data.wakes (s.data.slot p).chan) ∧
    ∀ c p,
      (s.cpu c).stack = some p →
      (s.pc p).entersSched →
      (s.cpu c).noff = 1 ∧ ∀ l, s.lock l = some c ↔ l = .proc p := by
  rcases hReach.sound with ⟨hLocks, hPhases⟩
  have hVigil := hReach.vigil
  constructor
  · intro p hSleeping
    exact hVigil.asleep p _ (hVigil.asleep_of_sleeping hPhases hSleeping)
  intro c p hStack hEnters
  have hHeld := held_of_entersSched (p := p) hEnters
  have hAt : s.at c = s.pc p := by rw [State.at, hStack]
  constructor
  · rw [hLocks.noff c, hAt, hStack, hHeld]
    rfl
  · intro l
    rw [hLocks.holder l c, hAt, hStack, hHeld]
    exact List.mem_singleton

/-
  An interrupt on CPU 1 wakes the readers of a pipe and ends.
  Then the first process tests the pipe and goes to sleep.
-/
def sleepRun : List (Nat × Choice) :=
  [(0, .go), (0, .go), (1, .interrupt 0), (1, .wake 0)] ++
  List.replicate 65 (1, .go) ++
  [(1, .setCond 0 false), (1, .leave), (0, .loop (piperead 0)), (0, .go),
    (0, .go), (0, .go), (0, .go), (0, .go), (0, .go), (0, .go)]

theorem no_lost_wakeup_asleep :
    ∃ s,
      run sleepRun boot = some s ∧
      (s.data.slot 0).state = .sleeping ∧
      (s.data.slot 0).chan = .monitor 0 0 ∧
      s.data.wakes (.monitor 0 0) = 1 ∧
      s.data.tested 0 = 1 := by
  have hEnd : (run sleepRun boot).map (fun s =>
      ((s.data.slot 0).state, (s.data.slot 0).chan, s.data.wakes (.monitor 0 0))) =
      some (.sleeping, .monitor 0 0, 1) := by
    decide +kernel
  rcases Option.map_eq_some_iff.1 hEnd with ⟨s, hRun, hEq⟩
  simp only [Prod.mk.injEq] at hEq
  rcases hEq with ⟨hSleeping, hChan, hWakes⟩
  have hTested := (no_lost_wakeup s (Reachable.boot.run sleepRun hRun)).1 0 hSleeping
  rw [hChan, hWakes] at hTested
  exact ⟨s, hRun, hSleeping, hChan, hWakes, hTested⟩

end Xv6.Sched

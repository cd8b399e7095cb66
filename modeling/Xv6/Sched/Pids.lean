import Xv6.Sched.Reaping
import Mathlib.Logic.Function.Iterate

/-
  Process identifiers. `allocpid` hands out the values of a
  counter of type `int` and never looks at the pids in use.

  As long as the counter is positive, the pids of the table
  lie below it, so they are positive and different. A `fork`
  that runs out of memory takes a pid and gives its slot
  back, so one process can move the counter to any value.

  Main declarations:
    * `pids_unique`
    * `failed_fork`
    * `pids_repeat`
-/

namespace Xv6.Sched

---- Steps And Pids

variable {s s' : State} {c : Nat} {ch : Choice} {i : Instr}

theorem code_nextpid {d : Data} {self : Option Nat} {pc : Pc} (hCode : code d self ch pc = some i)
    (hAlloc : ∀ k, pc ≠ .forkAlloc k) : (i.data d).nextpid = d.nextpid := by
  cases self <;> cases pc <;>
    simp only [code, Option.map_some, Option.map_none] at hCode <;>
    (repeat' split at hCode) <;> cases hCode <;> first
      | rfl
      | exact absurd rfl (hAlloc _)

theorem Taken.nextpid (h : Taken s s' c ch i) (hAlloc : ∀ k, s.at c ≠ .forkAlloc k) :
    s'.data.nextpid = s.data.nextpid := by
  rw [exec_data h.exec]
  rcases fetch_cases h.fetch with hCode | ⟨_, hCase⟩
  · exact code_nextpid hCode hAlloc
  · rcases hCase with ⟨m, rfl⟩ | ⟨_, _, rfl⟩
    · rfl
    · rfl

theorem Taken.pid (h : Taken s s' c ch i) (p : Nat) (hAlloc : s.at c ≠ .forkAlloc p)
    (hUsed : (s'.data.slot p).state ≠ .unused) :
    (s.data.slot p).state ≠ .unused ∧ (s'.data.slot p).pid = (s.data.slot p).pid := by
  have hSelf : (s.cpu c).stack = some p → (s.data.slot p).state ≠ .unused :=
    fun hSelf => (Family.self_state h hSelf).1
  rcases h.edit p with hSame | hEdit
  · rw [hSame] at hUsed ⊢
    exact ⟨hUsed, rfl⟩
  generalize s'.data.slot p = x at hEdit hUsed ⊢
  cases hEdit with
  | setkilled _ _ _ => exact ⟨hUsed, rfl⟩
  | dispatch _ hOld => exact ⟨by simp [hOld], rfl⟩
  | yield hOwn _ _ => exact ⟨hSelf hOwn, rfl⟩
  | sleep hOwn _ _ => exact ⟨hSelf hOwn, rfl⟩
  | awake _ _ _ => exact ⟨hUsed, rfl⟩
  | @rouse ch _ _ _ _ _ =>
    refine ⟨?_, ?_⟩
    · rcases rouse_state (s.data.slot p) ch with
        hSame | ⟨hAsleep, _⟩
      · rw [hSame] at hUsed
        exact hUsed
      · simp [hAsleep]
    · unfold Slot.rouse
      split
      · rfl
      · rfl
  | kill _ _ _ _ =>
    refine ⟨?_, rfl⟩
    rcases kill_state (s.data.slot p) with
      hSame | ⟨hAsleep, _⟩
    · rw [hSame] at hUsed
      exact hUsed
    · simp [hAsleep]
  | alloc hAt _ _ => exact absurd hAt hAlloc
  | free _ _ => exact absurd rfl hUsed
  | adopt _ _ _ _ => exact ⟨hUsed, rfl⟩
  | run hAt _ _ =>
    have hOld := h.phases.at_embryo h.locks (k := p) (by rw [hAt]; rfl)
    exact ⟨by simp [hOld.1], rfl⟩
  | reparent _ _ _ _ => exact ⟨hUsed, rfl⟩
  | exit hOwn _ _ => exact ⟨hSelf hOwn, rfl⟩
  | reap _ _ _ _ => exact absurd rfl hUsed

---- Runs With A Positive Counter

/- The states of the runs in which every `allocpid` finds the counter positive. -/
inductive Counted : State → Prop where
  | boot : Counted boot
  | step {s s' : State}
      (c : Nat) (ch : Choice) (hCounted : Counted s)
      (hPositive : ∀ k, s.at c = .forkAlloc k → 0 < s.data.nextpid)
      (hStep : step s c ch = some s') : Counted s'

theorem Counted.reachable {s : State} (h : Counted s) : Reachable s := by
  induction h with
  | boot => exact .boot
  | step c ch _ _ hStep ih => exact .step c ch ih hStep

/-
  The pids in use are positive and different, and lie below
  the counter until that has wrapped around.
-/
structure Pids (s : State) : Prop where
  small : s.data.nextpid < 2 ^ 31
  positive : ∀ p, (s.data.slot p).state ≠ .unused → 0 < (s.data.slot p).pid
  below : ∀ p,
    (s.data.slot p).state ≠ .unused → 0 < s.data.nextpid → (s.data.slot p).pid < s.data.nextpid
  distinct : ∀ p q, (s.data.slot p).state ≠ .unused →
    (s.data.slot q).state ≠ .unused → (s.data.slot p).pid = (s.data.slot q).pid → p = q

theorem incr_lt (n : Int) : incr n < 2 ^ 31 := by
  simp only [incr, Int.bmod]
  split <;> omega

theorem incr_of_pos {n : Int} (hPos : 0 < n) (hSmall : n < 2 ^ 31) (hNext : 0 < incr n) :
    incr n = n + 1 := by
  simp only [incr, Int.bmod] at *
  split at hNext <;> omega

theorem boot_pids : Pids boot where
  small := by decide
  positive := by
    intro p hUsed
    by_cases hp : p = 0
    · simp [boot, hp]
    · simp [boot, hp, Slot.empty] at hUsed
  below := by
    intro p hUsed _
    by_cases hp : p = 0
    · simp [boot, hp]
    · simp [boot, hp, Slot.empty] at hUsed
  distinct := by
    have hZero : ∀ p, (boot.data.slot p).state ≠ .unused → p = 0 := by
      intro p hUsed
      by_contra hp
      simp [boot, hp, Slot.empty] at hUsed
    intro p q hp hq _
    rw [hZero p hp, hZero q hq]

theorem Pids.alloc {k : Nat} (h : Pids s) (hPositive : 0 < s.data.nextpid)
    (hData : s'.data = s.data.alloc k) : Pids s' := by
  have hNext : s'.data.nextpid = incr s.data.nextpid := by
    rw [hData]
    rfl
  have hNew : (s'.data.slot k).pid = s.data.nextpid := by
    rw [hData]
    simp [Data.alloc, Data.modify]
  have hOld : ∀ p, p ≠ k → s'.data.slot p = s.data.slot p := by
    intro p hp
    rw [hData]
    simp [Data.alloc, Data.modify, hp]
  refine ⟨?_, ?_, ?_, ?_⟩
  · rw [hNext]
    exact incr_lt _
  · intro p hUsed
    by_cases hp : p = k
    · rw [hp, hNew]
      exact hPositive
    · rw [hOld p hp] at hUsed ⊢
      exact h.positive p hUsed
  · intro p hUsed hPos
    rw [hNext] at hPos ⊢
    have hGrow := incr_of_pos hPositive h.small hPos
    by_cases hp : p = k
    · rw [hp, hNew]
      omega
    · rw [hOld p hp] at hUsed ⊢
      have hLt := h.below p hUsed hPositive
      omega
  · intro p q hUsed hUsed' hEq
    by_cases hp : p = k
    · by_cases hq : q = k
      · rw [hp, hq]
      · rw [hp, hNew, hOld q hq] at hEq
        rw [hOld q hq] at hUsed'
        have hLt := h.below q hUsed' hPositive
        omega
    · rw [hOld p hp] at hUsed hEq
      by_cases hq : q = k
      · rw [hq, hNew] at hEq
        have hLt := h.below p hUsed hPositive
        omega
      · rw [hOld q hq] at hUsed' hEq
        exact h.distinct p q hUsed hUsed' hEq

theorem Pids.keep (h : Pids s) (hTaken : Taken s s' c ch i) (hAlloc : ∀ k, s.at c ≠ .forkAlloc k) :
    Pids s' := by
  have hPid := fun p => hTaken.pid p (hAlloc p)
  have hNext := hTaken.nextpid hAlloc
  refine ⟨?_, ?_, ?_, ?_⟩
  · rw [hNext]
    exact h.small
  · intro p hUsed
    rw [(hPid p hUsed).2]
    exact h.positive p (hPid p hUsed).1
  · intro p hUsed hPos
    rw [hNext] at hPos ⊢
    rw [(hPid p hUsed).2]
    exact h.below p (hPid p hUsed).1 hPos
  · intro p q hUsed hUsed' hEq
    rw [(hPid p hUsed).2, (hPid q hUsed').2] at hEq
    exact h.distinct p q (hPid p hUsed).1 (hPid q hUsed').1 hEq

theorem Pids.step (h : Pids s) (hTaken : Taken s s' c ch i)
    (hPositive : ∀ k, s.at c = .forkAlloc k → 0 < s.data.nextpid) : Pids s' := by
  by_cases hAlloc : ∃ k, s.at c = .forkAlloc k
  · rcases hAlloc with ⟨k, hAt⟩
    refine h.alloc (k := k) (hPositive k hAt) ?_
    rw [exec_data hTaken.exec]
    rcases fetch_cases hTaken.fetch with hCode | ⟨hOff, _⟩
    · rw [hAt] at hCode
      cases hCode
      rfl
    · rw [hTaken.locks.noff c, hAt] at hOff
      cases hOff
  · exact h.keep hTaken (not_exists.mp hAlloc)

theorem Counted.pids {s : State} (h : Counted s) : Pids s := by
  induction h with
  | boot => exact boot_pids
  | step c ch hCounted hPositive hStep ih =>
    rcases Taken.of_step hCounted.reachable hStep with ⟨i, hTaken⟩
    exact ih.step hTaken hPositive

/-
  In every run whose calls of `allocpid` all find the counter
  positive: the pids of the processes are positive and
  different, and so is the one that `fork` will return.
-/
theorem pids_unique
    (s : State)
    (hCounted : Counted s) :
    (∀ p, (s.data.slot p).state ≠ .unused → 0 < (s.data.slot p).pid) ∧
    (∀ p q,
      (s.data.slot p).state ≠ .unused →
      (s.data.slot q).state ≠ .unused →
      (s.data.slot p).pid = (s.data.slot q).pid →
      p = q) ∧
    ∀ p k, (s.pc p).embryo = some k → 0 < (s.data.slot k).pid := by
  have hPids := hCounted.pids
  refine ⟨hPids.positive, hPids.distinct, ?_⟩
  intro p k hEmbryo
  have hUsed := (hCounted.reachable.sound.2.embryo p k hEmbryo).1
  exact hPids.positive k (by simp [hUsed])

theorem Counted.next {s s' : State} (h : Counted s) (c : Nat) (ch : Choice)
    (hPositive : 0 < s.data.nextpid) (hStep : Sched.step s c ch = some s') : Counted s' :=
  .step c ch h (fun _ _ => hPositive) hStep

/- The first process has called `fork`. -/
theorem pids_unique_fork :
    ∃ s, Counted s ∧ (s.data.slot 1).state = .used ∧ 0 < (s.data.slot 1).pid ∧
      (s.data.slot 0).pid ≠ (s.data.slot 1).pid := by
  have hRun :
      ∃ s, Counted s ∧ (s.data.slot 0).state = .running ∧ (s.data.slot 1).state = .used := by
    have h₁ := Counted.boot.next 0 .go (by decide) rfl
    have h₂ := h₁.next 0 .go (by decide) rfl
    have h₃ := h₂.next 0 .fork (by decide) rfl
    have h₄ := h₃.next 0 .go (by decide) rfl
    have h₅ := h₄.next 0 .go (by decide) rfl
    have h₆ := h₅.next 0 .go (by decide) rfl
    exact ⟨_, h₆, rfl, rfl⟩
  rcases hRun with ⟨s, hCounted, hFirst, hSecond⟩
  have hUnique := pids_unique s hCounted
  refine ⟨s, hCounted, hSecond, ?_, ?_⟩
  · exact hUnique.1 1 (by simp [hSecond])
  · intro hEq
    have hSame := hUnique.2.1 0 1 (by simp [hFirst]) (by simp [hSecond]) hEq
    cases hSame

---- Beyond The Last Positive Value

/-
  CPU 0 executes the first process at `pc` with the counter
  at `n`, and the locks of the first two slots are free.
-/
structure Lone (s : State) (pc : Pc) (n : Int) : Prop where
  stack : (s.cpu 0).stack = some 0
  pc : s.pc 0 = pc
  nextpid : s.data.nextpid = n
  state : (s.data.slot 0).state = .running
  pid : (s.data.slot 0).pid = 1
  lock : s.lock (.proc 0) = none

/- Slot 1 is free and nobody has its lock. -/
def Vacant (s : State) : Prop := (s.data.slot 1).state = .unused ∧ s.lock (.proc 1) = none

variable {n : Int}

section

theorem Lone.fetch {pc : Pc} {ch : Choice} (h : Lone s pc n)
    (hCode : fetch s 0 ch = code s.data (s.cpu 0).stack ch (s.at 0)) :
    fetch s 0 ch = code s.data (some 0) ch pc := by
  have hAt : s.at 0 = pc := by
    unfold State.at
    rw [h.stack]
    exact h.pc
  rw [hCode, hAt, h.stack]

theorem Lone.goto {pc next : Pc} {d : Data} (h : Lone s pc n) (hFirst : d.slot 0 = s.data.slot 0) :
    Lone ((s.withData d).goto 0 next) next d.nextpid := by
  have hStack : ((s.withData d).cpu 0).stack = some 0 := h.stack
  refine ⟨?_, goto_pc_self next hStack, ?_, ?_, ?_, ?_⟩
  · rw [goto_stack]
    exact hStack
  · rw [goto_data]
    rfl
  · rw [goto_data]
    show (d.slot 0).state = _
    rw [hFirst, h.state]
  · rw [goto_data]
    show (d.slot 0).pid = _
    rw [hFirst, h.pid]
  · rw [goto_lock]
    exact h.lock

theorem Lone.congr {pc : Pc} (h : Lone s pc n) (hStack : (s'.cpu 0).stack = (s.cpu 0).stack)
    (hPc : s'.pc 0 = s.pc 0) (hData : s'.data = s.data)
    (hLock : s'.lock (.proc 0) = s.lock (.proc 0)) : Lone s' pc n := by
  refine ⟨?_, ?_, ?_, ?_, ?_, ?_⟩
  · rw [hStack, h.stack]
  · rw [hPc, h.pc]
  · rw [hData, h.nextpid]
  · rw [hData, h.state]
  · rw [hData, h.pid]
  · rw [hLock, h.lock]

theorem Lone.next {pc next : Pc} {ch : Choice} (h : Lone s pc n)
    (hStep : step s 0 ch = some ((s.withData s.data).goto 0 next)) :
    ∃ s', step s 0 ch = some s' ∧ Lone s' next n ∧ s'.data = s.data ∧ s'.lock = s.lock := by
  refine ⟨_, hStep, h.nextpid ▸ h.goto rfl, ?_, ?_⟩
  · rw [goto_data]
    rfl
  · rw [goto_lock]
    rfl

variable (hReach : Reachable s) (h : Lone s .user n) (hVacant : Vacant s)
include hReach h hVacant

/- The first process calls `fork`, which finds slot 1 free and takes its lock. -/
theorem fork_finds :
    ∃ s', Reachable s' ∧ Lone s' (.forkAlloc 1) n ∧ s'.lock (.proc 1) = some 0 := by
  have hCall : step s 0 .fork = some ((s.withData s.data).goto 0 (.forkScan 0)) := by
    rw [step, h.fetch rfl]
    rfl
  rcases h.next hCall with ⟨s₁, hStep₁, h₁, hData₁, hLock₁⟩
  have hFirst : step s₁ 0 .go = some ((s₁.withData s₁.data).goto 0 (.forkScan 1)) := by
    rw [step, h₁.fetch rfl, code, if_pos (by decide), if_neg (by rw [h₁.state]; decide)]
    exact if_pos h₁.lock
  rcases h₁.next hFirst with ⟨s₂, hStep₂, h₂, hData₂, hLock₂⟩
  have hStep₃ : step s₂ 0 .go = some ((s₂.goto 0 (.forkAlloc 1)).hold 0 (.proc 1)) := by
    have hFree : (s₂.data.slot 1).state = .unused := by
      rw [hData₂, hData₁]
      exact hVacant.1
    have hLock : s₂.lock (.proc 1) = none := by
      rw [hLock₂, hLock₁]
      exact hVacant.2
    rw [step, h₂.fetch rfl, code, if_pos (by decide), if_pos hFree]
    exact if_pos hLock
  refine ⟨(s₂.goto 0 (.forkAlloc 1)).hold 0 (.proc 1), ?_, ?_, ?_⟩
  · exact ((hReach.step _ _ hStep₁).step _ _ hStep₂).step _ _ hStep₃
  · have h₃ : Lone ((s₂.withData s₂.data).goto 0 (.forkAlloc 1)) (.forkAlloc 1) n :=
      h₂.nextpid ▸ h₂.goto rfl
    refine h₃.congr hold_stack rfl rfl ?_
    simp [State.hold, State.withData]
  · simp [State.hold]

theorem fork_takes :
    ∃ s', Reachable s' ∧ Lone s' (.forkBuild 1) (incr n) ∧ (s'.data.slot 1).state = .used ∧
      (s'.data.slot 1).pid = n ∧ s'.lock (.proc 1) = some 0 := by
  rcases fork_finds hReach h hVacant with ⟨s₁, hReach₁, h₁, hLock⟩
  have h₂ : Lone ((s₁.withData (s₁.data.alloc 1)).goto 0 (.forkBuild 1)) (.forkBuild 1) (incr n) :=
    h₁.nextpid ▸ h₁.goto (by simp [Data.alloc])
  have hData₂ : ((s₁.withData (s₁.data.alloc 1)).goto 0 (.forkBuild 1)).data = s₁.data.alloc 1 := by
    rw [goto_data]
    rfl
  have hLock₂ : ((s₁.withData (s₁.data.alloc 1)).goto 0 (.forkBuild 1)).lock = s₁.lock := by
    rw [goto_lock]
    rfl
  have hStep : step s₁ 0 .go = (some ((s₁.withData (s₁.data.alloc 1)).goto 0
      (.forkBuild 1))).map fun t =>
        { t with pc := Function.update t.pc 1 .forkret } := by
    rw [step, h₁.fetch rfl]
    rfl
  generalize (s₁.withData (s₁.data.alloc 1)).goto 0 (.forkBuild 1) = t at *
  have hOther : Function.update t.pc 1 .forkret 0 = t.pc 0 :=
    Function.update_of_ne Nat.zero_ne_one _ _
  refine ⟨{ t with pc := Function.update t.pc 1 .forkret },
    hReach₁.step _ _ hStep, h₂.congr rfl hOther rfl rfl, ?_, ?_, ?_⟩
  · show (t.data.slot 1).state = _
    rw [hData₂]
    simp [Data.alloc]
  · show (t.data.slot 1).pid = _
    rw [hData₂]
    simp [Data.alloc, h₁.nextpid]
  · show t.lock (.proc 1) = _
    rw [hLock₂, hLock]

theorem failed_fork : ∃ s', Reachable s' ∧ Lone s' .user (incr n) ∧ Vacant s' := by
  rcases fork_takes hReach h hVacant with ⟨s₁, hReach₁, h₁, _, _, hLock⟩
  have h₂ : Lone ((s₁.withData (s₁.data.modify 1 Slot.free)).goto 0 .user) .user (incr n) :=
    h₁.nextpid ▸ h₁.goto (by simp)
  have hStep : step s₁ 0 .fail =
      some (((s₁.withData (s₁.data.modify 1 Slot.free)).goto 0 .user).drop 0 (.proc 1)) := by
    rw [step, h₁.fetch rfl]
    exact if_pos hLock
  refine ⟨_, hReach₁.step _ _ hStep, ?_, ?_, ?_⟩
  · refine h₂.congr drop_stack rfl rfl ?_
    simp [State.drop]
  · show ((((s₁.withData (s₁.data.modify 1 Slot.free)).goto 0 .user).data.slot 1).state) = _
    rw [goto_data]
    show ((s₁.data.modify 1 Slot.free).slot 1).state = _
    simp [Slot.free]
  · simp [State.drop]

end

theorem lone_started : ∃ s, Reachable s ∧ Lone s .user 2 ∧ Vacant s := by
  have hReach := Reachable.boot.run [(0, .go), (0, .go)] rfl
  exact ⟨_, hReach, ⟨rfl, rfl, rfl, rfl, rfl, rfl⟩, rfl, rfl⟩

theorem lone_after (k : Nat) : ∃ s, Reachable s ∧ Lone s .user (incr^[k] 2) ∧ Vacant s := by
  induction k with
  | zero => exact lone_started
  | succ k ih =>
    rcases ih with ⟨s, hReach, hLone, hVacant⟩
    rw [Function.iterate_succ_apply']
    exact failed_fork hReach hLone hVacant

theorem iterate_incr (k : Nat) : incr^[k] 2 = Int.bmod (2 + k) (2 ^ 32) := by
  induction k with
  | zero => decide
  | succ k ih =>
    rw [Function.iterate_succ_apply', ih]
    unfold incr
    rw [Int.bmod_add_bmod]
    congr 1

/-
  After `2 ^ 31 - 2` failing forks the next one gives its
  child a negative pid, and after `2 ^ 32 - 1` of them it
  gives it the pid of the first process.
-/
theorem pids_repeat :
    (∃ s, Reachable s ∧ (s.data.slot 1).state = .used ∧ (s.data.slot 1).pid < 0) ∧
    ∃ s, Reachable s ∧ (s.data.slot 0).state = .running ∧ (s.data.slot 1).state = .used ∧
      (s.data.slot 0).pid = (s.data.slot 1).pid := by
  refine ⟨?_, ?_⟩
  · rcases lone_after (2 ^ 31 - 2) with ⟨s, hReach, hLone, hVacant⟩
    rcases fork_takes hReach hLone hVacant with ⟨s', hReach', _, hUsed, hPid, _⟩
    refine ⟨s', hReach', hUsed, ?_⟩
    rw [hPid, iterate_incr]
    decide
  · rcases lone_after (2 ^ 32 - 1) with ⟨s, hReach, hLone, hVacant⟩
    rcases fork_takes hReach hLone hVacant with ⟨s', hReach', hLone', hUsed, hPid, _⟩
    refine ⟨s', hReach', hLone'.state, hUsed, ?_⟩
    rw [hPid, hLone'.pid, iterate_incr]
    decide

end Xv6.Sched

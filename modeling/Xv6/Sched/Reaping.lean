import Xv6.Sched.Family

/-
  What `wait` returns: each exited process once, to its
  parent, with the status it passed to `exit`, and only after
  it has left its kernel stack.

  Main declarations:
    * `Ledger`
    * `Ledger.step`
    * `exit_wait_agree`
-/

namespace Xv6.Sched

---- The Records of `exit` and `wait`

/-
  The processes in the table have distinct numbers, every
  zombie is recorded as `exit` left it, and `wait` returned
  each number at most once, as `exit` recorded it.
-/
structure Ledger (s : State) : Prop where
  lives : ∀ p, (s.data.slot p).state ≠ .unused → (s.data.slot p).life < s.data.lives
  distinct : ∀ p q, (s.data.slot p).state ≠ .unused →
    (s.data.slot q).state ≠ .unused → (s.data.slot p).life = (s.data.slot q).life → p = q
  exits : ∀ p, (s.data.slot p).state = .zombie →
    ((s.data.slot p).life, (s.data.slot p).pid, (s.data.slot p).xstate) ∈ s.data.exits
  past : ∀ e ∈ s.data.reaped, e.1 < s.data.lives
  alive : ∀ p, (s.data.slot p).state ≠ .unused → ∀ e ∈ s.data.reaped, e.1 ≠ (s.data.slot p).life
  nodup : (s.data.reaped.map Prod.fst).Nodup
  sub : ∀ e ∈ s.data.reaped, e ∈ s.data.exits

/- The steps that write to the records. -/
inductive Entry (d : Data) (self : Option Nat) (pc : Pc) (i : Instr) : Prop where
  | alloc (k : Nat) (hPc : pc = .forkAlloc k) (hData : i.data d = d.alloc k)
  | exit (p : Nat)
      (status : Int) (hSelf : self = some p) (hPc : pc = .exitState status)
      (hData : i.data d = d.exit p status)
  | reap (addr k : Nat)
      (hPc : pc = .waitChild addr k) (hOld : (d.slot k).state = .zombie)
      (hNeeds : i.needs = some (.proc k)) (hNext : i.next = .waitRelease)
      (hData : i.data d = d.reap k)

theorem code_entry {d : Data} {self : Option Nat} {ch : Choice} {pc : Pc} {i : Instr}
    (hCode : code d self ch pc = some i) :
    Entry d self pc i ∨ ((i.data d).lives = d.lives ∧ (i.data d).exits = d.exits ∧
      (i.data d).reaped = d.reaped ∧ (∀ k, pc ≠ .forkAlloc k) ∧
      ∀ status, pc ≠ .exitState status) := by
  cases self <;> cases pc <;>
    simp only [code, Option.map_some, Option.map_none] at hCode <;>
    (repeat' split at hCode) <;> cases hCode <;> first
      | exact .inr ⟨rfl, rfl, rfl, by rintro _ ⟨⟩, by rintro _ ⟨⟩⟩
      | exact .inl (.alloc _ rfl rfl)
      | exact .inl (.exit _ _ rfl rfl rfl)
      | exact .inl (.reap _ _ rfl (by assumption) rfl rfl rfl)

variable {s s' : State} {c : Nat} {ch : Choice} {i : Instr}

theorem Taken.entry (h : Taken s s' c ch i) :
    Entry s.data (s.cpu c).stack (s.at c) i ∨ (s'.data.lives = s.data.lives ∧
      s'.data.exits = s.data.exits ∧ s'.data.reaped = s.data.reaped ∧ (∀ k, s.at c ≠ .forkAlloc k) ∧
      ∀ status, s.at c ≠ .exitState status) := by
  rw [exec_data h.exec]
  rcases fetch_cases h.fetch with hCode | ⟨hOff, hCase⟩
  · exact code_entry hCode
  -- an interrupt finds no lock held
  rw [h.locks.noff c] at hOff
  have hHeld := List.length_eq_zero_iff.1 hOff
  have hAlloc : ∀ k, s.at c ≠ .forkAlloc k := by
    intro k hAt
    rw [hAt] at hHeld
    cases hHeld
  have hExit : ∀ status, s.at c ≠ .exitState status := by
    intro status hAt
    rw [hAt] at hHeld
    simp [Pc.held] at hHeld
  rcases hCase with ⟨m, rfl⟩ | ⟨_, _, rfl⟩
  all_goals exact .inr ⟨rfl, rfl, rfl, hAlloc, hExit⟩

theorem Taken.record (h : Taken s s' c ch i) (hAlloc : ∀ k, s.at c ≠ .forkAlloc k)
    (hExit : ∀ status, s.at c ≠ .exitState status) (p : Nat)
    (hUsed : (s'.data.slot p).state ≠ .unused) :
    (s.data.slot p).state ≠ .unused ∧ (s'.data.slot p).life = (s.data.slot p).life ∧
    ((s'.data.slot p).state = .zombie → (s.data.slot p).state = .zombie ∧
      (s'.data.slot p).pid = (s.data.slot p).pid ∧
      (s'.data.slot p).xstate = (s.data.slot p).xstate) := by
  have hSelf : (s.cpu c).stack = some p → (s.data.slot p).state ≠ .unused := fun hSelf =>
    (Family.self_state h hSelf).1
  rcases h.edit p with hSame | hEdit
  · rw [hSame] at hUsed ⊢
    exact ⟨hUsed, rfl, fun hZombie => ⟨hZombie, rfl, rfl⟩⟩
  generalize s'.data.slot p = x at hEdit hUsed ⊢
  cases hEdit with
  | setkilled _ _ _ => exact ⟨hUsed, rfl, fun hZombie => ⟨hZombie, rfl, rfl⟩⟩
  | dispatch _ hOld => exact ⟨by simp [hOld], rfl, nofun⟩
  | yield hOwn _ _ => exact ⟨hSelf hOwn, rfl, nofun⟩
  | sleep hOwn _ _ => exact ⟨hSelf hOwn, rfl, nofun⟩
  | awake _ _ _ => exact ⟨hUsed, rfl, fun hZombie => ⟨hZombie, rfl, rfl⟩⟩
  | rouse _ _ _ _ =>
    unfold Slot.rouse at hUsed ⊢
    split at hUsed
    · rename_i hAsleep
      rw [if_pos hAsleep]
      exact ⟨by simp [hAsleep.1], rfl, nofun⟩
    · rename_i hAwake
      rw [if_neg hAwake]
      exact ⟨hUsed, rfl, fun hZombie => ⟨hZombie, rfl, rfl⟩⟩
  | kill _ _ _ _ =>
    rcases kill_state (s.data.slot p) with
      hSame | ⟨hAsleep, hNew⟩
    · rw [hSame] at hUsed ⊢
      exact ⟨hUsed, rfl, fun hZombie => ⟨hZombie, rfl, rfl⟩⟩
    · rw [hNew]
      exact ⟨by simp [hAsleep], rfl, nofun⟩
  | alloc hAt _ _ => exact absurd hAt (hAlloc p)
  | free _ _ => exact absurd rfl hUsed
  | adopt _ _ _ _ => exact ⟨hUsed, rfl, fun hZombie => ⟨hZombie, rfl, rfl⟩⟩
  | run hAt _ _ =>
    have hOld := h.phases.at_embryo h.locks (k := p) (by rw [hAt]; rfl)
    exact ⟨by simp [hOld.1], rfl, nofun⟩
  | reparent _ _ _ _ => exact ⟨hUsed, rfl, fun hZombie => ⟨hZombie, rfl, rfl⟩⟩
  | exit _ hAt _ => exact absurd hAt (hExit _)
  | reap _ _ _ _ => exact absurd rfl hUsed

namespace Ledger

section

variable (hLedger : Ledger s)
include hLedger

theorem alloc {k : Nat} (hData : s'.data = s.data.alloc k) : Ledger s' := by
  have hSlot : ∀ p, p ≠ k → s'.data.slot p = s.data.slot p := by
    intro p hp
    rw [hData]
    simp [Data.alloc, hp]
  have hNew : (s'.data.slot k).life = s.data.lives ∧ (s'.data.slot k).state = .used := by
    rw [hData]
    simp [Data.alloc]
  have hLives : s'.data.lives = s.data.lives + 1 := by
    rw [hData]
    rfl
  have hExits : s'.data.exits = s.data.exits := by
    rw [hData]
    rfl
  have hReaped : s'.data.reaped = s.data.reaped := by
    rw [hData]
    rfl
  constructor
  case lives =>
    intro p hp
    rw [hLives]
    by_cases hk : p = k
    · rw [hk, hNew.1]
      exact Nat.lt_succ_self _
    · rw [hSlot p hk] at hp ⊢
      exact Nat.lt_succ_of_lt (hLedger.lives p hp)
  case distinct =>
    intro p q hp hq hEq
    by_cases hpk : p = k <;> by_cases hqk : q = k
    · rw [hpk, hqk]
    · rw [hSlot q hqk] at hq hEq
      rw [hpk, hNew.1] at hEq
      exact absurd hEq.symm (Nat.ne_of_lt (hLedger.lives q hq))
    · rw [hSlot p hpk] at hp hEq
      rw [hqk, hNew.1] at hEq
      exact absurd hEq (Nat.ne_of_lt (hLedger.lives p hp))
    · rw [hSlot p hpk] at hp hEq
      rw [hSlot q hqk] at hq hEq
      exact hLedger.distinct p q hp hq hEq
  case exits =>
    intro p hZombie
    by_cases hk : p = k
    · rw [hk, hNew.2] at hZombie
      cases hZombie
    · rw [hSlot p hk] at hZombie ⊢
      rw [hExits]
      exact hLedger.exits p hZombie
  case past =>
    intro e he
    rw [hReaped] at he
    rw [hLives]
    exact Nat.lt_succ_of_lt (hLedger.past e he)
  case alive =>
    intro p hp e he
    rw [hReaped] at he
    by_cases hk : p = k
    · rw [hk, hNew.1]
      exact Nat.ne_of_lt (hLedger.past e he)
    · rw [hSlot p hk] at hp ⊢
      exact hLedger.alive p hp e he
  case nodup =>
    rw [hReaped]
    exact hLedger.nodup
  case sub =>
    rw [hReaped, hExits]
    exact hLedger.sub

/-
  A step that leaves the numbers and the returned records
  alone, as `exit` and all others but `fork` and `wait` do.
-/
theorem keep (hSlot : ∀ p, (s'.data.slot p).state ≠ .unused → (s.data.slot p).state ≠ .unused ∧
      (s'.data.slot p).life = (s.data.slot p).life)
    (hZombie : ∀ p, (s'.data.slot p).state = .zombie →
      ((s'.data.slot p).life, (s'.data.slot p).pid, (s'.data.slot p).xstate) ∈ s'.data.exits)
    (hLives : s'.data.lives = s.data.lives) (hExits : ∀ e ∈ s.data.exits, e ∈ s'.data.exits)
    (hReaped : s'.data.reaped = s.data.reaped) : Ledger s' := by
  constructor
  case lives =>
    intro p hp
    rw [hLives, (hSlot p hp).2]
    exact hLedger.lives p (hSlot p hp).1
  case distinct =>
    intro p q hp hq hEq
    rw [(hSlot p hp).2, (hSlot q hq).2] at hEq
    exact hLedger.distinct p q (hSlot p hp).1 (hSlot q hq).1 hEq
  case exits => exact hZombie
  case past =>
    rw [hReaped, hLives]
    exact hLedger.past
  case alive =>
    intro p hp e he
    rw [hReaped] at he
    rw [(hSlot p hp).2]
    exact hLedger.alive p (hSlot p hp).1 e he
  case nodup =>
    rw [hReaped]
    exact hLedger.nodup
  case sub =>
    intro e he
    rw [hReaped] at he
    exact hExits e (hLedger.sub e he)

theorem reap {k : Nat} (hZombie : (s.data.slot k).state = .zombie) (hData : s'.data = s.data.reap k) :
    Ledger s' := by
  have hUsed : (s.data.slot k).state ≠ .unused := by simp [hZombie]
  have hSlot : ∀ p, (s'.data.slot p).state ≠ .unused → p ≠ k ∧ s'.data.slot p = s.data.slot p := by
    intro p hp
    rw [hData] at hp ⊢
    by_cases hk : p = k
    · simp [Data.reap, hk, Slot.free] at hp
    · exact ⟨hk, by simp [Data.reap, hk]⟩
  have hLives : s'.data.lives = s.data.lives := by
    rw [hData]
    rfl
  have hExits : s'.data.exits = s.data.exits := by
    rw [hData]
    rfl
  have hReaped : s'.data.reaped =
      ((s.data.slot k).life, (s.data.slot k).pid, (s.data.slot k).xstate) :: s.data.reaped := by
    rw [hData]
    rfl
  constructor
  case lives =>
    intro p hp
    rcases hSlot p hp with ⟨_, hSame⟩
    rw [hSame] at hp ⊢
    rw [hLives]
    exact hLedger.lives p hp
  case distinct =>
    intro p q hp hq hEq
    rcases hSlot p hp with ⟨_, hpSame⟩
    rcases hSlot q hq with ⟨_, hqSame⟩
    rw [hpSame] at hp hEq
    rw [hqSame] at hq hEq
    exact hLedger.distinct p q hp hq hEq
  case exits =>
    intro p hp
    rcases hSlot p (by simp [hp]) with ⟨_, hSame⟩
    rw [hSame] at hp ⊢
    rw [hExits]
    exact hLedger.exits p hp
  case past =>
    intro e he
    rw [hReaped] at he
    rw [hLives]
    rcases List.mem_cons.1 he with rfl | he
    · exact hLedger.lives k hUsed
    · exact hLedger.past e he
  case alive =>
    intro p hp e he
    rcases hSlot p hp with ⟨hk, hSame⟩
    rw [hSame] at hp ⊢
    rw [hReaped] at he
    rcases List.mem_cons.1 he with rfl | he
    · exact fun hEq => hk (hLedger.distinct p k hp hUsed hEq.symm)
    · exact hLedger.alive p hp e he
  case nodup =>
    rw [hReaped, List.map_cons, List.nodup_cons]
    refine ⟨fun hMem => ?_, hLedger.nodup⟩
    rcases List.mem_map.1 hMem with ⟨e, he, hEq⟩
    exact hLedger.alive k hUsed e he hEq
  case sub =>
    intro e he
    rw [hReaped] at he
    rw [hExits]
    rcases List.mem_cons.1 he with rfl | he
    · exact hLedger.exits k hZombie
    · exact hLedger.sub e he

theorem step (h : Taken s s' c ch i) : Ledger s' := by
  rcases h.entry with hEntry | hQuiet
  · cases hEntry with
    | alloc k _ hData => exact hLedger.alloc ((exec_data h.exec).trans hData)
    | exit p status hSelf hAt hData =>
      have hNew := (exec_data h.exec).trans hData
      have hUsed := (Family.self_state h hSelf).1
      refine hLedger.keep ?_ ?_ ?_ ?_ ?_
      · intro q hq
        rw [hNew] at hq ⊢
        by_cases hqp : q = p
        · rw [hqp]
          exact ⟨hUsed, by simp [Data.exit]⟩
        · simpa [Data.exit, hqp] using hq
      · intro q hq
        rw [hNew] at hq ⊢
        by_cases hqp : q = p
        · simp [Data.exit, hqp]
        · refine List.mem_cons_of_mem _ ?_
          simp only [Data.exit, modify_slot, if_neg hqp] at hq ⊢
          exact hLedger.exits q hq
      · rw [hNew]
        rfl
      · intro e he
        rw [hNew]
        exact List.mem_cons_of_mem _ he
      · rw [hNew]
        rfl
    | reap addr k _ hZombie _ _ hData => exact hLedger.reap hZombie ((exec_data h.exec).trans hData)
  · rcases hQuiet with ⟨hLives, hExits, hReaped, hAlloc, hExit⟩
    have hRecord := h.record hAlloc hExit
    refine hLedger.keep ?_ ?_ hLives ?_ hReaped
    · intro p hp
      exact ⟨(hRecord p hp).1, (hRecord p hp).2.1⟩
    · intro p hp
      rcases hRecord p (by simp [hp]) with ⟨_, hLife, hZombie⟩
      rcases hZombie hp with ⟨hOld, hPid, hXstate⟩
      rw [hLife, hPid, hXstate, hExits]
      exact hLedger.exits p hOld
    · intro e he
      rw [hExits]
      exact he

end

end Ledger

theorem boot_ledger : Ledger boot where
  lives p hp := by
    by_cases h0 : p = 0
    · simp [boot, h0, Slot.empty]
    · simp [boot, h0, Slot.empty] at hp
  distinct p q hp hq _ := by
    by_cases h0 : p = 0 <;> by_cases h1 : q = 0
    · rw [h0, h1]
    · simp [boot, h1, Slot.empty] at hq
    · simp [boot, h0, Slot.empty] at hp
    · simp [boot, h0, Slot.empty] at hp
  exits p hp := by
    by_cases h0 : p = 0 <;> simp [boot, h0, Slot.empty] at hp
  past e he := by simp [boot] at he
  alive p _ e he := by simp [boot] at he
  nodup := List.nodup_nil
  sub e he := by simp [boot] at he

theorem Reachable.ledger {s : State} (hReach : Reachable s) : Ledger s := by
  induction hReach with
  | boot => exact boot_ledger
  | step c ch hReach hStep ih =>
    rcases Taken.of_step hReach hStep with ⟨i, hTaken⟩
    exact ih.step hTaken

---- Agreement

theorem Family.parent_live (hFamily : Family s) (hPhases : Phases s) {j q : Nat}
    (hParent : (s.data.slot j).parent = some q) :
    (s.data.slot q).state ≠ .unused ∧ (s.data.slot q).state ≠ .zombie := by
  constructor
  · intro hUnused
    exact hFamily.childless q j (.inl hUnused) hParent
  · intro hZombie
    have hSwept := hPhases.swept_of_zombie hZombie j
    exact hFamily.swept q j hSwept hParent

/- Only a process that left its stack stops being a zombie. -/
theorem Taken.zombie_off (h : Taken s s' c ch i) {k : Nat}
    (hZombie : (s.data.slot k).state = .zombie) (hFreed : (s'.data.slot k).state ≠ .zombie) :
    Off s k := by
  intro x hStack
  rw [exec_data h.exec] at hFreed
  rcases fetch_shift h.fetch k with hSame | hShift
  · exact hFreed (hSame.trans hZombie)
  · have hOwn := h.phases.own_shift h.locks h.exec hStack hShift
    have hMove := h.phases.transition h.locks hShift
    rw [hZombie, hOwn.2] at hMove
    have hNe := expects_ne_unused i.next
    generalize i.next.expects = new at hMove hNe
    cases hMove
    exact hNe.1 rfl

theorem Taken.copyout_fails (h : Taken s s' c .fail i) {p addr k : Nat}
    (hStack : (s.cpu c).stack = some p) (hPc : s.pc p = .waitChild addr k)
    (hZombie : (s.data.slot k).state = .zombie) (hAddr : addr ≠ 0) : s'.data = s.data := by
  have hCode := h.fetch
  simp only [Sched.fetch, State.at, hStack, hPc, code, if_pos hZombie, if_pos hAddr] at hCode
  rw [exec_data h.exec]
  cases hCode
  rfl

/-
  In every interleaving of `fork`, `exit`, `wait` and `kill`:

  Every process but the first has a parent that is neither
  free nor a zombie, whether `wait_lock` is held or not.

  `wait` has returned no process twice, and each one as it
  called `exit`.

  In each step, what `exit` records is its process and the
  status it was passed; what `wait` returns is a zombie whose
  parent is the caller; a failed `copyout` changes nothing;
  and a zombie's slot is freed only when its kernel stack is
  on no CPU.
-/
theorem exit_wait_agree
    (s : State)
    (hReach : Reachable s) :
    (∀ p,
      (s.data.slot p).state ∈ [.runnable, .running, .sleeping, .zombie] →
      p ≠ s.data.initproc →
      ∃ q,
        (s.data.slot p).parent = some q ∧
        (s.data.slot q).state ≠ .unused ∧
        (s.data.slot q).state ≠ .zombie) ∧
    (s.data.reaped.map Prod.fst).Nodup ∧
    (∀ e ∈ s.data.reaped, e ∈ s.data.exits) ∧
    ∀ c ch s',
      step s c ch = some s' →
      (s'.data.exits = s.data.exits ∨
        ∃ p status,
          (s.cpu c).stack = some p ∧
          s.pc p = .exitState status ∧
          s'.data.exits =
            ((s.data.slot p).life, (s.data.slot p).pid, status) :: s.data.exits) ∧
      (s'.data.reaped = s.data.reaped ∨
        ∃ p addr k,
          (s.cpu c).stack = some p ∧
          s.pc p = .waitChild addr k ∧
          (s.data.slot k).parent = some p ∧
          (s.data.slot k).state = .zombie ∧
          s'.data.reaped =
            ((s.data.slot k).life, (s.data.slot k).pid,
              (s.data.slot k).xstate) :: s.data.reaped) ∧
      (∀ p addr k,
        (s.cpu c).stack = some p →
        s.pc p = .waitChild addr k →
        (s.data.slot k).state = .zombie →
        addr ≠ 0 →
        ch = .fail →
        s'.data = s.data) ∧
      ∀ k,
        (s.data.slot k).state = .zombie →
        (s'.data.slot k).state ≠ .zombie →
        Off s k := by
  have hFamily := hReach.family
  have hLedger := hReach.ledger
  refine ⟨?_, hLedger.nodup, hLedger.sub, ?_⟩
  · intro p hState hInit
    have hParent := hFamily.parented p (by rintro hEq; simp [hEq] at hState)
      (by rintro hEq; simp [hEq] at hState) hInit
    rcases Option.ne_none_iff_exists'.1 hParent with ⟨q, hq⟩
    exact ⟨q, hq, hFamily.parent_live hReach.sound.2 hq⟩
  intro c ch s' hStep
  rcases Taken.of_step hReach hStep with ⟨i, h⟩
  refine ⟨?_, ?_, ?_, ?_⟩
  · rcases h.entry with hEntry | ⟨_, hExits, _⟩
    · rw [exec_data h.exec]
      cases hEntry with
      | alloc k _ hData => exact .inl (by rw [hData]; rfl)
      | exit p status hSelf hAt hData =>
        rw [State.at, hSelf] at hAt
        exact .inr ⟨p, status, hSelf, hAt, by rw [hData]; rfl⟩
      | reap _ k _ _ _ _ hData => exact .inl (by rw [hData]; rfl)
    · exact .inl hExits
  · rcases h.entry with hEntry | ⟨_, _, hReaped, _⟩
    · rw [exec_data h.exec]
      cases hEntry with
      | alloc k _ hData => exact .inl (by rw [hData]; rfl)
      | exit p status _ _ hData => exact .inl (by rw [hData]; rfl)
      | reap addr k hAt hZombie _ _ hData =>
        rcases h.locks.pc_of_at hAt (by simp [Pc.Ok]) with ⟨p, hSelf, hPc⟩
        exact .inr ⟨p, addr, k, hSelf, hPc, hFamily.child p addr k (by rw [hPc]; rfl), hZombie,
          by rw [hData]; rfl⟩
    · exact .inl hReaped
  · rintro p addr k hStack hPc hZombie hAddr rfl
    exact h.copyout_fails hStack hPc hZombie hAddr
  · intro k hZombie hFreed
    exact h.zombie_off hZombie hFreed

/- The first process forks, the child exits with status 7, and the first process waits for it. -/
def familyRun : List (Nat × Choice) :=
  [(0, .go), (0, .go), (0, .fork), (0, .go), (0, .go), (0, .go), (0, .go), (0, .go), (0, .go),
    (1, .go), (1, .go), (1, .go), (1, .exit 7)] ++
  List.replicate 135 (1, .go) ++
  [(0, .wait 0), (0, .go), (0, .go), (0, .go), (0, .go)]

theorem exit_wait_agree_family :
    ∃ s, run familyRun boot = some s ∧ s.data.reaped = [(1, 2, 7)] ∧ (1, 2, 7) ∈ s.data.exits := by
  have hEnd : (run familyRun boot).map (fun s => s.data.reaped) = some [(1, 2, 7)] := by
    decide +kernel
  rcases Option.map_eq_some_iff.1 hEnd with ⟨s, hRun, hReaped⟩
  have hReach := Reachable.boot.run familyRun hRun
  refine ⟨s, hRun, hReaped, ?_⟩
  exact (exit_wait_agree s hReach).2.2.1 _ (by simp [hReaped])

end Xv6.Sched

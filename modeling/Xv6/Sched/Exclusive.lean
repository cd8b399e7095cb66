import Xv6.Sched.Effects

/-
  The scheduler's exclusivity: a process runs on at most one
  CPU, its `state` says whether it does, and `state` only
  makes the transitions of the life of a process.

  Main declarations:
    * `Phases.step`
    * `running_iff_one_cpu`
-/

namespace Xv6.Sched

---- Phases

/- The slot a `fork` in progress has allocated. -/
def Pc.embryo (pc : Pc) : Option Nat :=
  match pc.base with
  | .forkBuild k => some k
  | .forkParent k => some k
  | .forkRun k => some k
  | _ => none

/- The kernel stack of a slot is on no CPU. -/
def Off (s : State) (p : Nat) : Prop := ∀ c, (s.cpu c).stack ≠ some p

/-
  The states of the slots follow from the program points: of
  the process itself, and of the `fork` that makes it.
-/
structure Phases (s : State) : Prop where
  active : ∀ c p, (s.cpu c).stack = some p → (s.data.slot p).state = (s.pc p).expects
  parked : ∀ p, Off s p → (s.data.slot p).state ∈ (s.pc p).parked
  claimed : ∀ p k, s.pc p = .forkAlloc k → (s.data.slot k).state = .unused
  embryo : ∀ p k, (s.pc p).embryo = some k → (s.data.slot k).state = .used ∧ s.pc k = .forkret
  lone : ∀ p q k, (s.pc p).embryo = some k → (s.pc q).embryo = some k → p = q

/- Off its own lock, a process that executes is RUNNING. -/
theorem expects_running {p : Nat} {pc : Pc} (hHeld : Lock.proc p ∉ pc.held (some p)) :
    pc.expects = .running := by
  cases pc <;> simp_all [Pc.expects, Pc.held, ownLock]

theorem expects_ne_unused (pc : Pc) : pc.expects ≠ .unused ∧ pc.expects ≠ .used := by
  cases pc <;> simp [Pc.expects]

variable {d : Data} {p : Nat} {ch : Choice} {pc : Pc} {i : Instr}

@[simp] theorem expects_start (L : Loop) : L.start.expects = .running := by
  unfold Loop.start
  split <;> rfl

@[simp] theorem expects_sleep (L : Loop) : L.sleep.expects = .running := by
  unfold Loop.sleep
  split <;> rfl

@[simp] theorem embryo_start (L : Loop) : L.start.embryo = none := by
  unfold Loop.start
  split <;> rfl

@[simp] theorem embryo_sleep (L : Loop) : L.sleep.embryo = none := by
  unfold Loop.sleep
  split <;> exact embryo_start L

@[simp] theorem start_ne_forkAlloc (L : Loop) (k : Nat) : L.start ≠ .forkAlloc k := by
  unfold Loop.start
  split <;> simp

@[simp] theorem sleep_ne_forkAlloc (L : Loop) (k : Nat) : L.sleep ≠ .forkAlloc k := by
  unfold Loop.sleep
  split <;> simp

/- A process keeps the state its program point expects, or writes the one its next point expects. -/
theorem code_expects (hOk : pc.Ok (some p)) (hCode : code d (some p) ch pc = some i)
    (hStay : ∀ next, i ≠ .switch next) :
    i.next.expects = pc.expects ∨ ((i.data d).slot p).state = i.next.expects := by
  cases pc <;>
    simp only [Pc.Ok, code, Option.map_some] at hOk hCode <;>
    (repeat' split at hCode) <;>
    (try cases hCode) <;>
    simp_all [Instr.next, Pc.expects, Instr.data, Data.exit]
  all_goals first
    | exact .inl (expects_start _)
    | exact .inl (expects_sleep _)
    | exact .inl (expects_running (p := p) (by simp_all))

/- It switches away where its stack can be left. -/
theorem code_switch {next : Pc} (hCode : code d (some p) ch pc = some (.switch next)) :
    pc.expects ∈ next.parked := by
  cases pc <;>
    simp only [code, Option.map_some] at hCode <;>
    (repeat' split at hCode) <;>
    (try cases hCode) <;>
    simp [Pc.expects, Pc.parked]

/- Where `fork` claims a free slot. -/
theorem code_claims {k : Nat} (hOk : pc.Ok (some p)) (hCode : code d (some p) ch pc = some i)
    (hNext : i.next = .forkAlloc k) : (d.slot k).state = .unused ∧ k < NPROC ∧ i.data d = d := by
  cases pc <;>
    simp only [Pc.Ok, code, Option.map_some] at hOk hCode <;>
    (repeat' split at hCode) <;>
    (try cases hCode) <;>
    simp_all [Instr.next, Instr.data, Pc.held]

theorem code_target {self : Option Nat} {k : Nat} (hCode : code d self ch pc = some i)
    (hTarget : i.target = some k) :
    (pc = .forkAlloc k ∧ i.spawned = some k ∧ ((i.data d).slot k).state = .used) ∨
    ((d.slot k).state = .runnable ∧ i.needs = some (.proc k) ∧
      ((i.data d).slot k).state = .running) := by
  cases self <;> cases pc <;>
    simp only [code, Option.map_some, Option.map_none] at hCode <;>
    (repeat' split at hCode) <;>
    (try cases hCode) <;>
    simp_all [Instr.target, Instr.spawned, Instr.needs, Instr.data, Data.alloc]

theorem code_embryo (hCode : code d (some p) ch pc = some i) :
    i.next.embryo = pc.embryo ∨ i.next.embryo = none ∨
      ∃ k, pc = .forkAlloc k ∧ i.spawned = some k ∧ i.next.embryo = some k := by
  cases pc <;>
    simp only [code, Option.map_some] at hCode <;>
    (repeat' split at hCode) <;> cases hCode <;> first
      | exact .inl rfl
      | exact .inr (.inl rfl)
      | exact .inr (.inl (embryo_start _))
      | exact .inr (.inl (embryo_sleep _))
      | exact .inr (.inr ⟨_, rfl, rfl, rfl⟩)

---- One Step

variable {s s' : State} {c q k : Nat}

/- A process on a CPU holds the locks of its program point. -/
theorem Locks.holds (h : Locks s) {x : Nat} (hStack : (s.cpu x).stack = some q) {l : Lock}
    (hHeld : l ∈ (s.pc q).held (some q)) : s.lock l = some x := by
  refine (h.holder l x).2 ?_
  rw [State.at, hStack]
  exact hHeld

/- Off its lock, a process on a CPU is RUNNING. -/
theorem Phases.running (h : Phases s) (hLocks : Locks s) {x : Nat}
    (hStack : (s.cpu x).stack = some q) (hFree : s.lock (.proc q) = none) :
    (s.data.slot q).state = .running := by
  rw [h.active x q hStack]
  refine expects_running (p := q) fun hHeld => ?_
  rw [hLocks.holds hStack hHeld] at hFree
  cases hFree

theorem embryo_of_ok_none {pc : Pc} (hOk : pc.Ok none) : pc.embryo = none := by
  induction pc with
  | wakeup _ _ ret ih => exact ih hOk.2.2.2
  | inside _ ret ih => exact ih hOk.2
  | pick _ => rfl
  | back _ => rfl
  | _ => simp_all [Pc.Ok]

/- Most program points belong to a process. -/
theorem Locks.self_of (h : Locks s) (hProcess : ¬ (s.at c).Ok none) :
    ∃ p, (s.cpu c).stack = some p ∧ s.at c = s.pc p := by
  have hOk := h.ok_at c
  cases hStack : (s.cpu c).stack with
  | none =>
    rw [hStack] at hOk
    exact absurd hOk hProcess
  | some p => exact ⟨p, rfl, by rw [State.at, hStack]⟩

theorem Locks.self_of_embryo (h : Locks s) (hEmbryo : (s.at c).embryo = some k) :
    ∃ p, (s.cpu c).stack = some p ∧ s.at c = s.pc p := by
  refine h.self_of fun hOk => ?_
  rw [embryo_of_ok_none hOk] at hEmbryo
  cases hEmbryo

/- The slot of a `fork` in progress is off the CPUs. -/
theorem Phases.off_of_claimed (h : Phases s)
    (hState : (s.data.slot q).state = .unused ∨ (s.data.slot q).state = .used) : Off s q := by
  intro x hStack
  have hActive := h.active x q hStack
  have hNe := expects_ne_unused (s.pc q)
  rcases hState with hState | hState
  · exact hNe.1 (hActive.symm.trans hState)
  · exact hNe.2 (hActive.symm.trans hState)

section

variable (h : Phases s) (hLocks : Locks s)
include h hLocks

/- What the points of `fork` say of the slot it works on. -/
theorem Phases.at_alloc (hAt : s.at c = .forkAlloc k) : (s.data.slot k).state = .unused := by
  have hProcess : ¬ (s.at c).Ok none := by simp [hAt, Pc.Ok]
  rcases hLocks.self_of hProcess with ⟨p, _, hPc⟩
  exact h.claimed p k (hPc.symm.trans hAt)

theorem Phases.at_embryo (hAt : (s.at c).embryo = some k) :
    (s.data.slot k).state = .used ∧ s.pc k = .forkret := by
  rcases hLocks.self_of_embryo hAt with ⟨p, _, hPc⟩
  exact h.embryo p k (hPc ▸ hAt)

/- Only the process itself changes the state it runs in. -/
theorem Phases.own_shift (hExec : s.exec c i = some s') {x : Nat}
    (hStack : (s.cpu x).stack = some q) {new : ProcState}
    (hShift : Shift (s.cpu c).stack (s.at c) i q (s.data.slot q).state new) :
    (s.cpu c).stack = some q ∧ new = i.next.expects := by
  generalize hOld : (s.data.slot q).state = old at hShift
  have hRunning : i.needs = some (.proc q) → old = .running := by
    intro hNeeds
    rw [← hOld]
    exact h.running hLocks hStack (exec_free hExec hNeeds)
  cases hShift with
  | own hSelf _ hNext _ => exact ⟨hSelf, hNext⟩
  | rouse hNeeds => cases hRunning hNeeds
  | alloc hPc _ =>
    have hState := h.at_alloc hLocks hPc
    exact absurd hStack (h.off_of_claimed (.inl hState) x)
  | free hPc _ | run hPc _ =>
    have hState := h.at_embryo hLocks (k := q) (by rw [hPc]; rfl)
    exact absurd hStack (h.off_of_claimed (.inr hState.1) x)
  | reap hNeeds => cases hRunning hNeeds
  | dispatch hInstr =>
    cases hRunning (by rw [hInstr]; rfl)

theorem Phases.off_shift (hOff : Off s q) (hStay : ∀ d, i ≠ .dispatch q d)
    (hSpawn : i.spawned ≠ some q) {new : ProcState}
    (hShift : Shift (s.cpu c).stack (s.at c) i q (s.data.slot q).state new) :
    new ∈ (s.pc q).parked := by
  have hParked := h.parked q hOff
  generalize (s.data.slot q).state = old at hShift hParked
  cases hShift with
  | own hSelf _ _ _ => exact absurd hSelf (hOff c)
  | rouse _ =>
    revert hParked
    cases s.pc q <;> simp [Pc.parked]
  | alloc _ hAlloc => exact absurd hAlloc hSpawn
  | free hPc _ | run hPc _ =>
    have hPc := (h.at_embryo hLocks (k := q) (by rw [hPc]; rfl)).2
    simp [hPc, Pc.parked]
  | reap _ =>
    revert hParked
    cases s.pc q <;> simp [Pc.parked]
  | dispatch hInstr => exact absurd hInstr (hStay _)

end

theorem fetch_expects (hLocks : Locks s) {p : Nat} (hStack : (s.cpu c).stack = some p)
    (hFetch : fetch s c ch = some i) (hStay : ∀ next, i ≠ .switch next) :
    i.next.expects = (s.pc p).expects ∨ ((i.data s.data).slot p).state = i.next.expects := by
  have hAt : s.at c = s.pc p := by rw [State.at, hStack]
  rcases fetch_cases hFetch with hCode | ⟨hNoff, hCase⟩
  · rw [hStack, hAt] at hCode
    exact code_expects (hLocks.ok p) hCode hStay
  · rw [hLocks.noff c, hStack, hAt] at hNoff
    have hHeld := List.length_eq_zero_iff.1 hNoff
    have hPc : (s.pc p).expects = .running := expects_running (p := p) (by simp [hHeld])
    rcases hCase with ⟨m, rfl⟩ | ⟨_, _, rfl⟩
    · exact .inl hPc.symm
    · exact .inl hPc.symm

theorem fetch_switch {p : Nat} (hStack : (s.cpu c).stack = some p) {next : Pc}
    (hFetch : fetch s c ch = some (.switch next)) : (s.pc p).expects ∈ next.parked := by
  have hAt : s.at c = s.pc p := by rw [State.at, hStack]
  rcases fetch_cases hFetch with hCode | ⟨_, hCase⟩
  · rw [hStack, hAt] at hCode
    exact code_switch hCode
  · rcases hCase with ⟨m, hi⟩ | ⟨_, _, hi⟩
    · cases hi
    · cases hi

theorem fetch_claims (hLocks : Locks s) {p : Nat} (hStack : (s.cpu c).stack = some p)
    (hFetch : fetch s c ch = some i) (hNext : i.next = .forkAlloc k) :
    (s.data.slot k).state = .unused ∧ k < NPROC ∧ i.data s.data = s.data := by
  have hAt : s.at c = s.pc p := by rw [State.at, hStack]
  rcases fetch_cases hFetch with hCode | ⟨_, hCase⟩
  · rw [hStack, hAt] at hCode
    exact code_claims (hLocks.ok p) hCode hNext
  · rcases hCase with ⟨m, rfl⟩ | ⟨_, _, rfl⟩
    · cases hNext
    · cases hNext

theorem fetch_embryo {p : Nat} (hStack : (s.cpu c).stack = some p) (hFetch : fetch s c ch = some i) :
    i.next.embryo = (s.pc p).embryo ∨ i.next.embryo = none ∨
      ∃ k, s.pc p = .forkAlloc k ∧ i.spawned = some k ∧ i.next.embryo = some k := by
  have hAt : s.at c = s.pc p := by rw [State.at, hStack]
  rcases fetch_cases hFetch with hCode | ⟨_, hCase⟩
  · rw [hStack, hAt] at hCode
    exact code_embryo hCode
  · rw [hAt] at hCase
    rcases hCase with ⟨m, rfl⟩ | ⟨_, _, rfl⟩
    · exact .inl rfl
    · exact .inl rfl

theorem fetch_target (hFetch : fetch s c ch = some i) (hTarget : i.target = some k) :
    (s.at c = .forkAlloc k ∧ i.spawned = some k ∧ ((i.data s.data).slot k).state = .used) ∨
    ((s.data.slot k).state = .runnable ∧ i.needs = some (.proc k) ∧
      ((i.data s.data).slot k).state = .running) := by
  rcases fetch_cases hFetch with hCode | ⟨_, hCase⟩
  · exact code_target hCode hTarget
  · rcases hCase with ⟨m, rfl⟩ | ⟨_, _, rfl⟩
    · cases hTarget
    · cases hTarget

/- Nothing is started or switched to that is on a CPU. -/
theorem Phases.target_off (h : Phases s) (hLocks : Locks s) (hFetch : fetch s c ch = some i)
    (hExec : s.exec c i = some s') : ∀ k ∈ i.target, Off s k := by
  intro k hTarget
  rcases fetch_target hFetch hTarget with ⟨hAt, _⟩ | ⟨hRunnable, hNeeds, _⟩
  · exact h.off_of_claimed (.inl (h.at_alloc hLocks hAt))
  · intro x hStack
    have hFree := exec_free hExec hNeeds
    rw [h.running hLocks hStack hFree] at hRunnable
    cases hRunnable

theorem spawned_target (hSpawn : i.spawned = some k) : i.target = some k := by
  cases i <;> simp_all [Instr.spawned, Instr.target]

theorem fetch_spawned (hFetch : fetch s c ch = some i) (hSpawn : i.spawned = some k) :
    s.at c = .forkAlloc k ∧ ((i.data s.data).slot k).state = .used := by
  rcases fetch_target hFetch (spawned_target hSpawn) with ⟨hAt, _, hUsed⟩ | ⟨_, hNeeds, _⟩
  · exact ⟨hAt, hUsed⟩
  · cases i <;> simp_all [Instr.spawned, Instr.needs]

/- A process that stays on another CPU is left alone. -/
theorem Phases.elsewhere (h : Phases s) (hLocks : Locks s) (hFetch : fetch s c ch = some i)
    (hExec : s.exec c i = some s') {x q : Nat}
    (hStack : (s.cpu x).stack = some q) (hOther : x ≠ c) :
    s'.pc q = s.pc q ∧ (s'.data.slot q).state = (s.data.slot q).state := by
  have hSelf : (s.cpu c).stack ≠ some q := fun hc =>
    hOther (hLocks.unique x c q hStack hc)
  have hSpawn : i.spawned ≠ some q := fun hSpawn =>
    h.target_off hLocks hFetch hExec q (spawned_target hSpawn) x hStack
  refine ⟨exec_other hExec hSelf hSpawn, ?_⟩
  rw [exec_data hExec]
  rcases fetch_shift hFetch q with hSame | hShift
  · exact hSame
  · have hOwn := h.own_shift hLocks hExec hStack hShift
    exact absurd hOwn.1 hSelf

theorem stack_cases {old : Option Nat} {p : Nat} (hStack : i.stack old = some p) :
    (∃ d, i = .dispatch p d) ∨ (old = some p ∧ ∀ next, i ≠ .switch next) := by
  cases i <;> simp_all [Instr.stack]

theorem expects_of_runnable {pc : Pc} (hParked : .runnable ∈ pc.parked) :
    pc.expects = .running := by
  cases pc <;> simp_all [Pc.parked, Pc.expects]

section

variable (h : Phases s) (hLocks : Locks s) (hFetch : fetch s c ch = some i)
  (hExec : s.exec c i = some s')
include h hLocks hFetch hExec

theorem Phases.self_pc {p : Nat} (hStack : (s.cpu c).stack = some p) : s'.pc p = i.next := by
  refine exec_self hExec (fetch_lawful hLocks hFetch) hStack ?_
  intro hSpawn
  exact h.target_off hLocks hFetch hExec p (spawned_target hSpawn) c hStack

theorem Phases.step_active (x p : Nat) (hStack : (s'.cpu x).stack = some p) :
    (s'.data.slot p).state = (s'.pc p).expects := by
  rw [exec_stack hExec] at hStack
  by_cases hx : x = c
  · rw [if_pos hx] at hStack
    rcases stack_cases hStack with ⟨d, rfl⟩ | ⟨hSelf, hStay⟩
    · -- the scheduler switches to a runnable process
      have hOff := h.target_off hLocks hFetch hExec p rfl
      rcases fetch_target hFetch rfl with ⟨_, hSpawn, _⟩ | ⟨hRunnable, _, hRunning⟩
      · cases hSpawn
      have hParked := h.parked p hOff
      rw [hRunnable] at hParked
      rw [exec_data hExec, hRunning, exec_other hExec (hOff c) nofun]
      exact (expects_of_runnable hParked).symm
    · rw [h.self_pc hLocks hFetch hExec hSelf, exec_data hExec]
      rcases fetch_expects hLocks hSelf hFetch hStay with
        hKeep | hWrite
      · rcases fetch_shift hFetch p with hSame | hShift
        · rw [hSame, hKeep]
          exact h.active c p hSelf
        · exact (h.own_shift hLocks hExec hSelf hShift).2
      · exact hWrite
  · rw [if_neg hx] at hStack
    rcases h.elsewhere hLocks hFetch hExec hStack hx with ⟨hPc, hState⟩
    rw [hPc, hState]
    exact h.active x p hStack

end

theorem stack_left {p : Nat} {pc : Pc} (hLaw : Lawful (some p) pc i)
    (hLeft : i.stack (some p) ≠ some p) : ∃ next, i = .switch next := by
  cases i <;> simp_all [Instr.stack, Lawful]

section

variable (h : Phases s) (hLocks : Locks s) (hFetch : fetch s c ch = some i)
  (hExec : s.exec c i = some s')
include h hLocks hFetch hExec

theorem Phases.step_parked (p : Nat) (hOff : Off s' p) :
    (s'.data.slot p).state ∈ (s'.pc p).parked := by
  by_cases hBefore : Off s p
  · have hStay : ∀ d, i ≠ .dispatch p d := by
      rintro d rfl
      refine hOff c ?_
      rw [exec_stack hExec, if_pos rfl]
      rfl
    rw [exec_data hExec]
    by_cases hSpawn : i.spawned = some p
    · rw [exec_spawned hExec hSpawn, (fetch_spawned hFetch hSpawn).2]
      simp [Pc.parked]
    · rw [exec_other hExec (hBefore c) hSpawn]
      rcases fetch_shift hFetch p with hSame | hShift
      · rw [hSame]
        exact h.parked p hBefore
      · exact h.off_shift hLocks hBefore hStay hSpawn hShift
  · -- the process switches to the scheduler
    rcases not_forall_not.1 hBefore with ⟨x, hStack⟩
    have hLeft := hOff x
    rw [exec_stack hExec] at hLeft
    by_cases hx : x = c
    · subst hx
      rw [if_pos rfl, hStack] at hLeft
      have hLaw := fetch_lawful hLocks hFetch
      rw [hStack] at hLaw
      rcases stack_left hLaw hLeft with ⟨next, rfl⟩
      rw [h.self_pc hLocks hFetch hExec hStack, exec_data hExec]
      have hParked := fetch_switch hStack hFetch
      rw [← h.active x p hStack] at hParked
      exact hParked
    · rw [if_neg hx] at hLeft
      exact absurd hStack hLeft

theorem Phases.step_claimed (p k : Nat) (hPc : s'.pc p = .forkAlloc k) :
    (s'.data.slot k).state = .unused := by
  rw [exec_data hExec]
  by_cases hSelf : (s.cpu c).stack = some p
  · rw [h.self_pc hLocks hFetch hExec hSelf] at hPc
    rcases fetch_claims hLocks hSelf hFetch hPc with ⟨hState, _, hData⟩
    rw [hData]
    exact hState
  have hSpawn : i.spawned ≠ some p := by
    intro hSpawn
    rw [exec_spawned hExec hSpawn] at hPc
    cases hPc
  rw [exec_other hExec hSelf hSpawn] at hPc
  have hState := h.claimed p k hPc
  -- the other fork holds the lock of the slot
  have hHeld : ∃ x, (s.cpu x).stack = some p ∧ s.lock (.proc k) = some x := by
    by_cases hOff : Off s p
    · have hParked := h.parked p hOff
      rw [hPc] at hParked
      cases hParked
    · rcases not_forall_not.1 hOff with ⟨x, hx⟩
      refine ⟨x, hx, hLocks.holds hx ?_⟩
      simp [hPc, Pc.held]
  rcases fetch_shift hFetch k with hSame | hShift
  · rw [hSame]
    exact hState
  rw [hState] at hShift
  generalize ((i.data s.data).slot k).state = new at hShift ⊢
  cases hShift with
  | own hOwn _ _ _ => exact absurd hOwn (h.off_of_claimed (.inl hState) c)
  | alloc hAt _ =>
    have hMine := (hLocks.holder (.proc k) c).2 (by rw [hAt]; simp [Pc.held])
    rcases hHeld with ⟨x, hx, hTheirs⟩
    rw [hMine] at hTheirs
    cases hTheirs
    exact absurd hx hSelf
  | free _ _ => rfl
  | run hAt _ =>
    have hUsed := h.at_embryo hLocks (k := k) (by rw [hAt]; rfl)
    rw [hState] at hUsed
    cases hUsed.1

end

/- Only its own `fork` ends the state USED of a slot. -/
theorem Phases.used_shift (h : Phases s) (hLocks : Locks s) (hUsed : (s.data.slot k).state = .used)
    {new : ProcState} (hShift : Shift (s.cpu c).stack (s.at c) i k .used new) :
    (s.at c).embryo = some k ∧ i.next = .user := by
  cases hShift with
  | own hOwn _ _ _ => exact absurd hOwn (h.off_of_claimed (.inr hUsed) c)
  | alloc hAt _ =>
    have hUnused := h.at_alloc hLocks hAt
    rw [hUsed] at hUnused
    cases hUnused
  | free hAt hNext => exact ⟨by rw [hAt]; rfl, hNext⟩
  | run hAt hNext => exact ⟨by rw [hAt]; rfl, hNext⟩

section

variable (h : Phases s) (hLocks : Locks s) (hFetch : fetch s c ch = some i)
  (hExec : s.exec c i = some s')
include h hLocks hFetch hExec

theorem Phases.embryo_before {p : Nat} (hPc : (s'.pc p).embryo = some k) :
    ((s.pc p).embryo = some k ∧ ((s.at c).embryo = some k → i.next ≠ .user)) ∨
    ((s.cpu c).stack = some p ∧ i.spawned = some k) := by
  by_cases hSelf : (s.cpu c).stack = some p
  · rw [h.self_pc hLocks hFetch hExec hSelf] at hPc
    rcases fetch_embryo hSelf hFetch with
      hSame | hNone | ⟨j, _, hSpawn, hNew⟩
    · refine .inl ⟨hSame.symm.trans hPc, fun _ hUser => ?_⟩
      rw [hUser] at hPc
      cases hPc
    · rw [hNone] at hPc
      cases hPc
    · rw [hNew] at hPc
      cases hPc
      exact .inr ⟨hSelf, hSpawn⟩
  · have hSpawn : i.spawned ≠ some p := by
      intro hSpawn
      rw [exec_spawned hExec hSpawn] at hPc
      cases hPc
    rw [exec_other hExec hSelf hSpawn] at hPc
    refine .inl ⟨hPc, fun hAt => ?_⟩
    rcases hLocks.self_of_embryo hAt with ⟨q, hq, hAtq⟩
    rw [hAtq] at hAt
    rw [h.lone p q k hPc hAt] at hSelf
    exact absurd hq hSelf

theorem Phases.step_embryo (p k : Nat) (hPc : (s'.pc p).embryo = some k) :
    (s'.data.slot k).state = .used ∧ s'.pc k = .forkret := by
  rw [exec_data hExec]
  rcases h.embryo_before hLocks hFetch hExec hPc with ⟨hBefore, hGoes⟩ | ⟨_, hSpawn⟩
  · rcases h.embryo p k hBefore with ⟨hUsed, hStart⟩
    constructor
    · rcases fetch_shift hFetch k with hSame | hShift
      · rw [hSame]
        exact hUsed
      · rw [hUsed] at hShift
        rcases h.used_shift hLocks hUsed hShift with ⟨hAt, hNext⟩
        exact absurd hNext (hGoes hAt)
    · by_cases hSpawn : i.spawned = some k
      · exact exec_spawned hExec hSpawn
      · have hOff := h.off_of_claimed (.inr hUsed)
        rw [exec_other hExec (hOff c) hSpawn]
        exact hStart
  · exact ⟨(fetch_spawned hFetch hSpawn).2, exec_spawned hExec hSpawn⟩

theorem Phases.step_lone (p q k : Nat) (hp : (s'.pc p).embryo = some k)
    (hq : (s'.pc q).embryo = some k) : p = q := by
  -- a slot that is claimed now was not in use before
  have hNew : ∀ r, (s.pc r).embryo = some k → i.spawned ≠ some k := by
    intro r hr hSpawn
    have hUnused := h.at_alloc hLocks (fetch_spawned hFetch hSpawn).1
    rw [(h.embryo r k hr).1] at hUnused
    cases hUnused
  rcases h.embryo_before hLocks hFetch hExec hp with ⟨hp, _⟩ | ⟨hpSelf, hpSpawn⟩ <;>
    rcases h.embryo_before hLocks hFetch hExec hq with ⟨hq, _⟩ | ⟨hqSelf, hqSpawn⟩
  · exact h.lone p q k hp hq
  · exact absurd hqSpawn (hNew p hp)
  · exact absurd hpSpawn (hNew q hq)
  · exact Option.some.inj (hpSelf.symm.trans hqSelf)

end

theorem Locks.step (hLocks : Locks s) (h : Phases s) (hStep : step s c ch = some s') :
    Locks s' := by
  rcases Option.bind_eq_some_iff.1 hStep with ⟨i, hFetch, hExec⟩
  exact hLocks.exec (fetch_lawful hLocks hFetch) (h.target_off hLocks hFetch hExec) hExec

theorem Phases.step (h : Phases s) (hLocks : Locks s) (hStep : step s c ch = some s') :
    Phases s' := by
  rcases Option.bind_eq_some_iff.1 hStep with ⟨i, hFetch, hExec⟩
  exact
    { active := h.step_active hLocks hFetch hExec
      parked := h.step_parked hLocks hFetch hExec
      claimed := h.step_claimed hLocks hFetch hExec
      embryo := h.step_embryo hLocks hFetch hExec
      lone := h.step_lone hLocks hFetch hExec }

---- Every Run

theorem boot_locks : Locks boot where
  ok p := by
    by_cases hp : p = 0 <;> simp [boot, hp, Pc.Ok]
  back c p hStack := by simp [boot] at hStack
  idle c _ := rfl
  unique c x p hStack _ := by simp [boot] at hStack
  holder l c := by simp [boot, State.at, Pc.held]
  nodup c := by simp [boot, State.at, Pc.held]
  noff c := by simp [boot, State.at, Pc.held]
  parked p _ := by
    by_cases hp : p = 0 <;> simp [boot, hp, Pc.held, ownLock]
  proc c p := by simp [boot]

theorem boot_embryo (p : Nat) : (boot.pc p).embryo = none := by
  by_cases hp : p = 0 <;> simp [boot, hp] <;> rfl

theorem boot_phases : Phases boot where
  active c p hStack := by simp [boot] at hStack
  parked p _ := by
    by_cases hp : p = 0 <;> simp [boot, hp, Pc.parked, Slot.empty]
  claimed p k hPc := by
    by_cases hp : p = 0 <;> simp [boot, hp] at hPc
  embryo p k hPc := by
    rw [boot_embryo] at hPc
    cases hPc
  lone p q k hPc _ := by
    rw [boot_embryo] at hPc
    cases hPc

theorem Reachable.sound {s : State} (hReach : Reachable s) : Locks s ∧ Phases s := by
  induction hReach with
  | boot => exact ⟨boot_locks, boot_phases⟩
  | step c ch _ hStep ih => exact ⟨ih.1.step ih.2 hStep, ih.2.step ih.1 hStep⟩

theorem Reachable.run {s s' : State} (steps : List (Nat × Choice)) (hReach : Reachable s)
    (hRun : run steps s = some s') : Reachable s' := by
  induction steps generalizing s with
  | nil =>
    cases hRun
    exact hReach
  | cons head steps ih =>
    rcases Option.bind_eq_some_iff.1 hRun with ⟨t, hStep, hRest⟩
    exact ih (.step head.1 head.2 hReach hStep) hRest

/-
  A step taken in a sound state, with what it did. The
  invariants below are proved from these facts.
-/
structure Taken (s s' : State) (c : Nat) (ch : Choice) (i : Instr) : Prop where
  locks : Locks s
  phases : Phases s
  fetch : fetch s c ch = some i
  exec : s.exec c i = some s'

namespace Taken

variable {s s' : State} {c : Nat} {ch : Choice} {i : Instr}

theorem of_step (hReach : Reachable s) (hStep : step s c ch = some s') :
    ∃ i, Taken s s' c ch i := by
  rcases Option.bind_eq_some_iff.1 hStep with ⟨i, hFetch, hExec⟩
  exact ⟨i, hReach.sound.1, hReach.sound.2, hFetch, hExec⟩

theorem edit (h : Taken s s' c ch i) (j : Nat) :
    s'.data.slot j = s.data.slot j ∨ Edit s.data (s.cpu c).stack (s.at c) i j (s'.data.slot j) := by
  rw [exec_data h.exec]
  exact fetch_edit h.fetch j

theorem pc_cases (h : Taken s s' c ch i) (p : Nat) :
    ((s.cpu c).stack = some p ∧ s.at c = s.pc p ∧ s'.pc p = i.next) ∨
    ((s.cpu c).stack ≠ some p ∧ s'.pc p = s.pc p) ∨
    (s.at c = .forkAlloc p ∧ s'.pc p = .forkret) := by
  by_cases hSelf : (s.cpu c).stack = some p
  · refine .inl ⟨hSelf, by rw [State.at, hSelf], ?_⟩
    exact h.phases.self_pc h.locks h.fetch h.exec hSelf
  · by_cases hSpawn : i.spawned = some p
    · exact .inr (.inr ⟨(fetch_spawned h.fetch hSpawn).1, exec_spawned h.exec hSpawn⟩)
    · exact .inr (.inl ⟨hSelf, exec_other h.exec hSelf hSpawn⟩)

end Taken

---- Exclusivity

/- The transitions of the life of a process. -/
inductive Transition : ProcState → ProcState → Prop where
  | alloc : Transition .unused .used
  | ready : Transition .used .runnable
  | dispatch : Transition .runnable .running
  | yield : Transition .running .runnable
  | sleep : Transition .running .sleeping
  | exit : Transition .running .zombie
  | wakeup : Transition .sleeping .runnable
  | abandon : Transition .used .unused
  | reap : Transition .zombie .unused

/- Off `p->lock`, `c->proc` is the process on the CPU. -/
theorem Locks.proc_iff_stack (h : Locks s) {p : Nat} (hFree : s.lock (.proc p) = none) (c : Nat) :
    (s.cpu c).proc = some p ↔ (s.cpu c).stack = some p := by
  constructor
  · intro hProc
    have hBack := (h.proc c p).1 hProc
    cases hStack : (s.cpu c).stack with
    | none =>
      refine absurd ?_ (h.free hFree c)
      simp [State.at, hStack, hBack, Pc.held]
    | some q =>
      rw [h.back c q hStack] at hBack
      cases hBack
      rfl
  · intro hStack
    exact (h.proc c p).2 (h.back c p hStack)

theorem Phases.running_iff (h : Phases s) (hLocks : Locks s) {p : Nat}
    (hFree : s.lock (.proc p) = none) :
    (s.data.slot p).state = .running ↔ ∃! c, (s.cpu c).proc = some p := by
  simp only [hLocks.proc_iff_stack hFree]
  constructor
  · intro hRunning
    by_cases hOff : Off s p
    · have hParked := h.parked p hOff
      rw [hRunning] at hParked
      revert hParked
      cases s.pc p <;> simp [Pc.parked]
    · rcases not_forall_not.1 hOff with ⟨c, hStack⟩
      exact ⟨c, hStack, fun x hx =>
        hLocks.unique x c p hx hStack⟩
  · rintro ⟨c, hStack, _⟩
    exact h.running hLocks hStack hFree

/- What a step does to a state is one of the transitions. -/
theorem Phases.transition (h : Phases s) (hLocks : Locks s) {c : Nat} {i : Instr} {q : Nat}
    {new : ProcState} (hShift : Shift (s.cpu c).stack (s.at c) i q (s.data.slot q).state new) :
    Transition (s.data.slot q).state new := by
  generalize hOld : (s.data.slot q).state = old at hShift ⊢
  cases hShift with
  | own hSelf hPc _ hNew =>
    have hActive := h.active c q hSelf
    rw [State.at, hSelf] at hPc
    rw [hOld, hPc] at hActive
    subst hActive
    simp only [List.mem_cons, List.not_mem_nil, or_false] at hNew
    rcases hNew with rfl | rfl | rfl
    · exact .yield
    · exact .sleep
    · exact .exit
  | rouse _ => exact .wakeup
  | alloc hAt _ =>
    rw [h.at_alloc hLocks hAt] at hOld
    subst hOld
    exact .alloc
  | free hAt _ =>
    have hUsed := h.at_embryo hLocks (k := q) (by rw [hAt]; rfl)
    rw [hUsed.1] at hOld
    subst hOld
    exact .abandon
  | run hAt _ =>
    have hUsed := h.at_embryo hLocks (k := q) (by rw [hAt]; rfl)
    rw [hUsed.1] at hOld
    subst hOld
    exact .ready
  | reap _ => exact .reap
  | dispatch _ => exact .dispatch

/-
  In every state of every interleaving: off `p->lock`, a
  process is RUNNING exactly when one CPU has it as its
  `proc`; no two CPUs execute on one kernel stack; and every
  step moves each slot along a transition, if at all.
-/
theorem running_iff_one_cpu
    (s : State)
    (hReach : Reachable s) :
    (∀ p,
      s.lock (.proc p) = none →
      ((s.data.slot p).state = .running ↔ ∃! c, (s.cpu c).proc = some p)) ∧
    (∀ c x p, (s.cpu c).stack = some p → (s.cpu x).stack = some p → c = x) ∧
    ∀ c ch s',
      step s c ch = some s' →
      ∀ p,
        (s'.data.slot p).state = (s.data.slot p).state ∨
        Transition (s.data.slot p).state (s'.data.slot p).state := by
  rcases hReach.sound with ⟨hLocks, hPhases⟩
  refine ⟨?_, hLocks.unique, ?_⟩
  · intro p hFree
    exact hPhases.running_iff hLocks hFree
  · intro c ch s' hStep p
    rcases Option.bind_eq_some_iff.1 hStep with ⟨i, hFetch, hExec⟩
    rw [exec_data hExec]
    rcases fetch_shift hFetch p with hSame | hShift
    · exact .inl hSame
    · exact .inr (hPhases.transition hLocks hShift)

/- CPU 0 switches to the first process, which gives back its lock in `forkret`. -/
theorem running_iff_one_cpu_started :
    ∃ s, run [(0, .go), (0, .go)] boot = some s ∧ s.lock (.proc 0) = none ∧
      (s.data.slot 0).state = .running ∧ ∃! c, (s.cpu c).proc = some 0 := by
  refine ⟨_, rfl, rfl, rfl, ?_⟩
  have hReach := Reachable.boot.run [(0, .go), (0, .go)] rfl
  exact ((running_iff_one_cpu _ hReach).1 0 rfl).1 rfl

end Xv6.Sched

import Xv6.Sched.Exclusive

/-
  Parents and children: who the parent of a slot is at the
  points of `fork`, `exit`, `reparent` and `wait`.

  Main declarations:
    * `Family`
    * `Family.step`
    * `Reachable.family`
-/

namespace Xv6.Sched

---- Exiting Processes

/- An `exit` in progress has given slot `j` away if it was a child. -/
def Pc.Swept (pc : Pc) (j : Nat) : Prop :=
  match pc.base with
  | .exitReparent _ k => j < k
  | .exitLock _ => True
  | .exitState _ => True
  | .exitRelease => True
  | .exitSwitch => True
  | .exited => True
  | _ => False

/- The process is in `exit`, or gone. -/
def Pc.Exiting (pc : Pc) : Prop :=
  match pc.base with
  | .exitReparent _ _ => True
  | .exitLock _ => True
  | .exitState _ => True
  | .exitRelease => True
  | .exitSwitch => True
  | .exited => True
  | _ => False

theorem Pc.Swept.exiting {pc : Pc} {j : Nat} (hSwept : pc.Swept j) : pc.Exiting := by
  unfold Pc.Swept at hSwept
  unfold Pc.Exiting
  split at hSwept <;> simp_all

/-
  The parents: a process in `exit` has no children among the
  slots it passed, free and new slots have none, every
  process but the first has a parent, and what the points of
  `fork` and `wait` know.
-/
structure Family (s : State) : Prop where
  swept : ∀ q j, (s.pc q).Swept j → (s.data.slot j).parent ≠ some q
  childless : ∀ q j, (s.data.slot q).state = .unused ∨ (s.data.slot q).state = .used →
    (s.data.slot j).parent ≠ some q
  init : (s.data.slot s.data.initproc).state ≠ .unused ∧ (s.data.slot s.data.initproc).state ≠ .used
  stays : ¬ (s.pc s.data.initproc).Exiting
  parented : ∀ p, (s.data.slot p).state ≠ .unused →
    (s.data.slot p).state ≠ .used → p ≠ s.data.initproc → (s.data.slot p).parent ≠ none
  orphan : ∀ p, (s.data.slot p).state = .unused → (s.data.slot p).parent = none
  fresh : ∀ p k, (s.pc p).base = .forkBuild k → (s.data.slot k).parent = none
  adopted : ∀ p k, (s.pc p).base = .forkRun k → (s.data.slot k).parent ≠ none
  child : ∀ p addr k, (s.pc p).base = .waitChild addr k → (s.data.slot k).parent = some p
  small : ∀ p k, (s.pc p).embryo = some k ∨ s.pc p = .forkAlloc k → k < NPROC
  bound : ∀ j, NPROC ≤ j → (s.data.slot j).parent = none

---- Facts about the Code

variable {d : Data} {p : Nat} {ch : Choice} {pc : Pc} {i : Instr}

theorem start_cases (L : Loop) : L.start = .loopTest L ∨ L.start = .loopKilled L := by
  unfold Loop.start
  split <;> simp

theorem base_start (L : Loop) : L.start.base = L.start := by
  rcases start_cases L with hStart | hStart <;> simp [hStart, Pc.base]

theorem base_sleep (L : Loop) : L.sleep.base = L.start := by
  unfold Loop.sleep
  split <;> exact base_start L

/- No loop is part of `fork` or `wait`. -/
theorem base_start_ne (pc : Pc) (L : Loop) (hTest : ∀ L, pc ≠ .loopTest L)
    (hKilled : ∀ L, pc ≠ .loopKilled L) : L.start.base ≠ pc ∧ L.sleep.base ≠ pc := by
  rw [base_sleep, base_start]
  rcases start_cases L with hStart | hStart
  · rw [hStart]
    exact ⟨(hTest L).symm, (hTest L).symm⟩
  · rw [hStart]
    exact ⟨(hKilled L).symm, (hKilled L).symm⟩

theorem not_exiting_start (L : Loop) : ¬ L.start.Exiting := by
  rcases start_cases L with hStart | hStart <;> simp [hStart, Pc.Exiting, Pc.base]

theorem not_exiting_sleep (L : Loop) : ¬ L.sleep.Exiting := by
  unfold Pc.Exiting
  rw [base_sleep, ← base_start]
  exact not_exiting_start L

/- What a step adds to the slots `exit` has passed. -/
theorem code_swept {j : Nat} (hCode : code d (some p) ch pc = some i)
    (hInit : pc.Exiting → p ≠ d.initproc) (hSwept : i.next.Swept j) :
    pc.Swept j ∨ ((i.data d).slot j).parent ≠ some p ∨ NPROC ≤ j := by
  cases pc with
  | user =>
    simp only [code] at hCode
    (repeat' split at hCode) <;> cases hCode
    case h_2.isFalse => exact absurd hSwept (Nat.not_lt_zero j)
    case h_6 =>
      exact absurd hSwept.exiting (not_exiting_start _)
    all_goals exact absurd hSwept id
  | exitReparent status k =>
    simp only [code, Option.map_some, Option.some.injEq] at hCode
    split at hCode
    · -- slot k is passed on now, or is not a child
      split at hCode
      · subst hCode
        rcases Nat.lt_succ_iff_lt_or_eq.1 hSwept with hLt | rfl
        · exact .inl hLt
        · refine .inr (.inl ?_)
          simpa [Instr.data] using Ne.symm (hInit trivial)
      · rename_i hOther
        subst hCode
        rcases Nat.lt_succ_iff_lt_or_eq.1 hSwept with hLt | rfl
        · exact .inl hLt
        · exact .inr (.inl hOther)
    · rename_i hEnd
      subst hCode
      by_cases hj : j < NPROC
      · exact .inl (Nat.lt_of_lt_of_le hj (Nat.not_lt.1 hEnd))
      · exact .inr (.inr (Nat.not_lt.1 hj))
  | _ =>
    simp only [code, Option.map_some] at hCode
    (repeat' split at hCode) <;> cases hCode <;> first
      | exact .inl hSwept
      | exact absurd hSwept id
      | exact absurd hSwept.exiting (not_exiting_start _)
      | exact absurd hSwept.exiting (not_exiting_sleep _)

theorem code_initproc {self : Option Nat} (hCode : code d self ch pc = some i) :
    (i.data d).initproc = d.initproc := by
  cases self <;> cases pc <;>
    simp only [code, Option.map_some, Option.map_none] at hCode <;>
    (repeat' split at hCode) <;> cases hCode <;> rfl

section

variable (hCode : code d (some p) ch pc = some i)
include hCode

/- The first process does not enter `exit`. -/
theorem code_exiting (hExit : i.next.Exiting) : pc.Exiting ∨ p ≠ d.initproc := by
  cases pc <;>
    simp only [code, Option.map_some] at hCode <;>
    (repeat' split at hCode) <;> cases hCode <;> first
      | exact .inl hExit
      | exact .inl trivial
      | exact absurd hExit id
      | exact absurd hExit (not_exiting_start _)
      | exact absurd hExit (not_exiting_sleep _)
      | (simp_all)

theorem code_build {k : Nat} (hNext : i.next.base = .forkBuild k) :
    pc.base = .forkBuild k ∨ pc = .forkAlloc k := by
  have hLoop := fun L : Loop =>
    base_start_ne (.forkBuild k) L (by rintro _ ⟨⟩) (by rintro _ ⟨⟩)
  cases pc <;>
    simp only [code, Option.map_some] at hCode <;>
    (repeat' split at hCode) <;> cases hCode <;> first
      | exact .inl hNext
      | exact absurd hNext (hLoop _).1
      | exact absurd hNext (hLoop _).2
      | (cases hNext; done)
      | (cases hNext; exact .inr rfl)

theorem code_adopted {k : Nat} (hNext : i.next.base = .forkRun k) :
    pc.base = .forkRun k ∨ ((i.data d).slot k).parent ≠ none := by
  have hLoop := fun L : Loop =>
    base_start_ne (.forkRun k) L (by rintro _ ⟨⟩) (by rintro _ ⟨⟩)
  cases pc <;>
    simp only [code, Option.map_some] at hCode <;>
    (repeat' split at hCode) <;> cases hCode <;> first
      | exact .inl hNext
      | exact absurd hNext (hLoop _).1
      | exact absurd hNext (hLoop _).2
      | (cases hNext; done)
      | (cases hNext; simp [Instr.data])

theorem code_child {addr k : Nat} (hNext : i.next.base = .waitChild addr k) :
    (pc.base = .waitChild addr k ∧ ∀ a j, pc ≠ .waitChild a j) ∨
    ((d.slot k).parent = some p ∧ i.data d = d) := by
  have hLoop := fun L : Loop =>
    base_start_ne (.waitChild addr k) L (by rintro _ ⟨⟩) (by rintro _ ⟨⟩)
  cases pc <;>
    simp only [code, Option.map_some] at hCode <;>
    (repeat' split at hCode) <;> cases hCode <;> first
      | exact .inl ⟨hNext, by rintro _ _ ⟨⟩⟩
      | exact absurd hNext (hLoop _).1
      | exact absurd hNext (hLoop _).2
      | (cases hNext; done)
      | (cases hNext; exact .inr ⟨by assumption, rfl⟩)

end

/- A point that holds a lock and is not returned to is never below another one. -/
theorem eq_of_base {self : Option Nat} {pc pc' : Pc} (hOk : pc.Ok self) (hBase : pc.base = pc')
    (hHeld : pc'.held self ≠ []) (hSleep : ¬ pc'.AfterSleep) (hWakeup : ¬ pc'.AfterWakeup) :
    pc = pc' := by
  induction pc with
  | yieldState ret ih | yieldSwitch ret ih | yieldBack ret ih =>
    have hEq := ih hOk.2.2 hBase
    exact absurd (hEq ▸ hOk.2.1) hHeld
  | inside _ ret ih =>
    have hEq := ih hOk.2 hBase
    exact absurd (hEq ▸ hOk.1) hHeld
  | wakeup _ _ ret ih =>
    have hEq := ih hOk.2.2.2 hBase
    exact absurd (hEq ▸ hOk.2.2.1) hWakeup
  | sleepLock _ _ ret ih | sleepRelease _ _ ret ih | sleepState _ _ ret ih
  | sleepSwitch _ _ ret ih | sleepBack _ _ ret ih =>
    have hEq := ih hOk.2.2.2.2.2 hBase
    exact absurd (hEq ▸ hOk.2.2.2.2.1) hSleep
  | sleepRelock _ ret ih =>
    have hEq := ih hOk.2.2.2.2 hBase
    exact absurd (hEq ▸ hOk.2.2.2.1) hSleep
  | _ => exact hBase

theorem eq_waitChild_of_base {addr k : Nat} (hOk : pc.Ok (some p))
    (hBase : pc.base = .waitChild addr k) : pc = .waitChild addr k := by
  refine eq_of_base hOk hBase (by simp [Pc.held]) ?_ ?_
  · intro hAfter
    generalize hEq : Pc.waitChild addr k = ret at hAfter
    cases hAfter with
    | waitScan _ => cases hEq
    | start L =>
      rcases start_cases L with hStart | hStart <;> simp [hStart] at hEq
  · intro hAfter
    cases hAfter

---- One Step

/- How a step can change the parent of slot `j`. -/
inductive Rehome (d : Data) (self : Option Nat) (pc : Pc) (i : Instr)
    (j : Nat) : Option Nat → Prop where
  | adopt {p : Nat}
      (hSelf : self = some p) (hPc : pc = .forkParent j) (hNeeds : i.needs = some .wait) :
      Rehome d self pc i j (some p)
  | reparent {p : Nat}
      {status : Int} (hSelf : self = some p) (hPc : pc = .exitReparent status j)
      (hOld : (d.slot j).parent = some p) :
      Rehome d self pc i j (some d.initproc)
  | free (hPc : pc = .forkBuild j) : Rehome d self pc i j none
  | reap {addr : Nat}
      (hPc : pc = .waitChild addr j) (hOld : (d.slot j).state = .zombie) :
      Rehome d self pc i j none

theorem Edit.rehome {d : Data} {self : Option Nat} {pc : Pc} {i : Instr} {j : Nat} {x : Slot}
    (hEdit : Edit d self pc i j x) :
    x.parent = (d.slot j).parent ∨ Rehome d self pc i j x.parent := by
  cases hEdit with
  | rouse _ _ _ _ =>
    unfold Slot.rouse
    split <;> exact .inl rfl
  | free hPc _ => exact .inr (.free hPc)
  | adopt hSelf hPc hNeeds _ => exact .inr (.adopt hSelf hPc hNeeds)
  | reparent hSelf hPc hOld _ => exact .inr (.reparent hSelf hPc hOld)
  | reap hPc hOld _ _ => exact .inr (.reap hPc hOld)
  | _ => exact .inl rfl

variable {s s' : State} {c : Nat}

theorem Taken.rehome (h : Taken s s' c ch i) (j : Nat) :
    (s'.data.slot j).parent = (s.data.slot j).parent ∨
      Rehome s.data (s.cpu c).stack (s.at c) i j (s'.data.slot j).parent := by
  rcases h.edit j with hSame | hEdit
  · exact .inl (by rw [hSame])
  · exact hEdit.rehome

theorem Taken.shift (h : Taken s s' c ch i) (j : Nat) :
    (s'.data.slot j).state = (s.data.slot j).state ∨
      Transition (s.data.slot j).state (s'.data.slot j).state := by
  rw [exec_data h.exec]
  rcases fetch_shift h.fetch j with hSame | hShift
  · exact .inl hSame
  · exact .inr (h.phases.transition h.locks hShift)

theorem Taken.initproc (h : Taken s s' c ch i) : s'.data.initproc = s.data.initproc := by
  rw [exec_data h.exec]
  rcases fetch_cases h.fetch with hCode | ⟨_, hCase⟩
  · exact code_initproc hCode
  · rcases hCase with ⟨m, rfl⟩ | ⟨_, _, rfl⟩
    · rfl
    · rfl

/- What the program point of the thread says, as its own. -/
theorem Locks.pc_of_at (h : Locks s) {pc : Pc} (hAt : s.at c = pc) (hProcess : ¬ pc.Ok none) :
    ∃ p, (s.cpu c).stack = some p ∧ s.pc p = pc := by
  subst hAt
  rcases h.self_of hProcess with ⟨p, hStack, hPc⟩
  exact ⟨p, hStack, hPc.symm⟩

/- A process in the middle of `wait` holds `wait_lock`. -/
theorem Phases.wait_held (h : Phases s) (hLocks : Locks s) {p addr k : Nat}
    (hPc : s.pc p = .waitChild addr k) : ∃ x, (s.cpu x).stack = some p ∧ s.lock .wait = some x := by
  by_cases hOff : Off s p
  · have hParked := h.parked p hOff
    rw [hPc] at hParked
    cases hParked
  · rcases not_forall_not.1 hOff with ⟨x, hx⟩
    refine ⟨x, hx, hLocks.holds hx ?_⟩
    simp [hPc, Pc.held]

/- A zombie has left no children behind. -/
theorem Phases.swept_of_zombie (h : Phases s) {q : Nat} (hZombie : (s.data.slot q).state = .zombie)
    (j : Nat) : (s.pc q).Swept j := by
  by_cases hOff : Off s q
  · have hParked := h.parked q hOff
    rw [hZombie] at hParked
    revert hParked
    cases s.pc q <;> simp [Pc.parked, Pc.Swept, Pc.base]
  · rcases not_forall_not.1 hOff with ⟨x, hx⟩
    have hActive := h.active x q hx
    rw [hZombie] at hActive
    revert hActive
    cases s.pc q <;> simp [Pc.expects, Pc.Swept, Pc.base]

namespace Family

section

variable (hFamily : Family s) (h : Taken s s' c ch i)
include hFamily h

theorem step_bound (j : Nat) (hj : NPROC ≤ j) : (s'.data.slot j).parent = none := by
  have hNone := hFamily.bound j hj
  rcases h.rehome j with hSame | hRehome
  · rw [hSame]
    exact hNone
  generalize (s'.data.slot j).parent = new at hRehome ⊢
  cases hRehome with
  | adopt _ hAt _ =>
    rcases h.locks.pc_of_at hAt (by simp [Pc.Ok]) with ⟨p, _, hPc⟩
    have hSmall := hFamily.small p j (.inl (by rw [hPc]; rfl))
    exact absurd hj (Nat.not_le.2 hSmall)
  | reparent _ _ hOld =>
    rw [hNone] at hOld
    cases hOld
  | free _ => rfl
  | reap _ _ => rfl

theorem step_small (p k : Nat) (hPc : (s'.pc p).embryo = some k ∨ s'.pc p = .forkAlloc k) :
    k < NPROC := by
  rcases hPc with hPc | hPc
  · rcases h.phases.embryo_before h.locks h.fetch h.exec hPc with ⟨hBefore, _⟩ | ⟨hSelf, hSpawn⟩
    · exact hFamily.small p k (.inl hBefore)
    · have hAt := (fetch_spawned h.fetch hSpawn).1
      rw [State.at, hSelf] at hAt
      exact hFamily.small p k (.inr hAt)
  · rcases h.pc_cases p with ⟨hSelf, _, hNext⟩ | ⟨_, hSame⟩ | ⟨_, hNew⟩
    · rw [hNext] at hPc
      exact (fetch_claims h.locks hSelf h.fetch hPc).2.1
    · exact hFamily.small p k (.inr (hSame ▸ hPc))
    · rw [hNew] at hPc
      cases hPc

theorem step_stays : ¬ (s'.pc s'.data.initproc).Exiting := by
  rw [h.initproc]
  intro hExit
  rcases h.pc_cases s.data.initproc with ⟨hSelf, _, hNext⟩ | ⟨_, hSame⟩ | ⟨_, hNew⟩
  · rw [hNext] at hExit
    rcases fetch_self h.locks hSelf h.fetch with
      hCode | ⟨_, _, hCase⟩
    · rcases code_exiting hCode hExit with hOld | hNe
      · exact hFamily.stays hOld
      · exact hNe rfl
    · refine hFamily.stays ?_
      unfold Pc.Exiting at hExit ⊢
      rw [interrupt_base hCase] at hExit
      exact hExit
  · rw [hSame] at hExit
    exact hFamily.stays hExit
  · rw [hNew] at hExit
    exact hExit

/- A process in `exit` keeps no child it has passed. -/
theorem step_swept (q j : Nat) (hSwept : (s'.pc q).Swept j) : (s'.data.slot j).parent ≠ some q := by
  have hBefore : (s.pc q).Swept j ∨ (s'.data.slot j).parent ≠ some q ∨ NPROC ≤ j := by
    rcases h.pc_cases q with ⟨hSelf, _, hNext⟩ | ⟨_, hSame⟩ | ⟨_, hNew⟩
    · rw [hNext] at hSwept
      rcases fetch_self h.locks hSelf h.fetch with
        hCode | ⟨_, _, hCase⟩
      · rw [exec_data h.exec]
        refine code_swept hCode ?_ hSwept
        rintro hExit rfl
        exact hFamily.stays hExit
      · unfold Pc.Swept at hSwept ⊢
        rw [interrupt_base hCase] at hSwept
        exact .inl hSwept
    · rw [hSame] at hSwept
      exact .inl hSwept
    · rw [hNew] at hSwept
      exact absurd hSwept id
  rcases hBefore with hOld | hNow | hOut
  · rcases h.rehome j with hSame | hRehome
    · rw [hSame]
      exact hFamily.swept q j hOld
    generalize (s'.data.slot j).parent = new at hRehome ⊢
    cases hRehome with
    | adopt hSelf hAt _ =>
      -- a process in fork is not in exit
      rintro ⟨⟩
      rw [State.at, hSelf] at hAt
      dsimp only at hAt
      rw [hAt] at hOld
      exact hOld
    | reparent _ _ _ =>
      rintro ⟨⟩
      exact hFamily.stays hOld.exiting
    | free _ => rintro ⟨⟩
    | reap _ _ => rintro ⟨⟩
  · exact hNow
  · rw [hFamily.step_bound h j hOut]
    rintro ⟨⟩

theorem step_init :
    (s'.data.slot s'.data.initproc).state ≠ .unused ∧
      (s'.data.slot s'.data.initproc).state ≠ .used := by
  rw [h.initproc]
  rcases h.shift s.data.initproc with hSame | hMove
  · rw [hSame]
    exact hFamily.init
  have hZombie : (s.data.slot s.data.initproc).state ≠ .zombie := by
    intro hZombie
    have hSwept := h.phases.swept_of_zombie hZombie 0
    exact hFamily.stays hSwept.exiting
  have hInit := hFamily.init
  generalize (s.data.slot s.data.initproc).state = old at hMove hInit hZombie
  generalize (s'.data.slot s.data.initproc).state = new at hMove ⊢
  cases hMove <;> simp_all

/- Free and new slots have no children. -/
theorem step_childless (q j : Nat)
    (hState : (s'.data.slot q).state = .unused ∨ (s'.data.slot q).state = .used) :
    (s'.data.slot j).parent ≠ some q := by
  have hBefore : (s.data.slot j).parent ≠ some q := by
    rcases h.shift q with hSame | hMove
    · rw [hSame] at hState
      exact hFamily.childless q j hState
    · by_cases hZombie : (s.data.slot q).state = .zombie
      · exact hFamily.swept q j (h.phases.swept_of_zombie hZombie j)
      · refine hFamily.childless q j ?_
        generalize (s.data.slot q).state = old at hMove hZombie ⊢
        generalize (s'.data.slot q).state = new at hMove hState
        cases hMove <;> simp_all
  rcases h.rehome j with hSame | hRehome
  · rw [hSame]
    exact hBefore
  generalize (s'.data.slot j).parent = new at hRehome ⊢
  cases hRehome with
  | adopt hSelf hAt _ =>
    -- the new parent is running
    rintro ⟨⟩
    have hRunning := h.phases.active c _ hSelf
    rw [State.at, hSelf] at hAt
    dsimp only at hAt
    rw [hAt] at hRunning
    have hMove := h.shift q
    rw [hRunning] at hMove
    generalize (s'.data.slot q).state = new at hMove hState
    rcases hMove with rfl | hMove
    · simp [Pc.expects] at hState
    · cases hMove <;> simp at hState
  | reparent _ _ _ =>
    rintro ⟨⟩
    have hInit := hFamily.step_init h
    rw [h.initproc] at hInit
    exact hState.elim hInit.1 hInit.2
  | free _ => rintro ⟨⟩
  | reap _ _ => rintro ⟨⟩

end

/- A process that executes is neither free nor new. -/
theorem self_state (h : Taken s s' c ch i) {p : Nat} (hSelf : (s.cpu c).stack = some p) :
    (s.data.slot p).state ≠ .unused ∧ (s.data.slot p).state ≠ .used := by
  rw [h.phases.active c p hSelf]
  exact expects_ne_unused (s.pc p)

section

variable (hFamily : Family s) (h : Taken s s' c ch i)
include hFamily h

theorem step_parented (p : Nat) (hUnused : (s'.data.slot p).state ≠ .unused)
    (hUsed : (s'.data.slot p).state ≠ .used) (hInit : p ≠ s'.data.initproc) :
    (s'.data.slot p).parent ≠ none := by
  rw [h.initproc] at hInit
  have hOld : (s.data.slot p).state ≠ .unused ∧ (s.data.slot p).state ≠ .used →
      (s.data.slot p).parent ≠ none := fun hState =>
    hFamily.parented p hState.1 hState.2 hInit
  rcases h.edit p with hSame | hEdit
  · rw [hSame] at hUnused hUsed ⊢
    exact hOld ⟨hUnused, hUsed⟩
  generalize s'.data.slot p = x at hEdit hUnused hUsed ⊢
  cases hEdit with
  | setkilled hSelf _ _ => exact hOld (self_state h hSelf)
  | dispatch _ hRunnable => exact hOld (by simp [hRunnable])
  | yield hSelf _ _ | sleep hSelf _ _ | awake hSelf _ _ => exact hOld (self_state h hSelf)
  | @rouse ch _ _ _ _ _ =>
    have hState := rouse_state (s.data.slot p) ch
    have hKept := hOld (by
      rcases hState with hSame | ⟨hAsleep, _⟩
      · rw [hSame] at hUnused hUsed
        exact ⟨hUnused, hUsed⟩
      · simp [hAsleep])
    unfold Slot.rouse
    split <;> exact hKept
  | kill _ _ _ _ =>
    refine hOld ?_
    rcases kill_state (s.data.slot p) with
      hSame | ⟨hAsleep, _⟩
    · rw [hSame] at hUnused hUsed
      exact ⟨hUnused, hUsed⟩
    · simp [hAsleep]
  | alloc _ _ _ => exact absurd rfl hUsed
  | free _ _ => exact absurd rfl hUnused
  | adopt _ _ _ _ => rintro ⟨⟩
  | run hAt _ _ =>
    rcases h.locks.pc_of_at hAt (by simp [Pc.Ok]) with ⟨q, _, hPc⟩
    exact hFamily.adopted q p (by rw [hPc]; rfl)
  | reparent _ _ _ _ => rintro ⟨⟩
  | exit hSelf _ _ => exact hOld (self_state h hSelf)
  | reap _ _ _ _ => exact absurd rfl hUnused

theorem step_orphan (p : Nat) (hUnused : (s'.data.slot p).state = .unused) :
    (s'.data.slot p).parent = none := by
  rcases h.edit p with hSame | hEdit
  · rw [hSame] at hUnused ⊢
    exact hFamily.orphan p hUnused
  generalize s'.data.slot p = x at hEdit hUnused ⊢
  cases hEdit with
  | setkilled hSelf _ _ => exact absurd hUnused (self_state h hSelf).1
  | awake hSelf _ _ => exact absurd hUnused (self_state h hSelf).1
  | @rouse ch _ _ _ _ _ =>
    rcases rouse_state (s.data.slot p) ch with
      hSame | ⟨_, hNew⟩
    · rw [hSame] at hUnused
      have hNone := hFamily.orphan p hUnused
      unfold Slot.rouse
      split <;> exact hNone
    · rw [hNew] at hUnused
      cases hUnused
  | kill _ _ _ _ =>
    rcases kill_state (s.data.slot p) with
      hSame | ⟨_, hNew⟩
    · rw [hSame] at hUnused
      exact hFamily.orphan p hUnused
    · rw [hNew] at hUnused
      cases hUnused
  | free _ _ => rfl
  | adopt _ hAt _ _ =>
    have hUsed := h.phases.at_embryo h.locks (k := p) (by rw [hAt]; rfl)
    cases hUsed.1.symm.trans hUnused
  | reparent _ _ hOld _ =>
    rw [hFamily.orphan p hUnused] at hOld
    cases hOld
  | reap _ _ _ _ => rfl
  | _ => cases hUnused

theorem step_fresh (p k : Nat) (hPc : (s'.pc p).base = .forkBuild k) :
    (s'.data.slot k).parent = none := by
  have hBefore : (s.data.slot k).parent = none ∧ s.at c ≠ .forkParent k := by
    rcases h.pc_cases p with ⟨hSelf, hAt, hNext⟩ | ⟨hOther, hSame⟩ | ⟨_, hNew⟩
    · rw [hNext] at hPc
      rw [hAt]
      have hBase : (s.pc p).base = .forkBuild k ∨ s.pc p = .forkAlloc k := by
        rcases fetch_self h.locks hSelf h.fetch with
          hCode | ⟨_, _, hCase⟩
        · exact code_build hCode hPc
        · rw [interrupt_base hCase] at hPc
          exact .inl hPc
      rcases hBase with hBase | hAlloc
      · refine ⟨hFamily.fresh p k hBase, fun hEq => ?_⟩
        rw [hEq] at hBase
        cases hBase
      · have hFree := h.phases.claimed p k hAlloc
        refine ⟨hFamily.orphan k hFree, fun hEq => ?_⟩
        rw [hEq] at hAlloc
        cases hAlloc
    · rw [hSame] at hPc
      refine ⟨hFamily.fresh p k hPc, fun hAt => ?_⟩
      -- two forks do not share a slot
      rcases h.locks.pc_of_at hAt (by simp [Pc.Ok]) with ⟨q, hq, hPcq⟩
      have hEq := h.phases.lone p q k (by unfold Pc.embryo; rw [hPc]) (by rw [hPcq]; rfl)
      exact hOther (hEq ▸ hq)
    · rw [hNew] at hPc
      cases hPc
  rcases h.rehome k with hSame | hRehome
  · rw [hSame]
    exact hBefore.1
  generalize (s'.data.slot k).parent = new at hRehome ⊢
  cases hRehome with
  | adopt _ hAt _ => exact absurd hAt hBefore.2
  | reparent _ _ hOld =>
    rw [hBefore.1] at hOld
    cases hOld
  | free _ => rfl
  | reap _ _ => rfl

theorem step_adopted (p k : Nat) (hPc : (s'.pc p).base = .forkRun k) :
    (s'.data.slot k).parent ≠ none := by
  have hBefore : (s'.data.slot k).parent ≠ none ∨
      ((s.pc p).base = .forkRun k ∧ s.at c ≠ .forkBuild k) := by
    rcases h.pc_cases p with ⟨hSelf, hAt, hNext⟩ | ⟨hOther, hSame⟩ | ⟨_, hNew⟩
    · rw [hNext] at hPc
      have hBase : (s.pc p).base = .forkRun k ∨ (s'.data.slot k).parent ≠ none := by
        rcases fetch_self h.locks hSelf h.fetch with
          hCode | ⟨_, _, hCase⟩
        · rw [exec_data h.exec]
          exact code_adopted hCode hPc
        · rw [interrupt_base hCase] at hPc
          exact .inl hPc
      rcases hBase with hBase | hDone
      · refine .inr ⟨hBase, fun hEq => ?_⟩
        rw [← hAt, hEq] at hBase
        cases hBase
      · exact .inl hDone
    · rw [hSame] at hPc
      refine .inr ⟨hPc, fun hAt => ?_⟩
      rcases h.locks.pc_of_at hAt (by simp [Pc.Ok]) with ⟨q, hq, hPcq⟩
      have hEq := h.phases.lone p q k (by unfold Pc.embryo; rw [hPc]) (by rw [hPcq]; rfl)
      exact hOther (hEq ▸ hq)
    · rw [hNew] at hPc
      cases hPc
  rcases hBefore with hDone | ⟨hBase, hNot⟩
  · exact hDone
  rcases h.rehome k with hSame | hRehome
  · rw [hSame]
    exact hFamily.adopted p k hBase
  generalize (s'.data.slot k).parent = new at hRehome ⊢
  cases hRehome with
  | adopt _ _ _ => rintro ⟨⟩
  | reparent _ _ _ => rintro ⟨⟩
  | free hAt => exact absurd hAt hNot
  | reap _ hZombie =>
    have hUsed := h.phases.embryo p k (by unfold Pc.embryo; rw [hBase])
    rw [hUsed.1] at hZombie
    cases hZombie

theorem step_child (p addr k : Nat) (hPc : (s'.pc p).base = .waitChild addr k) :
    (s'.data.slot k).parent = some p := by
  have hPoint : (s.pc p).base = .waitChild addr k → s.pc p = .waitChild addr k := fun hBase =>
    eq_waitChild_of_base (h.locks.ok p) hBase
  rcases h.pc_cases p with ⟨hSelf, _, hNext⟩ | ⟨hOther, hSame⟩ | ⟨_, hNew⟩
  · rw [hNext] at hPc
    rcases fetch_self h.locks hSelf h.fetch with
      hCode | ⟨hHeld, _, hCase⟩
    · rcases code_child hCode hPc with ⟨hBase, hNot⟩ | ⟨hParent, hData⟩
      · exact absurd (hPoint hBase) (hNot addr k)
      · rw [exec_data h.exec, hData]
        exact hParent
    · rw [interrupt_base hCase] at hPc
      rw [hPoint hPc] at hHeld
      cases hHeld
  · -- nobody else changes parents while wait_lock is held
    rw [hSame] at hPc
    have hParent := hFamily.child p addr k hPc
    rcases h.phases.wait_held h.locks (hPoint hPc) with ⟨x, hx, hHeld⟩
    have hMine : Lock.wait ∉ (s.at c).held (s.cpu c).stack := by
      intro hMem
      have hHolder := (h.locks.holder .wait c).2 hMem
      rw [hHeld] at hHolder
      cases hHolder
      exact hOther hx
    rcases h.rehome k with hSame | hRehome
    · rw [hSame]
      exact hParent
    generalize (s'.data.slot k).parent = new at hRehome ⊢
    cases hRehome with
    | adopt _ _ hNeeds =>
      rw [exec_free h.exec hNeeds] at hHeld
      cases hHeld
    | reparent _ hAt _ =>
      rw [hAt] at hMine
      exact absurd (List.mem_singleton_self _) hMine
    | free hAt =>
      rcases h.locks.pc_of_at hAt (by simp [Pc.Ok]) with ⟨q, _, hPcq⟩
      have hNone := hFamily.fresh q k (by rw [hPcq]; rfl)
      rw [hParent] at hNone
      cases hNone
    | reap hAt _ =>
      rw [hAt] at hMine
      exact absurd (List.mem_singleton_self _) hMine
  · rw [hNew] at hPc
    cases hPc

theorem step : Family s' where
  swept := hFamily.step_swept h
  childless := hFamily.step_childless h
  init := hFamily.step_init h
  stays := hFamily.step_stays h
  parented := hFamily.step_parented h
  orphan := hFamily.step_orphan h
  fresh := hFamily.step_fresh h
  adopted := hFamily.step_adopted h
  child := hFamily.step_child h
  small := hFamily.step_small h
  bound := hFamily.step_bound h

end

end Family

theorem boot_parent (j : Nat) : (boot.data.slot j).parent = none := by
  by_cases hj : j = 0 <;> simp [boot, hj, Slot.empty]

theorem boot_pc (p : Nat) : boot.pc p = if p = 0 then .forkret else .exited := rfl

theorem boot_family : Family boot where
  swept q j _ := by
    rw [boot_parent]
    rintro ⟨⟩
  childless q j _ := by
    rw [boot_parent]
    rintro ⟨⟩
  init := by simp [boot]
  stays := by simp [boot, Pc.Exiting, Pc.base]
  parented p hUnused _ hInit := by
    have hp : p ≠ 0 := hInit
    simp [boot, hp, Slot.empty] at hUnused
  orphan p _ := boot_parent p
  fresh p k _ := boot_parent k
  adopted p k hPc := by
    rw [boot_pc] at hPc
    split at hPc <;> cases hPc
  child p addr k hPc := by
    rw [boot_pc] at hPc
    split at hPc <;> cases hPc
  small p k hPc := by
    rw [boot_embryo, boot_pc] at hPc
    rcases hPc with hPc | hPc
    · cases hPc
    · split at hPc <;> cases hPc
  bound j _ := boot_parent j

theorem Reachable.family {s : State} (hReach : Reachable s) : Family s := by
  induction hReach with
  | boot => exact boot_family
  | step c ch hReach hStep ih =>
    rcases Taken.of_step hReach hStep with ⟨i, hTaken⟩
    exact ih.step hTaken

end Xv6.Sched

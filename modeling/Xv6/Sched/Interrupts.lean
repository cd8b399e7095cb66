import Mathlib.Logic.Function.Basic

/-
  Interrupts and `push_off` (`spinlock.c`), with the switches
  between threads (`proc.c`).

  A CPU runs its scheduler or the thread of a process. Locks
  matter here only through their `push_off` and `pop_off`:
  `acquire` is a push, `release` is a pop, `yield` is a push,
  `sched` and a pop, and `sleep` has further ones. A thread
  turns interrupts on or off itself, by `intr_on`, a trap or
  the return from one, when it has nothing pushed. In
  `sched` and the scheduler, `p->lock` is the one push of
  both threads, so each has its own push to undo.

  The history is not in the source: what every thread has
  pushed, the interrupt flag at its outermost push, and the
  pushes on each CPU that were not undone there.

  Main declarations:
    * `interrupts_restored`
-/

namespace Xv6.Sched.Interrupts

open Function (update update_self update_of_ne)

structure Cpu where
  noff : Nat
  intena : Bool
  intr : Bool

inductive Panic where
  | interruptible
  | popOff
deriving DecidableEq

def pushOff (x : Cpu) : Cpu where
  noff := x.noff + 1
  intena := if x.noff = 0 then x.intr else x.intena
  intr := false

def popOff (x : Cpu) : Except Panic Cpu :=
  if x.intr = true then
    .error .interruptible
  else if x.noff < 1 then
    .error .popOff
  else
    .ok
      { x with
        noff := x.noff - 1
        intr := decide (x.noff - 1 = 0) && x.intena }

inductive Tid where
  | scheduler (c : Nat)
  | proc (p : Nat)
deriving DecidableEq

/-
  The pushes of a thread. A new process starts with the push
  of the scheduler for its lock; `first` says that `forkret`
  has not undone it yet.
-/
structure Thread where
  depth : Nat
  outer : Bool
  first : Bool

/-
  `running` is the state `RUNNING` of a process, and `saved`
  the variable `intena` of its call of `sched`.
-/
structure State where
  cpu : Nat → Cpu
  cur : Nat → Tid
  thread : Tid → Thread
  running : Nat → Bool
  saved : Nat → Option Bool
  undone : Nat → Nat

def State.init : State where
  cpu := fun _ => ⟨0, false, false⟩
  cur := .scheduler
  thread := fun
    | .scheduler _ => ⟨0, false, false⟩
    | .proc _ => ⟨1, false, true⟩
  running := fun _ => false
  saved := fun _ => none
  undone := fun _ => 0

inductive Act where
  | push
  | pop
  | setIntr (on : Bool)
  | sched
  | run (p : Nat)

def Thread.push (t : Thread) (intr : Bool) : Thread :=
  { t with
    depth := t.depth + 1
    outer := if t.depth = 0 then intr else t.outer }

def Thread.pop (t : Thread) : Thread :=
  { t with
    depth := t.depth - 1
    first := t.first && decide (t.depth - 1 ≠ 0) }

/-
  An action of the thread on CPU `c`. Pops are matched, and
  `sched` and the scheduler have only `p->lock`. The result
  is `none` if the action is not allowed or panics.
-/
def step (s : State) (c : Nat) : Act → Option State
  | .push =>
    some
      { s with
        cpu := update s.cpu c (pushOff (s.cpu c))
        thread := update s.thread (s.cur c) ((s.thread (s.cur c)).push (s.cpu c).intr)
        undone := update s.undone c (s.undone c + 1) }
  | .pop =>
    if 0 < (s.thread (s.cur c)).depth then
      match popOff (s.cpu c) with
      | .error _ => none
      | .ok x =>
        some
          { s with
            cpu := update s.cpu c x
            thread := update s.thread (s.cur c) (s.thread (s.cur c)).pop
            undone := update s.undone c (s.undone c - 1) }
    else none
  | .setIntr on =>
    if (s.thread (s.cur c)).depth = 0 then
      some { s with cpu := update s.cpu c { s.cpu c with intr := on } }
    else none
  | .sched =>
    match s.cur c with
    | .scheduler _ => none
    | .proc p =>
      if (s.cpu c).noff = 1 ∧ (s.cpu c).intr = false then
        some
          { s with
            saved := update s.saved p (some (s.cpu c).intena)
            running := update s.running p false
            cur := update s.cur c (.scheduler c) }
      else none
  | .run p =>
    -- The process sets `intena` back when it is in `sched`.
    if s.cur c = .scheduler c ∧ (s.cpu c).noff = 1 ∧ s.running p = false then
      some
        { s with
          cpu := update s.cpu c { s.cpu c with intena := (s.saved p).getD (s.cpu c).intena }
          running := update s.running p true
          cur := update s.cur c (.proc p) }
    else none

inductive Reachable : State → Prop where
  | init : Reachable State.init
  | step {s s' : State}
      {c : Nat} {a : Act} (hReach : Reachable s) (hStep : step s c a = some s') :
      Reachable s'

def steps (s : State) : List (Nat × Act) → Option State
  | [] => some s
  | (c, a) :: rest => (step s c a).bind (steps · rest)

theorem Reachable.steps {s s' : State} {as : List (Nat × Act)} (h : Reachable s)
    (hRun : steps s as = some s') : Reachable s' := by
  induction as generalizing s with
  | nil =>
    cases hRun
    exact h
  | cons a as ih =>
    rcases Option.bind_eq_some_iff.mp hRun with ⟨t, hStep, hRest⟩
    exact ih (h.step hStep) hRest

/-
  `noff` counts the pushes of the running thread, and
  `intena` is its outer flag if it is a process. A thread
  that does not run has one push, and a process has its outer
  flag in `saved` then.
-/
structure Inv (s : State) : Prop where
  off : ∀ c, 0 < (s.cpu c).noff → (s.cpu c).intr = false
  count : ∀ c, (s.cpu c).noff = s.undone c
  depth : ∀ c, (s.cpu c).noff = (s.thread (s.cur c)).depth
  here : ∀ c p, s.cur c = .proc p → (s.thread (.proc p)).first = false →
    0 < (s.cpu c).noff → (s.cpu c).intena = (s.thread (.proc p)).outer
  away : ∀ p, s.running p = false → (s.thread (.proc p)).depth = 1 ∧
    ((s.thread (.proc p)).first = false → s.saved p = some (s.thread (.proc p)).outer)
  idle : ∀ c, s.cur c ≠ .scheduler c → (s.thread (.scheduler c)).depth = 1
  own : ∀ c d, s.cur c = .scheduler d → d = c
  alone : ∀ c d, s.cur c = s.cur d → c = d
  runs : ∀ c p, s.cur c = .proc p → s.running p = true

section

variable {s s' : State} {c : Nat}

theorem Inv.init : Inv State.init where
  off := fun _ h => absurd h (Nat.lt_irrefl 0)
  count := fun _ => rfl
  depth := fun _ => rfl
  here := fun _ _ h => nomatch h
  away := fun _ _ => ⟨rfl, nofun⟩
  idle := fun _ h => absurd rfl h
  own := fun _ _ h => (Tid.scheduler.inj h).symm
  alone := fun _ _ h => Tid.scheduler.inj h
  runs := fun _ _ h => nomatch h

theorem Inv.act (h : Inv s) {x : Cpu} {t : Thread} {n : Nat} (hOff : 0 < x.noff → x.intr = false)
    (hCount : x.noff = n) (hDepth : x.noff = t.depth)
    (hHere : t.first = false → 0 < x.noff → (∃ p, s.cur c = .proc p) → x.intena = t.outer) :
    Inv { s with
      cpu := update s.cpu c x
      thread := update s.thread (s.cur c) t
      undone := update s.undone c n } := by
  have hOther : ∀ d, d ≠ c → s.cur d ≠ s.cur c := fun d hd hEq => hd (h.alone d c hEq)
  refine ⟨fun d => ?_, fun d => ?_, fun d => ?_, fun d p hCur => ?_, fun p hAway => ?_,
    fun d hIdle => ?_, h.own, h.alone, h.runs⟩
  · by_cases hd : d = c
    · simpa [hd] using hOff
    · simpa [hd] using h.off d
  · by_cases hd : d = c
    · simpa [hd] using hCount
    · simpa [hd] using h.count d
  · by_cases hd : d = c
    · simpa [hd] using hDepth
    · simpa [hd, hOther d hd] using h.depth d
  · dsimp only at hCur ⊢
    by_cases hd : d = c
    · rw [hd] at hCur ⊢
      rw [← hCur, update_self, update_self]
      exact fun hFirst hPos => hHere hFirst hPos ⟨p, hCur⟩
    · rw [← hCur, update_of_ne hd, update_of_ne (hOther d hd), hCur]
      exact h.here d p hCur
  · have hNe : Tid.proc p ≠ s.cur c := by
      intro hEq
      simp [h.runs c p hEq.symm] at hAway
    simpa [hNe] using h.away p hAway
  · have hNe : Tid.scheduler d ≠ s.cur c := by
      intro hEq
      have hSame := h.own c d hEq.symm
      subst hSame
      exact hIdle hEq.symm
    simpa [hNe] using h.idle d hIdle

theorem Inv.popOff_ok (h : Inv s) (hDepth : 0 < (s.thread (s.cur c)).depth) :
    popOff (s.cpu c) = .ok { s.cpu c with
      noff := (s.cpu c).noff - 1
      intr := decide ((s.cpu c).noff - 1 = 0) && (s.cpu c).intena } := by
  rw [← h.depth] at hDepth
  unfold popOff
  rw [h.off c hDepth, if_neg Bool.false_ne_true, if_neg (by omega)]

theorem Inv.sched (h : Inv s) {p : Nat} (hCur : s.cur c = .proc p) (hOne : (s.cpu c).noff = 1) :
    Inv { s with
      saved := update s.saved p (some (s.cpu c).intena)
      running := update s.running p false
      cur := update s.cur c (.scheduler c) } := by
  have hDepth := h.depth c
  rw [hCur, hOne] at hDepth
  have hIdle := h.idle c (by simp [hCur])
  refine ⟨h.off, h.count, fun d => ?_, fun d q => ?_, fun q => ?_, fun d => ?_, fun d e => ?_,
    fun d e => ?_, fun d q => ?_⟩
  · by_cases hd : d = c
    · simpa [hd, hOne] using hIdle.symm
    · simpa [hd] using h.depth d
  · by_cases hd : d = c
    · simp [hd]
    · simpa [hd] using h.here d q
  · by_cases hq : q = p
    · subst hq
      simpa [← hDepth] using fun hFirst => h.here c q hCur hFirst (by omega)
    · simpa [hq] using h.away q
  · by_cases hd : d = c
    · simp [hd]
    · simpa [hd] using h.idle d
  · by_cases hd : d = c
    · simpa [hd] using Eq.symm
    · simpa [hd] using h.own d e
  · by_cases hd : d = c
    · by_cases he : e = c
      · exact fun _ => hd.trans he.symm
      · simpa [hd, he] using fun hEq => (h.own e c hEq.symm)
    · by_cases he : e = c
      · simpa [hd, he] using fun hEq => (h.own d c hEq).symm
      · simpa [hd, he] using h.alone d e
  · by_cases hd : d = c
    · simp [hd]
    · by_cases hq : q = p
      · subst hq
        simpa [hd] using fun hEq => hd (h.alone d c (hEq.trans hCur.symm))
      · simpa [hd, hq] using h.runs d q

theorem Inv.run (h : Inv s) {p : Nat} (hCur : s.cur c = .scheduler c) (hOne : (s.cpu c).noff = 1)
    (hAway : s.running p = false) :
    Inv { s with
      cpu := update s.cpu c { s.cpu c with intena := (s.saved p).getD (s.cpu c).intena }
      running := update s.running p true
      cur := update s.cur c (.proc p) } := by
  rcases h.away p hAway with ⟨hDepth, hSaved⟩
  have hOwn := h.depth c
  rw [hCur, hOne] at hOwn
  have hNot : ∀ d, s.cur d ≠ .proc p := by
    intro d hEq
    simp [h.runs d p hEq] at hAway
  refine ⟨fun d => ?_, fun d => ?_, fun d => ?_, fun d q => ?_, fun q => ?_, fun d => ?_,
    fun d e => ?_, fun d e => ?_, fun d q => ?_⟩
  · by_cases hd : d = c
    · simpa [hd] using h.off c
    · simpa [hd] using h.off d
  · by_cases hd : d = c
    · simpa [hd] using h.count c
    · simpa [hd] using h.count d
  · by_cases hd : d = c
    · simp [hd, hOne, hDepth]
    · simpa [hd] using h.depth d
  · by_cases hd : d = c
    · subst hd
      simp only [update_self, Tid.proc.injEq]
      rintro rfl hFirst _
      rw [hSaved hFirst, Option.getD_some]
    · simpa [hd] using h.here d q
  · by_cases hq : q = p
    · simp [hq]
    · simpa [hq] using h.away q
  · by_cases hd : d = c
    · simp [hd, hOwn]
    · simpa [hd] using h.idle d
  · by_cases hd : d = c
    · simp [hd]
    · simpa [hd] using h.own d e
  · by_cases hd : d = c
    · by_cases he : e = c
      · exact fun _ => hd.trans he.symm
      · simpa [hd, he] using fun hEq => absurd hEq.symm (hNot e)
    · by_cases he : e = c
      · simpa [hd, he] using fun hEq => absurd hEq (hNot d)
      · simpa [hd, he] using h.alone d e
  · by_cases hd : d = c
    · simpa [hd] using fun hEq : p = q => by simp [hEq]
    · by_cases hq : q = p
      · simp [hq]
      · simpa [hd, hq] using h.runs d q

theorem Inv.step {a : Act} (h : Inv s) (hStep : step s c a = some s') : Inv s' := by
  have hDepth := h.depth c
  cases a with
  | push =>
    cases hStep
    refine h.act (fun _ => rfl) (congrArg (· + 1) (h.count c)) (congrArg (· + 1) hDepth) ?_
    rintro hFirst - ⟨p, hCur⟩
    dsimp only [pushOff, Thread.push] at hFirst ⊢
    rw [← hDepth]
    split
    · rfl
    · rename_i hPos
      rw [hCur] at hFirst ⊢
      exact h.here c p hCur hFirst (Nat.pos_of_ne_zero hPos)
  | pop =>
    dsimp only [Interrupts.step] at hStep
    split at hStep
    · rename_i hPos
      rw [h.popOff_ok hPos] at hStep
      cases hStep
      refine h.act ?_ (congrArg (· - 1) (h.count c)) (congrArg (· - 1) hDepth) ?_
      · intro hMore
        simp [Nat.ne_of_gt hMore]
      · rintro hFirst hMore ⟨p, hCur⟩
        dsimp only [Thread.pop] at hFirst hMore ⊢
        rw [← hDepth, decide_eq_true (Nat.ne_of_gt hMore), Bool.and_true] at hFirst
        rw [hCur] at hFirst ⊢
        exact h.here c p hCur hFirst (by omega)
    · cases hStep
  | setIntr on =>
    rcases Option.ite_none_right_eq_some.mp hStep with ⟨hZero, hEq⟩
    cases hEq
    have hNone : (s.cpu c).noff = 0 := hDepth.trans hZero
    have hSame :=
      h.act (c := c) (x := { s.cpu c with intr := on }) (t := s.thread (s.cur c)) (n := s.undone c)
        (fun hPos => absurd hNone (Nat.ne_of_gt hPos)) (h.count c) hDepth
        (fun _ hPos => absurd hNone (Nat.ne_of_gt hPos))
    simpa using hSame
  | sched =>
    dsimp only [Interrupts.step] at hStep
    split at hStep
    · cases hStep
    · rename_i p hCur
      rcases Option.ite_none_right_eq_some.mp hStep with ⟨⟨hOne, _⟩, hEq⟩
      cases hEq
      exact h.sched hCur hOne
  | run p =>
    rcases Option.ite_none_right_eq_some.mp hStep with ⟨⟨hCur, hOne, hAway⟩, hEq⟩
    cases hEq
    exact h.run hCur hOne hAway

theorem Reachable.inv (h : Reachable s) : Inv s := by
  induction h with
  | init => exact Inv.init
  | step _ hStep ih => exact ih.step hStep

/-
  In every run: interrupts are off where something is pushed,
  `noff` counts what was pushed on the CPU and not undone, a
  matched `pop_off` does not panic, and when the last push of
  a process is undone, except the first time, the flag is
  what it was at the outermost push.
-/
theorem interrupts_restored
    (hReach : Reachable s)
    (c : Nat) :
    (0 < (s.cpu c).noff → (s.cpu c).intr = false) ∧
    (s.cpu c).noff = s.undone c ∧
    (0 < (s.thread (s.cur c)).depth → ∃ x, popOff (s.cpu c) = .ok x) ∧
    ∀ p s',
      s.cur c = .proc p →
      (s.thread (.proc p)).first = false →
      step s c .pop = some s' →
      (s'.thread (.proc p)).depth = 0 →
      (s'.cpu c).intr = (s.thread (.proc p)).outer := by
  have h := hReach.inv
  refine ⟨h.off c, h.count c, fun hPos => ⟨_, h.popOff_ok hPos⟩, ?_⟩
  intro p s' hCur hFirst hStep hZero
  dsimp only [Interrupts.step] at hStep
  split at hStep
  · rename_i hPos
    rw [h.popOff_ok hPos] at hStep
    cases hStep
    rw [← h.depth] at hPos
    have hLast : (s.cpu c).noff - 1 = 0 := by
      rw [h.depth c, hCur]
      simpa [hCur, Thread.pop] using hZero
    simpa [hLast] using h.here c p hCur hFirst hPos
  · cases hStep

end

/- A process yields on one CPU and goes on on another one. -/
def migration : List (Nat × Act) :=
  [(0, .push), (0, .run 0), (0, .pop), (0, .setIntr true), (0, .push), (0, .sched), (1, .push),
    (1, .run 0)]

theorem interrupts_restored_migration :
    ∃ s s', steps State.init migration = some s ∧ step s 1 .pop = some s' ∧
      (s.thread (.proc 0)).outer = true ∧ (s'.cpu 1).intr = (s.thread (.proc 0)).outer :=
  ⟨_, _, rfl, rfl, rfl,
    (interrupts_restored (@Reachable.steps _ _ migration .init rfl) 1).2.2.2 0 _ rfl rfl rfl rfl⟩

end Xv6.Sched.Interrupts

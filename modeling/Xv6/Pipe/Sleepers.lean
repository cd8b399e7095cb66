import Xv6.Pipe.Fifo

/-
  Processes that sleep in a pipe.

  A reader sleeps while the ring is empty and a writer while
  it is full. Whoever changes that owes the sleepers a
  `wakeup` before the lock is given up. `pipewrite` does not
  pay when it returns early with bytes put into the ring;
  in all other runs no sleeper is forgotten.

  Main declarations:
    * `Awake.step`
    * `sleepers_wait`
    * `reader_forgotten`
-/

namespace Xv6.Pipe

---- Runs

/- The index at which `pipewrite` returns early, if it does. -/
def earlyReturn (s : State) (p : Nat) : Option Nat :=
  match (s.procs p).pc with
  | .write _ n (.loop i) =>
    if (i : Int) < n ∧ (s.pipe.readopen = false ∨ (s.procs p).killed = true) then some i else none
  | _ => none

/- The index at which each writer last took the lock, after one more step. -/
def track (s : State) (since : Nat → Nat) : Action → Nat → Nat
  | .run p =>
    match (s.procs p).pc with
    | .write _ _ (.acquire i) => Function.update since p i
    | _ => since
  | _ => since

/- An early return finds no byte put under this lock. -/
def Settles (s : State) (since : Nat → Nat) : Action → Prop
  | .run p => ∀ i ∈ earlyReturn s p, i = since p
  | _ => True

instance decidableSettles (s : State) (since : Nat → Nat) :
    ∀ a, Decidable (Settles s since a)
  | .run p => inferInstanceAs (Decidable (∀ i ∈ earlyReturn s p, i = since p))
  | .call _ _ | .kill _ | .close _ => inferInstanceAs (Decidable True)

/-
  Runs in which an early return of `pipewrite` finds no byte
  put since the writer last took the lock.
-/
inductive Settled (page : Nat → UInt8) : State → (Nat → Nat) → Prop where
  | init : Settled page (State.init page) (fun _ => 0)
  | step {s s' : State}
      {since : Nat → Nat} {a : Action} (hRun : Settled page s since) (hEarly : Settles s since a)
      (hStep : step s a = some s') :
      Settled page s' (track s since a)

---- Invariant

/- A reader has to wait. -/
def Buffer.Empty (pi : Buffer) : Prop := pi.nread = pi.nwrite ∧ pi.writeopen = true

/- A writer has to wait. -/
def Buffer.Full (pi : Buffer) : Prop :=
  pi.nwrite = (pi.nread + PIPESIZE) % UINT ∧ pi.readopen = true

def Pc.locked : Pc → Bool
  | .idle => false
  | .write _ _ pos => pos.locked
  | .read _ _ pos => pos.locked

/- The holder of the lock has put bytes into the ring. -/
def Pc.owesReaders (since : Nat) : Pc → Prop
  | .write _ _ pos => since < pos.index
  | _ => False

/- The holder of the lock takes bytes out of the ring. -/
def Pc.owesWriters : Pc → Prop
  | .read _ _ (.copy _) => True
  | .read _ _ (.finish _) => True
  | _ => False

/- What a position of the holder says about the ring. -/
def Pc.Fits (pi : Buffer) (since : Nat) : Pc → Prop
  | .write _ _ (.body i) => pi.readopen = true ∧ since ≤ i
  | .write _ _ pos => since ≤ pos.index
  | .read _ _ .sleep => pi.Empty
  | _ => True

/- Sleepers have a reason, or the holder of the lock owes them a wakeup. -/
structure Awake (s : State) (since : Nat → Nat) : Prop where
  holder : ∀ p, (s.procs p).pc.locked = true ↔ s.lock = some p
  awake : ∀ p, s.lock = some p → (s.procs p).chan = none
  fits : ∀ p, s.lock = some p → (s.procs p).pc.Fits s.pipe (since p)
  nread : ∀ q, (s.procs q).chan = some .nread →
    s.pipe.Empty ∨ ∃ p, s.lock = some p ∧ (s.procs p).pc.owesReaders (since p)
  nwrite : ∀ q, (s.procs q).chan = some .nwrite →
    s.pipe.Full ∨ ∃ p, s.lock = some p ∧ (s.procs p).pc.owesWriters

---- Steps Of One Process

section

variable {s s' : State} {since : Nat → Nat} {p : Nat} {q : Nat} {n : Int}

section

variable (h : Awake s since)
include h

/-
  A step of a process that holds the lock or takes it. Only
  its own position and the sleepers have to be looked at.
-/
theorem Awake.moved {since' : Nat → Nat} (hLock : s.lock = none ∨ s.lock = some p)
    (hPcs : ∀ q, q ≠ p → (s'.procs q).pc = (s.procs q).pc) (hLock' : s'.lock =
      if (s'.procs p).pc.locked = true then some p else none)
    (hMine : s'.lock = some p → (s'.procs p).chan = none ∧ (s'.procs p).pc.Fits s'.pipe (since' p))
    (hRead : ∀ q, (s'.procs q).chan = some .nread →
        s'.pipe.Empty ∨ s'.lock = some p ∧ (s'.procs p).pc.owesReaders (since' p))
    (hWrite : ∀ q, (s'.procs q).chan = some .nwrite →
        s'.pipe.Full ∨ s'.lock = some p ∧ (s'.procs p).pc.owesWriters) : Awake s' since' := by
  have hOnly : ∀ q, s'.lock = some q → q = p := by
    intro q hq
    rw [hLock'] at hq
    split at hq
    · exact (Option.some.inj hq).symm
    · cases hq
  refine ⟨?_, ?_, ?_, ?_, ?_⟩
  · intro q
    by_cases hEq : q = p
    · rw [hEq, hLock']
      split <;> simp_all
    have hOut : s.lock ≠ some q := by
      rcases hLock with hNone | hSome
      · rw [hNone]
        rintro ⟨⟩
      · rw [hSome]
        exact fun hNot => hEq (Option.some.inj hNot).symm
    rw [hPcs q hEq, h.holder q]
    exact iff_of_false hOut fun hq => hEq (hOnly q hq)
  · intro q hq
    cases hOnly q hq
    exact (hMine hq).1
  · intro q hq
    cases hOnly q hq
    exact (hMine hq).2
  · intro q hq
    rcases hRead q hq with hEmpty | hOwes
    · exact .inl hEmpty
    · exact .inr ⟨p, hOwes⟩
  · intro q hq
    rcases hWrite q hq with hFull | hOwes
    · exact .inl hFull
    · exact .inr ⟨p, hOwes⟩

/- The sleepers that the holder of the lock owes nothing. -/
theorem Awake.empty (hOwes : ∀ p, s.lock = some p → ¬ (s.procs p).pc.owesReaders (since p))
    (hq : (s.procs q).chan = some .nread) : s.pipe.Empty := by
  rcases h.nread q hq with hEmpty | ⟨p, hLock, hOwed⟩
  · exact hEmpty
  · exact absurd hOwed (hOwes p hLock)

theorem Awake.full (hOwes : ∀ p, s.lock = some p → ¬ (s.procs p).pc.owesWriters)
    (hq : (s.procs q).chan = some .nwrite) : s.pipe.Full := by
  rcases h.nwrite q hq with hFull | ⟨p, hLock, hOwed⟩
  · exact hFull
  · exact absurd hOwed (hOwes p hLock)

theorem Awake.holds (hLocked : (s.procs p).pc.locked = true) :
    s.lock = some p := (h.holder p).mp hLocked

end

theorem wakeup_chan (s : State) (c : Chan) (q : Nat) :
    ((s.wakeup c).procs q).chan =
      if (s.procs q).chan = some c then
        none
      else
        (s.procs q).chan := by
  simp only [State.wakeup]
  split <;> rfl

theorem goto_chan (s : State) (pc : Pc) (q : Nat) :
    ((s.goto p pc).procs q).chan = (s.procs q).chan := by
  by_cases hEq : q = p
  all_goals simp [State.goto, State.setProc, hEq]

theorem goto_pc (s : State) (pc : Pc) : ((s.goto p pc).procs p).pc = pc := by
  simp [State.goto, State.setProc]

theorem goto_pc_ne (s : State) (pc : Pc) (hNe : q ≠ p) :
    ((s.goto p pc).procs q).pc = (s.procs q).pc := by
  simp [State.goto, State.setProc, hNe]

/- The holder moves on, and what it owes does not shrink. -/
theorem Awake.goto {pc : Pc} (h : Awake s since) (hLock : s.lock = some p)
    (hLocked : pc.locked = true) (hFits : pc.Fits s.pipe (since p))
    (hReaders : (s.procs p).pc.owesReaders (since p) → pc.owesReaders (since p))
    (hWriters : (s.procs p).pc.owesWriters → pc.owesWriters) : Awake (s.goto p pc) since := by
  refine h.moved (.inr hLock) (fun q hNe => goto_pc_ne s pc hNe) ?_ ?_ ?_ ?_
  · rw [goto_pc, if_pos hLocked]
    exact hLock
  · intro _
    rw [goto_chan, goto_pc]
    exact ⟨h.awake p hLock, hFits⟩
  · intro q hq
    rw [goto_chan] at hq
    rw [goto_pc]
    rcases h.nread q hq with hEmpty | ⟨p', hLock', hOwed⟩
    · exact .inl hEmpty
    · rw [hLock] at hLock'
      cases hLock'
      exact .inr ⟨hLock, hReaders hOwed⟩
  · intro q hq
    rw [goto_chan] at hq
    rw [goto_pc]
    rcases h.nwrite q hq with hFull | ⟨p', hLock', hOwed⟩
    · exact .inl hFull
    · rw [hLock] at hLock'
      cases hLock'
      exact .inr ⟨hLock, hWriters hOwed⟩

theorem Awake.acquired {pc : Pc} {i : Nat} (h : Awake s since) (hChan : (s.procs p).chan = none)
    (hLocked : pc.locked = true) (hFits : pc.Fits s.pipe i) (hStep : s.acquire p pc = some s') :
    Awake s' (Function.update since p i) := by
  unfold State.acquire at hStep
  split at hStep
  · rename_i hNone
    cases hStep
    have hNobody : ∀ q, s.lock = some q → False := by
      intro q hq
      rw [hNone] at hq
      cases hq
    refine h.moved (.inl hNone) (fun q hNe => goto_pc_ne s pc hNe) ?_ ?_ ?_ ?_
    · simp [goto_pc, hLocked]
    · intro _
      dsimp only
      rw [goto_chan, goto_pc, Function.update_self]
      exact ⟨hChan, hFits⟩
    · intro q hq
      dsimp only at hq
      rw [goto_chan] at hq
      exact .inl (h.empty (fun p hp => (hNobody p hp).elim) hq)
    · intro q hq
      dsimp only at hq
      rw [goto_chan] at hq
      exact .inl (h.full (fun p hp => (hNobody p hp).elim) hq)
  · cases hStep

theorem Awake.ret (h : Awake s since) (r : Int) (hLock : s.lock = some p)
    (hReaders : ∀ q, (s.procs q).chan = some .nread → s.pipe.Empty)
    (hWriters : ∀ q, (s.procs q).chan = some .nwrite → s.pipe.Full) : Awake (s.ret p r) since := by
  refine h.moved (.inr hLock) (fun q hNe => goto_pc_ne s .idle hNe) ?_ ?_ ?_ ?_
  · simp [State.ret, goto_pc, Pc.locked]
  · intro hNot
    cases hNot
  · intro q hq
    exact .inl (hReaders q ((goto_chan s .idle q).symm.trans hq))
  · intro q hq
    exact .inl (hWriters q ((goto_chan s .idle q).symm.trans hq))

theorem chan_ne_of_wakeup {c c' : Chan} (hq : ((s.wakeup c).procs q).chan = some c') :
    c' ≠ c ∧ (s.procs q).chan = some c' := by
  rw [wakeup_chan] at hq
  split at hq
  · cases hq
  · rename_i hNot
    refine ⟨?_, hq⟩
    intro hEq
    rw [hEq] at hq
    exact hNot hq

section

variable (h : Awake s since)
include h

/- A wakeup by the holder of the lock pays what it owes. -/
theorem Awake.wakeup (c : Chan) : Awake (s.wakeup c) since := by
  have hSleep : ∀ q c', ((s.wakeup c).procs q).chan = some c' → (s.procs q).chan = some c' :=
    fun q c' hq => (chan_ne_of_wakeup hq).2
  refine ⟨?_, ?_, ?_, ?_, ?_⟩
  · intro q
    rw [wakeup_pc]
    exact h.holder q
  · intro q hq
    rw [wakeup_chan, h.awake q hq]
    rfl
  · intro q hq
    rw [wakeup_pc]
    exact h.fits q hq
  · intro q hq
    simp only [wakeup_pc]
    exact h.nread q (hSleep q _ hq)
  · intro q hq
    simp only [wakeup_pc]
    exact h.nwrite q (hSleep q _ hq)

/- The holder goes to sleep for a reason, owing nothing. -/
theorem Awake.sleep {c : Chan} {pc : Pc} (hLock : s.lock = some p) (hUnlocked : pc.locked = false)
    (hReaders : ∀ q, (s.procs q).chan = some .nread → s.pipe.Empty)
    (hWriters : ∀ q, (s.procs q).chan = some .nwrite → s.pipe.Full)
    (hRead : c = .nread → s.pipe.Empty) (hWrite : c = .nwrite → s.pipe.Full) :
    Awake (s.sleep p c pc) since := by
  have hChan :
      ∀ q c', ((s.sleep p c pc).procs q).chan = some c' → c = c' ∨ (s.procs q).chan = some c' := by
    intro q c' hq
    by_cases hEq : q = p
    · left
      simpa [State.sleep, State.setProc, hEq] using hq
    · right
      simpa [State.sleep, State.setProc, hEq] using hq
  refine h.moved (.inr hLock) ?_ ?_ ?_ ?_ ?_
  · intro q hNe
    simp [State.sleep, State.setProc, hNe]
  · simp [State.sleep, State.setProc, hUnlocked]
  · intro hNot
    cases hNot
  · intro q hq
    rcases hChan q _ hq with hEq | hOld
    · exact .inl (hRead hEq)
    · exact .inl (hReaders q hOld)
  · intro q hq
    rcases hChan q _ hq with hEq | hOld
    · exact .inl (hWrite hEq)
    · exact .inl (hWriters q hOld)

---- Writing

/- While a writer holds the lock, writers have a reason. -/
theorem Awake.full_of_writer {src : Nat → Option UInt8} {pos : WritePc}
    (hPc : (s.procs p).pc = .write src n pos) (hLock : s.lock = some p)
    (hq : (s.procs q).chan = some .nwrite) : s.pipe.Full := by
  refine h.full ?_ hq
  intro p' hp'
  rw [hLock] at hp'
  cases hp'
  rw [hPc]
  exact fun hNot => hNot

theorem Awake.putByte {src : Nat → Option UInt8} {i : Nat} {ch : UInt8}
    (hPc : (s.procs p).pc = .write src n (.body i)) (hLock : s.lock = some p)
    (hRoom : ¬ s.pipe.nwrite = (s.pipe.nread + PIPESIZE) % UINT) :
    Awake ((s.putByte p ch).goto p (.write src n (.loop (i + 1)))) since := by
  have hFits := h.fits p hLock
  rw [hPc] at hFits
  have hSince : since p ≤ i := hFits.2
  have hSame : ∀ q, (((s.putByte p ch).goto p (.write src n (.loop (i + 1)))).procs q).chan =
      (s.procs q).chan :=
    goto_chan (s.putByte p ch) _
  refine h.moved (.inr hLock) (fun q hNe => goto_pc_ne (s.putByte p ch) _ hNe) ?_ ?_ ?_ ?_
  · rw [goto_pc]
    exact hLock
  · intro _
    rw [hSame, goto_pc]
    exact ⟨h.awake p hLock, Nat.le_succ_of_le hSince⟩
  · intro q _
    rw [goto_pc]
    exact .inr ⟨hLock, Nat.lt_succ_of_le hSince⟩
  · intro q hq
    rw [hSame] at hq
    have hFull := h.full_of_writer hPc hLock hq
    exact absurd hFull.1 hRoom

/- The step lemma of `pipewrite`. -/
theorem Awake.pipewrite {src : Nat → Option UInt8} {pos : WritePc}
    (hPc : (s.procs p).pc = .write src n pos) (hChan : (s.procs p).chan = none)
    (hEarly : ∀ i ∈ earlyReturn s p, i = since p) (hStep : Pipe.pipewrite s p src n pos = some s') :
    Awake s' (track s since (.run p)) := by
  have hHolds : pos.locked = true → s.lock = some p := by
    intro hLocked
    apply h.holds
    rw [hPc]
    exact hLocked
  cases pos with
  | acquire i =>
    simp only [track, hPc]
    refine h.acquired hChan ?_ ?_ hStep
    · rfl
    · exact Nat.le_refl i
  | loop i =>
    have hLock := hHolds rfl
    have hFits := h.fits p hLock
    have hFull := fun q => h.full_of_writer (q := q) hPc hLock
    rw [hPc] at hFits
    simp only [track, hPc]
    simp only [Pipe.pipewrite] at hStep
    split at hStep
    · rename_i hMore
      split at hStep
      · -- The early return: nothing was put.
        rename_i hStop
        cases hStep
        have hSince : i = since p := by
          apply hEarly
          simp [earlyReturn, hPc, hMore, hStop]
        refine h.ret (-1) hLock (fun q => h.empty ?_) hFull
        intro p' hp'
        rw [hLock] at hp'
        cases hp'
        rw [hPc]
        exact fun hOwes => absurd hOwes (Nat.not_lt_of_le (Nat.le_of_eq hSince))
      · rename_i hGo
        cases hStep
        have hOpen : s.pipe.readopen = true := by
          by_contra hNot
          exact hGo (.inl (Bool.eq_false_of_not_eq_true hNot))
        refine h.goto hLock rfl ⟨hOpen, hFits⟩ ?_ ?_
        · rw [hPc]
          exact fun hOwes => hOwes
        · rw [hPc]
          exact fun hOwes => hOwes
    · cases hStep
      refine h.goto hLock rfl hFits ?_ ?_
      · rw [hPc]
        exact fun hOwes => hOwes
      · rw [hPc]
        exact fun hOwes => hOwes
  | body i =>
    have hLock := hHolds rfl
    have hFits := h.fits p hLock
    rw [hPc] at hFits
    simp only [track, hPc]
    simp only [Pipe.pipewrite] at hStep
    split at hStep
    · -- The ring is full: readers are woken up.
      rename_i hNoRoom
      cases hStep
      have hFull : s.pipe.Full := ⟨hNoRoom, hFits.1⟩
      refine (h.wakeup .nread).sleep hLock rfl ?_ (fun _ _ => hFull) (by rintro ⟨⟩) (fun _ => hFull)
      intro q hq
      exact absurd rfl (chan_ne_of_wakeup hq).1
    · rename_i hRoom
      split at hStep
      · cases hStep
        refine h.goto hLock rfl hFits.2 ?_ ?_
        · rw [hPc]
          exact fun hOwes => hOwes
        · rw [hPc]
          exact fun hOwes => hOwes
      · cases hStep
        exact h.putByte hPc hLock hRoom
  | finish i =>
    have hLock := hHolds rfl
    simp only [track, hPc]
    cases hStep
    refine (h.wakeup .nread).ret i hLock ?_ ?_
    · intro q hq
      exact absurd rfl (chan_ne_of_wakeup hq).1
    · intro q hq
      exact h.full_of_writer hPc hLock (chan_ne_of_wakeup hq).2

---- Reading

/- While a reader holds the lock, readers have a reason. -/
theorem Awake.empty_of_reader {dst : Nat → Bool} {pos : ReadPc}
    (hPc : (s.procs p).pc = .read dst n pos) (hLock : s.lock = some p)
    (hq : (s.procs q).chan = some .nread) : s.pipe.Empty := by
  refine h.empty ?_ hq
  intro p' hp'
  rw [hLock] at hp'
  cases hp'
  rw [hPc]
  exact fun hNot => hNot

theorem Awake.takeByte {dst : Nat → Bool} {i : Nat} {pos : ReadPc} {t : State}
    (hPc : (s.procs p).pc = .read dst n (.copy i)) (hLock : s.lock = some p)
    (hSome : ¬ s.pipe.nread = s.pipe.nwrite) (hLock' : t.lock = s.lock) (hProcs : t.procs = s.procs)
    (hLocked : pos.locked = true) (hFits : (Pc.read dst n pos).Fits t.pipe (since p))
    (hOwes : (Pc.read dst n pos).owesWriters) : Awake (t.goto p (.read dst n pos)) since := by
  have hSame : ∀ q, ((t.goto p (.read dst n pos)).procs q).chan = (s.procs q).chan := by
    intro q
    rw [goto_chan, hProcs]
  refine h.moved (.inr hLock) ?_ ?_ ?_ ?_ ?_
  · intro q hNe
    rw [goto_pc_ne t _ hNe, hProcs]
  · rw [goto_pc]
    exact (hLock'.trans hLock).trans (if_pos hLocked).symm
  · intro _
    rw [hSame, goto_pc]
    exact ⟨h.awake p hLock, hFits⟩
  · intro q hq
    rw [hSame] at hq
    have hEmpty := h.empty_of_reader hPc hLock hq
    exact absurd hEmpty.1 hSome
  · intro q _
    rw [goto_pc]
    exact .inr ⟨hLock'.trans hLock, hOwes⟩

/- The step lemma of `piperead`. -/
theorem Awake.piperead {dst : Nat → Bool} {pos : ReadPc} (hPc : (s.procs p).pc = .read dst n pos)
    (hChan : (s.procs p).chan = none) (hStep : Pipe.piperead s p dst n pos = some s') :
    Awake s' (track s since (.run p)) := by
  have hTrack : track s since (.run p) = since := by simp only [track, hPc]
  have hHolds : pos.locked = true → s.lock = some p := by
    intro hLocked
    apply h.holds
    rw [hPc]
    exact hLocked
  rw [hTrack]
  cases pos with
  | acquire =>
    rw [← Function.update_eq_self p since]
    refine h.acquired hChan ?_ ?_ hStep
    · rfl
    · trivial
  | loop =>
    have hLock := hHolds rfl
    have hEmpty := fun q => h.empty_of_reader (q := q) hPc hLock
    have hFull : ∀ q, (s.procs q).chan = some .nwrite → s.pipe.Full := by
      refine fun q => h.full ?_
      intro p' hp'
      rw [hLock] at hp'
      cases hp'
      rw [hPc]
      exact fun hNot => hNot
    simp only [Pipe.piperead] at hStep
    split at hStep
    · rename_i hWait
      split at hStep
      · cases hStep
        exact h.ret (-1) hLock hEmpty hFull
      · cases hStep
        refine h.goto hLock rfl hWait ?_ ?_
        · rw [hPc]
          exact fun hOwes => hOwes
        · rw [hPc]
          exact fun hOwes => hOwes
    · cases hStep
      refine h.goto hLock rfl trivial ?_ (fun _ => trivial)
      rw [hPc]
      exact fun hOwes => hOwes
  | sleep =>
    have hLock := hHolds rfl
    have hFits := h.fits p hLock
    rw [hPc] at hFits
    have hEmpty : s.pipe.Empty := hFits
    cases hStep
    refine h.sleep hLock rfl (fun _ _ => hEmpty) ?_ (fun _ => hEmpty) (by rintro ⟨⟩)
    refine fun q => h.full ?_
    intro p' hp'
    rw [hLock] at hp'
    cases hp'
    rw [hPc]
    exact fun hNot => hNot
  | copy i =>
    have hLock := hHolds rfl
    simp only [Pipe.piperead] at hStep
    split at hStep
    · split at hStep
      · cases hStep
        refine h.goto hLock rfl trivial ?_ (fun _ => trivial)
        rw [hPc]
        exact fun hOwes => hOwes
      · rename_i hSome
        split at hStep
        · cases hStep
          exact h.takeByte hPc hLock hSome rfl rfl rfl trivial trivial
        · cases hStep
          exact h.takeByte hPc hLock hSome rfl rfl rfl trivial trivial
    · cases hStep
      refine h.goto hLock rfl trivial ?_ (fun _ => trivial)
      rw [hPc]
      exact fun hOwes => hOwes
  | finish i =>
    have hLock := hHolds rfl
    cases hStep
    refine (h.wakeup .nwrite).ret i hLock ?_ ?_
    · intro q hq
      exact h.empty_of_reader hPc hLock (chan_ne_of_wakeup hq).2
    · intro q hq
      exact absurd rfl (chan_ne_of_wakeup hq).1

end

---- Other Steps

variable (h : Awake s since)
include h

theorem Awake.kill (p : Nat) : Awake (kill s p) since := by
  have hPc : ∀ q, ((Pipe.kill s p).procs q).pc = (s.procs q).pc := by
    intro q
    by_cases hEq : q = p
    all_goals simp [Pipe.kill, State.setProc, hEq]
  have hChan : ∀ q c, ((Pipe.kill s p).procs q).chan = some c → (s.procs q).chan = some c := by
    intro q c hq
    by_cases hEq : q = p
    · simp [Pipe.kill, State.setProc, hEq] at hq
    · simpa [Pipe.kill, State.setProc, hEq] using hq
  refine ⟨?_, ?_, ?_, ?_, ?_⟩
  · intro q
    rw [hPc]
    exact h.holder q
  · intro q hq
    by_contra hNot
    rcases Option.ne_none_iff_exists'.mp hNot with ⟨c, hc⟩
    have hOld := hChan q c hc
    rw [h.awake q hq] at hOld
    cases hOld
  · intro q hq
    rw [hPc]
    exact h.fits q hq
  · intro q hq
    simp only [hPc]
    exact h.nread q (hChan q _ hq)
  · intro q hq
    simp only [hPc]
    exact h.nwrite q (hChan q _ hq)

/- The end of a pipe is closed while nobody has the lock. -/
theorem Awake.closeEnd (hFree : s.lock = none) (writable : Bool) :
    Awake (s.closeEnd writable) since := by
  have hNobody : ∀ q, s.lock ≠ some q := by
    intro q hq
    rw [hFree] at hq
    cases hq
  have hEmpty : ∀ q, (s.procs q).chan = some .nread →
      s.pipe.Empty :=
    fun q => h.empty fun p hp => absurd hp (hNobody p)
  have hFull : ∀ q, (s.procs q).chan = some .nwrite →
      s.pipe.Full :=
    fun q => h.full fun p hp => absurd hp (hNobody p)
  cases writable with
  | true =>
    have hPc := wakeup_pc { s with pipe.writeopen := false } .nread
    refine ⟨?_, ?_, ?_, ?_, ?_⟩
    · intro q
      rw [State.closeEnd, hPc]
      exact h.holder q
    · exact fun q hq => absurd hq (hNobody q)
    · exact fun q hq => absurd hq (hNobody q)
    · intro q hq
      exact absurd rfl (chan_ne_of_wakeup hq).1
    · intro q hq
      exact .inl (hFull q (chan_ne_of_wakeup hq).2)
  | false =>
    have hPc := wakeup_pc { s with pipe.readopen := false } .nwrite
    refine ⟨?_, ?_, ?_, ?_, ?_⟩
    · intro q
      rw [State.closeEnd, hPc]
      exact h.holder q
    · exact fun q hq => absurd hq (hNobody q)
    · exact fun q hq => absurd hq (hNobody q)
    · intro q hq
      exact .inl (hEmpty q (chan_ne_of_wakeup hq).2)
    · intro q hq
      exact absurd rfl (chan_ne_of_wakeup hq).1

theorem Awake.pipeclose (hFree : s.lock = none) (writable : Bool) :
    Awake (pipeclose s writable) since := by
  have hEnd := h.closeEnd hFree writable
  unfold Pipe.pipeclose
  split
  · exact ⟨hEnd.holder, hEnd.awake, hEnd.fits, hEnd.nread, hEnd.nwrite⟩
  · exact hEnd

theorem Awake.issue {c : Call} (hIdle : (s.procs p).pc = .idle) : Awake (s.issue p c) since := by
  have hOut : s.lock ≠ some p := by
    intro hLock
    have hLocked := (h.holder p).mpr hLock
    rw [hIdle] at hLocked
    cases hLocked
  have hEntry : c.entry.locked = false := by
    cases c with
    | write src n => rfl
    | read dst n => rfl
  have hOther : ∀ q, q ≠ p → (s.issue p c).procs q = s.procs q := by
    intro q hNe
    simp [State.issue, State.setProc, hNe]
  have hPc : ((s.issue p c).procs p).pc = c.entry := by simp [State.issue, State.setProc]
  have hChan : ∀ q, ((s.issue p c).procs q).chan = (s.procs q).chan := by
    intro q
    by_cases hEq : q = p
    · simp [State.issue, State.setProc, hEq]
    · rw [hOther q hEq]
  have hHolder : ∀ q, s.lock = some q → q ≠ p := by
    intro q hq hEq
    rw [hEq] at hq
    exact hOut hq
  refine ⟨?_, ?_, ?_, ?_, ?_⟩
  · intro q
    by_cases hEq : q = p
    · rw [hEq, hPc, hEntry]
      exact iff_of_false Bool.false_ne_true hOut
    · rw [hOther q hEq]
      exact h.holder q
  · intro q hq
    rw [hChan]
    exact h.awake q hq
  · intro q hq
    rw [hOther q (hHolder q hq)]
    exact h.fits q hq
  · intro q hq
    rw [hChan] at hq
    rcases h.nread q hq with hEmpty | ⟨p', hLock, hOwes⟩
    · exact .inl hEmpty
    · refine .inr ⟨p', hLock, ?_⟩
      rw [hOther p' (hHolder p' hLock)]
      exact hOwes
  · intro q hq
    rw [hChan] at hq
    rcases h.nwrite q hq with hFull | ⟨p', hLock, hOwes⟩
    · exact .inl hFull
    · refine .inr ⟨p', hLock, ?_⟩
      rw [hOther p' (hHolder p' hLock)]
      exact hOwes

/- The step lemma. -/
theorem Awake.step {a : Action} (hEarly : Settles s since a) (hStep : Pipe.step s a = some s') :
    Awake s' (track s since a) := by
  cases a with
  | call p c =>
    simp only [Pipe.step] at hStep
    split at hStep
    · rename_i hIdle
      cases hStep
      exact h.issue hIdle
    · cases hStep
  | run p =>
    simp only [Pipe.step] at hStep
    split at hStep
    · rename_i hReady
      unfold advance at hStep
      split at hStep
      · cases hStep
      · rename_i src n pos hPc
        exact h.pipewrite hPc hReady.2 hEarly hStep
      · rename_i dst n pos hPc
        exact h.piperead hPc hReady.2 hStep
    · cases hStep
  | kill p =>
    cases hStep
    exact h.kill p
  | close writable =>
    simp only [Pipe.step] at hStep
    split at hStep
    · rename_i hFree
      cases hStep
      exact h.pipeclose hFree.2 writable
    · cases hStep

end

theorem Awake.init (page : Nat → UInt8) : Awake (State.init page) (fun _ => 0) := by
  refine ⟨?_, ?_, ?_, ?_, ?_⟩
  · intro p
    exact iff_of_false Bool.false_ne_true (by rintro ⟨⟩)
  · exact fun _ _ => rfl
  · rintro _ ⟨⟩
  · rintro _ ⟨⟩
  · rintro _ ⟨⟩

/- The run lemma. -/
theorem Settled.awake {page : Nat → UInt8} {s : State} {since : Nat → Nat}
    (h : Settled page s since) : Awake s since := by
  induction h with
  | init => exact Awake.init page
  | step _ hEarly hStep ih => exact ih.step hEarly hStep

/-
  In every state of such a run in which nobody holds the
  lock, a process that sleeps on `nread` sees an empty pipe
  with an open write end, and one that sleeps on `nwrite` a
  full pipe with an open read end.
-/
theorem sleepers_wait
    {page : Nat → UInt8}
    {s : State}
    {since : Nat → Nat}
    (h : Settled page s since)
    (hFree : s.lock = none) :
    ∀ p,
      ((s.procs p).chan = some .nread →
        s.pipe.nread = s.pipe.nwrite ∧ s.pipe.writeopen = true) ∧
      ((s.procs p).chan = some .nwrite →
        s.pipe.nwrite = (s.pipe.nread + PIPESIZE) % UINT ∧ s.pipe.readopen = true) := by
  intro p
  have hAwake := h.awake
  have hNobody : ∀ q, s.lock ≠ some q := by
    intro q hq
    rw [hFree] at hq
    cases hq
  exact ⟨hAwake.empty fun q hq => absurd hq (hNobody q),
    hAwake.full fun q hq => absurd hq (hNobody q)⟩

---- Schedules

/- Follow a schedule as long as it is settled. -/
def settledRun (s : State) (since : Nat → Nat) : List Action → Option (State × (Nat → Nat))
  | [] => some (s, since)
  | a :: as =>
    if Settles s since a then
      (step s a).bind fun s' =>
        settledRun s' (track s since a) as
    else
      none

theorem settled_of_run {page : Nat → UInt8} {s s' : State} {since since' : Nat → Nat}
    {as : List Action} (h : Settled page s since) (hRun : settledRun s since as = some (s', since')) :
    Settled page s' since' := by
  induction as generalizing s since with
  | nil =>
    cases hRun
    exact h
  | cons a as ih =>
    unfold settledRun at hRun
    split at hRun
    · rename_i hEarly
      cases hStep : Pipe.step s a with
      | none =>
        rw [hStep] at hRun
        cases hRun
      | some s₁ =>
        rw [hStep] at hRun
        exact ih (h.step hEarly hStep) hRun
    · cases hRun

/-
  Process 1 sleeps in `piperead`. Process 0 was killed, and
  its `pipewrite` returns before the first byte.
-/
def settledSchedule : List Action :=
  [.call 1 (.read (fun _ => true) 1), .run 1, .run 1,
    .run 1, .kill 0, .call 0 (.write sampleSrc 2), .run 0, .run 0]

theorem sleepers_wait_sample :
    ∃ s since, Settled (fun _ => 5) s since ∧ s.lock = none ∧ (s.procs 1).chan = some .nread ∧
      s.returned = [(1, -1)] ∧ s.pipe.nread = s.pipe.nwrite ∧ s.pipe.writeopen = true := by
  have hRuns : ∃ s since, settledRun (State.init fun _ => 5) (fun _ => 0)
        settledSchedule = some (s, since) ∧
      s.lock = none ∧ (s.procs 1).chan = some .nread ∧ s.returned = [(1, -1)] :=
    ⟨_, _, rfl, rfl, rfl, rfl⟩
  rcases hRuns with ⟨s, since, hRun, hFree, hChan, hRet⟩
  have hSettled : Settled (fun _ => 5) s since := settled_of_run .init hRun
  have hWaits := sleepers_wait hSettled hFree 1
  exact ⟨s, since, hSettled, hFree, hChan, hRet, hWaits.1 hChan⟩

/- Process 1 sleeps in `piperead`. Process 0 puts the first of two bytes, is killed, and returns. -/
def forgetfulSchedule : List Action :=
  [.call 1 (.read (fun _ => true) 1), .run 1, .run 1,
    .run 1, .call 0 (.write sampleSrc 2), .run 0, .run 0, .run 0, .kill 0, .run 0]

/- The reader sleeps beside a byte that it could read. -/
theorem reader_forgotten :
    ∃ s, run (State.init fun _ => 5) forgetfulSchedule = some s ∧
      s.lock = none ∧ (s.procs 1).chan = some .nread ∧ s.pipe.nread ≠ s.pipe.nwrite ∧
      s.pipe.writeopen = true := ⟨_, rfl, rfl, rfl, by decide, rfl⟩

end Xv6.Pipe

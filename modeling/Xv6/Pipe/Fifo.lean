import Xv6.Pipe.Pipe

/-
  A pipe is a FIFO queue under every schedule.

  The invariant `Fifo` relates the ring and the positions
  of all processes to the history of bytes put and
  delivered. A step moves one process, which holds the lock
  whenever it touches the ring, so the facts about the
  other processes carry over (`PcOk.frame`).

  Main declarations:
    * `Fifo`
    * `Fifo.of_reachable`
    * `reads_back_writes`
-/

namespace Xv6.Pipe

variable {s s' : State} {c p : Nat} {src : Nat → Option UInt8} {n : Int} {dst : Nat → Bool}

---- Invariant

/- The bytes one call has put into the ring. -/
def State.putBy (s : State) (c : Nat) : List UInt8 :=
  (s.put.filter (fun x => x.1 == c)).map Prod.snd

/- The loop variable of `pipewrite`. -/
def WritePc.index : WritePc → Nat
  | .acquire i => i
  | .loop i => i
  | .body i => i
  | .finish i => i

def WritePc.locked : WritePc → Bool
  | .acquire _ => false
  | _ => true

def ReadPc.locked : ReadPc → Bool
  | .acquire => false
  | _ => true

/- Process `p` is at `pos` of the write with number `c`. -/
structure WriteOk (s : State) (p c : Nat) (src : Nat → Option UInt8) (n : Int) (pos : WritePc) :
    Prop where
  issued : s.calls[c]? = some (.write src n)
  sent : (s.putBy c).map some = (List.range pos.index).map src
  bound : (pos.index : Int) ≤ max n 0
  body : ∀ i, pos = .body i → (i : Int) < n
  locked : pos.locked = true → s.lock = some p

/- Process `p` is at `pos` of the read with number `c`. -/
structure ReadOk (s : State) (p c : Nat) (dst : Nat → Bool) (n : Int) (pos : ReadPc) : Prop where
  issued : s.calls[c]? = some (.read dst n)
  copy : pos = .copy 0 → s.pipe.nread ≠ s.pipe.nwrite ∨ s.pipe.writeopen = false
  finish : pos = .finish 0 → 0 < n → s.pipe.nread = s.pipe.nwrite ∧ s.pipe.writeopen = false
  locked : pos.locked = true → s.lock = some p

def PcOk (s : State) (p c : Nat) : Pc → Prop
  | .idle => True
  | .write src n pos => WriteOk s p c src n pos
  | .read dst n pos => ReadOk s p c dst n pos

/- A call has put the first bytes of its source. -/
def Ordered (s : State) (c : Nat) : Prop :=
  ∀ src n, s.calls[c]? = some (.write src n) →
      ∃ k : Nat, (k : Int) ≤ max n 0 ∧ (s.putBy c).map some = (List.range k).map src

structure Fifo (s : State) : Prop where
  ring : s.pipe.ring.Wf
  bytes : s.delivered.map Prod.snd ++ s.pipe.ring.contents = s.put.map Prod.snd
  valid : ∀ c ∈ s.calls, c.Valid
  pcs : ∀ p, PcOk s p (s.procs p).call (s.procs p).pc
  distinct : ∀ p q,
    (s.procs p).pc ≠ .idle → (s.procs q).pc ≠ .idle → (s.procs p).call = (s.procs q).call → p = q
  ordered : ∀ c, Ordered s c
  known : ∀ x ∈ s.put, ∃ src n, s.calls[x.1]? = some (.write src n)

---- Frame Rules

/-
  What a step leaves in place for a process that does not
  move: its call, the bytes it has put, and the ring as
  long as it holds the lock.
-/
structure Keeps (s s' : State) (q c : Nat) : Prop where
  calls : ∀ x, s.calls[c]? = some x → s'.calls[c]? = some x
  putBy : s'.putBy c = s.putBy c
  lock : s.lock = some q → s'.lock = some q
  pipe : s.lock = some q → s'.pipe = s.pipe

theorem PcOk.frame {q : Nat} {pc : Pc} (h : PcOk s q c pc) (hKeeps : pc ≠ .idle → Keeps s s' q c) :
    PcOk s' q c pc := by
  cases pc with
  | idle => trivial
  | write src n pos =>
    have hk := hKeeps (by simp)
    have hw : WriteOk s q c src n pos := h
    refine ⟨hk.calls _ hw.issued, ?_, hw.bound, hw.body, ?_⟩
    · rw [hk.putBy]
      exact hw.sent
    · intro hPos
      exact hk.lock (hw.locked hPos)
  | read dst n pos =>
    have hk := hKeeps (by simp)
    have hr : ReadOk s q c dst n pos := h
    refine ⟨hk.calls _ hr.issued, ?_, ?_, ?_⟩
    · intro hPos
      have hLock := hr.locked (by simp [hPos, ReadPc.locked])
      rw [hk.pipe hLock]
      exact hr.copy hPos
    · intro hPos
      have hLock := hr.locked (by simp [hPos, ReadPc.locked])
      rw [hk.pipe hLock]
      exact hr.finish hPos
    · intro hPos
      exact hk.lock (hr.locked hPos)

/- Only process `p` has moved, and nobody else held the lock. -/
structure Moves (s s' : State) (p : Nat) : Prop where
  pcs : ∀ q, q ≠ p → (s'.procs q).pc = (s.procs q).pc
  call : ∀ q, (s'.procs q).call = (s.procs q).call
  calls : s'.calls = s.calls
  lock : s.lock = none ∨ s.lock = some p

/- The bytes added by a step of process `p`. -/
def Adds (s s' : State) (p : Nat) : Prop :=
  s'.put = s.put ∨
    ∃ src n pos ch, (s'.procs p).pc = .write src n pos ∧ s'.put = s.put ++ [((s.procs p).call, ch)]

theorem Adds.putBy_other (h : Adds s s' p) (hNe : c ≠ (s.procs p).call) :
    s'.putBy c = s.putBy c := by
  rcases h with hSame | ⟨src, n, pos, ch, _, hPut⟩
  · simp only [State.putBy, hSame]
  · have hFalse : ((s.procs p).call == c) = false := by simpa using fun hEq => hNe hEq.symm
    simp [State.putBy, hPut, List.filter_append, hFalse]

section

variable (h : Fifo s) (hActive : (s.procs p).pc ≠ .idle) (hMoves : Moves s s' p)
include h hActive hMoves

/- A step of one process keeps the invariant. -/
theorem Fifo.moved (hAdds : Adds s s' p) (hRing : s'.pipe.ring.Wf)
    (hBytes : s'.delivered.map Prod.snd ++ s'.pipe.ring.contents = s'.put.map Prod.snd)
    (hMine : PcOk s' p (s.procs p).call (s'.procs p).pc) : Fifo s' := by
  -- A process other than `p` that is active has another
  -- call number and does not hold the lock.
  have hOther : ∀ q, q ≠ p → (s.procs q).pc ≠ .idle → (s.procs q).call ≠ (s.procs p).call := by
    intro q hNe hq hEq
    exact hNe (h.distinct q p hq hActive hEq)
  have hUnlocked : ∀ q, q ≠ p → s.lock ≠ some q := by
    intro q hNe hEq
    rcases hMoves.lock with hNone | hSome
    · simp [hNone] at hEq
    · have hSame : p = q := by simpa [hSome] using hEq
      exact hNe hSame.symm
  have hBack : ∀ q, (s'.procs q).pc ≠ .idle → (s.procs q).pc ≠ .idle := by
    intro q hq
    by_cases hEq : q = p
    · rw [hEq]
      exact hActive
    · rw [← hMoves.pcs q hEq]
      exact hq
  refine ⟨hRing, hBytes, ?_, ?_, ?_, ?_, ?_⟩
  · rw [hMoves.calls]
    exact h.valid
  · intro q
    rw [hMoves.call]
    by_cases hEq : q = p
    · rw [hEq]
      exact hMine
    rw [hMoves.pcs q hEq]
    refine (h.pcs q).frame (fun hq => ⟨?_, ?_, ?_, ?_⟩)
    · intro x hx
      rw [hMoves.calls]
      exact hx
    · exact hAdds.putBy_other (hOther q hEq hq)
    all_goals
      intro hLock
      exact absurd hLock (hUnlocked q hEq)
  · intro a b ha hb hEq
    rw [hMoves.call, hMoves.call] at hEq
    exact h.distinct a b (hBack a ha) (hBack b hb) hEq
  · intro c src n hc
    rw [hMoves.calls] at hc
    by_cases hEq : c = (s.procs p).call
    · rcases hAdds with hSame | ⟨src', n', pos, ch, hPc, _⟩
      · have hPutBy : s'.putBy c = s.putBy c := by simp only [State.putBy, hSame]
        rw [hPutBy]
        exact h.ordered c src n hc
      · rw [hPc] at hMine
        have hw : WriteOk s' p _ src' n' pos := hMine
        have hIssued := hw.issued
        rw [hMoves.calls, ← hEq, hc] at hIssued
        cases hIssued
        rw [hEq]
        exact ⟨pos.index, hw.bound, hw.sent⟩
    · rw [hAdds.putBy_other hEq]
      exact h.ordered c src n hc
  · intro x hx
    rw [hMoves.calls]
    rcases hAdds with hSame | ⟨src, n, pos, ch, hPc, hPut⟩
    · rw [hSame] at hx
      exact h.known x hx
    rw [hPut, List.mem_append] at hx
    rcases hx with hx | hx
    · exact h.known x hx
    · rw [hPc] at hMine
      have hw : WriteOk s' p _ src n pos := hMine
      have hIssued := hw.issued
      rw [hMoves.calls] at hIssued
      rw [List.mem_singleton.mp hx]
      exact ⟨src, n, hIssued⟩

/- The same for a step that does not touch the bytes. -/
theorem Fifo.shifted (hPipe : s'.pipe = s.pipe) (hPut : s'.put = s.put)
    (hDelivered : s'.delivered = s.delivered) (hMine : PcOk s' p (s.procs p).call (s'.procs p).pc) :
    Fifo s' := by
  refine h.moved hActive hMoves (.inl hPut) ?_ ?_ hMine
  · rw [hPipe]
    exact h.ring
  · rw [hPipe, hPut, hDelivered]
    exact h.bytes

end

---- Moves Of The Primitives

@[simp]
theorem wakeup_pc (s : State) (chan : Chan) (q : Nat) :
    ((s.wakeup chan).procs q).pc = (s.procs q).pc := by
  simp only [State.wakeup]
  split <;> rfl

@[simp]
theorem wakeup_call (s : State) (chan : Chan) (q : Nat) :
    ((s.wakeup chan).procs q).call = (s.procs q).call := by
  simp only [State.wakeup]
  split <;> rfl

/- Giving one process a new position moves that process. -/
theorem Moves.of_setProc {s₁ : State} {pr : Proc} (hLock : s.lock = none ∨ s.lock = some p)
    (hPcs : ∀ q, (s₁.procs q).pc = (s.procs q).pc)
    (hCall : ∀ q, (s₁.procs q).call = (s.procs q).call)
    (hProcs : s'.procs = (s₁.setProc p pr).procs) (hPr : pr.call = (s.procs p).call)
    (hCalls : s'.calls = s.calls) : Moves s s' p := by
  refine ⟨?_, ?_, hCalls, hLock⟩
  · intro q hNe
    rw [hProcs]
    simp [State.setProc, hNe, hPcs]
  · intro q
    rw [hProcs]
    by_cases hEq : q = p
    · simp [State.setProc, hEq, hPr]
    · simp [State.setProc, hEq, hCall]

theorem moves_goto (pc : Pc) (hLock : s.lock = some p) : Moves s (s.goto p pc) p :=
  .of_setProc (.inr hLock) (fun _ => rfl) (fun _ => rfl) rfl rfl rfl

theorem moves_ret (r : Int) (hLock : s.lock = some p) : Moves s (s.ret p r) p :=
  .of_setProc (.inr hLock) (fun _ => rfl) (fun _ => rfl) rfl rfl rfl

theorem moves_wakeup_ret (chan : Chan) (r : Int) (hLock : s.lock = some p) :
    Moves s ((s.wakeup chan).ret p r) p :=
  .of_setProc (.inr hLock) (wakeup_pc s chan) (wakeup_call s chan) rfl (wakeup_call s chan p) rfl

theorem Fifo.returned (h : Fifo s) (r : Int) (hActive : (s.procs p).pc ≠ .idle)
    (hLock : s.lock = some p) : Fifo (s.ret p r) := by
  refine h.shifted hActive (moves_ret r hLock) rfl rfl rfl ?_
  simp [State.ret, State.goto, State.setProc, PcOk]

theorem Fifo.wokenReturned (h : Fifo s) (chan : Chan) (r : Int) (hActive : (s.procs p).pc ≠ .idle)
    (hLock : s.lock = some p) : Fifo ((s.wakeup chan).ret p r) := by
  refine h.shifted hActive (moves_wakeup_ret chan r hLock) rfl rfl rfl ?_
  simp [State.ret, State.goto, State.setProc, PcOk]

theorem Fifo.gone {pc : Pc} (h : Fifo s) (hActive : (s.procs p).pc ≠ .idle)
    (hLock : s.lock = some p) (hMine : PcOk (s.goto p pc) p (s.procs p).call pc) :
    Fifo (s.goto p pc) := by
  refine h.shifted hActive (moves_goto pc hLock) rfl rfl rfl ?_
  simpa [State.goto, State.setProc] using hMine

theorem Fifo.acquired {pc : Pc} (h : Fifo s) (hActive : (s.procs p).pc ≠ .idle)
    (hStep : s.acquire p pc = some s')
    (hMine : PcOk { s.goto p pc with lock := some p } p (s.procs p).call pc) : Fifo s' := by
  unfold State.acquire at hStep
  split at hStep
  · rename_i hFree
    cases hStep
    refine h.shifted hActive ?_ rfl rfl rfl ?_
    · exact .of_setProc (.inl hFree) (fun _ => rfl) (fun _ => rfl) rfl rfl rfl
    · simpa [State.goto, State.setProc] using hMine
  · cases hStep

---- Writers

/- A write at a later position, with nothing put since. -/
theorem WriteOk.at {pos pos' : WritePc} (h : WriteOk s p c src n pos) (hCalls : s'.calls = s.calls)
    (hPut : s'.put = s.put) (hIndex : pos'.index = pos.index)
    (hBody : ∀ i, pos' = .body i → (i : Int) < n) (hLocked : pos'.locked = true → s'.lock = some p) :
    WriteOk s' p c src n pos' := by
  refine ⟨?_, ?_, ?_, hBody, hLocked⟩
  · rw [hCalls]
    exact h.issued
  · simp only [State.putBy, hPut, hIndex]
    exact h.sent
  · rw [hIndex]
    exact h.bound

theorem Fifo.putByte {i : Nat} {ch : UInt8} (h : Fifo s)
    (hPc : (s.procs p).pc = .write src n (.body i))
    (hRoom : s.pipe.nwrite ≠ (s.pipe.nread + PIPESIZE) % UINT) (hSrc : src i = some ch) :
    Fifo ((s.putByte p ch).goto p (.write src n (.loop (i + 1)))) := by
  have hw : WriteOk s p (s.procs p).call src n (.body i) := by
    have hOk := h.pcs p
    rw [hPc] at hOk
    exact hOk
  have hLock := hw.locked rfl
  have hUsed : s.pipe.ring.used < PIPESIZE := by
    have hNe : s.pipe.ring.used ≠ PIPESIZE := fun hEq =>
      hRoom ((RingBuf.full_iff h.ring).mpr hEq)
    have hLe := h.ring.used_le
    omega
  have hActive : (s.procs p).pc ≠ .idle := by simp [hPc]
  refine h.moved hActive ?_ ?_ ?_ ?_ ?_
  · exact .of_setProc (.inr hLock) (fun _ => rfl) (fun _ => rfl) rfl rfl rfl
  · refine .inr ⟨src, n, .loop (i + 1), ch, ?_, rfl⟩
    simp [State.goto, State.setProc]
  · exact h.ring.push ch hUsed
  · have hContents :=
      RingBuf.contents_push h.ring ch hUsed
    have hBytes := h.bytes
    calc
      s.delivered.map Prod.snd ++
            (s.pipe.ring.push ch).contents
          = (s.delivered.map Prod.snd ++
              s.pipe.ring.contents) ++ [ch] := by
            rw [hContents, List.append_assoc]
      _ = s.put.map Prod.snd ++ [ch] := by
            rw [hBytes]
      _ = (s.put ++ [((s.procs p).call, ch)]).map Prod.snd := by
            simp
  · have hBound := hw.body i rfl
    have hSent := hw.sent
    simp only [State.goto, State.setProc, if_true]
    refine ⟨hw.issued, ?_, ?_, by simp, fun _ => hLock⟩
    · simp only [State.putBy, State.putByte, WritePc.index] at hSent ⊢
      rw [List.filter_append, List.map_append, List.map_append, hSent, List.range_succ,
        List.map_append]
      simp [hSrc]
    · simp only [WritePc.index]
      omega

theorem Fifo.pipewrite {pos : WritePc} (h : Fifo s) (hPc : (s.procs p).pc = .write src n pos)
    (hStep : pipewrite s p src n pos = some s') : Fifo s' := by
  have hActive : (s.procs p).pc ≠ .idle := by simp [hPc]
  have hw : WriteOk s p (s.procs p).call src n pos := by
    have hOk := h.pcs p
    rw [hPc] at hOk
    exact hOk
  cases pos with
  | acquire i =>
    refine h.acquired hActive hStep ?_
    exact hw.at rfl rfl rfl (by simp) (fun _ => rfl)
  | loop i =>
    have hLock := hw.locked rfl
    simp only [Pipe.pipewrite] at hStep
    split at hStep
    · rename_i hLt
      split at hStep
      · cases hStep
        exact h.returned (-1) hActive hLock
      · cases hStep
        refine h.gone hActive hLock ?_
        refine hw.at rfl rfl rfl ?_ (fun _ => hLock)
        intro j hj
        cases hj
        exact hLt
    · cases hStep
      refine h.gone hActive hLock ?_
      exact hw.at rfl rfl rfl (by simp) (fun _ => hLock)
  | body i =>
    have hLock := hw.locked rfl
    simp only [Pipe.pipewrite] at hStep
    split at hStep
    · cases hStep
      refine h.shifted hActive ?_ rfl rfl rfl ?_
      · exact .of_setProc (.inr hLock) (wakeup_pc s _) (wakeup_call s _) rfl (wakeup_call s _ p) rfl
      · simp only [State.sleep, State.setProc, if_true]
        exact hw.at rfl rfl rfl (by simp) (by simp [WritePc.locked])
    · rename_i hRoom
      split at hStep
      · cases hStep
        refine h.gone hActive hLock ?_
        exact hw.at rfl rfl rfl (by simp) (fun _ => hLock)
      · rename_i ch hSrc
        cases hStep
        exact h.putByte hPc hRoom hSrc
  | finish i =>
    have hLock := hw.locked rfl
    cases hStep
    exact h.wokenReturned .nread i hActive hLock

---- Readers

theorem ReadOk.at {pos pos' : ReadPc} (h : ReadOk s p c dst n pos) (hCalls : s'.calls = s.calls)
    (hCopy : pos' = .copy 0 → s'.pipe.nread ≠ s'.pipe.nwrite ∨ s'.pipe.writeopen = false)
    (hFinish :
      pos' = .finish 0 → 0 < n → s'.pipe.nread = s'.pipe.nwrite ∧ s'.pipe.writeopen = false)
    (hLocked : pos'.locked = true → s'.lock = some p) : ReadOk s' p c dst n pos' := by
  refine ⟨?_, hCopy, hFinish, hLocked⟩
  rw [hCalls]
  exact h.issued

theorem takeByte_fst (s : State) : s.takeByte.1 = s.pipe.ring.front := rfl

/- Delivering the oldest byte keeps the invariant. -/
theorem Fifo.delivered {i : Nat} (h : Fifo s) (hPc : (s.procs p).pc = .read dst n (.copy i))
    (hSome : s.pipe.nread ≠ s.pipe.nwrite)
    (hEq :
      s' =
        { s.takeByte.2 with
          delivered := s.delivered ++ [((s.procs p).call, s.takeByte.1)]
        }.goto p (.read dst n (.copy (i + 1)))) :
    Fifo s' := by
  have hActive : (s.procs p).pc ≠ .idle := by simp [hPc]
  have hr : ReadOk s p (s.procs p).call dst n (.copy i) := by
    have hOk := h.pcs p
    rw [hPc] at hOk
    exact hOk
  have hLock := hr.locked rfl
  have hUsed : 0 < s.pipe.ring.used := by
    have hNe : s.pipe.ring.used ≠ 0 := fun hZero =>
      hSome ((RingBuf.empty_iff h.ring).mpr hZero)
    omega
  subst hEq
  refine h.moved hActive ?_ (.inl rfl) ?_ ?_ ?_
  · exact .of_setProc (.inr hLock) (fun _ => rfl) (fun _ => rfl) rfl rfl rfl
  · exact h.ring.pop hUsed
  · have hContents := RingBuf.contents_pop h.ring hUsed
    have hBytes := h.bytes
    calc
      (s.delivered ++
            [((s.procs p).call, s.takeByte.1)]).map Prod.snd ++ s.pipe.ring.pop.contents
          = s.delivered.map Prod.snd ++
              (s.pipe.ring.front :: s.pipe.ring.pop.contents) := by
            simp [takeByte_fst]
      _ = s.put.map Prod.snd := by
            rw [← hContents]
            exact hBytes
  · simp only [State.goto, State.setProc, if_true]
    exact hr.at rfl (by simp) (by simp) (fun _ => hLock)

theorem Fifo.piperead {pos : ReadPc} (h : Fifo s) (hPc : (s.procs p).pc = .read dst n pos)
    (hStep : piperead s p dst n pos = some s') : Fifo s' := by
  have hActive : (s.procs p).pc ≠ .idle := by simp [hPc]
  have hr : ReadOk s p (s.procs p).call dst n pos := by
    have hOk := h.pcs p
    rw [hPc] at hOk
    exact hOk
  cases pos with
  | acquire =>
    refine h.acquired hActive hStep ?_
    exact hr.at rfl (by simp) (by simp) (fun _ => rfl)
  | loop =>
    have hLock := hr.locked rfl
    simp only [Pipe.piperead] at hStep
    split at hStep
    · split at hStep
      · cases hStep
        exact h.returned (-1) hActive hLock
      · cases hStep
        refine h.gone hActive hLock ?_
        exact hr.at rfl (by simp) (by simp) (fun _ => hLock)
    · rename_i hLeave
      cases hStep
      refine h.gone hActive hLock ?_
      refine hr.at rfl (fun _ => ?_) (by simp) (fun _ => hLock)
      by_cases hEmpty : s.pipe.nread = s.pipe.nwrite
      · right
        have hClosed : ¬ s.pipe.writeopen = true := fun hOpen => hLeave ⟨hEmpty, hOpen⟩
        exact Bool.eq_false_iff.mpr hClosed
      · exact .inl hEmpty
  | sleep =>
    have hLock := hr.locked rfl
    cases hStep
    refine h.shifted hActive ?_ rfl rfl rfl ?_
    · exact .of_setProc (.inr hLock) (fun _ => rfl) (fun _ => rfl) rfl rfl rfl
    · simp only [State.sleep, State.setProc, if_true]
      exact hr.at rfl (by simp) (by simp) (by simp [ReadPc.locked])
  | copy i =>
    have hLock := hr.locked rfl
    simp only [Pipe.piperead] at hStep
    split at hStep
    · rename_i hLt
      split at hStep
      · rename_i hEmpty
        cases hStep
        refine h.gone hActive hLock ?_
        refine hr.at rfl (by simp) ?_ (fun _ => hLock)
        intro hZero _
        cases hZero
        -- The wait loop was left, so an empty ring
        -- means that no writer is left.
        have hCopy := hr.copy rfl
        exact ⟨hEmpty, hCopy.resolve_left (fun hNe => hNe hEmpty)⟩
      · rename_i hSome
        have hValid : (Call.read dst n).Valid := h.valid _ (List.mem_of_getElem? hr.issued)
        have hDst : dst i = true := hValid i hLt
        rw [if_pos hDst] at hStep
        cases hStep
        exact h.delivered hPc hSome rfl
    · rename_i hGe
      cases hStep
      refine h.gone hActive hLock ?_
      refine hr.at rfl (by simp) ?_ (fun _ => hLock)
      intro hZero hPos
      cases hZero
      exact absurd hPos hGe
  | finish i =>
    have hLock := hr.locked rfl
    cases hStep
    exact h.wokenReturned .nwrite i hActive hLock

---- Calls, Kills And Closes

section

variable (h : Fifo s)
include h

/- Nobody moves, and the ring and the history stay. -/
theorem Fifo.still (hPc : ∀ q, (s'.procs q).pc = (s.procs q).pc)
    (hCall : ∀ q, (s'.procs q).call = (s.procs q).call) (hCalls : s'.calls = s.calls)
    (hPut : s'.put = s.put) (hDelivered : s'.delivered = s.delivered)
    (hRing : s'.pipe.ring = s.pipe.ring) (hLock : s'.lock = s.lock)
    (hPipe : s.lock ≠ none → s'.pipe = s.pipe) : Fifo s' := by
  have hPutBy : ∀ c, s'.putBy c = s.putBy c := by
    intro c
    simp only [State.putBy, hPut]
  refine ⟨?_, ?_, ?_, ?_, ?_, ?_, ?_⟩
  · rw [hRing]
    exact h.ring
  · rw [hRing, hDelivered, hPut]
    exact h.bytes
  · rw [hCalls]
    exact h.valid
  · intro q
    rw [hPc, hCall]
    refine (h.pcs q).frame (fun _ => ⟨?_, hPutBy _, ?_, ?_⟩)
    · intro x hx
      rw [hCalls]
      exact hx
    · intro hMine
      rw [hLock]
      exact hMine
    · intro hMine
      exact hPipe (by simp [hMine])
  · intro p q hp hq hEq
    rw [hPc] at hp hq
    rw [hCall, hCall] at hEq
    exact h.distinct p q hp hq hEq
  · intro c src n hc
    rw [hCalls] at hc
    rw [hPutBy]
    exact h.ordered c src n hc
  · rw [hPut, hCalls]
    exact h.known

theorem Fifo.kill (p : Nat) : Fifo (kill s p) := by
  refine h.still ?_ ?_ rfl rfl rfl rfl rfl (fun _ => rfl)
  all_goals
    intro q
    by_cases hEq : q = p
    all_goals simp [Pipe.kill, State.setProc, hEq]

theorem Fifo.closeEnd (writable : Bool) (hFree : s.lock = none) : Fifo (s.closeEnd writable) := by
  have hAbsurd : ∀ b : Buffer, s.lock ≠ none → b = s.pipe := fun _ hHeld => absurd hFree hHeld
  cases writable with
  | true | false =>
    exact h.still (wakeup_pc _ _) (wakeup_call _ _) rfl rfl rfl rfl rfl (hAbsurd _)

theorem Fifo.pipeclose (writable : Bool) (hFree : s.lock = none) : Fifo (pipeclose s writable) := by
  have hClosed := h.closeEnd writable hFree
  unfold Pipe.pipeclose
  split
  · exact hClosed.still (fun _ => rfl) (fun _ => rfl) rfl rfl rfl rfl rfl (fun _ => rfl)
  · exact hClosed

theorem Fifo.putBy_new : s.putBy s.calls.length = [] := by
  unfold State.putBy
  rw [List.map_eq_nil_iff, List.filter_eq_nil_iff]
  intro x hx hEq
  rcases h.known x hx with ⟨src, n, hCall⟩
  have hLen : x.1 = s.calls.length := by simpa using hEq
  rw [hLen, List.getElem?_eq_none (Nat.le_refl _)] at hCall
  cases hCall

theorem Fifo.call_lt {q : Nat} (hq : (s.procs q).pc ≠ .idle) :
    (s.procs q).call < s.calls.length := by
  have hOk := h.pcs q
  cases hPc : (s.procs q).pc with
  | idle => exact absurd hPc hq
  | write src n pos =>
    rw [hPc] at hOk
    have hw : WriteOk s q _ src n pos := hOk
    rcases List.getElem?_eq_some_iff.mp hw.issued with ⟨hLt, _⟩
    exact hLt
  | read dst n pos =>
    rw [hPc] at hOk
    have hr : ReadOk s q _ dst n pos := hOk
    rcases List.getElem?_eq_some_iff.mp hr.issued with ⟨hLt, _⟩
    exact hLt

theorem Fifo.issue {c : Call} (hValid : c.Valid) : Fifo (s.issue p c) := by
  have hOther : ∀ q, q ≠ p → (s.issue p c).procs q = s.procs q := by
    intro q hNe
    simp [State.issue, State.setProc, hNe]
  have hMine : (s.issue p c).procs p = { s.procs p with
      pc := c.entry, call := s.calls.length } := by
    simp [State.issue, State.setProc]
  have hKept : ∀ (i : Nat) (x : Call), s.calls[i]? = some x → (s.issue p c).calls[i]? = some x := by
    intro i x hx
    rcases List.getElem?_eq_some_iff.mp hx with ⟨hLt, _⟩
    simp only [State.issue]
    rw [List.getElem?_append_left hLt]
    exact hx
  have hNew : (s.issue p c).calls[s.calls.length]? = some c := by simp [State.issue]
  refine ⟨h.ring, h.bytes, ?_, ?_, ?_, ?_, ?_⟩
  · intro x hx
    rcases List.mem_append.mp hx with hOld | hHere
    · exact h.valid x hOld
    · rw [List.mem_singleton.mp hHere]
      exact hValid
  · intro q
    by_cases hEq : q = p
    · rw [hEq, hMine]
      have hNone := h.putBy_new
      cases c with
      | write src n =>
        refine ⟨hNew, ?_, ?_, by simp, ?_⟩
        · exact congrArg (List.map some) hNone
        · simp [WritePc.index]
        · simp [WritePc.locked]
      | read dst n => exact ⟨hNew, by simp, by simp, by simp [ReadPc.locked]⟩
    · rw [hOther q hEq]
      exact (h.pcs q).frame (fun _ => ⟨hKept _, rfl, id, fun _ => rfl⟩)
  · intro a b ha hb hEq
    by_cases hap : a = p
    · by_cases hbp : b = p
      · rw [hap, hbp]
      · rw [hap, hMine, hOther b hbp] at hEq
        rw [hOther b hbp] at hb
        have hLt := h.call_lt hb
        exact absurd hEq (by simp only; omega)
    · by_cases hbp : b = p
      · rw [hbp, hMine, hOther a hap] at hEq
        rw [hOther a hap] at ha
        have hLt := h.call_lt ha
        exact absurd hEq (by simp only; omega)
      · rw [hOther a hap] at ha hEq
        rw [hOther b hbp] at hb hEq
        exact h.distinct a b ha hb hEq
  · intro i src n hi
    by_cases hLt : i < s.calls.length
    · simp only [State.issue] at hi
      rw [List.getElem?_append_left hLt] at hi
      exact h.ordered i src n hi
    · rcases List.getElem?_eq_some_iff.mp hi with ⟨hLe, _⟩
      have hLast : i = s.calls.length := by
        simp only [State.issue, List.length_append, List.length_singleton] at hLe
        omega
      refine ⟨0, by simp, ?_⟩
      rw [hLast]
      exact congrArg (List.map some) h.putBy_new
  · intro x hx
    rcases h.known x hx with ⟨src, n, hCall⟩
    exact ⟨src, n, hKept _ _ hCall⟩

end

---- Runs

/- The step lemma. -/
theorem Fifo.step {a : Action} (h : Fifo s) (hValid : a.Valid) (hStep : step s a = some s') :
    Fifo s' := by
  cases a with
  | call p c =>
    simp only [Pipe.step] at hStep
    split at hStep
    · cases hStep
      exact h.issue hValid
    · cases hStep
  | run p =>
    simp only [Pipe.step] at hStep
    split at hStep
    · unfold advance at hStep
      split at hStep
      · cases hStep
      · rename_i src n pos hPc
        exact h.pipewrite hPc hStep
      · rename_i dst n pos hPc
        exact h.piperead hPc hStep
    · cases hStep
  | kill p =>
    cases hStep
    exact h.kill p
  | close writable =>
    simp only [Pipe.step] at hStep
    split at hStep
    · rename_i hFree
      cases hStep
      exact h.pipeclose writable hFree.2
    · cases hStep

theorem used_init (page : Nat → UInt8) : (State.init page).pipe.ring.used = 0 := by
  simp [State.init, Buffer.ring, RingBuf.used]

theorem Fifo.init (page : Nat → UInt8) : Fifo (State.init page) := by
  refine ⟨?_, ?_, ?_, ?_, ?_, ?_, ?_⟩
  · refine ⟨?_, ?_, ?_, ?_, ?_, ?_⟩ <;> simp [State.init, Buffer.ring, RingBuf.used, PIPESIZE, UINT]
  · rw [RingBuf.contents_of_used_eq_zero (used_init page)]
    rfl
  · simp [State.init]
  · intro p
    trivial
  · intro p q hp
    exact absurd rfl hp
  · intro c src n hc
    simp [State.init] at hc
  · simp [State.init]

/- The run lemma. -/
theorem Fifo.of_reachable {page : Nat → UInt8} (hReach : Reachable page s) : Fifo s := by
  induction hReach with
  | init => exact Fifo.init page
  | step _ hValid hStep ih => exact ih.step hValid hStep

theorem wakeup_ret_returned (s : State) (chan : Chan) (p : Nat) (r : Int) :
    ((s.wakeup chan).ret p r).returned = s.returned ++ [((s.procs p).call, r)] := by
  have hCall := wakeup_call s chan p
  simp only [State.ret, hCall]
  rfl

/- A call of `pipewrite` logs its own return value only. -/
theorem pipewrite_returned {pos : WritePc} (hStep : pipewrite s p src n pos = some s') :
    s'.returned = s.returned ∨ ∃ r, s'.returned = s.returned ++ [((s.procs p).call, r)] := by
  cases pos with
  | acquire i =>
    simp only [pipewrite, State.acquire] at hStep
    split at hStep
    · cases hStep
      exact .inl rfl
    · cases hStep
  | loop i =>
    simp only [pipewrite] at hStep
    split at hStep
    · split at hStep
      · cases hStep
        exact .inr ⟨-1, rfl⟩
      · cases hStep
        exact .inl rfl
    · cases hStep
      exact .inl rfl
  | body i =>
    simp only [pipewrite] at hStep
    split at hStep
    · cases hStep
      exact .inl rfl
    · split at hStep
      · cases hStep
        exact .inl rfl
      · cases hStep
        exact .inl rfl
  | finish i =>
    cases hStep
    exact .inr ⟨i, wakeup_ret_returned s .nread p i⟩

theorem piperead_returned {pos : ReadPc} (hStep : piperead s p dst n pos = some s') :
    s'.returned = s.returned ∨ s'.returned = s.returned ++ [((s.procs p).call, -1)] ∨
      ∃ i : Nat, pos = .finish i ∧ s' = (s.wakeup .nwrite).ret p i := by
  cases pos with
  | acquire =>
    simp only [piperead, State.acquire] at hStep
    split at hStep
    · cases hStep
      exact .inl rfl
    · cases hStep
  | loop =>
    simp only [piperead] at hStep
    split at hStep
    · split at hStep
      · cases hStep
        exact .inr (.inl rfl)
      · cases hStep
        exact .inl rfl
    · cases hStep
      exact .inl rfl
  | sleep =>
    cases hStep
    exact .inl rfl
  | copy i =>
    simp only [piperead] at hStep
    split at hStep
    · split at hStep
      · cases hStep
        exact .inl rfl
      · split at hStep
        · cases hStep
          exact .inl rfl
        · cases hStep
          exact .inl rfl
    · cases hStep
      exact .inl rfl
  | finish i =>
    cases hStep
    exact .inr (.inr ⟨i, rfl, rfl⟩)

theorem pipeclose_returned (s : State) (writable : Bool) :
    (pipeclose s writable).returned = s.returned := by
  have hEnd : (s.closeEnd writable).returned = s.returned := by
    cases writable with
    | true => rfl
    | false => rfl
  unfold pipeclose
  split
  · exact hEnd
  · exact hEnd

/- The last step of a read that returns `0`. -/
theorem Fifo.read_zero {a : Action} (h : Fifo s) (hStep : Pipe.step s a = some s')
    (hCall : s.calls[c]? = some (.read dst n)) (hRet : s'.returned = s.returned ++ [(c, 0)]) :
    ∃ p, (s.procs p).call = c ∧
      (s.procs p).pc = .read dst n (.finish 0) ∧ s' = (s.wakeup .nwrite).ret p 0 := by
  have hNew : s'.returned ≠ s.returned := by
    rw [hRet]
    simp
  cases a with
  | call p c' =>
    simp only [Pipe.step] at hStep
    split at hStep
    · cases hStep
      exact absurd rfl hNew
    · cases hStep
  | kill p =>
    cases hStep
    exact absurd rfl hNew
  | close writable =>
    simp only [Pipe.step] at hStep
    split at hStep
    · cases hStep
      exact absurd (pipeclose_returned s writable) hNew
    · cases hStep
  | run p =>
    simp only [Pipe.step] at hStep
    split at hStep
    · have hOk := h.pcs p
      unfold advance at hStep
      split at hStep
      · cases hStep
      · rename_i src m pos hPc
        rw [hPc] at hOk
        have hw : WriteOk s p _ src m pos := hOk
        rcases pipewrite_returned hStep with
          hSame | ⟨r, hLog⟩
        · exact absurd hSame hNew
        · have hEq : (s.procs p).call = c := by
            rw [hRet] at hLog
            simp at hLog
            exact hLog.1.symm
          have hIssued := hw.issued
          rw [hEq, hCall] at hIssued
          cases hIssued
      · rename_i dst' m pos hPc
        rw [hPc] at hOk
        have hr : ReadOk s p _ dst' m pos := hOk
        rcases piperead_returned hStep with
          hSame | hMinus | ⟨i, hPos, hEnd⟩
        · exact absurd hSame hNew
        · rw [hRet] at hMinus
          simp at hMinus
        have hLog := hRet
        rw [hEnd, wakeup_ret_returned] at hLog
        have hPair : (s.procs p).call = c ∧ i = 0 := by simpa using hLog
        have hIssued := hr.issued
        rw [hPair.1, hCall] at hIssued
        cases hIssued
        refine ⟨p, hPair.1, ?_, ?_⟩
        · rw [hPc, hPos, hPair.2]
        · rw [hEnd, hPair.2]
          rfl
    · cases hStep

/- An empty ring has delivered everything put into it. -/
theorem Fifo.all_delivered (h : Fifo s) (hEmpty : s.pipe.nread = s.pipe.nwrite) :
    s.delivered.map Prod.snd = s.put.map Prod.snd := by
  have hUsed := (RingBuf.empty_iff h.ring).mp hEmpty
  have hBytes := h.bytes
  rw [RingBuf.contents_of_used_eq_zero hUsed, List.append_nil] at hBytes
  exact hBytes

/-
  Under every schedule of calls with valid addresses, what
  the readers got followed by what is in the ring is what
  the writers put in; the ring never holds more than
  `PIPESIZE` bytes; each call has put the first bytes of its
  own source, in order; and a `piperead` of a positive
  length returns `0` only at the end of the stream.
-/
theorem reads_back_writes
    (page : Nat → UInt8)
    (s : State)
    (hReach : Reachable page s) :
    s.delivered.map Prod.snd ++ s.pipe.ring.contents = s.put.map Prod.snd ∧
    s.pipe.ring.used ≤ PIPESIZE ∧
    (∀ x ∈ s.put, ∃ src n, s.calls[x.1]? = some (.write src n)) ∧
    (∀ c src n,
      s.calls[c]? = some (.write src n) →
      ∃ k : Nat, (k : Int) ≤ max n 0 ∧ (s.putBy c).map some = (List.range k).map src) ∧
    ∀ a s' c dst n,
      step s a = some s' →
      s.calls[c]? = some (.read dst n) →
      0 < n →
      s'.returned = s.returned ++ [(c, 0)] →
      s'.pipe.writeopen = false ∧ s'.delivered.map Prod.snd = s'.put.map Prod.snd := by
  have h := Fifo.of_reachable hReach
  refine ⟨h.bytes, h.ring.used_le, h.known, h.ordered, ?_⟩
  intro a s' c dst n hStep hCall hPos hRet
  rcases h.read_zero hStep hCall hRet with ⟨p, hNumber, hPc, hEnd⟩
  have hOk := h.pcs p
  rw [hPc] at hOk
  have hr : ReadOk s p _ dst n (.finish 0) := hOk
  rcases hr.finish rfl hPos with ⟨hEmpty, hClosed⟩
  rw [hEnd]
  exact ⟨hClosed, h.all_delivered hEmpty⟩

theorem reachable_of_run {page : Nat → UInt8} {as : List Action} (h : Reachable page s)
    (hValid : ∀ a ∈ as, a.Valid) (hRun : run s as = some s') : Reachable page s' := by
  induction as generalizing s with
  | nil =>
    cases hRun
    exact h
  | cons a as ih =>
    have hHead : a.Valid := hValid a (by simp)
    have hTail : ∀ b ∈ as, b.Valid := fun b hb =>
      hValid b (by simp [hb])
    cases hStep : Pipe.step s a with
    | none => simp [run, hStep] at hRun
    | some s₁ =>
      simp only [run, hStep, Option.bind_some] at hRun
      exact ih (h.step hHead hStep) hTail hRun

/- Two bytes in a row from user memory. -/
def sampleSrc (i : Nat) : Option UInt8 := if i = 0 then some 7 else some 9

/-
  Process 0 writes two bytes and closes the write end;
  process 1 reads them and comes back for more.
-/
def sampleSchedule : List Action :=
  [.call 0 (.write sampleSrc 2)] ++ List.replicate 7 (.run 0) ++
    [.close true, .call 1 (.read (fun _ => true) 4)] ++
    List.replicate 6 (.run 1) ++
    [.call 1 (.read (fun _ => true) 1)] ++
    List.replicate 3 (.run 1)

theorem sampleSchedule_valid : ∀ a ∈ sampleSchedule, a.Valid := by
  intro a ha
  have hSrc : (Call.write sampleSrc 2).Valid := by
    intro i _
    unfold sampleSrc
    split <;> rfl
  have hDst : ∀ n, (Call.read (fun _ => true) n).Valid := fun _ _ _ => rfl
  simp only [sampleSchedule, List.mem_append, List.mem_cons, List.mem_replicate,
    List.not_mem_nil, or_false] at ha
  rcases ha with
    ((((rfl | ⟨_, rfl⟩) | rfl | rfl) | ⟨_, rfl⟩) | rfl) | ⟨_, rfl⟩
  · exact hSrc
  · trivial
  · trivial
  · exact hDst 4
  · trivial
  · exact hDst 1
  · trivial

/- The second read returns `0`: both bytes were delivered. -/
theorem reads_back_writes_sample :
    ∃ s s', Reachable (fun _ => 5) s ∧ step s (.run 1) = some s' ∧
      s'.returned = [(0, 2), (1, 2), (2, 0)] ∧ s'.delivered.map Prod.snd = [7, 9] ∧
      s'.pipe.writeopen = false := by
  have hRuns : ∃ s s', run (State.init (fun _ => 5)) sampleSchedule = some s ∧
      step s (.run 1) = some s' ∧ s.calls[2]? = some (.read (fun _ => true) 1) ∧
      s'.returned = s.returned ++ [(2, 0)] ∧ s'.returned = [(0, 2), (1, 2), (2, 0)] ∧
      s'.put.map Prod.snd = [7, 9] :=
    ⟨_, _, rfl, rfl, rfl, rfl, rfl, rfl⟩
  rcases hRuns with ⟨s, s', hRun, hStep, hCall, hRet, hAll, hPut⟩
  have hReach : Reachable (fun _ => 5) s := reachable_of_run .init sampleSchedule_valid hRun
  have hFifo := reads_back_writes (fun _ => 5) s hReach
  rcases hFifo.2.2.2.2 (.run 1) s' 2 _ 1 hStep hCall (by decide) hRet with ⟨hClosed, hDelivered⟩
  refine ⟨s, s', hReach, hStep, hAll, ?_, hClosed⟩
  rw [hDelivered]
  exact hPut

end Xv6.Pipe

import Xv6.Pipe.Fifo

/-
  What the copy loop of `piperead` takes from the ring and
  what it delivers, for any destination.

  The loop runs under `pi->lock` from the end of the wait
  loop to the return, so the steps of the reader alone
  decide. It advances `nread` before `copyout`: a byte whose
  `copyout` fails is taken and not delivered.

  Main declarations:
    * `copy_runs`
    * `piperead_consumes_iff`
-/

namespace Xv6.Pipe

---- The Copy Loop

/- The number of bytes in the ring. -/
def Buffer.queued (pi : Buffer) : Nat := pi.ring.used

/- The byte `x` places behind the next one to be read. -/
def Buffer.byteAt (pi : Buffer) (x : Nat) : UInt8 := pi.data ((pi.nread + x) % PIPESIZE)

/-
  From position `i` of the loop on, process `p` has moved
  `t` bytes to its destination, has taken `lost` bytes more
  and has returned.
-/
structure Copied (s s' : State) (p : Nat) (dst : Nat → Bool) (n : Int) (i t lost : Nat) : Prop where
  returned : s'.returned = s.returned ++ [((s.procs p).call, ((i + t : Nat) : Int))]
  delivered :
    s'.delivered = s.delivered ++ (List.range t).map (fun x => ((s.procs p).call, s.pipe.byteAt x))
  nread : s'.pipe.nread = (s.pipe.nread + t + lost) % UINT
  enough : t ≤ s.pipe.queued
  writable : ∀ x < t, dst (i + x) = true
  stop : (lost = 0 ∧ (n ≤ ((i + t : Nat) : Int) ∨ t = s.pipe.queued)) ∨
    (lost = 1 ∧ ((i + t : Nat) : Int) < n ∧ t < s.pipe.queued ∧ dst (i + t) = false)

section

variable {s s' : State} {p : Nat} {dst : Nat → Bool} {n : Int}

theorem goto_self (s : State) (p : Nat) (pc : Pc) :
    (s.goto p pc).procs p = { s.procs p with pc := pc } := by
  simp only [State.goto, State.setProc, if_true]

theorem run_read {pos : ReadPc} {as : List Action} (hFreed : s.freed = false)
    (hAwake : (s.procs p).chan = none) (hPc : (s.procs p).pc = .read dst n pos) :
    run s (.run p :: as) = (piperead s p dst n pos).bind (fun s' => run s' as) := by
  simp only [run, step, advance, hFreed, hAwake, hPc, and_self, if_true]

theorem finish_runs {i : Nat} (hFreed : s.freed = false) (hAwake : (s.procs p).chan = none)
    (hPc : (s.procs p).pc = .read dst n (.finish i)) :
    run s [.run p] = some ((s.wakeup .nwrite).ret p i) := by
  rw [run_read hFreed hAwake hPc]
  rfl

theorem queued_eq_zero_iff (hRead : s.pipe.nread < UINT) (hWrite : s.pipe.nwrite < UINT) :
    s.pipe.queued = 0 ↔ s.pipe.nread = s.pipe.nwrite := by
  simp only [Buffer.queued, RingBuf.used, Buffer.ring]
  unfold UINT at *
  omega

theorem Copied.done {i : Nat} (hEnd : n ≤ (i : Int) ∨ s.pipe.queued = 0)
    (hRead : s.pipe.nread < UINT) :
    Copied s (((s.goto p (.read dst n (.finish i))).wakeup .nwrite).ret p i) p dst n i 0 0 := by
  refine ⟨?_, ?_, ?_, Nat.zero_le _, ?_, .inl ⟨rfl, ?_⟩⟩
  · rw [wakeup_ret_returned, goto_self]
    rfl
  · exact (List.append_nil _).symm
  · exact (Nat.mod_eq_of_lt hRead).symm
  · intro x hx
    omega
  · rcases hEnd with hEnd | hEmpty
    · exact .inl hEnd
    · exact .inr hEmpty.symm

/- A failing `copyout` ends the loop after the byte is taken. -/
theorem Copied.broken {i : Nat} (hMore : (i : Int) < n) (hSome : 0 < s.pipe.queued)
    (hFail : dst i = false) :
    Copied s (((s.takeByte.2.goto p (.read dst n (.finish i))).wakeup .nwrite).ret p i)
      p dst n i 0 1 := by
  refine ⟨?_, ?_, rfl, Nat.zero_le _, ?_, .inr ⟨rfl, hMore, hSome, hFail⟩⟩
  · rw [wakeup_ret_returned, goto_self]
    rfl
  · exact (List.append_nil _).symm
  · intro x hx
    omega

/- The reader's state after one byte is delivered. -/
def State.deliver (s : State) (p : Nat) (pc : Pc) : State :=
  { s.takeByte.2 with
    delivered := s.delivered ++ [((s.procs p).call, s.takeByte.1)]
    }.goto p pc

theorem Copied.next {i t lost : Nat} (hRead : s.pipe.nread < UINT) (hWrite : s.pipe.nwrite < UINT)
    (hSome : s.pipe.nread ≠ s.pipe.nwrite) (hOk : dst i = true)
    (h : Copied (s.deliver p (.read dst n (.copy (i + 1)))) s' p dst n (i + 1) t lost) :
    Copied s s' p dst n i (t + 1) lost := by
  have hCall : ((s.deliver p (.read dst n (.copy (i + 1)))).procs p).call = (s.procs p).call := by
    unfold State.deliver
    rw [goto_self]
    rfl
  have hNread :
      (s.deliver p (.read dst n (.copy (i + 1)))).pipe.nread = (s.pipe.nread + 1) % UINT := by
    rfl
  have hQueued : s.pipe.queued = (s.deliver p (.read dst n (.copy (i + 1)))).pipe.queued + 1 := by
    simp only [Buffer.queued, RingBuf.used, Buffer.ring, hNread]
    have hTail : (s.deliver p (.read dst n (.copy (i + 1)))).pipe.nwrite = s.pipe.nwrite := by rfl
    rw [hTail]
    unfold UINT at *
    omega
  have hBytes :
      ∀ x, (s.deliver p (.read dst n (.copy (i + 1)))).pipe.byteAt x = s.pipe.byteAt (x + 1) := by
    intro x
    unfold Buffer.byteAt
    rw [hNread]
    have hCell :
        ((s.pipe.nread + 1) % UINT + x) % PIPESIZE = (s.pipe.nread + (x + 1)) % PIPESIZE := by
      unfold UINT PIPESIZE
      omega
    rw [hCell]
    rfl
  have hShift : i + (t + 1) = i + 1 + t := by omega
  refine ⟨?_, ?_, ?_, ?_, ?_, ?_⟩
  · rw [h.returned, hCall, hShift]
    rfl
  · rw [h.delivered, hCall, List.range_succ_eq_map]
    simp only [hBytes, List.map_cons, List.map_map]
    show (s.delivered ++ [_]) ++ _ = _
    rw [List.append_assoc]
    rfl
  · rw [h.nread, hNread]
    unfold UINT
    omega
  · have hLe := h.enough
    omega
  · intro x hx
    cases x with
    | zero => exact hOk
    | succ x =>
      have hNext := h.writable x (by omega)
      rw [Nat.add_assoc, Nat.add_comm 1 x] at hNext
      exact hNext
  · rw [hShift]
    rcases h.stop with ⟨hZero, hEnd⟩ | ⟨hOne, hLt, hQ, hBad⟩
    · refine .inl ⟨hZero, ?_⟩
      rcases hEnd with hEnd | hEmpty
      · exact .inl hEnd
      · exact .inr (by omega)
    · exact .inr ⟨hOne, hLt, by omega, hBad⟩

theorem runs_of_finish {i : Nat} {s₁ : State} (hFreed : s.freed = false)
    (hAwake : (s.procs p).chan = none) (hPc : (s.procs p).pc = .read dst n (.copy i))
    (hSame : s₁.freed = false ∧ (s₁.procs p).chan = none)
    (hStep : piperead s p dst n (.copy i) = some (s₁.goto p (.read dst n (.finish i)))) :
    run s (List.replicate 2 (.run p)) =
      some (((s₁.goto p (.read dst n (.finish i))).wakeup .nwrite).ret p i) := by
  have hHere := goto_self s₁ p (.read dst n (.finish i))
  have hChan : ((s₁.goto p (.read dst n (.finish i))).procs p).chan = none := by
    rw [hHere]
    exact hSame.2
  have hPos : ((s₁.goto p (.read dst n (.finish i))).procs p).pc = .read dst n (.finish i) := by
    rw [hHere]
  show run s [.run p, .run p] = _
  rw [run_read hFreed hAwake hPc, hStep, Option.bind_some]
  exact finish_runs hSame.1 hChan hPos

theorem copy_stops {i : Nat} (hFreed : s.freed = false) (hAwake : (s.procs p).chan = none)
    (hPc : (s.procs p).pc = .read dst n (.copy i)) (hRead : s.pipe.nread < UINT)
    (hWrite : s.pipe.nwrite < UINT) (hEnd : n ≤ (i : Int) ∨ s.pipe.nread = s.pipe.nwrite) :
    ∃ k s' t lost, run s (List.replicate k (.run p)) = some s' ∧ Copied s s' p dst n i t lost := by
  have hStep : piperead s p dst n (.copy i) = some (s.goto p (.read dst n (.finish i))) := by
    dsimp only [piperead]
    split
    · rename_i hLt
      have hEmpty : s.pipe.nread = s.pipe.nwrite := by omega
      rw [if_pos hEmpty]
    · rfl
  refine ⟨2, _, 0, 0, runs_of_finish hFreed hAwake hPc ⟨hFreed, hAwake⟩ hStep, .done ?_ hRead⟩
  rw [queued_eq_zero_iff hRead hWrite]
  exact hEnd

theorem copy_runs (m i : Nat) (hm : n.toNat ≤ i + m) (hFreed : s.freed = false)
    (hAwake : (s.procs p).chan = none) (hPc : (s.procs p).pc = .read dst n (.copy i))
    (hRead : s.pipe.nread < UINT) (hWrite : s.pipe.nwrite < UINT) :
    ∃ k s' t lost, run s (List.replicate k (.run p)) = some s' ∧ Copied s s' p dst n i t lost := by
  induction m generalizing s i with
  | zero => exact copy_stops hFreed hAwake hPc hRead hWrite (.inl (by omega))
  | succ m ih =>
    by_cases hEnd : n ≤ (i : Int) ∨ s.pipe.nread = s.pipe.nwrite
    · exact copy_stops hFreed hAwake hPc hRead hWrite hEnd
    push Not at hEnd
    have hSome : 0 < s.pipe.queued :=
      Nat.pos_of_ne_zero (fun hZero => hEnd.2 ((queued_eq_zero_iff hRead hWrite).mp hZero))
    by_cases hOk : dst i = true
    · have hStep :
          piperead s p dst n (.copy i) = some (s.deliver p (.read dst n (.copy (i + 1)))) := by
        dsimp only [piperead]
        rw [if_pos hEnd.1, if_neg hEnd.2]
        exact if_pos hOk
      have hHere : (s.deliver p (.read dst n (.copy (i + 1)))).procs p = { s.procs p with
          pc := .read dst n (.copy (i + 1)) } :=
        goto_self _ p _
      have hRest : ∃ k s' t lost, run (s.deliver p (.read dst n (.copy (i + 1))))
            (List.replicate k (.run p)) = some s' ∧
          Copied (s.deliver p (.read dst n (.copy (i + 1)))) s' p dst n (i + 1) t lost := by
        refine ih (i + 1) (by omega) hFreed ?_ ?_ (Nat.mod_lt _ (by decide)) hWrite
        · rw [hHere]
          exact hAwake
        · rw [hHere]
      rcases hRest with ⟨k, s', t, lost, hRun, hCopied⟩
      refine ⟨k + 1, s', t + 1, lost, ?_, hCopied.next hRead hWrite hEnd.2 hOk⟩
      rw [List.replicate_succ, run_read hFreed hAwake hPc, hStep]
      exact hRun
    · have hStep : piperead s p dst n (.copy i) =
          some (s.takeByte.2.goto p (.read dst n (.finish i))) := by
        dsimp only [piperead]
        rw [if_pos hEnd.1, if_neg hEnd.2]
        exact if_neg hOk
      have hSame : s.takeByte.2.freed = false ∧ (s.takeByte.2.procs p).chan = none :=
        ⟨hFreed, hAwake⟩
      exact ⟨2, _, 0, 1, runs_of_finish hFreed hAwake hPc hSame hStep,
        .broken hEnd.1 hSome (by simpa using hOk)⟩

end

---- Consumption And Delivery

/-
  A reader that leaves the wait loop returns some `i`, with
  `i` bytes delivered in order. The ring has advanced by
  exactly `i`, and `0` means end of file, if and only if
  every byte of the destination that the loop reaches can
  be written.
-/
theorem piperead_consumes_iff
    (s : State)
    (p : Nat)
    (dst : Nat → Bool)
    (n : Int)
    (hFreed : s.freed = false)
    (hAwake : (s.procs p).chan = none)
    (hPc : (s.procs p).pc = .read dst n .loop)
    (hRead : s.pipe.nread < UINT)
    (hWrite : s.pipe.nwrite < UINT)
    (hReady : ¬ (s.pipe.nread = s.pipe.nwrite ∧ s.pipe.writeopen = true)) :
    ∃ (k : Nat) (s' : State) (i : Nat),
      run s (List.replicate k (.run p)) = some s' ∧
      s'.returned = s.returned ++ [((s.procs p).call, (i : Int))] ∧
      s'.delivered =
        s.delivered ++ (List.range i).map (fun x => ((s.procs p).call, s.pipe.byteAt x)) ∧
      ((s'.pipe.nread = (s.pipe.nread + i) % UINT ∧
          (i = 0 → 0 < n → s.pipe.nread = s.pipe.nwrite ∧ s.pipe.writeopen = false)) ↔
        ∀ j : Nat, (j : Int) < n → j < s.pipe.queued → dst j = true) := by
  have hStep : piperead s p dst n .loop = some (s.goto p (.read dst n (.copy 0))) := by
    unfold piperead
    exact if_neg hReady
  have hHere : (s.goto p (.read dst n (.copy 0))).procs p =
      { s.procs p with pc := .read dst n (.copy 0) } :=
    goto_self s p _
  have hLoop : ∃ k s' t lost, run (s.goto p (.read dst n (.copy 0)))
        (List.replicate k (.run p)) = some s' ∧
      Copied (s.goto p (.read dst n (.copy 0))) s' p dst n 0 t lost := by
    refine copy_runs n.toNat 0 (by omega) hFreed ?_ ?_ hRead hWrite
    · rw [hHere]
      exact hAwake
    · rw [hHere]
  rcases hLoop with ⟨k, s', t, lost, hRun, hCopied⟩
  have hReturned := hCopied.returned
  have hDelivered := hCopied.delivered
  have hNread : s'.pipe.nread = (s.pipe.nread + t + lost) % UINT := hCopied.nread
  have hWritable := hCopied.writable
  have hStop : (lost = 0 ∧ (n ≤ ((0 + t : Nat) : Int) ∨ t = s.pipe.queued)) ∨
      (lost = 1 ∧ ((0 + t : Nat) : Int) < n ∧ t < s.pipe.queued ∧ dst (0 + t) = false) :=
    hCopied.stop
  rw [hHere] at hReturned hDelivered
  simp only [Nat.zero_add] at hReturned hWritable hStop
  refine ⟨k + 1, s', t, ?_, hReturned, hDelivered, ?_⟩
  · rw [List.replicate_succ, run_read hFreed hAwake hPc, hStep]
    exact hRun
  constructor
  · rintro ⟨hExact, _⟩ j hj hQueued
    rcases hStop with ⟨_, hEnd⟩ | ⟨hOne, _⟩
    · exact hWritable j (by omega)
    · rw [hNread, hOne] at hExact
      unfold UINT at hExact
      omega
  intro hAll
  have hLost : lost = 0 := by
    rcases hStop with ⟨hZero, _⟩ | ⟨_, hLt, hQ, hBad⟩
    · exact hZero
    · rw [hAll t hLt hQ] at hBad
      cases hBad
  refine ⟨by rw [hNread, hLost]; rfl, ?_⟩
  intro hZero hPos
  have hEmpty : s.pipe.queued = 0 := by omega
  rw [queued_eq_zero_iff hRead hWrite] at hEmpty
  refine ⟨hEmpty, ?_⟩
  cases hOpen : s.pipe.writeopen with
  | false => rfl
  | true => exact absurd ⟨hEmpty, hOpen⟩ hReady

/- A pipe with one byte, and a reader at its wait loop. -/
def oneByte (dst : Nat → Bool) : State :=
  { State.init (fun _ => 7) with
    pipe := ⟨fun _ => 7, 0, 1, true, true⟩
    lock := some 1
    procs := fun q =>
      if q = 1 then ⟨.read dst 1 .loop, none, false, 0⟩
      else ⟨.idle, none, false, 0⟩ }

theorem piperead_consumes_iff_oneByte :
    ∃ (k : Nat) (s' : State) (i : Nat), run (oneByte fun _ => true)
        (List.replicate k (.run 1)) = some s' ∧ s'.returned = [(0, (i : Int))] ∧
      s'.pipe.nread = (0 + i) % UINT := by
  rcases piperead_consumes_iff (oneByte fun _ => true) 1
      (fun _ => true) 1 rfl rfl rfl (by decide) (by decide) (by decide) with
    ⟨k, s', i, hRun, hReturned, _, hIff⟩
  exact ⟨k, s', i, hRun, hReturned, (hIff.mpr (fun _ _ _ => rfl)).1⟩

/-
  Process 0 writes one byte; process 1 reads it to an
  address that cannot be written. The read returns `0` with
  the write end open, and the byte is gone.
-/
theorem failed_copyout_loses_byte :
    ∃ s', run (State.init fun _ => 0) ([.call 0 (.write (fun _ => some 7) 1)] ++
        List.replicate 5 (.run 0) ++ [.call 1 (.read (fun _ => false) 1)] ++
        List.replicate 4 (.run 1)) = some s' ∧
      s'.put.map Prod.snd = [7] ∧ s'.returned = [(0, 1), (1, 0)] ∧ s'.delivered = [] ∧
      s'.pipe.nread = 1 ∧ s'.pipe.nread = s'.pipe.nwrite ∧ s'.pipe.writeopen = true :=
  ⟨_, rfl, rfl, rfl, rfl, rfl, rfl, rfl⟩

end Xv6.Pipe

import Xv6.Bio.References

/-
  The cache and the log agree.

  `Data` says where the newest contents of a block are: in
  its buffer, unless a process is changing it, and on disk
  unless the block is pinned. `StageOk` follows `commit`:
  which buffers it has, what it has copied to the log and
  what it has installed. While a process commits, no
  operation is in progress (`Ops`), so nothing is logged.

  Main declarations:
    * `Inv.bget`
    * `Inv.load`
    * `Inv.unlock`
-/

namespace Xv6.Bio

open Function (update update_self update_of_ne update_idem)

open Log (Area absorb putHead)

---- Contents

/- The blocks of the header that are still pinned. -/
def State.pinned (s : State) : List Nat := s.lh.drop s.unpinned

structure Data (a : Area) (buf : Nat → Buf) (proc : Nat → Proc) (disk latest : Disk)
    (pinned : List Nat) : Prop where
  clean : ∀ i, i < NBUF → (buf i).dev = ROOTDEV → (buf i).valid = true → ¬ a.Mem (buf i).blockno →
    (∀ p, ⟨i, true⟩ ∉ (proc p).held) → (buf i).data = latest (buf i).blockno
  log : ∀ i, i < NBUF → (buf i).dev = ROOTDEV →
    (buf i).valid = true → a.Mem (buf i).blockno → (buf i).data = disk (buf i).blockno
  dirty : ∀ p i, ⟨i, true⟩ ∈ (proc p).held → (proc p).pc = .inOp
  outside :
    ∀ p i, (∀ stage, (proc p).pc ≠ .commit stage) → i ∈ (proc p).refs → ¬ a.Mem (buf i).blockno
  home : ∀ b, ¬ a.Mem b → b ∉ pinned → disk b = latest b

---- Operations

/- A commit runs while no operation is in progress. -/
structure Ops (pc : Nat → Pc) (ops : List Nat) (outstanding : Nat) (committing : Bool) : Prop where
  nodup : ops.Nodup
  mem : ∀ p, p ∈ ops ↔ pc p = .inOp
  count : outstanding = ops.length
  active : ∀ p stage, pc p = .commit stage → committing = true
  one : ∀ p q stage stage', pc p = .commit stage → pc q = .commit stage' → p = q
  quiet : committing = true → ops = []

---- Commit

namespace Stage

/- The blocks `commit` has buffers for, the newest first. -/
def expects (a : Area) (lh : List Nat) : Stage → List Nat
  | .logFrom t => [a.start + t + 1]
  | .logCopy t => [lh.getD t 0, a.start + t + 1]
  | .logFree t => [lh.getD t 0, a.start + t + 1]
  | .logNext t => [a.start + t + 1]
  | .headWrite _ => [a.start]
  | .headFree _ => [a.start]
  | .insHome t => [a.start + t + 1]
  | .insWrite t | .insUnpin t | .insFree t => [lh.getD t 0, a.start + t + 1]
  | .insNext t => [lh.getD t 0]
  | _ => []

/- How much of the header is in the log on disk. -/
def copied (n : Nat) : Stage → Nat
  | .test => 0
  | .logTo t => t
  | .logFrom t => t
  | .logCopy t => t
  | .logFree t => t + 1
  | .logNext t => t + 1
  | .finish => 0
  | _ => n

/- How much of the header is unpinned. -/
def installed (n : Nat) : Stage → Nat
  | .insLog t => t
  | .insHome t => t
  | .insWrite t => t
  | .insUnpin t => t
  | .insFree t => t + 1
  | .insNext t => t + 1
  | .clear => n
  | _ => 0

/- The range of the loop variable, and the header. -/
def Bound (size n : Nat) : Stage → Prop
  | .test => True
  | .logTo t => t ≤ n ∧ 0 < n
  | .logFrom t => t < n
  | .logCopy t => t < n
  | .logFree t => t < n
  | .logNext t => t < n
  | .head false => 0 < n
  | .headWrite false => 0 < n
  | .headFree false => 0 < n
  | .insLog t => t ≤ n ∧ 0 < n
  | .insHome t => t < n
  | .insWrite t => t < n
  | .insUnpin t => t < n
  | .insFree t => t < n
  | .insNext t => t < n
  | .clear => 0 < n
  | .head true => n = 0 ∧ 0 < size
  | .headWrite true => n = 0 ∧ 0 < size
  | .headFree true => n = 0 ∧ 0 < size
  | .finish => n = 0

end Stage

/- The buffers `commit` has or is about to get. -/
def Io.slots : Io → List Nat
  | .lock i => [i]
  | .load i => [i]
  | _ => []

def Proc.slots (x : Proc) : List Nat := x.io.slots ++ x.bufs

theorem Proc.slots_subset_refs {x : Proc} {i : Nat} (h : i ∈ x.slots) : i ∈ x.refs := by
  rcases x with ⟨pc, io, held⟩
  cases io with
  | unref j => exact List.mem_append_right _ h
  | _ => exact h

structure StageOk (a : Area) (s : State) (p : Nat) (stage : Stage) : Prop where
  slots : (s.proc p).slots.map (fun i => (s.buf i).blockno) = stage.expects a s.lh
  bound : stage.Bound a.size s.lh.length
  copied : ∀ u, u < stage.copied s.lh.length → s.disk (a.start + u + 1) = s.latest (s.lh.getD u 0)
  unpinned : s.unpinned = stage.installed s.lh.length
  written : ∀ t, stage = .insUnpin t → s.disk (s.lh.getD t 0) = s.latest (s.lh.getD t 0)

---- The Invariant

structure Inv (a : Area) (s : State) : Prop where
  refs : Refs s.buf s.order s.users s.proc s.pinned
  data : Data a s.buf s.proc s.disk s.latest s.pinned
  ops : Ops (fun p => (s.proc p).pc) s.ops s.outstanding s.committing
  nodup : s.lh.Nodup
  outside : ∀ b ∈ s.lh, ¬ a.Mem b
  room : s.lh ≠ [] → s.lh.length < a.size
  stages : ∀ p stage, (s.proc p).pc = .commit stage → StageOk a s p stage
  rest : (∀ p stage, (s.proc p).pc ≠ .commit stage) → s.unpinned = 0

---- Frame Rules

section

variable {a : Area} {buf : Nat → Buf} {proc : Nat → Proc} {disk latest : Disk} {pinned : List Nat}

/- A step of one process on one buffer. -/
theorem Data.touch (h : Data a buf proc disk latest pinned) {p i : Nat} {x : Buf} {y : Proc}
    (hClean : i < NBUF → x.dev = ROOTDEV → x.valid = true → ¬ a.Mem x.blockno → ⟨i, true⟩ ∉ y.held →
      (∀ q, q ≠ p → ⟨i, true⟩ ∉ (proc q).held) → x.data = latest x.blockno)
    (hLog : i < NBUF → x.dev = ROOTDEV → x.valid = true → a.Mem x.blockno → x.data = disk x.blockno)
    (hHeld : ∀ j, j ≠ i → ⟨j, true⟩ ∈ (proc p).held → ⟨j, true⟩ ∈ y.held)
    (hDirty : ∀ j, ⟨j, true⟩ ∈ y.held → y.pc = .inOp)
    (hOutside : (∀ stage, y.pc ≠ .commit stage) → ∀ j ∈ y.refs, ¬ a.Mem (update buf i x j).blockno)
    (hBlock : ∀ q j, q ≠ p → j ∈ (proc q).refs → (update buf i x j).blockno = (buf j).blockno) :
    Data a (update buf i x) (update proc p y) disk latest pinned where
  clean j hj hDev hValid hMem hNone := by
    by_cases hEq : j = i
    · rw [hEq] at hj hNone
      rw [hEq, update_self] at hDev hValid hMem ⊢
      apply hClean hj hDev hValid hMem
      · have hMine := hNone p
        rw [update_self] at hMine
        exact hMine
      · intro q hq
        have hTheirs := hNone q
        rw [update_of_ne hq] at hTheirs
        exact hTheirs
    · rw [update_of_ne hEq] at hDev hValid hMem ⊢
      apply h.clean j hj hDev hValid hMem
      intro q hMark
      by_cases hq : q = p
      · have hMine := hNone p
        rw [update_self] at hMine
        exact hMine (hHeld j hEq (hq ▸ hMark))
      · have hTheirs := hNone q
        rw [update_of_ne hq] at hTheirs
        exact hTheirs hMark
  log j hj hDev hValid hMem := by
    by_cases hEq : j = i
    · rw [hEq] at hj
      rw [hEq, update_self] at hDev hValid hMem ⊢
      exact hLog hj hDev hValid hMem
    · rw [update_of_ne hEq] at hDev hValid hMem ⊢
      exact h.log j hj hDev hValid hMem
  dirty q j hMark := by
    by_cases hq : q = p
    · rw [hq, update_self] at hMark ⊢
      exact hDirty j hMark
    · rw [update_of_ne hq] at hMark ⊢
      exact h.dirty q j hMark
  outside q j hPc hRef := by
    by_cases hq : q = p
    · rw [hq, update_self] at hPc hRef
      exact hOutside hPc j hRef
    · rw [update_of_ne hq] at hPc hRef
      rw [hBlock q j hq hRef]
      exact h.outside q j hPc hRef
  home := h.home

theorem blockno_update {i : Nat} {x : Buf} (h : x.blockno = (buf i).blockno) (j : Nat) :
    (update buf i x j).blockno = (buf j).blockno := by
  by_cases hj : j = i
  · rw [hj, update_self, h]
  · rw [update_of_ne hj]

/- The buffer stays the buffer of its block, as it is. -/
theorem Data.keep (h : Data a buf proc disk latest pinned) {p i : Nat} {x : Buf} {y : Proc}
    (hDev : x.dev = (buf i).dev) (hBlock : x.blockno = (buf i).blockno)
    (hValid : x.valid = (buf i).valid) (hSame : x.data = (buf i).data)
    (hHeld : ∀ j, ⟨j, true⟩ ∈ y.held ↔ ⟨j, true⟩ ∈ (proc p).held)
    (hPc : (proc p).pc = .inOp → y.pc = .inOp)
    (hOutside : (∀ stage, y.pc ≠ .commit stage) → ∀ j ∈ y.refs, ¬ a.Mem (buf j).blockno) :
    Data a (update buf i x) (update proc p y) disk latest pinned := by
  have hBlocks := blockno_update hBlock
  apply h.touch
  · rw [hDev, hBlock, hValid, hSame]
    intro hi hRoot hVal hMem hMine hTheirs
    apply h.clean i hi hRoot hVal hMem
    intro q hMark
    by_cases hq : q = p
    · exact hMine ((hHeld i).mpr (hq ▸ hMark))
    · exact hTheirs q hq hMark
  · rw [hDev, hBlock, hValid, hSame]
    exact h.log i
  · exact fun j _ hMark => (hHeld j).mpr hMark
  · exact fun j hMark => hPc (h.dirty p j ((hHeld j).mp hMark))
  · intro hNone j hRef
    rw [hBlocks]
    exact hOutside hNone j hRef
  · exact fun q j _ _ => hBlocks j

end

theorem StageOk.frame {a : Area} {s s' : State} {p : Nat} {stage : Stage} (h : StageOk a s p stage)
    (hProc : s'.proc p = s.proc p)
    (hBlock : ∀ i ∈ (s.proc p).refs, (s'.buf i).blockno = (s.buf i).blockno) (hLh : s'.lh = s.lh)
    (hDisk : s'.disk = s.disk) (hLatest : s'.latest = s.latest)
    (hUnpinned : s'.unpinned = s.unpinned) : StageOk a s' p stage := by
  refine ⟨?_, ?_, ?_, ?_, ?_⟩
  · rw [hProc, hLh, ← h.slots]
    apply List.map_congr_left
    intro i hi
    exact hBlock i (Proc.slots_subset_refs hi)
  · rw [hLh]
    exact h.bound
  · rw [hLh, hDisk, hLatest]
    exact h.copied
  · rw [hLh, hUnpinned]
    exact h.unpinned
  · rw [hLh, hDisk, hLatest]
    exact h.written

/- A step of `commit` that writes and unpins nothing. -/
structure Stage.Moves (size n : Nat) (stage stage' : Stage) : Prop where
  bound : stage'.Bound size n
  copied : stage'.copied n ≤ stage.copied n
  installed : stage'.installed n = stage.installed n
  written : ∀ t, stage' = .insUnpin t → stage = .insUnpin t

theorem StageOk.stay {a : Area} {s : State} {p : Nat} {stage : Stage} (h : StageOk a s p stage) :
    stage.Moves a.size s.lh.length stage := ⟨h.bound, Nat.le_refl _, rfl, fun _ => id⟩

theorem StageOk.move {a : Area} {s s' : State} {p : Nat} {stage stage' : Stage}
    (h : StageOk a s p stage) (hMoves : stage.Moves a.size s.lh.length stage')
    (hSlots : (s'.proc p).slots.map (fun i => (s'.buf i).blockno) = stage'.expects a s.lh)
    (hLh : s'.lh = s.lh) (hDisk : s'.disk = s.disk) (hLatest : s'.latest = s.latest)
    (hUnpinned : s'.unpinned = s.unpinned) : StageOk a s' p stage' := by
  refine ⟨?_, ?_, ?_, ?_, ?_⟩
  · rw [hLh]
    exact hSlots
  · rw [hLh]
    exact hMoves.bound
  · rw [hLh, hDisk, hLatest]
    intro u hu
    exact h.copied u (Nat.lt_of_lt_of_le hu hMoves.copied)
  · rw [hLh, hUnpinned, h.unpinned, hMoves.installed]
  · rw [hLh, hDisk, hLatest]
    intro t ht
    exact h.written t (hMoves.written t ht)

/- The kind of a place: in an operation, committing, or not. -/
theorem Ops.congr {pc pc' : Nat → Pc} {ops : List Nat} {outstanding : Nat} {committing : Bool}
    (h : Ops pc ops outstanding committing) (hInOp : ∀ p, pc' p = .inOp ↔ pc p = .inOp)
    (hCommit : ∀ p stage, pc' p = .commit stage → ∃ stage', pc p = .commit stage') :
    Ops pc' ops outstanding committing where
  nodup := h.nodup
  mem p := (h.mem p).trans (hInOp p).symm
  count := h.count
  active p stage hp := by
    rcases hCommit p stage hp with ⟨stage', hOld⟩
    exact h.active p stage' hOld
  one p q stage stage' hp hq := by
    rcases hCommit p stage hp with ⟨st, hOld⟩
    rcases hCommit q stage' hq with ⟨st', hOld'⟩
    exact h.one p q st st' hOld hOld'
  quiet := h.quiet

/- A step of one process that leaves the log alone. -/
theorem Inv.next {a : Area} {s s' : State} {p : Nat} (h : Inv a s)
    (hRefs : Refs s'.buf s'.order s'.users s'.proc s.pinned)
    (hData : Data a s'.buf s'.proc s.disk s.latest s.pinned)
    (hOther : ∀ q, q ≠ p → s'.proc q = s.proc q)
    (hInOp : (s'.proc p).pc = .inOp ↔ (s.proc p).pc = .inOp)
    (hCommit : (∃ stage, (s'.proc p).pc = .commit stage) ↔ ∃ stage, (s.proc p).pc = .commit stage)
    (hBlock : ∀ q i, q ≠ p → i ∈ (s.proc q).refs → (s'.buf i).blockno = (s.buf i).blockno)
    (hStage : ∀ stage, (s'.proc p).pc = .commit stage → StageOk a s' p stage) (hLh : s'.lh = s.lh)
    (hDisk : s'.disk = s.disk) (hLatest : s'.latest = s.latest)
    (hUnpinned : s'.unpinned = s.unpinned) (hOps : s'.ops = s.ops)
    (hOutstanding : s'.outstanding = s.outstanding) (hCommitting : s'.committing = s.committing) :
    Inv a s' := by
  have hPinned : s'.pinned = s.pinned := by
    unfold State.pinned
    rw [hLh, hUnpinned]
  refine ⟨?_, ?_, ?_, ?_, ?_, ?_, ?_, ?_⟩
  · rw [hPinned]
    exact hRefs
  · rw [hPinned, hDisk, hLatest]
    exact hData
  · rw [hOps, hOutstanding, hCommitting]
    apply h.ops.congr
    · intro q
      by_cases hq : q = p
      · rw [hq]
        exact hInOp
      · simp only [hOther q hq]
    · intro q stage hPc
      by_cases hq : q = p
      · rw [hq] at hPc ⊢
        exact hCommit.mp ⟨stage, hPc⟩
      · simp only [hOther q hq] at hPc
        exact ⟨stage, hPc⟩
  · rw [hLh]
    exact h.nodup
  · rw [hLh]
    exact h.outside
  · rw [hLh]
    exact h.room
  · intro q stage hPc
    by_cases hq : q = p
    · rw [hq] at hPc ⊢
      exact hStage stage hPc
    · rw [hOther q hq] at hPc
      exact (h.stages q stage hPc).frame (hOther q hq)
        (fun i hi => hBlock q i hq hi) hLh hDisk hLatest hUnpinned
  · intro hNone
    rw [hUnpinned]
    apply h.rest
    intro q stage hPc
    by_cases hq : q = p
    · rw [hq] at hPc
      rcases hCommit.mpr ⟨stage, hPc⟩ with ⟨stage', hNew⟩
      exact hNone p stage' hNew
    · apply hNone q stage
      rw [hOther q hq]
      exact hPc

---- Reading And Releasing

section

variable {a : Area} {s s' : State} {p : Nat} {i : Nat}

variable (h : Inv a s)
include h

theorem Inv.touch {x : Buf} {y : Proc} {order : List Nat} {users : Nat → List Nat}
    (hRefs : Refs (update s.buf i x) order users (update s.proc p y) s.pinned)
    (hData : Data a (update s.buf i x) (update s.proc p y) s.disk s.latest s.pinned)
    (hInOp : y.pc = .inOp ↔ (s.proc p).pc = .inOp)
    (hCommit : (∃ stage, y.pc = .commit stage) ↔ ∃ stage, (s.proc p).pc = .commit stage)
    (hBlock : ∀ q j, q ≠ p → j ∈ (s.proc q).refs → (update s.buf i x j).blockno = (s.buf j).blockno)
    (hStage : ∀ stage', y.pc = .commit stage' → ∃ stage, (s.proc p).pc = .commit stage ∧
        stage.Moves a.size s.lh.length stage' ∧ y.slots.map (fun j =>
          (update s.buf i x j).blockno) = stage'.expects a s.lh) :
    Inv a { s with
      buf := update s.buf i x
      proc := update s.proc p y
      order := order
      users := users } := by
  have hSelf : update s.proc p y p = y := update_self ..
  apply h.next hRefs hData
  · intro q hq
    exact update_of_ne hq ..
  · dsimp only
    rw [hSelf]
    exact hInOp
  · dsimp only
    rw [hSelf]
    exact hCommit
  · exact hBlock
  · intro stage' hPc
    dsimp only at hPc
    rw [hSelf] at hPc
    rcases hStage stage' hPc with ⟨stage, hOld, hMoves, hSlots⟩
    apply (h.stages p stage hOld).move hMoves
    · dsimp only
      rw [hSelf]
      exact hSlots
    · rfl
    · rfl
    · rfl
    · rfl
  all_goals rfl

/- `bget` has found or recycled a buffer. -/
theorem Inv.got {b : Nat} {x : Buf} {pc : Pc}
    (hRefs : Refs (update s.buf i x) s.order (update s.users i (p :: s.users i)) (update s.proc p
          { s.proc p with pc := pc, io := .lock i }) s.pinned) (hBlock : x.blockno = b)
    (hClean : i < NBUF → x.dev = ROOTDEV → x.valid = true →
        ¬ a.Mem x.blockno → (∀ q, ⟨i, true⟩ ∉ (s.proc q).held) → x.data = s.latest x.blockno)
    (hLog :
      i < NBUF → x.dev = ROOTDEV → x.valid = true → a.Mem x.blockno → x.data = s.disk x.blockno)
    (hSame : ∀ q, i ∈ (s.proc q).refs → (s.buf i).blockno = b)
    (hInOp : pc = .inOp ↔ (s.proc p).pc = .inOp)
    (hCommit : (∃ stage, pc = .commit stage) ↔ ∃ stage, (s.proc p).pc = .commit stage)
    (hMem : (∀ stage, pc ≠ .commit stage) → ¬ a.Mem b)
    (hStage : ∀ stage', pc = .commit stage' → ∃ stage, (s.proc p).pc = .commit stage ∧
            stage.Moves a.size s.lh.length stage' ∧
            stage'.expects a s.lh = b :: stage.expects a s.lh) (hIo : (s.proc p).io = .none) :
    Inv a { s with
        buf := update s.buf i x
        proc := update s.proc p { s.proc p with pc := pc, io := .lock i }
        order := s.order
        users := update s.users i (p :: s.users i) } := by
  have hBlocks : ∀ q j, j ∈ (s.proc q).refs → (update s.buf i x j).blockno = (s.buf j).blockno := by
    intro q j hRef
    by_cases hj : j = i
    · rw [hj] at hRef ⊢
      rw [update_self, hBlock, hSame q hRef]
    · rw [update_of_ne hj]
  have hOld : (s.proc p).refs = (s.proc p).bufs := by
    unfold Proc.refs
    rw [hIo]
    rfl
  have hSlots : (s.proc p).slots = (s.proc p).bufs := by
    unfold Proc.slots
    rw [hIo]
    rfl
  have hNew : (update s.buf i x i).blockno = b := by rw [update_self, hBlock]
  apply h.touch hRefs
  · apply h.data.touch
    · intro hi hDev hValid hOut hMine hTheirs
      apply hClean hi hDev hValid hOut
      intro q
      by_cases hq : q = p
      · rw [hq]
        exact hMine
      · exact hTheirs q hq
    · exact hLog
    · exact fun j _ hMark => hMark
    · exact fun j hMark => hInOp.mpr (h.data.dirty p j hMark)
    · intro hNone j hRef
      rcases List.mem_cons.mp hRef with hEq | hHeld
      · rw [hEq, hNew]
        exact hMem hNone
      have hWas : j ∈ (s.proc p).refs := by
        rw [hOld]
        exact hHeld
      rw [hBlocks p j hWas]
      apply h.data.outside p j _ hWas
      intro stage hPc
      rcases hCommit.mpr ⟨stage, hPc⟩ with ⟨stage', hTo⟩
      exact hNone stage' hTo
    · exact fun q j _ hRef => hBlocks q j hRef
  · exact hInOp
  · exact hCommit
  · exact fun q j _ hRef => hBlocks q j hRef
  · intro stage' hPc
    rcases hStage stage' hPc with ⟨stage, hWas, hMoves, hExpects⟩
    refine ⟨stage, hWas, hMoves, ?_⟩
    have hPast := (h.stages p stage hWas).slots
    rw [hSlots] at hPast
    rw [hExpects, ← hPast]
    refine congrArg₂ List.cons hNew ?_
    apply List.map_congr_left
    intro j hj
    apply hBlocks p j
    rw [hOld]
    exact hj

theorem Inv.bget {b : Nat} {pc : Pc} (hStep : bget s p b pc = .ok s') (hIo : (s.proc p).io = .none)
    (hInOp : pc = .inOp ↔ (s.proc p).pc = .inOp)
    (hCommit : (∃ stage, pc = .commit stage) ↔ ∃ stage, (s.proc p).pc = .commit stage)
    (hMem : (∀ stage, pc ≠ .commit stage) → ¬ a.Mem b)
    (hStage : ∀ stage', pc = .commit stage' → ∃ stage, (s.proc p).pc = .commit stage ∧
      stage.Moves a.size s.lh.length stage' ∧
      stage'.expects a s.lh = b :: stage.expects a s.lh) : Inv a s' := by
  have hIn : ∀ i, i ∈ s.order ↔ i < NBUF := by
    intro i
    rw [h.refs.order.mem_iff, List.mem_range]
  unfold Bio.bget at hStep
  cases hFind : s.order.find? (fun i => decide ((s.buf i).Caches b)) with
  | some i =>
    rw [hFind] at hStep
    cases hStep
    have hi := (hIn i).mp (List.mem_of_find?_eq_some hFind)
    have hCaches : (s.buf i).Caches b := by
      have hTest := List.find?_some hFind
      exact of_decide_eq_true hTest
    apply h.got
    · exact h.refs.get hi hCaches.1 hIo pc
    · exact hCaches.2
    · exact fun _ => h.data.clean i hi
    · exact fun _ => h.data.log i hi
    · exact fun _ _ => hCaches.2
    · exact hInOp
    · exact hCommit
    · exact hMem
    · exact hStage
    · exact hIo
  | none =>
    rw [hFind] at hStep
    have hNew : ∀ j, j < NBUF → ¬ (s.buf j).Caches b := by
      intro j hj hCaches
      have hNot := List.find?_eq_none.mp hFind j ((hIn j).mpr hj)
      exact hNot (decide_eq_true hCaches)
    cases hFree : s.order.reverse.find? (fun i => decide ((s.buf i).refcnt = 0)) with
    | none =>
      rw [hFree] at hStep
      cases hStep
    | some i =>
      rw [hFree] at hStep
      cases hStep
      have hi : i < NBUF := by
        rw [← hIn, ← List.mem_reverse]
        exact List.mem_of_find?_eq_some hFree
      have hZero : (s.buf i).refcnt = 0 := by
        have hTest := List.find?_some hFree
        exact of_decide_eq_true hTest
      have hRefs := (h.refs.recycle hi hZero hNew).get hi (by rw [update_self]) hIo pc
      rw [update_self, update_idem] at hRefs
      apply h.got
      · dsimp only at hRefs
        rw [hZero] at hRefs
        exact hRefs
      · rfl
      · intro _ _ hValid
        cases hValid
      · intro _ _ hValid
        cases hValid
      · intro q hRef
        exact absurd hRef (h.refs.not_mem_refs hi hZero q)
      · exact hInOp
      · exact hCommit
      · exact hMem
      · exact hStage
      · exact hIo

/-
  A step inside `bread` or `brelse`: the process stays where
  it is, with a part of its references.
-/
theorem Inv.inside {x : Buf} {y : Proc} {order : List Nat} {users : Nat → List Nat}
    (hRefs : Refs (update s.buf i x) order users (update s.proc p y) s.pinned)
    (hData : Data a (update s.buf i x) (update s.proc p y) s.disk s.latest s.pinned)
    (hPc : y.pc = (s.proc p).pc) (hBlock : x.blockno = (s.buf i).blockno)
    (hSlots : y.slots = (s.proc p).slots) :
    Inv a { s with
      buf := update s.buf i x
      proc := update s.proc p y
      order := order
      users := users } := by
  have hBlocks := blockno_update hBlock
  apply h.touch hRefs hData
  · rw [hPc]
  · rw [hPc]
  · exact fun q j _ _ => hBlocks j
  · intro stage hStage
    rw [hPc] at hStage
    have hOk := h.stages p stage hStage
    refine ⟨stage, hStage, hOk.stay, ?_⟩
    rw [hSlots, ← hOk.slots]
    exact List.map_congr_left fun j _ => hBlocks j

theorem Inv.lockBuf (hStep : lockBuf s p i = some (.ok s')) (hIo : (s.proc p).io = .lock i) :
    Inv a s' := by
  unfold Bio.lockBuf at hStep
  split at hStep
  · rename_i hFree
    cases hStep
    have hOld : (s.proc p).refs = i :: (s.proc p).bufs := by
      unfold Proc.refs
      rw [hIo]
      rfl
    apply h.inside
    · exact h.refs.lock hIo hFree
    · apply h.data.keep
      · rfl
      · rfl
      · rfl
      · rfl
      · exact fun _ => Iff.rfl
      · exact id
      · intro hNone j hRef
        apply h.data.outside p j hNone
        rw [hOld]
        exact hRef
    · rfl
    · rfl
    · unfold Proc.slots
      rw [hIo]
      rfl
  · cases hStep

/- A pinned block is not read from disk. -/
theorem Inv.not_pinned (hi : i < NBUF) (hDev : (s.buf i).dev = ROOTDEV)
    (hValid : (s.buf i).valid ≠ true) : (s.buf i).blockno ∉ s.pinned := by
  intro hPinned
  rcases h.refs.pinned _ hPinned with ⟨j, hj, hCaches, hVal⟩
  have hEq := h.refs.unique i j _ hi hj ⟨hDev, rfl⟩ hCaches
  rw [hEq] at hValid
  exact hValid hVal

theorem Inv.load (hIo : (s.proc p).io = .load i) : Inv a (load s p i) := by
  have hOld : (s.proc p).refs = i :: (s.proc p).bufs := by
    unfold Proc.refs
    rw [hIo]
    rfl
  have hMark :
      ∀ j, Held.mk j true ∈ Held.mk i false :: (s.proc p).held ↔ ⟨j, true⟩ ∈ (s.proc p).held := by
    intro j
    simp
  unfold Bio.load
  dsimp only
  split
  · rename_i hValid
    apply h.inside
    · apply h.refs.load hIo
      · rfl
      · rfl
      · exact hValid
      · rfl
      · rfl
    · apply h.data.keep
      · rfl
      · rfl
      · rfl
      · rfl
      · exact hMark
      · exact id
      · intro hNone j hRef
        apply h.data.outside p j hNone
        rw [hOld]
        exact hRef
    · rfl
    · rfl
    · unfold Proc.slots
      rw [hIo]
      rfl
  · rename_i hValid
    rcases h.refs.refs p i (by rw [hOld]; simp) with ⟨hi, hDev⟩
    have hBlocks : ∀ j, (update s.buf i { s.buf i with
          data := s.disk (s.buf i).blockno
          valid := true } j).blockno =
        (s.buf j).blockno :=
      blockno_update rfl
    apply h.inside
    · apply h.refs.load hIo
      · rfl
      · rfl
      · rfl
      · rfl
      · rfl
    · apply h.data.touch
      · intro _ _ _ hMem _ _
        exact h.data.home _ hMem (h.not_pinned hi hDev hValid)
      · exact fun _ _ _ _ => rfl
      · exact fun j _ hDirty => (hMark j).mpr hDirty
      · intro j hDirty
        exact h.data.dirty p j ((hMark j).mp hDirty)
      · intro hNone j hRef
        rw [hBlocks]
        apply h.data.outside p j hNone
        rw [hOld]
        exact hRef
      · exact fun q j _ _ => hBlocks j
    · rfl
    · rfl
    · unfold Proc.slots
      rw [hIo]
      rfl

theorem Inv.unref (hIo : (s.proc p).io = .unref i) : Inv a (unref s p i) := by
  have hOld : (s.proc p).refs = i :: (s.proc p).bufs := by
    unfold Proc.refs
    rw [hIo]
    rfl
  have hIn : i ∈ s.order := by
    rw [h.refs.order.mem_iff, List.mem_range]
    exact (h.refs.refs p i (by rw [hOld]; simp)).1
  apply h.inside
  · apply h.refs.unref hIo
    split
    · exact (List.perm_cons_erase hIn).symm
    · exact List.Perm.refl _
  · apply h.data.keep
    · rfl
    · rfl
    · rfl
    · rfl
    · exact fun _ => Iff.rfl
    · exact id
    · intro hNone j hRef
      apply h.data.outside p j hNone
      rw [hOld]
      exact List.mem_cons_of_mem i hRef
  · rfl
  · rfl
  · unfold Proc.slots
    rw [hIo]
    rfl

/- The first half of `brelse`, by a client or by `commit`. -/
theorem Inv.unlock {pc : Pc} (hIo : (s.proc p).io = .none) (hHeld : ⟨i, false⟩ ∈ (s.proc p).held)
    (hInOp : pc = .inOp ↔ (s.proc p).pc = .inOp)
    (hCommit : (∃ stage, pc = .commit stage) ↔ ∃ stage, (s.proc p).pc = .commit stage)
    (hStage : ∀ stage', pc = .commit stage' → ∃ stage, (s.proc p).pc = .commit stage ∧
      stage.Moves a.size s.lh.length stage' ∧ ((s.proc p).held.erase ⟨i, false⟩).map
        (fun x => (s.buf x.buf).blockno) = stage'.expects a s.lh) :
    Inv a (unlock s p i pc) := by
  have hBlocks : ∀ j, (update s.buf i { s.buf i with lock := none } j).blockno =
      (s.buf j).blockno :=
    blockno_update rfl
  have hPerm := Proc.bufs_perm hHeld
  apply h.touch
  · exact h.refs.unlock hIo hHeld pc
  · apply h.data.keep
    · rfl
    · rfl
    · rfl
    · rfl
    · intro j
      exact List.mem_erase_of_ne (by simp)
    · exact hInOp.mpr
    · intro hNone j hRef
      apply h.data.outside p j
      · intro stage hPc
        rcases hCommit.mpr ⟨stage, hPc⟩ with ⟨stage', hTo⟩
        exact hNone stage' hTo
      · apply List.mem_append_right
        exact hPerm.mem_iff.mpr hRef
  · exact hInOp
  · exact hCommit
  · exact fun q j _ _ => hBlocks j
  · intro stage' hPc
    rcases hStage stage' hPc with ⟨stage, hWas, hMoves, hSlots⟩
    refine ⟨stage, hWas, hMoves, ?_⟩
    rw [← hSlots]
    simp only [hBlocks]
    exact List.map_map

end

end Xv6.Bio

import Xv6.Bio.Agreement
import Mathlib.Data.List.GetD

/-
  Logging and committing.

  A client changes a buffer and logs it; `commit` copies the
  logged blocks to the log, writes the header, installs the
  blocks and erases the transaction. Each of these steps
  keeps the invariant, and so does every run.

  Main declarations:
    * `Inv.commitStep`
    * `Inv.of_reachable`
    * `cache_and_log_agree`
-/

namespace Xv6.Bio

open Function (update update_self update_of_ne update_idem update_eq_self)

open Log (Area absorb absorb_eq mem_absorb nodup_absorb putHead)

---- Changing And Logging

theorem bufs_mark (i : Nat) (dirty : Bool) (held : List Held) :
    (mark i dirty held).map Held.buf = held.map Held.buf := by
  unfold mark
  rw [List.map_map]
  apply List.map_congr_left
  intro x _
  change (if x.buf = i then _ else _ : Held).buf = x.buf
  split
  · rename_i hEq
    exact hEq.symm
  · rfl

theorem mem_mark_of_ne {i j : Nat} {dirty b : Bool} {held : List Held} (hNe : j ≠ i) :
    ⟨j, b⟩ ∈ mark i dirty held ↔ ⟨j, b⟩ ∈ held := by
  unfold mark
  rw [List.mem_map]
  constructor
  · rintro ⟨x, hx, hEq⟩
    split at hEq
    · injection hEq with hBuf
      exact absurd hBuf.symm hNe
    · rw [← hEq]
      exact hx
  · intro hx
    exact ⟨⟨j, b⟩, hx, if_neg hNe⟩

theorem mem_mark_self {i : Nat} {dirty b : Bool} {held : List Held} (hMem : i ∈ held.map Held.buf) :
    ⟨i, b⟩ ∈ mark i dirty held ↔ b = dirty := by
  unfold mark
  rw [List.mem_map]
  constructor
  · rintro ⟨x, _, hEq⟩
    split at hEq
    · injection hEq with _ hDirty
      exact hDirty.symm
    · rename_i hNe
      rw [hEq] at hNe
      exact absurd rfl hNe
  · intro hb
    rcases List.mem_map.mp hMem with ⟨x, hx, hBuf⟩
    refine ⟨x, hx, ?_⟩
    rw [if_pos hBuf, hb]

section

variable {a : Area} {s s' : State} {p i : Nat} {buf : Nat → Buf} {proc : Nat → Proc}
variable {pinned ops : List Nat} {outstanding b t : Nat} {committing : Bool} {pc : Nat → Pc}
variable {stage stage' : Stage}

theorem Inv.modifyBuf (h : Inv a s) (data : Block) (hPc : (s.proc p).pc = .inOp)
    (hHeld : i ∈ (s.proc p).held.map Held.buf) : Inv a (modifyBuf s p i data) := by
  have hNone : ∀ stage, (s.proc p).pc ≠ .commit stage := by
    intro stage hEq
    rw [hPc] at hEq
    cases hEq
  have hRef : i ∈ (s.proc p).refs := List.mem_append_right _ hHeld
  have hBufs := bufs_mark i true (s.proc p).held
  have hBlocks : ∀ j, (update s.buf i { s.buf i with data := data } j).blockno =
      (s.buf j).blockno :=
    blockno_update rfl
  apply h.inside
  · apply h.refs.edit
    · rfl
    · rfl
    · rfl
    · rfl
    · rfl
    · rfl
    · exact hBufs
  · apply h.data.touch
    · intro _ _ _ _ hMine
      exact absurd ((mem_mark_self hHeld).mpr rfl) hMine
    · intro _ _ _ hMem
      exact absurd hMem (h.data.outside p i hNone hRef)
    · exact fun j hj hMark => (mem_mark_of_ne hj).mpr hMark
    · exact fun _ _ => hPc
    · intro _ j hMine
      rw [hBlocks]
      apply h.data.outside p j hNone
      unfold Proc.refs Proc.bufs at hMine
      rw [hBufs] at hMine
      exact hMine
    · exact fun q j _ _ => hBlocks j
  · rfl
  · rfl
  · unfold Proc.slots Proc.bufs
    rw [hBufs]

theorem Inv.no_commit (h : Inv a s) (hPc : (s.proc p).pc = .inOp) (q : Nat) (stage : Stage) :
    (s.proc q).pc ≠ .commit stage := by
  intro hq
  have hMem := (h.ops.mem p).mpr hPc
  rw [h.ops.quiet (h.ops.active q stage hq)] at hMem
  cases hMem

theorem Inv.pinned_eq (h : Inv a s) (hPc : (s.proc p).pc = .inOp) : s.pinned = s.lh := by
  unfold State.pinned
  rw [h.rest (h.no_commit hPc), List.drop_zero]

/- The contents of a buffer become the newest of its block. -/
theorem Data.logged {order : List Nat} {users : Nat → List Nat} {disk latest : Disk}
    {pinned' : List Nat} (h : Data a buf proc disk latest pinned)
    (hRefs : Refs buf order users proc pinned) {x : Buf} {y : Proc} (hi : i < NBUF)
    (hRoot : (buf i).dev = ROOTDEV) (hOut : ¬ a.Mem (buf i).blockno)
    (hBlock : x.blockno = (buf i).blockno) (hSame : x.data = (buf i).data)
    (hHeld : ∀ j, j ≠ i → ⟨j, true⟩ ∈ (proc p).held → ⟨j, true⟩ ∈ y.held) (hPc : y.pc = .inOp)
    (hOutside : ∀ j ∈ y.refs, ¬ a.Mem (buf j).blockno)
    (hPinned : ∀ b, b = (buf i).blockno ∨ b ∈ pinned → b ∈ pinned') :
    Data a (update buf i x) (update proc p y) disk (latest.write (buf i).blockno (buf i).data)
      pinned' := by
  have hBlocks := blockno_update hBlock
  refine ⟨?_, ?_, ?_, ?_, ?_⟩
  · intro j hj hDev hValid hMem hNone
    by_cases hEq : j = i
    · rw [hEq, update_self, hBlock, hSame, Disk.write_same]
    rw [update_of_ne hEq] at hDev hValid hMem ⊢
    have hOther : (buf j).blockno ≠ (buf i).blockno := by
      intro hSameBlock
      exact hEq (hRefs.unique j i _ hj hi ⟨hDev, hSameBlock⟩ ⟨hRoot, rfl⟩)
    rw [Disk.write_other _ _ hOther]
    apply h.clean j hj hDev hValid hMem
    intro q hMark
    have hNot := hNone q
    by_cases hq : q = p
    · rw [hq, update_self] at hNot
      exact hNot (hHeld j hEq (hq ▸ hMark))
    · rw [update_of_ne hq] at hNot
      exact hNot hMark
  · intro j hj hDev hValid hMem
    rw [hBlocks] at hMem ⊢
    by_cases hEq : j = i
    · rw [hEq] at hMem
      exact absurd hMem hOut
    · rw [update_of_ne hEq] at hDev hValid ⊢
      exact h.log j hj hDev hValid hMem
  · intro q j hMark
    by_cases hq : q = p
    · rw [hq, update_self]
      exact hPc
    · rw [update_of_ne hq] at hMark ⊢
      exact h.dirty q j hMark
  · intro q j hNone hRef
    rw [hBlocks]
    by_cases hq : q = p
    · rw [hq, update_self] at hRef
      exact hOutside j hRef
    · rw [update_of_ne hq] at hNone hRef
      exact h.outside q j hNone hRef
  · intro b hMem hNot
    have hNe : b ≠ (buf i).blockno := by
      intro hEq
      exact hNot (hPinned b (Or.inl hEq))
    rw [Disk.write_other _ _ hNe]
    apply h.home b hMem
    intro hOld
    exact hNot (hPinned b (Or.inr hOld))

/- `log_write` pins the block unless the header has it. -/
theorem Refs.logged {order : List Nat} {users : Nat → List Nat} {lh : List Nat}
    (h : Refs buf order users proc lh) {y : Proc} (hHeld : i ∈ (proc p).bufs)
    (hIo : y.io = (proc p).io) (hBufs : y.bufs = (proc p).bufs) :
    Refs (update buf i { buf i with
        refcnt :=
          if (buf i).blockno ∈ lh then (buf i).refcnt
          else (buf i).refcnt + 1 })
      order users (update proc p y)
      (absorb lh (buf i).blockno) := by
  rcases h.refs p i (List.mem_append_right _ hHeld) with ⟨hi, hDev⟩
  rw [absorb_eq]
  split
  · apply h.edit
    · rfl
    · rfl
    · rfl
    · rfl
    · rfl
    · exact hIo
    · exact hBufs
  · rename_i hNew
    have hPin := h.pin hi hDev (h.valid p i hHeld) hNew
    rw [← update_idem (a := i) { buf i with refcnt := (buf i).refcnt + 1 }
      { buf i with refcnt := (buf i).refcnt + 1 } buf]
    apply hPin.edit
    · rw [update_self]
    · rw [update_self]
    · rw [update_self]
    · rw [update_self]
    · rw [update_self]
    · exact hIo
    · exact hBufs

theorem Inv.logWrite (h : Inv a s) (hStep : logWrite a s p i = .ok s') (hPc : (s.proc p).pc = .inOp)
    (hHeld : i ∈ (s.proc p).held.map Held.buf) : Inv a s' := by
  have hNone := h.no_commit hPc
  have hRest := h.rest hNone
  have hPinned := h.pinned_eq hPc
  have hRef : i ∈ (s.proc p).refs := List.mem_append_right _ hHeld
  rcases h.refs.refs p i hRef with ⟨hi, hDev⟩
  have hOut := h.data.outside p i (hNone p) hRef
  have hBufs := bufs_mark i false (s.proc p).held
  unfold Bio.logWrite at hStep
  dsimp only at hStep
  split at hStep
  · cases hStep
  rename_i hRoom
  split at hStep
  · cases hStep
  cases hStep
  have hRefs := h.refs
  have hData := h.data
  rw [hPinned] at hRefs hData
  have hProcs : ∀ q, (update s.proc p { s.proc p with
        held := mark i false (s.proc p).held } q).pc =
      (s.proc q).pc := by
    intro q
    by_cases hq : q = p
    · rw [hq, update_self]
    · rw [update_of_ne hq]
  refine ⟨?_, ?_, ?_, ?_, ?_, ?_, ?_, ?_⟩
  · change Refs _ _ _ _ (List.drop s.unpinned (absorb s.lh _))
    rw [hRest, List.drop_zero]
    exact hRefs.logged hHeld rfl hBufs
  · change Data _ _ _ _ _ (List.drop s.unpinned (absorb s.lh _))
    rw [hRest, List.drop_zero]
    apply hData.logged hRefs hi hDev hOut
    · rfl
    · rfl
    · exact fun j hj => (mem_mark_of_ne hj).mpr
    · exact hPc
    · intro j hj
      apply h.data.outside p j (hNone p)
      unfold Proc.refs Proc.bufs at hj
      rw [hBufs] at hj
      exact hj
    · exact fun b => mem_absorb.mpr
  · apply h.ops.congr
    · intro q
      rw [← hProcs q]
      rfl
    · intro q stage hq
      exact ⟨stage, (hProcs q).symm.trans hq⟩
  · exact nodup_absorb _ h.nodup
  · intro b hb
    rcases mem_absorb.mp hb with hEq | hOld
    · rw [hEq]
      exact hOut
    · exact h.outside b hOld
  · intro _
    have hLength : (absorb s.lh (s.buf i).blockno).length ≤ s.lh.length + 1 := by
      rw [absorb_eq]
      split
      · exact Nat.le_succ _
      · simp
    change (absorb s.lh _).length < a.size
    omega
  · intro q stage hq
    exact absurd ((hProcs q).symm.trans hq) (hNone q stage)
  · exact fun _ => hRest

---- Transactions

/- A process goes to another place, with its buffers. -/
theorem Inv.enter (h : Inv a s) {pc : Pc}
    (hOps : Ops (update (fun q => (s.proc q).pc) p pc) ops outstanding committing)
    (hDirty : (s.proc p).pc = .inOp → pc = .inOp ∨ (s.proc p).held = [])
    (hOutside :
      (∀ stage, pc ≠ .commit stage) → (s.proc p).refs = [] ∨ ∀ stage, (s.proc p).pc ≠ .commit stage)
    (hStage : ∀ stage', pc = .commit stage' → stage'.expects a s.lh =
            (s.proc p).slots.map (fun i => (s.buf i).blockno) ∧
          stage'.Bound a.size s.lh.length ∧ (∀ u,
            u < stage'.copied s.lh.length → s.disk (a.start + u + 1) = s.latest (s.lh.getD u 0)) ∧
          s.unpinned = stage'.installed s.lh.length ∧ ∀ t, stage' ≠ .insUnpin t)
    (hRest :
      (∀ stage, pc ≠ .commit stage) → s.unpinned = 0 ∨ ∀ stage, (s.proc p).pc ≠ .commit stage) :
    Inv a { goto s p pc with
        outstanding := outstanding
        committing := committing
        ops := ops } := by
  have hRefs := h.refs.edit (x := s.buf 0) (y := { s.proc p with pc := pc })
    (i := 0) (p := p) rfl rfl rfl rfl rfl rfl rfl
  rw [update_eq_self] at hRefs
  have hSame : ∀ q, (update s.proc p { s.proc p with pc := pc } q).held = (s.proc q).held := by
    intro q
    by_cases hq : q = p
    · rw [hq, update_self]
    · rw [update_of_ne hq]
  have hPcs : (fun q =>
      (update s.proc p { s.proc p with pc := pc } q).pc) =
      update (fun q => (s.proc q).pc) p pc := by
    funext q
    by_cases hq : q = p
    · rw [hq, update_self, update_self]
    · rw [update_of_ne hq, update_of_ne hq]
  refine ⟨hRefs, ?_, ?_, h.nodup, h.outside, h.room, ?_, ?_⟩
  · refine ⟨?_, h.data.log, ?_, ?_, h.data.home⟩
    · intro i hi hDev hValid hMem hNone
      apply h.data.clean i hi hDev hValid hMem
      intro q
      rw [← hSame q]
      exact hNone q
    · intro q i hMark
      change (update s.proc p _ q).pc = .inOp
      have hOld : ⟨i, true⟩ ∈ (s.proc q).held := by
        rw [← hSame q]
        exact hMark
      have hInOp := h.data.dirty q i hOld
      by_cases hq : q = p
      · rw [hq] at hOld hInOp ⊢
        rw [update_self]
        rcases hDirty hInOp with hNew | hNil
        · exact hNew
        · rw [hNil] at hOld
          cases hOld
      · rw [update_of_ne hq]
        exact hInOp
    · intro q i hNone hRef
      change ∀ stage, (update s.proc p _ q).pc ≠ _ at hNone
      change i ∈ (update s.proc p _ q).refs at hRef
      by_cases hq : q = p
      · rw [hq, update_self] at hNone hRef
        rcases hOutside hNone with hNil | hClient
        · change i ∈ (s.proc p).refs at hRef
          rw [hNil] at hRef
          cases hRef
        · exact h.data.outside p i hClient hRef
      · rw [update_of_ne hq] at hNone hRef
        exact h.data.outside q i hNone hRef
  · change Ops (fun q => (update s.proc p _ q).pc) _ _ _
    rw [hPcs]
    exact hOps
  · intro q stage hq
    change (update s.proc p _ q).pc = _ at hq
    by_cases hEq : q = p
    · rw [hEq, update_self] at hq
      rcases hStage stage hq with ⟨hSlots, hBound, hCopied, hUnpinned, hWritten⟩
      rw [hEq]
      refine ⟨?_, hBound, hCopied, hUnpinned, ?_⟩
      · change (update s.proc p _ p).slots.map _ = _
        rw [update_self]
        exact hSlots.symm
      · intro t ht
        exact absurd ht (hWritten t)
    · rw [update_of_ne hEq] at hq
      apply (h.stages q stage hq).frame
      · exact update_of_ne hEq ..
      · exact fun _ _ => rfl
      · rfl
      · rfl
      · rfl
      · rfl
  · intro hNone
    have hMine : ∀ stage, pc ≠ .commit stage := by
      intro stage
      have hSelf := hNone p stage
      change (update s.proc p _ p).pc ≠ _ at hSelf
      rw [update_self] at hSelf
      exact hSelf
    rcases hRest hMine with hZero | hClient
    · exact hZero
    apply h.rest
    intro q stage hq
    by_cases hEq : q = p
    · exact hClient stage (hEq ▸ hq)
    · apply hNone q stage
      change (update s.proc p _ q).pc = _
      rw [update_of_ne hEq]
      exact hq

theorem Ops.wait (h : Ops pc ops outstanding committing) {pc' : Pc}
    (hInOp : pc' = .inOp ↔ pc p = .inOp)
    (hCommit : ∀ stage, pc' = .commit stage → ∃ stage', pc p = .commit stage') :
    Ops (update pc p pc') ops outstanding committing := by
  apply h.congr
  · intro q
    by_cases hq : q = p
    · rw [hq, update_self]
      exact hInOp
    · rw [update_of_ne hq]
  · intro q stage hStage
    by_cases hq : q = p
    · rw [hq, update_self] at hStage
      rw [hq]
      exact hCommit stage hStage
    · rw [update_of_ne hq] at hStage
      exact ⟨stage, hStage⟩

theorem Ops.begin (h : Ops pc ops outstanding false) (hPc : pc p ≠ .inOp) :
    Ops (update pc p .inOp) (p :: ops) (outstanding + 1) false where
  nodup := by
    refine List.nodup_cons.mpr ⟨?_, h.nodup⟩
    intro hMem
    exact hPc ((h.mem p).mp hMem)
  mem q := by
    by_cases hq : q = p
    · rw [hq, update_self]
      simp
    · rw [update_of_ne hq, ← h.mem q]
      simp [hq]
  count := by
    rw [h.count]
    rfl
  active q stage hq := by
    by_cases hEq : q = p
    · rw [hEq, update_self] at hq
      cases hq
    · rw [update_of_ne hEq] at hq
      exact h.active q stage hq
  one q r stage stage' hq _ := by
    by_cases hEq : q = p
    · rw [hEq, update_self] at hq
      cases hq
    · rw [update_of_ne hEq] at hq
      exact absurd (h.active q stage hq) (by simp)
  quiet hTrue := by cases hTrue

/- The end of an operation, with a commit if it was the last. -/
theorem Ops.finish (h : Ops pc ops outstanding false) (hPc : pc p = .inOp) {pc' : Pc}
    (hNew : pc' ≠ .inOp) (hCommit : ∀ stage, pc' = .commit stage → committing = true)
    (hLast : committing = true → outstanding - 1 = 0) :
    Ops (update pc p pc') (ops.erase p) (outstanding - 1) committing where
  nodup := h.nodup.erase p
  mem q := by
    rw [h.nodup.mem_erase_iff]
    by_cases hq : q = p
    · rw [hq, update_self]
      simp [hNew]
    · rw [update_of_ne hq, ← h.mem q]
      simp [hq]
  count := by
    rw [List.length_erase_of_mem ((h.mem p).mpr hPc), h.count]
  active q stage hq := by
    by_cases hEq : q = p
    · rw [hEq, update_self] at hq
      exact hCommit stage hq
    · rw [update_of_ne hEq] at hq
      exact absurd (h.active q stage hq) (by simp)
  one q r stage stage' hq hr := by
    have hIs : ∀ q stage, update pc p pc' q = .commit stage → q = p := by
      intro q stage hq
      by_cases hEq : q = p
      · exact hEq
      · rw [update_of_ne hEq] at hq
        exact absurd (h.active q stage hq) (by simp)
    rw [hIs q stage hq, hIs r stage' hr]
  quiet hTrue := by
    apply List.length_eq_zero_iff.mp
    rw [List.length_erase_of_mem ((h.mem p).mpr hPc), ← h.count]
    exact hLast hTrue

theorem Ops.committed (h : Ops pc ops outstanding committing) (hPc : pc p = .commit stage) :
    Ops (update pc p .out) ops outstanding false := by
  have hNone : ∀ q stage, update pc p .out q ≠ .commit stage := by
    intro q stage' hq
    by_cases hEq : q = p
    · rw [hEq, update_self] at hq
      cases hq
    · rw [update_of_ne hEq] at hq
      exact hEq (h.one q p stage' stage hq hPc)
  refine ⟨h.nodup, ?_, h.count, ?_, ?_, ?_⟩
  · intro q
    rw [h.mem]
    by_cases hq : q = p
    · rw [hq, update_self, hPc]
      simp
    · rw [update_of_ne hq]
  · exact fun q stage' hq => absurd hq (hNone q stage')
  · exact fun q _ stage' _ hq _ =>
      absurd hq (hNone q stage')
  · intro hTrue
    cases hTrue

theorem Inv.beginOp (h : Inv a s) (hPc : (s.proc p).pc = .out ∨ (s.proc p).pc = .waiting) :
    Inv a (beginOp s p) := by
  have hOut : (s.proc p).pc ≠ .inOp := by
    rcases hPc with hPc | hPc <;> simp [hPc]
  have hNone : ∀ stage, (s.proc p).pc ≠ .commit stage := by
    intro stage
    rcases hPc with hPc | hPc <;> simp [hPc]
  have hWait : Inv a (goto s p .waiting) := by
    apply h.enter
    · apply h.ops.wait
      · simp [hOut]
      · intro stage hStage
        cases hStage
    · exact fun hInOp => absurd hInOp hOut
    · exact fun _ => Or.inr hNone
    · intro stage hStage
      cases hStage
    · exact fun _ => Or.inr hNone
  unfold Bio.beginOp
  split
  · exact hWait
  rename_i hIdle
  split
  · exact hWait
  apply h.enter
  · have hOps := h.ops
    rw [Bool.eq_false_iff.mpr hIdle] at hOps
    change Ops _ _ _ s.committing
    rw [Bool.eq_false_iff.mpr hIdle]
    exact hOps.begin hOut
  · exact fun hInOp => absurd hInOp hOut
  · exact fun _ => Or.inr hNone
  · intro stage hStage
    cases hStage
  · exact fun _ => Or.inr hNone

theorem Inv.endOp (h : Inv a s) (hStep : endOp s p = .ok s') (hIo : (s.proc p).io = .none)
    (hPc : (s.proc p).pc = .inOp) (hHeld : (s.proc p).held = []) : Inv a s' := by
  have hNone := h.no_commit hPc
  have hSlots : (s.proc p).slots = [] := by
    unfold Proc.slots Proc.bufs
    rw [hIo, hHeld]
    rfl
  unfold Bio.endOp at hStep
  dsimp only at hStep
  split at hStep
  · cases hStep
  rename_i hIdle
  have hOps := h.ops
  rw [Bool.eq_false_iff.mpr hIdle] at hOps
  split at hStep
  · rename_i hLast
    cases hStep
    apply h.enter
    · exact hOps.finish hPc (by simp) (fun _ _ => rfl) (fun _ => hLast)
    · exact fun _ => Or.inr hHeld
    · exact fun _ => Or.inr (hNone p)
    · intro stage hStage
      cases hStage
      rw [hSlots]
      refine ⟨rfl, trivial, ?_, h.rest hNone, ?_⟩
      · exact fun u hu => absurd hu (Nat.not_lt_zero u)
      · exact fun t => by simp
    · exact fun _ => Or.inl (h.rest hNone)
  · cases hStep
    apply h.enter
    · change Ops _ _ _ s.committing
      rw [Bool.eq_false_iff.mpr hIdle]
      apply hOps.finish hPc (by simp)
      · intro stage hStage
        cases hStage
      · intro hTrue
        cases hTrue
    · exact fun _ => Or.inr hHeld
    · exact fun _ => Or.inr (hNone p)
    · intro stage hStage
      cases hStage
    · exact fun _ => Or.inl (h.rest hNone)

---- Commit

section

variable (h : Inv a s) (hPc : (s.proc p).pc = .commit stage)
include h hPc

/- The buffers of `commit`, with the blocks they hold. -/
theorem Inv.held_blocks (hIo : (s.proc p).io = .none) :
    (s.proc p).held.map (fun x => (s.buf x.buf).blockno) = stage.expects a s.lh := by
  rw [← (h.stages p stage hPc).slots]
  unfold Proc.slots
  rw [hIo]
  change _ = ((s.proc p).held.map Held.buf).map _
  rw [List.map_map]
  rfl

/- `commit` changes no buffer that it does not write. -/
theorem Inv.held_clean {x : Held} (hx : x ∈ (s.proc p).held) : x = ⟨x.buf, false⟩ := by
  rcases x with ⟨i, dirty⟩
  cases dirty with
  | false => rfl
  | true =>
    have hInOp := h.data.dirty p i hx
    rw [hPc] at hInOp
    cases hInOp

theorem Inv.held_one (hIo : (s.proc p).io = .none) (hExpects : stage.expects a s.lh = [b]) :
    ∃ i, (s.proc p).held = [⟨i, false⟩] ∧ (s.buf i).blockno = b := by
  have hBlocks := h.held_blocks hPc hIo
  have hClean := fun x => h.held_clean (x := x) hPc
  rw [hExpects] at hBlocks
  rcases List.map_eq_singleton_iff.mp hBlocks with ⟨x, hHeld, hBlock⟩
  rw [hHeld] at hClean ⊢
  refine ⟨x.buf, ?_, hBlock⟩
  rw [← hClean x List.mem_cons_self]

theorem Inv.held_two (hIo : (s.proc p).io = .none) {c : Nat}
    (hExpects : stage.expects a s.lh = [b, c]) :
    ∃ i j, (s.proc p).held = [⟨i, false⟩, ⟨j, false⟩] ∧
      (s.buf i).blockno = b ∧ (s.buf j).blockno = c := by
  have hBlocks := h.held_blocks hPc hIo
  have hClean := fun x => h.held_clean (x := x) hPc
  rw [hExpects] at hBlocks
  rcases List.map_eq_cons_iff.mp hBlocks with ⟨x, rest, hHeld, hFirst, hRest⟩
  rcases List.map_eq_singleton_iff.mp hRest with ⟨y, hLast, hSecond⟩
  rw [hHeld, hLast] at hClean ⊢
  refine ⟨x.buf, y.buf, ?_, hFirst, hSecond⟩
  rw [← hClean x List.mem_cons_self, ← hClean y (by simp)]

/- Nobody has a buffer changed while a process commits. -/
theorem Inv.no_dirty (q i : Nat) : ⟨i, true⟩ ∉ (s.proc q).held := by
  intro hMark
  exact h.no_commit (h.data.dirty q i hMark) p stage hPc

/- So its home buffers are as they were last logged. -/
theorem Inv.held_latest (hHeld : i ∈ (s.proc p).bufs) (hMem : ¬ a.Mem (s.buf i).blockno) :
    (s.buf i).data = s.latest (s.buf i).blockno := by
  rcases h.refs.refs p i (List.mem_append_right _ hHeld) with ⟨hi, hDev⟩
  apply h.data.clean i hi hDev (h.refs.valid p i hHeld) hMem
  exact fun q => h.no_dirty hPc q i

end

theorem Data.write {order users proc} {disk latest : Disk} (h : Data a buf proc disk latest pinned)
    (hRefs : Refs buf order users proc pinned) (hi : i < NBUF) (hRoot : (buf i).dev = ROOTDEV)
    {data : Block} (hNew : ¬ a.Mem (buf i).blockno → data = latest (buf i).blockno) :
    Data a (update buf i { buf i with data := data }) proc (disk.write (buf i).blockno data) latest
      pinned := by
  have hBlocks : ∀ j, (update buf i { buf i with data := data } j).blockno =
      (buf j).blockno :=
    blockno_update rfl
  have hOther :
      ∀ j, j < NBUF → j ≠ i → (buf j).dev = ROOTDEV → (buf j).blockno ≠ (buf i).blockno := by
    intro j hj hNe hDev hEq
    exact hNe (hRefs.unique j i _ hj hi ⟨hDev, hEq⟩ ⟨hRoot, rfl⟩)
  refine ⟨?_, ?_, h.dirty, ?_, ?_⟩
  · intro j hj hDev hValid hMem hNone
    by_cases hEq : j = i
    · rw [hEq] at hMem ⊢
      rw [update_self] at hMem ⊢
      exact hNew hMem
    · rw [update_of_ne hEq] at hDev hValid hMem ⊢
      exact h.clean j hj hDev hValid hMem hNone
  · intro j hj hDev hValid hMem
    by_cases hEq : j = i
    · rw [hEq, update_self]
      exact (Disk.write_same ..).symm
    · rw [update_of_ne hEq] at hDev hValid hMem ⊢
      rw [Disk.write_other _ _ (hOther j hj hEq hDev)]
      exact h.log j hj hDev hValid hMem
  · intro q j hNone hRef
    rw [hBlocks]
    exact h.outside q j hNone hRef
  · intro b hMem hNot
    by_cases hb : b = (buf i).blockno
    · rw [hb] at hMem ⊢
      rw [Disk.write_same]
      exact hNew hMem
    · rw [Disk.write_other _ _ hb]
      exact h.home b hMem hNot

/- A step of `commit`: no other process commits, so only its own stage is at stake. -/
theorem Inv.commits (h : Inv a s) (hPc : (s.proc p).pc = .commit stage)
    (hNew : (s'.proc p).pc = .commit stage') (hOther : ∀ q, q ≠ p → s'.proc q = s.proc q)
    (hRefs : Refs s'.buf s'.order s'.users s'.proc s'.pinned)
    (hData : Data a s'.buf s'.proc s'.disk s'.latest s'.pinned) (hLh : s'.lh = s.lh ∨ s'.lh = [])
    (hStage : StageOk a s' p stage') (hOps : s'.ops = s.ops)
    (hOutstanding : s'.outstanding = s.outstanding) (hCommitting : s'.committing = s.committing) :
    Inv a s' := by
  refine ⟨hRefs, hData, ?_, ?_, ?_, ?_, ?_, ?_⟩
  · rw [hOps, hOutstanding, hCommitting]
    apply h.ops.congr
    · intro q
      by_cases hq : q = p
      · rw [hq, hNew, hPc]
        simp
      · rw [hOther q hq]
    · intro q st hq
      by_cases hEq : q = p
      · exact ⟨stage, hEq ▸ hPc⟩
      · rw [hOther q hEq] at hq
        exact ⟨st, hq⟩
  · rcases hLh with hLh | hLh <;> rw [hLh]
    · exact h.nodup
    · exact List.nodup_nil
  · rcases hLh with hLh | hLh <;> rw [hLh]
    · exact h.outside
    · exact fun b hb => absurd hb List.not_mem_nil
  · rcases hLh with hLh | hLh <;> rw [hLh]
    · exact h.room
    · exact fun hNil => absurd rfl hNil
  · intro q st hq
    by_cases hEq : q = p
    · rw [hEq] at hq ⊢
      rw [hNew] at hq
      cases hq
      exact hStage
    · rw [hOther q hEq] at hq
      exact absurd (h.ops.one q p st stage hq hPc) hEq
  · exact fun hNone => absurd hNew (hNone p stage')

theorem Data.goes {disk latest : Disk} (h : Data a buf proc disk latest pinned)
    (hPc : (proc p).pc = .commit stage) :
    Data a buf (update proc p { proc p with pc := .commit stage' }) disk latest pinned := by
  have hMoved :=
    h.keep (i := 0) (x := buf 0) (p := p)
      (y := { proc p with pc := .commit stage' })
      rfl rfl rfl rfl (fun _ => Iff.rfl)
      (fun hInOp => by rw [hPc] at hInOp; cases hInOp)
      (fun hNone => absurd rfl (hNone stage'))
  rw [update_eq_self] at hMoved
  exact hMoved

section

variable (h : Inv a s)
include h

theorem Inv.bwrite {data : Block} (hPc : (s.proc p).pc = .commit stage)
    (hHeld : i ∈ (s.proc p).bufs)
    (hData : ¬ a.Mem (s.buf i).blockno → data = s.latest (s.buf i).blockno)
    (hExpects : stage'.expects a s.lh = stage.expects a s.lh)
    (hBound : stage'.Bound a.size s.lh.length)
    (hInstalled : stage'.installed s.lh.length = stage.installed s.lh.length)
    (hCopied : ∀ u, u < stage'.copied s.lh.length →
      s.disk.write (s.buf i).blockno data (a.start + u + 1) = s.latest (s.lh.getD u 0))
    (hWritten : ∀ t, stage' = .insUnpin t →
      s.disk.write (s.buf i).blockno data (s.lh.getD t 0) = s.latest (s.lh.getD t 0)) :
    Inv a (goto (bwrite s i data) p (.commit stage')) := by
  rcases h.refs.refs p i (List.mem_append_right _ hHeld) with ⟨hi, hDev⟩
  have hOk := h.stages p stage hPc
  apply h.commits hPc
  · change (update s.proc p _ p).pc = .commit stage'
    rw [update_self]
  · intro q hq
    exact update_of_ne hq ..
  · apply h.refs.edit
    all_goals rfl
  · exact (h.data.write h.refs hi hDev hData).goes hPc
  · exact Or.inl rfl
  · refine ⟨?_, hBound, hCopied, ?_, hWritten⟩
    · change (update s.proc p _ p).slots.map _ = stage'.expects a s.lh
      rw [update_self, hExpects, ← hOk.slots]
      apply List.map_congr_left
      intro j _
      exact blockno_update (x := { s.buf i with data := data }) rfl j
    · exact hOk.unpinned.trans hInstalled.symm
  · rfl
  · rfl
  · rfl

theorem Inv.unpin (hPc : (s.proc p).pc = .commit (.insUnpin t)) (hHeld : i ∈ (s.proc p).bufs)
    (hBlock : (s.buf i).blockno = s.lh.getD t 0) :
    Inv a { goto (s.setBuf i { s.buf i with
        refcnt := (s.buf i).refcnt - 1 }) p (.commit (.insFree t)) with
      unpinned := s.unpinned + 1 } := by
  rcases h.refs.refs p i (List.mem_append_right _ hHeld) with ⟨hi, hDev⟩
  have hOk := h.stages p _ hPc
  have hLt : t < s.lh.length := hOk.bound
  have hUnpinned : s.unpinned = t := hOk.unpinned
  have hPinned : s.pinned = s.lh.getD t 0 :: s.lh.drop (t + 1) := by
    unfold State.pinned
    rw [hUnpinned, List.drop_eq_getElem_cons hLt]
    congr 1
    exact (List.getD_eq_getElem _ _ hLt).symm
  have hOnce : s.lh.getD t 0 ∉ s.lh.drop (t + 1) := by
    have hNodup := h.nodup.sublist (List.drop_sublist t s.lh)
    rw [List.drop_eq_getElem_cons hLt] at hNodup
    rw [List.getD_eq_getElem _ _ hLt]
    exact (List.nodup_cons.mp hNodup).1
  have hRefs := h.refs
  rw [hPinned] at hRefs
  have hLess := hRefs.unpin hi ⟨hDev, hBlock⟩ hOnce
  apply h.commits hPc
  · change (update s.proc p _ p).pc = .commit (.insFree t)
    rw [update_self]
  · intro q hq
    exact update_of_ne hq ..
  · change Refs _ _ _ _ (s.lh.drop (s.unpinned + 1))
    rw [hUnpinned]
    have hMoved := hLess.edit (i := 0) (x := update s.buf i
        { s.buf i with refcnt := (s.buf i).refcnt - 1 } 0)
      (p := p)
      (y := { s.proc p with pc := .commit (.insFree t) })
      rfl rfl rfl rfl rfl rfl rfl
    rw [update_eq_self] at hMoved
    exact hMoved
  · change Data _ _ _ _ _ (s.lh.drop (s.unpinned + 1))
    rw [hUnpinned]
    have hMoved : Data a (update s.buf i { s.buf i with refcnt := (s.buf i).refcnt - 1 })
        (update s.proc p { s.proc p with pc := .commit (.insFree t) })
        s.disk s.latest s.pinned := by
      apply h.data.keep
      · rfl
      · rfl
      · rfl
      · rfl
      · exact fun _ => Iff.rfl
      · intro hInOp
        rw [hPc] at hInOp
        cases hInOp
      · exact fun hNone => absurd rfl (hNone (.insFree t))
    refine { hMoved with home := ?_ }
    intro b hMem hNot
    by_cases hb : b = s.lh.getD t 0
    · rw [hb]
      exact hOk.written t rfl
    · apply h.data.home b hMem
      rw [hPinned, List.mem_cons]
      exact fun hOr => hOr.elim hb hNot
  · exact Or.inl rfl
  · refine ⟨?_, hLt, hOk.copied, ?_, ?_⟩
    · change (update s.proc p _ p).slots.map _ = Stage.expects a s.lh (.insUnpin t)
      rw [update_self, ← hOk.slots]
      apply List.map_congr_left
      intro j _
      exact blockno_update (x := { s.buf i with refcnt := (s.buf i).refcnt - 1 }) rfl j
    · change s.unpinned + 1 = t + 1
      rw [hUnpinned]
    · intro u hu
      cases hu
  · rfl
  · rfl
  · rfl

theorem Inv.clear (hPc : (s.proc p).pc = .commit .clear) :
    Inv a { goto s p (.commit (.head true)) with
      lh := []
      unpinned := 0 } := by
  have hOk := h.stages p _ hPc
  have hPos : 0 < s.lh.length := hOk.bound
  have hRoom := h.room (List.ne_nil_of_length_pos hPos)
  have hUnpinned : s.unpinned = s.lh.length := hOk.unpinned
  have hPinned : s.pinned = [] := by
    unfold State.pinned
    rw [hUnpinned, List.drop_length]
  have hRefs := h.refs
  have hData := h.data
  rw [hPinned] at hRefs hData
  apply h.commits hPc
  · change (update s.proc p _ p).pc = .commit (.head true)
    rw [update_self]
  · intro q hq
    exact update_of_ne hq ..
  · have hMoved := hRefs.edit (i := 0) (x := s.buf 0) (p := p)
      (y := { s.proc p with pc := .commit (.head true) })
      rfl rfl rfl rfl rfl rfl rfl
    rw [update_eq_self] at hMoved
    exact hMoved
  · exact hData.goes hPc
  · exact Or.inr rfl
  · refine ⟨?_, ⟨rfl, by omega⟩, ?_, rfl, ?_⟩
    · change (update s.proc p _ p).slots.map _ = []
      rw [update_self]
      exact hOk.slots
    · intro u hu
      cases hu
    · intro t ht
      cases ht
  · rfl
  · rfl
  · rfl

theorem Inv.goto (hPc : (s.proc p).pc = .commit stage)
    (hMoves : stage.Moves a.size s.lh.length stage')
    (hExpects : stage'.expects a s.lh = stage.expects a s.lh) :
    Inv a (goto s p (.commit stage')) := by
  have hOk := h.stages p stage hPc
  apply h.commits hPc
  · change (update s.proc p _ p).pc = .commit stage'
    rw [update_self]
  · intro q hq
    exact update_of_ne hq ..
  · have hMoved := h.refs.edit (i := 0) (x := s.buf 0) (p := p)
      (y := { s.proc p with pc := .commit stage' })
      rfl rfl rfl rfl rfl rfl rfl
    rw [update_eq_self] at hMoved
    exact hMoved
  · exact h.data.goes hPc
  · exact Or.inl rfl
  · apply hOk.move hMoves
    · change (update s.proc p _ p).slots.map _ = _
      rw [update_self, hExpects, ← hOk.slots]
      rfl
    · rfl
    · rfl
    · rfl
    · rfl
  · rfl
  · rfl
  · rfl

theorem Inv.reads (hStep : Bio.bget s p b (.commit stage') = .ok s')
    (hPc : (s.proc p).pc = .commit stage) (hIo : (s.proc p).io = .none)
    (hMoves : stage.Moves a.size s.lh.length stage')
    (hExpects : stage'.expects a s.lh = b :: stage.expects a s.lh) : Inv a s' := by
  apply h.bget hStep hIo
  · rw [hPc]
    simp
  · rw [hPc]
    simp
  · exact fun hNone => absurd rfl (hNone stage')
  · intro st hSt
    cases hSt
    exact ⟨stage, hPc, hMoves, hExpects⟩

theorem Inv.releases (hPc : (s.proc p).pc = .commit stage) (hIo : (s.proc p).io = .none)
    (hHeld : ⟨i, false⟩ ∈ (s.proc p).held) (hMoves : stage.Moves a.size s.lh.length stage')
    (hRest : ((s.proc p).held.erase ⟨i, false⟩).map (fun x => (s.buf x.buf).blockno) =
      stage'.expects a s.lh) : Inv a (Bio.unlock s p i (.commit stage')) := by
  apply h.unlock hIo hHeld
  · rw [hPc]
    simp
  · rw [hPc]
    simp
  · intro st hSt
    cases hSt
    exact ⟨stage, hPc, hMoves, hRest⟩

theorem Inv.log_mem (ht : t < s.lh.length) : a.Mem (a.start + t + 1) := by
  have hRoom := h.room (List.ne_nil_of_length_pos (by omega))
  exact ⟨by omega, by omega⟩

theorem Inv.getD_mem (ht : t < s.lh.length) : ¬ a.Mem (s.lh.getD t 0) := by
  apply h.outside
  rw [List.getD_eq_getElem _ _ ht]
  exact List.getElem_mem ht

/- The log block of `tail` gets the contents last logged. -/
theorem Inv.logCopy (hPc : (s.proc p).pc = .commit (.logCopy t)) (hIo : (s.proc p).io = .none)
    (hStep : commitStep a s p (.logCopy t) = some (.ok s')) : Inv a s' := by
  have hOk := h.stages p _ hPc
  have hLt : t < s.lh.length := hOk.bound
  rcases h.held_two hPc hIo rfl with ⟨source, dest, hHeld, hSource, hDest⟩
  unfold Bio.commitStep withTwo at hStep
  rw [hHeld] at hStep
  cases hStep
  have hBufs : (s.proc p).bufs = [source, dest] := by
    unfold Proc.bufs
    rw [hHeld]
    rfl
  have hLatest : (s.buf source).data = s.latest (s.lh.getD t 0) := by
    rw [← hSource]
    apply h.held_latest hPc
    · rw [hBufs]
      exact List.mem_cons_self
    · rw [hSource]
      exact h.getD_mem hLt
  apply h.bwrite hPc
  · rw [hBufs]
    simp
  · rw [hDest]
    exact fun hNot => absurd (h.log_mem hLt) hNot
  · rfl
  · exact hLt
  · rfl
  · intro u hu
    rw [hDest]
    by_cases hEq : u = t
    · rw [hEq, Disk.write_same]
      exact hLatest
    · have hNe : a.start + u + 1 ≠ a.start + t + 1 := by omega
      change u < t + 1 at hu
      rw [Disk.write_other _ _ hNe]
      exact hOk.copied u (show u < t by omega)
  · intro u hu
    cases hu

/- The home of the block of `tail` gets the log's copy. -/
theorem Inv.insWrite (hPc : (s.proc p).pc = .commit (.insWrite t)) (hIo : (s.proc p).io = .none)
    (hStep : commitStep a s p (.insWrite t) = some (.ok s')) : Inv a s' := by
  have hOk := h.stages p _ hPc
  have hLt : t < s.lh.length := hOk.bound
  rcases h.held_two hPc hIo rfl with ⟨dbuf, lbuf, hHeld, hHome, hLog⟩
  unfold Bio.commitStep withTwo at hStep
  rw [hHeld] at hStep
  cases hStep
  have hBufs : (s.proc p).bufs = [dbuf, lbuf] := by
    unfold Proc.bufs
    rw [hHeld]
    rfl
  have hIn : lbuf ∈ (s.proc p).bufs := by
    rw [hBufs]
    simp
  have hCopy : (s.buf lbuf).data = s.latest (s.lh.getD t 0) := by
    rcases h.refs.refs p lbuf (List.mem_append_right _ hIn) with ⟨hl, hDev⟩
    rw [h.data.log lbuf hl hDev (h.refs.valid p lbuf hIn) (by rw [hLog]; exact h.log_mem hLt), hLog]
    exact hOk.copied t hLt
  apply h.bwrite hPc
  · rw [hBufs]
    exact List.mem_cons_self
  · rw [hHome]
    exact fun _ => hCopy
  · rfl
  · exact hLt
  · rfl
  · intro u hu
    have hNe : a.start + u + 1 ≠ (s.buf dbuf).blockno := by
      rw [hHome]
      intro hEq
      apply h.getD_mem hLt
      rw [← hEq]
      exact h.log_mem hu
    rw [Disk.write_other _ _ hNe]
    exact hOk.copied u hu
  · intro u hu
    cases hu
    rw [hHome, Disk.write_same]
    exact hCopy

theorem Inv.headWrite {erase : Bool} (hPc : (s.proc p).pc = .commit (.headWrite erase))
    (hIo : (s.proc p).io = .none) (hStep : commitStep a s p (.headWrite erase) = some (.ok s')) :
    Inv a s' := by
  have hOk := h.stages p _ hPc
  have hArea : 0 < a.size := by
    have hBound := hOk.bound
    cases erase with
    | true => exact hBound.2
    | false =>
      have hRoom := h.room (List.ne_nil_of_length_pos hBound)
      omega
  rcases h.held_one hPc hIo rfl with ⟨i, hHeld, hBlock⟩
  unfold Bio.commitStep withOne at hStep
  rw [hHeld] at hStep
  cases hStep
  apply h.bwrite hPc
  · unfold Proc.bufs
    rw [hHeld]
    exact List.mem_cons_self
  · rw [hBlock]
    intro hNot
    exact absurd ⟨Nat.le_refl _, by omega⟩ hNot
  · rfl
  · cases erase <;> exact hOk.bound
  · rfl
  · intro u hu
    have hNe : a.start + u + 1 ≠ (s.buf i).blockno := by omega
    rw [Disk.write_other _ _ hNe]
    exact hOk.copied u hu
  · intro t ht
    cases ht

theorem Inv.commitStep (hPc : (s.proc p).pc = .commit stage) (hIo : (s.proc p).io = .none)
    (hStep : commitStep a s p stage = some (.ok s')) : Inv a s' := by
  have hOk := h.stages p stage hPc
  have hBound := hOk.bound
  cases stage with
  | test =>
    dsimp only [Bio.commitStep] at hStep
    split at hStep
    · rename_i hPos
      cases hStep
      apply h.goto hPc
      · exact ⟨⟨Nat.zero_le _, hPos⟩, Nat.le_refl _, rfl, fun t ht => by cases ht⟩
      · rfl
    · rename_i hNil
      cases hStep
      apply h.goto hPc
      · exact ⟨show _ = 0 by omega, Nat.le_refl _, rfl, fun t ht => by cases ht⟩
      · rfl
  | logTo t =>
    dsimp only [Bio.commitStep] at hStep
    split at hStep
    · rename_i hLt
      apply h.reads (Option.some.inj hStep) hPc hIo
      · exact ⟨hLt, Nat.le_refl _, rfl, fun t ht => by cases ht⟩
      · rfl
    · rename_i hEnd
      cases hStep
      apply h.goto hPc
      · exact ⟨hBound.2, show s.lh.length ≤ t by omega, rfl, fun t ht => by cases ht⟩
      · rfl
  | logFrom t =>
    apply h.reads (Option.some.inj hStep) hPc hIo
    · exact ⟨hBound, Nat.le_refl _, rfl, fun t ht => by cases ht⟩
    · rfl
  | logCopy t => exact h.logCopy hPc hIo hStep
  | logFree t =>
    rcases h.held_two hPc hIo rfl with ⟨source, dest, hHeld, hSource, hDest⟩
    unfold Bio.commitStep withOne at hStep
    rw [hHeld] at hStep
    cases hStep
    apply h.releases hPc hIo
    · rw [hHeld]
      exact List.mem_cons_self
    · exact ⟨hBound, Nat.le_refl _, rfl, fun t ht => by cases ht⟩
    · rw [hHeld, List.erase_cons_head]
      exact congrArg (· :: []) hDest
  | logNext t =>
    rcases h.held_one hPc hIo rfl with ⟨dest, hHeld, hDest⟩
    unfold Bio.commitStep withOne at hStep
    rw [hHeld] at hStep
    cases hStep
    apply h.releases hPc hIo
    · rw [hHeld]
      exact List.mem_cons_self
    · exact ⟨⟨hBound, Nat.zero_lt_of_lt hBound⟩, Nat.le_refl _, rfl, fun t ht => by cases ht⟩
    · rw [hHeld, List.erase_cons_head]
      rfl
  | head erase =>
    apply h.reads (Option.some.inj hStep) hPc hIo
    · exact ⟨by cases erase <;> exact hBound, Nat.le_refl _, rfl, fun t ht => by cases ht⟩
    · rfl
  | headWrite erase => exact h.headWrite hPc hIo hStep
  | headFree erase =>
    rcases h.held_one hPc hIo rfl with ⟨i, hHeld, hBlock⟩
    unfold Bio.commitStep withOne at hStep
    rw [hHeld] at hStep
    cases hStep
    apply h.releases hPc hIo
    · rw [hHeld]
      exact List.mem_cons_self
    · cases erase with
      | true => exact ⟨hBound.1, Nat.zero_le _, rfl, fun t ht => by cases ht⟩
      | false =>
        exact ⟨⟨Nat.zero_le _, hBound⟩, Nat.le_refl _, rfl, fun t ht => by cases ht⟩
    · rw [hHeld, List.erase_cons_head]
      cases erase <;> rfl
  | insLog t =>
    dsimp only [Bio.commitStep] at hStep
    split at hStep
    · rename_i hLt
      apply h.reads (Option.some.inj hStep) hPc hIo
      · exact ⟨hLt, Nat.le_refl _, rfl, fun t ht => by cases ht⟩
      · rfl
    rename_i hEnd
    cases hStep
    have hLast : s.lh.length = t := by
      have hLe := hBound.1
      omega
    apply h.goto hPc
    · exact ⟨hBound.2, Nat.le_refl _, hLast, fun t ht => by cases ht⟩
    · rfl
  | insHome t =>
    apply h.reads (Option.some.inj hStep) hPc hIo
    · exact ⟨hBound, Nat.le_refl _, rfl, fun t ht => by cases ht⟩
    · rfl
  | insWrite t => exact h.insWrite hPc hIo hStep
  | insUnpin t =>
    rcases h.held_two hPc hIo rfl with ⟨dbuf, lbuf, hHeld, hHome, _⟩
    unfold Bio.commitStep withOne at hStep
    rw [hHeld] at hStep
    cases hStep
    apply h.unpin hPc _ hHome
    unfold Proc.bufs
    rw [hHeld]
    exact List.mem_cons_self
  | insFree t =>
    rcases h.held_two hPc hIo rfl with ⟨dbuf, lbuf, hHeld, hHome, hLog⟩
    unfold Bio.commitStep withTwo at hStep
    rw [hHeld] at hStep
    cases hStep
    have hNe : (⟨dbuf, false⟩ : Held) ≠ ⟨lbuf, false⟩ := by
      intro hEq
      injection hEq with hEq
      apply h.getD_mem hBound
      rw [← hHome, hEq, hLog]
      exact h.log_mem hBound
    apply h.releases hPc hIo
    · rw [hHeld]
      simp
    · exact ⟨hBound, Nat.le_refl _, rfl, fun t ht => by cases ht⟩
    · rw [hHeld, List.erase_cons_tail (by simpa using hNe), List.erase_cons_head]
      exact congrArg (· :: []) hHome
  | insNext t =>
    rcases h.held_one hPc hIo rfl with ⟨dbuf, hHeld, hHome⟩
    unfold Bio.commitStep withOne at hStep
    rw [hHeld] at hStep
    cases hStep
    apply h.releases hPc hIo
    · rw [hHeld]
      exact List.mem_cons_self
    · exact ⟨⟨hBound, Nat.zero_lt_of_lt hBound⟩, Nat.le_refl _, rfl, fun t ht => by cases ht⟩
    · rw [hHeld, List.erase_cons_head]
      rfl
  | clear =>
    cases hStep
    exact h.clear hPc
  | finish =>
    cases hStep
    have hRefs : (s.proc p).refs = [] := by
      have hBlocks := h.held_blocks hPc hIo
      unfold Proc.refs Proc.bufs
      rw [hIo, List.map_eq_nil_iff.mp hBlocks]
      rfl
    apply h.enter
    · exact h.ops.committed hPc
    · intro hInOp
      rw [hPc] at hInOp
      cases hInOp
    · exact fun _ => Or.inl hRefs
    · intro stage hStage
      cases hStage
    · exact fun _ => Or.inl hOk.unpinned

end

---- Runs

theorem Inv.of_booted (h : Booted s) : Inv a s := by
  have hHeld : ∀ p, (s.proc p).held = [] := by
    intro p
    rw [h.procs]
  have hPcs : ∀ p, (s.proc p).pc = .out := by
    intro p
    rw [h.procs]
  have hRefs : ∀ p, (s.proc p).refs = [] := by
    intro p
    rw [h.procs]
    rfl
  have hLocks : ∀ p, (s.proc p).locks = [] := by
    intro p
    rw [h.procs]
    rfl
  have hPinned : s.pinned = [] := by
    unfold State.pinned
    rw [h.lh, List.drop_nil]
  refine ⟨?_, ?_, ?_, ?_, ?_, ?_, ?_, fun _ => h.unpinned⟩
  · rw [hPinned]
    refine ⟨h.order, h.unique, ?_, ?_, ?_, ?_, ?_, ?_, ?_⟩
    · intro i hi
      rw [(h.idle i).1, h.users]
      simp [pinOf]
    · intro i p
      rw [h.users, hRefs]
      rfl
    · intro i p
      rw [hLocks, (h.idle i).2]
      simp
    · intro p
      rw [hLocks]
      exact List.nodup_nil
    · intro p i hi
      rw [hRefs] at hi
      cases hi
    · intro p i hi
      unfold Proc.bufs at hi
      rw [hHeld] at hi
      cases hi
    · intro b hb
      cases hb
  · rw [hPinned, h.latest]
    refine ⟨?_, ?_, ?_, ?_, fun _ _ _ => rfl⟩
    · intro i hi hDev hValid _ _
      exact h.cached i hi hDev hValid
    · intro i hi hDev hValid _
      exact h.cached i hi hDev hValid
    · intro p i hMark
      rw [hHeld] at hMark
      cases hMark
    · intro p i _ hRef
      rw [hRefs] at hRef
      cases hRef
  · rw [h.ops, h.outstanding, h.committing]
    refine ⟨List.nodup_nil, ?_, rfl, ?_, ?_, ?_⟩
    · intro p
      rw [hPcs]
      simp
    · intro p stage hPc
      rw [hPcs] at hPc
      cases hPc
    · intro p q stage stage' hPc
      rw [hPcs] at hPc
      cases hPc
    · intro hTrue
      cases hTrue
  · rw [h.lh]
    exact List.nodup_nil
  · rw [h.lh]
    exact fun b hb => absurd hb List.not_mem_nil
  · exact fun hNil => absurd h.lh hNil
  · intro p stage hPc
    rw [hPcs] at hPc
    cases hPc

theorem Inv.step (h : Inv a s) {c : Action} (hStep : step a s c = some (.ok s')) : Inv a s' := by
  cases c with
  | bread p b =>
    dsimp only [Bio.step] at hStep
    split at hStep
    · rename_i hGuard
      rcases hGuard with ⟨hClient, hMem⟩
      have hFree := of_decide_eq_true hClient
      apply h.bget (Option.some.inj hStep) hFree.1
      · exact Iff.rfl
      · exact Iff.rfl
      · exact fun _ => hMem
      · intro stage hPc
        rcases hFree.2 with hOut | hInOp
        · rw [hOut] at hPc
          cases hPc
        · rw [hInOp] at hPc
          cases hPc
    · cases hStep
  | modify p i data =>
    dsimp only [Bio.step] at hStep
    split at hStep
    · rename_i hGuard
      cases hStep
      exact h.modifyBuf data hGuard.2.1 hGuard.2.2
    · cases hStep
  | logWrite p i =>
    dsimp only [Bio.step] at hStep
    split at hStep
    · rename_i hGuard
      exact h.logWrite (Option.some.inj hStep) hGuard.2.1 hGuard.2.2
    · cases hStep
  | brelse p i =>
    dsimp only [Bio.step] at hStep
    split at hStep
    · rename_i hGuard
      rcases hGuard with ⟨hClient, hHeld⟩
      have hFree := of_decide_eq_true hClient
      cases hStep
      apply h.unlock hFree.1 hHeld
      · exact Iff.rfl
      · exact Iff.rfl
      · intro stage hPc
        rcases hFree.2 with hOut | hInOp
        · rw [hOut] at hPc
          cases hPc
        · rw [hInOp] at hPc
          cases hPc
    · cases hStep
  | beginOp p =>
    dsimp only [Bio.step] at hStep
    split at hStep
    · rename_i hGuard
      cases hStep
      exact h.beginOp hGuard.2
    · cases hStep
  | endOp p =>
    dsimp only [Bio.step] at hStep
    split at hStep
    · rename_i hGuard
      rcases hGuard with ⟨hIo, hPc, hHeld⟩
      exact h.endOp (Option.some.inj hStep) hIo hPc hHeld
    · cases hStep
  | go p =>
    dsimp only [Bio.step] at hStep
    split at hStep
    · rename_i i hIo
      exact h.lockBuf hStep hIo
    · rename_i i hIo
      cases hStep
      exact h.load hIo
    · rename_i i hIo
      cases hStep
      exact h.unref hIo
    · rename_i hIo
      split at hStep
      · rename_i stage hPc
        exact h.commitStep hPc hIo hStep
      · cases hStep

theorem Inv.of_reachable (h : Reachable a s) : Inv a s := by
  induction h with
  | boot hBoot => exact Inv.of_booted hBoot
  | step _ hStep ih => exact ih.step hStep

---- Reading A Block

theorem Inv.bget_blockno (h : Inv a s) {pc : Pc} {q : Nat} (hStep : Bio.bget s q b pc = .ok s')
    (hRef : i ∈ (s.proc p).refs) : (s'.buf i).blockno = (s.buf i).blockno := by
  have hi := (h.refs.refs p i hRef).1
  unfold Bio.bget at hStep
  split at hStep
  · cases hStep
    apply blockno_update
    rfl
  split at hStep
  · rename_i j hFree
    cases hStep
    have hZero : (s.buf j).refcnt = 0 := by
      have hTest := List.find?_some hFree
      exact of_decide_eq_true hTest
    have hNe : i ≠ j := by
      intro hEq
      rw [hEq] at hi hRef
      exact h.refs.not_mem_refs hi hZero p hRef
    exact congrArg Buf.blockno (update_of_ne hNe ..)
  · cases hStep

theorem withOne_ok {held : List Held} {f : Nat → State} (h : withOne held f = some (.ok s')) :
    ∃ i, s' = f i := by
  unfold withOne at h
  split at h
  · cases h
    exact ⟨_, rfl⟩
  · cases h

theorem withTwo_ok {held : List Held} {f : Nat → Nat → State} (h : withTwo held f = some (.ok s')) :
    ∃ i j, s' = f i j := by
  unfold withTwo at h
  split at h
  · cases h
    exact ⟨_, _, rfl⟩
  · cases h

theorem Inv.commitStep_blockno (h : Inv a s) {q : Nat}
    (hStep : Bio.commitStep a s q stage = some (.ok s')) (hRef : i ∈ (s.proc p).refs) :
    (s'.buf i).blockno = (s.buf i).blockno := by
  have hUnlock : ∀ j pc, ((Bio.unlock s q j pc).buf i).blockno = (s.buf i).blockno := by
    intro j pc
    apply blockno_update
    rfl
  have hWrite :
      ∀ j data pc, ((Bio.goto (Bio.bwrite s j data) q pc).buf i).blockno = (s.buf i).blockno := by
    intro j data pc
    apply blockno_update
    rfl
  cases stage with
  | test =>
    dsimp only [Bio.commitStep] at hStep
    split at hStep
    · cases hStep
      rfl
    · cases hStep
      rfl
  | logTo t =>
    dsimp only [Bio.commitStep] at hStep
    split at hStep
    · exact h.bget_blockno (Option.some.inj hStep) hRef
    · cases hStep
      rfl
  | logFrom t => exact h.bget_blockno (Option.some.inj hStep) hRef
  | logCopy t =>
    dsimp only [Bio.commitStep] at hStep
    rcases withTwo_ok hStep with ⟨source, dest, hEq⟩
    rw [hEq]
    exact hWrite ..
  | logFree t =>
    dsimp only [Bio.commitStep] at hStep
    rcases withOne_ok hStep with ⟨source, hEq⟩
    rw [hEq]
    exact hUnlock ..
  | logNext t =>
    dsimp only [Bio.commitStep] at hStep
    rcases withOne_ok hStep with ⟨dest, hEq⟩
    rw [hEq]
    exact hUnlock ..
  | head erase => exact h.bget_blockno (Option.some.inj hStep) hRef
  | headWrite erase =>
    dsimp only [Bio.commitStep] at hStep
    rcases withOne_ok hStep with ⟨j, hEq⟩
    rw [hEq]
    exact hWrite ..
  | headFree erase =>
    dsimp only [Bio.commitStep] at hStep
    rcases withOne_ok hStep with ⟨j, hEq⟩
    rw [hEq]
    exact hUnlock ..
  | insLog t =>
    dsimp only [Bio.commitStep] at hStep
    split at hStep
    · exact h.bget_blockno (Option.some.inj hStep) hRef
    · cases hStep
      rfl
  | insHome t => exact h.bget_blockno (Option.some.inj hStep) hRef
  | insWrite t =>
    dsimp only [Bio.commitStep] at hStep
    rcases withTwo_ok hStep with ⟨dbuf, lbuf, hEq⟩
    rw [hEq]
    exact hWrite ..
  | insUnpin t =>
    dsimp only [Bio.commitStep] at hStep
    rcases withOne_ok hStep with ⟨dbuf, hEq⟩
    rw [hEq]
    apply blockno_update
    rfl
  | insFree t =>
    dsimp only [Bio.commitStep] at hStep
    rcases withTwo_ok hStep with ⟨dbuf, lbuf, hEq⟩
    rw [hEq]
    exact hUnlock ..
  | insNext t =>
    dsimp only [Bio.commitStep] at hStep
    rcases withOne_ok hStep with ⟨dbuf, hEq⟩
    rw [hEq]
    exact hUnlock ..
  | clear =>
    cases hStep
    rfl
  | finish =>
    cases hStep
    rfl

/- A buffer keeps its block while a process has it. -/
theorem Inv.step_blockno (h : Inv a s) {c : Action} (hStep : Bio.step a s c = some (.ok s'))
    (hRef : i ∈ (s.proc p).refs) : (s'.buf i).blockno = (s.buf i).blockno := by
  cases c with
  | bread q b =>
    dsimp only [Bio.step] at hStep
    split at hStep
    · exact h.bget_blockno (Option.some.inj hStep) hRef
    · cases hStep
  | modify q j data =>
    dsimp only [Bio.step] at hStep
    split at hStep
    · cases hStep
      apply blockno_update
      rfl
    · cases hStep
  | logWrite q j =>
    dsimp only [Bio.step] at hStep
    split at hStep
    · unfold Bio.logWrite at hStep
      dsimp only at hStep
      split at hStep
      · cases hStep
      · split at hStep
        · cases hStep
        · cases hStep
          apply blockno_update
          rfl
    · cases hStep
  | brelse q j =>
    dsimp only [Bio.step] at hStep
    split at hStep
    · cases hStep
      apply blockno_update
      rfl
    · cases hStep
  | beginOp q =>
    dsimp only [Bio.step] at hStep
    split at hStep
    · cases hStep
      unfold Bio.beginOp
      split
      · rfl
      · split
        · rfl
        · rfl
    · cases hStep
  | endOp q =>
    dsimp only [Bio.step] at hStep
    split at hStep
    · unfold Bio.endOp at hStep
      dsimp only at hStep
      split at hStep
      · cases hStep
      · split at hStep
        · cases hStep
          rfl
        · cases hStep
          rfl
    · cases hStep
  | go q =>
    dsimp only [Bio.step] at hStep
    split at hStep
    · unfold Bio.lockBuf at hStep
      split at hStep
      · cases hStep
        apply blockno_update
        rfl
      · cases hStep
    · cases hStep
      unfold Bio.load
      apply blockno_update
      split
      · rfl
      · rfl
    · cases hStep
      apply blockno_update
      rfl
    · split at hStep
      · exact h.commitStep_blockno hStep hRef
      · cases hStep

/- Process `p` is inside `bread` for block `b`, with buffer `i`. Other processes run meanwhile. -/
inductive Reads (a : Area) (p b i : Nat) : State → Prop where
  | get {s s' : State}
      (h : Reachable a s) (hStep : step a s (.bread p b) = some (.ok s'))
      (hIo : (s'.proc p).io = .lock i) :
      Reads a p b i s'
  | step {s s' : State}
      {c : Action} (h : Reads a p b i s) (hStep : step a s c = some (.ok s'))
      (hIo : (s'.proc p).io = .lock i ∨ (s'.proc p).io = .load i) :
      Reads a p b i s'

theorem Proc.mem_refs_of_io {x : Proc} (h : x.io = .lock i ∨ x.io = .load i) : i ∈ x.refs := by
  apply List.mem_append_left
  rcases h with h | h
  · rw [h]
    exact List.mem_cons_self
  · rw [h]
    exact List.mem_cons_self

theorem bget_blockno_new {pc : Pc} (hStep : bget s p b pc = .ok s') (hIo : (s'.proc p).io = .lock i) :
    (s'.buf i).blockno = b := by
  unfold bget at hStep
  split at hStep
  · rename_i j hFind
    cases hStep
    have hCaches : (s.buf j).Caches b := by
      have hTest := List.find?_some hFind
      exact of_decide_eq_true hTest
    change (update s.proc p _ p).io = _ at hIo
    rw [update_self] at hIo
    cases hIo
    change (update s.buf i _ i).blockno = b
    rw [update_self]
    exact hCaches.2
  · split at hStep
    · rename_i j _
      cases hStep
      change (update s.proc p _ p).io = _ at hIo
      rw [update_self] at hIo
      cases hIo
      change (update s.buf i _ i).blockno = b
      rw [update_self]
    · cases hStep

theorem Reads.reachable (h : Reads a p b i s) : Reachable a s := by
  induction h with
  | get hReach hStep _ => exact hReach.step hStep
  | step _ hStep _ ih => exact ih.step hStep

theorem Reads.io (h : Reads a p b i s) : (s.proc p).io = .lock i ∨ (s.proc p).io = .load i := by
  cases h with
  | get _ _ hIo => exact Or.inl hIo
  | step _ _ hIo => exact hIo

/- The buffer is the one of the block all the time. -/
theorem Reads.blockno (h : Reads a p b i s) : (s.buf i).blockno = b := by
  induction h with
  | get hReach hStep hIo =>
    dsimp only [Bio.step] at hStep
    split at hStep
    · exact bget_blockno_new (Option.some.inj hStep) hIo
    · cases hStep
  | step hReads hStep _ ih =>
    have hInv := Inv.of_reachable hReads.reachable
    rw [← ih]
    exact hInv.step_blockno hStep (Proc.mem_refs_of_io hReads.io)

---- Agreement

/- Nobody has a buffer changed that a process has clean. -/
theorem Refs.not_dirty {order : List Nat} {users : Nat → List Nat}
    (h : Refs buf order users proc pinned) (hHeld : ⟨i, false⟩ ∈ (proc p).held) (q : Nat) :
    ⟨i, true⟩ ∉ (proc q).held := by
  intro hMark
  have hMine : i ∈ (proc p).bufs := List.mem_map.mpr ⟨_, hHeld, rfl⟩
  have hTheirs : i ∈ (proc q).bufs := List.mem_map.mpr ⟨_, hMark, rfl⟩
  have hLock := (h.locks i p).mpr (List.mem_append_right _ hMine)
  rw [(h.locks i q).mpr (List.mem_append_right _ hTheirs)] at hLock
  rw [Option.some.inj hLock] at hMark
  have hNodup := (List.nodup_append.mp (h.nodup p)).2.1
  have hEq := List.inj_on_of_nodup_map hNodup hMark hHeld rfl
  cases hEq

/- What `bread` returns: the buffer of the block, up to date. -/
theorem Reads.returns (h : Reads a p b i s) (hIo : (s.proc p).io = .load i) (hMem : ¬ a.Mem b)
    (hStep : Bio.step a s (.go p) = some (.ok s')) :
    ⟨i, false⟩ ∈ (s'.proc p).held ∧
      (s'.buf i).Caches b ∧ (s'.buf i).valid = true ∧ (s'.buf i).data = s.latest b := by
  have hInv := Inv.of_reachable h.reachable
  have hNext := hInv.step hStep
  have hBlock : (s'.buf i).blockno = b := by
    rw [hInv.step_blockno hStep (Proc.mem_refs_of_io h.io)]
    exact h.blockno
  dsimp only [Bio.step] at hStep
  rw [hIo] at hStep
  cases hStep
  have hHeld : ⟨i, false⟩ ∈ ((load s p i).proc p).held := by
    change _ ∈ (update s.proc p _ p).held
    rw [update_self]
    exact List.mem_cons_self
  have hBuf : i ∈ ((load s p i).proc p).bufs := List.mem_map.mpr ⟨_, hHeld, rfl⟩
  rcases hNext.refs.refs p i (List.mem_append_right _ hBuf) with ⟨hi, hDev⟩
  have hValid := hNext.refs.valid p i hBuf
  refine ⟨hHeld, ⟨hDev, hBlock⟩, hValid, ?_⟩
  rw [← hBlock] at hMem ⊢
  exact hNext.data.clean i hi hDev hValid hMem (hNext.refs.not_dirty hHeld)

/- The blocks of the header `commit` has not unpinned yet. -/
def State.Pinned (s : State) (t : Nat) : Prop :=
  t < s.lh.length ∧ ∀ p stage, (s.proc p).pc = .commit stage → stage.installed s.lh.length ≤ t

theorem Inv.pinned_drop (h : Inv a s) (hPinned : s.Pinned t) : s.lh.getD t 0 ∈ s.pinned := by
  have hLe : s.unpinned ≤ t := by
    by_cases hNone : ∀ p stage, (s.proc p).pc ≠ .commit stage
    · rw [h.rest hNone]
      exact Nat.zero_le t
    · simp only [not_forall, not_not] at hNone
      rcases hNone with ⟨p, stage, hPc⟩
      rw [(h.stages p stage hPc).unpinned]
      exact hPinned.2 p stage hPc
  unfold State.pinned
  rw [List.getD_eq_getElem _ _ hPinned.1, List.mem_drop_iff_getElem]
  exact ⟨t - s.unpinned, by have := hPinned.1; omega, by congr 1; omega⟩

/- Buffer `i` is the only one of the block, with one reference more. -/
structure PinnedBy (s : State) (b i : Nat) : Prop where
  lt : i < NBUF
  caches : (s.buf i).Caches b
  valid : (s.buf i).valid = true
  refcnt : (s.buf i).refcnt = (s.users i).length + 1
  only : ∀ j, j < NBUF → (s.buf j).Caches b → j = i

theorem Inv.one_pin (h : Inv a s) (hPinned : s.Pinned t) : ∃ i, PinnedBy s (s.lh.getD t 0) i := by
  have hMem := h.pinned_drop hPinned
  rcases h.refs.pinned _ hMem with ⟨i, hi, hCaches, hValid⟩
  refine ⟨i, hi, hCaches, hValid, ?_, ?_⟩
  · rw [h.refs.count i hi]
    unfold pinOf
    rw [if_pos ⟨hCaches.1, hCaches.2 ▸ hMem⟩]
  · intro j hj hOther
    exact h.refs.unique j i _ hj hi hOther hCaches

/- After a commit no pin is left, and the disk has what the buffers have. -/
structure Committed (a : Area) (s : State) : Prop where
  lh : s.lh = []
  home : ∀ b, ¬ a.Mem b → s.disk b = s.latest b
  unpinned : ∀ i, i < NBUF → (s.buf i).refcnt = (s.users i).length
  clean : ∀ i, i < NBUF →
    (s.buf i).dev = ROOTDEV →
    (s.buf i).valid = true →
    ¬ a.Mem (s.buf i).blockno →
    (s.buf i).data = s.disk (s.buf i).blockno

theorem Inv.committed (h : Inv a s) (hPc : (s.proc p).pc = .commit .finish) : Committed a s := by
  have hOk := h.stages p _ hPc
  have hNil : s.lh = [] := List.length_eq_zero_iff.mp hOk.bound
  have hPinned : s.pinned = [] := by
    unfold State.pinned
    rw [hNil, List.drop_nil]
  have hHome : ∀ b, ¬ a.Mem b → s.disk b = s.latest b := by
    intro b hMem
    apply h.data.home b hMem
    rw [hPinned]
    exact List.not_mem_nil
  refine ⟨hNil, hHome, ?_, ?_⟩
  · intro i hi
    rw [h.refs.count i hi, hPinned]
    simp [pinOf]
  · intro i hi hDev hValid hMem
    rw [hHome _ hMem]
    exact h.data.clean i hi hDev hValid hMem (fun q => h.no_dirty hPc q i)

structure Agrees (a : Area) (s : State) : Prop where
  reads : ∀ p b i s',
    Reads a p b i s →
    (s.proc p).io = .load i →
    ¬ a.Mem b →
    step a s (.go p) = some (.ok s') →
    ⟨i, false⟩ ∈ (s'.proc p).held ∧
      (s'.buf i).Caches b ∧
      (s'.buf i).valid = true ∧
      (s'.buf i).data = s.latest b
  nodup : s.lh.Nodup
  users : ∀ i p, (s.users i).count p = (s.proc p).refs.count i
  pins : ∀ t, s.Pinned t → ∃ i, PinnedBy s (s.lh.getD t 0) i
  copied : ∀ p t,
    (s.proc p).pc = .commit (.head false) →
    t < s.lh.length →
    s.disk (a.start + t + 1) = s.latest (s.lh.getD t 0)
  committed : ∀ p, (s.proc p).pc = .commit .finish → Committed a s

/-
  In every interleaving: `bread` of a block outside the log
  returns the contents last logged; each block of the header
  is there once and its buffer has one pin until the block
  is installed; `write_log` has copied the newest contents
  when the header is written; and a commit leaves every home
  location equal to its buffer, with no pins.
-/
theorem cache_and_log_agree
    (hReach : Reachable a s) :
    Agrees a s := by
  have hInv := Inv.of_reachable hReach
  refine ⟨?_, hInv.nodup, hInv.refs.users, fun t => hInv.one_pin, ?_, fun p => hInv.committed⟩
  · intro p b i s' hReads hIo hMem hStep
    exact hReads.returns hIo hMem hStep
  · intro p t hPc ht
    exact (hInv.stages p _ hPc).copied t ht

end

/- A freshly booted machine: nothing is cached. -/
def fresh : State where
  buf _ := ⟨0, 0, false, 0, none, Bytes.zero⟩
  order := List.range NBUF
  disk _ := Bytes.zero
  lh := []
  outstanding := 0
  committing := false
  proc _ := ⟨.out, .none, []⟩
  latest _ := Bytes.zero
  users _ := []
  ops := []
  unpinned := 0

theorem booted_fresh : Booted fresh where
  order := List.Perm.refl _
  unique _ _ _ _ _ hCaches := by
    have hDev := hCaches.1
    cases hDev
  idle _ := ⟨rfl, rfl⟩
  cached _ _ _ hValid := by cases hValid
  lh := rfl
  outstanding := rfl
  committing := rfl
  procs _ := rfl
  latest := rfl
  users _ := rfl
  ops := rfl
  unpinned := rfl

/- Process 0 logs block 46 once it has read it. -/
theorem cache_and_log_agree_logged :
    ∃ s i,
      Reachable ⟨2, 30⟩ s ∧
      s.lh = [46] ∧
      PinnedBy s 46 i := by
  obtain ⟨s, hRun, hLh, hPc⟩ : ∃ s, run ⟨2, 30⟩ fresh
        [.bread 0 46, .go 0, .go 0, .beginOp 0, .logWrite 0 29] = some s ∧
      s.lh = [46] ∧ (s.proc 0).pc = .inOp :=
    ⟨_, rfl, rfl, rfl⟩
  have hReach := (Reachable.boot booted_fresh).run hRun
  have hPinned : s.Pinned 0 := by
    refine ⟨by rw [hLh]; decide, ?_⟩
    intro p stage hCommit
    exact absurd hCommit ((Inv.of_reachable hReach).no_commit hPc p stage)
  rcases (cache_and_log_agree hReach).pins 0 hPinned with ⟨i, hPin⟩
  rw [hLh] at hPin
  exact ⟨s, i, hReach, hLh, hPin⟩

end Xv6.Bio

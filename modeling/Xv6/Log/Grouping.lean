import Xv6.Log.Transactions
import Mathlib.Data.Finset.Card

/-
  Operations are never split across commits.

  The invariant relates `outstanding` to the processes
  inside an operation and `committing` to the one process
  inside `commit`. A commit starts only when the last
  operation has ended, and while it runs `begin_op` admits
  nobody, so the in-memory header stands still although
  `commit` reads it without the lock.

  Main declarations:
    * `Grouped.step`
    * `grouped_of_reachable`
    * `operations_not_split`
-/

namespace Xv6.Log

variable {s s' : State} {r : OpRecord} {p : Nat}

---- Invariant

/- The block is in the open transaction. -/
def Held (s : State) (b : Nat) : Prop := b ∈ s.lh ∨ ∃ h, s.header s.txn = some h ∧ b ∈ h

/- The block is in the header of a given transaction. -/
def InHeader (s : State) (txn b : Nat) : Prop := ∃ h, s.header txn = some h ∧ b ∈ h

/- What the stages of `commit` have done so far. -/
def StageOk (s : State) : Stage → Prop
| .test => s.header s.txn = none
| .log tail => s.header s.txn = none ∧ s.copied = s.lh.take tail
| .head => s.header s.txn = none ∧ s.copied = s.lh
| .install _ => s.header s.txn = some s.lh
| .clear => s.header s.txn = some s.lh
| .erase => s.lh = []
| .finish => s.lh = []

/- An operation in progress logs into the open transaction. -/
structure OpenOk (s : State) (r : OpRecord) : Prop where
  txn : r.txn = s.txn
  same : ∀ e ∈ r.logged, e.2 = s.txn
  inLh : ∀ e ∈ r.logged, e.1 ∈ s.lh

/- A finished operation sits in one transaction. -/
structure EndedOk (s : State) (r : OpRecord) : Prop where
  same : ∀ e ∈ r.logged, e.2 = r.txn
  le : r.txn ≤ s.txn
  held : r.txn = s.txn → ∀ e ∈ r.logged, Held s e.1
  inHeader : r.txn < s.txn → ∀ e ∈ r.logged, InHeader s r.txn e.1

structure Grouped (s : State) : Prop where
  active : ∃ F : Finset Nat, (∀ p, p ∈ F ↔ s.pc p = .inOp) ∧ s.outstanding = F.card
  unique : ∀ p q c c', s.pc p = .commit c → s.pc q = .commit c' → p = q
  committing : s.committing = true ↔ ∃ p c, s.pc p = .commit c
  exclusive : s.committing = true → s.outstanding = 0
  stage : ∀ p c, s.pc p = .commit c → StageOk s c
  unsealed : s.committing = false → s.header s.txn = none
  future : ∀ k, s.txn < k → s.header k = none
  opened : ∀ p, s.pc p = .inOp → OpenOk s (s.op p)
  ended : ∀ r ∈ s.ended, EndedOk s r

theorem StageOk.of_eq {c : Stage} (h : StageOk s c) (hTxn : s'.txn = s.txn) (hLh : s'.lh = s.lh)
    (hHeader : s'.header = s.header) (hCopied : s'.copied = s.copied) : StageOk s' c := by
  cases c <;> simp_all [StageOk]

theorem OpenOk.of_eq (h : OpenOk s r) (hTxn : s'.txn = s.txn) (hLh : s'.lh = s.lh) :
    OpenOk s' r := by
  constructor
  · rw [hTxn]
    exact h.txn
  · rw [hTxn]
    exact h.same
  · rw [hLh]
    exact h.inLh

theorem EndedOk.of_eq (h : EndedOk s r) (hTxn : s'.txn = s.txn) (hLh : s'.lh = s.lh)
    (hHeader : s'.header = s.header) : EndedOk s' r := by
  constructor
  · exact h.same
  · rw [hTxn]
    exact h.le
  · simpa only [Held, hTxn, hLh, hHeader] using h.held
  · simpa only [InHeader, hTxn, hHeader] using h.inHeader

---- Process Positions

@[simp] theorem goto_pc_same (s : State) (p : Nat) (c : Pc) : (s.goto p c).pc p = c := by
  simp [State.goto]

theorem goto_pc_other (s : State) {q : Nat} (c : Pc) (hNe : q ≠ p) :
    (s.goto p c).pc q = s.pc q := by
  simp [State.goto, hNe]

theorem Grouped.not_inOp (h : Grouped s) (hCommit : s.committing = true) (p : Nat) :
    s.pc p ≠ .inOp := by
  intro hOp
  rcases h.active with ⟨F, hF, hCard⟩
  have hMem := (hF p).mpr hOp
  have hZero := h.exclusive hCommit
  have hPos : 0 < F.card := Finset.card_pos.mpr ⟨p, hMem⟩
  omega

theorem Grouped.one_le_outstanding (h : Grouped s) (hOp : s.pc p = .inOp) : 1 ≤ s.outstanding := by
  rcases h.active with ⟨F, hF, hCard⟩
  have hPos : 0 < F.card := Finset.card_pos.mpr ⟨p, (hF p).mpr hOp⟩
  omega

theorem Grouped.not_committing (h : Grouped s) (hOp : s.pc p = .inOp) : s.committing = false := by
  by_contra hNot
  have hCommit : s.committing = true := by simpa using hNot
  exact h.not_inOp hCommit p hOp

theorem Grouped.no_commit (h : Grouped s) (hNot : s.committing = false) (p : Nat) (c : Stage) :
    s.pc p ≠ .commit c := by
  intro hPc
  have hCommit := h.committing.mpr ⟨p, c, hPc⟩
  rw [hNot] at hCommit
  exact Bool.noConfusion hCommit

theorem grouped_init (size : Int) : Grouped (State.init size) := by
  constructor
  · exact ⟨∅, by simp [State.init], by simp [State.init]⟩
  · intro p q c c' hp
    simp [State.init] at hp
  · simp [State.init]
  · simp [State.init]
  · intro p c hp
    simp [State.init] at hp
  · simp [State.init]
  · simp [State.init]
  · intro p hp
    simp [State.init] at hp
  · intro r hr
    simp [State.init] at hr

---- Steps Of Operations

section

variable (h : Grouped s) (hPc : s.pc p = .idle ∨ s.pc p = .waiting)
include h hPc

/- A process that is neither in an operation nor in a commit may move between the places outside. -/
theorem Grouped.goto_waiting : Grouped (s.goto p .waiting) := by
  have hOther :
      ∀ q c, c ≠ Pc.idle → c ≠ Pc.waiting → ((s.goto p .waiting).pc q = c ↔ s.pc q = c) := by
    intro q c hIdle hWaiting
    by_cases hq : q = p
    · subst hq
      rw [goto_pc_same]
      constructor
      · intro hEq
        exact absurd hEq.symm hWaiting
      · intro hEq
        rcases hPc with hPc | hPc
        · exact absurd (hEq.symm.trans hPc) hIdle
        · exact absurd (hEq.symm.trans hPc) hWaiting
    · rw [goto_pc_other s _ hq]
  have hOp : ∀ q, (s.goto p .waiting).pc q = .inOp ↔ s.pc q = .inOp :=
    fun q => hOther q .inOp (by simp) (by simp)
  have hCommit : ∀ q c, (s.goto p .waiting).pc q = .commit c ↔ s.pc q = .commit c :=
    fun q c => hOther q (.commit c) (by simp) (by simp)
  constructor
  · rcases h.active with ⟨F, hF, hCard⟩
    exact ⟨F, fun q => (hF q).trans (hOp q).symm, hCard⟩
  · intro q q' c c' hq hq'
    exact h.unique q q' c c' ((hCommit q c).mp hq) ((hCommit q' c').mp hq')
  · simp only [hCommit]
    exact h.committing
  · exact h.exclusive
  · intro q c hq
    exact (h.stage q c ((hCommit q c).mp hq)).of_eq rfl rfl rfl rfl
  · exact h.unsealed
  · exact h.future
  · intro q hq
    exact (h.opened q ((hOp q).mp hq)).of_eq rfl rfl
  · intro r hr
    exact (h.ended r hr).of_eq rfl rfl rfl

theorem Grouped.beginOp : Grouped (beginOp s p) := by
  unfold Log.beginOp
  split
  · exact h.goto_waiting hPc
  split
  · exact h.goto_waiting hPc
  rename_i hNot _
  have hNot : s.committing = false := by simpa using hNot
  have hNotOp : s.pc p ≠ .inOp := by
    rcases hPc with hPc | hPc <;> simp [hPc]
  have hPc' : ∀ q, q ≠ p → (s.goto p .inOp).pc q = s.pc q :=
    fun q hq => goto_pc_other s .inOp hq
  have hNoCommit : ∀ q c, (s.goto p .inOp).pc q ≠ .commit c := by
    intro q c
    by_cases hq : q = p
    · subst hq
      simp
    · rw [hPc' q hq]
      exact h.no_commit hNot q c
  constructor
  · rcases h.active with ⟨F, hF, hCard⟩
    refine ⟨insert p F, ?_, ?_⟩
    · intro q
      by_cases hq : q = p
      · subst hq
        simp
      · simp only [Finset.mem_insert, hq, false_or]
        exact (hF q).trans (by rw [hPc' q hq])
    · have hp : p ∉ F := fun hMem =>
        hNotOp ((hF p).mp hMem)
      simp only [Finset.card_insert_of_notMem hp]
      omega
  · intro q q' c c' hq
    exact absurd hq (hNoCommit q c)
  · constructor
    · intro hCommit
      rw [show s.committing = true from hCommit] at hNot
      exact absurd hNot (by simp)
    · rintro ⟨q, c, hq⟩
      exact absurd hq (hNoCommit q c)
  · intro hCommit
    rw [show s.committing = true from hCommit] at hNot
    exact absurd hNot (by simp)
  · intro q c hq
    exact absurd hq (hNoCommit q c)
  · exact h.unsealed
  · exact h.future
  · intro q hq
    by_cases hqp : q = p
    · subst hqp
      simp only [if_true]
      exact ⟨rfl, by simp, by simp⟩
    · simp only [hqp, if_false]
      have hq' : s.pc q = .inOp := by
        rw [← hPc' q hqp]
        exact hq
      exact (h.opened q hq').of_eq rfl rfl
  · intro r hr
    exact (h.ended r hr).of_eq rfl rfl rfl

end

theorem Grouped.logWrite (h : Grouped s) {b : Nat} (hPc : s.pc p = .inOp)
    (hStep : logWrite s p b = .ok s') : Grouped s' := by
  have hNot := h.not_committing hPc
  unfold Log.logWrite at hStep
  split at hStep
  · exact absurd hStep (by simp)
  split at hStep
  · exact absurd hStep (by simp)
  cases hStep
  have hSub : ∀ c ∈ s.lh, c ∈ absorb s.lh b := fun c hc => mem_absorb.mpr (Or.inr hc)
  constructor
  · exact h.active
  · exact h.unique
  · exact h.committing
  · exact h.exclusive
  · intro q c hq
    exact absurd hq (h.no_commit hNot q c)
  · exact h.unsealed
  · exact h.future
  · intro q hq
    by_cases hqp : q = p
    · subst hqp
      have hOld := h.opened q hq
      simp only [if_true]
      constructor
      · exact hOld.txn
      · intro e he
        rcases List.mem_append.mp he with he | he
        · exact hOld.same e he
        · rw [List.mem_singleton.mp he]
      · intro e he
        rcases List.mem_append.mp he with he | he
        · exact hSub _ (hOld.inLh e he)
        · rw [List.mem_singleton.mp he]
          exact mem_absorb.mpr (Or.inl rfl)
    · simp only [hqp, if_false]
      have hOld := h.opened q hq
      exact ⟨hOld.txn, hOld.same, fun e he => hSub _ (hOld.inLh e he)⟩
  · intro r hr
    have hOld := h.ended r hr
    refine ⟨hOld.same, hOld.le, ?_, hOld.inHeader⟩
    intro hTxn e he
    rcases hOld.held hTxn e he with hLh | hHead
    · exact Or.inl (hSub _ hLh)
    · exact Or.inr hHead

theorem OpenOk.ended (h : OpenOk s r) : EndedOk s r := by
  constructor
  · intro e he
    rw [h.same e he, h.txn]
  · exact h.txn.le
  · intro _ e he
    exact Or.inl (h.inLh e he)
  · intro hLt
    have hTxn := h.txn
    omega

theorem Grouped.endOp (h : Grouped s) (hPc : s.pc p = .inOp) (hStep : endOp s p = .ok s') :
    Grouped s' := by
  have hNot := h.not_committing hPc
  rcases h.active with ⟨F, hF, hCard⟩
  have hMem : p ∈ F := (hF p).mpr hPc
  have hErase : ((F.erase p).card : Int) + 1 = F.card := by
    have hCardErase := Finset.card_erase_add_one hMem
    omega
  have hEnded : ∀ r ∈ s.ended ++ [s.op p], EndedOk s r := by
    intro r hr
    rcases List.mem_append.mp hr with hr | hr
    · exact h.ended r hr
    · rw [List.mem_singleton.mp hr]
      exact (h.opened p hPc).ended
  unfold Log.endOp at hStep
  rw [if_neg (by simp [hNot])] at hStep
  split at hStep
  · rename_i hLast
    cases hStep
    have hEmpty : F.erase p = ∅ := by
      apply Finset.card_eq_zero.mp
      omega
    have hOnly : ∀ q, q ≠ p → s.pc q ≠ .inOp := by
      intro q hq hOp
      have hIn : q ∈ F.erase p := Finset.mem_erase.mpr ⟨hq, (hF q).mpr hOp⟩
      rw [hEmpty] at hIn
      simp at hIn
    constructor
    · refine ⟨∅, ?_, by simpa [State.goto] using hLast⟩
      intro q
      by_cases hq : q = p
      · subst hq
        simp
      · rw [goto_pc_other _ _ hq]
        simpa using hOnly q hq
    · intro q q' c c' hq hq'
      have hEq : ∀ x y, (State.goto { s with
            outstanding := s.outstanding - 1
            committing := true
            ended := s.ended ++ [s.op p] } p
            (.commit .test)).pc x = .commit y →
          x = p := by
        intro x y hx
        by_contra hNe
        rw [goto_pc_other _ _ hNe] at hx
        exact h.no_commit hNot x y hx
      rw [hEq q c hq, hEq q' c' hq']
    · simp only [State.goto, true_iff]
      exact ⟨p, .test, by simp⟩
    · intro _
      exact hLast
    · intro q c hq
      by_cases hqp : q = p
      · subst hqp
        rw [goto_pc_same] at hq
        cases hq
        exact h.unsealed hNot
      · rw [goto_pc_other _ _ hqp] at hq
        exact absurd hq (h.no_commit hNot q c)
    · intro _
      exact h.unsealed hNot
    · exact h.future
    · intro q hq
      by_cases hqp : q = p
      · subst hqp
        rw [goto_pc_same] at hq
        exact absurd hq (by simp)
      · rw [goto_pc_other _ _ hqp] at hq
        exact absurd hq (hOnly q hqp)
    · intro r hr
      exact (hEnded r hr).of_eq rfl rfl rfl
  · cases hStep
    have hPc' : ∀ q c, c ≠ Pc.idle → ((State.goto { s with
          outstanding := s.outstanding - 1
          ended := s.ended ++ [s.op p] } p
          .idle).pc q = c ↔
        q ≠ p ∧ s.pc q = c) := by
      intro q c hc
      by_cases hq : q = p
      · subst hq
        simp [hc.symm]
      · simp [goto_pc_other, hq]
    constructor
    · refine ⟨F.erase p, ?_, ?_⟩
      · intro q
        rw [hPc' q .inOp (by simp), Finset.mem_erase, hF q]
      · show s.outstanding - 1 = _
        omega
    · intro q q' c c' hq
      exact absurd ((hPc' q _ (by simp)).mp hq).2 (h.no_commit hNot q c)
    · constructor
      · intro hCommit
        exact absurd (hNot.symm.trans hCommit) (by simp)
      · rintro ⟨q, c, hq⟩
        exact absurd ((hPc' q _ (by simp)).mp hq).2 (h.no_commit hNot q c)
    · intro hCommit
      exact absurd (hNot.symm.trans hCommit) (by simp)
    · intro q c hq
      exact absurd ((hPc' q _ (by simp)).mp hq).2 (h.no_commit hNot q c)
    · exact h.unsealed
    · exact h.future
    · intro q hq
      exact (h.opened q ((hPc' q _ (by simp)).mp hq).2).of_eq rfl rfl
    · intro r hr
      exact (hEnded r hr).of_eq rfl rfl rfl

---- Steps Of The Commit

/-
  A step inside `commit` moves the one committing process.
  What remains to show is the bookkeeping of the new stage
  and of the finished operations.
-/
theorem Grouped.commit_move (h : Grouped s) {c c' : Stage} (hPc : s.pc p = .commit c)
    (hPc' : s'.pc = fun q => if q = p then .commit c' else s.pc q)
    (hOut : s'.outstanding = s.outstanding) (hCom : s'.committing = s.committing)
    (hStage : StageOk s' c') (hFuture : ∀ k, s'.txn < k → s'.header k = none)
    (hEnded : ∀ r ∈ s'.ended, EndedOk s' r) : Grouped s' := by
  have hCommit : s.committing = true := h.committing.mpr ⟨p, c, hPc⟩
  have hSame : s'.pc p = .commit c' := by simp [hPc']
  have hOther : ∀ q, q ≠ p → s'.pc q = s.pc q := by
    intro q hq
    simp [hPc', hq]
  have hOnly : ∀ q d, s'.pc q = .commit d → q = p := by
    intro q d hq
    by_contra hNe
    rw [hOther q hNe] at hq
    exact hNe (h.unique q p d c hq hPc)
  have hNoOp : ∀ q, s'.pc q ≠ .inOp := by
    intro q hq
    by_cases hqp : q = p
    · subst hqp
      rw [hSame] at hq
      exact absurd hq (by simp)
    · rw [hOther q hqp] at hq
      exact h.not_inOp hCommit q hq
  have hZero := h.exclusive hCommit
  constructor
  · refine ⟨∅, ?_, by simp [hOut, hZero]⟩
    intro q
    simpa using hNoOp q
  · intro q q' d d' hq hq'
    rw [hOnly q d hq, hOnly q' d' hq']
  · constructor
    · intro _
      exact ⟨p, c', hSame⟩
    · intro _
      rw [hCom]
      exact hCommit
  · intro _
    rw [hOut]
    exact hZero
  · intro q d hq
    have hqp := hOnly q d hq
    subst hqp
    rw [hSame] at hq
    cases hq
    exact hStage
  · intro hFalse
    rw [hCom, hCommit] at hFalse
    exact absurd hFalse (by simp)
  · exact hFuture
  · intro q hq
    exact absurd hq (hNoOp q)
  · exact hEnded

theorem EndedOk.of_head (h : EndedOk s r) (hNone : s.header s.txn = none) (hTxn : s'.txn = s.txn)
    (hLh : s'.lh = s.lh)
    (hHeader : s'.header = fun k => if k = s.txn then some s.lh else s.header k) :
    EndedOk s' r := by
  constructor
  · exact h.same
  · rw [hTxn]
    exact h.le
  · intro hEq e he
    rw [hTxn] at hEq
    rcases h.held hEq e he with hMem | ⟨l, hl, _⟩
    · left
      rw [hLh]
      exact hMem
    · rw [hNone] at hl
      exact absurd hl (by simp)
  · intro hLt e he
    rw [hTxn] at hLt
    rcases h.inHeader hLt e he with ⟨l, hl, hMem⟩
    refine ⟨l, ?_, hMem⟩
    rw [hHeader]
    simp only [hl, if_neg (by omega : ¬ r.txn = s.txn)]

theorem EndedOk.of_clear (h : EndedOk s r) (hSome : s.header s.txn = some s.lh)
    (hTxn : s'.txn = s.txn) (hHeader : s'.header = s.header) : EndedOk s' r := by
  constructor
  · exact h.same
  · rw [hTxn]
    exact h.le
  · intro hEq e he
    rw [hTxn] at hEq
    right
    rw [hHeader, hTxn]
    rcases h.held hEq e he with hMem | hHead
    · exact ⟨s.lh, hSome, hMem⟩
    · exact hHead
  · intro hLt e he
    rw [hTxn] at hLt
    rcases h.inHeader hLt e he with ⟨l, hl, hMem⟩
    exact ⟨l, by rw [hHeader]; exact hl, hMem⟩

theorem EndedOk.of_finish (h : EndedOk s r) (hLh : s.lh = []) (hTxn : s'.txn = s.txn + 1)
    (hHeader : s'.header = s.header) : EndedOk s' r := by
  constructor
  · exact h.same
  · rw [hTxn]
    exact Nat.le_succ_of_le h.le
  · intro hEq
    have hLe := h.le
    omega
  · intro hLt e he
    unfold InHeader
    rw [hHeader]
    rcases Nat.lt_or_eq_of_le h.le with hOld | hNow
    · exact h.inHeader hOld e he
    · rcases h.held hNow e he with hMem | hHead
      · rw [hLh] at hMem
        exact absurd hMem (by simp)
      · rw [hNow]
        exact hHead

theorem Grouped.commitStep (h : Grouped s) {c : Stage} (hPc : s.pc p = .commit c) :
    Grouped (commitStep s p c) := by
  have hStage := h.stage p c hPc
  have hEnded : ∀ (s' : State), s'.ended = s.ended → s'.txn = s.txn → s'.lh = s.lh →
      s'.header = s.header → ∀ r ∈ s'.ended, EndedOk s' r := by
    intro s' hEq hTxn hLh hHeader r hr
    rw [hEq] at hr
    exact (h.ended r hr).of_eq hTxn hLh hHeader
  cases c with
  | test =>
    simp only [Log.commitStep]
    split
    · refine h.commit_move hPc rfl rfl rfl ?_ h.future (hEnded _ rfl rfl rfl rfl)
      exact ⟨hStage, by simp⟩
    · rename_i hEmpty
      refine h.commit_move hPc rfl rfl rfl ?_ h.future (hEnded _ rfl rfl rfl rfl)
      show s.lh = []
      exact List.eq_nil_of_length_eq_zero (by omega)
  | log tail =>
    simp only [Log.commitStep]
    split
    · rename_i hLt
      refine h.commit_move hPc rfl rfl rfl ?_ h.future (hEnded _ rfl rfl rfl rfl)
      refine ⟨hStage.1, ?_⟩
      show s.copied ++ _ = s.lh.take (tail + 1)
      rw [hStage.2, List.take_succ_eq_append_getElem hLt]
      simp [hLt]
    · rename_i hGe
      refine h.commit_move hPc rfl rfl rfl ?_ h.future (hEnded _ rfl rfl rfl rfl)
      refine ⟨hStage.1, ?_⟩
      show s.copied = s.lh
      rw [hStage.2, List.take_of_length_le (by omega)]
  | head =>
    simp only [Log.commitStep]
    refine h.commit_move hPc rfl rfl rfl ?_ ?_ ?_
    · simp [StageOk, State.goto]
    · intro k hk
      have hk' : s.txn < k := hk
      simp only [if_neg (by omega : ¬ k = s.txn)]
      exact h.future k hk'
    · intro r hr
      exact (h.ended r hr).of_head hStage.1 rfl rfl rfl
  | install tail =>
    simp only [Log.commitStep]
    split
    all_goals exact h.commit_move hPc rfl rfl rfl hStage h.future (hEnded _ rfl rfl rfl rfl)
  | clear =>
    simp only [Log.commitStep]
    refine h.commit_move hPc rfl rfl rfl rfl h.future ?_
    intro r hr
    exact (h.ended r hr).of_clear hStage rfl rfl
  | erase =>
    simp only [Log.commitStep]
    exact h.commit_move hPc rfl rfl rfl hStage h.future (hEnded _ rfl rfl rfl rfl)
  | finish =>
    simp only [Log.commitStep]
    have hCommit : s.committing = true := h.committing.mpr ⟨p, .finish, hPc⟩
    have hNoCommit : ∀ q d, (s.goto p .idle).pc q ≠ .commit d := by
      intro q d hq
      by_cases hqp : q = p
      · subst hqp
        rw [goto_pc_same] at hq
        exact absurd hq (by simp)
      · rw [goto_pc_other _ _ hqp] at hq
        exact hqp (h.unique q p d .finish hq hPc)
    have hNoOp : ∀ q, (s.goto p .idle).pc q ≠ .inOp := by
      intro q hq
      by_cases hqp : q = p
      · subst hqp
        rw [goto_pc_same] at hq
        exact absurd hq (by simp)
      · rw [goto_pc_other _ _ hqp] at hq
        exact h.not_inOp hCommit q hq
    constructor
    · refine ⟨∅, ?_, h.exclusive hCommit⟩
      intro q
      simpa using hNoOp q
    · intro q q' d d' hq
      exact absurd hq (hNoCommit q d)
    · constructor
      · intro hFalse
        exact absurd hFalse (by simp)
      · rintro ⟨q, d, hq⟩
        exact absurd hq (hNoCommit q d)
    · intro hFalse
      exact absurd hFalse (by simp)
    · intro q d hq
      exact absurd hq (hNoCommit q d)
    · intro _
      exact h.future _ (Nat.lt_succ_self _)
    · intro k hk
      exact h.future k (Nat.lt_of_succ_lt hk)
    · intro q hq
      exact absurd hq (hNoOp q)
    · intro r hr
      exact (h.ended r hr).of_finish hStage rfl rfl

---- Reachable States

theorem Grouped.step {a : Action} (h : Grouped s) (hStep : step s a = some (.ok s')) :
    Grouped s' := by
  cases a with
  | beginOp p =>
    simp only [Log.step] at hStep
    split at hStep
    · rename_i hPc
      cases hStep
      exact h.beginOp hPc
    · exact absurd hStep (by simp)
  | logWrite p b =>
    simp only [Log.step] at hStep
    split at hStep
    · rename_i hPc
      exact h.logWrite hPc (Option.some.inj hStep)
    · exact absurd hStep (by simp)
  | endOp p =>
    simp only [Log.step] at hStep
    split at hStep
    · rename_i hPc
      exact h.endOp hPc (Option.some.inj hStep)
    · exact absurd hStep (by simp)
  | commit p c =>
    simp only [Log.step] at hStep
    split at hStep
    · rename_i hPc
      cases hStep
      exact h.commitStep hPc
    · exact absurd hStep (by simp)

theorem grouped_of_reachable {size : Int} (h : Reachable size s) : Grouped s := by
  induction h with
  | init => exact grouped_init size
  | step _ hStep ih => exact ih.step hStep

theorem reachable_of_run {size : Int} {as : List Action} (h : Reachable size s)
    (hRun : run s as = some (.ok s')) : Reachable size s' := by
  induction as generalizing s with
  | nil =>
    simp only [run, Option.some.injEq, Except.ok.injEq] at hRun
    rw [← hRun]
    exact h
  | cons a as ih =>
    cases hStep : Log.step s a with
    | none => simp [run, hStep] at hRun
    | some r =>
      cases r with
      | error e => simp [run, hStep] at hRun
      | ok s₁ =>
        simp only [run, hStep] at hRun
        exact ih (h.step hStep) hRun

theorem Grouped.panic_eq_tooBig (h : Grouped s) {a : Action} {e : LogPanic}
    (hStep : Log.step s a = some (.error e)) : e = .tooBig := by
  cases a with
  | beginOp p =>
    simp only [Log.step] at hStep
    split at hStep <;> simp at hStep
  | logWrite p b =>
    simp only [Log.step] at hStep
    split at hStep
    · rename_i hPc
      have hOut := h.one_le_outstanding hPc
      have hErr := Option.some.inj hStep
      unfold Log.logWrite at hErr
      split at hErr
      · cases hErr
        rfl
      · rw [if_neg (by omega)] at hErr
        exact absurd hErr (by simp)
    · exact absurd hStep (by simp)
  | endOp p =>
    simp only [Log.step] at hStep
    split at hStep
    · rename_i hPc
      have hNot := h.not_committing hPc
      have hErr := Option.some.inj hStep
      unfold Log.endOp at hErr
      rw [if_neg (by simp [hNot])] at hErr
      split at hErr <;> simp at hErr
    · exact absurd hStep (by simp)
  | commit p c =>
    simp only [Log.step] at hStep
    split at hStep <;> simp at hStep

/-
  Operations are never split across commits. In every
  reachable state a running commit excludes operations and
  other commits, no `log_write` is possible meanwhile, the
  two bracketing panics cannot occur, and the blocks of an
  operation carry one transaction number: that of the open
  transaction while it is in progress, and once that
  transaction is closed, that of the header `write_head`
  put on disk with all of them in it.
-/
theorem operations_not_split
    (size : Int)
    (s : State)
    (hReach : Reachable size s) :
    (s.committing = true → s.outstanding = 0) ∧
    (∀ p q c c', s.pc p = .commit c → s.pc q = .commit c' → p = q) ∧
    (∀ p c q b, s.pc p = .commit c → step s (.logWrite q b) = none) ∧
    (∀ a e, step s a = some (.error e) → e ≠ .logCommitting ∧ e ≠ .outsideTrans) ∧
    (∀ p, s.pc p = .commit .head → s.copied = s.lh) ∧
    (∀ p,
      s.pc p = .inOp →
      ∀ e ∈ (s.op p).logged, e.2 = (s.op p).txn ∧ e.2 = s.txn ∧ e.1 ∈ s.lh) ∧
    ∀ r ∈ s.ended,
      (∀ e ∈ r.logged, e.2 = r.txn) ∧
      (r.txn = s.txn → ∀ e ∈ r.logged, Held s e.1) ∧
      (r.txn ≠ s.txn → ∀ e ∈ r.logged, InHeader s r.txn e.1) := by
  have h := grouped_of_reachable hReach
  refine ⟨h.exclusive, h.unique, ?_, ?_, ?_, ?_, ?_⟩
  · intro p c q b hp
    have hCommit := h.committing.mpr ⟨p, c, hp⟩
    simp [step, h.not_inOp hCommit q]
  · intro a e hStep
    rw [h.panic_eq_tooBig hStep]
    simp
  · intro p hp
    exact (h.stage p .head hp).2
  · intro p hp e he
    have hOpen := h.opened p hp
    refine ⟨?_, hOpen.same e he, hOpen.inLh e he⟩
    rw [hOpen.same e he, hOpen.txn]
  · intro r hr
    have hEnded := h.ended r hr
    refine ⟨hEnded.same, hEnded.held, ?_⟩
    intro hNe
    have hLe := hEnded.le
    exact hEnded.inHeader (by omega)

/- One operation that logs a block and starts its commit. -/
def sampleSchedule : List Action := [.beginOp 0, .logWrite 0 46, .endOp 0]

/- Its commit excludes a `log_write` by another process. -/
theorem operations_not_split_sample :
    ∃ s, run (State.init 30) sampleSchedule = some (.ok s) ∧ Reachable 30 s ∧
      s.pc 0 = .commit .test ∧ s.committing = true ∧ s.outstanding = 0 ∧
      step s (.logWrite 1 46) = none := by
  have hRuns : ∃ s, run (State.init 30) sampleSchedule = some (.ok s) ∧
      s.pc 0 = .commit .test ∧ s.committing = true :=
    ⟨_, rfl, rfl, rfl⟩
  rcases hRuns with ⟨s, hRun, hPc, hCommit⟩
  have hReach : Reachable 30 s := reachable_of_run .init hRun
  have hSplit := operations_not_split 30 s hReach
  exact ⟨s, hRun, hReach, hPc, hCommit, hSplit.1 hCommit, hSplit.2.2.1 0 .test 1 46 hPc⟩

end Xv6.Log

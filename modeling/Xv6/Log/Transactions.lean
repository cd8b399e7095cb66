import Xv6.Params
import Mathlib.Data.List.Nodup

/-
  The log as a concurrent object (`begin_op`, `log_write`,
  `end_op` and the commit they trigger in `log.c`).

  Any number of processes take turns at the granularity of
  the critical sections of `log.lock`. `commit` runs
  without the lock, so each of its reads of the in-memory
  header is a step of its own. A process asleep in
  `begin_op` may test again at any time.

  `log_write` and `end_op` are called between `begin_op`
  and `end_op` only: a call elsewhere is not a step.

  Key definitions include:
    * `Stage`
    * `Pc`
    * `State`
-/

namespace Xv6.Log

---- States

/-
  The position of a process inside `commit`. The stages
  `log` and `install` carry the loop variable `tail`.
-/
inductive Stage where
  | test
  | log (tail : Nat)
  | head
  | install (tail : Nat)
  | clear
  | erase
  | finish
deriving DecidableEq

/- The position of a process relative to an operation. -/
inductive Pc where
  | idle
  | waiting
  | inOp
  | commit (stage : Stage)
deriving DecidableEq

/-
  The history of one operation: the number of the
  transaction that was open when `begin_op` admitted it,
  and each logged block with the number of the transaction
  that was open then.
-/
structure OpRecord where
  txn : Nat
  logged : List (Nat × Nat)
deriving DecidableEq

/-
  `size`, `lh`, `outstanding` and `committing` are the
  fields of `struct log`; `lh` lists `block[0..n)`.

  The rest records the history. `txn` numbers the open
  transaction, `op` and `ended` hold the operations in
  progress and the finished ones, `copied` the home blocks
  `write_log` has copied in the current commit, and
  `header` the block list each commit wrote to disk.
-/
structure State where
  size : Int
  lh : List Nat
  outstanding : Int
  committing : Bool
  pc : Nat → Pc
  txn : Nat
  op : Nat → OpRecord
  ended : List OpRecord
  copied : List Nat
  header : Nat → Option (List Nat)

def State.init (size : Int) : State where
  size := size
  lh := []
  outstanding := 0
  committing := false
  pc := fun _ => .idle
  txn := 0
  op := fun _ => ⟨0, []⟩
  ended := []
  copied := []
  header := fun _ => none

/- The panics of `log.c` in these functions. -/
inductive LogPanic where
  | tooBig
  | outsideTrans
  | logCommitting
deriving DecidableEq

inductive Action where
  | beginOp (p : Nat)
  | logWrite (p b : Nat)
  | endOp (p : Nat)
  | commit (p : Nat) (stage : Stage)
deriving DecidableEq

/- Move one process. -/
def State.goto (s : State) (p : Nat) (c : Pc) : State :=
  { s with pc := fun q => if q = p then c else s.pc q }

---- Steps

/- One round of the loop of `begin_op`. -/
def beginOp (s : State) (p : Nat) : State :=
  if s.committing then
    s.goto p .waiting
  else if
      (s.lh.length : Int) + (s.outstanding + 1) * MAXOPBLOCKS > LOGSIZE then
    s.goto p .waiting
  else
    { s.goto p .inOp with
      outstanding := s.outstanding + 1
      op := fun q =>
        if q = p then ⟨s.txn, []⟩ else s.op q }

/- The header with block `b` entered, or absorbed. -/
def absorb (lh : List Nat) (b : Nat) : List Nat :=
  let i := lh.findIdx (· == b)
  if i = lh.length then lh ++ [b] else lh.set i b

def logWrite (s : State) (p b : Nat) : Except LogPanic State :=
  if (s.lh.length : Int) ≥ LOGSIZE ∨ (s.lh.length : Int) ≥ s.size - 1 then
    .error .tooBig
  else if s.outstanding < 1 then
    .error .outsideTrans
  else
    .ok { s with
      lh := absorb s.lh b
      op := fun q =>
        if q = p then ⟨(s.op p).txn, (s.op p).logged ++ [(b, s.txn)]⟩ else s.op q }

/- The first critical section of `end_op`. -/
def endOp (s : State) (p : Nat) : Except LogPanic State :=
  let s' :=
    { s with
      outstanding := s.outstanding - 1
      ended := s.ended ++ [s.op p] }
  if s.committing then
    .error .logCommitting
  else if s.outstanding - 1 = 0 then
    .ok ({ s' with committing := true }.goto p (.commit .test))
  else
    .ok (s'.goto p .idle)

/- One step of `commit`, and at `finish` the second critical section of `end_op`. -/
def commitStep (s : State) (p : Nat) : Stage → State
| .test =>
  if 0 < s.lh.length then
    { s.goto p (.commit (.log 0)) with copied := [] }
  else
    s.goto p (.commit .finish)
| .log tail =>
  if tail < s.lh.length then
    { s.goto p (.commit (.log (tail + 1))) with copied := s.copied ++ [s.lh.getD tail 0] }
  else
    s.goto p (.commit .head)
| .head =>
  { s.goto p (.commit (.install 0)) with
    header := fun k =>
      if k = s.txn then some s.lh else s.header k }
| .install tail =>
  if tail < s.lh.length then s.goto p (.commit (.install (tail + 1))) else s.goto p (.commit .clear)
| .clear => { s.goto p (.commit .erase) with lh := [] }
| .erase => s.goto p (.commit .finish)
| .finish =>
  { s.goto p .idle with
    committing := false
    txn := s.txn + 1 }

/-
  A step of the whole log. The result is `none` when the
  process is not at the place the action belongs to.
-/
def step (s : State) : Action → Option (Except LogPanic State)
| .beginOp p =>
  if s.pc p = .idle ∨ s.pc p = .waiting then some (.ok (beginOp s p)) else none
| .logWrite p b =>
  if s.pc p = .inOp then some (logWrite s p b) else none
| .endOp p =>
  if s.pc p = .inOp then some (endOp s p) else none
| .commit p stage =>
  if s.pc p = .commit stage then some (.ok (commitStep s p stage)) else none

/-
  Run a schedule from a state. The result is `none` when
  the schedule asks for a step that is not enabled, and a
  panic ends the run.
-/
def run : State → List Action → Option (Except LogPanic State)
| s, [] => some (.ok s)
| s, a :: as =>
  match step s a with
  | none => none
  | some (.error e) => some (.error e)
  | some (.ok s') => run s' as

/- The states of all interleavings, for a given log size. -/
inductive Reachable
    (size : Int) : State → Prop
| init : Reachable size (State.init size)
| step {s s' : State} {a : Action} : Reachable size s → step s a = some (.ok s') → Reachable size s'

---- Absorption

theorem absorb_eq (lh : List Nat) (b : Nat) : absorb lh b = if b ∈ lh then lh else lh ++ [b] := by
  unfold absorb
  by_cases hb : b ∈ lh
  · have hLt : lh.findIdx (· == b) < lh.length :=
      List.findIdx_lt_length_of_exists ⟨b, hb, by simp⟩
    have hGet : lh[lh.findIdx (· == b)] = b := by
      have hFound := List.findIdx_getElem (w := hLt)
      simpa using hFound
    simp only [hb, if_true]
    rw [if_neg (by omega)]
    apply List.ext_getElem
    · simp
    · intro i hi hi'
      by_cases hEq : lh.findIdx (· == b) = i
      · subst hEq
        simp [hGet]
      · simp [hEq]
  · have hNone : lh.findIdx (· == b) = lh.length := by
      apply List.findIdx_eq_length.mpr
      intro c hc
      simp only [beq_eq_false_iff_ne]
      intro hEq
      apply hb
      rw [← hEq]
      exact hc
    simp [hb, hNone]

theorem mem_absorb {lh : List Nat} {b c : Nat} : c ∈ absorb lh b ↔ c = b ∨ c ∈ lh := by
  rw [absorb_eq]
  split
  · rename_i hb
    constructor
    · exact Or.inr
    · rintro (hEq | hc)
      · rw [hEq]
        exact hb
      · exact hc
  · simp [or_comm]

theorem nodup_absorb {lh : List Nat} (b : Nat) (h : lh.Nodup) : (absorb lh b).Nodup := by
  rw [absorb_eq]
  split
  · exact h
  · rename_i hb
    exact h.append (List.nodup_singleton b) (by simpa using hb)

end Xv6.Log

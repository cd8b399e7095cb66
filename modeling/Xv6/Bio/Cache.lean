import Mathlib.Logic.Function.Basic
import Xv6.Log.Commit
import Xv6.Log.Transactions

/-
  The buffer cache (`bio.c`) under the log (`log.c`).

  Processes read blocks, change them inside transactions and
  log them; the last `end_op` commits. A step is a critical
  section of `bcache.lock` or `log.lock`, an operation on a
  buffer's sleep lock, or work on a buffer whose sleep lock
  the process holds: nobody else sees the buffer then. All
  blocks are on `ROOTDEV`.

  Clients keep to the rule of the log: a buffer is changed
  inside a transaction only, and it is logged after its last
  change and before it is released. The blocks of the log
  itself are used by `commit` alone.

  The history is not in the source: the contents last logged
  for each block, the processes with a reference to each
  buffer, the operations in progress, and how many blocks of
  the header the current commit has unpinned.

  Key definitions include:
    * `Buf`
    * `bget`
    * `Stage`
-/

namespace Xv6.Bio

open Function (update)

open Log (Area absorb putHead)

def NBUF : Nat := MAXOPBLOCKS * 3

def ROOTDEV : Nat := 1

---- State

/- `struct buf`; its sleep lock is given by its holder. -/
structure Buf where
  dev : Nat
  blockno : Nat
  valid : Bool
  refcnt : Nat
  lock : Option Nat
  data : Block

/- The buffer holds block `b`. -/
def Buf.Caches (x : Buf) (b : Nat) : Prop := x.dev = ROOTDEV ∧ x.blockno = b

instance
    (x : Buf) (b : Nat) :
    Decidable (x.Caches b) := by
  unfold Buf.Caches
  infer_instance

/-
  Where a process is in `bread` or `brelse`: it has its
  reference and waits for the sleep lock, it has the lock,
  or it has given the lock back.
-/
inductive Io where
  | none
  | lock (i : Nat)
  | load (i : Nat)
  | unref (i : Nat)
deriving DecidableEq

/-
  The places of `commit`, with the loop variable `tail` of
  `write_log` and `install_trans`. `write_head` runs twice,
  the second time to erase the transaction.
-/
inductive Stage where
  | test
  | logTo (tail : Nat)
  | logFrom (tail : Nat)
  | logCopy (tail : Nat)
  | logFree (tail : Nat)
  | logNext (tail : Nat)
  | head (erase : Bool)
  | headWrite (erase : Bool)
  | headFree (erase : Bool)
  | insLog (tail : Nat)
  | insHome (tail : Nat)
  | insWrite (tail : Nat)
  | insUnpin (tail : Nat)
  | insFree (tail : Nat)
  | insNext (tail : Nat)
  | clear
  | finish
deriving DecidableEq

inductive Pc where
  | out
  | waiting
  | inOp
  | commit (stage : Stage)
deriving DecidableEq

/- A buffer that a process has locked, and the newest first. -/
structure Held where
  buf : Nat
  dirty : Bool
deriving DecidableEq

structure Proc where
  pc : Pc
  io : Io
  held : List Held

/-
  `order` lists the buffers from `head.next` to `head.prev`,
  and `lh` lists `log.lh.block[0..n)`.
-/
structure State where
  buf : Nat → Buf
  order : List Nat
  disk : Disk
  lh : List Nat
  outstanding : Nat
  committing : Bool
  proc : Nat → Proc
  latest : Disk
  users : Nat → List Nat
  ops : List Nat
  unpinned : Nat

inductive Panic where
  | noBuffers
  | tooBig
  | outsideTrans
  | logCommitting
deriving DecidableEq

abbrev Result := Except Panic State

def State.setBuf (s : State) (i : Nat) (x : Buf) : State := { s with buf := update s.buf i x }

def State.setProc (s : State) (p : Nat) (x : Proc) : State := { s with proc := update s.proc p x }

---- Buffers

/-
  Look through the cache for block `b`; recycle the least
  recently used buffer without references if it is not
  there. The process has its reference then.
-/
def bget (s : State) (p b : Nat) (pc : Pc) : Result :=
  match s.order.find? (fun i => decide ((s.buf i).Caches b)) with
  | some i =>
    .ok
      { (s.setBuf i
            { s.buf i with refcnt := (s.buf i).refcnt + 1 }).setProc p
          { s.proc p with pc := pc, io := .lock i } with
        users := update s.users i (p :: s.users i) }
  | none =>
    match s.order.reverse.find? (fun i => decide ((s.buf i).refcnt = 0)) with
    | some i =>
      .ok
        { (s.setBuf i
              { s.buf i with
                dev := ROOTDEV
                blockno := b
                valid := false
                refcnt := 1 }).setProc p
            { s.proc p with pc := pc, io := .lock i } with
          users := update s.users i (p :: s.users i) }
    | none => .error .noBuffers

/- `acquiresleep`, which waits for the lock. -/
def lockBuf (s : State) (p i : Nat) : Option Result :=
  if (s.buf i).lock = none then
    some
      (.ok ((s.setBuf i { s.buf i with lock := some p }).setProc p { s.proc p with io := .load i }))
  else
    none

/- The rest of `bread`: read the block unless it is there. -/
def load (s : State) (p i : Nat) : State :=
  let x := s.buf i
  (s.setBuf i
    (if x.valid = true then x else { x with data := s.disk x.blockno, valid := true })).setProc
    p
    { s.proc p with
      io := .none
      held := ⟨i, false⟩ :: (s.proc p).held }

/- The first half of `brelse`. -/
def unlock (s : State) (p i : Nat) (pc : Pc) : State :=
  (s.setBuf i { s.buf i with lock := none }).setProc p
    { pc := pc
      io := .unref i
      held := (s.proc p).held.erase ⟨i, false⟩ }

/- The second half: the reference goes. -/
def unref (s : State) (p i : Nat) : State :=
  { (s.setBuf i
        { s.buf i with refcnt := (s.buf i).refcnt - 1 }).setProc p
      { s.proc p with io := .none } with
    order :=
      if (s.buf i).refcnt - 1 = 0 then i :: s.order.erase i else s.order
    users := update s.users i ((s.users i).erase p) }

/- Write the contents of a buffer to its block. -/
def bwrite (s : State) (i : Nat) (data : Block) : State :=
  { s.setBuf i { s.buf i with data := data } with
    disk := s.disk.write (s.buf i).blockno data }

---- Clients

/- The mark of a buffer of a process. -/
def mark (i : Nat) (dirty : Bool) (held : List Held) : List Held :=
  held.map (fun x => if x.buf = i then ⟨i, dirty⟩ else x)

def modifyBuf (s : State) (p i : Nat) (data : Block) : State :=
  (s.setBuf i { s.buf i with data := data }).setProc p
    { s.proc p with held := mark i true (s.proc p).held }

def logWrite (a : Area) (s : State) (p i : Nat) : Result :=
  let x := s.buf i
  if s.lh.length ≥ LOGSIZE ∨ s.lh.length + 1 ≥ a.size then
    .error .tooBig
  else if s.outstanding < 1 then
    .error .outsideTrans
  else
    .ok
      { (s.setBuf i
            { x with
              refcnt :=
                if x.blockno ∈ s.lh then x.refcnt
                else x.refcnt + 1 }).setProc p
          { s.proc p with held := mark i false (s.proc p).held } with
        lh := absorb s.lh x.blockno
        latest := s.latest.write x.blockno x.data }

def goto (s : State) (p : Nat) (pc : Pc) : State := s.setProc p { s.proc p with pc := pc }

/- One round of the loop of `begin_op`. -/
def beginOp (s : State) (p : Nat) : State :=
  if s.committing = true then
    goto s p .waiting
  else if
      s.lh.length + (s.outstanding + 1) * MAXOPBLOCKS > LOGSIZE then
    goto s p .waiting
  else
    { goto s p .inOp with
      outstanding := s.outstanding + 1
      ops := p :: s.ops }

/- The first critical section of `end_op`. -/
def endOp (s : State) (p : Nat) : Result :=
  let s' :=
    { s with
      outstanding := s.outstanding - 1
      ops := s.ops.erase p }
  if s.committing = true then
    .error .logCommitting
  else if s.outstanding - 1 = 0 then
    .ok { goto s' p (.commit .test) with committing := true }
  else
    .ok (goto s' p .out)

---- Commit

/- Two buffers of `commit`, the one read last first. -/
def withTwo (held : List Held) (f : Nat → Nat → State) : Option Result :=
  match held with
  | x :: y :: _ => some (.ok (f x.buf y.buf))
  | _ => none

def withOne (held : List Held) (f : Nat → State) : Option Result :=
  match held with
  | x :: _ => some (.ok (f x.buf))
  | _ => none

/- One step of `commit`, between two buffer operations. -/
def commitStep (a : Area) (s : State) (p : Nat) : Stage → Option Result
  | .test =>
    if s.lh.length > 0 then
      some (.ok (goto s p (.commit (.logTo 0))))
    else
      some (.ok (goto s p (.commit .finish)))
  | .logTo tail =>
    if tail < s.lh.length then
      some (bget s p (a.start + tail + 1) (.commit (.logFrom tail)))
    else
      some (.ok (goto s p (.commit (.head false))))
  | .logFrom tail => some (bget s p (s.lh.getD tail 0) (.commit (.logCopy tail)))
  | .logCopy tail =>
    withTwo (s.proc p).held fun source dest =>
      goto (bwrite s dest (s.buf source).data) p (.commit (.logFree tail))
  | .logFree tail =>
    withOne (s.proc p).held fun source =>
      unlock s p source (.commit (.logNext tail))
  | .logNext tail =>
    withOne (s.proc p).held fun dest =>
      unlock s p dest (.commit (.logTo (tail + 1)))
  | .head erase => some (bget s p a.start (.commit (.headWrite erase)))
  | .headWrite erase =>
    withOne (s.proc p).held fun i =>
      goto (bwrite s i (putHead (s.buf i).data s.lh)) p (.commit (.headFree erase))
  | .headFree erase =>
    withOne (s.proc p).held fun i =>
      unlock s p i (.commit (if erase = true then .finish else .insLog 0))
  | .insLog tail =>
    if tail < s.lh.length then
      some (bget s p (a.start + tail + 1) (.commit (.insHome tail)))
    else
      some (.ok (goto s p (.commit .clear)))
  | .insHome tail => some (bget s p (s.lh.getD tail 0) (.commit (.insWrite tail)))
  | .insWrite tail =>
    withTwo (s.proc p).held fun dbuf lbuf =>
      goto (bwrite s dbuf (s.buf lbuf).data) p (.commit (.insUnpin tail))
  | .insUnpin tail =>
    withOne (s.proc p).held fun dbuf =>
      { goto
          (s.setBuf dbuf { s.buf dbuf with refcnt := (s.buf dbuf).refcnt - 1 })
          p (.commit (.insFree tail)) with
        unpinned := s.unpinned + 1 }
  | .insFree tail =>
    withTwo (s.proc p).held fun _ lbuf =>
      unlock s p lbuf (.commit (.insNext tail))
  | .insNext tail =>
    withOne (s.proc p).held fun dbuf =>
      unlock s p dbuf (.commit (.insLog (tail + 1)))
  | .clear =>
    some
      (.ok
        { goto s p (.commit (.head true)) with
          lh := []
          unpinned := 0 })
  | .finish =>
    some (.ok { goto s p .out with committing := false })

---- Steps

/- What a process does next. A process inside `bread`, `brelse` or `commit` goes on with it. -/
inductive Action where
  | bread (p b : Nat)
  | modify (p i : Nat) (data : Block)
  | logWrite (p i : Nat)
  | brelse (p i : Nat)
  | beginOp (p : Nat)
  | endOp (p : Nat)
  | go (p : Nat)

/- A process that runs file-system code. -/
def Proc.client (x : Proc) : Bool := decide (x.io = .none ∧ (x.pc = .out ∨ x.pc = .inOp))

def step (a : Area) (s : State) : Action → Option Result
  | .bread p b =>
    if (s.proc p).client = true ∧ ¬ a.Mem b then some (bget s p b (s.proc p).pc) else none
  | .modify p i data =>
    if (s.proc p).io = .none ∧ (s.proc p).pc = .inOp ∧ i ∈ (s.proc p).held.map Held.buf then
      some (.ok (modifyBuf s p i data))
    else
      none
  | .logWrite p i =>
    if (s.proc p).io = .none ∧ (s.proc p).pc = .inOp ∧ i ∈ (s.proc p).held.map Held.buf then
      some (logWrite a s p i)
    else
      none
  | .brelse p i =>
    if (s.proc p).client = true ∧ ⟨i, false⟩ ∈ (s.proc p).held then
      some (.ok (unlock s p i (s.proc p).pc))
    else
      none
  | .beginOp p =>
    if (s.proc p).io = .none ∧ ((s.proc p).pc = .out ∨ (s.proc p).pc = .waiting) then
      some (.ok (beginOp s p))
    else
      none
  | .endOp p =>
    if (s.proc p).io = .none ∧ (s.proc p).pc = .inOp ∧ (s.proc p).held = [] then
      some (endOp s p)
    else
      none
  | .go p =>
    match (s.proc p).io with
    | .lock i => lockBuf s p i
    | .load i => some (.ok (load s p i))
    | .unref i => some (.ok (unref s p i))
    | .none =>
      match (s.proc p).pc with
      | .commit stage => commitStep a s p stage
      | _ => none

---- Runs

/-
  The cache and the log after `initlog`: no references, an
  empty header, and cached blocks as they are on disk.
-/
structure Booted (s : State) : Prop where
  order : s.order.Perm (List.range NBUF)
  unique : ∀ i j b, i < NBUF → j < NBUF → (s.buf i).Caches b → (s.buf j).Caches b → i = j
  idle : ∀ i, (s.buf i).refcnt = 0 ∧ (s.buf i).lock = none
  cached : ∀ i, i < NBUF → (s.buf i).dev = ROOTDEV →
    (s.buf i).valid = true → (s.buf i).data = s.disk (s.buf i).blockno
  lh : s.lh = []
  outstanding : s.outstanding = 0
  committing : s.committing = false
  procs : ∀ p, s.proc p = ⟨.out, .none, []⟩
  latest : s.latest = s.disk
  users : ∀ i, s.users i = []
  ops : s.ops = []
  unpinned : s.unpinned = 0

/- The states of all interleavings. -/
inductive Reachable (a : Area) : State → Prop where
  | boot {s : State} (h : Booted s) : Reachable a s
  | step {s s' : State}
      {c : Action} (h : Reachable a s) (hStep : step a s c = some (.ok s')) :
      Reachable a s'

/- The state after a list of steps, if they can be taken. -/
def run (a : Area) (s : State) : List Action → Option State
  | [] => some s
  | c :: cs =>
    match step a s c with
    | some (.ok s') => run a s' cs
    | _ => none

theorem Reachable.run {a : Area} {s s' : State} {cs : List Action} (h : Reachable a s)
    (hRun : run a s cs = some s') : Reachable a s' := by
  induction cs generalizing s with
  | nil =>
    cases hRun
    exact h
  | cons c cs ih =>
    unfold Bio.run at hRun
    split at hRun
    · rename_i t hStep
      exact ih (h.step hStep) hRun
    · cases hRun

end Xv6.Bio

import Xv6.Lib.Prog
import Xv6.Params

/-
  The commit and recovery paths of the log (`log.c`), run
  over a disk behind a buffer cache.

  A run may lose power. `power` counts the block writes
  that still reach the disk. When it is spent, the next
  `bwrite` stops the run and leaves only the disk and the
  list of blocks written so far. Memory is lost with the
  power: a reboot starts from the disk alone.

  Key definitions include:
    * `Machine`
    * `bread`
    * `bwrite`
-/

namespace Xv6.Log

---- Log Header

/- The position of the log on disk, from the superblock. -/
structure Area where
  start : Nat
  size : Nat

/- Blocks of the log area, header block included. -/
def Area.Mem (a : Area) (b : Nat) : Prop := a.start ≤ b ∧ b < a.start + a.size

instance
    (a : Area) (b : Nat) :
    Decidable (a.Mem b) := by
  unfold Area.Mem
  infer_instance

/- A stored 32-bit word read as a C `int`. -/
def toInt32 (w : Nat) : Int := if w < 2 ^ 31 then w else (w : Int) - 2 ^ 32

/- The field `n` of an on-disk `struct logheader`. -/
def headN (b : Block) : Int := toInt32 (b.getLe 0 4)

/- The field `block[i]` of an on-disk `struct logheader`. -/
def headBlock (b : Block) (i : Nat) : Nat := b.getLe (4 + 4 * i) 4

/-
  The header block with `n` and `block[0..n)` stored. The
  words behind them keep what the buffer held.
-/
def putHead (b : Block) (lh : List Nat) : Block :=
  b.put 0 (Bytes.le 4 lh.length ++ lh.flatMap (Bytes.le 4))

---- Machine

/-
  The part of the machine the log code works on. `lh` is
  the in-memory header `log.lh`: its length is `log.lh.n`.
  `pins` counts the references `bpin` holds on a buffer,
  and `written` lists the blocks written since the start.
-/
structure Machine where
  disk : Disk
  cache : Nat → Option Block
  pins : Nat → Nat
  lh : List Nat
  power : Option Nat
  written : List Nat

/- What a power failure leaves. -/
structure Crash where
  disk : Disk
  written : List Nat

abbrev LogM := Prog Machine Crash

/- The contents `bread` returns for a block. -/
def Machine.view (m : Machine) (b : Nat) : Block := (m.cache b).getD (m.disk b)

/- Read a block through the cache. -/
def bread (b : Nat) : LogM Block := do
  let m ← get
  set { m with
    cache :=
      fun c => if c = b then some (m.view b)
        else m.cache c }
  return m.view b

/- Write a buffer with contents `v` to its block `b`. The buffer stays in the cache. -/
def bwrite (b : Nat) (v : Block) : LogM Unit := do
  let m ← get
  if m.power = some 0 then
    throw ⟨m.disk, m.written⟩
  else
    set { m with
      disk := m.disk.write b v
      cache := fun c => if c = b then some v else m.cache c
      power := m.power.map (· - 1)
      written := m.written ++ [b] }

def bunpin (b : Nat) : LogM Unit :=
  modify fun m =>
    { m with
      pins :=
        fun c => if c = b then m.pins b - 1
          else m.pins c }

---- Commit

/- The loop of `write_log` from position `tail` on. -/
def writeLogFrom (a : Area) : Nat → List Nat → LogM Unit
| _, [] => pure ()
| tail, b :: bs => do
  let _ ← bread (a.start + tail + 1)
  let data ← bread b
  bwrite (a.start + tail + 1) data
  writeLogFrom a (tail + 1) bs

/- Copy modified blocks from the cache to the log. -/
def writeLog (a : Area) : LogM Unit := do
  let m ← get
  writeLogFrom a 0 m.lh

/- Write the in-memory log header to disk. -/
def writeHead (a : Area) : LogM Unit := do
  let hb ← bread a.start
  let m ← get
  bwrite a.start (putHead hb m.lh)

/- The loop of `install_trans` from position `tail` on. -/
def installTransFrom (a : Area) (recovering : Bool) : Nat → List Nat → LogM Unit
| _, [] => pure ()
| tail, b :: bs => do
  let lbuf ← bread (a.start + tail + 1)
  let _ ← bread b
  bwrite b lbuf
  if recovering = false then
    bunpin b
  installTransFrom a recovering (tail + 1) bs

/- Copy committed blocks from the log to their homes. -/
def installTrans (a : Area) (recovering : Bool) : LogM Unit := do
  let m ← get
  installTransFrom a recovering 0 m.lh

/- Forget the transaction in memory: `log.lh.n = 0`. -/
def clearHead : LogM Unit := modify fun m => { m with lh := [] }

def commit (a : Area) : LogM Unit := do
  let m ← get
  if 0 < m.lh.length then
    writeLog a
    writeHead a
    installTrans a false
    clearHead
    writeHead a

---- Recovery

/- Read the log header from disk into memory. -/
def readHead (a : Area) : LogM Unit := do
  let buf ← bread a.start
  modify fun m => { m with lh := (List.range (headN buf).toNat).map (headBlock buf) }

def recoverFromLog (a : Area) : LogM Unit := do
  readHead a
  installTrans a true
  clearHead
  writeHead a

---- Crashes

/- The machine after a reboot: an empty cache. -/
def boot (d : Disk) (power : Option Nat) : Machine where
  disk := d
  cache := fun _ => none
  pins := fun _ => 0
  lh := []
  power := power
  written := []

/-
  The disk and the blocks written when power is lost: at
  the exhausted write, or after the last instruction.
-/
def crashState (x : LogM Unit) (m : Machine) : Crash :=
  match x m with
  | .ok (_, m') => ⟨m'.disk, m'.written⟩
  | .error c => c

/-
  Reboot and recover, losing power during the runs of
  recovery after the given numbers of writes.
-/
def interruptedRecoveries (a : Area) : List Nat → Disk → Disk
| [], d => d
| k :: ks, d => interruptedRecoveries a ks (crashState (recoverFromLog a) (boot d (some k))).disk

end Xv6.Log

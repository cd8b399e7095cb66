import Mathlib.Logic.Function.Basic
import Xv6.Lib.RingBuf

/-
  The driver of the virtio disk (`virtio_disk.c`) and its
  device.

  Processes in `virtio_disk_rw` and the interrupt handler
  take steps while they hold `vdisk_lock`; the device takes
  steps at any time. The device fetches chain heads from the
  avail ring in order and completes them in any order, with
  status 0. Data transfer itself is left out: no step of the
  protocol looks at it.

  A ring is a `RingBuf` whose counters are the two 16-bit
  indices on it: how far the reader has looked, and how far
  the writer has written. A process asleep in the driver may
  run again whenever the lock is free, since it tests its
  condition itself.

  Key definitions include:
    * `Disk`
    * `Pc`
    * `State`
-/

namespace Xv6.Virtio

open Function (update)

def NUM : Nat := 8
def VRING_DESC_F_NEXT : Nat := 1
def VRING_DESC_F_WRITE : Nat := 2
def BSIZE : Nat := 1024

---- Descriptors

/-
  What a descriptor points to: a command header, the data of
  a buffer, or the status byte of an operation.
-/
inductive Addr where
  | null
  | ops (i : Nat)
  | data (b : Nat)
  | status (i : Nat)
deriving DecidableEq

structure Desc where
  addr : Addr
  len : Nat
  flags : Nat
  next : Nat
deriving DecidableEq

def Desc.zero : Desc := ⟨.null, 0, 0, 0⟩

/- `flags & VRING_DESC_F_NEXT`. -/
def Desc.more (d : Desc) : Bool := decide (d.flags % 2 = 1)

structure Req where
  write : Bool
  sector : Nat
deriving DecidableEq

/- An operation in flight, by the head of its chain. -/
structure Info where
  b : Option Nat
  status : UInt8
deriving DecidableEq

---- State

/-
  `struct disk`, the field `disk` of each buffer, and the
  heads that the device works on. The history is not in the
  source: the process behind a head, and the numbers of
  requests a process has submitted and the device has
  completed for it.
-/
structure Disk where
  desc : Nat → Desc
  avail : RingBuf Nat 8 65536
  used : RingBuf Nat 8 65536
  free : Nat → Bool
  info : Nat → Info
  ops : Nat → Req
  busy : Nat → Bool
  active : List Nat
  asker : Nat → Nat
  sent : Nat → Nat
  served : Nat → Nat

/-
  The places of a process in `virtio_disk_rw`, with its
  buffer and its array `idx`. In `freeing`, `i` is the
  variable of `free_chain`; `left`, the descriptors still to
  be freed, is not in the source.
-/
inductive Pc where
  | idle
  | enter (b : Nat) (write : Bool)
  | alloc (b : Nat) (write : Bool) (idx : List Nat)
  | undo (b : Nat) (write : Bool) (idx : List Nat)
  | asleep (b : Nat) (write : Bool)
  | submit (b : Nat) (write : Bool) (i j k : Nat)
  | wait (b i j k : Nat)
  | parked (b i j k : Nat)
  | clear (b i j k : Nat)
  | freeing (b i : Nat) (left : List Nat)
  | leave (b : Nat)
deriving DecidableEq

/- The places of `virtio_disk_intr`. -/
inductive IntrPc where
  | idle
  | loop
  | body
deriving DecidableEq

/- Who holds `vdisk_lock`. -/
inductive Holder where
  | none
  | proc (p : Nat)
  | intr
deriving DecidableEq

/-
  `owner` tells who has the sleep lock of a buffer: a call
  of `virtio_disk_rw` holds that of its buffer.
-/
structure State where
  disk : Disk
  pc : Nat → Pc
  intr : IntrPc
  lock : Holder
  owner : Nat → Option Nat

inductive Panic where
  | freeDesc1
  | freeDesc2
  | intrStatus
  | nullBuf
deriving DecidableEq

inductive Outcome where
  | next (s : State)
  | panic (e : Panic)

---- Descriptor Allocation

/- A free descriptor, marked non-free. -/
def allocDesc (d : Disk) : Option (Nat × Disk) :=
  match (List.range NUM).find? d.free with
  | none => none
  | some i =>
    some (i, { d with free := update d.free i false })

/- The descriptor is cleared and marked free. -/
def Disk.release (d : Disk) (i : Nat) : Disk :=
  { d with
    desc := update d.desc i Desc.zero
    free := update d.free i true }

def freeDesc (i : Nat) (d : Disk) : Except Panic Disk :=
  if i ≥ NUM then
    .error .freeDesc1
  else if d.free i = true then .error .freeDesc2 else .ok (d.release i)

---- Requests

/- Format the three descriptors and publish the first. -/
def submit (p b : Nat) (write : Bool) (i j k : Nat) (d : Disk) : Disk :=
  { d with
    ops := update d.ops i ⟨write, b * (BSIZE / 512)⟩
    desc :=
      update
        (update (update d.desc i ⟨.ops i, 16, VRING_DESC_F_NEXT, j⟩)
          j
          ⟨.data b, BSIZE, (if write = true then 0
              else VRING_DESC_F_WRITE) +
              VRING_DESC_F_NEXT,
            k⟩)
        k
        ⟨.status i, 1, VRING_DESC_F_WRITE, 0⟩
    info := update d.info i ⟨some b, 0xff⟩
    busy := update d.busy b true
    avail := d.avail.push i
    asker := update d.asker i p
    sent := update d.sent p (d.sent p + 1) }

---- The Device

/- The device looks at the next entry of the avail ring. -/
def fetch (d : Disk) : Option Disk :=
  if d.avail.head = d.avail.tail then
    none
  else
    some
      { d with
        avail := d.avail.pop
        active := d.active ++ [d.avail.front] }

/-
  The device finishes a chain it has fetched. It finds the
  status byte through the third descriptor of the chain.
-/
def complete (head : Nat) (d : Disk) : Option Disk :=
  if head ∈ d.active then
    let last := d.desc (d.desc (d.desc head).next).next
    match last.addr with
    | .status i =>
      some
        { d with
          info := update d.info i { d.info i with status := 0 }
          active := d.active.erase head
          used := d.used.push head
          served := update d.served (d.asker head) (d.served (d.asker head) + 1) }
    | _ => none
  else
    none

---- Steps

inductive Choice where
  | call (p b : Nat) (write : Bool)
  | proc (p : Nat)
  | intr
  | fetch
  | complete (head : Nat)

def State.goto (s : State) (p : Nat) (pc : Pc) : State := { s with pc := update s.pc p pc }

/- A process goes on with a changed disk. -/
def State.move (s : State) (p : Nat) (disk : Disk) (pc : Pc) : State :=
  { s with
    disk := disk
    pc := update s.pc p pc }

/- `acquire`, which waits while the lock is taken. -/
def State.acquire (s : State) (p : Nat) (pc : Pc) : Option Outcome :=
  if s.lock = .none then some (.next { s.goto p pc with lock := .proc p }) else none

/- `sleep` or `release`: the lock is given back. -/
def State.release (s : State) (p : Nat) (pc : Pc) : Outcome :=
  .next { s.goto p pc with lock := .none }

def stepProc (s : State) (p : Nat) : Option Outcome :=
  match s.pc p with
  | .idle => none
  | .enter b write => s.acquire p (.alloc b write [])
  | .alloc b write idx =>
    match allocDesc s.disk with
    | none => some (.next (s.goto p (.undo b write idx)))
    | some (i, disk) =>
      match idx with
      | [h, m] => some (.next (s.move p disk (.submit b write h m i)))
      | _ => some (.next (s.move p disk (.alloc b write (idx ++ [i]))))
  | .undo b write idx =>
    match idx with
    | [] => some (s.release p (.asleep b write))
    | i :: rest =>
      match freeDesc i s.disk with
      | .error e => some (.panic e)
      | .ok disk => some (.next (s.move p disk (.undo b write rest)))
  | .asleep b write => s.acquire p (.alloc b write [])
  | .submit b write i j k => some (.next (s.move p (submit p b write i j k s.disk) (.wait b i j k)))
  | .wait b i j k =>
    if s.disk.busy b = true then
      some (s.release p (.parked b i j k))
    else
      some (.next (s.goto p (.clear b i j k)))
  | .parked b i j k => s.acquire p (.wait b i j k)
  | .clear b i j k =>
    some
      (.next
        (s.move p
          { s.disk with
            info := update s.disk.info i { s.disk.info i with b := none } }
          (.freeing b i [i, j, k])))
  | .freeing b i left =>
    match freeDesc i s.disk with
    | .error e => some (.panic e)
    | .ok disk =>
      if (s.disk.desc i).more = true then
        some (.next (s.move p disk (.freeing b (s.disk.desc i).next left.tail)))
      else
        some (.next (s.move p disk (.leave b)))
  | .leave b =>
    some
      (.next
        { s.goto p .idle with
          lock := .none
          owner := update s.owner b none })

def stepIntr (s : State) : Option Outcome :=
  match s.intr with
  | .idle =>
    if s.lock = .none then some (.next { s with lock := .intr, intr := .loop }) else none
  | .loop =>
    if s.disk.used.head = s.disk.used.tail then
      some (.next { s with lock := .none, intr := .idle })
    else
      some (.next { s with intr := .body })
  | .body =>
    let id := s.disk.used.front
    if (s.disk.info id).status ≠ 0 then
      some (.panic .intrStatus)
    else
      match (s.disk.info id).b with
      | none => some (.panic .nullBuf)
      | some b =>
        some
          (.next
            { s with
              disk :=
                { s.disk with
                  busy := update s.disk.busy b false
                  used := s.disk.used.pop }
              intr := .loop })

/-
  One step of a process, the handler or the device. A call
  starts with a buffer whose sleep lock is free.
-/
def step (s : State) : Choice → Option Outcome
  | .call p b write =>
    if s.pc p = .idle ∧ s.owner b = none then
      some (.next { s.goto p (.enter b write) with owner := update s.owner b (some p) })
    else
      none
  | .proc p => stepProc s p
  | .intr => stepIntr s
  | .fetch =>
    (fetch s.disk).map (fun d => .next { s with disk := d })
  | .complete head =>
    (complete head s.disk).map (fun d => .next { s with disk := d })

---- Runs

/- The state after `virtio_disk_init`. -/
def boot : State where
  disk :=
    { desc := fun _ => Desc.zero
      avail := ⟨fun _ => 0, 0, 0⟩
      used := ⟨fun _ => 0, 0, 0⟩
      free := fun i => decide (i < NUM)
      info := fun _ => ⟨none, 0⟩
      ops := fun _ => ⟨false, 0⟩
      busy := fun _ => false
      active := []
      asker := fun _ => 0
      sent := fun _ => 0
      served := fun _ => 0 }
  pc := fun _ => .idle
  intr := .idle
  lock := .none
  owner := fun _ => none

inductive Reachable : State → Prop where
  | boot : Reachable boot
  | step {s s' : State}
      {c : Choice} (h : Reachable s) (hStep : step s c = some (.next s')) :
      Reachable s'

/- A run by its choices, up to a step that cannot be taken. -/
def run : State → List Choice → Option State
  | s, [] => some s
  | s, c :: cs =>
    match step s c with
    | some (.next s') => run s' cs
    | _ => none

theorem Reachable.run {s s' : State} (h : Reachable s) (cs : List Choice)
    (hRun : run s cs = some s') : Reachable s' := by
  induction cs generalizing s with
  | nil =>
    rw [← Option.some.inj hRun]
    exact h
  | cons c cs ih =>
    simp only [Virtio.run] at hRun
    split at hRun
    · rename_i hStep
      exact ih (h.step hStep) hRun
    · cases hRun

end Xv6.Virtio

import Mathlib.Algebra.GroupWithZero.Nat
import Mathlib.Logic.Function.Basic

/-
  The allocator of the user library (`umalloc.c`).

  Memory is a map from addresses to headers. Addresses count
  bytes and a header has sixteen of them, so `p + n` of the
  source is `p + 16 * n` here. Sizes are 32-bit numbers of
  units. A loop takes the number of rounds it may run, and
  the result is `none` if it needs more.

  Key definitions include:
    * `Header`
    * `Heap`
    * `free`
-/

namespace Xv6.User

---- Headers

/- `union header`. -/
structure Header where
  ptr : Nat
  size : Nat
  deriving DecidableEq

/- `sizeof(Header)`. -/
def HEADERSIZE : Nat := 16

/- The address of header `n` of an array at `p`. -/
def headerAt (p n : Nat) : Nat := p + HEADERSIZE * n

/- A block: the address of its header and its units. -/
structure Block where
  addr : Nat
  units : Nat
  deriving DecidableEq

/- Memory and `freep`. The regions that `morecore` got are history. -/
structure Heap where
  mem : Nat → Header
  freep : Nat
  regions : List Block

def Heap.setPtr (h : Heap) (p q : Nat) : Heap :=
  { h with mem := Function.update h.mem p { h.mem p with ptr := q } }

def Heap.setSize (h : Heap) (p n : Nat) : Heap :=
  { h with
    mem := Function.update h.mem p { h.mem p with size := n % 2 ^ 32 } }

def Heap.setFreep (h : Heap) (p : Nat) : Heap := { h with freep := p }

---- Freeing

/- The loop of `free`: where to insert the block `bp`. -/
def freeSearch (mem : Nat → Header) (bp : Nat) : Nat → Nat → Option Nat
  | 0, _ => none
  | fuel + 1, p =>
    if bp > p ∧ bp < (mem p).ptr then
      some p
    else if p ≥ (mem p).ptr ∧ (bp > p ∨ bp < (mem p).ptr) then
      some p
    else
      freeSearch mem bp fuel (mem p).ptr

/- Join the block with the free block above, if it is next. -/
def joinAbove (h : Heap) (bp p : Nat) : Heap :=
  let q := (h.mem p).ptr
  if headerAt bp (h.mem bp).size = q then
    (h.setSize bp ((h.mem bp).size + (h.mem q).size)).setPtr bp (h.mem q).ptr
  else
    h.setPtr bp q

/- Join the block with the free block below, if it is next. -/
def joinBelow (h : Heap) (bp p : Nat) : Heap :=
  if headerAt p (h.mem p).size = bp then
    (h.setSize p ((h.mem p).size + (h.mem bp).size)).setPtr p (h.mem bp).ptr
  else
    h.setPtr p bp

def free (fuel : Nat) (h : Heap) (ap : Nat) : Option Heap :=
  let bp := ap - HEADERSIZE
  (freeSearch h.mem bp fuel h.freep).map (fun p =>
    (joinBelow (joinAbove h bp p) bp p).setFreep p)

---- Allocating

/- What `sbrk` returns for a number of bytes; `none` is its failure. -/
abbrev Sbrk := Nat → Option Nat

/- The units that `morecore` asks for. -/
def coreUnits (nu : Nat) : Nat := if nu < 4096 then 4096 else nu

/- The heap with the new block, and the result. -/
def morecore (sbrk : Sbrk) (fuel : Nat) (h : Heap) (nu : Nat) : Option (Heap × Nat) :=
  let nu := coreUnits nu
  match sbrk (nu * HEADERSIZE) with
  | none => some (h, 0)
  | some hp =>
    let h := { h.setSize hp nu with regions := h.regions ++ [⟨hp, nu⟩] }
    (free fuel h (headerAt hp 1)).map (fun h => (h, h.freep))

/- Allocate `nunits` from the block `p`. -/
def take (h : Heap) (nunits prevp p : Nat) : Heap × Nat :=
  if (h.mem p).size = nunits then
    ((h.setPtr prevp (h.mem p).ptr).setFreep prevp, headerAt p 1)
  else
    let rest := (h.mem p).size - nunits
    let q := headerAt p rest
    (((h.setSize p rest).setSize q nunits).setFreep prevp, headerAt q 1)

/- The loop of `malloc`; the result `0` is its failure. -/
def mallocLoop (sbrk : Sbrk) (nunits : Nat) : Nat → Heap → Nat → Nat → Option (Heap × Nat)
  | 0, _, _, _ => none
  | fuel + 1, h, prevp, p =>
    if (h.mem p).size ≥ nunits then
      some (take h nunits prevp p)
    else if p = h.freep then
      (morecore sbrk fuel h nunits).bind (fun (h, p) =>
        if p = 0 then some (h, 0) else mallocLoop sbrk nunits fuel h p (h.mem p).ptr)
    else
      mallocLoop sbrk nunits fuel h p (h.mem p).ptr

/- The units for a number of bytes, with the header. -/
def unitsFor (nbytes : Nat) : Nat := ((nbytes + HEADERSIZE - 1) / HEADERSIZE + 1) % 2 ^ 32

/- The free list is made at the first call. -/
def initHeap (base : Nat) (h : Heap) : Heap :=
  if h.freep = 0 then ((h.setPtr base base).setFreep base).setSize base 0 else h

def malloc (base : Nat) (sbrk : Sbrk) (fuel : Nat) (h : Heap) (nbytes : Nat) :
    Option (Heap × Nat) :=
  let h := initHeap base h
  mallocLoop sbrk (unitsFor nbytes) fuel h h.freep (h.mem h.freep).ptr

end Xv6.User

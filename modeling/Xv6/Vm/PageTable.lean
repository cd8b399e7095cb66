import Xv6.Vm.Kalloc

/-
  Page tables (`walk`, `walkaddr`, `mappages` and `uvmunmap`
  of `vm.c`).

  A page-table page holds 512 entries of eight bytes at its
  physical address. Loops that advance an address by
  `PGSIZE` recurse on the number of rounds: `walk` panics
  at `MAXVA`, long before such an address can wrap around.

  Key definitions include:
    * `walk`
    * `mappages`
    * `uvmunmap`
-/

namespace Xv6.Vm

---- Walking

/- The levels of `walk` above the last one. -/
def walkFrom (va : Nat) (alloc : Bool) : Nat → Nat → VmM Nat
| 0, pagetable => pure (pagetable + 8 * PX 0 va)
| level + 1, pagetable => do
  let pte := pagetable + 8 * PX (level + 1) va
  let w ← ld pte
  if w &&& PTE_V ≠ 0 then
    walkFrom va alloc level (PTE2PA w)
  else if alloc = false then
    pure 0
  else do
    let page ← kalloc
    if page = 0 then
      pure 0
    else do
      memset page 0 PGSIZE
      st pte (PA2PTE page ||| PTE_V)
      walkFrom va alloc level page

/- The address of the entry of `va`, or `0`. -/
def walk (pagetable va : Nat) (alloc : Bool) : VmM Nat :=
  if va ≥ MAXVA then throw .walk else walkFrom va alloc 2 pagetable

/- The physical address of a user page, or `0`. -/
def walkaddr (pagetable va : Nat) : VmM Nat :=
  if va ≥ MAXVA then
    pure 0
  else do
    let pte ← walk pagetable va false
    if pte = 0 then
      pure 0
    else do
      let w ← ld pte
      if w &&& PTE_V = 0 then
        pure 0
      else if w &&& PTE_U = 0 then pure 0 else pure (PTE2PA w)

---- Mapping

/-
  The loop of `mappages`, with the number of pages left. It
  ends at `last`; a range that wraps around never meets it
  and runs into the panic of `walk`.
-/
def mappagesFrom (pagetable last perm : Nat) : Nat → Nat → Nat → VmM Int
| 0, _, _ => throw .walk
| n + 1, a, pa => do
  let pte ← walk pagetable a true
  if pte = 0 then
    pure (-1)
  else do
    let w ← ld pte
    if w &&& PTE_V ≠ 0 then
      throw .mappagesRemap
    st pte (PA2PTE pa ||| perm ||| PTE_V)
    if a = last then
      pure 0
    else
      mappagesFrom pagetable last perm n ((a + PGSIZE) % UINT64) ((pa + PGSIZE) % UINT64)

def mappages (pagetable va size pa perm : Nat) : VmM Int := do
  if va % PGSIZE ≠ 0 then
    throw .mappagesVaNotAligned
  if size % PGSIZE ≠ 0 then
    throw .mappagesSizeNotAligned
  if size = 0 then
    throw .mappagesSize
  mappagesFrom pagetable ((va + size + UINT64 - PGSIZE) % UINT64) perm (size / PGSIZE) va pa

---- Unmapping

/- The rounds of a loop from `lo` up to `hi` by pages. -/
def pageSteps (lo hi : Nat) : Nat := (hi - lo + PGSIZE - 1) / PGSIZE

/- The loop of `uvmunmap`. -/
def uvmunmapFrom (kend pagetable : Nat) (doFree : Bool) : Nat → Nat → VmM Unit
| 0, _ => pure ()
| n + 1, a => do
  let pte ← walk pagetable a false
  if pte = 0 then
    throw .uvmunmapWalk
  let w ← ld pte
  if w &&& PTE_V = 0 then
    throw .uvmunmapNotMapped
  if PTE_FLAGS w = PTE_V then
    throw .uvmunmapNotALeaf
  if doFree = true then
    kfree kend (PTE2PA w)
  st pte 0
  uvmunmapFrom kend pagetable doFree n (a + PGSIZE)

def uvmunmap (kend pagetable va npages : Nat) (doFree : Bool) : VmM Unit := do
  if va % PGSIZE ≠ 0 then
    throw .uvmunmapNotAligned
  uvmunmapFrom kend pagetable doFree (pageSteps va ((va + npages * PGSIZE) % UINT64)) va

---- The Map A Page Table Denotes

/-
  The entry reached by `walk(pt, va, 0)`; absent if `walk`
  returns `0` or the entry is not valid.
-/
def lookup (s : Kmem) (pt va : Nat) : Option Nat :=
  match walk pt va false s with
  | .error _ => none
  | .ok (pte, s') =>
    if pte = 0 then
      none
    else if s'.mem.load pte 8 &&& PTE_V = 0 then none else some (s'.mem.load pte 8)

end Xv6.Vm

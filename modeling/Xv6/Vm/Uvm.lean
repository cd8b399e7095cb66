import Xv6.Vm.PageTable

/-
  User memory (the rest of `vm.c`): growing, shrinking,
  copying and freeing address spaces, and copying between
  kernel and user memory.

  Kernel buffers outside physical memory are byte lists; a
  copy that fails returns `none` where the source leaves a
  buffer that the caller does not use.

  Key definitions include:
    * `uvmalloc`
    * `uvmdealloc`
    * `freewalk`
-/

namespace Xv6.Vm

---- Growing And Shrinking

/- A `uint64` converted to `int` and back. -/
def toInt (x : Nat) : Nat :=
  if x % 2 ^ 32 < 2 ^ 31 then x % 2 ^ 32 else x % 2 ^ 32 + UINT64 - 2 ^ 32

def memmove (dst src n : Nat) : VmM Unit :=
  modify fun s => { s with mem := s.mem.write dst (s.mem.read src n) }

/- An empty page table, or `0`. -/
def uvmcreate : VmM Nat := do
  let pagetable ← kalloc
  if pagetable = 0 then
    pure 0
  else do
    memset pagetable 0 PGSIZE
    pure pagetable

/-
  Load `initcode` at address zero. The source writes to the
  page without a look at the pointer: a null pointer is a
  page fault in the kernel.
-/
def uvmfirst (pagetable : Nat) (src : List UInt8) : VmM Unit := do
  if src.length ≥ PGSIZE then
    throw .uvmfirstMoreThanAPage
  let mem ← kalloc
  if mem = 0 then
    throw .kerneltrap
  memset mem 0 PGSIZE
  let _ ← mappages pagetable 0 PGSIZE mem (PTE_W ||| PTE_R ||| PTE_X ||| PTE_U)
  modify fun s => { s with mem := s.mem.write mem src }

def uvmdealloc (kend pagetable oldsz newsz : Nat) : VmM Nat := do
  if newsz ≥ oldsz then
    pure oldsz
  else do
    if PGROUNDUP newsz < PGROUNDUP oldsz then
      let npages := toInt ((PGROUNDUP oldsz - PGROUNDUP newsz) / PGSIZE)
      uvmunmap kend pagetable (PGROUNDUP newsz) npages true
    pure newsz

/- The loop of `uvmalloc`; `oldsz` is rounded up. -/
def uvmallocFrom (kend pagetable oldsz newsz xperm : Nat) : Nat → Nat → VmM Nat
| 0, _ => pure newsz
| n + 1, a => do
  let mem ← kalloc
  if mem = 0 then do
    let _ ← uvmdealloc kend pagetable a oldsz
    pure 0
  else do
    memset mem 0 PGSIZE
    let r ← mappages pagetable a PGSIZE mem (PTE_R ||| PTE_U ||| xperm)
    if r ≠ 0 then do
      kfree kend mem
      let _ ← uvmdealloc kend pagetable a oldsz
      pure 0
    else
      uvmallocFrom kend pagetable oldsz newsz xperm n (a + PGSIZE)

/- The new size, or `0` if memory runs out. -/
def uvmalloc (kend pagetable oldsz newsz xperm : Nat) : VmM Nat :=
  if newsz < oldsz then
    pure oldsz
  else
    uvmallocFrom kend pagetable (PGROUNDUP oldsz) newsz xperm (pageSteps (PGROUNDUP oldsz) newsz)
      (PGROUNDUP oldsz)

---- Freeing

/- The loop of `freewalk` over the entries of one page. -/
def freewalkFrom (free : Nat → VmM Unit) (pagetable : Nat) : List Nat → VmM Unit
| [] => pure ()
| i :: is => do
  let pte ← ld (pagetable + 8 * i)
  if pte &&& PTE_V ≠ 0 ∧ pte &&& (PTE_R ||| PTE_W ||| PTE_X) = 0 then do
    free (PTE2PA pte)
    st (pagetable + 8 * i) 0
  else if pte &&& PTE_V ≠ 0 then
    throw .freewalkLeaf
  freewalkFrom free pagetable is

/-
  Free a tree of page-table pages. The source recurses as
  deep as the entries lead; the first argument bounds that,
  and `recursion` stands for going deeper.
-/
def freewalk (kend : Nat) : Nat → Nat → VmM Unit
| 0, _ => throw .recursion
| d + 1, pagetable => do
  freewalkFrom (freewalk kend d) pagetable (List.range 512)
  kfree kend pagetable

def uvmfree (kend pagetable sz : Nat) : VmM Unit := do
  if sz > 0 then
    uvmunmap kend pagetable 0 (PGROUNDUP sz / PGSIZE) true
  freewalk kend 3 pagetable

---- Copying An Address Space

/- The loop of `uvmcopy`. -/
def uvmcopyFrom (kend old new : Nat) : Nat → Nat → VmM Int
| 0, _ => pure 0
| n + 1, i => do
  let pte ← walk old i false
  if pte = 0 then
    throw .uvmcopyPteShouldExist
  let w ← ld pte
  if w &&& PTE_V = 0 then
    throw .uvmcopyPageNotPresent
  let mem ← kalloc
  if mem = 0 then do
    uvmunmap kend new 0 (i / PGSIZE) true
    pure (-1)
  else do
    memmove mem (PTE2PA w) PGSIZE
    let r ← mappages new i PGSIZE mem (PTE_FLAGS w)
    if r ≠ 0 then do
      kfree kend mem
      uvmunmap kend new 0 (i / PGSIZE) true
      pure (-1)
    else
      uvmcopyFrom kend old new n (i + PGSIZE)

def uvmcopy (kend old new sz : Nat) : VmM Int := uvmcopyFrom kend old new (pageSteps 0 sz) 0

/- Take user access from the stack guard page. -/
def uvmclear (pagetable va : Nat) : VmM Unit := do
  let pte ← walk pagetable va false
  if pte = 0 then
    throw .uvmclear
  let w ← ld pte
  st pte (clearU w)

---- Kernel And User Memory

/-
  The loop of `copyout`. Every round moves a byte at least,
  so the length of the source bounds the rounds.
-/
def copyoutFrom (pagetable : Nat) : Nat → Nat → List UInt8 → VmM Int
| 0, _, _ => pure 0
| n + 1, dstva, src =>
  if src.length = 0 then
    pure 0
  else if PGROUNDDOWN dstva ≥ MAXVA then
    pure (-1)
  else do
    let va0 := PGROUNDDOWN dstva
    let pte ← walk pagetable va0 false
    if pte = 0 then
      pure (-1)
    else do
      let w ← ld pte
      if w &&& PTE_V = 0 ∨ w &&& PTE_U = 0 ∨ w &&& PTE_W = 0 then
        pure (-1)
      else do
        let k := min (PGSIZE - (dstva - va0)) src.length
        modify fun s => { s with mem := s.mem.write (PTE2PA w + (dstva - va0)) (src.take k) }
        copyoutFrom pagetable n (va0 + PGSIZE) (src.drop k)

def copyout (pagetable dstva : Nat) (src : List UInt8) : VmM Int :=
  copyoutFrom pagetable src.length dstva src

/- The loop of `copyin`, with the bytes still to copy. -/
def copyinFrom (pagetable : Nat) : Nat → Nat → Nat → VmM (Option (List UInt8))
| 0, _, _ => pure (some [])
| n + 1, srcva, len =>
  if len = 0 then
    pure (some [])
  else do
    let va0 := PGROUNDDOWN srcva
    let pa0 ← walkaddr pagetable va0
    if pa0 = 0 then
      pure none
    else do
      let k := min (PGSIZE - (srcva - va0)) len
      let s ← get
      let rest ← copyinFrom pagetable n ((va0 + PGSIZE) % UINT64) (len - k)
      pure (rest.map (s.mem.read (pa0 + (srcva - va0)) k ++ ·))

def copyin (pagetable srcva len : Nat) : VmM (Option (List UInt8)) :=
  copyinFrom pagetable len srcva len

/- The loop of `copyinstr`; the result has no final zero. -/
def copyinstrFrom (pagetable : Nat) : Nat → Nat → Nat → VmM (Option (List UInt8))
| 0, _, _ => pure none
| n + 1, srcva, max =>
  if max = 0 then
    pure none
  else do
    let va0 := PGROUNDDOWN srcva
    let pa0 ← walkaddr pagetable va0
    if pa0 = 0 then
      pure none
    else do
      let k := min (PGSIZE - (srcva - va0)) max
      let s ← get
      let part := s.mem.read (pa0 + (srcva - va0)) k
      let str := part.takeWhile (· ≠ 0)
      if str.length < part.length then
        pure (some str)
      else do
        let rest ← copyinstrFrom pagetable n ((va0 + PGSIZE) % UINT64) (max - k)
        pure (rest.map (part ++ ·))

def copyinstr (pagetable srcva max : Nat) : VmM (Option (List UInt8)) :=
  copyinstrFrom pagetable max srcva max

end Xv6.Vm

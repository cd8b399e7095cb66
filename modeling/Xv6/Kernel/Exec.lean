import Xv6.Kernel.Proc

/-
  Running a program (`exec.c` and `sys_exec`).

  The file system enters as the bytes that `readi` returns
  for an offset and a length: any bytes, and fewer than
  asked for when the file ends or a block cannot be read.

  `exec` cleans up behind its `goto bad` from several
  places. Here the loops return whether they went well and
  the size reached so far, which the cleanup needs.

  Key definitions include:
    * `loadseg`
    * `loadSegments`
    * `buildImage`
-/

namespace Xv6.Kernel

open Vm

---- Executable Files

/- What `readi` returns for an offset and a length. -/
abbrev Inode := Nat → Nat → List UInt8

def readi (ip : Inode) (off n : Nat) : List UInt8 := (ip off n).take n

/- The field of `n` bytes at an offset of a header. -/
def field (header : List UInt8) (off n : Nat) : Nat := Bytes.ofLe ((header.drop off).take n)

/- `sizeof(struct elfhdr)` and `sizeof(struct proghdr)`. -/
def ELFHDRSIZE : Nat := 64
def PROGHDRSIZE : Nat := 56

def ELF_MAGIC : Nat := 0x464C457F
def ELF_PROG_LOAD : Nat := 1

def flags2perm (flags : Nat) : Nat :=
  (if flags &&& 1 ≠ 0 then PTE_X else 0) ||| (if flags &&& 2 ≠ 0 then PTE_W else 0)

---- Loading Segments

/- The loop of `loadseg`; `i` and `sz` are 32-bit numbers. -/
def loadsegFrom (pagetable va : Nat) (ip : Inode) (offset sz : Nat) : Nat → Nat → VmM Int
| 0, _ => pure 0
| k + 1, i => do
  let pa ← walkaddr pagetable ((va + i) % UINT64)
  if pa = 0 then
    throw .loadsegAddressShouldExist
  let n := min (sz - i) PGSIZE
  let bytes := readi ip ((offset + i) % 2 ^ 32) n
  modify fun s => { s with mem := s.mem.write pa bytes }
  if bytes.length ≠ n then pure (-1) else loadsegFrom pagetable va ip offset sz k (i + PGSIZE)

def loadseg (pagetable va : Nat) (ip : Inode) (offset sz : Nat) : VmM Int :=
  loadsegFrom pagetable va ip (offset % 2 ^ 32) (sz % 2 ^ 32) (pageSteps 0 (sz % 2 ^ 32)) 0

/-
  The loop over the program headers, with `n` headers to
  go. The result says whether all were loaded, and the size
  of the image.
-/
def loadSegments (kend pagetable : Nat) (ip : Inode) : Nat → Nat → Nat → VmM (Bool × Nat)
| 0, _, sz => pure (true, sz)
| n + 1, off, sz =>
  let ph := readi ip off PROGHDRSIZE
  let flags := field ph 4 4
  let vaddr := field ph 16 8
  let filesz := field ph 32 8
  let memsz := field ph 40 8
  if ph.length ≠ PROGHDRSIZE then
    pure (false, sz)
  else if field ph 0 4 ≠ ELF_PROG_LOAD then
    loadSegments kend pagetable ip n ((off + PROGHDRSIZE) % 2 ^ 32) sz
  else if memsz < filesz then
    pure (false, sz)
  else if (vaddr + memsz) % UINT64 < vaddr then
    pure (false, sz)
  else if vaddr % PGSIZE ≠ 0 then
    pure (false, sz)
  else do
    let sz1 ← uvmalloc kend pagetable sz ((vaddr + memsz) % UINT64) (flags2perm flags)
    if sz1 = 0 then
      pure (false, sz)
    else do
      let r ← loadseg pagetable vaddr ip (field ph 8 8) filesz
      if r < 0 then
        pure (false, sz1)
      else
        loadSegments kend pagetable ip n ((off + PROGHDRSIZE) % 2 ^ 32) sz1

---- The User Stack

/- The string at an address of a page the kernel holds. -/
def strAt (a : Nat) : VmM (List UInt8) := do
  let s ← get
  pure ((s.mem.read a PGSIZE).takeWhile (· ≠ 0))

/- The stack pointer after a push of `n` bytes, aligned. -/
def pushed (sp n : Nat) : Nat := (sp + UINT64 - n) % UINT64 / 16 * 16

/- Push some bytes; the result is the new stack pointer. -/
def push (pagetable stackbase sp : Nat) (bytes : List UInt8) : VmM (Option Nat) :=
  if pushed sp bytes.length < stackbase then
    pure none
  else do
    let r ← copyout pagetable (pushed sp bytes.length) bytes
    if r < 0 then pure none else pure (some (pushed sp bytes.length))

/- Push the argument strings. The result has the stack pointer and the addresses of the strings. -/
def pushArgs (pagetable stackbase : Nat) : List Nat → Nat → List Nat → VmM (Option (Nat × List Nat))
| [], sp, ustack => pure (some (sp, ustack))
| arg :: argv, sp, ustack =>
  if ustack.length ≥ MAXARG then
    pure none
  else do
    let str ← strAt arg
    match ← push pagetable stackbase sp (str ++ [0]) with
    | none => pure none
    | some sp => pushArgs pagetable stackbase argv sp (ustack ++ [sp])

/-
  The stack with the arguments and the vector of their
  addresses. The result has the stack pointer and the
  number of arguments.
-/
def pushStack (pagetable stackbase sp : Nat) (argv : List Nat) : VmM (Option (Nat × Nat)) := do
  match ← pushArgs pagetable stackbase argv sp [] with
  | none => pure none
  | some (sp, ustack) => do
    match ← push pagetable stackbase sp ((ustack ++ [0]).flatMap (Bytes.le 8)) with
    | none => pure none
    | some sp => pure (some (sp, ustack.length))

---- The New Address Space

/- What `exec` commits to. -/
structure Image where
  pagetable : Nat
  sz : Nat
  sp : Nat
  argc : Nat

/- Guard page, stack and arguments on top of an image of the rounded size `sz`. -/
def buildStack (L : Layout) (pagetable sz : Nat) (argv : List Nat) : VmM (Option Image) := do
  let sz1 ← uvmalloc L.kend pagetable sz (sz + (USERSTACK + 1) * PGSIZE) PTE_W
  if sz1 = 0 then do
    procFreepagetable L.kend pagetable sz
    pure none
  else do
    uvmclear pagetable (sz1 - (USERSTACK + 1) * PGSIZE)
    match ← pushStack pagetable (sz1 - USERSTACK * PGSIZE) sz1 argv with
    | none => do
      procFreepagetable L.kend pagetable sz1
      pure none
    | some (sp, argc) =>
      pure (some
        { pagetable := pagetable
          sz := sz1
          sp := sp
          argc := argc })

/- Segments, stack and arguments in a new page table. -/
def buildImage (L : Layout) (trapframe : Nat) (ip : Inode) (elf : List UInt8) (argv : List Nat) :
    VmM (Option Image) := do
  let pagetable ← procPagetable L trapframe
  if pagetable = 0 then
    pure none
  else do
    let (ok, sz) ← loadSegments L.kend pagetable ip (field elf 56 2) (field elf 32 8 % 2 ^ 32) 0
    if ok = false then do
      procFreepagetable L.kend pagetable sz
      pure none
    else
      buildStack L pagetable (PGROUNDUP sz) argv

/- `exec` of the file that `namei` found, if it found one. -/
def exec (L : Layout) (i : Nat) (ip : Option Inode) (argv : List Nat) : KernelM Int := do
  match ip with
  | none => pure (-1)
  | some ip => do
    let elf := readi ip 0 ELFHDRSIZE
    if elf.length ≠ ELFHDRSIZE then
      pure (-1)
    else if field elf 0 4 ≠ ELF_MAGIC then
      pure (-1)
    else do
      let p ← getProc i
      match ← vm (buildImage L p.trapframe ip elf argv) with
      | none => pure (-1)
      | some image => do
        vm (st (p.trapframe + A1) image.sp)
        setProc i fun p =>
          { p with
            pagetable := image.pagetable
            sz := image.sz
            guard := some (image.sz / PGSIZE - (USERSTACK + 1)) }
        vm (st (p.trapframe + EPC) (field elf 24 8))
        vm (st (p.trapframe + SP) image.sp)
        vm (procFreepagetable L.kend p.pagetable p.sz)
        pure image.argc

---- The System Call

/- The user word at an address, or `none`. -/
def fetchaddr (p : Proc) (addr : Nat) : VmM (Option Nat) :=
  if addr ≥ p.sz ∨ (addr + 8) % UINT64 > p.sz then
    pure none
  else do
    let bytes ← copyin p.pagetable addr 8
    pure (bytes.map Bytes.ofLe)

/-
  The loop of `sys_exec` over the argument vector, with
  room for `n` more. Each string is copied to a page of its
  own.
-/
def fetchArgs (p : Proc) (uargv : Nat) : Nat → List Nat → VmM (Bool × List Nat)
| 0, argv => pure (false, argv)
| n + 1, argv => do
  match ← fetchaddr p ((uargv + 8 * argv.length) % UINT64) with
  | none => pure (false, argv)
  | some uarg =>
    if uarg = 0 then
      pure (true, argv)
    else do
      let page ← kalloc
      if page = 0 then
        pure (false, argv)
      else do
        match ← copyinstr p.pagetable uarg PGSIZE with
        | none => pure (false, argv ++ [page])
        | some str => do
          modify fun s => { s with mem := s.mem.write page (str ++ [0]) }
          fetchArgs p uargv n (argv ++ [page])

def freeArgs (kend : Nat) : List Nat → VmM Unit
| [] => pure ()
| page :: argv => do
  kfree kend page
  freeArgs kend argv

/- `ip` is what `namei` finds for the path. -/
def sysExec (L : Layout) (i path uargv : Nat) (ip : Option Inode) : KernelM Int := do
  let p ← getProc i
  match ← vm (copyinstr p.pagetable path MAXPATH) with
  | none => pure (-1)
  | some _ => do
    let (ok, argv) ← vm (fetchArgs p uargv MAXARG [])
    if ok = false then do
      vm (freeArgs L.kend argv)
      pure (-1)
    else do
      let ret ← exec L i ip argv
      vm (freeArgs L.kend argv)
      pure ret

end Xv6.Kernel

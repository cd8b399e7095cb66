import Xv6.Lib.Prog
import Xv6.Lib.Memory
import Xv6.Vm.Riscv
import Mathlib.Data.Multiset.UnionInter

/-
  The physical page allocator (`kalloc.c`).

  A free page holds the address of the next free page in
  its first eight bytes, so the free list lives in the
  memory it manages. `Heap` says that the list is intact
  and that its pages and the pages owned elsewhere are all
  different.

  Correctness is proven by:
    * `kalloc_spec`
    * `kfree_spec`
-/

namespace Xv6.Vm

variable {S : Multiset Nat} {m m' : Memory} {p o : Nat}

---- Memory And Panics

/- Physical memory and `kmem.freelist`. -/
structure Kmem where
  mem : Memory
  freelist : Nat

/- The panics of memory management, by their messages. -/
inductive Panic where
  | kfree
  | walk
  | mappagesVaNotAligned
  | mappagesSizeNotAligned
  | mappagesSize
  | mappagesRemap
  | uvmunmapNotAligned
  | uvmunmapWalk
  | uvmunmapNotMapped
  | uvmunmapNotALeaf
  | uvmfirstMoreThanAPage
  | freewalkLeaf
  | recursion
  | uvmcopyPteShouldExist
  | uvmcopyPageNotPresent
  | uvmclear
  | loadsegAddressShouldExist
  | filedup
  | fileclose
  | initExiting
  | kerneltrap
deriving DecidableEq

/- Kernel code that works on physical memory. -/
abbrev VmM (α : Type) := Prog Kmem Panic α

/- Read a 64-bit word. -/
def ld (a : Nat) : VmM Nat := do
  let s ← get
  pure (s.mem.load a 8)

/- Write a 64-bit word. -/
def st (a v : Nat) : VmM Unit := modify fun s => { s with mem := s.mem.store a 8 v }

def memset (dst : Nat) (c : UInt8) (n : Nat) : VmM Unit :=
  modify fun s => { s with mem := s.mem.fill dst n c }

---- Allocation

/- Take a page off the free list; `0` if there is none. -/
def kalloc : VmM Nat := do
  let s ← get
  let r := s.freelist
  if r = 0 then
    pure 0
  else do
    set { s with freelist := s.mem.load r 8 }
    memset r 5 PGSIZE
    pure r

/- Give a page back. `kend` is the linker symbol `end`. -/
def kfree (kend pa : Nat) : VmM Unit := do
  if pa % PGSIZE ≠ 0 ∨ pa < kend ∨ pa ≥ PHYSTOP then
    throw .kfree
  memset pa 1 PGSIZE
  let s ← get
  st pa s.freelist
  modify fun s => { s with freelist := pa }

---- Pages And Frames

/- The address of a page other than page zero. -/
structure IsPage (p : Nat) : Prop where
  ne_zero : p ≠ 0
  aligned : p % PGSIZE = 0
  lt : p < 2 ^ 64

/- Memory changes in the pages of `S` only. -/
def Frame (S : Multiset Nat) (m m' : Memory) : Prop := ∀ a, PGROUNDDOWN a ∉ S → m' a = m a

theorem Frame.refl (S : Multiset Nat) (m : Memory) : Frame S m m := fun _ _ => rfl

theorem Frame.trans {m₁ m₂ : Memory} (h₁ : Frame S m m₁) (h₂ : Frame S m₁ m₂) : Frame S m m₂ :=
  fun a ha => (h₂ a ha).trans (h₁ a ha)

theorem Frame.mono {T : Multiset Nat} (h : Frame S m m') (hSub : ∀ p ∈ S, p ∈ T) : Frame T m m' :=
  fun a ha => h a (fun hIn => ha (hSub _ hIn))

theorem pgrounddown_add (hp : p % PGSIZE = 0) (ho : o < PGSIZE) : PGROUNDDOWN (p + o) = p := by
  unfold PGROUNDDOWN PGSIZE at *
  omega

/- Words of a page outside the frame keep their value. -/
theorem Frame.load {k : Nat} (h : Frame S m m') (hp : p % PGSIZE = 0) (hOut : p ∉ S)
    (ho : o + k ≤ PGSIZE) : m'.load (p + o) k = m.load (p + o) k := by
  apply Memory.load_congr
  intro i hi
  apply h
  rw [Nat.add_assoc, pgrounddown_add hp (by omega)]
  exact hOut

theorem frame_write (m : Memory) (xs : List UInt8) (hp : p % PGSIZE = 0)
    (ho : o + xs.length ≤ PGSIZE) : Frame {p} m (m.write (p + o) xs) := by
  intro a ha
  apply Memory.write_other
  have hNe : PGROUNDDOWN a ≠ p := by simpa using ha
  unfold PGROUNDDOWN PGSIZE at *
  omega

theorem frame_store (m : Memory) {k : Nat} (v : Nat) (hp : p % PGSIZE = 0) (ho : o + k ≤ PGSIZE) :
    Frame {p} m (m.store (p + o) k v) := frame_write m _ hp (by simpa using ho)

theorem frame_fill (m : Memory) (c : UInt8) (hp : p % PGSIZE = 0) :
    Frame {p} m (m.fill p PGSIZE c) := by
  intro a ha
  apply Memory.fill_other
  have hNe : PGROUNDDOWN a ≠ p := by simpa using ha
  unfold PGROUNDDOWN PGSIZE at *
  omega

---- The Free List

/- The pages linked from `h` on, in order. -/
def Chain (m : Memory) : Nat → List Nat → Prop
| h, [] => h = 0
| h, p :: l => h = p ∧ Chain m (m.load p 8) l

instance decidableChain (m : Memory) : ∀ h l, Decidable (Chain m h l)
| h, [] => inferInstanceAs (Decidable (h = 0))
| h, p :: l =>
  have := decidableChain m (m.load p 8) l
  inferInstanceAs (Decidable (h = p ∧ Chain m (m.load p 8) l))

theorem Chain.frame {h : Nat} {l : List Nat} (hChain : Chain m h l) (hFrame : Frame S m m')
    (hPage : ∀ p ∈ l, p % PGSIZE = 0) (hOut : ∀ p ∈ l, p ∉ S) : Chain m' h l := by
  induction l generalizing h with
  | nil => exact hChain
  | cons p l ih =>
    rcases hChain with ⟨hHead, hRest⟩
    have hLoad : m'.load p 8 = m.load p 8 :=
      hFrame.load (o := 0) (hPage p (by simp)) (hOut p (by simp)) (by decide)
    refine ⟨hHead, ?_⟩
    rw [hLoad]
    exact ih hRest (fun q hq => hPage q (List.mem_cons_of_mem p hq))
      (fun q hq => hOut q (List.mem_cons_of_mem p hq))

/- The free list is intact, and `own` is in use elsewhere. -/
structure Heap (s : Kmem) (l : List Nat) (own : Multiset Nat) : Prop where
  chain : Chain s.mem s.freelist l
  nodup : ((l : Multiset Nat) + own).Nodup
  pages : ∀ p ∈ (l : Multiset Nat) + own, IsPage p

theorem Heap.isPage_own {s : Kmem} {l : List Nat} {own : Multiset Nat} (h : Heap s l own)
    (hp : p ∈ own) : IsPage p := h.pages p (Multiset.mem_add.mpr (.inr hp))

theorem Heap.isPage_free {s : Kmem} {l : List Nat} {own : Multiset Nat} (h : Heap s l own)
    (hp : p ∈ l) : IsPage p := h.pages p (Multiset.mem_add.mpr (.inl hp))

/- A free page is not owned. -/
theorem Heap.not_mem_own {s : Kmem} {l : List Nat} {own : Multiset Nat} (h : Heap s l own)
    (hp : p ∈ l) : p ∉ own := by
  have hDisjoint := (Multiset.nodup_add.mp h.nodup).2.2
  exact Multiset.disjoint_left.mp hDisjoint hp

/- Writing to owned pages leaves the free list intact. -/
theorem Heap.write {s : Kmem} {l : List Nat} {own : Multiset Nat} (h : Heap s l own)
    (hSub : ∀ p ∈ S, p ∈ own) (hFrame : Frame S s.mem m') : Heap { s with mem := m' } l own := by
  refine ⟨?_, h.nodup, h.pages⟩
  refine h.chain.frame hFrame ?_ ?_
  · intro p hp
    exact (h.isPage_free hp).aligned
  · intro p hp hIn
    exact h.not_mem_own hp (hSub p hIn)

theorem Heap.own_eq {s : Kmem} {l : List Nat} {own own' : Multiset Nat} (h : Heap s l own)
    (hEq : own = own') : Heap s l own' := hEq ▸ h

---- Specifications

variable {s : Kmem} {l : List Nat} {own : Multiset Nat} {E : Panic → Prop}

theorem kalloc_spec {Q : Nat → Kmem → Prop} (h : Heap s l own) (hNone : l = [] → Q 0 s)
    (hSome : ∀ p l' s', l = p :: l' → Heap s' l' (p ::ₘ own) → Frame {p} s.mem s'.mem → Q p s') :
    Prog.wp kalloc Q E s := by
  have hChain := h.chain
  simp only [kalloc, memset, Prog.wp_bind, Prog.wp_get, Prog.wp_ite]
  cases l with
  | nil =>
    have hZero : s.freelist = 0 := hChain
    refine ⟨fun _ => ?_, fun hNe => absurd hZero hNe⟩
    rw [Prog.wp_pure]
    exact hNone rfl
  | cons p l' =>
    rcases hChain with ⟨hHead, hRest⟩
    have hPage := h.isPage_free (p := p) (by simp)
    rw [hHead]
    refine ⟨fun hZero => absurd hZero hPage.ne_zero, fun _ => ?_⟩
    simp only [Prog.wp_set, Prog.wp_modify, Prog.wp_pure]
    have hFill := frame_fill s.mem 5 hPage.aligned
    have hSwap :
        ((p :: l' : List Nat) : Multiset Nat) + own = (l' : Multiset Nat) + (p ::ₘ own) := by
      rw [← Multiset.cons_coe, Multiset.cons_add, Multiset.add_cons]
    have hNodup := h.nodup
    have hPages := h.pages
    rw [hSwap] at hNodup hPages
    refine hSome p l' _ rfl ⟨?_, hNodup, hPages⟩ hFill
    refine hRest.frame hFill ?_ ?_
    · intro q hq
      exact (h.isPage_free (List.mem_cons_of_mem p hq)).aligned
    · intro q hq hEq
      rw [Multiset.mem_singleton.mp hEq] at hq
      have hList : (p :: l').Nodup := (Multiset.nodup_add.mp h.nodup).1
      exact (List.nodup_cons.mp hList).1 hq

/- The pages `kinit` hands to the allocator. -/
structure Ram (kend p : Nat) : Prop where
  aligned : p % PGSIZE = 0
  low : kend ≤ p
  high : p < PHYSTOP

theorem kfree_spec {kend : Nat} {Q : Unit → Kmem → Prop} (h : Heap s l (p ::ₘ own))
    (hRam : Ram kend p) (hPost : ∀ s', Heap s' (p :: l) own → Frame {p} s.mem s'.mem → Q () s') :
    Prog.wp (kfree kend p) Q E s := by
  have hPage := h.isPage_own (p := p) (by simp)
  have hBad : ¬ (p % PGSIZE ≠ 0 ∨ p < kend ∨ p ≥ PHYSTOP) := by
    have hAligned := hRam.aligned
    have hLow := hRam.low
    have hHigh := hRam.high
    omega
  simp only [kfree, memset, st, if_neg hBad, Prog.wp_bind, Prog.wp_get, Prog.wp_modify]
  have hFill := frame_fill s.mem 1 hPage.aligned
  have hStore :=
    frame_store (s.mem.fill p PGSIZE 1) (o := 0) (k := 8) s.freelist hPage.aligned (by decide)
  have hFrame := hFill.trans hStore
  have hSwap : (l : Multiset Nat) + (p ::ₘ own) = ((p :: l : List Nat) : Multiset Nat) + own := by
    rw [← Multiset.cons_coe, Multiset.cons_add, Multiset.add_cons]
  have hNodup := h.nodup
  have hPages := h.pages
  rw [hSwap] at hNodup hPages
  refine hPost _ ⟨⟨rfl, ?_⟩, hNodup, hPages⟩ hFrame
  -- The list behind `p` is untouched, and `p` holds its
  -- old head.
  have hLoad : ((s.mem.fill p PGSIZE 1).store p 8 s.freelist).load p 8 = s.freelist := by
    rw [Memory.load_store_same]
    apply Nat.mod_eq_of_lt
    cases l with
    | nil =>
      have hZero : s.freelist = 0 := h.chain
      rw [hZero]
      decide
    | cons q l' =>
      rw [h.chain.1]
      exact (h.isPage_free (p := q) (by simp)).lt
  rw [hLoad]
  refine h.chain.frame hFrame ?_ ?_
  · intro q hq
    exact (h.isPage_free hq).aligned
  · intro q hq hEq
    rw [Multiset.mem_singleton.mp hEq] at hq
    exact h.not_mem_own hq (by simp)

end Xv6.Vm

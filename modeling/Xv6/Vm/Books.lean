import Xv6.Vm.Map
import Mathlib.Tactic.Abel

/-
  Accounting for physical memory.

  `Books` says that the free list and the pages in use add
  up to the pages the kernel was given. A step on one page
  table is stated with the rest `R` of the pages in use: it
  keeps the books and does not write to `R`.

  The rules used by name are:
    * `kalloc_books`
    * `kfree_books`
    * `mappages_one`
-/

namespace Xv6.Vm

open Prog

variable {m m' : Memory}

---- The Pages Of The Machine

/- What the linker decides: the end of the kernel, and the page of the trampoline in its text. -/
structure Layout where
  kend : Nat
  trampoline : Nat
  base_le : KERNBASE ≤ kend
  le_top : kend ≤ PHYSTOP
  aligned : trampoline % PGSIZE = 0
  ne_zero : trampoline ≠ 0
  below : trampoline < kend

/- The pages `kinit` gives to the allocator. -/
def ram (L : Layout) : Multiset Nat :=
  ((List.range
    ((PHYSTOP - PGROUNDUP L.kend) / PGSIZE)).map
      (fun i => PGROUNDUP L.kend + i * PGSIZE) : List Nat)

theorem mem_ram {L : Layout} {p : Nat} : p ∈ ram L ↔ Ram L.kend p := by
  have hLow := L.base_le
  have hHigh := L.le_top
  simp only [ram, Multiset.mem_coe, List.mem_map, List.mem_range]
  unfold PGROUNDUP UINT64 PHYSTOP KERNBASE PGSIZE at *
  constructor
  · rintro ⟨i, hi, rfl⟩
    refine ⟨?_, ?_, ?_⟩
    · unfold PGSIZE
      omega
    · omega
    · unfold PHYSTOP KERNBASE
      omega
  · rintro ⟨hAligned, hBase, hTop⟩
    unfold PGSIZE PHYSTOP KERNBASE at *
    refine ⟨(p - (L.kend + 4096 - 1) % 2 ^ 64 / 4096 * 4096) / 4096, ?_, ?_⟩
    · omega
    · omega

theorem nodup_ram (L : Layout) : (ram L).Nodup := by
  refine List.Nodup.map ?_ List.nodup_range
  intro i j hij
  simp only [PGSIZE] at hij
  omega

theorem card_ram_le (L : Layout) : (ram L).card ≤ 2 ^ 15 := by
  have hLow := L.base_le
  have hHigh := L.le_top
  simp only [ram, Multiset.coe_card, List.length_map, List.length_range]
  unfold PGROUNDUP UINT64 PHYSTOP KERNBASE PGSIZE at *
  omega

theorem Ram.isPage {L : Layout} {p : Nat} (h : Ram L.kend p) : IsPage p := by
  have hBase := L.base_le
  have hLow := h.low
  have hHigh := h.high
  refine ⟨?_, h.aligned, ?_⟩
  · unfold KERNBASE at *
    omega
  · unfold PHYSTOP KERNBASE at *
    omega

---- Books And Kept Pages

/- Free pages and pages in use add up. -/
def Books (L : Layout) (s : Kmem) (own : Multiset Nat) : Prop :=
  ∃ l : List Nat, Chain s.mem s.freelist l ∧ (l : Multiset Nat) + own = ram L

/- The pages in `R` are not written. -/
def Keeps (R : Multiset Nat) (m m' : Memory) : Prop := ∀ a, PGROUNDDOWN a ∈ R → m' a = m a

theorem Keeps.refl (R : Multiset Nat) (m : Memory) : Keeps R m m := fun _ _ => rfl

theorem Keeps.trans {R : Multiset Nat} {m₁ m₂ : Memory} (h₁ : Keeps R m m₁) (h₂ : Keeps R m₁ m₂) :
    Keeps R m m₂ := fun a ha => (h₂ a ha).trans (h₁ a ha)

theorem Keeps.mono {R T : Multiset Nat} (h : Keeps T m m') (hSub : ∀ p ∈ R, p ∈ T) : Keeps R m m' :=
  fun a ha => h a (hSub _ ha)

theorem Frame.keeps {S R : Multiset Nat} (h : Frame S m m') (hOut : ∀ p ∈ R, p ∉ S) :
    Keeps R m m' := fun a ha => h a (hOut _ ha)

theorem Keeps.load {R : Multiset Nat} {p o k : Nat} (h : Keeps R m m') (hp : p % PGSIZE = 0)
    (hIn : p ∈ R) (ho : o + k ≤ PGSIZE) : m'.load (p + o) k = m.load (p + o) k := by
  apply Memory.load_congr
  intro i hi
  apply h
  rw [Nat.add_assoc, pgrounddown_add hp (by omega)]
  exact hIn

theorem Keeps.sameEntries {R : Multiset Nat} {pt : Nat} (h : Keeps R m m')
    (hPage : ∀ p ∈ tree m pt, p % PGSIZE = 0) (hIn : ∀ p ∈ tree m pt, p ∈ R) :
    SameEntries m m' pt := by
  intro p hp i hi
  refine h.load (hPage p hp) (hIn p hp) ?_
  unfold PGSIZE
  omega

variable {L : Layout} {s s' : Kmem} {own R : Multiset Nat} {E : Panic → Prop} {p : Nat}

section

variable (h : Books L s own)
include h

theorem Books.own_eq {own' : Multiset Nat} (hEq : own = own') : Books L s own' := hEq ▸ h

theorem Books.mem_ram (hp : p ∈ own) : p ∈ ram L := by
  rcases h with ⟨l, _, hSum⟩
  rw [← hSum]
  exact Multiset.mem_add.mpr (.inr hp)

theorem Books.isRam (hp : p ∈ own) : Ram L.kend p := Vm.mem_ram.mp (h.mem_ram hp)

theorem Books.nodup : own.Nodup := by
  rcases h with ⟨l, _, hSum⟩
  have hRam := nodup_ram L
  rw [← hSum] at hRam
  exact (Multiset.nodup_add.mp hRam).2.1

theorem Books.card_le : own.card ≤ 2 ^ 15 := by
  rcases h with ⟨l, _, hSum⟩
  have hRam := card_ram_le L
  rw [← hSum, Multiset.card_add] at hRam
  omega

/- The books as the rules for single pages need them. -/
theorem Books.heap : ∃ l, Heap s l own ∧ (l : Multiset Nat) + own = ram L := by
  rcases h with ⟨l, hChain, hSum⟩
  refine ⟨l, ⟨hChain, ?_, ?_⟩, hSum⟩
  · rw [hSum]
    exact nodup_ram L
  · intro p hp
    rw [hSum] at hp
    exact (Vm.mem_ram.mp hp).isPage

end

theorem Heap.books {l : List Nat} (h : Heap s l own) (hSum : (l : Multiset Nat) + own = ram L) :
    Books L s own := ⟨l, h.chain, hSum⟩

/- Writing to a page in use keeps the books. -/
theorem Books.write {m' : Memory} (h : Books L s own) (hp : p ∈ own) (hFrame : Frame {p} s.mem m') :
    Books L { s with mem := m' } own := by
  rcases h.heap with ⟨l, hHeap, hSum⟩
  refine (hHeap.write ?_ hFrame).books hSum
  intro q hq
  rw [Multiset.mem_singleton.mp hq]
  exact hp

/- A page in use is written, the others are kept. -/
theorem Frame.keeps_rest {m m' : Memory} (hFrame : Frame {p} m m') (hNodup : (p ::ₘ R).Nodup) :
    Keeps R m m' := by
  refine hFrame.keeps ?_
  intro q hq hEq
  rw [Multiset.mem_singleton.mp hEq] at hq
  exact (Multiset.nodup_cons.mp hNodup).1 hq

theorem kalloc_books {Q : Nat → Kmem → Prop} (h : Books L s own) (hNone : Q 0 s)
    (hSome : ∀ p s', Books L s' (p ::ₘ own) → Keeps own s.mem s'.mem → Q p s') :
    wp kalloc Q E s := by
  rcases h.heap with ⟨l, hHeap, hSum⟩
  refine kalloc_spec hHeap (fun _ => hNone) ?_
  intro p l' s' hl hHeap' hFrame
  have hBooks : Books L s' (p ::ₘ own) := by
    refine hHeap'.books ?_
    rw [← hSum, hl, ← Multiset.cons_coe, Multiset.cons_add, Multiset.add_cons]
  exact hSome p s' hBooks (hFrame.keeps_rest hBooks.nodup)

theorem kfree_books {Q : Unit → Kmem → Prop} (h : Books L s (p ::ₘ own))
    (hPost : ∀ s', Books L s' own → Keeps own s.mem s'.mem → Q () s') :
    wp (kfree L.kend p) Q E s := by
  have hRam : Ram L.kend p := h.isRam (by simp)
  have hNodup := h.nodup
  rcases h.heap with ⟨l, hHeap, hSum⟩
  refine kfree_spec hHeap hRam ?_
  intro s' hHeap' hFrame
  refine hPost s' (hHeap'.books ?_) (hFrame.keeps_rest hNodup)
  rw [← hSum, ← Multiset.cons_coe, Multiset.cons_add, Multiset.add_cons]

---- Page Tables On The Books

/- An entry that `freewalk` takes for an inner one. -/
def Interior (w : Nat) : Prop := w &&& (PTE_R ||| PTE_W ||| PTE_X) = 0

theorem interior_link (r : Nat) : Interior (PA2PTE r ||| PTE_V) := by
  have hHigh : PA2PTE r &&& (PTE_R ||| PTE_W ||| PTE_X) = 0 := by
    apply Nat.eq_of_testBit_eq
    intro i
    have hMask : 10 ≤ i → (PTE_R ||| PTE_W ||| PTE_X).testBit i = false := by
      intro hi
      apply Nat.testBit_lt_two_pow
      have hPow : 2 ^ 10 ≤ 2 ^ i := Nat.pow_le_pow_right (by decide) hi
      have hSmall : PTE_R ||| PTE_W ||| PTE_X < 2 ^ 10 := by decide
      omega
    by_cases hi : 10 ≤ i
    · simp [hMask hi]
    · simp [PA2PTE, Nat.testBit_shiftLeft, hi]
  unfold Interior
  rw [Nat.and_or_distrib_right, hHigh]
  decide

/- A page table with the leaf map `f`, and the pages `R` in use elsewhere. -/
structure Table (L : Layout) (s : Kmem) (pt : Nat) (f : Nat → Option Nat) (R : Multiset Nat) :
    Prop where
  books : Books L s (tree s.mem pt + R)
  plain : Plain Interior s.mem pt
  map : leaf s.mem pt = f

variable {pt : Nat} {f g : Nat → Option Nat} {l l' : List Nat} {R' : Multiset Nat} {v : Nat}

theorem Table.pageTable (h : Table L s pt f R) :
    ∃ l, PageTable Interior s pt f l R ∧ (l : Multiset Nat) + (tree s.mem pt + R) = ram L := by
  rcases h.books.heap with ⟨l, hHeap, hSum⟩
  exact ⟨l, ⟨hHeap, h.plain, h.map⟩, hSum⟩

/- Back from the free list to the books. -/
theorem PageTable.table (h : PageTable Interior s pt f l R)
    (hSum : (l : Multiset Nat) + (tree s.mem pt + R) = ram L) (h' : PageTable Interior s' pt g l' R)
    (hMoved : Moved s s' pt l l') : Table L s' pt g R ∧ Keeps R s.mem s'.mem := by
  refine ⟨⟨⟨l', h'.heap.chain, ?_⟩, h'.plain, h'.map⟩, ?_⟩
  · rw [← add_assoc, hMoved.books, add_assoc]
    exact hSum
  · refine hMoved.frame.keeps ?_
    intro p hp hIn
    have hNodup := h.heap.nodup
    rw [← add_assoc] at hNodup
    have hDisjoint := (Multiset.nodup_add.mp hNodup).2.2
    exact Multiset.disjoint_left.mp hDisjoint hIn hp

/- A page table survives what keeps its pages. -/
theorem Table.keeps (h : Table L s pt f R) (hBooks : Books L s' (tree s.mem pt + R'))
    (hKeeps : Keeps (tree s.mem pt) s.mem s'.mem) : Table L s' pt f R' := by
  have hSame : SameEntries s.mem s'.mem pt := by
    refine hKeeps.sameEntries ?_ (fun _ hp => hp)
    intro p hp
    exact (h.books.isRam (Multiset.mem_add.mpr (.inl hp))).aligned
  refine ⟨?_, hSame.plain h.plain, ?_⟩
  · rw [hSame.tree]
    exact hBooks
  · rw [hSame.leaf]
    exact h.map

theorem Table.rest_eq (h : Table L s pt f R) (hEq : R = R') : Table L s pt f R' := hEq ▸ h

theorem mapRange_one (f : Nat → Option Nat) {pa perm : Nat} (hPa : pa < 2 ^ 64) :
    mapRange f v pa perm 1 = setLeaf f v (PA2PTE pa ||| perm ||| PTE_V) := by
  rw [← mapRange_setLeaf f hPa, mapRange_zero]

/- `mappages` of one free page either maps it or fails. -/
theorem mappages_one {pa perm : Nat} {Q : Int → Kmem → Prop} (h : Table L s pt f R)
    (hFree : f v = none) (hTop : (v + 1) * PGSIZE ≤ MAXVA) (hPa : pa < 2 ^ 64) (hPerm : perm < 1024)
    (hFail : ∀ s', Table L s' pt f R → Keeps R s.mem s'.mem → Q (-1) s')
    (hDone : ∀ s', Table L s' pt (setLeaf f v (PA2PTE pa ||| perm ||| PTE_V)) R →
      Keeps R s.mem s'.mem → Q 0 s') : wp (mappages pt (v * PGSIZE) PGSIZE pa perm) Q E s := by
  rcases h.pageTable with ⟨l, hTable, hSum⟩
  have hSpec :=
    mappages_spec (n := 1) (Q := Q) (E := E) (fun r _ => interior_link r)
      (show perm < 2 ^ 64 by omega) hTable hPa
      (show v * PGSIZE < 2 ^ 64 by
        unfold PGSIZE MAXVA at *
        omega)
      (by decide) (by decide)
      (fun hBig => absurd hTop (by omega)) ?_ ?_ ?_
  · rw [Nat.one_mul] at hSpec
    exact hSpec
  · rintro ⟨u, hLow, hHigh, hSome⟩
    have hu : u = v := by omega
    rw [hu] at hSome
    exact absurd hFree hSome
  · intro j s' l' hj h' hMoved
    have hZero : j = 0 := by omega
    rw [hZero, mapRange_zero] at h'
    rcases hTable.table hSum h' hMoved with ⟨hTable', hKeeps⟩
    exact hFail s' hTable' hKeeps
  · intro s' l' _ h' hMoved
    rw [mapRange_one f hPa] at h'
    rcases hTable.table hSum h' hMoved with ⟨hTable', hKeeps⟩
    exact hDone s' hTable' hKeeps

theorem uvmunmap_keep {n : Nat} {Q : Unit → Kmem → Prop} (h : Table L s pt f R)
    (hLeaf : ∀ u, v ≤ u → u < v + n → IsLeaf f u) (hTop : (v + n) * PGSIZE ≤ MAXVA)
    (hPost : ∀ s', Table L s' pt (unmapRange f v n) R → Keeps R s.mem s'.mem → Q () s') :
    wp (uvmunmap L.kend pt (v * PGSIZE) n false) Q E s := by
  rcases h.pageTable with ⟨l, hTable, hSum⟩
  refine uvmunmap_keep_spec hTable hLeaf hTop ?_
  intro s' h' hMoved
  rcases hTable.table hSum h' hMoved with ⟨hTable', hKeeps⟩
  exact hPost s' hTable' hKeeps

theorem uvmunmap_free {n : Nat} {Q : Unit → Kmem → Prop} (h : Table L s pt f (frames f v n + R))
    (hLeaf : ∀ u, v ≤ u → u < v + n → IsLeaf f u) (hTop : (v + n) * PGSIZE ≤ MAXVA)
    (hPost : ∀ s', Table L s' pt (unmapRange f v n) R → Keeps R s.mem s'.mem → Q () s') :
    wp (uvmunmap L.kend pt (v * PGSIZE) n true) Q E s := by
  rcases h.pageTable with ⟨l, hTable, hSum⟩
  have hRam : ∀ p ∈ frames f v n, Ram L.kend p := by
    intro p hp
    exact h.books.isRam (by simp [hp])
  refine uvmunmap_free_spec hTable hLeaf hRam hTop ?_
  intro s' l' h' hList hTree hFrame
  refine hPost s' ⟨⟨l', h'.heap.chain, ?_⟩, h'.plain, h'.map⟩ ?_
  · rw [hList, hTree, ← hSum]
    abel
  · refine hFrame.keeps ?_
    intro p hp hIn
    have hNodup := h.books.nodup
    rw [← add_assoc] at hNodup
    have hDisjoint := (Multiset.nodup_add.mp hNodup).2.2
    exact Multiset.disjoint_left.mp hDisjoint hIn hp

end Xv6.Vm

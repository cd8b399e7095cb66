import Xv6.Vm.Map

/-
  A page table refines a finite map from virtual pages to
  entries.

  `lookup` is the map as `walk` shows it. `mappages` and
  `uvmunmap` change it on the requested range only and keep
  the tree of page-table pages well formed.

  Main declarations:
    * `WellFormed`
    * `page_table_refines_map`
-/

namespace Xv6.Vm

/-
  The pages of the tree are pages, are used once each, and
  are neither free nor among the pages `R` in use elsewhere;
  the free list is intact.
-/
def WellFormed (s : Kmem) (pt : Nat) (R : Multiset Nat) : Prop := ∃ l, Heap s l (tree s.mem pt + R)

/- The entries outside of the range are the same. -/
def SameOutside (s s' : Kmem) (pt va size : Nat) : Prop :=
  ∀ a < MAXVA, (a < va ∨ va + size ≤ a) → lookup s' pt a = lookup s pt a

/- The range is gone and the rest is not. -/
structure Unmapped (s s' : Kmem) (pt va npages : Nat) : Prop where
  inside : ∀ k < npages, lookup s' pt (va + k * PGSIZE) = none
  outside : SameOutside s s' pt va (npages * PGSIZE)

section

variable {s : Kmem} {pt : Nat} {R : Multiset Nat} {va size pa perm : Nat} {s' : Kmem} {l : List Nat}

theorem WellFormed.pageTable (h : WellFormed s pt R) :
    ∃ l, PageTable (fun _ => True) s pt (leaf s.mem pt) l R := by
  rcases h with ⟨l, hHeap⟩
  exact ⟨l, hHeap, fun _ _ _ _ _ _ _ _ => trivial, rfl⟩

theorem lookup_eq_none (hVa : MAXVA ≤ va) : lookup s pt va = none := by
  have hWalk : walk pt va false s = .error .walk := by
    unfold walk
    rw [if_pos hVa]
    rfl
  unfold lookup
  rw [hWalk]

theorem PageTable.lookup_range {ok : Nat → Prop} {f g : Nat → Option Nat} {l' : List Nat}
    {R R' : Multiset Nat} {n : Nat} (h : PageTable ok s pt f l R) (h' : PageTable ok s' pt g l' R')
    (hAligned : va % PGSIZE = 0)
    (hSame : ∀ u, ¬ (va / PGSIZE ≤ u ∧ u < va / PGSIZE + n) → g u = f u) :
    SameOutside s s' pt va (n * PGSIZE) := by
  intro a ha hOut
  rw [lookup_eq_leaf h ha, lookup_eq_leaf h' ha]
  apply hSame
  unfold PGSIZE at *
  omega

theorem mappages_aligned {r : Int} (hRun : mappages pt va size pa perm s = .ok (r, s')) :
    va % PGSIZE = 0 ∧ size % PGSIZE = 0 ∧ size ≠ 0 := by
  have hSpec : Prog.wp (mappages pt va size pa perm)
      (fun _ _ => va % PGSIZE = 0 ∧ size % PGSIZE = 0 ∧ size ≠ 0) (fun _ => True) s := by
    simp only [mappages, Prog.wp_ite, Prog.wp_bind, Prog.wp_throw]
    refine ⟨fun _ => trivial, fun h₁ => ⟨fun _ => trivial,
      fun h₂ => ⟨fun _ => trivial, fun h₃ => ?_⟩⟩⟩
    refine Prog.wp_mono (Prog.wp_true _ s) ?_ (fun _ _ => trivial)
    intro _ _ _
    exact ⟨not_not.mp h₁, not_not.mp h₂, h₃⟩
  have hEnd := Prog.wp_of_eq_ok hSpec hRun
  exact hEnd

theorem mappages_ok {r : Int} (h : PageTable (fun _ => True) s pt (leaf s.mem pt) l R)
    (hVa : va < MAXVA) (hSize : size < 2 ^ 64) (hPa : pa < 2 ^ 64) (hPerm : perm < 2 ^ 64)
    (hRun : mappages pt va size pa perm s = .ok (r, s')) :
    ∃ l' j, PageTable (fun _ => True) s' pt (mapRange (leaf s.mem pt) (va / PGSIZE) pa perm j)
      l' R ∧ j ≤ size / PGSIZE ∧ (r = 0 → j = size / PGSIZE ∧ va + size ≤ MAXVA) := by
  rcases mappages_aligned hRun with ⟨hAligned, hWhole, hNe⟩
  have hv : va / PGSIZE * PGSIZE = va := Nat.div_mul_cancel (Nat.dvd_of_mod_eq_zero hAligned)
  have hn : size / PGSIZE * PGSIZE = size := Nat.div_mul_cancel (Nat.dvd_of_mod_eq_zero hWhole)
  have hPos : 0 < size / PGSIZE := by
    rcases Nat.eq_zero_or_pos (size / PGSIZE) with hZ | hP
    · rw [hZ, Nat.zero_mul] at hn
      exact absurd hn.symm hNe
    · exact hP
  have hVa' : va < 2 ^ 64 := Nat.lt_trans hVa (by decide)
  have hSpec : Prog.wp (mappages pt va size pa perm) (fun r s' =>
        ∃ l' j, PageTable (fun _ => True) s' pt
            (mapRange (leaf s.mem pt) (va / PGSIZE) pa perm j) l' R ∧
          j ≤ size / PGSIZE ∧ (r = 0 → j = size / PGSIZE ∧ va + size ≤ MAXVA))
      (fun _ => True) s := by
    rw [← hv] at hVa'
    rw [← hn] at hSize
    have hRule :=
      mappages_spec (v := va / PGSIZE) (n := size / PGSIZE) (E := fun _ => True)
        (Q := fun r s' =>
          ∃ l' j, PageTable (fun _ => True) s' pt
                (mapRange (leaf s.mem pt) (va / PGSIZE) pa perm j) l' R ∧
              j ≤ size / PGSIZE ∧ (r = 0 → j = size / PGSIZE ∧ va + size ≤ MAXVA))
        (fun _ _ => trivial) hPerm h hPa hVa' hSize hPos
        (fun _ => trivial) (fun _ => trivial)
        (fun j s' l' hj hTable _ =>
          ⟨l', j, hTable, Nat.le_of_lt hj, by simp⟩)
        (fun s' l' hTop hTable _ => by
          rw [Nat.add_mul, hv, hn] at hTop
          exact ⟨l', _, hTable, Nat.le_refl _, fun _ => ⟨rfl, hTop⟩⟩)
    rw [hv, hn] at hRule
    exact hRule
  have hEnd := Prog.wp_of_eq_ok hSpec hRun
  exact hEnd

section

variable (hWf : WellFormed s pt R) (hVa : va < MAXVA) (hSize : size < 2 ^ 64) (hPa : pa < 2 ^ 64)
  (hPerm : perm < 2 ^ 64)
include hWf hVa hSize hPa hPerm

theorem mappages_outside {r : Int} (hRun : mappages pt va size pa perm s = .ok (r, s')) :
    WellFormed s' pt R ∧ SameOutside s s' pt va size := by
  rcases hWf.pageTable with ⟨l, h⟩
  rcases mappages_ok h hVa hSize hPa hPerm hRun with ⟨l', j, h', hj, _⟩
  rcases mappages_aligned hRun with ⟨hAligned, hWhole, _⟩
  have hn : size / PGSIZE * PGSIZE = size := Nat.div_mul_cancel (Nat.dvd_of_mod_eq_zero hWhole)
  refine ⟨⟨l', h'.heap⟩, ?_⟩
  have hRange := h.lookup_range h' (n := size / PGSIZE) hAligned ?_
  · rw [hn] at hRange
    exact hRange
  · intro u hOut
    have hNot : ¬ (va / PGSIZE ≤ u ∧ u < va / PGSIZE + j) := by omega
    simp only [mapRange, if_neg hNot]

theorem mappages_inside {k : Nat} (hRun : mappages pt va size pa perm s = .ok (0, s'))
    (hk : k < size / PGSIZE) :
    lookup s' pt (va + k * PGSIZE) =
      some (PA2PTE ((pa + k * PGSIZE) % 2 ^ 64) ||| perm ||| PTE_V) := by
  rcases hWf.pageTable with ⟨l, h⟩
  rcases mappages_ok h hVa hSize hPa hPerm hRun with ⟨l', j, h', _, hDone⟩
  rcases hDone rfl with ⟨hj, hTop⟩
  subst hj
  have hIn : va + k * PGSIZE < MAXVA := by
    unfold PGSIZE MAXVA at *
    omega
  have hPage : (va + k * PGSIZE) / PGSIZE = va / PGSIZE + k :=
    Nat.add_mul_div_right va k (by decide)
  rw [lookup_eq_leaf h' hIn, hPage]
  have hRange : va / PGSIZE ≤ va / PGSIZE + k ∧ va / PGSIZE + k < va / PGSIZE + size / PGSIZE := by
    omega
  simp only [mapRange, if_pos hRange, Nat.add_sub_cancel_left]

end

/- The range is mapped, page by page. -/
def Mapped (s : Kmem) (pt va npages : Nat) : Prop :=
  ∀ k < npages, ∃ w, lookup s pt (va + k * PGSIZE) = some w ∧ PTE_FLAGS w ≠ PTE_V

theorem Mapped.top_le {npages : Nat} (h : Mapped s pt va npages) (hVa : va < MAXVA)
    (hAligned : va % PGSIZE = 0) : (va / PGSIZE + npages) * PGSIZE ≤ MAXVA := by
  cases npages with
  | zero =>
    unfold PGSIZE MAXVA at *
    omega
  | succ n =>
    rcases h n (Nat.lt_succ_self n) with ⟨w, hw, _⟩
    by_cases hBig : MAXVA ≤ va + n * PGSIZE
    · rw [lookup_eq_none hBig] at hw
      cases hw
    · unfold PGSIZE MAXVA at *
      omega

theorem Mapped.isLeaf {npages : Nat} {f : Nat → Option Nat} {R : Multiset Nat} {ok : Nat → Prop}
    (h : Mapped s pt va npages) (hTable : PageTable ok s pt f l R) (hVa : va < MAXVA)
    (hAligned : va % PGSIZE = 0) :
    ∀ u, va / PGSIZE ≤ u → u < va / PGSIZE + npages → IsLeaf f u := by
  intro u hLow hHigh
  have hTop := h.top_le hVa hAligned
  rcases h (u - va / PGSIZE) (by omega) with ⟨w, hw, hFlags⟩
  have hAddr : va + (u - va / PGSIZE) * PGSIZE = u * PGSIZE := by
    unfold PGSIZE at *
    omega
  have hIn : u * PGSIZE < MAXVA := by
    unfold PGSIZE MAXVA at *
    omega
  rw [hAddr, lookup_eq_leaf hTable hIn, Nat.mul_div_cancel u (by decide)] at hw
  exact ⟨w, hw, hFlags⟩

theorem PageTable.lookup_unmapped {ok : Nat → Prop} {f : Nat → Option Nat} {l' : List Nat}
    {R R' : Multiset Nat} {n : Nat} (h : PageTable ok s pt f l R)
    (h' : PageTable ok s' pt (unmapRange f (va / PGSIZE) n) l' R') (hAligned : va % PGSIZE = 0)
    (hTop : (va / PGSIZE + n) * PGSIZE ≤ MAXVA) : Unmapped s s' pt va n := by
  refine ⟨?_, ?_⟩
  · intro k hk
    have hIn : va + k * PGSIZE < MAXVA := by
      unfold PGSIZE MAXVA at *
      omega
    have hPage : (va + k * PGSIZE) / PGSIZE = va / PGSIZE + k :=
      Nat.add_mul_div_right va k (by decide)
    rw [lookup_eq_leaf h' hIn, hPage]
    have hRange : va / PGSIZE ≤ va / PGSIZE + k ∧ va / PGSIZE + k < va / PGSIZE + n := by omega
    simp only [unmapRange, if_pos hRange]
  · refine h.lookup_range h' hAligned ?_
    intro u hOut
    simp only [unmapRange, if_neg hOut]

end

/-
  `mappages` that returns `0` maps exactly the requested
  pages, one that returns `-1` leaves the pages outside its
  range alone, and `uvmunmap` of a mapped range removes
  exactly that range, with and without giving the frames
  back. The tree stays well formed.
-/
theorem page_table_refines_map
    (kend : Nat)
    (s : Kmem)
    (pt va : Nat)
    (R : Multiset Nat)
    (hWf : WellFormed s pt R)
    (hAligned : va % PGSIZE = 0)
    (hVa : va < MAXVA) :
    (∀ size pa perm s',
      size < 2 ^ 64 → pa < 2 ^ 64 → perm < 2 ^ 64 →
      mappages pt va size pa perm s = .ok (0, s') →
      WellFormed s' pt R ∧
        (∀ k < size / PGSIZE, ∃ w,
          lookup s' pt (va + k * PGSIZE) = some w ∧
          w = PA2PTE ((pa + k * PGSIZE) % 2 ^ 64) ||| perm ||| PTE_V ∧
          (pa % PGSIZE = 0 → perm < 1024 →
            PTE2PA w = (pa + k * PGSIZE) % 2 ^ 64 ∧ PTE_FLAGS w = perm ||| PTE_V)) ∧
        SameOutside s s' pt va size) ∧
    (∀ size pa perm s',
      size < 2 ^ 64 → pa < 2 ^ 64 → perm < 2 ^ 64 →
      mappages pt va size pa perm s = .ok (-1, s') →
      WellFormed s' pt R ∧ SameOutside s s' pt va size) ∧
    (∀ npages,
      Mapped s pt va npages →
      ∃ s',
        uvmunmap kend pt va npages false s = .ok ((), s') ∧
        WellFormed s' pt R ∧
        Unmapped s s' pt va npages) ∧
    ∀ npages R',
      Mapped s pt va npages →
      R = frames (fun u => lookup s pt (u * PGSIZE)) (va / PGSIZE) npages + R' →
      (∀ p ∈ frames (fun u => lookup s pt (u * PGSIZE)) (va / PGSIZE) npages, Ram kend p) →
      ∃ s',
        uvmunmap kend pt va npages true s = .ok ((), s') ∧
        WellFormed s' pt R' ∧
        Unmapped s s' pt va npages := by
  have hv : va / PGSIZE * PGSIZE = va := Nat.div_mul_cancel (Nat.dvd_of_mod_eq_zero hAligned)
  rcases hWf.pageTable with ⟨l, h⟩
  refine ⟨?_, ?_, ?_, ?_⟩
  · intro size pa perm s' hSize hPa hPerm hRun
    rcases mappages_outside hWf hVa hSize hPa hPerm hRun with ⟨hWf', hOut⟩
    refine ⟨hWf', ?_, hOut⟩
    intro k hk
    refine ⟨_, mappages_inside hWf hVa hSize hPa hPerm hRun hk, rfl, ?_⟩
    intro hPage hFlags
    refine ⟨?_, flags_pte _ hFlags⟩
    refine pte2pa_pte (Nat.mod_lt _ (by decide)) ?_ hFlags
    unfold PGSIZE at *
    omega
  · intro size pa perm s' hSize hPa hPerm hRun
    exact mappages_outside hWf hVa hSize hPa hPerm hRun
  · intro npages hMapped
    have hTop := hMapped.top_le hVa hAligned
    have hSpec : Prog.wp (uvmunmap kend pt (va / PGSIZE * PGSIZE) npages false) (fun _ s' =>
          PageTable (fun _ => True) s' pt (unmapRange (leaf s.mem pt) (va / PGSIZE) npages) l R)
        (fun _ => False) s :=
      uvmunmap_keep_spec h (hMapped.isLeaf h hVa hAligned) hTop (fun s' hTable _ => hTable)
    rw [hv] at hSpec
    rcases Prog.exists_ok_of_wp hSpec with ⟨_, s', hRun, h'⟩
    exact ⟨s', hRun, ⟨l, h'.heap⟩, h.lookup_unmapped h' hAligned hTop⟩
  · intro npages R' hMapped hR hRam
    have hTop := hMapped.top_le hVa hAligned
    have hFrames : frames (fun u => lookup s pt (u * PGSIZE)) (va / PGSIZE) npages =
        frames (leaf s.mem pt) (va / PGSIZE) npages := by
      apply frames_congr
      intro u _ hHigh
      have hIn : u * PGSIZE < MAXVA := by
        unfold PGSIZE MAXVA at *
        omega
      rw [lookup_eq_leaf h hIn, Nat.mul_div_cancel u (by decide)]
    rw [hFrames] at hR hRam
    subst hR
    have hSpec : Prog.wp (uvmunmap kend pt (va / PGSIZE * PGSIZE) npages true) (fun _ s' =>
          ∃ l', PageTable (fun _ => True) s' pt
            (unmapRange (leaf s.mem pt) (va / PGSIZE) npages) l' R')
        (fun _ => False) s :=
      uvmunmap_free_spec h (hMapped.isLeaf h hVa hAligned) hRam hTop
        (fun s' l' hTable _ _ _ => ⟨l', hTable⟩)
    rw [hv] at hSpec
    rcases Prog.exists_ok_of_wp hSpec with ⟨_, s', hRun, l', h'⟩
    exact ⟨s', hRun, ⟨l', h'.heap⟩, h.lookup_unmapped h' hAligned hTop⟩

/-
  An empty page table at `0x80001000`, a page in use and two
  free pages, the first of which links to the second.
-/
def sampleKmem : Kmem where
  mem := Memory.store (fun _ => 0) 0x80002000 8 0x80003000
  freelist := 0x80002000

theorem sampleKmem_empty : ∀ i < 512, pteAt sampleKmem.mem 0x80001000 i &&& PTE_V = 0 := by
  intro i hi
  have hLoad : pteAt sampleKmem.mem 0x80001000 i = Bytes.ofLe ((List.range 8).map (fun _ => 0)) :=
    Memory.load_store_other _ _ (by omega)
  rw [hLoad]
  decide

theorem sampleKmem_wellFormed : WellFormed sampleKmem 0x80001000 {0x80004000} := by
  refine ⟨[0x80002000, 0x80003000], ?_, ?_, ?_⟩
  · exact ⟨rfl, rfl, rfl⟩
  · rw [tree_of_empty sampleKmem_empty]
    decide
  rw [tree_of_empty sampleKmem_empty]
  intro p hp
  simp at hp
  rcases hp with rfl | (rfl | rfl) | rfl
  all_goals exact ⟨by decide, by decide, by decide⟩

/- Mapping one page of it at address `0x1000`. -/
theorem page_table_refines_map_sample :
    ∃ s', mappages 0x80001000 0x1000 PGSIZE 0x80004000 PTE_R sampleKmem = .ok (0, s') ∧
      lookup s' 0x80001000 0x1000 = some (PA2PTE 0x80004000 ||| PTE_R ||| PTE_V) ∧
      ∀ a < MAXVA, a < 0x1000 → lookup s' 0x80001000 a = lookup sampleKmem 0x80001000 a := by
  have hRuns : ∃ s', mappages 0x80001000 0x1000 PGSIZE 0x80004000 PTE_R sampleKmem = .ok (0, s') :=
    ⟨_, rfl⟩
  rcases hRuns with ⟨s', hRun⟩
  have hMap :=
    page_table_refines_map 0x80001000 sampleKmem 0x80001000
      0x1000 {0x80004000} sampleKmem_wellFormed (by decide)
      (by decide)
  rcases hMap.1 PGSIZE 0x80004000 PTE_R s' (by decide)
    (by decide) (by decide) hRun with ⟨_, hIn, hOut⟩
  rcases hIn 0 (by decide) with ⟨w, hLookup, hw, _⟩
  refine ⟨s', hRun, ?_, fun a ha hLow => ?_⟩
  · rw [hw] at hLookup
    exact hLookup
  · exact hOut a ha (.inl hLow)

end Xv6.Vm

import Xv6.Vm.Walk
import Mathlib.Algebra.BigOperators.Group.Finset.Basic
import Mathlib.Algebra.Order.Group.Multiset

/-
  Mapping and unmapping ranges of pages.

  `mappages` and `uvmunmap` act on the map a page table
  denotes: `mapRange` and `unmapRange` say how. A failed
  `mappages` has mapped a part of its range.

  Main declarations:
    * `mappages_spec`
    * `uvmunmap_keep_spec`
    * `uvmunmap_free_spec`
-/

namespace Xv6.Vm

open Prog

---- Mapping

/- Map `n` pages from `v` on to frames from `pa` on. -/
def mapRange (f : Nat → Option Nat) (v pa perm n : Nat) : Nat → Option Nat :=
  fun u =>
    if v ≤ u ∧ u < v + n then
      some (PA2PTE ((pa + (u - v) * PGSIZE) % 2 ^ 64) ||| perm ||| PTE_V)
    else
      f u

theorem mapRange_zero (f : Nat → Option Nat) (v pa perm : Nat) : mapRange f v pa perm 0 = f := by
  funext u
  have hNot : ¬ (v ≤ u ∧ u < v + 0) := by omega
  simp only [mapRange, if_neg hNot]

theorem mapRange_setLeaf (f : Nat → Option Nat) {v pa perm n : Nat} (hPa : pa < 2 ^ 64) :
    mapRange (setLeaf f v (PA2PTE pa ||| perm ||| PTE_V)) (v + 1) ((pa + PGSIZE) % UINT64) perm n =
      mapRange f v pa perm (n + 1) := by
  funext u
  unfold mapRange setLeaf
  by_cases hEq : u = v
  · have hOut : ¬ (v + 1 ≤ u ∧ u < v + 1 + n) := by omega
    have hIn : v ≤ u ∧ u < v + (n + 1) := by omega
    have hHere : (pa + (u - v) * PGSIZE) % 2 ^ 64 = pa := by
      rw [hEq, Nat.sub_self, Nat.zero_mul, Nat.add_zero]
      exact Nat.mod_eq_of_lt hPa
    rw [if_neg hOut, if_pos hEq, if_pos hIn, hHere]
    exact if_neg (valid_pte _)
  · by_cases hRest : v + 1 ≤ u ∧ u < v + 1 + n
    · have hIn : v ≤ u ∧ u < v + (n + 1) := by omega
      have hShift : ((pa + PGSIZE) % UINT64 + (u - (v + 1)) * PGSIZE) % 2 ^ 64 =
          (pa + (u - v) * PGSIZE) % 2 ^ 64 := by
        unfold UINT64
        rw [Nat.mod_add_mod]
        congr 1
        have hSucc : u - v = u - (v + 1) + 1 := by omega
        rw [hSucc, Nat.add_mul]
        omega
      rw [if_pos hRest, if_pos hIn, hShift]
    · have hOut : ¬ (v ≤ u ∧ u < v + (n + 1)) := by omega
      rw [if_neg hRest, if_neg hEq, if_neg hOut]

variable {ok : Nat → Prop} {s : Kmem} {pt perm : Nat} {f : Nat → Option Nat} {l : List Nat}
variable {R : Multiset Nat} {E : Panic → Prop} {v n : Nat}

theorem walk_panic {va : Nat} {alloc : Bool} {Q : Nat → Kmem → Prop} (hVa : MAXVA ≤ va)
    (hPanic : E .walk) : wp (walk pt va alloc) Q E s := by
  unfold walk
  rw [if_pos hVa, wp_throw]
  exact hPanic

theorem next_page (hVa : v * PGSIZE < MAXVA) :
    (v * PGSIZE + PGSIZE) % UINT64 = (v + 1) * PGSIZE := by
  unfold PGSIZE UINT64 MAXVA at *
  omega

theorem range_next {last : Nat}
    (hLast : (v + (n + 1)) * PGSIZE = last + PGSIZE ∨
      (last < v * PGSIZE ∧ 2 ^ 64 ≤ (v + (n + 1)) * PGSIZE)) (hVa : v * PGSIZE < MAXVA)
    (hMore : v * PGSIZE ≠ last) :
    0 < n ∧ ((v + 1 + n) * PGSIZE = last + PGSIZE ∨
      (last < (v + 1) * PGSIZE ∧ 2 ^ 64 ≤ (v + 1 + n) * PGSIZE)) := by
  unfold PGSIZE MAXVA at *
  omega

/-
  The loop of `mappages` from page `v` on, with `n` pages to
  go. Either it ends at `last`, or the range wraps around.
-/
theorem mappagesFrom_spec {last pa : Nat} {Q : Int → Kmem → Prop}
    (hOk : ∀ r, IsPage r → ok (PA2PTE r ||| PTE_V)) (hPerm : perm < 2 ^ 64)
    (h : PageTable ok s pt f l R) (hPa : pa < 2 ^ 64) (hPos : 0 < n)
    (hLast : (v + n) * PGSIZE = last + PGSIZE ∨ (last < v * PGSIZE ∧ 2 ^ 64 ≤ (v + n) * PGSIZE))
    (hWalk : MAXVA < (v + n) * PGSIZE → E .walk)
    (hRemap : (∃ u, v ≤ u ∧ u < v + n ∧ f u ≠ none) → E .mappagesRemap)
    (hFail : ∀ j s' l',
      j < n → PageTable ok s' pt (mapRange f v pa perm j) l' R → Moved s s' pt l l' → Q (-1) s')
    (hDone : ∀ s' l', (v + n) * PGSIZE ≤ MAXVA →
        PageTable ok s' pt (mapRange f v pa perm n) l' R → Moved s s' pt l l' → Q 0 s') :
    wp (mappagesFrom pt last perm n (v * PGSIZE) pa) Q E s := by
  induction n generalizing s f l v pa with
  | zero => exact absurd hPos (by decide)
  | succ n ih =>
    simp only [mappagesFrom, wp_bind]
    by_cases hVa : v * PGSIZE < MAXVA
    · have hv : v * PGSIZE / PGSIZE = v :=
        Nat.mul_div_cancel v (by decide)
      have hVpn : v < 2 ^ 26 := by
        rw [← hv]
        exact vpn_lt hVa
      refine walk_true_spec hOk h hVa ?_ ?_
      · -- No page for the tree: nothing is mapped.
        intro s' l' hTable hMoved
        rw [if_pos rfl, wp_pure]
        refine hFail 0 s' l' (by omega) ?_ hMoved
        rw [mapRange_zero]
        exact hTable
      intro s' l' q hTable hMoved hq
      rw [hv] at hq
      have hIn := leafPage_mem_tree (by omega) hq
      have hAddr : q + 8 * PX 0 (v * PGSIZE) = q + 8 * (v % 512) := by rw [px_zero, hv]
      rw [hAddr, if_neg (hTable.pte_ne_zero hIn)]
      simp only [ld, st, wp_bind, wp_get, wp_pure, wp_ite, wp_throw, wp_modify]
      refine ⟨fun hMapped => ?_, fun _ => ?_⟩
      · refine hRemap ⟨v, by omega, by omega, ?_⟩
        rw [← hTable.map]
        unfold leaf
        rw [if_pos (by omega), hq, Option.bind_some]
        unfold entry
        have hNe : pteAt s'.mem q (v % 512) &&& PTE_V ≠ 0 := hMapped
        rw [if_neg hNe]
        simp
      have hStored :=
        hTable.storeLeaf (by omega) hq (pte_lt hPa hPerm)
      have hMoved' := hMoved.trans (hTable.moved_storeLeaf (w := PA2PTE pa ||| perm ||| PTE_V)
          (by omega) hq)
      refine ⟨fun hEnd => ?_, fun hMore => ?_⟩
      · have hOne : n = 0 := by
          unfold PGSIZE at *
          omega
        subst hOne
        refine hDone _ l' ?_ ?_ hMoved'
        · unfold PGSIZE MAXVA at *
          omega
        · rw [← mapRange_setLeaf f hPa, mapRange_zero]
          exact hStored
      have hStep := range_next hLast hVa hMore
      rw [next_page hVa]
      refine ih hStored (Nat.mod_lt _ (by decide)) ?_ ?_ ?_ ?_ ?_ ?_
      · exact hStep.1
      · exact hStep.2
      · intro hBig
        refine hWalk ?_
        have hEq : v + 1 + n = v + (n + 1) := by omega
        rwa [hEq] at hBig
      · rintro ⟨u, hLow, hHigh, hSome⟩
        refine hRemap ⟨u, by omega, by omega, ?_⟩
        unfold setLeaf at hSome
        rwa [if_neg (by omega)] at hSome
      · intro j s'' l'' hj hTable' hMoved''
        refine hFail (j + 1) s'' l'' (by omega) ?_ (hMoved'.trans hMoved'')
        rw [← mapRange_setLeaf f hPa]
        exact hTable'
      · intro s'' l'' hTop hTable' hMoved''
        refine hDone s'' l'' ?_ ?_ (hMoved'.trans hMoved'')
        · have hEq : v + 1 + n = v + (n + 1) := by omega
          rwa [hEq] at hTop
        · rw [← mapRange_setLeaf f hPa]
          exact hTable'
    · refine walk_panic (by omega) (hWalk ?_)
      unfold PGSIZE at *
      omega

theorem range_last (hVa : v * PGSIZE < 2 ^ 64) (hSize : n * PGSIZE < 2 ^ 64) (hPos : 0 < n) :
    let last := (v * PGSIZE + n * PGSIZE + UINT64 - PGSIZE) % UINT64
    (v + n) * PGSIZE = last + PGSIZE ∨ (last < v * PGSIZE ∧ 2 ^ 64 ≤ (v + n) * PGSIZE) := by
  unfold PGSIZE UINT64 at *
  omega

theorem mappages_spec {pa : Nat} {Q : Int → Kmem → Prop}
    (hOk : ∀ r, IsPage r → ok (PA2PTE r ||| PTE_V)) (hPerm : perm < 2 ^ 64)
    (h : PageTable ok s pt f l R) (hPa : pa < 2 ^ 64) (hVa : v * PGSIZE < 2 ^ 64)
    (hSize : n * PGSIZE < 2 ^ 64) (hPos : 0 < n) (hWalk : MAXVA < (v + n) * PGSIZE → E .walk)
    (hRemap : (∃ u, v ≤ u ∧ u < v + n ∧ f u ≠ none) → E .mappagesRemap)
    (hFail : ∀ j s' l',
      j < n → PageTable ok s' pt (mapRange f v pa perm j) l' R → Moved s s' pt l l' → Q (-1) s')
    (hDone : ∀ s' l', (v + n) * PGSIZE ≤ MAXVA →
        PageTable ok s' pt (mapRange f v pa perm n) l' R → Moved s s' pt l l' → Q 0 s') :
    wp (mappages pt (v * PGSIZE) (n * PGSIZE) pa perm) Q E s := by
  have hAligned : ¬ v * PGSIZE % PGSIZE ≠ 0 := by simp
  have hAligned' : ¬ n * PGSIZE % PGSIZE ≠ 0 := by simp
  have hSome : ¬ n * PGSIZE = 0 := by
    unfold PGSIZE
    omega
  have hCount : n * PGSIZE / PGSIZE = n := Nat.mul_div_cancel n (by decide)
  simp only [mappages, if_neg hAligned, if_neg hAligned', if_neg hSome, hCount]
  exact mappagesFrom_spec hOk hPerm h hPa hPos (range_last hVa hSize hPos) hWalk hRemap hFail hDone

---- Unmapping

section

variable (f : Nat → Option Nat)

/- Remove `n` pages from `v` on. -/
def unmapRange (v n : Nat) : Nat → Option Nat :=
  fun u => if v ≤ u ∧ u < v + n then none else f u

theorem unmapRange_zero (v : Nat) : unmapRange f v 0 = f := by
  funext u
  have hNot : ¬ (v ≤ u ∧ u < v + 0) := by omega
  simp only [unmapRange, if_neg hNot]

theorem unmapRange_setLeaf (v n : Nat) :
    unmapRange (setLeaf f v 0) (v + 1) n = unmapRange f v (n + 1) := by
  funext u
  unfold unmapRange setLeaf
  by_cases hEq : u = v
  · have hOut : ¬ (v + 1 ≤ u ∧ u < v + 1 + n) := by omega
    have hIn : v ≤ u ∧ u < v + (n + 1) := by omega
    rw [if_neg hOut, if_pos hEq, if_pos hIn]
    rfl
  · by_cases hRest : v + 1 ≤ u ∧ u < v + 1 + n
    · have hIn : v ≤ u ∧ u < v + (n + 1) := by omega
      rw [if_pos hRest, if_pos hIn]
    · have hOut : ¬ (v ≤ u ∧ u < v + (n + 1)) := by omega
      rw [if_neg hRest, if_neg hEq, if_neg hOut]

/- The frame a virtual page is mapped to. -/
def frameAt (u : Nat) : Multiset Nat := (f u).elim 0 (fun w => {PTE2PA w})

/- The frames of `n` virtual pages from `v` on. -/
def frames (v n : Nat) : Multiset Nat :=
  ∑ i ∈ Finset.range n, frameAt f (v + i)

theorem frames_zero (v : Nat) : frames f v 0 = 0 := by
  simp [frames]

theorem frames_succ (v n : Nat) :
    frames f v (n + 1) = frameAt f v + frames f (v + 1) n := by
  unfold frames
  rw [Finset.sum_range_succ', Nat.add_zero, add_comm]
  congr 1
  refine Finset.sum_congr rfl ?_
  intro i _
  rw [Nat.add_assoc, Nat.add_comm 1 i]

theorem frames_congr {f g : Nat → Option Nat} {v n : Nat} (h : ∀ u, v ≤ u → u < v + n → f u = g u) :
    frames f v n = frames g v n := by
  refine Finset.sum_congr rfl ?_
  intro i hi
  have hLt := Finset.mem_range.mp hi
  unfold frameAt
  rw [h (v + i) (by omega) (by omega)]

/- A mapped page with some flag beside the valid bit. -/
def IsLeaf (u : Nat) : Prop := ∃ w, f u = some w ∧ PTE_FLAGS w ≠ PTE_V

end

variable {kend : Nat} {Q : Unit → Kmem → Prop}

section

variable (h : PageTable ok s pt f l R)
include h

theorem PageTable.leaf_entry {w : Nat} (hf : f v = some w) :
    v < 2 ^ 27 ∧
      ∃ p, leafPage s.mem pt v = some p ∧ pteAt s.mem p (v % 512) = w ∧ w &&& PTE_V ≠ 0 := by
  rw [← h.map] at hf
  exact leaf_eq_some hf

/- The checks of one round of `uvmunmap` on a mapped page. -/
theorem uvmunmapFrom_step {w : Nat} {doFree : Bool} (hf : f v = some w)
    (hFlags : PTE_FLAGS w ≠ PTE_V) (hVa : v * PGSIZE < MAXVA) (hRest :
      ∀ p, leafPage s.mem pt v = some p → wp
        (do
          if doFree = true then
            kfree kend (PTE2PA w)
          st (p + 8 * (v % 512)) 0
          uvmunmapFrom kend pt doFree n ((v + 1) * PGSIZE))
        Q E s) : wp (uvmunmapFrom kend pt doFree (n + 1) (v * PGSIZE)) Q E s := by
  have hv : v * PGSIZE / PGSIZE = v := Nat.mul_div_cancel v (by decide)
  rcases h.leaf_entry hf with ⟨hVpn, p, hp, hPte, hValid⟩
  have hNe : p + 8 * (v % 512) ≠ 0 := h.pte_ne_zero (leafPage_mem_tree hVpn hp)
  have hNext : v * PGSIZE + PGSIZE = (v + 1) * PGSIZE := by rw [Nat.add_mul, Nat.one_mul]
  simp only [uvmunmapFrom, wp_bind, hNext]
  refine walk_false_spec hVa ?_
  rw [hv, hp, Option.elim_some, px_zero, hv]
  have hLoad : s.mem.load (p + 8 * (v % 512)) 8 = w := hPte
  simp only [if_neg hNe, ld, wp_bind, wp_get, wp_pure, hLoad, if_neg hValid, if_neg hFlags]
  exact hRest p hp

theorem uvmunmapFrom_keep_spec (hLeaf : ∀ u, v ≤ u → u < v + n → IsLeaf f u)
    (hTop : (v + n) * PGSIZE ≤ MAXVA)
    (hPost : ∀ s', PageTable ok s' pt (unmapRange f v n) l R → Moved s s' pt l l → Q () s') :
    wp (uvmunmapFrom kend pt false n (v * PGSIZE)) Q E s := by
  induction n generalizing s f v with
  | zero =>
    simp only [uvmunmapFrom, wp_pure]
    refine hPost s ?_ (Moved.refl s pt l)
    rw [unmapRange_zero]
    exact h
  | succ n ih =>
    have hVa : v * PGSIZE < MAXVA := by
      unfold PGSIZE at *
      omega
    rcases hLeaf v (by omega) (by omega) with ⟨w, hf, hFlags⟩
    refine uvmunmapFrom_step h hf hFlags hVa ?_
    intro p hp
    have hVpn := (h.leaf_entry hf).1
    have hStored := h.storeLeaf (w := 0) hVpn hp (by decide)
    have hMoved := h.moved_storeLeaf (w := 0) hVpn hp
    simp only [Bool.false_eq_true, if_false, st, wp_bind, wp_modify]
    refine ih hStored ?_ ?_ ?_
    · intro u hLow hHigh
      rcases hLeaf u (by omega) (by omega) with ⟨w', hw', hFlags'⟩
      refine ⟨w', ?_, hFlags'⟩
      unfold setLeaf
      rw [if_neg (by omega)]
      exact hw'
    · rw [Nat.add_assoc, Nat.add_comm 1 n]
      exact hTop
    · intro s' hTable hMoved'
      refine hPost s' ?_ (hMoved.trans hMoved')
      rw [← unmapRange_setLeaf]
      exact hTable

end

/-
  Unmapping with freeing also gives the frames back. They
  belong to nobody else, so the tree is not written.
-/
theorem uvmunmapFrom_free_spec (h : PageTable ok s pt f l (frames f v n + R))
    (hLeaf : ∀ u, v ≤ u → u < v + n → IsLeaf f u) (hRam : ∀ p ∈ frames f v n, Ram kend p)
    (hTop : (v + n) * PGSIZE ≤ MAXVA)
    (hPost : ∀ s' l', PageTable ok s' pt (unmapRange f v n) l' R → (l' : Multiset Nat) =
      (l : Multiset Nat) + frames f v n → tree s'.mem pt = tree s.mem pt →
        Frame (tree s.mem pt + frames f v n) s.mem s'.mem → Q () s') :
    wp (uvmunmapFrom kend pt true n (v * PGSIZE)) Q E s := by
  induction n generalizing s f l v with
  | zero =>
    simp only [uvmunmapFrom, wp_pure]
    refine hPost s l ?_ ?_ rfl (Frame.refl _ _)
    · rw [unmapRange_zero]
      rw [frames_zero, zero_add] at h
      exact h
    · rw [frames_zero, add_zero]
  | succ n ih =>
    have hVa : v * PGSIZE < MAXVA := by
      unfold PGSIZE at *
      omega
    rcases hLeaf v (by omega) (by omega) with ⟨w, hf, hFlags⟩
    have hSplit : frames f v (n + 1) = PTE2PA w ::ₘ frames f (v + 1) n := by
      rw [frames_succ, frameAt, hf, Option.elim_some, Multiset.singleton_add]
    refine uvmunmapFrom_step h hf hFlags hVa ?_
    intro p hp
    have hVpn := (h.leaf_entry hf).1
    have hRamW : Ram kend (PTE2PA w) := hRam _ (by rw [hSplit]; simp)
    have hHeap := h.heap
    rw [hSplit, Multiset.cons_add, Multiset.add_cons] at hHeap
    simp only [if_true, st, wp_bind, wp_modify]
    refine kfree_spec hHeap hRamW ?_
    intro s₁ hHeap₁ hFrame₁
    -- The freed frame is not a page of the tree.
    have hOut : ∀ q ∈ tree s.mem pt, q ∉ ({PTE2PA w} : Multiset Nat) := by
      intro q hq hEq
      rw [Multiset.mem_singleton.mp hEq] at hq
      have hNodup := (Multiset.nodup_add.mp hHeap.nodup).2.1
      rw [Multiset.nodup_cons] at hNodup
      exact hNodup.1 (Multiset.mem_add.mpr (.inl hq))
    have hSame₁ := hFrame₁.sameEntries (fun q hq => (h.isPage hq).aligned) hOut
    have hTable₁ := h.frame hHeap₁ hSame₁
    have hTree₁ := hSame₁.tree
    have hp₁ : leafPage s₁.mem pt v = some p := by
      rw [← hp]
      exact hSame₁.find (vpath_mem hVpn)
    have hStored := hTable₁.storeLeaf (w := 0) hVpn hp₁ (by decide)
    have hFrame₂ := hTable₁.frame_storeLeaf (w := 0) hVpn hp₁
    have hTree₂ := hTable₁.tree_storeLeaf (w := 0) hVpn hp₁
    have hSame : frames (setLeaf f v 0) (v + 1) n = frames f (v + 1) n := by
      apply frames_congr
      intro u hLow _
      unfold setLeaf
      rw [if_neg (by omega)]
    rw [← hSame] at hStored
    refine ih hStored ?_ ?_ ?_ ?_
    · intro u hLow hHigh
      rcases hLeaf u (by omega) (by omega) with ⟨w', hw', hFlags'⟩
      refine ⟨w', ?_, hFlags'⟩
      unfold setLeaf
      rw [if_neg (by omega)]
      exact hw'
    · intro q hq
      rw [hSame] at hq
      exact hRam q (by rw [hSplit]; simp [hq])
    · rw [Nat.add_assoc, Nat.add_comm 1 n]
      exact hTop
    · intro s' l' hTable hList hTree hFrame
      rw [hSame] at hList hFrame
      refine hPost s' l' ?_ ?_ ?_ ?_
      · rw [← unmapRange_setLeaf]
        exact hTable
      · rw [hList, hSplit, ← Multiset.cons_coe, Multiset.cons_add, Multiset.add_cons]
      · rw [hTree, hTree₂, hTree₁]
      rw [hTree₂, hTree₁] at hFrame
      have hIn := leafPage_mem_tree hVpn hp
      refine (hFrame₁.mono ?_).trans ((hFrame₂.mono ?_).trans (hFrame.mono ?_))
      · intro q hq
        rw [Multiset.mem_singleton.mp hq, hSplit]
        simp
      · intro q hq
        rw [Multiset.mem_singleton.mp hq]
        exact Multiset.mem_add.mpr (.inl hIn)
      · intro q hq
        rw [hSplit]
        rcases Multiset.mem_add.mp hq with hq | hq
        · exact Multiset.mem_add.mpr (.inl hq)
        · simp [hq]

theorem pageSteps_range (hTop : (v + n) * PGSIZE ≤ MAXVA) :
    pageSteps (v * PGSIZE) ((v * PGSIZE + n * PGSIZE) % UINT64) = n := by
  unfold pageSteps PGSIZE UINT64 MAXVA at *
  omega

theorem uvmunmap_keep_spec (h : PageTable ok s pt f l R)
    (hLeaf : ∀ u, v ≤ u → u < v + n → IsLeaf f u) (hTop : (v + n) * PGSIZE ≤ MAXVA)
    (hPost : ∀ s', PageTable ok s' pt (unmapRange f v n) l R → Moved s s' pt l l → Q () s') :
    wp (uvmunmap kend pt (v * PGSIZE) n false) Q E s := by
  have hAligned : ¬ v * PGSIZE % PGSIZE ≠ 0 := by simp
  simp only [uvmunmap, if_neg hAligned, pageSteps_range hTop]
  exact uvmunmapFrom_keep_spec h hLeaf hTop hPost

theorem uvmunmap_free_spec (h : PageTable ok s pt f l (frames f v n + R))
    (hLeaf : ∀ u, v ≤ u → u < v + n → IsLeaf f u) (hRam : ∀ p ∈ frames f v n, Ram kend p)
    (hTop : (v + n) * PGSIZE ≤ MAXVA)
    (hPost : ∀ s' l', PageTable ok s' pt (unmapRange f v n) l' R → (l' : Multiset Nat) =
      (l : Multiset Nat) + frames f v n → tree s'.mem pt = tree s.mem pt →
        Frame (tree s.mem pt + frames f v n) s.mem s'.mem → Q () s') :
    wp (uvmunmap kend pt (v * PGSIZE) n true) Q E s := by
  have hAligned : ¬ v * PGSIZE % PGSIZE ≠ 0 := by simp
  simp only [uvmunmap, if_neg hAligned, pageSteps_range hTop]
  exact uvmunmapFrom_free_spec h hLeaf hRam hTop hPost

end Xv6.Vm

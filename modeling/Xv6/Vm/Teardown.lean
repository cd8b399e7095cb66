import Xv6.Vm.Space

/-
  Freeing a page table.

  `freewalk` gives back the pages of a tree whose leaves
  have all been removed. It works bottom up: a page is freed
  after the trees below it, which do not overlap it or each
  other.

  Main declarations:
    * `Clear`
    * `freewalk_spec`
    * `uvmfree_spec`
-/

namespace Xv6.Vm

open Prog

---- Trees Without Leaves

/- The pages at most `d` levels below `p`. -/
def subtree (m : Memory) (d p : Nat) : Multiset Nat := Radix.pages (child m) 512 d p

/- Inner entries look like inner entries, leaves are gone. -/
def Clear (m : Memory) : Nat → Nat → Prop
| 0, p => ∀ i < 512, pteAt m p i &&& PTE_V = 0
| d + 1, p =>
  ∀ i < 512, pteAt m p i &&& PTE_V ≠ 0 → Interior (pteAt m p i) ∧ Clear m d (PTE2PA (pteAt m p i))

/- The trees below some of the entries of a page. -/
def below (m : Memory) (d p : Nat) (is : List Nat) : Multiset Nat :=
  (is.map fun i =>
    ((child m p i).elim 0 (subtree m d) : Multiset Nat)).sum

theorem subtree_succ (m : Memory) (d p : Nat) :
    subtree m (d + 1) p = p ::ₘ below m d p (List.range 512) := Radix.pages_succ (child m) 512 d p

theorem below_cons (m : Memory) (d p i : Nat) (is : List Nat) :
    below m d p (i :: is) = (child m p i).elim 0 (subtree m d) + below m d p is := by
  simp [below]

variable {m m' : Memory} {d p : Nat} {is : List Nat} {i : Nat}

theorem child_of_valid (h : pteAt m p i &&& PTE_V ≠ 0) :
    child m p i = some (PTE2PA (pteAt m p i)) := if_pos h

theorem child_of_invalid (h : pteAt m p i &&& PTE_V = 0) : child m p i = none :=
  if_neg (not_not.mpr h)

theorem mem_subtree_root : p ∈ subtree m d p := Radix.root_mem_pages

theorem mem_subtree_succ {q r : Nat} (hi : i < 512) (hq : child m p i = some q)
    (hr : r ∈ subtree m d q) : r ∈ subtree m (d + 1) p := by
  rcases Radix.mem_pages.mp hr with ⟨xs, hxs, hFind⟩
  rcases Radix.mem_paths.mp hxs with ⟨hLen, hBelow⟩
  refine Radix.mem_pages.mpr ⟨i :: xs, ?_, ?_⟩
  · refine Radix.mem_paths.mpr ⟨?_, ?_⟩
    · simp only [List.length_cons]
      omega
    · intro j hj
      rcases List.mem_cons.mp hj with rfl | hj
      · exact hi
      · exact hBelow j hj
  · simp only [Radix.find, hq, Option.bind_some]
    exact hFind

theorem subtree_le_below {q r : Nat} (hi : i ∈ is) (hq : child m p i = some q)
    (hr : r ∈ subtree m d q) : r ∈ below m d p is := by
  induction is with
  | nil => simp at hi
  | cons j is ih =>
    rw [below_cons, Multiset.mem_add]
    rcases List.mem_cons.mp hi with rfl | hi
    · left
      rw [hq]
      exact hr
    · right
      exact ih hi

theorem subtree_congr (h : ∀ q ∈ subtree m d p, ∀ i < 512, pteAt m' q i = pteAt m q i) :
    subtree m' d p = subtree m d p := by
  refine Radix.pages_congr ?_
  intro ys q hLen hBelow hq i hi
  refine child_congr (h q ?_ i hi)
  exact Radix.mem_pages.mpr ⟨ys, Radix.mem_paths.mpr ⟨Nat.le_of_lt hLen, hBelow⟩, hq⟩

theorem Clear.congr (hClear : Clear m d p)
    (h : ∀ q ∈ subtree m d p, ∀ i < 512, pteAt m' q i = pteAt m q i) : Clear m' d p := by
  induction d generalizing p with
  | zero =>
    intro i hi
    rw [h p mem_subtree_root i hi]
    exact hClear i hi
  | succ d ih =>
    intro i hi hValid
    rw [h p mem_subtree_root i hi] at hValid ⊢
    rcases hClear i hi hValid with ⟨hInner, hRest⟩
    refine ⟨hInner, ih hRest ?_⟩
    intro q hq
    refine h q ?_
    exact mem_subtree_succ hi (child_of_valid hValid) hq

theorem below_congr (hEntry : ∀ i ∈ is, pteAt m' p i = pteAt m p i)
    (h : ∀ q ∈ below m d p is, ∀ i < 512, pteAt m' q i = pteAt m q i) :
    below m' d p is = below m d p is := by
  have hTrees : ∀ i ∈ is, ((child m' p i).elim 0 (subtree m' d) : Multiset Nat) =
      (child m p i).elim 0 (subtree m d) := by
    intro i hi
    rw [child_congr (hEntry i hi)]
    cases hq : child m p i with
    | none => simp only [Option.elim_none]
    | some q =>
      simp only [Option.elim_some]
      refine subtree_congr (fun r hr => h r ?_)
      exact subtree_le_below hi hq hr
  unfold below
  rw [List.map_congr_left hTrees]

---- Freeing The Tree

variable {L : Layout} {s : Kmem} {R : Multiset Nat} {E : Panic → Prop} {Q : Unit → Kmem → Prop}

/- A page of leaf entries without entries is left alone. -/
theorem freewalkFrom_empty {free : Nat → VmM Unit} {is : List Nat}
    (h : ∀ i ∈ is, pteAt s.mem p i &&& PTE_V = 0) (hPost : Q () s) :
    wp (freewalkFrom free p is) Q E s := by
  induction is with
  | nil =>
    simp only [freewalkFrom, wp_pure]
    exact hPost
  | cons i is ih =>
    have hInvalid : s.mem.load (p + 8 * i) 8 &&& PTE_V = 0 := h i (by simp)
    simp only [freewalkFrom, ld, wp_bind, wp_get, wp_pure, hInvalid, ne_eq,
      not_true_eq_false, false_and, if_false]
    exact ih (fun j hj => h j (by simp [hj]))

theorem Keeps.pteAt {m m' : Memory} {q i : Nat} (h : Keeps R m m') (hq : q % PGSIZE = 0)
    (hIn : q ∈ R) (hi : i < 512) : pteAt m' q i = pteAt m q i := by
  refine h.load hq hIn ?_
  unfold PGSIZE
  omega

/- The loop of `freewalk` frees the trees below the entries it has left to visit. -/
theorem freewalkFrom_spec {free : Nat → VmM Unit} {is : List Nat}
    (hFree : ∀ (s : Kmem) (q : Nat) (R : Multiset Nat)
      (Q : Unit → Kmem → Prop), Books L s (subtree s.mem d q + R) → Clear s.mem d q →
          (∀ s', Books L s' R → Keeps R s.mem s'.mem → Q () s') → wp (free q) Q E s)
    (hNodup : is.Nodup) (hIs : ∀ i ∈ is, i < 512) (h : Books L s (p ::ₘ (below s.mem d p is + R)))
    (hClear : ∀ i ∈ is, pteAt s.mem p i &&& PTE_V ≠ 0 →
        Interior (pteAt s.mem p i) ∧ Clear s.mem d (PTE2PA (pteAt s.mem p i)))
    (hPost : ∀ s', Books L s' (p ::ₘ R) → Keeps R s.mem s'.mem → Q () s') :
    wp (freewalkFrom free p is) Q E s := by
  induction is generalizing s with
  | nil =>
    simp only [freewalkFrom, wp_pure]
    refine hPost s ?_ (Keeps.refl _ _)
    simpa [below] using h
  | cons i is ih =>
    have hi := hIs i (by simp)
    rw [List.nodup_cons] at hNodup
    have hRam : ∀ q ∈ p ::ₘ (below s.mem d p (i :: is) + R), q % PGSIZE = 0 :=
      fun q hq => (h.isRam hq).aligned
    simp only [freewalkFrom, ld, wp_bind, wp_get, wp_pure]
    by_cases hValid : pteAt s.mem p i &&& PTE_V ≠ 0
    · rcases hClear i (by simp) hValid with ⟨hInner, hSub⟩
      have hBelow := below_cons s.mem d p i is
      rw [child_of_valid hValid, Option.elim_some] at hBelow
      have hCond : s.mem.load (p + 8 * i) 8 &&& PTE_V ≠ 0 ∧ s.mem.load (p + 8 * i) 8 &&&
          (PTE_R ||| PTE_W ||| PTE_X) = 0 :=
        ⟨hValid, hInner⟩
      rw [if_pos hCond, wp_bind]
      -- The tree below entry `i`, and all the rest.
      have hBooks : Books L s
          (subtree s.mem d (PTE2PA (pteAt s.mem p i)) + (p ::ₘ (below s.mem d p is + R))) := by
        refine h.own_eq ?_
        rw [hBelow, Multiset.add_cons, add_assoc]
      refine hFree s _ _ _ hBooks hSub ?_
      intro s₁ h₁ hKeeps₁
      simp only [st, wp_bind, wp_modify]
      have hPage : p % PGSIZE = 0 := hRam p (by simp)
      have hStore := frame_store s₁.mem (o := 8 * i) (k := 8) 0 hPage (by unfold PGSIZE; omega)
      have h₂ := h₁.write (by simp) hStore
      have hKeeps₂ := hStore.keeps_rest h₁.nodup
      -- What is left to visit has not changed.
      have hEntry : ∀ j ∈ is, pteAt (s₁.mem.store (p + 8 * i) 8 0) p j = pteAt s.mem p j := by
        intro j hj
        have hNe : j ≠ i := fun hEq =>
          hNodup.1 (hEq ▸ hj)
        have hjLt := hIs j (by simp [hj])
        rw [pteAt_store_other _ hPage hPage hi hjLt (.inr hNe)]
        exact hKeeps₁.pteAt hPage (by simp) hjLt
      have hDeep : ∀ q ∈ below s.mem d p is, ∀ j < 512,
          pteAt (s₁.mem.store (p + 8 * i) 8 0) q j = pteAt s.mem q j := by
        intro q hq j hj
        have hqPage : q % PGSIZE = 0 := hRam q (by rw [hBelow]; simp [hq])
        have h₁' := hKeeps₁.pteAt hqPage (by simp [hq]) hj
        have h₂' := hKeeps₂.pteAt hqPage (by simp [hq]) hj
        exact h₂'.trans h₁'
      refine ih hNodup.2 (fun j hj => hIs j (by simp [hj])) ?_ ?_ ?_
      · rw [below_congr hEntry hDeep]
        exact h₂
      · intro j hj hValid'
        rw [hEntry j hj] at hValid' ⊢
        rcases hClear j (by simp [hj]) hValid' with ⟨hInner', hSub'⟩
        refine ⟨hInner', hSub'.congr ?_⟩
        intro q hq
        exact hDeep q (subtree_le_below hj (child_of_valid hValid') hq)
      · intro s' hBooks' hKeeps'
        refine hPost s' hBooks' ?_
        exact (hKeeps₁.mono (by simp +contextual)).trans
          ((hKeeps₂.mono (by simp +contextual)).trans hKeeps')
    · have hInvalid := not_not.mp hValid
      have hLoad : s.mem.load (p + 8 * i) 8 &&& PTE_V = 0 := hInvalid
      have hBelow := below_cons s.mem d p i is
      rw [child_of_invalid hInvalid, Option.elim_none, zero_add] at hBelow
      rw [hBelow] at h
      simp only [hLoad, ne_eq, not_true_eq_false, false_and, if_false]
      exact ih hNodup.2 (fun j hj => hIs j (by simp [hj])) h
        (fun j hj => hClear j (by simp [hj])) hPost

theorem freewalk_spec (d : Nat) (s : Kmem) (p : Nat) (R : Multiset Nat) (Q : Unit → Kmem → Prop)
    (h : Books L s (subtree s.mem d p + R)) (hClear : Clear s.mem d p)
    (hPost : ∀ s', Books L s' R → Keeps R s.mem s'.mem → Q () s') :
    wp (freewalk L.kend (d + 1) p) Q E s := by
  induction d generalizing s p R Q with
  | zero =>
    simp only [freewalk, wp_bind]
    refine freewalkFrom_empty ?_ ?_
    · intro i hi
      exact hClear i (List.mem_range.mp hi)
    · refine kfree_books ?_ hPost
      rw [subtree, Radix.pages_zero, Multiset.singleton_add] at h
      exact h
  | succ d ih =>
    rw [subtree_succ, Multiset.cons_add] at h
    rw [freewalk, wp_bind]
    refine freewalkFrom_spec (fun s q R Q hB hC hP => ih s q R Q hB hC hP) List.nodup_range
      (fun i hi => List.mem_range.mp hi) h (fun i hi => hClear i (List.mem_range.mp hi)) ?_
    intro s₁ h₁ hKeeps₁
    refine kfree_books h₁ ?_
    intro s' h' hKeeps'
    exact hPost s' h' (hKeeps₁.trans hKeeps')

---- Freeing An Address Space

theorem vpath_triple {i j k : Nat} (hj : j < 512) (hk : k < 512) :
    vpath (i * 2 ^ 18 + j * 2 ^ 9 + k) = [i, j] ∧ (i * 2 ^ 18 + j * 2 ^ 9 + k) % 512 = k := by
  refine ⟨?_, by omega⟩
  unfold vpath
  congr 1
  · omega
  · congr 1
    omega

theorem Table.clear {pt : Nat} (h : Table L s pt (fun _ => none) R) : Clear s.mem 2 pt := by
  intro i hi hValid
  refine ⟨?_, ?_⟩
  · exact h.plain [] pt (by simp) (by simp) rfl i hi hValid
  have hFind : Radix.find (child s.mem) pt [i] = some (PTE2PA (pteAt s.mem pt i)) := by
    simp only [Radix.find, child_of_valid hValid, Option.bind_some]
  intro j hj hValid'
  refine ⟨?_, ?_⟩
  · exact h.plain [i] _ (by simp) (by simpa using hi) hFind j hj hValid'
  intro k hk
  rcases vpath_triple (i := i) hj hk with ⟨hPath, hLow⟩
  have hNone := congrFun h.map (i * 2 ^ 18 + j * 2 ^ 9 + k)
  unfold leaf leafPage at hNone
  rw [if_pos (by omega), hPath, hLow] at hNone
  simp only [Radix.find, child_of_valid hValid,
    child_of_valid hValid', Option.bind_some] at hNone
  unfold entry at hNone
  by_contra hSome
  rw [if_neg hSome] at hNone
  cases hNone

theorem uvmunmap_all {pt n : Nat} {f : Nat → Option Nat} {P : Nat → Nat → Prop}
    (h : Table L s pt f (frames f 0 n + R)) (hRange : Range P f n) (hFlags : LeafFlags P)
    (hPost : ∀ s', Table L s' pt (unmapRange f 0 n) R → Keeps R s.mem s'.mem → Q () s') :
    wp (uvmunmap L.kend pt 0 n true) Q E s := by
  have hTail := uvmunmap_tail (Q := Q) (E := E) h hRange hFlags (Nat.zero_le n) ?_
  · rw [Nat.zero_mul, Nat.sub_zero] at hTail
    exact hTail
  · intro s' hTable hKeeps
    rw [Nat.sub_zero, frames_zero, zero_add] at hTable
    rw [frames_zero, zero_add] at hKeeps
    exact hPost s' hTable hKeeps

theorem uvmfree_spec {pt sz : Nat} {f : Nat → Option Nat} {P : Nat → Nat → Prop}
    (h : Table L s pt f (frames f 0 (pageCount sz) + R)) (hRange : Range P f (pageCount sz))
    (hFlags : LeafFlags P) (hAbove : ∀ v, USERTOP ≤ v → f v = none)
    (hPost : ∀ s', Books L s' R → Keeps R s.mem s'.mem → Q () s') :
    wp (uvmfree L.kend pt sz) Q E s := by
  have hLe := hRange.le h.books
  have hEmpty : unmapRange f 0 (pageCount sz) = fun _ => none := by
    funext v
    unfold unmapRange
    split
    · rfl
    · by_cases hv : v < USERTOP
      · exact hRange.gap v (by omega) hv
      · exact hAbove v (by omega)
  -- After the frames are gone only the tree is left.
  have hTree : ∀ s₁, Table L s₁ pt (unmapRange f 0 (pageCount sz)) R →
      Keeps R s.mem s₁.mem → wp (freewalk L.kend 3 pt) Q E s₁ := by
    intro s₁ h₁ hKeeps₁
    rw [hEmpty] at h₁
    refine freewalk_spec 2 s₁ pt R Q h₁.books h₁.clear ?_
    intro s' hBooks hKeeps
    exact hPost s' hBooks (hKeeps₁.trans hKeeps)
  unfold uvmfree
  by_cases hSz : sz > 0
  · have hCount : PGROUNDUP sz / PGSIZE = pageCount sz := by
      rw [pgroundup_eq (by omega)]
      exact Nat.mul_div_cancel _ (by decide)
    rw [if_pos hSz, hCount, wp_bind]
    exact uvmunmap_all h hRange hFlags hTree
  · have hZero : pageCount sz = 0 := by
      have hNone : sz = 0 := by omega
      rw [hNone]
      rfl
    rw [hZero, frames_zero, zero_add] at h
    rw [if_neg hSz]
    refine hTree s ?_ (Keeps.refl _ _)
    rw [hZero, unmapRange_zero]
    exact h

end Xv6.Vm

import Xv6.Vm.Tree

/-
  What `walk` computes, and what a store through the entry
  it returns does to the map of the page table.

  Main declarations:
    * `walk_true_spec`
    * `PageTable.storeLeaf`
    * `lookup_eq_leaf`
-/

namespace Xv6.Vm

open Prog

---- Indices

/- The indices `walk` follows from a level down. -/
def pxs (va : Nat) : Nat → List Nat
| 0 => []
| level + 1 => PX (level + 1) va :: pxs va level

theorem pxs_eq_vpath {va : Nat} (hVa : va < MAXVA) : pxs va 2 = vpath (va / PGSIZE) := by
  unfold MAXVA at hVa
  simp only [pxs, vpath, px_eq, PGSIZE]
  congr 1
  · omega
  · congr 1
    omega

theorem px_zero (va : Nat) : PX 0 va = va / PGSIZE % 512 := by
  rw [px_eq]
  unfold PGSIZE
  omega

theorem vpn_lt {va : Nat} (hVa : va < MAXVA) : va / PGSIZE < 2 ^ 26 := by
  unfold MAXVA at hVa
  unfold PGSIZE
  omega

theorem eq_of_vpath_eq {v v' : Nat} (hPath : vpath v = vpath v') (hLow : v % 512 = v' % 512) :
    v = v' := by
  simp only [vpath, List.cons.injEq, and_true] at hPath
  omega

---- Walking

variable {s : Kmem} {pt : Nat} {E : Panic → Prop}

theorem walkFrom_false_spec {va level p : Nat} {Q : Nat → Kmem → Prop}
    (hPost : Q ((Radix.find (child s.mem) p (pxs va level)).elim 0 (fun q => q + 8 * PX 0 va)) s) :
    wp (walkFrom va false level p) Q E s := by
  induction level generalizing p with
  | zero =>
    simp only [walkFrom, wp_pure]
    exact hPost
  | succ level ih =>
    simp only [walkFrom, ld, wp_bind, wp_get, wp_pure, wp_ite]
    have hChild : child s.mem p (PX (level + 1) va) =
        if s.mem.load (p + 8 * PX (level + 1) va) 8 &&&
            PTE_V ≠ 0 then
          some (PTE2PA (s.mem.load (p + 8 * PX (level + 1) va) 8))
        else
          none := by
      rfl
    simp only [pxs, Radix.find, hChild] at hPost
    refine ⟨fun hValid => ?_, fun hAbsent => ⟨fun _ => ?_, fun hFalse => absurd trivial hFalse⟩⟩
    · rw [if_pos hValid] at hPost
      exact ih hPost
    · rw [if_neg hAbsent] at hPost
      exact hPost

/- Without `alloc`, `walk` only reads. -/
theorem walk_false_spec {va : Nat} {Q : Nat → Kmem → Prop} (hVa : va < MAXVA)
    (hPost : Q ((leafPage s.mem pt (va / PGSIZE)).elim 0 (fun p => p + 8 * PX 0 va)) s) :
    wp (walk pt va false) Q E s := by
  have hNot : ¬ va ≥ MAXVA := by omega
  unfold walk
  rw [if_neg hNot]
  apply walkFrom_false_spec
  rw [pxs_eq_vpath hVa]
  exact hPost

variable {ok : Nat → Prop} {f : Nat → Option Nat} {l : List Nat} {R : Multiset Nat}

/- With `alloc`, the levels below `p` are completed, or the free list runs out on the way. -/
theorem walkFrom_true_spec {va level p : Nat} {Q : Nat → Kmem → Prop} (xs : List Nat)
    (hOk : ∀ r, IsPage r → ok (PA2PTE r ||| PTE_V)) (h : PageTable ok s pt f l R)
    (hp : Radix.find (child s.mem) pt xs = some p) (hBelow : ∀ i ∈ xs, i < 512)
    (hLen : xs.length + level = 2)
    (hFail : ∀ s' l', PageTable ok s' pt f l' R → Moved s s' pt l l' → Q 0 s')
    (hFound : ∀ s' l' q, PageTable ok s' pt f l' R → Moved s s' pt l l' →
      Radix.find (child s'.mem) pt (xs ++ pxs va level) = some q → Q (q + 8 * PX 0 va) s') :
    wp (walkFrom va true level p) Q E s := by
  induction level generalizing s l p xs with
  | zero =>
    simp only [walkFrom, wp_pure]
    refine hFound s l p h (Moved.refl s pt l) ?_
    simpa [pxs] using hp
  | succ level ih =>
    have hIndex := px_lt (level + 1) va
    have hBelow' : ∀ i ∈ xs ++ [PX (level + 1) va], i < 512 := by
      intro i hi
      rcases List.mem_append.mp hi with hi | hi
      · exact hBelow i hi
      · rw [List.mem_singleton.mp hi]
        exact hIndex
    have hLen' : (xs ++ [PX (level + 1) va]).length + level = 2 := by
      simp only [List.length_append, List.length_singleton]
      omega
    have hSplit : xs ++ pxs va (level + 1) = (xs ++ [PX (level + 1) va]) ++ pxs va level := by
      simp [pxs]
    simp only [walkFrom, ld, wp_bind, wp_get, wp_pure, wp_ite]
    refine ⟨fun hValid => ?_, fun hAbsent =>
      ⟨fun hFalse => (Bool.noConfusion hFalse), fun _ =>
        ?_⟩⟩
    · refine ih _ h ?_ hBelow' hLen' hFail ?_
      · rw [Radix.find_snoc, hp]
        exact if_pos hValid
      · intro s' l' q hTable hMoved hq
        rw [← hSplit] at hq
        exact hFound s' l' q hTable hMoved hq
    refine kalloc_spec h.heap ?_ ?_
    · intro _
      exact ⟨fun _ => hFail s l h (Moved.refl s pt l), fun hNe => absurd rfl hNe⟩
    intro r l' s₁ hl hHeap hFrame
    subst hl
    have hLink : LinkAt ok s s₁ pt f l' R xs p (PX (level + 1) va) r :=
      { table := h
        short := by omega
        below := hBelow
        index := hIndex
        parent := hp
        absent := not_not.mp hAbsent
        heap := hHeap
        frame := hFrame }
    have hNew := hLink.isPage_new
    refine ⟨fun hZero => absurd hZero hNew.ne_zero, fun _ => ?_⟩
    simp only [memset, st, wp_modify]
    have hTable := hLink.pageTable (hOk r hNew)
    have hMoved := hLink.moved
    refine ih _ hTable ?_ hBelow' hLen' ?_ ?_
    · have hHere :=
        Radix.find_link hLink.links hLink.links.path_mem
      rw [if_pos rfl] at hHere
      exact hHere
    · intro s' l'' hTable' hMoved'
      exact hFail s' l'' hTable' (hMoved.trans hMoved')
    · intro s' l'' q hTable' hMoved' hq
      rw [← hSplit] at hq
      exact hFound s' l'' q hTable' (hMoved.trans hMoved') hq

theorem walk_true_spec {va : Nat} {Q : Nat → Kmem → Prop}
    (hOk : ∀ r, IsPage r → ok (PA2PTE r ||| PTE_V)) (h : PageTable ok s pt f l R) (hVa : va < MAXVA)
    (hFail : ∀ s' l', PageTable ok s' pt f l' R → Moved s s' pt l l' → Q 0 s')
    (hFound : ∀ s' l' q, PageTable ok s' pt f l' R →
      Moved s s' pt l l' → leafPage s'.mem pt (va / PGSIZE) = some q → Q (q + 8 * PX 0 va) s') :
    wp (walk pt va true) Q E s := by
  have hNot : ¬ va ≥ MAXVA := by omega
  unfold walk
  rw [if_neg hNot]
  refine walkFrom_true_spec [] hOk h rfl (by simp) rfl hFail ?_
  intro s' l' q hTable hMoved hq
  rw [List.nil_append, pxs_eq_vpath hVa] at hq
  exact hFound s' l' q hTable hMoved hq

---- Storing A Leaf Entry

/- The map with one virtual page changed. -/
def setLeaf (f : Nat → Option Nat) (v w : Nat) : Nat → Option Nat :=
  fun u => if u = v then entry w else f u

variable {p v w : Nat}

section

variable (h : PageTable ok s pt f l R) (hv : v < 2 ^ 27) (hp : leafPage s.mem pt v = some p)
include h hv hp

theorem PageTable.inner_ne {ys : List Nat} {q : Nat} (hLen : ys.length < 2)
    (hBelow : ∀ i ∈ ys, i < 512) (hq : Radix.find (child s.mem) pt ys = some q) : q ≠ p := by
  intro hEq
  rw [hEq] at hq
  have hSame := h.path_eq (vpath_mem hv) (Radix.mem_paths.mpr ⟨Nat.le_of_lt hLen, hBelow⟩) hp hq
  rw [← hSame] at hLen
  simp [vpath] at hLen

theorem PageTable.pteAt_storeLeaf {q j : Nat} (hq : q ∈ tree s.mem pt) (hj : j < 512)
    (hNe : q ≠ p ∨ j ≠ v % 512) :
    pteAt (s.mem.store (p + 8 * (v % 512)) 8 w) q j = pteAt s.mem q j :=
  pteAt_store_other s.mem (h.isPage hq).aligned (h.isPage (leafPage_mem_tree hv hp)).aligned
    (Nat.mod_lt _ (by decide)) hj hNe

theorem PageTable.child_storeLeaf :
    ∀ ys q, ys.length < 2 → (∀ i ∈ ys, i < 512) → Radix.find (child s.mem) pt ys = some q →
      ∀ i < 512, child (s.mem.store (p + 8 * (v % 512)) 8 w) q i = child s.mem q i := by
  intro ys q hLen hBelow hq i hi
  have hIn : q ∈ tree s.mem pt :=
    Radix.mem_pages.mpr ⟨ys, Radix.mem_paths.mpr ⟨Nat.le_of_lt hLen, hBelow⟩, hq⟩
  exact child_congr (h.pteAt_storeLeaf hv hp hIn hi (.inl (h.inner_ne hv hp hLen hBelow hq)))

theorem PageTable.tree_storeLeaf : tree (s.mem.store (p + 8 * (v % 512)) 8 w) pt = tree s.mem pt :=
  Radix.pages_congr (h.child_storeLeaf hv hp)

theorem PageTable.leaf_storeLeaf (hw : w < 2 ^ 64) :
    leaf (s.mem.store (p + 8 * (v % 512)) 8 w) pt = setLeaf f v w := by
  funext u
  unfold setLeaf
  rw [← h.map]
  unfold leaf
  by_cases hu : u < 2 ^ 27
  · have hFind : leafPage (s.mem.store (p + 8 * (v % 512)) 8 w) pt u = leafPage s.mem pt u :=
      Radix.find_congr (h.child_storeLeaf hv hp) (vpath_mem hu)
    rw [if_pos hu, if_pos hu, hFind]
    by_cases hEq : u = v
    · rw [if_pos hEq, hEq, hp, Option.bind_some, pteAt_store_same _ _ _ hw]
    rw [if_neg hEq]
    cases hq : leafPage s.mem pt u with
    | none => simp only [Option.bind_none]
    | some q =>
      have hNe : q ≠ p ∨ u % 512 ≠ v % 512 := by
        by_cases hLow : u % 512 = v % 512
        · left
          intro hSame
          rw [hSame] at hq
          have hPath := h.path_eq (vpath_mem hu) (vpath_mem hv) hq hp
          exact hEq (eq_of_vpath_eq hPath hLow)
        · exact .inr hLow
      have hIn := leafPage_mem_tree hu hq
      have hLow : u % 512 < 512 := Nat.mod_lt _ (by decide)
      simp only [Option.bind_some, h.pteAt_storeLeaf hv hp hIn hLow hNe]
  · have hNe : u ≠ v := by omega
    rw [if_neg hu, if_neg hNe, if_neg hu]

theorem PageTable.frame_storeLeaf : Frame {p} s.mem (s.mem.store (p + 8 * (v % 512)) 8 w) := by
  have hIn := leafPage_mem_tree hv hp
  refine frame_store s.mem w (h.isPage hIn).aligned ?_
  unfold PGSIZE
  omega

/- A store to a leaf entry changes the map at one page. -/
theorem PageTable.storeLeaf (hw : w < 2 ^ 64) :
    PageTable ok { s with mem := s.mem.store (p + 8 * (v % 512)) 8 w } pt (setLeaf f v w) l R := by
  have hTree : tree _ pt = _ := h.tree_storeLeaf (w := w) hv hp
  have hIn := leafPage_mem_tree hv hp
  have hFrame := h.frame_storeLeaf (w := w) hv hp
  refine ⟨?_, ?_, h.leaf_storeLeaf hv hp hw⟩
  · rw [hTree]
    refine h.heap.write ?_ hFrame
    intro q hq
    rw [Multiset.mem_singleton.mp hq]
    exact Multiset.mem_add.mpr (.inl hIn)
  · intro xs q hLen hBelow hq i hi hValid
    have hxs : xs ∈ Radix.paths 512 2 := Radix.mem_paths.mpr ⟨Nat.le_of_lt hLen, hBelow⟩
    rw [Radix.find_congr (h.child_storeLeaf hv hp) hxs] at hq
    have hEntry :=
      h.pteAt_storeLeaf (w := w) hv hp (Radix.mem_pages.mpr ⟨xs, hxs, hq⟩) hi
        (.inl (h.inner_ne hv hp hLen hBelow hq))
    rw [hEntry] at hValid ⊢
    exact h.plain xs q hLen hBelow hq i hi hValid

theorem PageTable.moved_storeLeaf :
    Moved s { s with mem := s.mem.store (p + 8 * (v % 512)) 8 w } pt l l := by
  have hIn := leafPage_mem_tree hv hp
  have hFrame := h.frame_storeLeaf (w := w) hv hp
  refine ⟨?_, hFrame.mono ?_⟩
  · rw [h.tree_storeLeaf hv hp]
  · intro q hq
    rw [Multiset.mem_singleton.mp hq]
    exact Multiset.mem_add.mpr (.inr hIn)

end

---- Lookups

variable {va : Nat}

theorem PageTable.pte_ne_zero {p o : Nat} (h : PageTable ok s pt f l R) (hp : p ∈ tree s.mem pt) :
    p + o ≠ 0 := by
  have hNe := (h.isPage hp).ne_zero
  omega

/- The entry `walk` finds is the leaf of the tree. -/
theorem lookup_eq_leaf (h : PageTable ok s pt f l R) (hVa : va < MAXVA) :
    lookup s pt va = f (va / PGSIZE) := by
  have hVpn : va / PGSIZE < 2 ^ 27 := by
    have hLt := vpn_lt hVa
    omega
  have hWalk : wp (walk pt va false) (fun pte s' => s' = s ∧
        pte = (leafPage s.mem pt (va / PGSIZE)).elim 0 (fun p => p + 8 * PX 0 va))
      (fun _ => False) s :=
    walk_false_spec hVa ⟨rfl, rfl⟩
  rcases exists_ok_of_wp hWalk with ⟨pte, s', hRun, hState, hPte⟩
  subst hState
  unfold lookup
  rw [hRun, ← h.map]
  unfold leaf
  rw [if_pos hVpn]
  cases hp : leafPage s'.mem pt (va / PGSIZE) with
  | none =>
    rw [hp] at hPte
    simp [hPte]
  | some p =>
    rw [hp] at hPte
    have hNe : pte ≠ 0 := by
      rw [hPte]
      exact h.pte_ne_zero (leafPage_mem_tree hVpn hp)
    have hAddr : pte = p + 8 * (va / PGSIZE % 512) := by
      rw [hPte, px_zero]
      rfl
    rw [hAddr] at hNe
    simp only [hAddr, if_neg hNe, Option.bind_some]
    rfl

end Xv6.Vm

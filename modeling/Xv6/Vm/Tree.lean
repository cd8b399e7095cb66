import Xv6.Lib.Radix
import Xv6.Vm.PageTable

/-
  The tree of page-table pages and the map at its leaves.

  `child` reads a page-table entry as the page below it, so
  a page table is a radix tree of depth two whose last pages
  hold the leaf entries. `PageTable` collects what the
  operations rely on and keep: the pages of the tree are
  different from each other, from the free list and from
  the pages in use elsewhere.

  Correctness is proven by:
    * `SameEntries.tree`
    * `SameEntries.leaf`
    * `LinkAt.pageTable`
-/

namespace Xv6.Vm

---- Entries, Pages And Leaves

/- Entry `i` of the page-table page `p`. -/
def pteAt (m : Memory) (p i : Nat) : Nat := m.load (p + 8 * i) 8

/- The page an entry points to, if it is valid. -/
def child (m : Memory) (p i : Nat) : Option Nat :=
  if pteAt m p i &&& PTE_V ≠ 0 then some (PTE2PA (pteAt m p i)) else none

/- The page-table pages. -/
def tree (m : Memory) (pt : Nat) : Multiset Nat := Radix.pages (child m) 512 2 pt

/- The upper indices of a virtual page number. -/
def vpath (v : Nat) : List Nat := [v / 2 ^ 18, v / 2 ^ 9 % 512]

/- The page that holds the leaf entry of a virtual page. -/
def leafPage (m : Memory) (pt v : Nat) : Option Nat := Radix.find (child m) pt (vpath v)

/- A word as a leaf entry. -/
def entry (w : Nat) : Option Nat := if w &&& PTE_V = 0 then none else some w

/- The leaf entry of a virtual page, if it is valid. -/
def leaf (m : Memory) (pt v : Nat) : Option Nat :=
  if v < 2 ^ 27 then (leafPage m pt v).bind (fun p => entry (pteAt m p (v % 512))) else none

/- The valid entries above the leaves satisfy `ok`. -/
def Plain (ok : Nat → Prop) (m : Memory) (pt : Nat) : Prop :=
  ∀ xs p, xs.length < 2 → (∀ i ∈ xs, i < 512) →
      Radix.find (child m) pt xs = some p → ∀ i < 512, pteAt m p i &&& PTE_V ≠ 0 → ok (pteAt m p i)

theorem vpath_mem {v : Nat} (hv : v < 2 ^ 27) : vpath v ∈ Radix.paths 512 2 := by
  refine Radix.mem_paths.mpr ⟨by simp [vpath], ?_⟩
  intro i hi
  simp only [vpath, List.mem_cons, List.not_mem_nil, or_false] at hi
  rcases hi with rfl | rfl
  · omega
  · omega

theorem leafPage_mem_tree {m : Memory} {pt v p : Nat} (hv : v < 2 ^ 27)
    (hp : leafPage m pt v = some p) : p ∈ tree m pt :=
  Radix.mem_pages.mpr ⟨vpath v, vpath_mem hv, hp⟩

/- The entry of a mapped page. -/
theorem leaf_eq_some {m : Memory} {pt v w : Nat} (h : leaf m pt v = some w) :
    v < 2 ^ 27 ∧ ∃ p, leafPage m pt v = some p ∧ pteAt m p (v % 512) = w ∧ w &&& PTE_V ≠ 0 := by
  unfold leaf at h
  split at h
  · rename_i hv
    refine ⟨hv, ?_⟩
    cases hp : leafPage m pt v with
    | none => simp [hp] at h
    | some p =>
      rw [hp, Option.bind_some] at h
      unfold entry at h
      split at h
      · cases h
      · rename_i hValid
        have hw := Option.some.inj h
        rw [hw] at hValid
        exact ⟨p, rfl, hw, hValid⟩
  · cases h

theorem Frame.pteAt {S : Multiset Nat} {m m' : Memory} {p i : Nat} (h : Frame S m m')
    (hp : p % PGSIZE = 0) (hOut : p ∉ S) (hi : i < 512) : pteAt m' p i = pteAt m p i := by
  refine h.load hp hOut ?_
  unfold PGSIZE
  omega

theorem child_congr {m m' : Memory} {p i : Nat} (h : pteAt m' p i = pteAt m p i) :
    child m' p i = child m p i := by
  unfold child
  rw [h]

/- A page without valid entries is a tree of its own. -/
theorem tree_of_empty {m : Memory} {p : Nat} (h : ∀ i < 512, pteAt m p i &&& PTE_V = 0) :
    tree m p = {p} := by
  apply Radix.pages_of_no_child
  intro i hi
  simp [child, h i hi]

theorem leaf_of_empty {m : Memory} {p : Nat} (h : ∀ i < 512, pteAt m p i &&& PTE_V = 0) :
    leaf m p = fun _ => none := by
  funext v
  unfold leaf
  split
  · rename_i hv
    have hIndex : v / 2 ^ 18 < 512 := by omega
    have hChild : child m p (v / 2 ^ 18) = none := by
      unfold child
      rw [if_neg (not_not.mpr (h _ hIndex))]
    have hPage : leafPage m p v = none := by
      simp only [leafPage, vpath, Radix.find, hChild, Option.bind_none]
    rw [hPage, Option.bind_none]
  · rfl

---- Page Tables In Memory

/-
  A page table at `pt` with the leaf map `f`. The pages of
  the tree, the free pages `l` and the pages `R` in use
  elsewhere are all different.
-/
structure PageTable (ok : Nat → Prop) (s : Kmem) (pt : Nat) (f : Nat → Option Nat) (l : List Nat)
    (R : Multiset Nat) : Prop where
  heap : Heap s l (tree s.mem pt + R)
  plain : Plain ok s.mem pt
  map : leaf s.mem pt = f

/-
  A step that takes pages for the tree from the free list,
  or gives them back, and writes to these pages only.
-/
structure Moved (s s' : Kmem) (pt : Nat) (l l' : List Nat) : Prop where
  books : (l' : Multiset Nat) + tree s'.mem pt = (l : Multiset Nat) + tree s.mem pt
  frame : Frame ((l : Multiset Nat) + tree s.mem pt) s.mem s'.mem

theorem Moved.refl (s : Kmem) (pt : Nat) (l : List Nat) : Moved s s pt l l := ⟨rfl, Frame.refl _ _⟩

theorem Moved.trans {s s₁ s₂ : Kmem} {pt : Nat} {l l₁ l₂ : List Nat} (h₁ : Moved s s₁ pt l l₁)
    (h₂ : Moved s₁ s₂ pt l₁ l₂) : Moved s s₂ pt l l₂ := by
  refine ⟨h₂.books.trans h₁.books, h₁.frame.trans ?_⟩
  rw [← h₁.books]
  exact h₂.frame

variable {ok : Nat → Prop} {s : Kmem} {pt : Nat} {f : Nat → Option Nat} {l : List Nat}
variable {R : Multiset Nat}

section

variable (h : PageTable ok s pt f l R)
include h

theorem PageTable.tree_nodup : (tree s.mem pt).Nodup :=
  (Multiset.nodup_add.mp (Multiset.nodup_add.mp h.heap.nodup).2.1).1

theorem PageTable.isPage {p : Nat} (hp : p ∈ tree s.mem pt) :
    IsPage p := h.heap.isPage_own (Multiset.mem_add.mpr (.inl hp))

/- Pages of the tree at different places differ. -/
theorem PageTable.path_eq {xs ys : List Nat} {p : Nat} (hxs : xs ∈ Radix.paths 512 2)
    (hys : ys ∈ Radix.paths 512 2) (hfx : Radix.find (child s.mem) pt xs = some p)
    (hfy : Radix.find (child s.mem) pt ys = some p) :
    xs = ys := Radix.path_unique h.tree_nodup hxs hys hfx hfy

end

---- Writes Elsewhere

variable {S : Multiset Nat} {m m' : Memory}

section

/- The entries of a page table, in two memories. -/
def SameEntries (m m' : Memory) (pt : Nat) : Prop :=
  ∀ p ∈ tree m pt, ∀ i < 512, pteAt m' p i = pteAt m p i

theorem Frame.sameEntries (hFrame : Frame S m m') (hPage : ∀ p ∈ tree m pt, p % PGSIZE = 0)
    (hOut : ∀ p ∈ tree m pt, p ∉ S) : SameEntries m m' pt :=
  fun p hp _ hi => hFrame.pteAt (hPage p hp) (hOut p hp) hi

variable (h : SameEntries m m' pt)
include h

theorem SameEntries.child :
    ∀ ys p, ys.length < 2 → (∀ i ∈ ys, i < 512) →
      Radix.find (child m) pt ys = some p → ∀ i < 512, child m' p i = child m p i := by
  intro ys p hLen hBelow hp i hi
  have hIn : p ∈ tree m pt :=
    Radix.mem_pages.mpr ⟨ys, Radix.mem_paths.mpr ⟨Nat.le_of_lt hLen, hBelow⟩, hp⟩
  exact child_congr (h p hIn i hi)

theorem SameEntries.find {xs : List Nat} (hxs : xs ∈ Radix.paths 512 2) :
    Radix.find (Vm.child m') pt xs = Radix.find (Vm.child m) pt xs := Radix.find_congr h.child hxs

theorem SameEntries.tree : tree m' pt = tree m pt := Radix.pages_congr h.child

theorem SameEntries.leaf : leaf m' pt = leaf m pt := by
  funext v
  unfold Vm.leaf
  split
  · rename_i hv
    have hFind : leafPage m' pt v = leafPage m pt v := h.find (vpath_mem hv)
    rw [hFind]
    cases hp : leafPage m pt v with
    | none => simp only [Option.bind_none]
    | some p =>
      have hEntry := h p (leafPage_mem_tree hv hp) (v % 512) (Nat.mod_lt _ (by decide))
      simp only [Option.bind_some, hEntry]
  · rfl

theorem SameEntries.plain {ok : Nat → Prop} (hPlain : Plain ok m pt) : Plain ok m' pt := by
  intro xs p hLen hBelow hp i hi hValid
  have hMem : xs ∈ Radix.paths 512 2 := Radix.mem_paths.mpr ⟨Nat.le_of_lt hLen, hBelow⟩
  rw [h.find hMem] at hp
  have hIn : p ∈ Vm.tree m pt := Radix.mem_pages.mpr ⟨xs, hMem, hp⟩
  have hEntry := h p hIn i hi
  rw [hEntry] at hValid ⊢
  exact hPlain xs p hLen hBelow hp i hi hValid

end

/- A page table survives a step that stays away from it. -/
theorem PageTable.frame {ok : Nat → Prop} {s s' : Kmem} {pt : Nat} {f : Nat → Option Nat}
    {l l' : List Nat} {R R' : Multiset Nat} (h : PageTable ok s pt f l R)
    (hHeap : Heap s' l' (tree s.mem pt + R')) (hSame : SameEntries s.mem s'.mem pt) :
    PageTable ok s' pt f l' R' := by
  refine ⟨?_, hSame.plain h.plain, ?_⟩
  · rw [hSame.tree]
    exact hHeap
  · rw [hSame.leaf]
    exact h.map

---- Linking A Page

theorem pte2pa_link {r : Nat} (hr : IsPage r) : PTE2PA (PA2PTE r ||| PTE_V) = r := by
  have hPte : PTE2PA (PA2PTE r ||| 0 ||| PTE_V) = r := pte2pa_pte hr.lt hr.aligned (by decide)
  rwa [Nat.or_zero] at hPte

theorem link_lt {r : Nat} (hr : IsPage r) : PA2PTE r ||| PTE_V < 2 ^ 64 := by
  have hLt : PA2PTE r ||| 0 ||| PTE_V < 2 ^ 64 := pte_lt hr.lt (by decide)
  rwa [Nat.or_zero] at hLt

theorem pteAt_store_same (m : Memory) (q i : Nat) {v : Nat} (hv : v < 2 ^ 64) :
    pteAt (m.store (q + 8 * i) 8 v) q i = v := by
  unfold pteAt
  rw [Memory.load_store_same]
  exact Nat.mod_eq_of_lt hv

theorem pteAt_store_other (m : Memory) {p q i j v : Nat} (hp : p % PGSIZE = 0) (hq : q % PGSIZE = 0)
    (hi : i < 512) (hj : j < 512) (hNe : p ≠ q ∨ j ≠ i) :
    pteAt (m.store (q + 8 * i) 8 v) p j = pteAt m p j := by
  apply Memory.load_store_other
  unfold PGSIZE at hp hq
  omega

variable {s₁ : Kmem} {q r i : Nat} {ys : List Nat}

section

/- Memory after `walk` has linked `r` at entry `i` of `q`. -/
def linkMem (m : Memory) (q i r : Nat) : Memory :=
  (m.fill r PGSIZE 0).store (q + 8 * i) 8 (PA2PTE r ||| PTE_V)

/- A page taken from the free list, and where it goes. -/
structure LinkAt (ok : Nat → Prop) (s s₁ : Kmem) (pt : Nat) (f : Nat → Option Nat) (l : List Nat)
    (R : Multiset Nat) (ys : List Nat) (q i r : Nat) : Prop where
  table : PageTable ok s pt f (r :: l) R
  short : ys.length < 2
  below : ∀ j ∈ ys, j < 512
  index : i < 512
  parent : Radix.find (child s.mem) pt ys = some q
  absent : pteAt s.mem q i &&& PTE_V = 0
  heap : Heap s₁ l (r ::ₘ (tree s.mem pt + R))
  frame : Frame {r} s.mem s₁.mem

variable (h : LinkAt ok s s₁ pt f l R ys q i r)
include h

theorem LinkAt.parent_mem : q ∈ tree s.mem pt :=
  Radix.mem_pages.mpr ⟨ys, Radix.mem_paths.mpr ⟨Nat.le_of_lt h.short, h.below⟩, h.parent⟩

theorem LinkAt.isPage_new : IsPage r := h.heap.isPage_own (by simp)

theorem LinkAt.new_not_mem : r ∉ tree s.mem pt := by
  intro hIn
  have hNot := h.table.heap.not_mem_own (p := r) (by simp)
  exact hNot (Multiset.mem_add.mpr (.inl hIn))

theorem LinkAt.ne_new {p : Nat} (hp : p ∈ tree s.mem pt) : p ≠ r :=
  fun hEq => h.new_not_mem (hEq ▸ hp)

/- The link is the only entry of the old tree to change. -/
theorem LinkAt.pteAt_other {p j : Nat} (hp : p ∈ tree s.mem pt) (hj : j < 512) (hNe : p ≠ q ∨ j ≠ i) :
    pteAt (linkMem s₁.mem q i r) p j = pteAt s.mem p j := by
  have hPage := h.table.isPage hp
  have hParent := h.table.isPage h.parent_mem
  have hOut : p ∉ ({r} : Multiset Nat) := by simpa using h.ne_new hp
  have hFill := frame_fill s₁.mem 0 h.isPage_new.aligned
  unfold linkMem
  rw [pteAt_store_other _ hPage.aligned hParent.aligned h.index hj hNe,
    hFill.pteAt hPage.aligned hOut hj, h.frame.pteAt hPage.aligned hOut hj]

theorem LinkAt.pteAt_link : pteAt (linkMem s₁.mem q i r) q i = PA2PTE r ||| PTE_V :=
  pteAt_store_same _ q i (link_lt h.isPage_new)

theorem LinkAt.pteAt_new {j : Nat} (hj : j < 512) : pteAt (linkMem s₁.mem q i r) r j = 0 := by
  have hParent := h.table.isPage h.parent_mem
  have hNe := h.ne_new h.parent_mem
  unfold linkMem
  rw [pteAt_store_other _ h.isPage_new.aligned hParent.aligned h.index hj (.inl hNe.symm)]
  unfold pteAt
  refine Memory.load_fill_zero _ (by omega) ?_
  unfold PGSIZE
  omega

theorem LinkAt.links :
    Radix.Links (child s.mem) (child (linkMem s₁.mem q i r)) 512 2 pt ys i r := by
  refine ⟨h.table.tree_nodup, h.short, h.below, h.index, ⟨q, h.parent, ?_, ?_⟩, ?_, ?_⟩
  · simp [child, h.absent]
  · have hValid := valid_pte (PA2PTE r)
    simp only [child, h.pteAt_link]
    rw [if_pos hValid, pte2pa_link h.isPage_new]
  · intro j hj
    simp [child, h.pteAt_new hj]
  intro xs p j hLen hBelow hp hj hNe
  have hxs : xs ∈ Radix.paths 512 2 := Radix.mem_paths.mpr ⟨Nat.le_of_lt hLen, hBelow⟩
  have hys : ys ∈ Radix.paths 512 2 := Radix.mem_paths.mpr ⟨Nat.le_of_lt h.short, h.below⟩
  have hIn : p ∈ tree s.mem pt := Radix.mem_pages.mpr ⟨xs, hxs, hp⟩
  have hOther : p ≠ q ∨ j ≠ i := by
    rcases hNe with hPath | hIndex
    · left
      intro hEq
      rw [hEq] at hp
      exact hPath (h.table.path_eq hxs hys hp h.parent)
    · exact .inr hIndex
  exact child_congr (h.pteAt_other hIn hj hOther)

theorem LinkAt.tree_eq :
    tree (linkMem s₁.mem q i r) pt = r ::ₘ tree s.mem pt := Radix.pages_link h.links

theorem LinkAt.frame_link : Frame (r ::ₘ {q}) s₁.mem (linkMem s₁.mem q i r) := by
  have hParent := h.table.isPage h.parent_mem
  have hIndex := h.index
  have hFill := frame_fill s₁.mem 0 h.isPage_new.aligned
  have hStore :=
    frame_store (s₁.mem.fill r PGSIZE 0) (o := 8 * i) (k := 8) (PA2PTE r ||| PTE_V) hParent.aligned
      (by unfold PGSIZE; omega)
  exact (hFill.mono (by simp)).trans (hStore.mono (by simp))

/- A new page without entries changes no leaf. -/
theorem LinkAt.leaf_eq : leaf (linkMem s₁.mem q i r) pt = leaf s.mem pt := by
  funext v
  unfold leaf
  split
  · rename_i hv
    have hPath := vpath_mem hv
    have hLow : v % 512 < 512 := Nat.mod_lt _ (by decide)
    have hFind := Radix.find_link h.links hPath
    unfold leafPage
    rw [hFind]
    by_cases hHere : vpath v = ys ++ [i]
    · have hOld : Radix.find (child s.mem) pt (vpath v) = none := by
        rw [hHere, Radix.find_snoc, h.parent]
        simp [child, h.absent]
      rw [if_pos hHere, hOld]
      simp only [Option.bind_some, Option.bind_none, h.pteAt_new hLow]
      decide
    rw [if_neg hHere]
    cases hp : Radix.find (child s.mem) pt (vpath v) with
    | none => simp only [Option.bind_none]
    | some p =>
      have hIn : p ∈ tree s.mem pt := leafPage_mem_tree hv hp
      -- The page of a leaf is deeper than the parent.
      have hNe : p ≠ q := by
        intro hEq
        rw [hEq] at hp
        have hys : ys ∈ Radix.paths 512 2 := Radix.mem_paths.mpr ⟨Nat.le_of_lt h.short, h.below⟩
        have hSame := h.table.path_eq hPath hys hp h.parent
        have hShort := h.short
        rw [← hSame] at hShort
        simp [vpath] at hShort
      simp only [Option.bind_some, h.pteAt_other hIn hLow (.inl hNe)]
  · simp only

theorem LinkAt.plain (hOk : ok (PA2PTE r ||| PTE_V)) : Plain ok (linkMem s₁.mem q i r) pt := by
  intro xs p hLen hBelow hp j hj hValid
  have hxs : xs ∈ Radix.paths 512 2 := Radix.mem_paths.mpr ⟨Nat.le_of_lt hLen, hBelow⟩
  rw [Radix.find_link h.links hxs] at hp
  by_cases hHere : xs = ys ++ [i]
  · rw [if_pos hHere] at hp
    cases hp
    rw [h.pteAt_new hj] at hValid
    simp at hValid
  rw [if_neg hHere] at hp
  have hIn : p ∈ tree s.mem pt := Radix.mem_pages.mpr ⟨xs, hxs, hp⟩
  by_cases hLink : p = q ∧ j = i
  · rcases hLink with ⟨rfl, rfl⟩
    rw [h.pteAt_link]
    exact hOk
  · have hEntry := h.pteAt_other hIn hj (by tauto)
    rw [hEntry] at hValid ⊢
    exact h.table.plain xs p hLen hBelow hp j hj hValid

/- `walk` links a page and keeps the page table. -/
theorem LinkAt.pageTable (hOk : ok (PA2PTE r ||| PTE_V)) :
    PageTable ok { s₁ with mem := linkMem s₁.mem q i r } pt f l R := by
  refine ⟨?_, h.plain hOk, ?_⟩
  · have hWritten := h.heap.write ?_ h.frame_link
    · refine hWritten.own_eq ?_
      rw [h.tree_eq, Multiset.cons_add]
    · intro p hp
      rcases Multiset.mem_cons.mp hp with rfl | hp
      · simp
      · rw [Multiset.mem_singleton.mp hp]
        simp [h.parent_mem]
  · rw [← h.table.map]
    exact h.leaf_eq

theorem LinkAt.moved : Moved s { s₁ with mem := linkMem s₁.mem q i r } pt (r :: l) l := by
  refine ⟨?_, ?_⟩
  · rw [h.tree_eq, ← Multiset.cons_coe, Multiset.cons_add, Multiset.add_cons]
  have hAll :=
    (h.frame.mono (T := r ::ₘ {q}) (by simp)).trans h.frame_link
  refine hAll.mono ?_
  intro p hp
  rcases Multiset.mem_cons.mp hp with rfl | hp
  · simp
  · rw [Multiset.mem_singleton.mp hp]
    simp [h.parent_mem]

end

end Xv6.Vm

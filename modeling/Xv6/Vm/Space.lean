import Xv6.Vm.Books
import Xv6.Vm.Uvm

/-
  Growing and shrinking an address space.

  User memory is a range of virtual pages from zero on.
  `Range P f n` says that the map `f` has exactly the first
  `n` of them below the trapframe, with entries that satisfy
  `P`. Their frames are pages in use beside the page table.

  Main declarations:
    * `Range`
    * `uvmdealloc_spec`
    * `uvmalloc_spec`
-/

namespace Xv6.Vm

open Prog

---- Pages Beside A Page Table

variable {L : Layout} {s : Kmem} {pt p : Nat} {f : Nat → Option Nat} {R : Multiset Nat}
variable {E : Panic → Prop}

section

variable (h : Table L s pt f R)
include h

theorem Table.rest_nodup : R.Nodup := (Multiset.nodup_add.mp h.books.nodup).2.1

theorem Table.isPage_rest (hp : p ∈ R) : IsPage p :=
  (h.books.isRam (Multiset.mem_add.mpr (.inr hp))).isPage

theorem Table.not_mem_tree (hp : p ∈ R) : p ∉ tree s.mem pt := by
  have hDisjoint := (Multiset.nodup_add.mp h.books.nodup).2.2
  exact fun hIn =>
    Multiset.disjoint_left.mp hDisjoint hIn hp

/- Writing to a page beside the page table. -/
theorem Table.write {m' : Memory} (hp : p ∈ R) (hFrame : Frame {p} s.mem m') :
    Table L { s with mem := m' } pt f R := by
  have hBooks := h.books.write (Multiset.mem_add.mpr (.inr hp)) hFrame
  refine h.keeps hBooks (hFrame.keeps ?_)
  intro q hq hEq
  rw [Multiset.mem_singleton.mp hEq] at hq
  exact h.not_mem_tree hp hq

theorem Table.alloc {Q : Nat → Kmem → Prop} (hNone : Q 0 s)
    (hSome : ∀ p s', Table L s' pt f (p ::ₘ R) → Keeps R s.mem s'.mem → Q p s') :
    wp kalloc Q E s := by
  refine kalloc_books h.books hNone ?_
  intro p s' hBooks hKeeps
  refine hSome p s' (h.keeps ?_ ?_) ?_
  · exact hBooks.own_eq (Multiset.add_cons p _ _).symm
  all_goals exact hKeeps.mono (by simp +contextual)

end

theorem Table.free {Q : Unit → Kmem → Prop} (h : Table L s pt f (p ::ₘ R))
    (hPost : ∀ s', Table L s' pt f R → Keeps R s.mem s'.mem → Q () s') :
    wp (kfree L.kend p) Q E s := by
  have hBooks := h.books.own_eq (Multiset.add_cons p _ _)
  refine kfree_books hBooks ?_
  intro s' hBooks' hKeeps
  refine hPost s' (h.keeps hBooks' ?_) ?_
  all_goals exact hKeeps.mono (by simp +contextual)

---- Ranges Of User Pages

/- The first virtual page above user memory. -/
def USERTOP : Nat := TRAPFRAME / PGSIZE

structure Range (P : Nat → Nat → Prop) (f : Nat → Option Nat) (n : Nat) : Prop where
  leaves : ∀ v < n, ∃ w, f v = some w ∧ P v w
  gap : ∀ v, n ≤ v → v < USERTOP → f v = none

/- The page mapped at `v` has zero bytes only. -/
def ZeroAt (m : Memory) (f : Nat → Option Nat) (v : Nat) : Prop :=
  ∃ w, f v = some w ∧ ∀ o < PGSIZE, m (PTE2PA w + o) = 0

theorem frames_add (f : Nat → Option Nat) (v a b : Nat) :
    frames f v (a + b) = frames f v a + frames f (v + a) b := by
  unfold frames
  rw [Finset.sum_range_add]
  simp only [Nat.add_assoc]

theorem frames_last (f : Nat → Option Nat) (v n : Nat) :
    frames f v (n + 1) = frames f v n + frameAt f (v + n) := Finset.sum_range_succ _ n

theorem mem_frames {f : Nat → Option Nat} {v w n : Nat} (hv : v < n) (hf : f v = some w) :
    PTE2PA w ∈ frames f 0 n := by
  unfold frames
  refine Multiset.mem_sum.mpr ⟨v, Finset.mem_range.mpr hv, ?_⟩
  rw [Nat.zero_add, frameAt, hf, Option.elim_some, Multiset.mem_singleton]

/- The frames of fewer pages are among those of more. -/
theorem frames_subset {f : Nat → Option Nat} {n m : Nat} {R : Multiset Nat} (h : n ≤ m) :
    ∀ p ∈ frames f 0 n + R, p ∈ frames f 0 m + R := by
  intro p hp
  have hm : m = n + (m - n) := by omega
  rw [hm, frames_add]
  simp only [Multiset.mem_add] at hp ⊢
  exact hp.imp_left Or.inl

theorem setLeaf_same (f : Nat → Option Nat) (v : Nat) {w : Nat} (h : w &&& PTE_V ≠ 0) :
    setLeaf f v w v = some w := by
  unfold setLeaf
  rw [if_pos rfl]
  exact if_neg h

theorem frames_setLeaf_before (f : Nat → Option Nat) (w : Nat) {n v : Nat} (h : n ≤ v) :
    frames (setLeaf f v w) 0 n = frames f 0 n := by
  apply frames_congr
  intro u _ hu
  unfold setLeaf
  rw [if_neg (by omega)]

/- A range of mapped pages has a frame for each. -/
theorem card_frames {f : Nat → Option Nat} {n : Nat} (h : ∀ v < n, ∃ w, f v = some w) :
    (frames f 0 n).card = n := by
  induction n with
  | zero => simp [frames]
  | succ n ih =>
    rcases h n (Nat.lt_succ_self n) with ⟨w, hw⟩
    rw [frames_last, Multiset.card_add, ih (fun v hv => h v (by omega)), Nat.zero_add,
      frameAt, hw, Option.elim_some, Multiset.card_singleton]

variable {n : Nat} {P : Nat → Nat → Prop}

/- Physical memory ends long before virtual memory. -/
theorem Range.le (h : Range P f n) (hBooks : Books L s (tree s.mem pt + (frames f 0 n + R))) :
    n ≤ 2 ^ 15 := by
  have hCard : (frames f 0 n).card = n := by
    apply card_frames
    intro v hv
    rcases h.leaves v hv with ⟨w, hw, _⟩
    exact ⟨w, hw⟩
  have hLe := hBooks.card_le
  rw [Multiset.card_add, Multiset.card_add, hCard] at hLe
  omega

theorem Range.shrink {m : Nat} (h : Range P f n) (hm : m ≤ n) :
    Range P (unmapRange f m (n - m)) m := by
  refine ⟨?_, ?_⟩
  · intro v hv
    rcases h.leaves v (by omega) with ⟨w, hw, hP⟩
    refine ⟨w, ?_, hP⟩
    unfold unmapRange
    rw [if_neg (by omega)]
    exact hw
  · intro v hLow hTop
    unfold unmapRange
    split
    · rfl
    · exact h.gap v (by omega) hTop

theorem Range.grow {w : Nat} (h : Range P f n) (hValid : w &&& PTE_V ≠ 0) (hP : P n w) :
    Range P (setLeaf f n w) (n + 1) := by
  refine ⟨?_, ?_⟩
  · intro v hv
    unfold setLeaf
    by_cases hEq : v = n
    · refine ⟨w, ?_, hEq ▸ hP⟩
      rw [if_pos hEq]
      exact if_neg hValid
    · rw [if_neg hEq]
      exact h.leaves v (by omega)
  · intro v hLow hTop
    unfold setLeaf
    rw [if_neg (by omega)]
    exact h.gap v (by omega) hTop

theorem frames_grow {p perm : Nat} (hp : IsPage p) (hPerm : perm < 1024) :
    frames (setLeaf f n (PA2PTE p ||| perm ||| PTE_V)) 0 (n + 1) = p ::ₘ frames f 0 n := by
  have hOld := frames_setLeaf_before f (PA2PTE p ||| perm ||| PTE_V) (Nat.le_refl n)
  have hNew : frameAt (setLeaf f n (PA2PTE p ||| perm ||| PTE_V)) n = {p} := by
    unfold frameAt setLeaf entry
    rw [if_pos rfl, if_neg (valid_pte _), Option.elim_some, pte2pa_pte hp.lt hp.aligned hPerm]
  rw [frames_last, hOld, Nat.zero_add, hNew, add_comm, Multiset.singleton_add]

---- Sizes

/- The pages that `sz` bytes take. -/
def pageCount (sz : Nat) : Nat := (sz + PGSIZE - 1) / PGSIZE

theorem pgroundup_eq {sz : Nat} (h : pageCount sz ≤ 2 ^ 26) :
    PGROUNDUP sz = pageCount sz * PGSIZE := by
  unfold PGROUNDUP pageCount PGSIZE UINT64 at *
  omega

theorem pageCount_mul (n : Nat) : pageCount (n * PGSIZE) = n := by
  unfold pageCount PGSIZE
  omega

theorem pageCount_mono {a b : Nat} (h : a ≤ b) : pageCount a ≤ pageCount b := by
  unfold pageCount PGSIZE
  omega

theorem pageCount_grow {oldsz newsz : Nat} (h : oldsz ≤ newsz) :
    pageSteps (pageCount oldsz * PGSIZE) newsz = pageCount newsz - pageCount oldsz := by
  unfold pageSteps pageCount PGSIZE
  omega

theorem toInt_eq {x : Nat} (h : x ≤ 2 ^ 26) : toInt x = x := by
  have hMod : x % 2 ^ 32 = x := Nat.mod_eq_of_lt (by omega)
  unfold toInt
  rw [hMod, if_pos (by omega)]

theorem range_top {n : Nat} (h : n ≤ 2 ^ 15) : (n + 1) * PGSIZE ≤ MAXVA ∧ n < USERTOP := by
  unfold USERTOP TRAPFRAME TRAMPOLINE PGSIZE MAXVA
  omega

theorem range_le_top {n : Nat} (h : n ≤ 2 ^ 15) : n * PGSIZE ≤ MAXVA := by
  unfold PGSIZE MAXVA
  omega

---- Shrinking

/- An entry that `uvmunmap` accepts. -/
def LeafFlags (P : Nat → Nat → Prop) : Prop := ∀ v w, P v w → PTE_FLAGS w ≠ PTE_V

variable {m : Nat} {Q : Nat → Kmem → Prop}

theorem Range.isLeaf {n : Nat} (h : Range P f n) (hFlags : LeafFlags P) : ∀ v < n, IsLeaf f v := by
  intro v hv
  rcases h.leaves v hv with ⟨w, hw, hP⟩
  exact ⟨w, hw, hFlags v w hP⟩

/- `uvmunmap` of the end of the range. -/
theorem uvmunmap_tail {n : Nat} {Q : Unit → Kmem → Prop} (h : Table L s pt f (frames f 0 n + R))
    (hRange : Range P f n) (hFlags : LeafFlags P) (hm : m ≤ n)
    (hPost : ∀ s', Table L s' pt (unmapRange f m (n - m))
        (frames (unmapRange f m (n - m)) 0 m + R) →
      Keeps (frames f 0 m + R) s.mem s'.mem → Q () s') :
    wp (uvmunmap L.kend pt (m * PGSIZE) (n - m) true) Q E s := by
  have hLe := hRange.le h.books
  have hSplit : frames f 0 n + R = frames f m (n - m) + (frames f 0 m + R) := by
    have hn : n = m + (n - m) := by omega
    rw [hn, frames_add, Nat.zero_add, Nat.add_sub_cancel_left]
    abel
  have hSame : frames (unmapRange f m (n - m)) 0 m = frames f 0 m := by
    apply frames_congr
    intro u _ hu
    unfold unmapRange
    rw [if_neg (by omega)]
  refine uvmunmap_free (h.rest_eq hSplit) ?_ ?_ ?_
  · intro u _ hHigh
    exact hRange.isLeaf hFlags u (by omega)
  · rw [Nat.add_sub_cancel' hm]
    exact range_le_top hLe
  · intro s' hTable hKeeps
    rw [hSame] at hPost
    exact hPost s' hTable hKeeps

theorem uvmdealloc_spec {oldsz newsz : Nat} (h : Table L s pt f (frames f 0 (pageCount oldsz) + R))
    (hRange : Range P f (pageCount oldsz)) (hFlags : LeafFlags P)
    (hKeep : oldsz ≤ newsz → Q oldsz s)
    (hShrink : ∀ s' g, newsz < oldsz → Table L s' pt g (frames g 0 (pageCount newsz) + R) →
      Range P g (pageCount newsz) → g = unmapRange f (pageCount newsz)
        (pageCount oldsz - pageCount newsz) →
        Keeps (frames f 0 (pageCount newsz) + R) s.mem s'.mem → Q newsz s') :
    wp (uvmdealloc L.kend pt oldsz newsz) Q E s := by
  unfold uvmdealloc
  by_cases hGe : newsz ≥ oldsz
  · rw [if_pos hGe, wp_pure]
    exact hKeep hGe
  have hLt : newsz < oldsz := by omega
  have hMono := pageCount_mono (Nat.le_of_lt hLt)
  have hLe := hRange.le h.books
  have hOld : PGROUNDUP oldsz = pageCount oldsz * PGSIZE := pgroundup_eq (by omega)
  have hNew : PGROUNDUP newsz = pageCount newsz * PGSIZE := pgroundup_eq (by omega)
  rw [if_neg hGe]
  simp only [hOld, hNew]
  by_cases hFewer : pageCount newsz * PGSIZE < pageCount oldsz * PGSIZE
  · have hCount : toInt ((pageCount oldsz * PGSIZE - pageCount newsz * PGSIZE) / PGSIZE) =
        pageCount oldsz - pageCount newsz := by
      rw [← Nat.sub_mul, Nat.mul_div_cancel _ (by decide), toInt_eq (by omega)]
    rw [if_pos hFewer, hCount, wp_bind]
    refine uvmunmap_tail h hRange hFlags hMono ?_
    intro s' hTable hKeeps
    rw [wp_pure]
    exact hShrink s' _ hLt hTable (hRange.shrink hMono) rfl hKeeps
  · have hEq : pageCount oldsz = pageCount newsz := by
      unfold PGSIZE at hFewer
      omega
    rw [if_neg hFewer, wp_pure]
    refine hShrink s f hLt ?_ ?_ ?_ (Keeps.refl _ _)
    · rw [← hEq]
      exact h
    · rw [← hEq]
      exact hRange
    · rw [hEq, Nat.sub_self, unmapRange_zero]

/- Back to a whole number of pages, as `uvmalloc` does. -/
theorem uvmdealloc_pages {n : Nat} (h : Table L s pt f (frames f 0 m + R)) (hRange : Range P f m)
    (hFlags : LeafFlags P) (hn : n ≤ m) (hPost : ∀ r s', Table L s' pt (unmapRange f n (m - n))
        (frames (unmapRange f n (m - n)) 0 n + R) →
      Keeps (frames f 0 n + R) s.mem s'.mem → Q r s') :
    wp (uvmdealloc L.kend pt (m * PGSIZE) (n * PGSIZE)) Q E s := by
  rw [← pageCount_mul m] at h hRange
  refine uvmdealloc_spec h hRange hFlags ?_ ?_
  · intro hLe
    have hEq : m = n := by
      unfold PGSIZE at hLe
      omega
    refine hPost _ s ?_ (Keeps.refl _ _)
    rw [hEq, Nat.sub_self, unmapRange_zero, ← hEq, ← pageCount_mul m]
    exact h
  · intro s' g _ hTable _ hg hKeeps
    rw [pageCount_mul, pageCount_mul] at hg
    rw [pageCount_mul, hg] at hTable
    rw [pageCount_mul] at hKeeps
    exact hPost _ s' hTable hKeeps

---- Growing

/- The entries `uvmalloc` makes. -/
def NewEntries (P : Nat → Nat → Prop) (xperm : Nat) : Prop :=
  ∀ v p, IsPage p → P v (PA2PTE p ||| (PTE_R ||| PTE_U ||| xperm) ||| PTE_V)

theorem unmapRange_grow {g : Nat → Option Nat} {n w : Nat} (hn : n ≤ m) (hFree : g m = none) :
    unmapRange (setLeaf g m w) n (m + 1 - n) = unmapRange g n (m - n) := by
  funext v
  unfold unmapRange setLeaf
  by_cases hEq : v = m
  · have hIn : n ≤ v ∧ v < n + (m + 1 - n) := by omega
    have hOut : ¬ (n ≤ v ∧ v < n + (m - n)) := by omega
    rw [if_pos hIn, if_neg hOut, hEq, hFree]
  · by_cases hIn : n ≤ v ∧ v < n + (m - n)
    · have hIn' : n ≤ v ∧ v < n + (m + 1 - n) := by omega
      rw [if_pos hIn, if_pos hIn']
    · have hOut : ¬ (n ≤ v ∧ v < n + (m + 1 - n)) := by omega
      rw [if_neg hIn, if_neg hOut, if_neg hEq]

/-
  The loop of `uvmalloc` with `k` pages to go: `n` pages
  were there before the call and `m` are there now.
-/
theorem uvmallocFrom_spec {g : Nat → Option Nat} {n k newsz xperm : Nat} (hFlags : LeafFlags P)
    (hNew : NewEntries P xperm) (hPerm : xperm < 1024) (h : Table L s pt g (frames g 0 m + R))
    (hRange : Range P g m) (hn : n ≤ m) (hFail : ∀ s', Table L s' pt (unmapRange g n (m - n))
        (frames (unmapRange g n (m - n)) 0 n + R) →
      Keeps (frames g 0 n + R) s.mem s'.mem → Q 0 s')
    (hDone : ∀ s' g', Table L s' pt g' (frames g' 0 (m + k) + R) → Range P g' (m + k) →
        (∀ v, v < m ∨ m + k ≤ v → g' v = g v) → Keeps (frames g 0 m + R) s.mem s'.mem →
          (∀ v, m ≤ v → v < m + k → ZeroAt s'.mem g' v) → Q newsz s') :
    wp (uvmallocFrom L.kend pt (n * PGSIZE) newsz xperm k (m * PGSIZE)) Q E s := by
  induction k generalizing s g m with
  | zero =>
    simp only [uvmallocFrom, wp_pure]
    refine hDone s g h hRange (fun _ _ => rfl) (Keeps.refl _ _) ?_
    intro v hLow hHigh
    omega
  | succ k ih =>
    have hLe := hRange.le h.books
    have hTop := range_top hLe
    have hFree := hRange.gap m (Nat.le_refl m) hTop.2
    have hPerm' : PTE_R ||| PTE_U ||| xperm < 1024 := Nat.or_lt_two_pow (n := 10) (by decide) hPerm
    simp only [uvmallocFrom, wp_bind]
    refine h.alloc ?_ ?_
    · -- No frame: what was mapped so far goes back.
      rw [if_pos rfl, wp_bind]
      refine uvmdealloc_pages h hRange hFlags hn ?_
      intro _ s' hTable hKeeps
      rw [wp_pure]
      exact hFail s' hTable hKeeps
    intro p s₁ h₁ hKeeps₁
    have hPage := h₁.isPage_rest (p := p) (by simp)
    have hFill := frame_fill s₁.mem 0 hPage.aligned
    have h₂ := h₁.write (by simp) hFill
    have hKeeps₂ := hFill.keeps_rest h₁.rest_nodup
    have hKeeps := hKeeps₁.trans hKeeps₂
    rw [if_neg hPage.ne_zero]
    simp only [memset, wp_bind, wp_modify]
    refine mappages_one h₂ hFree hTop.1 hPage.lt hPerm' ?_ ?_
    · -- No page for the tree: the frame goes back too.
      intro s₃ h₃ hKeeps₃
      rw [if_pos (by decide), wp_bind]
      refine h₃.free ?_
      intro s₄ h₄ hKeeps₄
      rw [wp_bind]
      refine uvmdealloc_pages h₄ hRange hFlags hn ?_
      intro _ s' hTable hKeeps₅
      rw [wp_pure]
      refine hFail s' hTable ?_
      have hBack : Keeps (frames g 0 m + R) s.mem s₄.mem :=
        hKeeps.trans ((hKeeps₃.mono (by simp +contextual)).trans hKeeps₄)
      exact (hBack.mono (frames_subset hn)).trans hKeeps₅
    intro s₃ h₃ hKeeps₃
    have hNext : m * PGSIZE + PGSIZE = (m + 1) * PGSIZE := by rw [Nat.add_mul, Nat.one_mul]
    have hKeeps' : Keeps (frames g 0 m + R) s.mem s₃.mem :=
      hKeeps.trans (hKeeps₃.mono (by simp +contextual))
    have hGrown := frames_grow (f := g) (n := m) hPage hPerm'
    have hEntry := setLeaf_same g m (valid_pte (PA2PTE p ||| (PTE_R ||| PTE_U ||| xperm)))
    have hZero : ∀ o < PGSIZE, s₃.mem (p + o) = 0 := by
      intro o ho
      rw [hKeeps₃ (p + o) (by
        rw [pgrounddown_add hPage.aligned ho]
        simp)]
      exact Memory.fill_same _ _ (by omega) (by omega)
    rw [if_neg (by decide), hNext]
    rw [← Multiset.cons_add, ← hGrown] at h₃
    refine ih h₃ (hRange.grow (valid_pte _) (hNew m p hPage)) (by omega) ?_ ?_
    · intro s' hTable hKeeps₄
      rw [unmapRange_grow hn hFree] at hTable
      rw [frames_setLeaf_before g _ hn] at hKeeps₄
      exact hFail s' hTable ((hKeeps'.mono (frames_subset hn)).trans hKeeps₄)
    intro s' g' hTable hRange' hSame hKeeps₄ hZeros
    have hCount : m + 1 + k = m + (k + 1) := by omega
    rw [hCount] at hTable hRange' hZeros
    rw [hGrown] at hKeeps₄
    refine hDone s' g' hTable hRange' ?_
      (hKeeps'.trans (hKeeps₄.mono (by simp +contextual))) ?_
    · intro v hv
      rw [hSame v (by omega)]
      unfold setLeaf
      rw [if_neg (by omega)]
    intro v hLow hHigh
    by_cases hv : v = m
    · subst hv
      refine ⟨_, (hSame v (by omega)).trans hEntry, ?_⟩
      intro o ho
      rw [pte2pa_pte hPage.lt hPage.aligned hPerm']
      rw [hKeeps₄ (p + o) (by
        rw [pgrounddown_add hPage.aligned ho]
        simp)]
      exact hZero o ho
    · exact hZeros v (by omega) hHigh

/- `uvmalloc` that is asked to grow reaches the new size or leaves the map as it was. -/
theorem uvmalloc_spec {oldsz newsz xperm : Nat} (hFlags : LeafFlags P) (hNew : NewEntries P xperm)
    (hPerm : xperm < 1024) (h : Table L s pt f (frames f 0 (pageCount oldsz) + R))
    (hRange : Range P f (pageCount oldsz)) (hLess : newsz < oldsz → Q oldsz s)
    (hFail : ∀ s', oldsz ≤ newsz → Table L s' pt f (frames f 0 (pageCount oldsz) + R) →
      Keeps (frames f 0 (pageCount oldsz) + R) s.mem s'.mem → Q 0 s')
    (hDone : ∀ s' g, oldsz ≤ newsz → Table L s' pt g (frames g 0 (pageCount newsz) + R) →
      Range P g (pageCount newsz) → (∀ v, v < pageCount oldsz ∨ USERTOP ≤ v → g v = f v) →
        Keeps (frames f 0 (pageCount oldsz) + R) s.mem s'.mem →
          (∀ v, pageCount oldsz ≤ v → v < pageCount newsz → ZeroAt s'.mem g v) → Q newsz s') :
    wp (uvmalloc L.kend pt oldsz newsz xperm) Q E s := by
  unfold uvmalloc
  by_cases hLt : newsz < oldsz
  · rw [if_pos hLt, wp_pure]
    exact hLess hLt
  have hLe : oldsz ≤ newsz := by omega
  have hSmall := hRange.le h.books
  rw [if_neg hLt, pgroundup_eq (by omega), pageCount_grow hLe]
  have hCount : pageCount oldsz + (pageCount newsz - pageCount oldsz) = pageCount newsz :=
    Nat.add_sub_cancel' (pageCount_mono hLe)
  refine uvmallocFrom_spec hFlags hNew hPerm h hRange (Nat.le_refl _) ?_ ?_
  · intro s' hTable hKeeps
    rw [Nat.sub_self, unmapRange_zero] at hTable
    exact hFail s' hLe hTable hKeeps
  · intro s' g hTable hRange' hSame hKeeps hZeros
    rw [hCount] at hTable hRange' hSame hZeros
    refine hDone s' g hLe hTable hRange' ?_ hKeeps hZeros
    intro v hv
    have hTop := (range_top (hRange'.le hTable.books)).2
    exact hSame v (by omega)

end Xv6.Vm

import Xv6.Vm.Teardown

/-
  Creating and copying address spaces, and copying between
  kernel and user memory.

  `copyin` and `copyinstr` only read. `copyout` writes to
  frames that the page table gives user access to.

  Main declarations:
    * `copyout_spec`
    * `copyin_spec`
    * `copyinstr_spec`
-/

namespace Xv6.Vm

open Prog

---- Creating

variable {L : Layout} {s : Kmem} {R : Multiset Nat} {E : Panic → Prop}

theorem Books.emptyTable {pt : Nat} (h : Books L s (pt ::ₘ R)) :
    Table L { s with mem := s.mem.fill pt PGSIZE 0 } pt (fun _ => none) R := by
  have hPage : pt % PGSIZE = 0 := (h.isRam (by simp)).aligned
  have hEmpty : ∀ i < 512, pteAt (s.mem.fill pt PGSIZE 0) pt i &&& PTE_V = 0 := by
    intro i hi
    have hZero : pteAt (s.mem.fill pt PGSIZE 0) pt i = 0 := by
      refine Memory.load_fill_zero _ (by omega) ?_
      unfold PGSIZE
      omega
    rw [hZero]
    rfl
  refine ⟨?_, ?_, leaf_of_empty hEmpty⟩
  · rw [tree_of_empty hEmpty, Multiset.singleton_add]
    exact h.write (by simp) (frame_fill s.mem 0 hPage)
  intro xs p _ hBelow hp i hi hValid
  cases xs with
  | nil =>
    cases hp
    exact absurd (hEmpty i hi) hValid
  | cons j js =>
    have hNone : child (s.mem.fill pt PGSIZE 0) pt j = none :=
      child_of_invalid (hEmpty j (hBelow j (by simp)))
    simp [Radix.find, hNone] at hp

theorem uvmcreate_spec {Q : Nat → Kmem → Prop} (h : Books L s R) (hFail : Q 0 s)
    (hDone : ∀ pt s', pt ≠ 0 → Table L s' pt (fun _ => none) R → Keeps R s.mem s'.mem → Q pt s') :
    wp uvmcreate Q E s := by
  simp only [uvmcreate, wp_bind]
  refine kalloc_books h ?_ ?_
  · rw [if_pos rfl, wp_pure]
    exact hFail
  · intro pt s₁ h₁ hKeeps₁
    have hPage := (h₁.isRam (p := pt) (by simp)).isPage
    have hFill := frame_fill s₁.mem 0 hPage.aligned
    rw [if_neg hPage.ne_zero]
    simp only [memset, wp_bind, wp_modify, wp_pure]
    exact hDone pt _ hPage.ne_zero h₁.emptyTable (hKeeps₁.trans (hFill.keeps_rest h₁.nodup))

---- Walking Without Changes

variable {pt srcva : Nat} {Q : Option (List UInt8) → Kmem → Prop}

theorem walk_leaf {v w va : Nat} {Q : Nat → Kmem → Prop} (hLeaf : leaf s.mem pt v = some w)
    (hva : va / PGSIZE = v) (hTop : va < MAXVA)
    (hPost : ∀ p, leafPage s.mem pt v = some p →
      s.mem.load (p + 8 * (v % 512)) 8 = w → Q (p + 8 * (v % 512)) s) :
    wp (walk pt va false) Q E s := by
  rcases leaf_eq_some hLeaf with ⟨_, p, hp, hw, _⟩
  refine walk_false_spec hTop ?_
  rw [hva, hp, Option.elim_some, px_zero, hva]
  exact hPost p hp hw

theorem walkaddr_spec {va : Nat} {Q : Nat → Kmem → Prop} (hPost : ∀ r, Q r s) :
    wp (walkaddr pt va) Q E s := by
  unfold walkaddr
  by_cases hVa : va ≥ MAXVA
  · rw [if_pos hVa, wp_pure]
    exact hPost 0
  · rw [if_neg hVa, wp_bind]
    refine walk_false_spec (by omega) ?_
    simp only [ld, wp_ite, wp_bind, wp_get, wp_pure]
    exact ⟨fun _ => hPost 0, fun _ => ⟨fun _ => hPost 0,
      fun _ => ⟨fun _ => hPost 0, fun _ => hPost _⟩⟩⟩

theorem walkaddr_user {v w va : Nat} {Q : Nat → Kmem → Prop} (hLeaf : leaf s.mem pt v = some w)
    (hva : va / PGSIZE = v) (hTop : va < MAXVA) (hNe : ∀ p, leafPage s.mem pt v = some p → p ≠ 0)
    (hUser : w &&& PTE_U ≠ 0) (hPost : Q (PTE2PA w) s) : wp (walkaddr pt va) Q E s := by
  have hNot : ¬ va ≥ MAXVA := by omega
  have hValid := (leaf_eq_some hLeaf).2.choose_spec.2.2
  unfold walkaddr
  rw [if_neg hNot, wp_bind]
  refine walk_leaf hLeaf hva hTop ?_
  intro p hp hw
  have hAddr : p + 8 * (v % 512) ≠ 0 := by
    have hZero := hNe p hp
    omega
  rw [if_neg hAddr]
  simp only [ld, wp_bind, wp_get, wp_pure, hw, if_neg hValid, if_neg hUser]
  exact hPost

theorem copyinFrom_spec {n len : Nat} (hPost : ∀ r, Q r s) :
    wp (copyinFrom pt n srcva len) Q E s := by
  induction n generalizing srcva len Q with
  | zero =>
    simp only [copyinFrom, wp_pure]
    exact hPost _
  | succ n ih =>
    simp only [copyinFrom, wp_ite, wp_pure, wp_bind]
    refine ⟨fun _ => hPost _, fun _ => walkaddr_spec ?_⟩
    intro pa0
    refine ⟨fun _ => hPost _, fun _ => ?_⟩
    rw [wp_get]
    refine ih ?_
    intro r
    exact hPost _

theorem copyin_spec {len : Nat} (hPost : ∀ r, Q r s) : wp (copyin pt srcva len) Q E s :=
  copyinFrom_spec hPost

theorem copyinstrFrom_spec {n max : Nat} (hNone : Q none s)
    (hSome : ∀ str, str.length < max → Q (some str) s) :
    wp (copyinstrFrom pt n srcva max) Q E s := by
  induction n generalizing srcva max Q with
  | zero =>
    simp only [copyinstrFrom, wp_pure]
    exact hNone
  | succ n ih =>
    simp only [copyinstrFrom, wp_ite, wp_pure, wp_bind]
    refine ⟨fun _ => hNone, fun hMax =>
      walkaddr_spec ?_⟩
    intro pa0
    refine ⟨fun _ => hNone, fun _ => ?_⟩
    rw [wp_get]
    simp only [Memory.length_read]
    refine ⟨fun hShort => hSome _ ?_, fun _ => ih ?_ ?_⟩
    · exact Nat.lt_of_lt_of_le hShort (Nat.min_le_right _ _)
    · exact hNone
    · intro str hStr
      apply hSome
      rw [List.length_append, Memory.length_read]
      omega

/- `copyinstr` changes nothing, and leaves room for the final zero. -/
theorem copyinstr_spec {max : Nat} (hNone : Q none s)
    (hSome : ∀ str, str.length < max → Q (some str) s) : wp (copyinstr pt srcva max) Q E s :=
  copyinstrFrom_spec hNone hSome

---- Changing One Entry

variable {f : Nat → Option Nat}

section

variable (h : Table L s pt f R)
include h

theorem Table.leafPage_ne_zero {v p : Nat} (hv : v < 2 ^ 27) (hp : leafPage s.mem pt v = some p) :
    p ≠ 0 := (h.books.isRam (Multiset.mem_add.mpr (.inl (leafPage_mem_tree hv hp)))).isPage.ne_zero

theorem Table.storeLeaf {v p w : Nat} (hv : v < 2 ^ 27) (hp : leafPage s.mem pt v = some p)
    (hw : w < 2 ^ 64) :
    Table L { s with mem := s.mem.store (p + 8 * (v % 512)) 8 w } pt (setLeaf f v w) R ∧
      Keeps R s.mem (s.mem.store (p + 8 * (v % 512)) 8 w) := by
  rcases h.pageTable with ⟨l, hTable, hSum⟩
  exact hTable.table hSum (hTable.storeLeaf hv hp hw) (hTable.moved_storeLeaf hv hp)

theorem uvmclear_spec {v w : Nat} {Q : Unit → Kmem → Prop} (hf : f v = some w)
    (hTop : v * PGSIZE < MAXVA) (hPost : ∀ s',
      Table L s' pt (setLeaf f v (clearU w)) R → Keeps R s.mem s'.mem → w < 2 ^ 64 → Q () s') :
    wp (uvmclear pt (v * PGSIZE)) Q E s := by
  rw [← h.map] at hf
  have hv := (leaf_eq_some hf).1
  simp only [uvmclear, wp_bind]
  refine walk_leaf hf (Nat.mul_div_cancel v (by decide)) hTop ?_
  intro p hp hw
  have hAddr : p + 8 * (v % 512) ≠ 0 := by
    have hNe := h.leafPage_ne_zero hv hp
    omega
  have hLt : w < 2 ^ 64 := by
    rw [← hw]
    exact Memory.load_lt _ _ 8
  have hSmall : clearU w < 2 ^ 64 := Nat.lt_of_le_of_lt Nat.and_le_left hLt
  rcases h.storeLeaf hv hp hSmall with ⟨hTable, hKeeps⟩
  simp only [if_neg hAddr, ld, st, wp_bind, wp_get, wp_pure, wp_modify, hw]
  exact hPost _ hTable hKeeps hLt

end

---- Copying An Address Space

/- The entries `uvmcopy` makes for entries of the parent. -/
def CopiedEntries (P : Nat → Nat → Prop) : Prop :=
  ∀ v w p, P v w → IsPage p → P v (PA2PTE p ||| PTE_FLAGS w ||| PTE_V)

variable {old new : Nat} {g : Nat → Option Nat} {P : Nat → Nat → Prop} {m : Memory}

section

/- The page table of the parent is among the kept pages. -/
structure Aside (s : Kmem) (old : Nat) (f : Nat → Option Nat) (R : Multiset Nat) : Prop where
  map : leaf s.mem old = f
  pages : ∀ p ∈ tree s.mem old, IsPage p ∧ p ∈ R

theorem Aside.keeps {t : Kmem} (h : Aside s old f R) (hKeeps : Keeps R s.mem t.mem) :
    Aside t old f R := by
  have hSame : SameEntries s.mem t.mem old :=
    hKeeps.sameEntries (fun p hp => (h.pages p hp).1.aligned) (fun p hp => (h.pages p hp).2)
  refine ⟨?_, ?_⟩
  · rw [hSame.leaf]
    exact h.map
  · rw [hSame.tree]
    exact h.pages

/- Page `v` of one address space has the flags and the bytes of page `v` of another. -/
def CopyAt (m : Memory) (f : Nat → Option Nat) (m' : Memory) (g : Nat → Option Nat) (v : Nat) :
    Prop :=
  ∃ w w', f v = some w ∧ g v = some w' ∧
      PTE_FLAGS w' = PTE_FLAGS w ∧ ∀ o < PGSIZE, m' (PTE2PA w' + o) = m (PTE2PA w + o)

/- The frames of `n` pages are among the kept pages. -/
def FramesIn (f : Nat → Option Nat) (n : Nat) (R : Multiset Nat) : Prop :=
  ∀ v < n, ∀ w, f v = some w → IsPage (PTE2PA w) ∧ PTE2PA w ∈ R

theorem Keeps.page {m' : Memory} {p o : Nat} (h : Keeps R m m') (hPage : IsPage p) (hIn : p ∈ R)
    (ho : o < PGSIZE) : m' (p + o) = m (p + o) := by
  apply h
  rw [pgrounddown_add hPage.aligned ho]
  exact hIn

theorem CopyAt.of_keeps {m₁ m' : Memory} {n v : Nat} (h : CopyAt m₁ f m' g v)
    (hKeeps : Keeps R m m₁) (hFrames : FramesIn f n R) (hv : v < n) : CopyAt m f m' g v := by
  rcases h with ⟨w, w', hw, hw', hFlags, hBytes⟩
  refine ⟨w, w', hw, hw', hFlags, ?_⟩
  intro o ho
  rcases hFrames v hv w hw with ⟨hPage, hIn⟩
  rw [hBytes o ho, hKeeps.page hPage hIn ho]

theorem CopyAt.keeps {m' m₂ : Memory} {n v : Nat} (h : CopyAt m f m' g v) (hKeeps : Keeps R m' m₂)
    (hFrames : FramesIn g n R) (hv : v < n) : CopyAt m f m₂ g v := by
  rcases h with ⟨w, w', hw, hw', hFlags, hBytes⟩
  refine ⟨w, w', hw, hw', hFlags, ?_⟩
  intro o ho
  rcases hFrames v hv w' hw' with ⟨hPage, hIn⟩
  rw [hKeeps.page hPage hIn ho, hBytes o ho]

theorem copyAt_round {m₁ m₂ : Memory} {v w p : Nat} {T : Multiset Nat} (hw : f v = some w)
    (hValid : w &&& PTE_V ≠ 0) (hPage : IsPage p)
    (hKeeps : Keeps (p ::ₘ T) (m.write p (m.read (PTE2PA w) PGSIZE)) m₁)
    (hKeeps' : Keeps (p ::ₘ T) m₁ m₂) (hg : g v = some (PA2PTE p ||| PTE_FLAGS w ||| PTE_V)) :
    CopyAt m f m₂ g v := by
  have hPerm : PTE_FLAGS w < 1024 := by
    rw [pte_flags_eq]
    exact Nat.mod_lt _ (by decide)
  refine ⟨w, _, hw, hg, flags_copied p hValid, ?_⟩
  intro o ho
  rw [pte2pa_pte hPage.lt hPage.aligned hPerm, (hKeeps.trans hKeeps').page hPage (by simp) ho,
    Memory.write_read_same m ho]

variable (hFlags : LeafFlags P) (hCopied : CopiedEntries P) (hOld : Aside s old f R)
include hFlags hCopied hOld

/- The loop of `uvmcopy` with `k` pages to go and `m` pages copied. -/
theorem uvmcopyFrom_spec {m k : Nat} {Q : Int → Kmem → Prop}
    (hLeaves : ∀ v < m + k, ∃ w, f v = some w ∧ P v w) (hFrames : FramesIn f (m + k) R)
    (h : Table L s new g (frames g 0 m + R)) (hRange : Range P g m)
    (hFail : ∀ s', Table L s' new (unmapRange g 0 m) R → Keeps R s.mem s'.mem → Q (-1) s')
    (hDone : ∀ s' g', Table L s' new g' (frames g' 0 (m + k) + R) → Range P g' (m + k) →
      (∀ v, v < m ∨ m + k ≤ v → g' v = g v) → Keeps (frames g 0 m + R) s.mem s'.mem →
        (∀ v, m ≤ v → v < m + k → CopyAt s.mem f s'.mem g' v) → Q 0 s') :
    wp (uvmcopyFrom L.kend old new k (m * PGSIZE)) Q E s := by
  induction k generalizing s g m with
  | zero =>
    simp only [uvmcopyFrom, wp_pure]
    refine hDone s g h hRange (fun _ _ => rfl) (Keeps.refl _ _) ?_
    intro v hLow hHigh
    omega
  | succ k ih =>
    have hLe := hRange.le h.books
    have hTop := range_top hLe
    have hVa : m * PGSIZE < MAXVA := by
      have hStep := hTop.1
      unfold PGSIZE at *
      omega
    have hFree := hRange.gap m (Nat.le_refl m) hTop.2
    rcases hLeaves m (by omega) with ⟨w, hw, hP⟩
    have hPerm : PTE_FLAGS w < 1024 := by
      rw [pte_flags_eq]
      exact Nat.mod_lt _ (by decide)
    have hDiv : m * PGSIZE / PGSIZE = m := Nat.mul_div_cancel m (by decide)
    have hLeaf : leaf s.mem old m = some w := by
      rw [hOld.map]
      exact hw
    have hEntry := leaf_eq_some hLeaf
    simp only [uvmcopyFrom, wp_bind, hDiv]
    refine walk_leaf hLeaf hDiv hVa ?_
    intro q hq hLoad
    have hAddr : q + 8 * (m % 512) ≠ 0 := by
      have hPage := (hOld.pages q (leafPage_mem_tree hEntry.1 hq)).1
      have hNe := hPage.ne_zero
      omega
    have hValid : ¬ w &&& PTE_V = 0 := hEntry.2.choose_spec.2.2
    simp only [if_neg hAddr, ld, wp_bind, wp_get, wp_pure, hLoad, if_neg hValid]
    refine h.alloc ?_ ?_
    · -- No frame: the copies made so far go back.
      rw [if_pos rfl, wp_bind]
      refine uvmunmap_all h hRange hFlags ?_
      intro s' hTable hKeeps
      rw [wp_pure]
      exact hFail s' hTable hKeeps
    intro p s₁ h₁ hKeeps₁
    have hPage := h₁.isPage_rest (p := p) (by simp)
    have hFill : Frame {p} s₁.mem (s₁.mem.write p (s₁.mem.read (PTE2PA w) PGSIZE)) :=
      frame_write (o := 0) s₁.mem _ hPage.aligned (by rw [Memory.length_read]; omega)
    have h₂ := h₁.write (by simp) hFill
    have hKeeps₂ := hFill.keeps_rest h₁.rest_nodup
    have hRound := hKeeps₁.trans hKeeps₂
    have hKeeps := hRound.mono (R := R) (by simp +contextual)
    rw [if_neg hPage.ne_zero]
    simp only [memmove, wp_bind, wp_modify]
    refine mappages_one h₂ hFree hTop.1 hPage.lt hPerm ?_ ?_
    · -- No page for the tree: the frame goes back too.
      intro s₃ h₃ hKeeps₃
      rw [if_pos (by decide), wp_bind]
      refine h₃.free ?_
      intro s₄ h₄ hKeeps₄
      rw [wp_bind]
      refine uvmunmap_all h₄ hRange hFlags ?_
      intro s' hTable hKeeps₅
      rw [wp_pure]
      refine hFail s' hTable ?_
      exact hKeeps.trans ((hKeeps₃.mono (by simp +contextual)).trans
          ((hKeeps₄.mono (by simp +contextual)).trans hKeeps₅))
    intro s₃ h₃ hKeeps₃
    have hNext : m * PGSIZE + PGSIZE = (m + 1) * PGSIZE := by rw [Nat.add_mul, Nat.one_mul]
    have hKeeps' : Keeps R s.mem s₃.mem := hKeeps.trans (hKeeps₃.mono (by simp +contextual))
    rw [if_neg (by decide), hNext]
    rw [← Multiset.cons_add, ← frames_grow hPage hPerm] at h₃
    have hCount : m + 1 + k = m + (k + 1) := by omega
    refine ih (hOld.keeps hKeeps') (fun v hv => hLeaves v (by omega)) (hCount ▸ hFrames) h₃
      (hRange.grow (valid_pte _) (hCopied m w p hP hPage)) ?_ ?_
    · intro s' hTable hKeeps₄
      have hUndo :=
        unmapRange_grow (n := 0) (w := PA2PTE p ||| PTE_FLAGS w ||| PTE_V)
          (Nat.zero_le m) hFree
      rw [Nat.sub_zero, Nat.sub_zero] at hUndo
      rw [hUndo] at hTable
      exact hFail s' hTable (hKeeps'.trans hKeeps₄)
    intro s' g' hTable hRange' hSame hKeeps₄ hCopies
    rw [hCount] at hTable hRange'
    rw [frames_grow hPage hPerm, Multiset.cons_add] at hKeeps₄
    refine hDone s' g' hTable hRange' ?_ ?_ ?_
    · intro v hv
      rw [hSame v (by omega)]
      unfold setLeaf
      rw [if_neg (by omega)]
    · exact hRound.trans ((hKeeps₃.trans hKeeps₄).mono (by simp +contextual))
    intro v hLow hHigh
    by_cases hv : v = m
    · -- The page of this round.
      subst hv
      have hNew : g' v = some (PA2PTE p ||| PTE_FLAGS w ||| PTE_V) := by
        rw [hSame v (by omega)]
        exact setLeaf_same g v (valid_pte _)
      have hFrames₁ : FramesIn f (v + 1) R := fun u hu => hFrames u (by omega)
      have hCopy := copyAt_round hw hValid hPage hKeeps₃ hKeeps₄ hNew
      exact hCopy.of_keeps (hKeeps₁.mono (by simp +contextual)) hFrames₁ (by omega)
    · have hCopy := hCopies v (by omega) (by omega)
      exact hCopy.of_keeps hKeeps' hFrames (by omega)

theorem uvmcopy_spec {sz : Nat} {Q : Int → Kmem → Prop} (hParent : Range P f (pageCount sz))
    (hFrames : FramesIn f (pageCount sz) R) (h : Table L s new g R) (hRange : Range P g 0)
    (hFail : ∀ s', Table L s' new g R → Keeps R s.mem s'.mem → Q (-1) s')
    (hDone : ∀ s' g', Table L s' new g' (frames g' 0 (pageCount sz) + R) →
      Range P g' (pageCount sz) → (∀ v, USERTOP ≤ v → g' v = g v) →
        Keeps R s.mem s'.mem → (∀ v < pageCount sz, CopyAt s.mem f s'.mem g' v) → Q 0 s') :
    wp (uvmcopy L.kend old new sz) Q E s := by
  have hCount : pageSteps 0 sz = pageCount sz := rfl
  have hStart : Table L s new g (frames g 0 0 + R) := by
    rw [frames_zero, zero_add]
    exact h
  have hLoop :=
    uvmcopyFrom_spec (k := pageCount sz) (Q := Q) (E := E) hFlags hCopied hOld
      (by rw [Nat.zero_add]; exact hParent.leaves)
      (by rw [Nat.zero_add]; exact hFrames)
      hStart hRange ?_ ?_
  · rw [Nat.zero_mul] at hLoop
    exact hLoop
  · intro s' hTable hKeeps
    rw [unmapRange_zero] at hTable
    exact hFail s' hTable hKeeps
  · intro s' g' hTable hRange' hSame hKeeps hCopies
    rw [Nat.zero_add] at hTable hRange' hSame hCopies
    refine hDone s' g' hTable hRange' ?_ (hKeeps.mono (by simp +contextual))
      (fun v hv => hCopies v (Nat.zero_le v) hv)
    intro v hv
    have hTop := (range_top (hRange'.le hTable.books)).2
    exact hSame v (by omega)

end

---- Writing To User Memory

variable {F : Multiset Nat}

section

/- User access leads to the frames in `F`. -/
def UserFrames (f : Nat → Option Nat) (F : Multiset Nat) : Prop :=
  ∀ v w, f v = some w → w &&& PTE_U ≠ 0 → PTE2PA w ∈ F

theorem Table.writeFrame {p o : Nat} {bytes : List UInt8} (h : Table L s pt f (F + R)) (hp : p ∈ F)
    (ho : o + bytes.length ≤ PGSIZE) :
    Table L { s with mem := s.mem.write (p + o) bytes } pt f (F + R) ∧
      Keeps R s.mem (s.mem.write (p + o) bytes) := by
  have hIn : p ∈ F + R := Multiset.mem_add.mpr (.inl hp)
  have hFrame := frame_write s.mem bytes (h.isPage_rest hIn).aligned ho
  refine ⟨h.write hIn hFrame, hFrame.keeps ?_⟩
  intro q hq hEq
  rw [Multiset.mem_singleton.mp hEq] at hq
  have hDisjoint := (Multiset.nodup_add.mp h.rest_nodup).2.2
  exact Multiset.disjoint_left.mp hDisjoint hp hq

theorem copyout_page {v w o : Nat} {src : List UInt8} {Q : Int → Kmem → Prop} (h : Table L s pt f R)
    (hw : f v = some w) (hUser : w &&& PTE_U ≠ 0) (hWrite : w &&& PTE_W ≠ 0)
    (hTop : v * PGSIZE < MAXVA) (hLen : src.length ≠ 0) (ho : o + src.length ≤ PGSIZE)
    (hPost : Q 0 { s with mem := s.mem.write (PTE2PA w + o) src }) :
    wp (copyout pt (v * PGSIZE + o) src) Q E s := by
  rcases Nat.exists_eq_succ_of_ne_zero hLen with ⟨n, hn⟩
  have hBase : PGROUNDDOWN (v * PGSIZE + o) = v * PGSIZE := by
    unfold PGROUNDDOWN PGSIZE at *
    omega
  have hAll : min (PGSIZE - o) src.length = src.length := by omega
  have hLeaf : leaf s.mem pt v = some w := by
    rw [h.map]
    exact hw
  have hEntry := leaf_eq_some hLeaf
  have hValid : ¬ w &&& PTE_V = 0 := hEntry.2.choose_spec.2.2
  have hFlags : ¬ (w &&& PTE_V = 0 ∨ w &&& PTE_U = 0 ∨ w &&& PTE_W = 0) := by
    rintro (hNot | hNot | hNot)
    · exact hValid hNot
    · exact hUser hNot
    · exact hWrite hNot
  unfold copyout
  rw [hn, copyoutFrom, if_neg hLen, hBase, if_neg (Nat.not_le_of_lt hTop), wp_bind]
  refine walk_leaf hLeaf (Nat.mul_div_cancel v (by decide)) hTop ?_
  intro p hp hLoad
  have hAddr : p + 8 * (v % 512) ≠ 0 := by
    have hNe := h.leafPage_ne_zero hEntry.1 hp
    omega
  simp only [if_neg hAddr, ld, wp_bind, wp_get, wp_pure, hLoad, if_neg hFlags, wp_modify,
    Nat.add_sub_cancel_left, hAll, List.take_length, List.drop_length]
  cases n with
  | zero =>
    rw [copyoutFrom, wp_pure]
    exact hPost
  | succ n =>
    rw [copyoutFrom, if_pos List.length_nil, wp_pure]
    exact hPost

variable (hUser : UserFrames f F) (h : Table L s pt f (F + R))
include hUser h

theorem copyoutFrom_spec {n dstva : Nat} {src : List UInt8} {Q : Int → Kmem → Prop}
    (hPost : ∀ r s', Table L s' pt f (F + R) → Keeps R s.mem s'.mem → Q r s') :
    wp (copyoutFrom pt n dstva src) Q E s := by
  induction n generalizing s dstva src with
  | zero =>
    simp only [copyoutFrom, wp_pure]
    exact hPost 0 s h (Keeps.refl _ _)
  | succ n ih =>
    have hStay : ∀ r, Q r s := fun r => hPost r s h (Keeps.refl _ _)
    simp only [copyoutFrom, wp_ite, wp_pure]
    refine ⟨fun _ => hStay 0, fun _ =>
      ⟨fun _ => hStay (-1), fun hTop => ?_⟩⟩
    have hVa : PGROUNDDOWN dstva < MAXVA := by omega
    rw [wp_bind]
    refine walk_false_spec hVa ?_
    cases hp : leafPage s.mem pt (PGROUNDDOWN dstva / PGSIZE) with
    | none =>
      rw [Option.elim_none, if_pos rfl, wp_pure]
      exact hStay (-1)
    | some p =>
      rw [Option.elim_some, px_zero]
      simp only [wp_ite, wp_pure, ld, wp_bind, wp_get, wp_modify]
      refine ⟨fun _ => hStay (-1), fun _ =>
        ⟨fun _ => hStay (-1), fun hAccess => ?_⟩⟩
      -- The entry is a leaf with user access.
      push Not at hAccess
      have hLeaf : f (PGROUNDDOWN dstva / PGSIZE) =
          some (s.mem.load (p + 8 * (PGROUNDDOWN dstva / PGSIZE % 512)) 8) := by
        rw [← h.map]
        unfold leaf
        have hVpn := vpn_lt hVa
        rw [if_pos (by omega), hp, Option.bind_some]
        exact if_neg hAccess.1
      have hFrame := hUser _ _ hLeaf hAccess.2.1
      have hFits : dstva - PGROUNDDOWN dstva +
            (src.take (min (PGSIZE - (dstva - PGROUNDDOWN dstva)) src.length)).length ≤
          PGSIZE := by
        rw [List.length_take]
        unfold PGROUNDDOWN PGSIZE
        omega
      rcases h.writeFrame hFrame hFits with ⟨hTable, hKeeps⟩
      refine ih hTable ?_
      intro r s' h' hKeeps'
      exact hPost r s' h' (hKeeps.trans hKeeps')

theorem copyout_spec {dstva : Nat} {src : List UInt8} {Q : Int → Kmem → Prop}
    (hPost : ∀ r s', Table L s' pt f (F + R) → Keeps R s.mem s'.mem → Q r s') :
    wp (copyout pt dstva src) Q E s := copyoutFrom_spec hUser h hPost

end

end Xv6.Vm

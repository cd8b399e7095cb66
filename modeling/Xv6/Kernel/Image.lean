import Mathlib.Data.List.TakeWhile
import Xv6.Kernel.Stack

/-
  The address space that `exec` builds.

  Whatever the file holds, the new page table has the shape
  of a process of the size reached so far, and a failure
  gives back every page.

  Main declarations:
    * `buildImage_spec`
    * `fetchArgs_spec`
    * `freeArgs_spec`
-/

namespace Xv6.Kernel

open Prog

open Vm

section

variable {L : Layout} {s : Kmem} {pt tf sz : Nat} {f : Nat → Option Nat} {R : Multiset Nat}
variable {E : Panic → Prop} {c : Memory} {w n m : Nat} {argv : List Nat}

---- The Guard Page

theorem entry_clearU (hValid : w &&& PTE_V ≠ 0) : entry (clearU w) = some (clearU w) := by
  have hStill : ¬ clearU w &&& PTE_V = 0 := by
    rw [clearU_and w (by decide)]
    exact hValid
  rw [entry, if_neg hStill]

theorem frames_clearU {v : Nat} (hf : f v = some w) (hValid : w &&& PTE_V ≠ 0) (hw : w < 2 ^ 64) :
    frames (setLeaf f v (clearU w)) 0 n = frames f 0 n := by
  refine Finset.sum_congr rfl ?_
  intro i _
  unfold frameAt setLeaf
  by_cases hEq : 0 + i = v
  · rw [if_pos hEq, hEq, hf, entry_clearU hValid, Option.elim_some, Option.elim_some,
      pte2pa_clearU hw]
  · rw [if_neg hEq]

/- The page below the stack becomes the guard. -/
theorem Range.guard {v : Nat} (h : Range (UserLeaf none) f n) (hf : f v = some w) (hv : v < n)
    (hValid : w &&& PTE_V ≠ 0) : Range (UserLeaf (some v)) (setLeaf f v (clearU w)) n := by
  refine ⟨?_, ?_⟩
  · intro u hu
    rcases h.leaves u hu with ⟨x, hx, hRead, hUser⟩
    unfold setLeaf
    by_cases hEq : u = v
    · rw [hEq, hf] at hx
      refine ⟨clearU w, ?_, ?_, ?_⟩
      · rw [if_pos hEq, entry_clearU hValid]
      · rw [clearU_and w (by decide), Option.some.inj hx]
        exact hRead
      · intro hNot
        rw [hEq] at hNot
        exact absurd rfl hNot
    · rw [if_neg hEq]
      exact ⟨x, hx, hRead, fun _ => hUser (by simp)⟩
  · intro u hLow hTop
    unfold setLeaf
    rw [if_neg (by omega)]
    exact h.gap u hLow hTop

/- Stack and guard on top of `m` pages. The new size is two pages above. -/
theorem guard_page (m : Nat) :
    (m * PGSIZE + (USERSTACK + 1) * PGSIZE - (USERSTACK + 1) * PGSIZE) = m * PGSIZE ∧
      pageCount (m * PGSIZE + (USERSTACK + 1) * PGSIZE) = m + 2 ∧
      (m * PGSIZE + (USERSTACK + 1) * PGSIZE) / PGSIZE - (USERSTACK + 1) = m := by
  unfold pageCount PGSIZE USERSTACK
  omega

/- The entries of a stack above `m` pages. -/
def StackLeaf (m v w : Nat) : Prop := UserLeaf none v w ∧ (m ≤ v → w &&& PTE_W ≠ 0)

theorem leafFlags_stackLeaf (m : Nat) : LeafFlags (StackLeaf m) :=
  fun v w hLeaf => leafFlags_userLeaf none v w hLeaf.1

theorem newEntries_stackLeaf (m : Nat) : NewEntries (StackLeaf m) PTE_W := by
  intro v p hPage
  refine ⟨newEntries_userLeaf none (by decide) v p hPage, fun _ => ?_⟩
  rw [pte_and p (by decide) (by decide)]
  decide

theorem Range.stackLeaf (h : Range (UserLeaf none) f m) : Range (StackLeaf m) f m := by
  refine ⟨?_, h.gap⟩
  intro v hv
  rcases h.leaves v hv with ⟨w, hw, hLeaf⟩
  exact ⟨w, hw, hLeaf, fun hLe => absurd hv (by omega)⟩

theorem Range.userLeaf (h : Range (StackLeaf m) f n) : Range (UserLeaf none) f n := by
  refine ⟨?_, h.gap⟩
  intro v hv
  rcases h.leaves v hv with ⟨w, hw, hLeaf⟩
  exact ⟨w, hw, hLeaf.1⟩

---- The New Address Space

/- The image on top of `base` bytes, which hold `c`, with the arguments `strs`. -/
structure Built (strs : List (List UInt8)) (base : Nat) (c : Memory) (image : Image) (m : Memory)
    (f : Nat → Option Nat) : Prop where
  sz : image.sz = base + (USERSTACK + 1) * PGSIZE
  fits : Fits (image.sz - USERSTACK * PGSIZE) strs image.sz
  sp : image.sp = stackPtr strs image.sz
  argc : image.argc = strs.length
  guard : ∃ w, f (image.sz / PGSIZE - (USERSTACK + 1)) = some w ∧ w &&& PTE_U = 0
  contents : Contents m f (pageCount image.sz) (stackMem strs image.sz c)

/- The stack that was built has room for all pushes. -/
theorem Built.roomy {strs : List (List UInt8)} {image : Image} {m : Memory}
    (h : Built strs (PGROUNDUP sz) c image m f) (hSmall : pageCount image.sz ≤ 2 ^ 15)
    (hShort : ∀ str ∈ strs, str.length < PGSIZE) :
    Roomy (image.sz - USERSTACK * PGSIZE) strs image.sz ∧ image.sz % PGSIZE = 0 := by
  have hSz := h.sz
  generalize hTop : image.sz = top at *
  have hFacts : PGSIZE ≤ top - USERSTACK * PGSIZE ∧
      top - USERSTACK * PGSIZE ≤ top ∧ top < UINT64 ∧ top % PGSIZE = 0 := by
    unfold pageCount at hSmall
    unfold PGROUNDUP USERSTACK UINT64 PGSIZE at *
    omega
  rcases hFacts with ⟨hPage, hLow, hHigh, hAligned⟩
  exact ⟨⟨hPage, hLow, hHigh, hShort⟩, hAligned⟩

theorem stack_top (m : Nat) :
    m * PGSIZE + (USERSTACK + 1) * PGSIZE = (m + 1 + 1) * PGSIZE ∧
      m * PGSIZE + (USERSTACK + 1) * PGSIZE - USERSTACK * PGSIZE = (m + 1) * PGSIZE := by
  unfold USERSTACK PGSIZE
  omega

theorem stack_below (h : (m + 2 + 1) * PGSIZE ≤ MAXVA) :
    m * PGSIZE < MAXVA ∧ (m + 1) * PGSIZE < MAXVA := by
  unfold PGSIZE at h ⊢
  omega

theorem Contents.guard {g : Nat → Option Nat} {k : Memory} (h : Contents k g n c)
    (hw : g m = some w) (hValid : w &&& PTE_V ≠ 0) (hSmall : w < 2 ^ 64) :
    Contents k (setLeaf g m (clearU w)) n c := by
  refine h.sameFrames ?_
  intro v _
  unfold setLeaf
  by_cases hEq : v = m
  · rw [if_pos hEq, hEq, hw, entry_clearU hValid,
      Option.map_some, Option.map_some, pte2pa_clearU hSmall]
  · rw [if_neg hEq]

/- The part of `buildImage` after the segments. -/
theorem buildStack_spec {Q : Option Image → Kmem → Prop}
    (h : Table L s pt f (frames f 0 (pageCount sz) + R)) (hShape : Shape L tf none sz f)
    (hc : Contents s.mem f (pageCount sz) c) (hArgs : ∀ a ∈ argv, ArgPage R s.mem a)
    (hArgc : argv.length < MAXARG) (hFail : ∀ s', Books L s' R → Keeps R s.mem s'.mem → Q none s')
    (hDone : ∀ (image : Image) s' f', image.pagetable = pt → Table L s' pt f'
      (frames f' 0 (pageCount image.sz) + R) → Shape L tf
        (some (image.sz / PGSIZE - (USERSTACK + 1))) image.sz f' → Keeps R s.mem s'.mem →
        Built (strsIn s.mem argv) (PGROUNDUP sz) c image s'.mem f' → Q (some image) s') :
    wp (buildStack L pt (PGROUNDUP sz) argv) Q E s := by
  have hLe := hShape.user.le h.books
  have hMono := pageCount_mul (pageCount sz)
  rw [pgroundup_eq (by omega)] at hDone ⊢
  generalize hm : pageCount sz = m at *
  rcases guard_page m with ⟨hBelow, hCount, hGuard⟩
  rcases stack_top m with ⟨hTopEq, hBase⟩
  have hUp : Shape L tf none (m * PGSIZE) f := by
    refine hShape.resize ?_ (fun _ _ => rfl)
    rw [hMono, ← hm]
    exact hShape.user
  rw [← hMono] at h hc
  have hUser := hUp.user
  rw [hMono] at hUser
  unfold buildStack
  rw [wp_bind]
  refine uvmalloc_spec (leafFlags_stackLeaf m) (newEntries_stackLeaf m) (by decide) h
    (by rw [hMono]; exact Range.stackLeaf hUser) ?_ ?_ ?_
  · intro hLess
    omega
  · intro s₁ _ h₁ hKeeps₁
    rw [if_pos rfl, wp_bind]
    refine procFreepagetable_spec h₁ hUp ?_
    intro s' h' hKeeps'
    rw [wp_pure]
    exact hFail s' h' ((hKeeps₁.mono (by simp +contextual)).trans hKeeps')
  intro s₁ g hGrow h₁ hStack hSame hAll hZeros
  have hKeeps₁ : Keeps R s.mem s₁.mem := hAll.mono (by simp +contextual)
  have hc₁ := hc.grown h hGrow hAll hSame hZeros
  have hNe : ¬ m * PGSIZE + (USERSTACK + 1) * PGSIZE = 0 := by
    unfold USERSTACK PGSIZE
    omega
  rw [if_neg hNe, wp_bind, hBelow]
  rw [hCount] at h₁ hStack hc₁
  have hRange := Range.userLeaf hStack
  rcases hRange.leaves m (by omega) with ⟨w, hw, _⟩
  rcases hStack.leaves (m + 1) (by omega) with ⟨x, hx, hxLeaf, hxWrite⟩
  have hTop := range_top (hRange.le h₁.books)
  rcases stack_below hTop.1 with ⟨hMaxGuard, hMax⟩
  refine uvmclear_spec h₁ hw hMaxGuard ?_
  intro s₂ h₂ hKeeps₂ hSmall
  have hValid : w &&& PTE_V ≠ 0 := by
    rw [← h₁.map] at hw
    exact (leaf_eq_some hw).2.choose_spec.2.2
  have hc₂ : Contents s₂.mem (setLeaf g m (clearU w)) (m + 2) c := by
    refine Contents.guard (hc₁.keeps hKeeps₂ ?_ ?_) hw hValid hSmall
    · exact fun p hp => h₁.isPage_rest hp
    · exact fun p hp => Multiset.mem_add.mpr (.inl hp)
  have hShape₂ :
      Shape L tf (some m) (m * PGSIZE + (USERSTACK + 1) * PGSIZE) (setLeaf g m (clearU w)) := by
    refine hUp.resize ?_ ?_
    · rw [hCount]
      exact Range.guard hRange hw (by omega) hValid
    · intro v hv
      unfold setLeaf
      rw [if_neg (by omega)]
      exact hSame v (.inr hv)
  rw [← frames_clearU hw hValid hSmall] at h₂
  have hKeeps : Keeps R s.mem s₂.mem := hKeeps₁.trans (hKeeps₂.mono (by simp +contextual))
  have hPage : StackPage (setLeaf g m (clearU w)) (m + 1) x := by
    refine ⟨?_, hxLeaf.2 (by simp), hxWrite (by omega), by omega, hMax⟩
    unfold setLeaf
    rw [if_neg (by omega)]
    exact hx
  have hStrs := strsIn_keeps hArgs hKeeps
  rw [wp_bind, hBase, hTopEq]
  refine pushStack_spec h₂ hPage hc₂ (fun a ha => (hArgs a ha).keeps hKeeps) hArgc ?_ ?_
  · intro s₃ h₃ hKeeps₃ _
    rw [wp_bind, ← hTopEq]
    rw [← hCount] at h₃
    refine procFreepagetable_spec h₃ hShape₂ ?_
    intro s' h' hKeeps'
    rw [wp_pure]
    exact hFail s' h' (hKeeps.trans ((hKeeps₃.mono (by simp +contextual)).trans hKeeps'))
  intro s₃ h₃ hKeeps₃ hFits hc₃
  rw [wp_pure]
  rw [hStrs] at hFits hc₃ ⊢
  rw [hTopEq] at hCount hBase hGuard hShape₂
  refine hDone _ s₃ (setLeaf g m (clearU w)) rfl ?_ ?_
    (hKeeps.trans (hKeeps₃.mono (by simp +contextual))) ⟨hTopEq.symm, ?_, rfl, ?_, ?_, ?_⟩
  · dsimp only
    rw [hCount]
    exact h₃
  · dsimp only
    rw [hGuard]
    exact hShape₂
  · dsimp only
    rw [hBase]
    exact hFits
  · rw [strsIn, List.length_map]
  · dsimp only
    rw [hGuard, setLeaf, if_pos rfl, entry_clearU hValid]
    exact ⟨clearU w, rfl, clearU_user w⟩
  · dsimp only
    rw [hCount]
    exact hc₃

theorem buildImage_spec {ip : Inode} {elf : List UInt8} {Q : Option Image → Kmem → Prop}
    (h : Books L s R) (hTf : tf < 2 ^ 64) (hArgs : ∀ a ∈ argv, ArgPage R s.mem a)
    (hArgc : argv.length < MAXARG) (hFail : ∀ s', Books L s' R → Keeps R s.mem s'.mem → Q none s')
    (hDone : ∀ (image : Image) sz s' f, image.pagetable ≠ 0 → Table L s' image.pagetable f
      (frames f 0 (pageCount image.sz) + R) → Shape L tf
        (some (image.sz / PGSIZE - (USERSTACK + 1))) image.sz f →
      Keeps R s.mem s'.mem → pageCount sz ≤ 2 ^ 15 → Loaded ip sz (field elf 56 2)
          (field elf 32 8 % 2 ^ 32) → Built (strsIn s.mem argv) (PGROUNDUP sz)
            (segments ip (field elf 56 2) (field elf 32 8 % 2 ^ 32) (fun _ => 0))
            image s'.mem f → Q (some image) s') :
    wp (buildImage L tf ip elf argv) Q E s := by
  unfold buildImage
  rw [wp_bind]
  refine procPagetable_spec h hTf ?_ ?_
  · intro s' h' hKeeps'
    rw [if_pos rfl, wp_pure]
    exact hFail s' h' hKeeps'
  intro pt s₁ f hPt h₁ hShape₁ hKeeps₁
  have hEmpty : Contents s₁.mem f (pageCount 0) (fun _ => 0) := by
    refine ⟨?_, fun _ _ => rfl⟩
    intro va hva
    exact absurd hva (Nat.not_lt_zero _)
  rw [if_neg hPt, wp_bind]
  refine loadSegments_spec (h₁.rest_eq (zero_add R).symm) (hShape₁ none) hEmpty ?_ ?_
  · intro sz s₂ f₂ h₂ hShape₂ hKeeps₂
    dsimp only
    rw [if_pos rfl, wp_bind]
    refine procFreepagetable_spec h₂ hShape₂ ?_
    intro s' h' hKeeps'
    rw [wp_pure]
    exact hFail s' h' ((hKeeps₁.trans hKeeps₂).trans hKeeps')
  · intro sz s₂ f₂ h₂ hShape₂ hKeeps₂ _ hLoaded hc₂
    have hKeeps := hKeeps₁.trans hKeeps₂
    have hStrs := strsIn_keeps hArgs hKeeps
    dsimp only
    rw [if_neg (by decide)]
    refine buildStack_spec h₂ hShape₂ hc₂ (fun a ha => (hArgs a ha).keeps hKeeps) hArgc ?_ ?_
    · intro s' h' hKeeps'
      exact hFail s' h' (hKeeps.trans hKeeps')
    · intro image s' f' hEq h' hShape' hKeeps' hBuilt
      rw [← hEq] at hPt h'
      rw [hStrs] at hBuilt
      exact hDone image sz s' f' hPt h' hShape' (hKeeps.trans hKeeps') (hShape₂.user.le h₂.books)
        hLoaded hBuilt

---- The Argument Pages

theorem fetchaddr_spec {p : Proc} {addr : Nat} {Q : Option Nat → Kmem → Prop} (hPost : ∀ r, Q r s) :
    wp (fetchaddr p addr) Q E s := by
  unfold fetchaddr
  rw [wp_ite, wp_pure, wp_bind]
  refine ⟨fun _ => hPost none, fun _ => copyin_spec ?_⟩
  intro r
  rw [wp_pure]
  exact hPost _

theorem strIn_short {m : Memory} {a k : Nat} (hk : k < PGSIZE) (hZero : m (a + k) = 0) :
    (strIn m a).length < PGSIZE := by
  have hPrefix : strIn m a <+: m.read a PGSIZE := List.takeWhile_prefix _
  have hLe := hPrefix.length_le
  rw [Memory.length_read] at hLe
  refine Nat.lt_of_le_of_ne hLe ?_
  intro hAll
  have hEq := hPrefix.eq_of_length (hAll.trans (Memory.length_read m a PGSIZE).symm)
  have hIn : m (a + k) ∈ m.read a PGSIZE := List.mem_map.mpr ⟨k, List.mem_range.mpr hk, rfl⟩
  rw [← hEq] at hIn
  have hNot := List.mem_takeWhile_imp hIn
  rw [hZero] at hNot
  exact absurd hNot (by decide)

theorem strIn_write (m : Memory) (a : Nat) {str : List UInt8} (hStr : str.length < PGSIZE) :
    (strIn (m.write a (str ++ [0])) a).length < PGSIZE := by
  refine strIn_short hStr ?_
  have hIn : a ≤ a + str.length ∧ a + str.length < a + (str ++ [0]).length := by
    rw [List.length_append, List.length_singleton]
    omega
  unfold Memory.write
  rw [if_pos hIn, Nat.add_sub_cancel_left]
  simp

/- What `fetchArgs` returns, in pages of its own. -/
def Fetched (R : Multiset Nat) (n : Nat) (m : Memory) (argv : List Nat) : Prop :=
  argv.length < n ∧ ∀ a ∈ argv, ArgPage (argv + R) m a

/- Each argument fetched is a page in hand. -/
theorem fetchArgs_spec {p : Proc} {uargv : Nat} {Q : Bool × List Nat → Kmem → Prop}
    (h : Books L s (argv + R)) (hArgs : ∀ a ∈ argv, ArgPage (argv + R) s.mem a)
    (hPost : ∀ ok (argv' : List Nat) s', Books L s' (argv' + R) → Keeps R s.mem s'.mem →
      (ok = true → Fetched R (argv.length + n) s'.mem argv') → Q (ok, argv') s') :
    wp (fetchArgs p uargv n argv) Q E s := by
  have hBad : ∀ {P : Prop}, false = true → P := fun hEq => nomatch hEq
  induction n generalizing s argv with
  | zero =>
    rw [fetchArgs, wp_pure]
    exact hPost false argv s h (Keeps.refl _ _) hBad
  | succ n ih =>
    rw [fetchArgs, wp_bind]
    refine fetchaddr_spec ?_
    intro r
    cases r with
    | none =>
      rw [wp_pure]
      exact hPost false argv s h (Keeps.refl _ _) hBad
    | some uarg =>
      rw [wp_ite, wp_pure, wp_bind]
      refine ⟨fun _ => hPost true argv s h (Keeps.refl _ _)
        (fun _ => ⟨by omega, hArgs⟩), fun _ => ?_⟩
      refine kalloc_books h ?_ ?_
      · rw [if_pos rfl, wp_pure]
        exact hPost false argv s h (Keeps.refl _ _) hBad
      intro page s₁ h₁ hKeeps₁
      have hPage := (h₁.isRam (p := page) (by simp)).isPage
      have hMore : page ::ₘ ((argv : Multiset Nat) + R) =
          ((argv ++ [page] : List Nat) : Multiset Nat) + R := by
        rw [← Multiset.coe_add, Multiset.coe_singleton, ← Multiset.singleton_add]
        abel
      rw [if_neg hPage.ne_zero, wp_bind]
      have hKeeps : Keeps R s.mem s₁.mem := hKeeps₁.mono (by simp +contextual)
      refine copyinstr_spec ?_ ?_
      · rw [wp_pure]
        exact hPost false _ s₁ (h₁.own_eq hMore) hKeeps hBad
      intro str hStr
      have hFits : 0 + (str ++ [0]).length ≤ PGSIZE := by
        rw [List.length_append, List.length_singleton]
        omega
      have hFrame := frame_write s₁.mem (str ++ [0]) hPage.aligned hFits
      rw [Nat.add_zero] at hFrame
      have hBooks := h₁.write (by simp) hFrame
      have hOld := hFrame.keeps_rest h₁.nodup
      have hRest : Keeps R s₁.mem _ := hOld.mono (by simp +contextual)
      rw [wp_bind, wp_modify]
      refine ih (hBooks.own_eq hMore) ?_ ?_
      · intro a ha
        rw [← hMore]
        rcases List.mem_append.mp ha with hIn | hIn
        · have hBefore := (hArgs a hIn).keeps (hKeeps₁.trans hOld)
          exact ⟨hBefore.isPage, Multiset.mem_cons_of_mem hBefore.kept, hBefore.short⟩
        · rw [List.mem_singleton.mp hIn]
          exact ⟨hPage, Multiset.mem_cons_self _ _, strIn_write _ _ hStr⟩
      intro ok argv' s' h' hKeeps' hFetched
      refine hPost ok argv' s' h' ((hKeeps.trans hRest).trans hKeeps') ?_
      intro hOk
      refine ⟨?_, (hFetched hOk).2⟩
      have hCount := (hFetched hOk).1
      rw [List.length_append, List.length_singleton] at hCount
      omega

theorem freeArgs_spec {Q : Unit → Kmem → Prop} (h : Books L s (argv + R))
    (hPost : ∀ s', Books L s' R → Keeps R s.mem s'.mem → Q () s') :
    wp (freeArgs L.kend argv) Q E s := by
  induction argv generalizing s with
  | nil =>
    rw [freeArgs, wp_pure]
    exact hPost s (h.own_eq (zero_add R)) (Keeps.refl _ _)
  | cons page argv ih =>
    rw [freeArgs, wp_bind]
    rw [← Multiset.cons_coe, Multiset.cons_add] at h
    refine kfree_books h ?_
    intro s₁ h₁ hKeeps₁
    refine ih h₁ ?_
    intro s' h' hKeeps'
    exact hPost s' h' ((hKeeps₁.mono (by simp +contextual)).trans hKeeps')

end

end Xv6.Kernel

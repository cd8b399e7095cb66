import Xv6.Kernel.Proc
import Xv6.Vm.Copy

/-
  The shape of a process's address space.

  `Shape` says which virtual pages a page table maps: user
  memory from zero up to the size of the process, then
  nothing up to the trapframe and the trampoline, which user
  code cannot reach. Every user page except the stack guard
  has user access.

  Main declarations:
    * `Shape`
    * `procPagetable_spec`
    * `procFreepagetable_spec`
-/

namespace Xv6.Kernel

open Prog

open Vm

---- Entries Of User Pages

/- The entry of the user page `v`. -/
def UserLeaf (guard : Option Nat) (v w : Nat) : Prop :=
  w &&& PTE_R ≠ 0 ∧ (guard ≠ some v → w &&& PTE_U ≠ 0)

/- Flags are read off the low bits of an entry. -/
theorem flags_and (w : Nat) {bit : Nat} (hBit : 0x3FF &&& bit = bit) :
    PTE_FLAGS w &&& bit = w &&& bit := by
  unfold PTE_FLAGS
  rw [Nat.and_assoc, hBit]

theorem pte_and (pa : Nat) {perm bit : Nat} (hPerm : perm < 1024) (hBit : 0x3FF &&& bit = bit) :
    (PA2PTE pa ||| perm ||| PTE_V) &&& bit = (perm ||| PTE_V) &&& bit := by
  rw [← flags_and _ hBit, flags_pte pa hPerm]

theorem or_and_ne_zero {a b bit : Nat} (h : a &&& bit ≠ 0) : (a ||| b) &&& bit ≠ 0 := by
  rw [Nat.and_or_distrib_right]
  intro hZero
  exact h (Nat.or_eq_zero_iff.mp hZero).1

section

variable (guard : Option Nat)

theorem leafFlags_userLeaf : LeafFlags (UserLeaf guard) := by
  intro v w hLeaf hFlags
  apply hLeaf.1
  rw [← flags_and w (by decide), hFlags]
  decide

/- `uvmalloc` makes entries of user pages. -/
theorem newEntries_userLeaf {xperm : Nat} (hPerm : xperm < 1024) :
    NewEntries (UserLeaf guard) xperm := by
  intro v p hPage
  have hPerm' : PTE_R ||| PTE_U ||| xperm < 1024 := Nat.or_lt_two_pow (n := 10) (by decide) hPerm
  refine ⟨?_, fun _ => ?_⟩
  all_goals
    rw [pte_and p hPerm' (by decide)]
    exact or_and_ne_zero (or_and_ne_zero (by decide))

/- `uvmcopy` keeps the flags. -/
theorem copiedEntries_userLeaf : CopiedEntries (UserLeaf guard) := by
  intro v w p hLeaf hPage
  have hPerm : PTE_FLAGS w < 1024 := by
    rw [pte_flags_eq]
    exact Nat.mod_lt _ (by decide)
  refine ⟨?_, fun hGuard => ?_⟩
  · rw [pte_and p hPerm (by decide)]
    apply or_and_ne_zero
    rw [flags_and w (by decide)]
    exact hLeaf.1
  · rw [pte_and p hPerm (by decide)]
    apply or_and_ne_zero
    rw [flags_and w (by decide)]
    exact hLeaf.2 hGuard

end

---- Address Spaces

/- The leaf of the trapframe. -/
def trapframeEntry (trapframe : Nat) : Nat := PA2PTE trapframe ||| (PTE_R ||| PTE_W) ||| PTE_V

/- The leaf of the trampoline. -/
def trampolineEntry (L : Layout) : Nat := PA2PTE L.trampoline ||| (PTE_R ||| PTE_X) ||| PTE_V

/- The map of the address space of a process. -/
structure Shape (L : Layout) (trapframe : Nat) (guard : Option Nat) (sz : Nat)
    (f : Nat → Option Nat) : Prop where
  user : Range (UserLeaf guard) f (pageCount sz)
  trapframe : f USERTOP = some (trapframeEntry trapframe)
  trampoline : f (USERTOP + 1) = some (trampolineEntry L)
  above : ∀ v, USERTOP + 2 ≤ v → f v = none

theorem trampoline_eq : TRAMPOLINE = (USERTOP + 1) * PGSIZE := by
  decide

theorem trapframe_eq : TRAPFRAME = USERTOP * PGSIZE := by
  decide

theorem Layout.trampoline_lt (L : Layout) : L.trampoline < 2 ^ 64 := by
  have hBelow := L.below
  have hTop := L.le_top
  unfold PHYSTOP KERNBASE at hTop
  omega

section

variable {L : Layout} {s : Kmem} {tf sz : Nat} {guard : Option Nat} {f g : Nat → Option Nat}
variable {R : Multiset Nat} {E : Panic → Prop}

section

variable (h : Shape L tf guard sz f)
include h

/- User access stops below the trapframe. -/
theorem Shape.lt_of_user {v w : Nat} (hf : f v = some w) (hUser : w &&& PTE_U ≠ 0) :
    v < pageCount sz := by
  by_contra hOut
  by_cases hTop : v < USERTOP
  · rw [h.user.gap v (by omega) hTop] at hf
    cases hf
  by_cases hTf : v = USERTOP
  · rw [hTf, h.trapframe] at hf
    rw [← Option.some.inj hf] at hUser
    apply hUser
    unfold trapframeEntry
    rw [pte_and _ (by decide) (by decide)]
    decide
  · by_cases hTr : v = USERTOP + 1
    · rw [hTr, h.trampoline] at hf
      rw [← Option.some.inj hf] at hUser
      apply hUser
      unfold trampolineEntry
      rw [pte_and _ (by decide) (by decide)]
      decide
    · rw [h.above v (by omega)] at hf
      cases hf

theorem Shape.userFrames : UserFrames f (frames f 0 (pageCount sz)) := by
  intro v w hf hUser
  exact mem_frames (h.lt_of_user hf hUser) hf

theorem Shape.resize {sz' : Nat} {guard' : Option Nat}
    (hUser : Range (UserLeaf guard') g (pageCount sz')) (hSame : ∀ v, USERTOP ≤ v → g v = f v) :
    Shape L tf guard' sz' g := by
  refine ⟨hUser, ?_, ?_, ?_⟩
  · rw [hSame _ (Nat.le_refl _)]
    exact h.trapframe
  · rw [hSame _ (by omega)]
    exact h.trampoline
  · intro v hv
    rw [hSame v (by omega)]
    exact h.above v hv

end

---- Building And Freeing

theorem uvmfree_empty {pt : Nat} {Q : Unit → Kmem → Prop} (h : Table L s pt (fun _ => none) R)
    (hPost : ∀ s', Books L s' R → Keeps R s.mem s'.mem → Q () s') :
    wp (uvmfree L.kend pt 0) Q E s := by
  refine uvmfree_spec (f := fun _ => none) ?_ ?_ (leafFlags_userLeaf none) (fun _ _ => rfl) hPost
  · exact h.rest_eq (zero_add R).symm
  · exact ⟨fun v hv => absurd hv (Nat.not_lt_zero v), fun _ _ _ => rfl⟩

theorem unmapRange_setLeaf_none (v w : Nat) :
    unmapRange (setLeaf (fun _ => none) v w) v 1 = fun _ => none := by
  funext u
  unfold unmapRange setLeaf
  by_cases hEq : u = v
  · rw [if_pos (by omega)]
  · rw [if_neg (by omega), if_neg hEq]

/- A new page table has the shape of an empty process. -/
theorem procPagetable_spec {Q : Nat → Kmem → Prop} (h : Books L s R) (hTf : tf < 2 ^ 64)
    (hFail : ∀ s', Books L s' R → Keeps R s.mem s'.mem → Q 0 s')
    (hDone : ∀ pt s' f, pt ≠ 0 →
      Table L s' pt f R → (∀ guard, Shape L tf guard 0 f) → Keeps R s.mem s'.mem → Q pt s') :
    wp (procPagetable L tf) Q E s := by
  simp only [procPagetable, wp_bind, trampoline_eq, trapframe_eq]
  refine uvmcreate_spec h ?_ ?_
  · rw [if_pos rfl, wp_pure]
    exact hFail s h (Keeps.refl _ _)
  intro pt s₁ hPt h₁ hKeeps₁
  rw [if_neg hPt, wp_bind]
  refine mappages_one h₁ rfl (by decide) (Layout.trampoline_lt L) (by decide) ?_ ?_
  · intro s₂ h₂ hKeeps₂
    rw [if_pos (by decide), wp_bind]
    refine uvmfree_empty h₂ ?_
    intro s' h' hKeeps'
    rw [wp_pure]
    exact hFail s' h' (hKeeps₁.trans (hKeeps₂.trans hKeeps'))
  intro s₂ h₂ hKeeps₂
  rw [if_neg (by decide), wp_bind]
  refine mappages_one h₂ ?_ (by decide) hTf (by decide) ?_ ?_
  · unfold setLeaf
    rw [if_neg (by omega)]
  · -- The trampoline comes out again before the free.
    intro s₃ h₃ hKeeps₃
    rw [if_pos (by decide), wp_bind]
    refine uvmunmap_keep h₃ ?_ (by decide) ?_
    · intro u hLow hHigh
      have hu : u = USERTOP + 1 := by omega
      refine ⟨trampolineEntry L, ?_, ?_⟩
      · unfold setLeaf
        rw [if_pos hu]
        exact if_neg (valid_pte _)
      · unfold trampolineEntry
        rw [flags_pte _ (by decide)]
        decide
    intro s₄ h₄ hKeeps₄
    rw [unmapRange_setLeaf_none] at h₄
    rw [wp_bind]
    refine uvmfree_empty h₄ ?_
    intro s' h' hKeeps'
    rw [wp_pure]
    exact hFail s' h' (hKeeps₁.trans (hKeeps₂.trans (hKeeps₃.trans (hKeeps₄.trans hKeeps'))))
  intro s₃ h₃ hKeeps₃
  rw [if_neg (by decide), wp_pure]
  refine hDone pt s₃ _ hPt h₃ ?_ (hKeeps₁.trans (hKeeps₂.trans hKeeps₃))
  intro guard
  refine ⟨⟨fun v hv => absurd hv (Nat.not_lt_zero v), ?_⟩, ?_, ?_, ?_⟩
  · intro v _ hv
    unfold setLeaf
    rw [if_neg (by omega), if_neg (by omega)]
  · unfold setLeaf
    rw [if_pos rfl]
    exact if_neg (valid_pte _)
  · unfold setLeaf
    rw [if_neg (by omega), if_pos rfl]
    exact if_neg (valid_pte _)
  · intro v hv
    unfold setLeaf
    rw [if_neg (by omega), if_neg (by omega)]

theorem procFreepagetable_spec {pt : Nat} {Q : Unit → Kmem → Prop}
    (h : Table L s pt f (frames f 0 (pageCount sz) + R)) (hShape : Shape L tf guard sz f)
    (hPost : ∀ s', Books L s' R → Keeps R s.mem s'.mem → Q () s') :
    wp (procFreepagetable L.kend pt sz) Q E s := by
  have hTop := range_top (hShape.user.le h.books)
  simp only [procFreepagetable, wp_bind, trampoline_eq, trapframe_eq]
  refine uvmunmap_keep h ?_ (by decide) ?_
  · intro u hLow hHigh
    have hu : u = USERTOP + 1 := by omega
    refine ⟨trampolineEntry L, hu ▸ hShape.trampoline, ?_⟩
    unfold trampolineEntry
    rw [flags_pte _ (by decide)]
    decide
  intro s₁ h₁ hKeeps₁
  refine uvmunmap_keep h₁ ?_ (by decide) ?_
  · intro u hLow hHigh
    have hu : u = USERTOP := by omega
    refine ⟨trapframeEntry tf, ?_, ?_⟩
    · unfold unmapRange
      rw [if_neg (by omega), hu]
      exact hShape.trapframe
    · unfold trapframeEntry
      rw [flags_pte _ (by decide)]
      decide
  intro s₂ h₂ hKeeps₂
  -- Without the two high pages only user memory is left.
  have hSame : ∀ v < USERTOP, unmapRange (unmapRange f (USERTOP + 1) 1) USERTOP 1 v = f v := by
    intro v hv
    unfold unmapRange
    rw [if_neg (by omega), if_neg (by omega)]
  have hFrames : frames (unmapRange (unmapRange f (USERTOP + 1) 1) USERTOP 1) 0 (pageCount sz) =
      frames f 0 (pageCount sz) := by
    apply frames_congr
    intro u _ hu
    exact hSame u (by omega)
  refine uvmfree_spec (h₂.rest_eq (by rw [hFrames])) (P := UserLeaf guard) ⟨?_, ?_⟩
    (leafFlags_userLeaf guard) ?_ ?_
  · intro v hv
    rw [hSame v (by omega)]
    exact hShape.user.leaves v hv
  · intro v hLow hv
    rw [hSame v hv]
    exact hShape.user.gap v hLow hv
  · intro v hv
    unfold unmapRange
    by_cases hTf : v < USERTOP + 1
    · rw [if_pos (by omega)]
    · by_cases hTr : v < USERTOP + 2
      · rw [if_neg (by omega), if_pos (by omega)]
      · rw [if_neg (by omega), if_neg (by omega)]
        exact hShape.above v (by omega)
  · intro s' h' hKeeps'
    refine hPost s' h' ?_
    exact (hKeeps₁.mono (by simp +contextual)).trans
      ((hKeeps₂.mono (by simp +contextual)).trans hKeeps')

end

end Xv6.Kernel

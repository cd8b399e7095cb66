import Xv6.Kernel.Growing
import Xv6.User.Heap

/-
  `malloc` on top of the system call `sbrk`.

  `morecore` passes a number of bytes to `sbrk`, whose
  parameter is an `int`. A request of almost 2 GiB becomes
  negative there: the kernel then lowers the break, or leaves
  it, and reports success.

  The heap is a total map here. Where the old break starts a
  page, the header that `morecore` stores for such a request
  lies in no mapped page: the process is killed there, while
  the model goes on and returns the pointer.

  Main declarations:
    * `malloc_safe_iff`
-/

namespace Xv6.User

/- A number of bytes as an `int`. -/
def toInt32 (bytes : Nat) : Int :=
  if bytes % 2 ^ 32 < 2 ^ 31 then bytes % 2 ^ 32
  else bytes % 2 ^ 32 - 2 ^ 32

/- `sbrk` of process `i`; `morecore` compares with `-1`. -/
def kernelSbrk (kend i : Nat) (k : Kernel.State) : Sbrk :=
  fun bytes =>
    match Kernel.sysSbrk kend i (toInt32 bytes) k with
    | .ok (a, _) => if a = -1 then none else some a.toNat
    | .error _ => none

/- The bytes that `morecore` asks for. -/
def coreBytes (nbytes : Nat) : Nat := coreUnits (unitsFor nbytes) * HEADERSIZE

/-
  The break after a call of `malloc` that left the heap `h'`.
  `morecore` has recorded the region if `sbrk` gave one.
-/
def breakAfter (kend i : Nat) (k : Kernel.State) (h h' : Heap) (nbytes : Nat) : Nat :=
  if h'.regions = h.regions then (k.proc i).sz
  else ((Kernel.after (Kernel.sysSbrk kend i (toInt32 (coreBytes nbytes))) k).proc i).sz

/- The heap lies below the break, each region above the last. -/
structure Owned (base sz : Nat) (h : Heap) : Prop where
  base_le : headerAt base 1 ≤ sz
  below : ∀ r ∈ h.regions, r.stop ≤ sz
  apart : h.regions.Pairwise (fun r t => r.stop ≤ t.addr)

/-
  The break is not lowered, and the bytes at `p`, if there
  are any, lie below it and in no live block.
-/
def Safe (s : State) (sz brk p nbytes : Nat) : Prop :=
  sz ≤ brk ∧
    (p = 0 ∨
      p + nbytes ≤ brk ∧
        ∀ l ∈ s.live, p + nbytes ≤ l.ptr ∨ l.ptr + l.nbytes ≤ p)

---- The System Call

section

variable {L : Vm.Layout} {B : Multiset Nat} {r : Nat → Nat} {k : Kernel.State} {i : Nat}

theorem toInt32_lt (bytes : Nat) : toInt32 bytes < 2 ^ 31 := by
  unfold toInt32
  split <;> omega

section

variable (h : Kernel.Inv L B r k) (hi : i < NPROC) (hLive : (k.proc i).state ≠ .unused)
include h hi hLive

/- `sbrk` gives the old break, or fails to grow the process. -/
theorem sbrk_outcome (bytes : Nat) :
    kernelSbrk L.kend i k bytes = some (k.proc i).sz ∧
        ((Kernel.after (Kernel.sysSbrk L.kend i (toInt32 bytes)) k).proc i).sz =
          Kernel.grownSize (k.proc i).sz (toInt32 bytes) ∨
      kernelSbrk L.kend i k bytes = none ∧ 0 < toInt32 bytes := by
  have hCall : Prog.wp (Kernel.sysSbrk L.kend i (toInt32 bytes)) (fun a k' =>
        a = (k.proc i).sz ∧ (k'.proc i).sz = Kernel.grownSize (k.proc i).sz (toInt32 bytes) ∨
          a = -1 ∧ 0 < toInt32 bytes)
      (fun _ => False) k := by
    unfold Kernel.sysSbrk
    rw [Prog.wp_bind, Kernel.wp_getProc, Prog.wp_bind]
    refine Prog.wp_post (Kernel.growproc_outcome h hi hLive (toInt32_lt bytes)) ?_
    rintro m k' (⟨rfl, hSz, _⟩ | ⟨rfl, _, hPos⟩)
    · rw [if_neg (by decide), Prog.wp_pure]
      exact Or.inl ⟨rfl, hSz⟩
    · rw [if_pos (by decide), Prog.wp_pure]
      exact Or.inr ⟨rfl, hPos⟩
  rcases Prog.exists_ok_of_wp hCall with ⟨a, k', hRun, ⟨rfl, hSz⟩ | ⟨rfl, hPos⟩⟩
  · left
    unfold kernelSbrk Kernel.after
    rw [hRun]
    dsimp only
    rw [if_neg (by omega)]
    exact ⟨rfl, hSz⟩
  · right
    unfold kernelSbrk
    rw [hRun]
    exact ⟨rfl, hPos⟩

theorem size_le : (k.proc i).sz ≤ 2 ^ 27 := by
  have hSmall := h.small hi hLive
  unfold Vm.pageCount Vm.PGSIZE at hSmall
  omega

end

---- Requests

variable {base : Nat} {s : State} {nbytes : Nat}

/- Regions one above the other are no larger than the break. -/
theorem total_below
    {rs : List Block} {lo sz : Nat}
    (hLo : lo ≤ sz)
    (hAbove : ∀ r ∈ rs, lo ≤ r.addr)
    (hBelow : ∀ r ∈ rs, r.stop ≤ sz)
    (hApart : rs.Pairwise (fun r t => r.stop ≤ t.addr)) :
    lo + 16 * total rs ≤ sz := by
  induction rs generalizing lo with
  | nil => exact hLo
  | cons r rs ih =>
    rcases List.pairwise_cons.mp hApart with ⟨hFirst, hRest⟩
    have hAddr := hAbove r List.mem_cons_self
    have hLater :=
      ih (hBelow r List.mem_cons_self) hFirst
        (fun t ht => hBelow t (List.mem_cons_of_mem r ht)) hRest
    rw [stop_eq] at hLater
    rw [total_cons]
    omega

/- What becomes of a request as an `int`, by its size. -/
theorem toInt32_coreBytes (hSize : nbytes < 2 ^ 32) :
    nbytes + 32 ≤ 2 ^ 31 ∧ toInt32 (coreBytes nbytes) = coreBytes nbytes ∨
      2 ^ 31 < nbytes + 32 ∧ nbytes + 16 ≤ 2 ^ 32 ∧ toInt32 (coreBytes nbytes) ≤ 0 ∨
      2 ^ 32 < nbytes + 16 ∧ toInt32 (coreBytes nbytes) = toInt32 16 := by
  unfold toInt32 coreBytes coreUnits unitsFor HEADERSIZE
  split_ifs <;> omega

theorem grownSize_of_nonpos {sz : Nat} {n : Int} (h : n ≤ 0) : Kernel.grownSize sz n ≤ sz := by
  unfold Kernel.grownSize
  rw [if_neg (by omega)]
  split
  · exact Nat.min_le_left _ _
  · exact Nat.le_refl sz

/-
  `malloc` returns. It gives no pointer only if `sbrk` failed;
  otherwise it has used the regions, or one more at the break.
-/
theorem malloc_outcome
    (hReach : Reachable base s)
    (hBase : 0 < base)
    (hKernel : Kernel.Inv L B r k)
    (hi : i < NPROC)
    (hLive : (k.proc i).state ≠ .unused)
    (hOwned : Owned base (k.proc i).sz s.heap)
    (hSize : nbytes < 2 ^ 32) :
    ∃ h p nodes,
      Returns (fun f => malloc base (kernelSbrk L.kend i k) f s.heap nbytes) (h, p) ∧
      Kept base (s.malloced h p nbytes) nodes ∧
      (p = 0 ∧ h.regions = s.heap.regions ∧ kernelSbrk L.kend i k (coreBytes nbytes) = none ∨
        p ≠ 0 ∧
          (h.regions = s.heap.regions ∨
            kernelSbrk L.kend i k (coreBytes nbytes) ≠ none ∧
              h.regions =
                s.heap.regions ++ [⟨(k.proc i).sz, coreUnits (unitsFor nbytes)⟩])) := by
  have hSz := size_le hKernel hi hLive
  have hTotal := total_below (Nat.zero_le _) (fun _ _ => Nat.zero_le _) hOwned.below hOwned.apart
  have hResult : ∀ n a, kernelSbrk L.kend i k n = some a → a = (k.proc i).sz := by
    intro n a ha
    rcases sbrk_outcome hKernel hi hLive n with ⟨hSome, _⟩ | ⟨hNone, _⟩
    · rw [hSome] at ha
      exact (Option.some.inj ha).symm
    · rw [hNone] at ha
      cases ha
  rcases (hReach.fine hBase (by omega)).start hBase with ⟨nodes, hKept, hRegions⟩
  have hFresh : Fresh base (initHeap base s.heap) (kernelSbrk L.kend i k) := by
    intro n a ha
    rw [hResult n a ha, hRegions]
    exact ⟨hOwned.base_le, hOwned.below⟩
  have hCore : coreUnits (unitsFor nbytes) < 2 ^ 29 := by
    unfold coreUnits unitsFor HEADERSIZE
    split <;> omega
  have hBound : total (initHeap base s.heap).regions + coreUnits (unitsFor nbytes) < 2 ^ 32 := by
    rw [hRegions]
    omega
  rcases hKept.mallocLoop_returns hBase (by dsimp only; omega) hSize hFresh (fun _ _ _ => hBound)
    with ⟨h, p, nodes', hRun, hKept', ⟨hNull, hSame, hNone⟩ | ⟨hNe, hGrown⟩⟩
  · exact ⟨h, p, nodes', hRun, hKept', Or.inl ⟨hNull, hSame ▸ hRegions, hNone⟩⟩
  · refine ⟨h, p, nodes', hRun, hKept', Or.inr ⟨hNe, ?_⟩⟩
    rcases hGrown with hSame | ⟨a, ha, hAdded⟩
    · exact Or.inl (hSame.trans hRegions)
    · refine Or.inr ⟨by rw [coreBytes, ha]; exact Option.some_ne_none a, ?_⟩
      rw [hAdded, hResult _ a ha, hRegions]

/- A new block lies in the regions and in no other block. -/
theorem Kept.apart {h : Heap} {p brk : Nat} {nodes : List Block}
    (hKept : Kept base (s.malloced h p nbytes) nodes) (hp : p ≠ 0)
    (hBelow : ∀ r ∈ h.regions, r.stop ≤ brk) :
    p + nbytes ≤ brk ∧ ∀ l ∈ s.live, p + nbytes ≤ l.ptr ∨ l.ptr + l.nbytes ≤ p := by
  unfold State.malloced at hKept
  rw [if_neg hp] at hKept
  rcases hKept.blocks with ⟨free, hBlocks⟩
  have hMine : HEADERSIZE ≤ p ∧ 0 < (blockOf h.mem ⟨p, nbytes⟩).units ∧
      nbytes ≤ HEADERSIZE * ((blockOf h.mem ⟨p, nbytes⟩).units - 1) :=
    hKept.live ⟨p, nbytes⟩ List.mem_cons_self
  have hPairs := (List.pairwise_append.mp (List.pairwise_cons.mp hBlocks.disjoint).2).2.1
  constructor
  · -- The last address of the block lies in a region.
    have hLast : (blockOf h.mem ⟨p, nbytes⟩).Covers ((blockOf h.mem ⟨p, nbytes⟩).stop - 1) := by
      unfold Block.Covers
      rw [stop_eq]
      omega
    have hOne := hBlocks.only _ (List.mem_append_right free List.mem_cons_self) _ hLast
    rcases List.countP_pos_iff.mp (Nat.lt_of_lt_of_eq Nat.zero_lt_one hOne.symm)
      with ⟨r, hr, hCovers⟩
    have hIn := (of_decide_eq_true hCovers).2
    have hEnd := hBelow r hr
    rw [stop_eq] at hIn
    unfold blockOf HEADERSIZE at hIn hMine
    dsimp only at hIn hMine
    omega
  · intro l hl
    have hOther := hKept.live l (List.mem_cons_of_mem _ hl)
    have hApart := (List.pairwise_cons.mp hPairs).1 _ (List.mem_map_of_mem hl)
    rw [stop_eq, stop_eq] at hApart
    unfold blockOf HEADERSIZE at hApart hMine hOther
    dsimp only at hApart hMine hOther
    omega

section

variable (hKernel : Kernel.Inv L B r k) (hi : i < NPROC) (hLive : (k.proc i).state ≠ .unused)
include hKernel hi hLive

/- A large request succeeds and adds 16 bytes at most. -/
theorem breakAfter_le
    (hSize : nbytes < 2 ^ 32)
    (hLarge : 2 ^ 31 < nbytes + 32)
    (hFull : 2 ^ 32 < nbytes + 16 → kernelSbrk L.kend i k 16 ≠ none)
    (h h' : Heap) :
    kernelSbrk L.kend i k (coreBytes nbytes) ≠ none ∧
      breakAfter L.kend i k h h' nbytes ≤ (k.proc i).sz + 16 := by
  have hCall := sbrk_outcome hKernel hi hLive (coreBytes nbytes)
  have hOk :
      kernelSbrk L.kend i k (coreBytes nbytes) ≠ none ∧
        Kernel.grownSize (k.proc i).sz (toInt32 (coreBytes nbytes)) ≤ (k.proc i).sz + 16 := by
    rcases toInt32_coreBytes hSize with ⟨hFew, _⟩ | ⟨_, _, hNeg⟩ | ⟨hMany, hSame⟩
    · omega
    · have hLess := @grownSize_of_nonpos (k.proc i).sz _ hNeg
      refine ⟨fun hNone => ?_, by omega⟩
      rcases hCall with ⟨hSome, _⟩ | ⟨_, hPos⟩
      · simp [hSome] at hNone
      · omega
    · have hSixteen : toInt32 16 = 16 := rfl
      have hMore :=
        Kernel.grownSize_of_nonneg (n := 16) (hKernel.small hi hLive) (by decide) (by omega)
      refine ⟨fun hNone => hFull hMany ?_, ?_⟩
      · unfold kernelSbrk at hNone ⊢
        rwa [← hSame]
      · rw [hSame, hSixteen]
        omega
  refine ⟨hOk.1, ?_⟩
  unfold breakAfter
  split
  · exact Nat.le_add_right _ _
  · rcases hCall with ⟨_, hGrown⟩ | ⟨hNone, _⟩
    · rw [hGrown]
      exact hOk.2
    · exact absurd hNone hOk.1

/- A region that `sbrk` gave in full ends at the new break. -/
theorem breakAfter_eq
    {h h' : Heap}
    (hFew : toInt32 (coreBytes nbytes) = coreBytes nbytes)
    (hSome : kernelSbrk L.kend i k (coreBytes nbytes) ≠ none)
    (hNe : h'.regions ≠ h.regions) :
    breakAfter L.kend i k h h' nbytes = (k.proc i).sz + coreBytes nbytes := by
  unfold breakAfter
  rw [if_neg hNe]
  rcases sbrk_outcome hKernel hi hLive (coreBytes nbytes) with ⟨_, hGrown⟩ | ⟨hNone, _⟩
  · have hSum :=
      Kernel.grownSize_of_nonneg (hKernel.small hi hLive) (toInt32_lt (coreBytes nbytes))
        (by rw [hFew]; exact Int.natCast_nonneg _)
    rw [hGrown]
    rw [hFew] at hSum ⊢
    exact_mod_cast hSum
  · exact absurd hNone hSome

end

/-
  A request is safe if and only if it is of at most 2^31 - 32
  bytes, or is so large that `sbrk` is asked for 16 bytes,
  and has not got them.
-/
theorem malloc_safe_iff
    (hReach : Reachable base s)
    (hBase : 0 < base)
    (hKernel : Kernel.Inv L B r k)
    (hi : i < NPROC)
    (hLive : (k.proc i).state ≠ .unused)
    (hOwned : Owned base (k.proc i).sz s.heap)
    (hSize : nbytes < 2 ^ 32) :
    (∃ h p,
      Returns (fun f => malloc base (kernelSbrk L.kend i k) f s.heap nbytes) (h, p) ∧
        Safe s (k.proc i).sz (breakAfter L.kend i k s.heap h nbytes) p nbytes) ↔
      nbytes + 32 ≤ 2 ^ 31 ∨
        2 ^ 32 < nbytes + 16 ∧ kernelSbrk L.kend i k 16 = none := by
  rcases malloc_outcome hReach hBase hKernel hi hLive hOwned hSize
    with ⟨h, p, nodes, hRun, hKept, hEnd⟩
  have hSz := size_le hKernel hi hLive
  constructor
  · rintro ⟨h', p', hRun', hSafe⟩
    cases hRun.unique hRun'
    by_contra hNot
    rw [not_or, not_and] at hNot
    rcases breakAfter_le hKernel hi hLive hSize (by omega) hNot.2 s.heap h with ⟨hSome, hBreak⟩
    rcases hEnd with ⟨_, _, hNone⟩ | ⟨hp, _⟩
    · exact hSome hNone
    · rcases hSafe.2 with hNull | ⟨hIn, _⟩
      · exact hp hNull
      · omega
  intro hWhen
  refine ⟨h, p, hRun, ?_⟩
  have hStays :
      h.regions = s.heap.regions → breakAfter L.kend i k s.heap h nbytes = (k.proc i).sz :=
    fun hSame => if_pos hSame
  rcases hEnd with ⟨hNull, hSame, _⟩ | ⟨hp, hSame | ⟨hSome, hAdded⟩⟩
  · exact ⟨Nat.le_of_eq (hStays hSame).symm, Or.inl hNull⟩
  · rw [Safe, hStays hSame]
    exact ⟨Nat.le_refl _, Or.inr (hKept.apart hp (hSame ▸ hOwned.below))⟩
  have hFew : toInt32 (coreBytes nbytes) = coreBytes nbytes := by
    rcases toInt32_coreBytes hSize with ⟨_, hEq⟩ | ⟨_, _, _⟩ | ⟨_, hSame⟩
    · exact hEq
    · omega
    · rcases hWhen with hFew | ⟨_, hNone⟩
      · omega
      · unfold kernelSbrk at hSome hNone
        rw [hSame] at hSome
        exact absurd hNone hSome
  rw [Safe, breakAfter_eq hKernel hi hLive hFew hSome (by simp [hAdded])]
  refine ⟨Nat.le_add_right _ _, Or.inr (hKept.apart hp ?_)⟩
  intro t ht
  rw [hAdded] at ht
  rcases List.mem_append.mp ht with hOld | hNew
  · exact Nat.le_trans (hOwned.below t hOld) (Nat.le_add_right _ _)
  · rw [List.mem_singleton.mp hNew, stop_eq]
    unfold coreBytes HEADERSIZE
    dsimp only
    omega

end

/- No request has been made yet. -/
def unused : State := .init (fun _ => ⟨0, 0⟩)

/- 100 bytes for the first process, which has one page. -/
theorem malloc_safe_smallBooted :
    ∃ h,
      Returns (fun f => malloc 2048
          (kernelSbrk Kernel.smallLayout.kend 0 Kernel.smallBooted) f unused.heap 100)
        (h, 69520) ∧
      Safe unused 4096
        (breakAfter Kernel.smallLayout.kend 0 Kernel.smallBooted unused.heap h 100) 69520 100 := by
  have hRun : (malloc 2048 (kernelSbrk Kernel.smallLayout.kend 0 Kernel.smallBooted) 8
      unused.heap 100).map Prod.snd = some 69520 := by
    decide +kernel
  have hSz : (Kernel.smallBooted.proc 0).sz = 4096 := by decide +kernel
  have hOwned : Owned 2048 (Kernel.smallBooted.proc 0).sz unused.heap :=
    ⟨by decide +kernel, by rintro r ⟨⟩, List.Pairwise.nil⟩
  rcases Option.map_eq_some_iff.mp hRun with ⟨⟨h, p⟩, hMalloc, rfl⟩
  have hReturns := Steady.returns (mallocLoop_steady _ _ _ _ _) hMalloc
  rcases (malloc_safe_iff (.init _) (by decide)
      (Kernel.Reachable.boot Kernel.smallBooted_booted).good (by decide)
      (by rw [Kernel.smallBooted_ready.1]; decide) hOwned (show 100 < 2 ^ 32 by decide)).mpr
    (Or.inl (by decide)) with ⟨h', p', hReturns', hSafe⟩
  cases hReturns.unique hReturns'
  rw [hSz] at hSafe
  exact ⟨h, hReturns, hSafe⟩

/- The first process has called `sbrk(-96)`. -/
def smallShrunk : Kernel.State :=
  Kernel.after (Kernel.syscall Kernel.smallLayout 0 (.sbrk (-96))) Kernel.smallBooted

/-
  With the break at 4000, a request of 2^32 - 32 bytes lowers
  it by 16 bytes and returns a pointer above it. Page 0 stays
  mapped and writable, and the header at 4000 lies in it: no
  store of the call faults.
-/
theorem malloc_lowers_break :
    Kernel.Reachable Kernel.smallLayout {0x87fe0000} smallShrunk ∧
    (smallShrunk.proc 0).sz = 4000 ∧
    (∃ h,
      Returns (fun f => malloc 2048
          (kernelSbrk Kernel.smallLayout.kend 0 smallShrunk) f unused.heap (2 ^ 32 - 32))
        (h, 4016) ∧
      h.mem 4000 = ⟨2048, 2 ^ 28 - 1⟩ ∧
      breakAfter Kernel.smallLayout.kend 0 smallShrunk unused.heap h (2 ^ 32 - 32) = 3984) ∧
    (Vm.leaf (Kernel.after (Kernel.sysSbrk Kernel.smallLayout.kend 0 (-16)) smallShrunk).kmem.mem
        (smallShrunk.proc 0).pagetable 0).map (· &&& (Vm.PTE_W ||| Vm.PTE_U)) =
      some (Vm.PTE_W ||| Vm.PTE_U) := by
  have hCall : Kernel.ends Option.isSome (Kernel.syscall Kernel.smallLayout 0 (.sbrk (-96)))
      Kernel.smallBooted = true := by
    decide +kernel
  have hRun : (malloc 2048 (kernelSbrk Kernel.smallLayout.kend 0 smallShrunk) 8
      unused.heap (2 ^ 32 - 32)).map (fun r =>
        (r.2, r.1.mem 4000,
          breakAfter Kernel.smallLayout.kend 0 smallShrunk unused.heap r.1 (2 ^ 32 - 32))) =
      some (4016, ⟨2048, 2 ^ 28 - 1⟩, 3984) := by
    decide +kernel
  rcases Option.map_eq_some_iff.mp hRun with ⟨⟨h, p⟩, hMalloc, hEq⟩
  simp only [Prod.mk.injEq] at hEq
  rcases hEq with ⟨rfl, hHeader, hBreak⟩
  refine ⟨?_, by decide +kernel, ⟨h, ?_, hHeader, hBreak⟩, by decide +kernel⟩
  · exact (Kernel.Reachable.boot Kernel.smallBooted_booted).after_call (by decide)
      Kernel.smallBooted_ready hCall
  · exact Steady.returns (mallocLoop_steady _ _ _ _ _) hMalloc

end Xv6.User

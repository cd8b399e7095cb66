import Xv6.Kernel.AddressSpace

/-
  What `growproc` reports and what it does.

  `growproc` adds a signed number to an unsigned size. If
  the sum is negative it wraps to a size above the old one;
  `uvmdealloc` then returns the old size, and `growproc`
  reports success although nothing has changed.

  Main declarations:
    * `Reports`
    * `growproc_reports_iff`
-/

namespace Xv6.Kernel

open Function (update update_self)

open Vm

/- What a call that returns `0` has done. -/
structure Grew (i : Nat) (n : Int) (s s' : State) : Prop where
  size : ((s'.proc i).sz : Int) = (s.proc i).sz + n
  mapped : ∀ v, s'.leafOf i v ≠ none ↔
    v * PGSIZE < PGROUNDUP (s'.proc i).sz ∨ v * PGSIZE = TRAPFRAME ∨ v * PGSIZE = TRAMPOLINE
  kept : ∀ va, va < (s.proc i).sz → va < (s'.proc i).sz → s'.byteOf i va = s.byteOf i va
  zero :
    ∀ va, PGROUNDUP (s.proc i).sz ≤ va → va < PGROUNDUP (s'.proc i).sz → s'.byteOf i va = some 0

/- What a call that fails has left. -/
structure Untouched (i : Nat) (s s' : State) : Prop where
  size : (s'.proc i).sz = (s.proc i).sz
  mapped : ∀ v, s'.leafOf i v = s.leafOf i v
  bytes : ∀ va, va < PGROUNDUP (s.proc i).sz → s'.byteOf i va = s.byteOf i va

/- The result of `growproc` tells what it did. -/
def Reports (i : Nat) (n : Int) (s : State) (r : Int) (s' : State) : Prop :=
  r = 0 ∧ Grew i n s s' ∨ r = -1 ∧ Untouched i s s'

---- Sizes

theorem grownSize_of_nonneg {sz : Nat} {n : Int} (hSmall : pageCount sz ≤ 2 ^ 15) (hn : n < 2 ^ 31)
    (h : 0 ≤ sz + n) : (grownSize sz n : Int) = sz + n := by
  have hSz : sz ≤ 2 ^ 27 := by
    unfold pageCount PGSIZE at hSmall
    omega
  have hAdd : (addInt sz n : Int) = sz + n := by
    unfold addInt UINT64
    omega
  unfold grownSize
  split
  · omega
  · split
    · omega
    · omega

theorem grownSize_of_neg {sz : Nat} {n : Int} (hSmall : pageCount sz ≤ 2 ^ 15) (hn : -2 ^ 31 ≤ n)
    (h : sz + n < 0) : grownSize sz n = sz := by
  have hSz : sz ≤ 2 ^ 27 := by
    unfold pageCount PGSIZE at hSmall
    omega
  have hAdd : sz ≤ addInt sz n := by
    unfold addInt UINT64
    omega
  unfold grownSize
  rw [if_neg (by omega), if_pos (by omega), Nat.min_eq_left hAdd]

theorem addInt_ne_zero {sz : Nat} {n : Int} (hSmall : pageCount sz ≤ 2 ^ 15) (hPos : 0 < n)
    (hn : n < 2 ^ 31) : addInt sz n ≠ 0 := by
  unfold pageCount PGSIZE at hSmall
  unfold addInt UINT64
  omega

theorem div_lt_of_lt_pgroundup {sz va : Nat} (hSmall : pageCount sz ≤ 2 ^ 15)
    (h : va < PGROUNDUP sz) : va / PGSIZE < pageCount sz := by
  unfold PGROUNDUP pageCount UINT64 PGSIZE at *
  omega

theorem le_div_of_pgroundup_le {sz va : Nat} (hSmall : pageCount sz ≤ 2 ^ 15)
    (h : PGROUNDUP sz ≤ va) : pageCount sz ≤ va / PGSIZE := by
  unfold PGROUNDUP pageCount UINT64 PGSIZE at *
  omega

---- The Report

section

variable {L : Layout} {B : Multiset Nat} {r : Nat → Nat} {s : State} {i : Nat} {n : Int}

theorem Shape.outside {tf sz v : Nat} {guard guard' : Option Nat} {f g : Nat → Option Nat}
    (hf : Shape L tf guard sz f) (hg : Shape L tf guard' sz g) (hv : pageCount sz ≤ v) :
    g v = f v := by
  by_cases hUser : v < USERTOP
  · rw [hg.user.gap v hv hUser, hf.user.gap v hv hUser]
  · by_cases hTf : v = USERTOP
    · rw [hTf, hg.trapframe, hf.trapframe]
    · by_cases hTr : v = USERTOP + 1
      · rw [hTr, hg.trampoline, hf.trampoline]
      · rw [hg.above v (by omega), hf.above v (by omega)]

theorem growproc_outcome (h : Inv L B r s) (hi : i < NPROC) (hLive : (s.proc i).state ≠ .unused)
    (hHigh : n < 2 ^ 31) :
    Prog.wp (growproc L.kend i n) (fun k s' => k = 0 ∧
        (s'.proc i).sz = grownSize (s.proc i).sz n ∧ (0 ≤ (s.proc i).sz + n → Grew i n s s') ∨
      k = -1 ∧ Untouched i s s' ∧ 0 < n) (fun _ => False) s := by
  have hSmall := h.small hi hLive
  refine growproc_spec h hi hLive ?_ ?_
  · intro kmem h' hResizes
    left
    have hLive' : (update s.proc i { s.proc i with sz := grownSize (s.proc i).sz n } i).state ≠
        .unused := by
      rw [update_self]
      exact hLive
    have hSmall' := h'.small hi hLive'
    have hShape' := h'.shape hi hLive'
    dsimp only at hSmall' hShape'
    rw [update_self] at hSmall' hShape'
    refine ⟨rfl, ?_, fun hSum => ⟨?_, ?_, ?_, ?_⟩⟩
    · dsimp only
      rw [update_self]
    · dsimp only
      rw [update_self]
      exact grownSize_of_nonneg hSmall hHigh hSum
    · unfold State.leafOf
      dsimp only
      rw [update_self]
      exact hShape'.mapped_iff hSmall'
    · unfold State.byteOf State.leafOf
      dsimp only
      rw [update_self]
      intro va hOld hNew
      exact hResizes.bytes va (div_lt_pageCount hOld) (div_lt_pageCount hNew)
    · unfold State.byteOf State.leafOf
      dsimp only
      rw [update_self]
      intro va hOld hNew
      refine (hResizes.zero _ ?_ ?_).view
      · exact le_div_of_pgroundup_le hSmall hOld
      · exact div_lt_of_lt_pgroundup hSmall' hNew
  · intro kmem h' hPos hResizes
    right
    have hResized := hResizes (addInt_ne_zero hSmall hPos hHigh)
    refine ⟨rfl, ⟨rfl, ?_, ?_⟩, hPos⟩
    · intro v
      by_cases hv : v < pageCount (s.proc i).sz
      · exact hResized.entries v hv hv
      · exact (h.shape hi hLive).outside (h'.shape hi hLive) (Nat.le_of_not_lt hv)
    · intro va hva
      have hPage := div_lt_of_lt_pgroundup hSmall hva
      exact hResized.bytes va hPage hPage

/-
  `growproc` returns, and what it returns says what it did,
  exactly if the new size is not negative.
-/
theorem growproc_reports_iff
    (h : Inv L B r s)
    (hi : i < NPROC)
    (hLive : (s.proc i).state ≠ .unused)
    (hLow : -2 ^ 31 ≤ n)
    (hHigh : n < 2 ^ 31) :
    (∃ k s', growproc L.kend i n s = .ok (k, s') ∧ Reports i n s k s') ↔
      0 ≤ (s.proc i).sz + n := by
  have hOutcome := growproc_outcome h hi hLive hHigh
  rcases Prog.exists_ok_of_wp hOutcome with ⟨k, s', hRun, hEnd⟩
  constructor
  · rintro ⟨k', s'', hRun', hReports⟩
    rw [hRun] at hRun'
    cases hRun'
    by_contra hNeg
    have hSame := grownSize_of_neg (h.small hi hLive) hLow (Int.lt_of_not_ge hNeg)
    rcases hReports with ⟨_, hGrew⟩ | ⟨hFailed, _⟩
    · have hSize := hGrew.size
      rcases hEnd with ⟨_, hSz, _⟩ | ⟨_, _, hPos⟩
      · rw [hSz, hSame] at hSize
        omega
      · omega
    · rcases hEnd with ⟨hZero, _⟩ | ⟨_, _, hPos⟩
      · omega
      · omega
  · intro hSum
    refine ⟨k, s', hRun, ?_⟩
    rcases hEnd with ⟨hZero, _, hGrew⟩ | ⟨hOne, hSame, _⟩
    · exact .inl ⟨hZero, hGrew hSum⟩
    · exact .inr ⟨hOne, hSame⟩

end

/-
  The first process has one page. It asks for two pages
  less, is told that it has them back, and keeps its page.
-/
theorem growproc_reports_smallBooted :
    Inv smallLayout {0x87fe0000} (refs smallBooted.proc) smallBooted ∧
      (smallBooted.proc 0).sz = PGSIZE ∧ (∃ s',
        growproc smallLayout.kend 0 (-8192) smallBooted = .ok (0, s') ∧ (s'.proc 0).sz = PGSIZE) ∧
      ¬ ∃ k s', growproc smallLayout.kend 0 (-8192) smallBooted = .ok (k, s') ∧
          Reports 0 (-8192) smallBooted k s' := by
  have hSize : (smallBooted.proc 0).sz = PGSIZE := by decide +kernel
  have hRun : ends (fun k => k == 0) (growproc smallLayout.kend 0 (-8192)) smallBooted = true := by
    decide +kernel
  have hAfter : ((after (growproc smallLayout.kend 0 (-8192)) smallBooted).proc 0).sz = PGSIZE := by
    decide +kernel
  rcases exists_ok_after hRun with ⟨k, hZero, hEq⟩
  rw [beq_iff_eq] at hZero
  subst hZero
  refine ⟨(Reachable.boot smallBooted_booted).good, hSize, ⟨_, hEq, hAfter⟩, ?_⟩
  rintro ⟨k, s', hRun', hReports⟩
  rw [hEq] at hRun'
  cases hRun'
  rcases hReports with ⟨_, hGrew⟩ | ⟨hOne, _⟩
  · have hNew := hGrew.size
    rw [hAfter, hSize] at hNew
    unfold PGSIZE at hNew
    omega
  · cases hOne

theorem growproc_reports_shrink :
    ∃ k s', growproc smallLayout.kend 0 (-1) smallBooted = .ok (k, s') ∧
      Reports 0 (-1) smallBooted k s' := by
  have hSize : (smallBooted.proc 0).sz = PGSIZE := by decide +kernel
  refine (growproc_reports_iff (Reachable.boot smallBooted_booted).good (by decide)
    ?_ (by decide) (by decide)).mpr ?_
  · rw [smallBooted_ready.1]
    decide
  · rw [hSize]
    decide

end Xv6.Kernel

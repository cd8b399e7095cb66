import Xv6.Kernel.Isolation

/-
  The arguments of a program that `exec` starts.

  What the strings and the vector need is a sum of sizes
  rounded up to 16 bytes. `exec` fails if that is more than
  the stack page, and otherwise the program finds its vector
  at the stack pointer.

  Main declarations:
    * `fits_iff`
    * `Arguments`
    * `exec_passes_arguments`
-/

namespace Xv6.Kernel

open Vm

---- Sizes

/- What a push of `n` bytes takes. -/
def padded (n : Nat) : Nat := (n + 15) / 16 * 16

def stringsNeed (strs : List (List UInt8)) : Nat :=
  (strs.map fun str => padded (str.length + 1)).sum

/- Strings and vector. -/
def stackNeed (strs : List (List UInt8)) : Nat := stringsNeed strs + padded (8 * (strs.length + 1))

section

variable {strs : List (List UInt8)} {base sp n : Nat}

theorem pushed_eq (hAligned : sp % 16 = 0) (hn : n ≤ sp) (hSp : sp < UINT64) :
    pushed sp n + padded n = sp := by
  unfold pushed padded UINT64 at *
  omega

theorem stringsNeed_cons (str : List UInt8) (strs : List (List UInt8)) :
    stringsNeed (str :: strs) = padded (str.length + 1) + stringsNeed strs := by
  rw [stringsNeed, List.map_cons, List.sum_cons]
  rfl

theorem stringsFit_iff (h : Roomy base strs sp) (hAligned : sp % 16 = 0) :
    (StringsFit base strs sp ↔ base + stringsNeed strs ≤ sp) ∧
      (StringsFit base strs sp → spAfter strs sp + stringsNeed strs = sp) := by
  induction strs generalizing sp with
  | nil => refine ⟨⟨fun _ => h.low, by rintro _ a ⟨⟩⟩, fun _ => rfl⟩
  | cons str strs ih =>
    have hShort := h.short str (by simp)
    have hPage := h.page
    have hLow := h.low
    have hEq := pushed_eq (n := str.length + 1) hAligned (by omega) h.high
    have hNext := pushed_aligned sp (str.length + 1)
    have hCons : base ≤ pushed sp (str.length + 1) → Roomy base strs (pushed sp (str.length + 1)) :=
      fun hFits => (h.cons hFits).2
    rw [stringsFit_cons, stringsNeed_cons, spAfter_cons]
    generalize pushed sp (str.length + 1) = sp₁ at *
    by_cases hFits : base ≤ sp₁
    · rcases ih (hCons hFits) hNext with ⟨hIff, hAfter⟩
      refine ⟨?_, ?_⟩
      · rw [hIff]
        omega
      · intro hBoth
        have hRest := hAfter hBoth.2
        omega
    · refine ⟨?_, fun hBoth => absurd hBoth.1 hFits⟩
      omega

theorem spAfter_aligned (strs : List (List UInt8)) (hAligned : sp % 16 = 0) :
    spAfter strs sp % 16 = 0 := by
  induction strs generalizing sp with
  | nil => exact hAligned
  | cons str strs ih =>
    rw [spAfter_cons]
    exact ih (pushed_aligned sp (str.length + 1))

theorem vector_small (hCount : strs.length < MAXARG) : 8 * (strs.length + 1) ≤ PGSIZE := by
  unfold MAXARG at hCount
  unfold PGSIZE
  omega

theorem fits_iff (h : Roomy base strs sp) (hAligned : sp % 16 = 0) (hCount : strs.length < MAXARG) :
    Fits base strs sp ↔ base + stackNeed strs ≤ sp := by
  have hSmall := vector_small hCount
  have hPage := h.page
  have hHigh := h.high
  rcases stringsFit_iff h hAligned with ⟨hIff, hAfter⟩
  unfold Fits stackNeed stackPtr
  rw [length_vector]
  by_cases hFit : StringsFit base strs sp
  · have hLe := spAfter_le h hFit
    have hSum := hAfter hFit
    have hEq := pushed_eq (n := 8 * (strs.length + 1))
      (spAfter_aligned strs hAligned) (by omega) (by omega)
    generalize pushed (spAfter strs sp) (8 * (strs.length + 1)) = top at *
    refine ⟨fun hBoth => ?_, fun hRoom => ⟨hFit, ?_⟩⟩
    · have hTop := hBoth.2
      omega
    · omega
  · refine ⟨fun hBoth => absurd hBoth.1 hFit, ?_⟩
    intro hRoom
    exact absurd (hIff.mpr (by omega)) hFit

end

---- What The Program Finds

/- The bytes at an address of process `i`. -/
def State.HoldsAt (s : State) (i va : Nat) (bytes : List UInt8) : Prop :=
  ∀ x < bytes.length, s.byteOf i (va + x) = some (bytes.getD x 0)

/-
  The vector `ptrs` at `sp` and the strings that it points
  to. The stack is the last page, above the guard page.
-/
structure Arguments (s : State) (i sp : Nat) (ptrs : List Nat) (strs : List (List UInt8)) :
    Prop where
  count : ptrs.length = strs.length
  top : (s.proc i).sz % PGSIZE = 0
  guard : ∃ w, s.leafOf i ((s.proc i).sz / PGSIZE - 2) = some w ∧ w &&& PTE_U = 0
  stack : ∃ w, s.leafOf i ((s.proc i).sz / PGSIZE - 1) = some w ∧ w &&& PTE_U ≠ 0
  aligned : sp % 16 = 0
  low : (s.proc i).sz - PGSIZE ≤ sp
  high : sp + 8 * (ptrs.length + 1) ≤ (s.proc i).sz
  vector : s.HoldsAt i sp ((ptrs ++ [0]).flatMap (Bytes.le 8))
  pointers :
    ∀ k < ptrs.length, ptrs.getD k 0 % 16 = 0 ∧ sp + 8 * (ptrs.length + 1) ≤ ptrs.getD k 0 ∧
      ptrs.getD k 0 + ((strs.getD k []).length + 1) ≤ (s.proc i).sz
  strings : ∀ k < ptrs.length, s.HoldsAt i (ptrs.getD k 0) (strs.getD k [] ++ [0])
  ends : ∀ str ∈ strs, 0 ∉ str
  apart :
    ∀ j k, j < k → k < ptrs.length → ptrs.getD k 0 + ((strs.getD k []).length + 1) ≤ ptrs.getD j 0

/- The registers `sp` and `a1` point to the vector. -/
def Receives (s : State) (i : Nat) (strs : List (List UInt8)) : Prop :=
  ∃ sp ptrs,
    s.kmem.mem.load ((s.proc i).trapframe + SP) 8 = sp ∧
    s.kmem.mem.load ((s.proc i).trapframe + A1) 8 = sp ∧
    Arguments s i sp ptrs strs

section

variable {L : Layout} {B : Multiset Nat} {r : Nat → Nat} {s : State} {i sz base : Nat}
variable {image : Image} {strs : List (List UInt8)} {c : Memory}

theorem stackMem_vector (strs : List (List UInt8)) (sp : Nat) (c : Memory) {x : Nat}
    (hx : x < (Kernel.vector strs sp).length) :
    stackMem strs sp c (stackPtr strs sp + x) = (Kernel.vector strs sp).getD x 0 := by
  have hIn : stackPtr strs sp ≤ stackPtr strs sp + x ∧
      stackPtr strs sp + x < stackPtr strs sp + (Kernel.vector strs sp).length := by
    omega
  unfold stackMem Memory.write
  rw [if_pos hIn, Nat.add_sub_cancel_left]

theorem stackMem_string {sp k x : Nat} (h : Roomy base strs sp) (hFits : StringsFit base strs sp)
    (hVector : stackPtr strs sp + (Kernel.vector strs sp).length ≤ spAfter strs sp)
    (hk : k < strs.length) (hx : x ≤ (strs.getD k []).length) :
    stackMem strs sp c ((addrs strs sp).getD k 0 + x) = (strs.getD k [] ++ [0]).getD x 0 := by
  have hRange := (addrs_range h hFits hk).1
  rw [stackMem, Memory.write_other _ _ (.inr (by omega))]
  exact pushStrings_string h hFits hk hx

/- A process whose last pages are the stack built for it. -/
theorem arguments_of_bytes (hSz : (s.proc i).sz = image.sz)
    (hRoomy : Roomy (image.sz - USERSTACK * PGSIZE) strs image.sz) (hTop : image.sz % PGSIZE = 0)
    (hCount : strs.length < MAXARG) (hFits : Fits (image.sz - USERSTACK * PGSIZE) strs image.sz)
    (hSp : image.sp = stackPtr strs image.sz)
    (hGuard : ∃ w, s.leafOf i (image.sz / PGSIZE - 2) = some w ∧ w &&& PTE_U = 0)
    (hStack : ∃ w, s.leafOf i (image.sz / PGSIZE - 1) = some w ∧ w &&& PTE_U ≠ 0)
    (hEnds : ∀ str ∈ strs, 0 ∉ str)
    (hBytes : ∀ va < image.sz, s.byteOf i va = some (stackMem strs image.sz c va)) :
    Arguments s i image.sp (addrs strs image.sz) strs := by
  have hLength := length_addrs strs image.sz
  have hVecLength := length_vector strs image.sz
  have hAfter := spAfter_le hRoomy hFits.1
  have hVector :
      stackPtr strs image.sz + (Kernel.vector strs image.sz).length ≤ spAfter strs image.sz := by
    have hPage := hRoomy.page
    have hHigh := hRoomy.high
    have hSmall := vector_small hCount
    exact pushed_le (by omega) (by omega)
  rw [hSp]
  refine ⟨hLength, ?_, ?_, ?_, ?_, ?_, ?_, ?_, ?_, ?_, hEnds, ?_⟩
  · rw [hSz]
    exact hTop
  · rw [hSz]
    exact hGuard
  · rw [hSz]
    exact hStack
  · exact pushed_aligned _ _
  · have hLow := hFits.2
    rw [USERSTACK, Nat.one_mul] at hLow
    rw [hSz]
    exact hLow
  · rw [hSz, hLength, ← hVecLength]
    exact Nat.le_trans hVector hAfter.1
  · intro x hx
    have hx : x < (Kernel.vector strs image.sz).length := hx
    rw [hBytes _ (by omega), stackMem_vector _ _ _ hx]
    rfl
  · intro k hk
    rw [hLength] at hk
    have hRange := addrs_range hRoomy hFits.1 hk
    rw [hSz, hLength, ← hVecLength]
    exact ⟨hRange.2.2, Nat.le_trans hVector hRange.1, hRange.2.1⟩
  · intro k hk x hx
    rw [hLength] at hk
    have hRange := addrs_range hRoomy hFits.1 hk
    rw [List.length_append, List.length_singleton] at hx
    rw [hBytes _ (by omega), stackMem_string hRoomy hFits.1 hVector hk (by omega)]
  · intro j k hjk hk
    rw [hLength] at hk
    exact addrs_apart hRoomy hFits.1 hjk hk

theorem last_page {top : Nat} (hTop : top % PGSIZE = 0)
    (hSz : top = base + (USERSTACK + 1) * PGSIZE) :
    top / PGSIZE - 1 < pageCount top ∧ top / PGSIZE - (USERSTACK + 1) ≠ top / PGSIZE - 1 := by
  unfold pageCount USERSTACK PGSIZE at *
  omega

/- The process after the commit and the last kept pages. -/
theorem Committed.arguments {s₁ s₂ s₃ : State} {C : Multiset Nat}
    (h : Committed B i strs (PGROUNDUP sz) c image s₁ s₂) (h₂ : Inv L B r s₂) (hLive : Live s₂ i)
    (hProc : s₃.proc i = s₂.proc i) (hKeeps : Keeps (inUse C s₂) s₂.kmem.mem s₃.kmem.mem)
    (hShort : ∀ str ∈ strs, str.length < PGSIZE) (hCount : strs.length < MAXARG)
    (hEnds : ∀ str ∈ strs, 0 ∉ str) : Arguments s₃ i image.sp (addrs strs image.sz) strs := by
  have hNew := h.proc_eq
  have hSz : (s₂.proc i).sz = image.sz := by rw [hNew, execProc]
  have hSmall := h₂.small hLive.1 hLive.2
  rw [hSz] at hSmall
  rcases h.built.roomy hSmall hShort with ⟨hRoomy, hTop⟩
  have hLeaf : ∀ v, s₃.leafOf i v = s₂.leafOf i v := h₂.leafOf_keeps hLive hProc hKeeps
  have hImage : s₂.leafOf i = leaf s₂.kmem.mem image.pagetable := by
    funext v
    rw [State.leafOf, hNew, execProc]
  have hBelow : image.sz ≤ TRAMPOLINE := by
    unfold pageCount PGSIZE at hSmall
    unfold TRAMPOLINE MAXVA PGSIZE
    omega
  have hPages := last_page hTop h.built.sz
  refine arguments_of_bytes (c := c) (by rw [hProc]; exact hSz) hRoomy hTop hCount
    h.built.fits h.built.sp ?_ ?_ hEnds ?_
  · rcases h.built.guard with ⟨w, hw, hUser⟩
    refine ⟨w, ?_, hUser⟩
    rw [hLeaf, hImage]
    exact hw
  · rcases (h₂.shape hLive.1 hLive.2).user.leaves
      (image.sz / PGSIZE - 1) (by rw [hSz]; exact hPages.1)
      with ⟨w, hw, hUserLeaf⟩
    refine ⟨w, (hLeaf _).trans hw, hUserLeaf.2 ?_⟩
    rw [hNew, execProc]
    exact fun hEq => hPages.2 (Option.some.inj hEq)
  · intro va hva
    rw [h₂.byteOf_keeps hLive hProc hKeeps (by omega), State.byteOf, hImage]
    exact h.built.contents.bytes va (div_lt_pageCount hva)

theorem fetchArgs_fetched {uargv : Nat} {argv : List Nat} {kmem : Kmem} (h : Inv L B r s)
    (hRun : fetchArgs (s.proc i) uargv MAXARG [] s.kmem = .ok ((true, argv), kmem)) :
    Fetched (inUse B s) MAXARG kmem.mem argv := by
  have hNoArgs : Books L s.kmem ((([] : List Nat) : Multiset Nat) + inUse B s) :=
    h.books.own_eq (zero_add (M := Multiset Nat) _).symm
  have hSpec : Prog.wp (fetchArgs (s.proc i) uargv MAXARG [])
      (fun out k => out.1 = true → Fetched (inUse B s) MAXARG k.mem out.2)
      (fun _ => False) s.kmem := by
    refine fetchArgs_spec hNoArgs (by rintro a ⟨⟩) ?_
    intro ok argv' k _ _ hFetched hOk
    have hAll := hFetched hOk
    rw [List.length_nil, Nat.zero_add] at hAll
    exact hAll
  exact Prog.wp_of_eq_ok hSpec hRun rfl

theorem strsIn_short {R : Multiset Nat} {m : Memory} {argv : List Nat} {n : Nat}
    (h : Fetched R n m argv) : ∀ str ∈ strsIn m argv, str.length < PGSIZE := by
  intro str hStr
  rcases List.mem_map.mp hStr with ⟨a, ha, rfl⟩
  exact (h.2 a ha).short

theorem strsIn_ends (m : Memory) (argv : List Nat) : ∀ str ∈ strsIn m argv, 0 ∉ str := by
  intro str hStr hZero
  rcases List.mem_map.mp hStr with ⟨a, ha, rfl⟩
  exact absurd (List.mem_takeWhile_imp hZero) (by decide)

theorem Built.need {m : Memory} {f : Nat → Option Nat} (h : Built strs (PGROUNDUP sz) c image m f)
    (hSmall : pageCount image.sz ≤ 2 ^ 15) (hShort : ∀ str ∈ strs, str.length < PGSIZE)
    (hCount : strs.length < MAXARG) : stackNeed strs ≤ PGSIZE := by
  rcases h.roomy hSmall hShort with ⟨hRoomy, hTop⟩
  have hAligned : image.sz % 16 = 0 := by
    unfold PGSIZE at hTop
    omega
  have hNeed := (fits_iff hRoomy hAligned hCount).mp h.fits
  have hPage := hRoomy.page
  have hLow := hRoomy.low
  rw [USERSTACK, Nat.one_mul] at hNeed hPage hLow
  omega

theorem Committed.registers {s₁ s₂ t : State} {C : Multiset Nat}
    (h : Committed B i strs base c image s₁ s₂) (h₂ : Inv L B r s₂) (hLive : Live s₂ i)
    (hProc : t.proc i = s₂.proc i) (hKeeps : Keeps (inUse C s₂) s₂.kmem.mem t.kmem.mem) :
    t.kmem.mem.load ((t.proc i).trapframe + SP) 8 = image.sp ∧
      t.kmem.mem.load ((t.proc i).trapframe + A1) 8 = image.sp := by
  have hTf : (t.proc i).trapframe = (s₁.proc i).trapframe := by rw [hProc, h.proc_eq, execProc]
  have hSame : (s₂.proc i).trapframe = (s₁.proc i).trapframe := by rw [h.proc_eq, execProc]
  have hPage := (h₂.table hLive.1 hLive.2).isPage_rest (p := (s₂.proc i).trapframe) (by simp)
  have hIn : (s₂.proc i).trapframe ∈ inUse C s₂ := by
    rw [inUse_split C s₂ hLive.1, procPages_live hLive.2]
    simp
  rw [hSame] at hPage hIn
  rw [hTf]
  refine ⟨?_, ?_⟩
  · rw [hKeeps.load hPage.aligned hIn (by decide)]
    exact h.sp
  · rw [hKeeps.load hPage.aligned hIn (by decide)]
    exact h.a1

theorem pushStack_outcome {k : Kmem} {pt v w : Nat} {f : Nat → Option Nat} {R : Multiset Nat}
    {argv : List Nat} (h : Table L k pt f (frames f 0 (v + 1) + R)) (hStack : StackPage f v w)
    (hc : Contents k.mem f (v + 1) c) (hArgs : ∀ a ∈ argv, ArgPage R k.mem a)
    (hCount : argv.length < MAXARG) :
    ∃ out k', pushStack pt (v * PGSIZE) ((v + 1) * PGSIZE) argv k = .ok (out, k') ∧
      (out = none ↔ PGSIZE < stackNeed (strsIn k.mem argv)) ∧
        Keeps (frames f 0 v + R) k.mem k'.mem := by
  have hRoomy := hStack.roomy hArgs
  have hAligned : (v + 1) * PGSIZE % 16 = 0 := by
    unfold PGSIZE
    omega
  have hFits := fits_iff hRoomy hAligned (by rw [strsIn, List.length_map]; exact hCount)
  rw [Nat.add_mul, Nat.one_mul] at hFits
  refine Prog.exists_ok_of_wp (pushStack_spec h hStack hc hArgs hCount ?_ ?_)
  · intro k' _ hKeeps hNot
    rw [Nat.add_mul, Nat.one_mul, hFits] at hNot
    exact ⟨⟨fun _ => by omega, fun _ => rfl⟩, hKeeps⟩
  · intro k' _ hKeeps hFit _
    rw [Nat.add_mul, Nat.one_mul, hFits] at hFit
    refine ⟨⟨?_, fun hMore => by omega⟩, hKeeps⟩
    intro hNone
    cases hNone

theorem sysExec_arguments (path uargv : Nat) (ip : Option Inode) (h : Inv L B r s)
    (hLive : Live s i) :
    ∃ n s', sysExec L i path uargv ip s = .ok (n, s') ∧
      (n = -1 ∧ ¬ Runs L s i path uargv ip ∨ ∃ argv kmem,
        fetchArgs (s.proc i) uargv MAXARG [] s.kmem = .ok ((true, argv), kmem) ∧
        n = argv.length ∧
        stackNeed (strsIn kmem.mem argv) ≤ PGSIZE ∧
        Receives s' i (strsIn kmem.mem argv)) := by
  refine Prog.exists_ok_of_wp (sysExec_spec h hLive.1 hLive.2 ?_ ?_)
  · intro kmem _ _ hNot
    exact .inl ⟨rfl, hNot⟩
  intro node image sz argv kmem s₂ kmem₃ _ hFetch hFetched _ hCommitted h₂ _ hKeeps
  have hLive₂ : Live s₂ i := by
    refine ⟨hLive.1, ?_⟩
    rw [hCommitted.proc_eq, execProc]
    exact hLive.2
  have hShort := strsIn_short hFetched
  have hCount : (strsIn kmem.mem argv).length < MAXARG := by
    rw [strsIn, List.length_map]
    exact hFetched.1
  have hSmall := h₂.small hLive₂.1 hLive₂.2
  rw [hCommitted.proc_eq, execProc] at hSmall
  have hArgc : image.argc = argv.length := by rw [hCommitted.built.argc, strsIn, List.length_map]
  have hRegs := hCommitted.registers (t := { s₂ with kmem := kmem₃ }) h₂ hLive₂ rfl hKeeps
  refine .inr ⟨argv, kmem, hFetch, ?_, hCommitted.built.need hSmall hShort hCount,
    image.sp, addrs (strsIn kmem.mem argv) image.sz, hRegs.1, hRegs.2, ?_⟩
  · rw [hArgc]
  · exact hCommitted.arguments h₂ hLive₂ rfl hKeeps hShort hCount (strsIn_ends _ _)

/-
  `exec` through the system call. It returns a number if the
  strings can be copied and the image built. That is the
  number of the strings it was given, and the new program
  finds them on its stack. Strings that need
  more than the stack page make it return `-1`, and what it
  writes of them stays in that page.
-/
theorem exec_passes_arguments
    (path uargv : Nat)
    (ip : Option Inode)
    (h : Good L B s)
    (hLive : Live s i) :
    (∃ n s',
      sysExec L i path uargv ip s = .ok (n, s') ∧
      (Runs L s i path uargv ip → 0 ≤ n) ∧
      (0 ≤ n → ∃ argv kmem,
        fetchArgs (s.proc i) uargv MAXARG [] s.kmem = .ok ((true, argv), kmem) ∧
        n = argv.length ∧
        Receives s' i (strsIn kmem.mem argv)) ∧
      ∀ argv kmem,
        fetchArgs (s.proc i) uargv MAXARG [] s.kmem = .ok ((true, argv), kmem) →
          argv.length ≤ MAXARG - 1 ∧
          (∀ str ∈ strsIn kmem.mem argv, str.length < PGSIZE) ∧
          (PGSIZE < stackNeed (strsIn kmem.mem argv) → n = -1)) ∧
      ∀ (k : Kmem) pt f v w R c' (argv : List Nat),
        Table L k pt f (frames f 0 (v + 1) + R) →
        StackPage f v w →
        Contents k.mem f (v + 1) c' →
        (∀ a ∈ argv, ArgPage R k.mem a) →
        argv.length < MAXARG →
          ∃ out k',
            pushStack pt (v * PGSIZE) ((v + 1) * PGSIZE) argv k = .ok (out, k') ∧
            (out = none ↔ PGSIZE < stackNeed (strsIn k.mem argv)) ∧
            Keeps (frames f 0 v + R) k.mem k'.mem := by
  refine ⟨?_, ?_⟩
  · rcases sysExec_arguments path uargv ip h hLive with ⟨n, s', hRun, hOut⟩
    refine ⟨n, s', hRun, ?_, ?_, ?_⟩
    · intro hRuns
      rcases hOut with ⟨_, hNot⟩ | ⟨_, _, _, hCount, _⟩
      · exact absurd hRuns hNot
      · omega
    · intro hn
      rcases hOut with ⟨hFailed, _⟩ | hDone
      · omega
      · rcases hDone with ⟨argv, kmem, hFetch, hCount, _, hReceives⟩
        exact ⟨argv, kmem, hFetch, hCount, hReceives⟩
    · intro argv kmem hFetch
      have hFetched := fetchArgs_fetched h hFetch
      have hFew := hFetched.1
      refine ⟨by omega, strsIn_short hFetched, ?_⟩
      intro hMore
      rcases hOut with ⟨hFailed, _⟩ | hDone
      · exact hFailed
      · rcases hDone with ⟨argv', kmem', hFetch', _, hNeed, _⟩
        rw [hFetch] at hFetch'
        cases hFetch'
        omega
  · intro k pt f v w R c' argv hTable hStack hc hArgs hCount
    exact pushStack_outcome hTable hStack hc hArgs hCount

/- The strings of a call that `Runs`, if it does. -/
def runsWith (L : Layout) (s : State) (i path uargv : Nat) (node : Inode) :
    Option (List (List UInt8)) :=
  match copyinstr (s.proc i).pagetable path MAXPATH s.kmem,
    fetchArgs (s.proc i) uargv MAXARG [] s.kmem with
  | .ok (some _, _), .ok ((true, argv), kmem) =>
    match buildImage L (s.proc i).trapframe node (readi node 0 ELFHDRSIZE) argv kmem with
    | .ok (some _, _) => some (strsIn kmem.mem argv)
    | _ => none
  | _, _ => none

theorem runs_of_runsWith
    {path uargv : Nat} {node : Inode}
    (hLength : (readi node 0 ELFHDRSIZE).length = ELFHDRSIZE)
    (hMagic : field (readi node 0 ELFHDRSIZE) 0 4 = ELF_MAGIC)
    (h : runsWith L s i path uargv node = some strs) :
    Runs L s i path uargv (some node) ∧
      ∃ argv kmem,
        fetchArgs (s.proc i) uargv MAXARG [] s.kmem = .ok ((true, argv), kmem) ∧
          strsIn kmem.mem argv = strs := by
  unfold runsWith at h
  split at h
  · next str k argv kmem hCopy hFetch =>
    split at h
    · next image kmem' hImage =>
      refine ⟨⟨str, k, argv, kmem, hCopy, hFetch, ?_⟩, argv, kmem, hFetch, Option.some.inj h⟩
      exact ⟨node, image, kmem', rfl, hLength, hMagic, hImage⟩
    · cases h
  · cases h

end

/- A file with the magic number and no program header. -/
def emptyProgram : Inode :=
  fun off n =>
    (([0x7f, 0x45, 0x4c, 0x46] ++ List.replicate 60 (0 : UInt8)).drop off).take n

/- The call of `initcode`, with the one string "/init". -/
theorem exec_passes_arguments_initcode :
    ∃ s',
      sysExec smallLayout 0 0x24 0x2b (some emptyProgram) smallBooted = .ok (1, s') ∧
        Receives s' 0 [[47, 105, 110, 105, 116]] := by
  have hWith : runsWith smallLayout smallBooted 0 0x24 0x2b emptyProgram =
      some [[47, 105, 110, 105, 116]] := by
    decide +kernel
  rcases runs_of_runsWith (by decide) (by decide) hWith with ⟨hRuns, argv, kmem, hFetch, hStrs⟩
  rcases (exec_passes_arguments 0x24 0x2b (some emptyProgram)
    (Reachable.boot smallBooted_booted).good smallBooted_live).1 with
    ⟨n, s', hExec, hNonneg, hArgs, _⟩
  rcases hArgs (hNonneg hRuns) with ⟨argv', kmem', hFetch', hCount, hReceives⟩
  have hSame : (argv, kmem) = (argv', kmem') := by
    have hEq := hFetch.symm.trans hFetch'
    simp only [Except.ok.injEq, Prod.mk.injEq, true_and] at hEq ⊢
    exact hEq
  cases hSame
  rw [hStrs] at hReceives
  have hOne := congrArg List.length hStrs
  rw [strsIn, List.length_map] at hOne
  rw [hCount, hOne] at hExec
  exact ⟨s', hExec, hReceives⟩

end Xv6.Kernel

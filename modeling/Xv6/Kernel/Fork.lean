import Xv6.Kernel.Descriptors

/-
  What `fork` leaves of the parent and gives to the child.

  `forkStart` is `fork` up to the copies of the descriptors.
  It fails without a trace in the pages in use, or fills a
  slot with a copy of the memory and of the registers of the
  parent.

  Main declarations:
    * `Forked`
    * `forkStart_spec`
    * `fork_spec`
-/

namespace Xv6.Kernel

open Function (update update_self update_of_ne update_idem)

open Prog

open Vm

---- The First Part Of Fork

/- The new slot and its pid, or `none` without memory. -/
def forkStart (L : Layout) (i : Nat) : KernelM (Option (Nat × Int)) := do
  match ← allocproc L with
  | none => pure none
  | some np => do
    let p ← getProc i
    let child ← getProc np
    let r ← vm (uvmcopy L.kend p.pagetable child.pagetable p.sz)
    if r < 0 then do
      freeproc L.kend np
      pure none
    else do
      setProc np fun q => { q with sz := p.sz, guard := p.guard }
      vm (memmove child.trapframe p.trapframe TRAPFRAMESIZE)
      vm (st (child.trapframe + A0) 0)
      dupFiles i np (List.range NOFILE)
      pure (some (np, child.pid))

/- The child is the caller's and may run. -/
def forkEnd (i np : Nat) : KernelM Unit :=
  setProc np fun q => { q with parent := some i, state := .runnable }

theorem fork_eq (L : Layout) (i : Nat) :
    fork L i =
      (do
        match ← forkStart L i with
        | none => pure (-1)
        | some (np, pid) => do
          forkEnd i np
          pure pid) := by
  unfold fork forkStart
  rw [bind_assoc]
  congr 1
  funext o
  cases o with
  | none => rfl
  | some np =>
    dsimp only
    simp only [bind_assoc]
    congr 1
    funext p
    congr 1
    funext child
    congr 1
    funext r
    by_cases hr : r < 0
    · rw [if_pos hr, if_pos hr, bind_assoc]
      rfl
    · rw [if_neg hr, if_neg hr]
      simp only [bind_assoc, pure_bind]
      rfl

section

variable {L : Layout} {B : Multiset Nat} {r : Nat → Nat} {s : State} {i : Nat} {E : Panic → Prop}

---- Pages Of The Others

theorem Inv.good_of_ofile {s' : State} (h : Inv L B (refs s.proc) s')
    (hFiles : ∀ j, (s'.proc j).ofile = (s.proc j).ofile) : Good L B s' := by
  refine h.good ?_
  intro g _
  refine (refs_congr ?_ g).symm
  intro j _ fd _
  rw [hFiles j]

/- The pages of a process are among those of the others. -/
theorem mem_rest {k a : Nat} (hi : i < NPROC) (hNe : i ≠ k)
    (ha : a ∈ procPages s.kmem.mem (s.proc i)) : a ∈ rest s k :=
  Multiset.mem_add.mpr (.inl (mem_slotPages
    (Finset.mem_erase.mpr ⟨hNe, Finset.mem_range.mpr hi⟩) ha))

section

variable (h : Inv L B r s) (hi : i < NPROC)
include h hi

/- The parent's page table is among the pages of others. -/
theorem Inv.aside_other {k : Nat} {R : Multiset Nat} (hk : k < NPROC) (hNe : i ≠ k)
    (hLive : (s.proc i).state ≠ .unused) (hR : ∀ a ∈ rest s k, a ∈ R) :
    Aside s.kmem (s.proc i).pagetable (leaf s.kmem.mem (s.proc i).pagetable) R := by
  refine ⟨rfl, ?_⟩
  intro a ha
  have hIn : a ∈ procPages s.kmem.mem (s.proc i) := by
    rw [procPages_live hLive]
    simp [ha]
  have hRest := mem_rest hi hNe hIn
  exact ⟨h.rest_isPage hk hRest, hR a hRest⟩

theorem Inv.framesIn_other {k : Nat} {R : Multiset Nat} (hk : k < NPROC) (hNe : i ≠ k)
    (hLive : (s.proc i).state ≠ .unused) (hR : ∀ a ∈ rest s k, a ∈ R) :
    FramesIn (leaf s.kmem.mem (s.proc i).pagetable) (pageCount (s.proc i).sz) R := by
  intro v hv w hw
  have hIn : PTE2PA w ∈ procPages s.kmem.mem (s.proc i) := by
    rw [procPages_live hLive]
    simp [mem_frames hv hw]
  have hRest := mem_rest hi hNe hIn
  exact ⟨h.rest_isPage hk hRest, hR _ hRest⟩

theorem Inv.rest_eq {s' : State} (hProc : ∀ j, j ≠ i → s'.proc j = s.proc j)
    (hFile : s'.file = s.file) (hKeeps : Keeps (rest s i) s.kmem.mem s'.kmem.mem) :
    rest s' i = rest s i := by
  have hOthers :=
    slots_keep s'.kmem.mem (S := (Finset.range NPROC).erase i)
      (fun j hj => h.slots j (Finset.mem_range.mp (Finset.mem_of_mem_erase hj)))
      (fun a ha => h.rest_isPage hi (Multiset.mem_add.mpr (.inl ha)))
      (hKeeps.mono fun a ha =>
        Multiset.mem_add.mpr (.inl ha))
  unfold rest
  rw [hFile]
  congr 1
  refine Eq.trans (slotPages_congr ?_) hOthers.2
  intro j hj
  rw [hProc j (Finset.ne_of_mem_erase hj)]

theorem Inv.keeps_trapframe {m : Memory} (hLive : (s.proc i).state ≠ .unused)
    (hFrame : Frame {(s.proc i).trapframe} s.kmem.mem m) :
    Keeps (tree s.kmem.mem (s.proc i).pagetable +
        frames (leaf s.kmem.mem (s.proc i).pagetable) 0 (pageCount (s.proc i).sz) +
      (rest s i + B)) s.kmem.mem m := by
  have hNodup := (h.split hi).nodup
  rw [procPages_live hLive, Multiset.cons_add] at hNodup
  exact hFrame.keeps_rest hNodup

end

---- The Memory Of The Child

/- A child with the memory size of its parent. -/
def sized (child parent : Proc) : Proc := { child with sz := parent.sz, guard := parent.guard }

theorem forkCopy_spec {k : Nat} {Q : Int → State → Prop} (h : Inv L B r s) (hi : i < NPROC)
    (hk : k < NPROC) (hNe : i ≠ k) (hLive : (s.proc i).state ≠ .unused)
    (hUsed : (s.proc k).state = .used) (hSz : (s.proc k).sz = 0)
    (hFail : ∀ kmem, Inv L B r { s with kmem := kmem } → Keeps (rest s k + B) s.kmem.mem kmem.mem →
        Q (-1) { s with kmem := kmem })
    (hDone : ∀ kmem, Inv L B r { s with
          kmem := kmem
          proc := update s.proc k (sized (s.proc k) (s.proc i)) } →
      Keeps (rest s k + B) s.kmem.mem kmem.mem → (∀ v < pageCount (s.proc i).sz,
          CopyAt s.kmem.mem (leaf s.kmem.mem (s.proc i).pagetable) kmem.mem
            (leaf kmem.mem (s.proc k).pagetable) v) → Q 0 { s with kmem := kmem }) :
    wp (vm (uvmcopy L.kend (s.proc i).pagetable (s.proc k).pagetable (s.proc i).sz)) Q E s := by
  have hChild : (s.proc k).state ≠ .unused := by
    rw [hUsed]
    decide
  have hTable := h.table hk hChild
  have hShape := h.shape hk hChild
  have hUser := hShape.user
  rw [hSz] at hTable hUser
  have hEmpty : Range (UserLeaf (s.proc i).guard) (leaf s.kmem.mem (s.proc k).pagetable) 0 :=
    ⟨fun v hv => absurd hv (Nat.not_lt_zero v), fun v _ hTop => hUser.gap v (Nat.zero_le v) hTop⟩
  have hIn : ∀ a ∈ rest s k, a ∈ (s.proc k).trapframe ::ₘ (rest s k + B) := by
    intro a ha
    simp [ha]
  rw [wp_vm]
  refine uvmcopy_spec (leafFlags_userLeaf (s.proc i).guard)
    (copiedEntries_userLeaf (s.proc i).guard) (h.aside_other hi hk hNe hLive hIn)
    (h.shape hi hLive).user (h.framesIn_other hi hk hNe hLive hIn)
    (hTable.rest_eq (zero_add _)) hEmpty ?_ ?_
  · intro kmem hT hKeeps
    refine hFail kmem (h.memory hk hChild ?_ hShape ?_) ?_
    · rw [hSz]
      exact hT.rest_eq (zero_add _).symm
    all_goals exact hKeeps.mono (by simp +contextual)
  · intro kmem g hT hRange hSame hKeeps hCopies
    refine hDone kmem (h.updateTable hk hT ?_ ?_ hChild ?_) ?_ ?_
    · exact hShape.resize hRange hSame
    · exact hKeeps.mono (by simp +contextual)
    · exact ⟨(h.descriptors k hk).file, (h.descriptors k hk).closed⟩
    · exact hKeeps.mono (by simp +contextual)
    · rw [hT.map]
      exact hCopies

/- The registers of the child: `a0` is zero. -/
def childRegister (m : Memory) (tf o : Nat) : UInt8 := if A0 ≤ o ∧ o < A0 + 8 then 0 else m (tf + o)

/- The two writes to the trapframe of the child. -/
def childFrame (m : Memory) (tf src : Nat) : Memory :=
  (m.write tf (m.read src TRAPFRAMESIZE)).store (tf + A0) 8 0

theorem frame_childFrame (m : Memory) {tf : Nat} (src : Nat) (hAligned : tf % PGSIZE = 0) :
    Frame {tf} m (childFrame m tf src) := by
  have hCopy : Frame {tf} m (m.write tf (m.read src TRAPFRAMESIZE)) := by
    refine frame_write (o := 0) m _ hAligned ?_
    rw [Memory.length_read]
    decide
  exact hCopy.trans (frame_store _ 0 hAligned (by decide))

theorem childFrame_register (m : Memory) (tf src : Nat) {o : Nat} (ho : o < TRAPFRAMESIZE) :
    childFrame m tf src (tf + o) = childRegister m src o := by
  unfold childFrame childRegister
  by_cases hA0 : A0 ≤ o ∧ o < A0 + 8
  · have hOffset : tf + o = tf + A0 + (o - A0) := by omega
    rw [if_pos hA0, hOffset]
    exact Memory.store_zero _ _ (by omega)
  · rw [if_neg hA0, Memory.store_other _ _ (by omega)]
    exact Memory.write_read_same m ho

---- The Whole Of Fork

/- The new process in slot `k`. -/
structure Forked (B : Multiset Nat) (i k : Nat) (s s' : State) : Prop where
  lt : k < NPROC
  unused : (s.proc k).state = .unused
  used : (s'.proc k).state = .used
  others : ∀ j, j ≠ k → s'.proc j = s.proc j
  sz : (s'.proc k).sz = (s.proc i).sz
  pages : Keeps (inUse B s) s.kmem.mem s'.kmem.mem
  copies : ∀ v < pageCount (s.proc i).sz, CopyAt s.kmem.mem
    (leaf s.kmem.mem (s.proc i).pagetable)
    s'.kmem.mem
    (leaf s'.kmem.mem (s'.proc k).pagetable) v
  registers : ∀ o < TRAPFRAMESIZE,
    s'.kmem.mem ((s'.proc k).trapframe + o) = childRegister s.kmem.mem (s.proc i).trapframe o

/- After `allocproc` took slot `k` of `s`. -/
structure Allocated (B : Multiset Nat) (k : Nat) (s s₁ : State) : Prop where
  lt : k < NPROC
  unused : (s.proc k).state = .unused
  used : (s₁.proc k).state = .used
  others : ∀ j, j ≠ k → s₁.proc j = s.proc j
  aside : rest s₁ k = rest s k
  pages : Keeps (rest s k + B) s.kmem.mem s₁.kmem.mem

theorem Allocated.ne {k : Nat} {s₁ : State} (h : Allocated B k s s₁)
    (hLive : (s.proc i).state ≠ .unused) : i ≠ k := by
  rintro rfl
  exact hLive h.unused

/- What the copies leave once the files are duplicated. -/
theorem Allocated.forked {k : Nat} {s₁ : State} {kmem kmem' : Kmem} {file : Nat → File}
    {o : Nat → Option Nat} (hNew : Allocated B k s s₁) (h : Good L B s) (hi : i < NPROC)
    (hLive : (s.proc i).state ≠ .unused) (h₁ : Inv L B r s₁)
    (h₂ : Inv L B r { s₁ with
      kmem := kmem
      proc := update s₁.proc k (sized (s₁.proc k) (s₁.proc i)) })
    (hKeeps : Keeps (rest s₁ k + B) s₁.kmem.mem kmem.mem)
    (hCopies : ∀ v < pageCount (s₁.proc i).sz,
      CopyAt s₁.kmem.mem (leaf s₁.kmem.mem (s₁.proc i).pagetable) kmem.mem
        (leaf kmem.mem (s₁.proc k).pagetable) v)
    (hMem : kmem'.mem = childFrame kmem.mem (s₁.proc k).trapframe (s₁.proc i).trapframe) :
    Forked B i k s { s₁ with
      kmem := kmem'
      proc := update s₁.proc k (withFiles (sized (s₁.proc k) (s₁.proc i)) o)
      file := file } := by
  have hNe := hNew.ne hLive
  have hk := hNew.lt
  have hPages := hNew.pages
  have hParent := hNew.others i hNe
  have hIn : ∀ a ∈ rest s k, a ∈ rest s k + B := by simp +contextual
  have hChild : (s₁.proc k).state ≠ .unused := by
    rw [hNew.used]
    decide
  have hChild₂ : (update s₁.proc k (sized (s₁.proc k) (s₁.proc i)) k).state ≠ .unused := by
    rw [update_self]
    exact hChild
  have hFrame : Frame {(s₁.proc k).trapframe} kmem.mem kmem'.mem := by
    have hPage := (h₁.table hk hChild).isPage_rest (p := (s₁.proc k).trapframe) (by simp)
    rw [hMem]
    exact frame_childFrame _ _ hPage.aligned
  have hKeeps' := h₂.keeps_trapframe hk hChild₂ (m := kmem'.mem)
    (by dsimp only; rw [update_self]; exact hFrame)
  have hTable := h₂.table hk hChild₂
  have hRest : rest { s₁ with
      kmem := kmem
      proc := update s₁.proc k (sized (s₁.proc k) (s₁.proc i)) } k = rest s k := by
    rw [← hNew.aside]
    exact h₁.rest_eq hk (fun j hj => update_of_ne hj _ _) rfl (hKeeps.mono (by simp +contextual))
  rw [hNew.aside] at hKeeps
  rw [hParent] at hCopies
  rw [hRest] at hKeeps'
  dsimp only at hKeeps' hTable
  rw [update_self, sized, hParent] at hKeeps' hTable
  have hLeaf : leaf kmem'.mem (s₁.proc k).pagetable = leaf kmem.mem (s₁.proc k).pagetable := by
    refine SameEntries.leaf (hKeeps'.sameEntries ?_ ?_)
    · intro a ha
      exact (hTable.books.isRam (Multiset.mem_add.mpr (.inl ha))).aligned
    · intro a ha
      simp [ha]
  refine ⟨hk, hNew.unused, ?_, ?_, ?_, ?_, ?_, ?_⟩
  · dsimp only
    rw [update_self]
    exact hNew.used
  · intro j hj
    dsimp only
    rw [update_of_ne hj]
    exact hNew.others j hj
  · dsimp only
    rw [update_self, ← hParent]
    rfl
  · rw [inUse_unused B hk hNew.unused]
    exact hPages.trans (hKeeps.trans (hKeeps'.mono (by simp +contextual)))
  · intro v hv
    dsimp only
    rw [update_self]
    change CopyAt _ _ _ (leaf kmem'.mem (s₁.proc k).pagetable) v
    rw [hLeaf]
    have hAside := (h.aside_other hi hk hNe hLive hIn).keeps (t := s₁.kmem) hPages
    rw [hAside.map] at hCopies
    refine ((hCopies v hv).of_keeps hPages (h.framesIn_other hi hk hNe hLive hIn) hv).keeps
      hKeeps' ?_ hv
    intro u hu w hw
    have hMapped := mem_frames hu hw
    refine ⟨hTable.isPage_rest ?_, ?_⟩
    · simp [hMapped]
    · simp [hMapped]
  · intro x hx
    dsimp only
    rw [update_self]
    change kmem'.mem ((s₁.proc k).trapframe + x) = _
    rw [hMem, childFrame_register _ _ _ hx, hParent]
    unfold childRegister
    have hTf : (s.proc i).trapframe ∈ rest s k + B := by
      refine hIn _ (mem_rest hi hNe ?_)
      rw [procPages_live hLive]
      simp
    have hPage := (h.table hi hLive).isPage_rest (p := (s.proc i).trapframe) (by simp)
    rw [(hPages.trans hKeeps).page hPage hTf (Nat.lt_of_lt_of_le hx (by decide))]

theorem forkStart_spec {Q : Option (Nat × Int) → State → Prop} (h : Good L B s) (hi : i < NPROC)
    (hLive : (s.proc i).state ≠ .unused) (hFail : ∀ s', Good L B s' → Kept B s s' → Q none s')
    (hDone : ∀ k s', Good L B s' → Forked B i k s s' → Q (some (k, (s'.proc k).pid)) s') :
    wp (forkStart L i) Q E s := by
  unfold forkStart
  rw [wp_bind]
  refine allocproc_spec h ?_ ?_
  · intro s' h' hKept
    rw [wp_pure]
    exact hFail s' (h'.good_of_ofile hKept.ofile) hKept
  intro k p s₁ hk hUnused hProc hUsed hSz hFiles hFile hPages h₁
  have hSelf : s₁.proc k = p := by rw [hProc, update_self]
  have hOther : ∀ j, j ≠ k → s₁.proc j = s.proc j := by
    intro j hj
    rw [hProc, update_of_ne hj]
  have hFiles₁ : ∀ j, (s₁.proc j).ofile = (s.proc j).ofile := by
    rw [hProc]
    exact ofile_update hFiles
  have hNone : ∀ fd < NOFILE, (s₁.proc k).ofile fd = none := by
    rw [hFiles₁ k]
    exact (h.descriptors k hk).closed (.inl hUnused)
  have hInUse : inUse B s = rest s k + B := inUse_unused B hk hUnused
  have hRest : rest s₁ k = rest s k := by
    refine h.rest_eq hk hOther hFile (hPages.mono ?_)
    rw [hInUse]
    simp +contextual
  rw [← hSelf] at hUsed hSz
  have hNew : Allocated B k s s₁ := ⟨hk, hUnused, hUsed, hOther, hRest, hInUse ▸ hPages⟩
  have hNe := hNew.ne hLive
  have hLive₁ : (s₁.proc i).state ≠ .unused := by
    rw [hOther i hNe]
    exact hLive
  dsimp only
  rw [wp_bind, wp_getProc, wp_bind, wp_getProc, wp_bind]
  refine forkCopy_spec h₁ hi hk hNe hLive₁ hUsed hSz ?_ ?_
  · -- No memory: the slot is given up.
    intro kmem h₂ hKeeps₂
    rw [if_pos (by decide), wp_bind]
    refine freeproc_spec h₂ hk ?_ hNone ?_
    · dsimp only
      rw [hUsed]
      decide
    intro kmem' h₃ hKeeps₃
    rw [wp_pure]
    have hRest₂ : rest { s₁ with kmem := kmem } k = rest s k := by
      rw [← hRest]
      exact h₁.rest_eq hk (fun _ _ => rfl) rfl (hKeeps₂.mono (by simp +contextual))
    have hKept : Kept B s { s₁ with
        kmem := kmem'
        proc := update s₁.proc k (freed (s₁.proc k)) } := by
      refine Kept.of_update (i := k) (p := s₁.proc k) hUnused ?_ (hFiles₁ k) hFile ?_
      · dsimp only
        rw [hProc, update_idem]
      · rw [hInUse]
        rw [hRest] at hKeeps₂
        rw [hRest₂] at hKeeps₃
        exact hNew.pages.trans (hKeeps₂.trans hKeeps₃)
    exact hFail _ (h₃.good_of_ofile hKept.ofile) hKept
  intro kmem h₂ hKeeps₂ hCopies
  rw [if_neg (by decide), wp_bind, wp_setProc]
  change wp _ Q E { s₁ with
    kmem := kmem
    proc := update s₁.proc k (sized (s₁.proc k) (s₁.proc i)) }
  have hChild : (update s₁.proc k (sized (s₁.proc k) (s₁.proc i)) k).state ≠ .unused := by
    rw [update_self, sized, hUsed]
    decide
  have hTf : (update s₁.proc k (sized (s₁.proc k) (s₁.proc i)) k).trapframe =
      (s₁.proc k).trapframe := by
    rw [update_self]
    rfl
  rw [wp_bind]
  refine copyTrapframe_spec h₂ hk hChild hTf ?_
  intro kmem₁ h₃ hWrite
  rw [wp_bind]
  refine stTrapframe_spec h₃ hk hChild hTf (by decide) ?_
  intro kmem₂ h₄ hStore
  have hMem : kmem₂.mem = childFrame kmem.mem (s₁.proc k).trapframe (s₁.proc i).trapframe := by
    rw [hStore, hWrite]
    rfl
  have hGood :=
    h₄.good_of_ofile fun j => by
      dsimp only
      rw [ofile_update (p := sized (s₁.proc k) (s₁.proc i)) rfl]
      exact hFiles₁ j
  rw [wp_bind]
  refine dupFiles_spec hGood hi hk ?_ (fun fd hfd => List.mem_range.mp hfd) List.nodup_range ?_ ?_
  · dsimp only
    rw [update_self]
    exact hUsed
  · intro fd hfd
    dsimp only
    rw [update_self]
    exact hNone fd (List.mem_range.mp hfd)
  intro file o h₅
  simp only [update_self, update_idem] at h₅ ⊢
  rw [wp_pure]
  have hQ := hDone k _ h₅ (hNew.forked h hi hLive h₁ h₂ hKeeps₂ hCopies hMem)
  dsimp only at hQ
  rw [update_self] at hQ
  exact hQ

theorem Forked.good {k : Nat} {s' : State} (hForked : Forked B i k s s') (h : Good L B s') :
    Good L B { s' with
      proc := update s'.proc k { s'.proc k with
        parent := some i
        state := .runnable } } := by
  have hDesc := h.descriptors k hForked.lt
  refine Inv.good_of_ofile (s := s') (h.touch ?_ ?_) (ofile_update rfl)
  · refine ⟨?_, rfl, rfl, rfl, rfl⟩
    rw [hForked.used]
    exact iff_of_false (by rintro ⟨⟩) (by decide)
  · refine ⟨hDesc.file, ?_⟩
    intro hDead
    rcases hDead with hNot | hNot
    · cases hNot
    · cases hNot

theorem fork_spec {Q : Int → State → Prop} (h : Good L B s) (hi : i < NPROC)
    (hRun : (s.proc i).state = .runnable)
    (hPost : ∀ n s', Good L B s' → (s'.proc i).state = .runnable → Q n s') :
    wp (fork L i) Q E s := by
  have hLive : (s.proc i).state ≠ .unused := by
    rw [hRun]
    decide
  rw [fork_eq, wp_bind]
  refine forkStart_spec h hi hLive ?_ ?_
  · intro s' h' hKept
    rw [wp_pure]
    refine hPost (-1) s' h' ?_
    rw [hKept.live i hLive]
    exact hRun
  intro k s' h' hForked
  have hNe : i ≠ k := by
    intro hEq
    rw [hEq] at hLive
    exact hLive hForked.unused
  dsimp only
  rw [wp_bind, forkEnd, wp_setProc, wp_pure]
  refine hPost _ _ (hForked.good h') ?_
  dsimp only
  rw [update_of_ne hNe, hForked.others i hNe]
  exact hRun

end

end Xv6.Kernel

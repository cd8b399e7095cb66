import Xv6.Kernel.Invariant
import Xv6.Vm.View

/-
  Slots of the process table and their memory: what
  `freeproc`, `allocproc`, `growproc` and copies to user
  memory do to the invariant.

  Main declarations:
    * `allocproc_spec`
    * `growproc_spec`
    * `copyoutUser_spec`
-/

namespace Xv6.Kernel

open Function (update update_self update_of_ne update_idem)

open Prog

open Vm

section

variable {L : Layout} {B : Multiset Nat} {r : Nat → Nat} {s : State} {i : Nat} {E : Panic → Prop}
variable {Q : Unit → State → Prop}

---- User Memory

section

variable (h : Inv L B r s) (hi : i < NPROC) (hLive : (s.proc i).state ≠ .unused)
include h hi hLive

/- Copies to user memory keep the invariant. -/
theorem copyoutUser_spec {dstva : Nat} {src : List UInt8} {Q : Int → State → Prop}
    (hPost : ∀ n kmem, Inv L B r { s with kmem := kmem } → Q n { s with kmem := kmem }) :
    wp (vm (copyout (s.proc i).pagetable dstva src)) Q E s := by
  have hShape := h.shape hi hLive
  rw [wp_vm]
  refine copyout_spec hShape.userFrames (h.table hi hLive) ?_
  intro n kmem hTable hKeeps
  refine hPost n kmem (h.memory hi hLive hTable hShape ?_)
  exact hKeeps.mono (by simp +contextual)

theorem stTrapframe_spec {tf o v : Nat} (hTf : (s.proc i).trapframe = tf) (ho : o + 8 ≤ PGSIZE)
    (hPost : ∀ kmem, Inv L B r { s with kmem := kmem } → kmem.mem = s.kmem.mem.store (tf + o) 8 v →
      Q () { s with kmem := kmem }) : wp (vm (st (tf + o) v)) Q E s := by
  have hPage := (h.table hi hLive).isPage_rest (p := (s.proc i).trapframe) (by simp)
  rw [wp_vm, st, wp_modify, ← hTf]
  refine hPost _ (h.writeTrapframe hi hLive (frame_store _ v hPage.aligned ho)) ?_
  rw [hTf]

theorem copyTrapframe_spec {tf src : Nat} (hTf : (s.proc i).trapframe = tf)
    (hPost : ∀ kmem, Inv L B r { s with kmem := kmem } → kmem.mem =
        s.kmem.mem.write tf (s.kmem.mem.read src TRAPFRAMESIZE) →
      Q () { s with kmem := kmem }) : wp (vm (memmove tf src TRAPFRAMESIZE)) Q E s := by
  have hPage := (h.table hi hLive).isPage_rest (p := (s.proc i).trapframe) (by simp)
  have hFrame : Frame {(s.proc i).trapframe} s.kmem.mem
      (s.kmem.mem.write (s.proc i).trapframe (s.kmem.mem.read src TRAPFRAMESIZE)) := by
    refine frame_write (o := 0) s.kmem.mem _ hPage.aligned ?_
    rw [Memory.length_read]
    decide
  rw [wp_vm, memmove, wp_modify, ← hTf]
  refine hPost _ (h.writeTrapframe hi hLive hFrame) ?_
  rw [hTf]

end

---- Growing

/- The size after `growproc`: `uvmalloc` never shrinks and `uvmdealloc` never grows. -/
def grownSize (sz : Nat) (n : Int) : Nat :=
  if n > 0 then
    max sz (addInt sz n)
  else if n < 0 then min sz (addInt sz n) else sz

/- What a new size leaves of the user memory of a process. -/
def Resizes (p : Proc) (m m' : Memory) (sz : Nat) : Prop :=
  Resized m (leaf m p.pagetable) (pageCount p.sz) m' (leaf m' p.pagetable) (pageCount sz)

theorem growproc_spec {n : Int} {Q : Int → State → Prop} (h : Inv L B r s) (hi : i < NPROC)
    (hLive : (s.proc i).state ≠ .unused)
    (hPost : ∀ kmem, Inv L B r { s with
      kmem := kmem
      proc := update s.proc i { s.proc i with
          sz := grownSize (s.proc i).sz n } } → Resizes (s.proc i) s.kmem.mem kmem.mem
      (grownSize (s.proc i).sz n) → Q 0 { s with
        kmem := kmem
        proc := update s.proc i { s.proc i with
            sz := grownSize (s.proc i).sz n } })
    (hFail : ∀ kmem, Inv L B r { s with kmem := kmem } → 0 < n → (addInt (s.proc i).sz n ≠ 0 →
      Resizes (s.proc i) s.kmem.mem kmem.mem (s.proc i).sz) →
      Q (-1) { s with kmem := kmem }) : wp (growproc L.kend i n) Q E s := by
  have hTable := h.table hi hLive
  have hShape := h.shape hi hLive
  have hDesc : ∀ sz, Descriptors { s.proc i with sz := sz } :=
    fun _ => ⟨(h.descriptors i hi).file, (h.descriptors i hi).closed⟩
  have hStay : grownSize (s.proc i).sz n = (s.proc i).sz → Q 0 { s with
      proc := update s.proc i { s.proc i with sz := (s.proc i).sz } } := by
    intro hSame
    have hTouch := h.touch (SameSpace.refl (s.proc i)) (hDesc (s.proc i).sz)
    have hQ := hPost s.kmem
    rw [hSame] at hQ
    exact hQ hTouch Resized.refl
  -- The slot with a new size, once the table is changed.
  have hResize : ∀ kmem g sz, grownSize (s.proc i).sz n = sz → Table L kmem (s.proc i).pagetable g
        (frames g 0 (pageCount sz) + ((s.proc i).trapframe ::ₘ (rest s i + B))) →
      Range (UserLeaf (s.proc i).guard) g (pageCount sz) →
        (∀ v, USERTOP ≤ v → g v = leaf s.kmem.mem (s.proc i).pagetable v) → Keeps
            ((s.proc i).trapframe ::ₘ (rest s i + B)) s.kmem.mem kmem.mem →
          Resized s.kmem.mem (leaf s.kmem.mem (s.proc i).pagetable)
              (pageCount (s.proc i).sz) kmem.mem g (pageCount sz) → Q 0 { s with
                kmem := kmem
                proc := update s.proc i { s.proc i with sz := sz } } := by
    intro kmem g sz hSize hT hRange hSame hKeeps hResized
    have hQ := hPost kmem
    rw [hSize] at hQ
    refine hQ ?_ ?_
    · refine h.updateTable hi hT (hShape.resize hRange hSame) ?_ hLive (hDesc sz)
      exact hKeeps.mono (by simp +contextual)
    · unfold Resizes
      rw [hT.map]
      exact hResized
  unfold growproc
  rw [wp_bind, wp_getProc, wp_ite, wp_ite]
  refine ⟨fun hPos => ?_, fun hNot =>
    ⟨fun hNeg => ?_, fun hZero => ?_⟩⟩
  · have hSize : grownSize (s.proc i).sz n = max (s.proc i).sz (addInt (s.proc i).sz n) :=
      if_pos hPos
    rw [wp_bind, wp_vm]
    refine uvmalloc_spec (leafFlags_userLeaf (s.proc i).guard)
      (newEntries_userLeaf _ (by decide)) (by decide) hTable hShape.user ?_ ?_ ?_
    · intro hLess
      have hNe : (s.proc i).sz ≠ 0 := by omega
      rw [if_neg hNe, wp_bind, wp_setProc, wp_pure]
      exact hStay (by omega)
    · intro kmem _ hT hKeeps
      rw [if_pos rfl, wp_pure]
      refine hFail kmem (h.memory hi hLive hT hShape ?_) hPos ?_
      · exact hKeeps.mono (by simp +contextual)
      intro _
      unfold Resizes
      rw [hT.map]
      refine hTable.resized ?_ (fun _ _ _ => rfl) ?_
      · rw [Nat.min_self]
        exact hKeeps
      · intro v hLow hHigh
        omega
    · intro kmem g hLe hT hRange hSame hKeeps hZeros
      by_cases hZero : addInt (s.proc i).sz n = 0
      · have hOld : addInt (s.proc i).sz n = (s.proc i).sz := by omega
        rw [if_pos hZero, wp_pure]
        rw [hOld] at hT hRange
        refine hFail kmem (h.memory hi hLive hT ?_ ?_) hPos (fun hNe => absurd hZero hNe)
        · exact hShape.resize hRange (fun v hv => hSame v (.inr hv))
        · exact hKeeps.mono (by simp +contextual)
      · rw [if_neg hZero, wp_bind, wp_setProc, wp_pure]
        have hMin : min (pageCount (s.proc i).sz) (pageCount (addInt (s.proc i).sz n)) =
            pageCount (s.proc i).sz :=
          Nat.min_eq_left (pageCount_mono hLe)
        refine hResize kmem g _ (by omega) hT hRange (fun v hv => hSame v (.inr hv))
          (hKeeps.mono (by simp +contextual)) ?_
        refine hTable.resized ?_ (fun v hv _ => hSame v (.inl hv)) hZeros
        rw [hMin]
        exact hKeeps
  · have hSize : grownSize (s.proc i).sz n = min (s.proc i).sz (addInt (s.proc i).sz n) := by
      unfold grownSize
      rw [if_neg hNot, if_pos hNeg]
    rw [wp_bind, wp_vm]
    refine uvmdealloc_spec hTable hShape.user (leafFlags_userLeaf _) ?_ ?_
    · intro hLe
      rw [wp_bind, wp_setProc, wp_pure]
      exact hStay (by omega)
    intro kmem g hLess hT hRange hg hKeeps
    have hMono := pageCount_mono (Nat.le_of_lt hLess)
    have hBelow : ∀ v, v < pageCount (addInt (s.proc i).sz n) ∨ USERTOP ≤ v →
        g v = leaf s.kmem.mem (s.proc i).pagetable v := by
      intro v hv
      have hTop := (range_top (hShape.user.le hTable.books)).2
      rw [hg]
      unfold unmapRange
      rw [if_neg (by omega)]
    rw [wp_bind, wp_setProc, wp_pure]
    refine hResize kmem g _ (by omega) hT hRange (fun v hv => hBelow v (.inr hv))
      (hKeeps.mono (by simp +contextual)) ?_
    refine hTable.resized ?_ (fun v _ hv => hBelow v (.inl hv)) ?_
    · rw [Nat.min_eq_right hMono]
      exact hKeeps
    · intro v hLow hHigh
      omega
  · rw [wp_bind, wp_setProc, wp_pure]
    refine hStay ?_
    unfold grownSize
    rw [if_neg hNot, if_neg hZero]

---- Freeing A Slot

/- The slot `freeproc` leaves. -/
def freed (p : Proc) : Proc :=
  { p with
    trapframe := 0
    pagetable := 0
    sz := 0
    pid := 0
    parent := none
    chan := none
    killed := false
    xstate := 0
    state := .unused }

section

variable (h : Inv L B r s) (hi : i < NPROC)
include h hi

theorem Inv.blank {kmem : Kmem} {p : Proc} (hBooks : Books L kmem (rest s i + B))
    (hKeeps : Keeps (rest s i) s.kmem.mem kmem.mem) (hFiles : ∀ fd < NOFILE, p.ofile fd = none) :
    Inv L B r { s with
      kmem := kmem
      proc := update s.proc i (freed p) } := by
  refine h.updateSlot hi ?_ hKeeps ?_ ?_
  · rw [procPages_unused rfl, zero_add]
    exact hBooks
  · exact ⟨fun _ => ⟨rfl, rfl, rfl⟩, fun hNot => absurd rfl hNot⟩
  · refine ⟨?_, fun _ => hFiles⟩
    intro fd hfd f hf
    have hNone : p.ofile fd = some f := hf
    rw [hFiles fd hfd] at hNone
    cases hNone

/- `freeproc` of a process gives all its pages back. -/
theorem freeproc_spec (hLive : (s.proc i).state ≠ .unused)
    (hFiles : ∀ fd < NOFILE, (s.proc i).ofile fd = none) (hPost : ∀ kmem, Inv L B r { s with
        kmem := kmem
        proc := update s.proc i (freed (s.proc i)) } →
      Keeps (rest s i + B) s.kmem.mem kmem.mem → Q () { s with
          kmem := kmem
          proc := update s.proc i (freed (s.proc i)) }) :
    wp (freeproc L.kend i) Q E s := by
  have hTable := h.table hi hLive
  have hShape := h.shape hi hLive
  have hTf : (s.proc i).trapframe ≠ 0 := (hTable.isPage_rest (by simp)).ne_zero
  have hPt : (s.proc i).pagetable ≠ 0 :=
    (hTable.books.isRam (Multiset.mem_add.mpr (.inl Radix.root_mem_pages))).isPage.ne_zero
  unfold freeproc
  rw [wp_bind, wp_getProc, if_pos hTf, wp_bind, wp_vm]
  refine Table.free (hTable.rest_eq (Multiset.add_cons _ _ _)) ?_
  intro kmem₁ h₁ hKeeps₁
  rw [wp_bind, wp_setProc, if_pos hPt, wp_bind, wp_vm]
  refine procFreepagetable_spec h₁ hShape ?_
  intro kmem₂ h₂ hKeeps₂
  rw [wp_setProc]
  have hKeeps : Keeps (rest s i + B) s.kmem.mem kmem₂.mem :=
    (hKeeps₁.mono (by simp +contextual)).trans (hKeeps₂.mono (by simp +contextual))
  have hDone := hPost kmem₂ (h.blank hi h₂ (hKeeps.mono (by simp +contextual)) hFiles) hKeeps
  simp only [update_idem, update_self]
  exact hDone

/- A slot that `allocproc` could not fill. -/
theorem freeproc_unbuilt {p : Proc} {t : State} (hProc : t.proc = update s.proc i p)
    (hPt : p.pagetable = 0) (hFiles : ∀ fd < NOFILE, p.ofile fd = none) (hBooks :
      Books L t.kmem
        (if p.trapframe = 0 then
          rest s i + B
        else
          p.trapframe ::ₘ (rest s i + B))) (hKeeps : Keeps (rest s i + B) s.kmem.mem t.kmem.mem)
    (hPost :
      ∀ kmem, Inv L B r
            { s with
              kmem := kmem
              proc := update s.proc i (freed p) } →
          Keeps (rest s i + B) s.kmem.mem kmem.mem → Q ()
              { t with
                kmem := kmem
                proc := update s.proc i (freed p) }) : wp (freeproc L.kend i) Q E t := by
  have hSelf : t.proc i = p := by rw [hProc, update_self]
  unfold freeproc
  rw [wp_bind, wp_getProc, hSelf]
  by_cases hTf : p.trapframe = 0
  · rw [if_pos hTf] at hBooks
    rw [if_neg (not_not.mpr hTf), wp_bind, wp_setProc, if_neg (not_not.mpr hPt), wp_setProc]
    have hDone := hPost t.kmem (h.blank hi hBooks (hKeeps.mono (by simp +contextual)) hFiles) hKeeps
    simp only [hProc, update_idem, update_self]
    exact hDone
  · rw [if_neg hTf] at hBooks
    rw [if_pos hTf, wp_bind, wp_vm]
    refine kfree_books hBooks ?_
    intro kmem h₁ hKeeps₁
    rw [wp_bind, wp_setProc, if_neg (not_not.mpr hPt), wp_setProc]
    have hAll := hKeeps.trans hKeeps₁
    have hDone := hPost kmem (h.blank hi h₁ (hAll.mono (by simp +contextual)) hFiles) hAll
    simp only [hProc, update_idem, update_self]
    exact hDone

end

---- Allocating A Slot

/- The processes of `s` are still there, with their files and their pages, and no others. -/
structure Kept (B : Multiset Nat) (s s' : State) : Prop where
  live : ∀ j, (s.proc j).state ≠ .unused → s'.proc j = s.proc j
  ofile : ∀ j, (s'.proc j).ofile = (s.proc j).ofile
  unused : ∀ j, (s.proc j).state = .unused → (s'.proc j).state = .unused
  file : s'.file = s.file
  pages : Keeps (inUse B s) s.kmem.mem s'.kmem.mem

theorem Kept.of_update {s' : State} {p : Proc} (hUnused : (s.proc i).state = .unused)
    (hProc : s'.proc = update s.proc i (freed p)) (hFiles : p.ofile = (s.proc i).ofile)
    (hFile : s'.file = s.file) (hPages : Keeps (inUse B s) s.kmem.mem s'.kmem.mem) :
    Kept B s s' := by
  refine ⟨?_, ?_, ?_, hFile, hPages⟩
  · intro j hj
    have hNe : j ≠ i := by
      intro hEq
      rw [hEq] at hj
      exact hj hUnused
    rw [hProc, update_of_ne hNe]
  · intro j
    by_cases hEq : j = i
    · rw [hEq, hProc, update_self]
      exact hFiles
    · rw [hProc, update_of_ne hEq]
  · intro j hj
    by_cases hEq : j = i
    · rw [hEq, hProc, update_self]
      rfl
    · rw [hProc, update_of_ne hEq]
      exact hj

/- `allocproc` fills an unused slot or leaves it blank. -/
theorem allocproc_spec {Q : Option Nat → State → Prop} (h : Inv L B r s)
    (hNone : ∀ s', Inv L B r s' → Kept B s s' → Q none s')
    (hSome :
      ∀ k p s', k < NPROC → (s.proc k).state = .unused → s'.proc = update s.proc k p →
        p.state = .used → p.sz = 0 → p.ofile = (s.proc k).ofile → s'.file = s.file →
          Keeps (inUse B s) s.kmem.mem s'.kmem.mem → Inv L B r s' → Q (some k) s') :
    wp (allocproc L) Q E s := by
  unfold allocproc
  rw [wp_bind, wp_get]
  cases hFind : (List.range NPROC).find? (fun i => decide ((s.proc i).state = .unused)) with
  | none =>
    rw [wp_pure]
    exact hNone s h ⟨fun _ _ => rfl, fun _ => rfl, fun _ hj => hj, rfl, Keeps.refl _ _⟩
  | some k =>
    have hk : k < NPROC := List.mem_range.mp (List.mem_of_find?_eq_some hFind)
    have hUnused : (s.proc k).state = .unused := by
      have hFound := List.find?_some hFind
      exact of_decide_eq_true hFound
    have hBlank := (h.slots k hk).blank hUnused
    have hFiles := (h.descriptors k hk).closed (.inl hUnused)
    have hBooks : Books L s.kmem (rest s k + B) := by
      have hSplit := h.split hk
      rw [procPages_unused hUnused, zero_add] at hSplit
      exact hSplit
    have hInUse : inUse B s = rest s k + B := inUse_unused B hk hUnused
    simp only [allocpid, wp_bind, wp_get, Prog.wp_set, wp_pure, wp_setProc, wp_vm,
      update_idem, update_self]
    refine kalloc_books hBooks ?_ ?_
    · -- No trapframe.
      rw [if_pos rfl, wp_bind]
      refine freeproc_unbuilt h hk rfl hBlank.pagetable hFiles ?_ (Keeps.refl _ _) ?_
      · rw [if_pos rfl]
        exact hBooks
      · intro kmem h' hKeeps
        rw [wp_pure]
        refine hNone _ (h'.cast rfl rfl rfl) (Kept.of_update hUnused rfl rfl rfl ?_)
        rw [hInUse]
        exact hKeeps
    intro tf kmem₁ h₁ hKeeps₁
    have hPage := (h₁.isRam (p := tf) (by simp)).isPage
    rw [if_neg hPage.ne_zero]
    simp only [wp_bind, wp_vm]
    refine procPagetable_spec h₁ hPage.lt ?_ ?_
    · -- No page table: the trapframe goes back.
      intro kmem₂ h₂ hKeeps₂
      simp only [wp_setProc, wp_bind, if_pos, update_idem, update_self]
      refine freeproc_unbuilt h hk rfl rfl hFiles ?_ ?_ ?_
      · rw [if_neg hPage.ne_zero]
        exact h₂
      · exact hKeeps₁.trans (hKeeps₂.mono (by simp +contextual))
      · intro kmem h' hKeeps
        rw [wp_pure]
        refine hNone _ (h'.cast rfl rfl rfl) (Kept.of_update hUnused rfl rfl rfl ?_)
        rw [hInUse]
        exact hKeeps
    · intro pt kmem₂ f hPt h₂ hShape hKeeps₂
      simp only [wp_setProc, if_neg hPt, update_idem, update_self, wp_pure]
      have hKeeps : Keeps (rest s k + B) s.kmem.mem kmem₂.mem :=
        hKeeps₁.trans (hKeeps₂.mono (by simp +contextual))
      refine hSome k _ _ hk hUnused rfl rfl hBlank.sz rfl rfl ?_ ?_
      · rw [hInUse]
        exact hKeeps
      have hTable :
          Table L kmem₂ pt f (frames f 0 (pageCount (s.proc k).sz) + (tf ::ₘ (rest s k + B))) := by
        rw [hBlank.sz]
        exact h₂.rest_eq (zero_add _).symm
      refine Inv.cast (h.updateTable hk hTable ?_ ?_ ?_ ?_) rfl rfl rfl
      · rw [hBlank.sz]
        exact hShape none
      · exact hKeeps.mono (by simp +contextual)
      · rintro ⟨⟩
      · exact ⟨(h.descriptors k hk).file, fun _ => hFiles⟩

end

end Xv6.Kernel

import Xv6.Kernel.Calls

/-
  The first process, and the invariant of whole runs: every
  state that completed calls lead to accounts for its pages
  and its files.

  Main declarations:
    * `userinit_spec`
    * `Reachable.good`
-/

namespace Xv6.Kernel

open Function (update update_self update_idem)

open Prog

open Vm

---- The First Process

/- The entry of the page of `initcode`. -/
def initcodeEntry (pa : Nat) : Nat := PA2PTE pa ||| (PTE_W ||| PTE_R ||| PTE_X ||| PTE_U) ||| PTE_V

theorem initcodeEntry_userLeaf (guard : Option Nat) (pa : Nat) :
    UserLeaf guard 0 (initcodeEntry pa) := by
  unfold initcodeEntry
  refine ⟨?_, fun _ => ?_⟩
  all_goals
    rw [pte_and pa (by decide) (by decide)]
    decide

section

variable {L : Layout} {B : Multiset Nat} {s : State} {E : Panic → Prop}

theorem uvmfirst_spec {k : Kmem} {pt : Nat} {f : Nat → Option Nat} {R : Multiset Nat}
    {Q : Unit → Kmem → Prop} (h : Table L k pt f R) (hFree : f 0 = none) (hTrap : E .kerneltrap)
    (hFail : ∀ k' p, Table L k' pt f (p ::ₘ R) → Q () k')
    (hDone : ∀ k' p,
      Table L k' pt (setLeaf f 0 (initcodeEntry p)) (p ::ₘ R) → Keeps R k.mem k'.mem → Q () k') :
    wp (uvmfirst pt initcode) Q E k := by
  unfold uvmfirst
  rw [if_neg (by decide), wp_bind]
  refine h.alloc ?_ ?_
  · rw [if_pos rfl, wp_bind, wp_throw]
    exact hTrap
  intro p k₁ h₁ hKeeps₁
  have hPage := h₁.isPage_rest (p := p) (by simp)
  have hCode : ∀ m, Frame {p} m (m.write p initcode) :=
    fun m => frame_write (o := 0) m initcode hPage.aligned (by decide)
  have hZero := frame_fill k₁.mem 0 hPage.aligned
  rw [if_neg hPage.ne_zero, wp_bind, memset, wp_modify, wp_bind]
  have h₂ := h₁.write (by simp) hZero
  have hKeeps₂ := hZero.keeps_rest h₁.rest_nodup
  refine mappages_one (v := 0) h₂ hFree (by decide) hPage.lt (by decide) ?_ ?_
  · intro k₃ h₃ _
    rw [wp_modify]
    exact hFail _ p (h₃.write (by simp) (hCode _))
  · intro k₃ h₃ hKeeps₃
    rw [wp_modify]
    refine hDone _ p (h₃.write (by simp) (hCode _)) ?_
    have hKeeps₄ := (hCode k₃.mem).keeps_rest h₃.rest_nodup
    refine ((hKeeps₁.trans hKeeps₂).trans (hKeeps₃.mono ?_)).trans hKeeps₄
    simp +contextual

theorem Fresh.good (h : Fresh L B s) : Good L B s := by
  have hProcs : procsPages s.kmem.mem s.proc = 0 := by
    unfold procsPages slotPages
    refine Finset.sum_eq_zero ?_
    intro j _
    rw [h.procs j]
    exact procPages_unused rfl
  have hEnd : ∀ pi w, pipeEnd s.file pi w = ∅ := by
    intro pi w
    refine Finset.filter_eq_empty_iff.mpr ?_
    intro f _ hPipe
    rw [(h.files f).2] at hPipe
    exact absurd hPipe.1 (by decide)
  have hPages : pipePages s.file = ∅ := by
    refine Finset.image_eq_empty.mpr ?_
    refine Finset.filter_eq_empty_iff.mpr ?_
    intro f _ hPipe
    rw [(h.files f).2] at hPipe
    exact absurd hPipe (by decide)
  refine ⟨?_, ?_, ?_, ?_, ?_, ?_, ?_⟩
  · rw [hProcs, hPages]
    exact h.books.own_eq (by simp)
  · intro j _
    rw [h.procs j]
    exact ⟨fun _ => ⟨rfl, rfl, rfl⟩, fun hNot => absurd rfl hNot⟩
  · intro j _
    rw [h.procs j]
    exact ⟨by rintro fd _ f ⟨⟩, fun _ _ _ => rfl⟩
  · intro f _
    rw [(h.files f).1]
    refine (Finset.sum_eq_zero ?_).symm
    intro j _
    refine Finset.sum_eq_zero ?_
    intro fd _
    rw [h.procs j]
    rfl
  · exact fun f _ _ => (h.files f).2
  · intro pi hpi
    rw [hPages] at hpi
    cases hpi
  · intro pi w
    rw [hEnd, Finset.card_empty]
    exact Nat.zero_le 1

/- `userinit` makes the first process, or leaves it without the page of `initcode`. -/
theorem userinit_spec (h : Good L B s) :
    wp (userinit L) (fun _ s' =>
        leaf s'.kmem.mem (s'.proc s'.initproc).pagetable 0 ≠ none → Good L B s')
      (fun _ => True) s := by
  unfold userinit
  rw [wp_bind]
  refine allocproc_spec h ?_ ?_
  · intro s' _ _
    rw [wp_throw]
    trivial
  intro k p s₁ hk hUnused hProc hUsed hSz hFiles _ _ h₁
  have hSelf : s₁.proc k = p := by rw [hProc, update_self]
  have hLive : p.state ≠ .unused := by
    rw [hUsed]
    decide
  have h₂ : Inv L B (refs s.proc) { s₁ with initproc := k } := h₁.cast rfl rfl rfl
  have hTable := h₁.table hk (hSelf ▸ hLive)
  have hShape := h₁.shape hk (hSelf ▸ hLive)
  have hDesc := h₁.descriptors k hk
  rw [hSelf] at hTable hShape hDesc
  rw [hSz] at hTable hShape
  have hFree : leaf s₁.kmem.mem p.pagetable 0 = none :=
    hShape.user.gap 0 (Nat.le_refl 0) (by decide)
  replace hTable := hTable.rest_eq (zero_add _)
  have hPage := hTable.isPage_rest (p := p.trapframe) (by simp)
  dsimp only
  rw [wp_bind, wp_modify, wp_bind, wp_getProc, wp_bind, wp_vm]
  dsimp only
  rw [hSelf]
  refine uvmfirst_spec hTable hFree trivial ?_ ?_
  · -- The page was not mapped.
    intro kmem q h₃
    rw [wp_bind, wp_setProc, wp_bind, wp_vm, st, wp_modify, wp_bind, wp_vm, st,
      wp_modify, wp_setProc]
    dsimp only
    simp only [update_self, hSelf]
    have h₄ := h₃.write (by simp)
      (frame_store (o := EPC) (k := 8) kmem.mem 0 hPage.aligned (by decide))
    have h₅ := h₄.write (by simp)
      (frame_store (o := SP) (k := 8) _ PGSIZE hPage.aligned (by decide))
    intro hNot
    exact absurd ((congrFun h₅.map 0).trans hFree) hNot
  intro kmem q h₃ hKeeps
  have hq := h₃.isPage_rest (p := q) (by simp)
  have hFrames : frames
        (setLeaf (leaf s₁.kmem.mem p.pagetable) 0 (initcodeEntry q)) 0 (pageCount PGSIZE) =
      {q} := by
    exact frames_grow (n := 0) hq (by decide)
  have hMap : Shape L p.trapframe p.guard PGSIZE
      (setLeaf (leaf s₁.kmem.mem p.pagetable) 0 (initcodeEntry q)) := by
    refine hShape.resize (hShape.user.grow ?_ (initcodeEntry_userLeaf _ q)) ?_
    · unfold initcodeEntry
      rw [pte_and q (by decide) (by decide)]
      decide
    · intro v hv
      have hNe : v ≠ 0 := by
        have hPos : 0 < USERTOP := by decide
        omega
      unfold setLeaf
      rw [if_neg hNe]
  have hRest : ∀ a ∈ rest s₁ k, a ∈ p.trapframe ::ₘ (rest s₁ k + B) := by simp +contextual
  have hTable' : Table L kmem p.pagetable
      (setLeaf (leaf s₁.kmem.mem p.pagetable) 0 (initcodeEntry q)) (frames
        (setLeaf (leaf s₁.kmem.mem p.pagetable) 0 (initcodeEntry q)) 0 (pageCount PGSIZE) +
        (p.trapframe ::ₘ (rest s₁ k + B))) := by
    rw [hFrames, Multiset.singleton_add]
    exact h₃
  have h₄ :=
    h₂.updateTable (p := { p with sz := PGSIZE }) hk hTable'
      hMap (hKeeps.mono hRest) hLive
      ⟨hDesc.file, hDesc.closed⟩
  rw [wp_bind, wp_setProc]
  dsimp only
  rw [hSelf, wp_bind]
  have hLive₄ : (update s₁.proc k { p with sz := PGSIZE } k).state ≠ .unused := by
    rw [update_self]
    exact hLive
  have hTf : (update s₁.proc k { p with sz := PGSIZE } k).trapframe = p.trapframe := by
    rw [update_self]
  refine stTrapframe_spec h₄ hk hLive₄ hTf (by decide) ?_
  intro kmem₁ h₅ _
  rw [wp_bind]
  refine stTrapframe_spec h₅ hk hLive₄ hTf (by decide) ?_
  intro kmem₂ h₆ _
  rw [wp_setProc]
  intro _
  simp only [update_self, update_idem]
  have h₇ :=
    Inv.touch (i := k) (p := { p with sz := PGSIZE, state := .runnable }) h₆
      (by
        simp only [update_self]
        refine ⟨iff_of_false (by rintro ⟨⟩) hLive, rfl, rfl, rfl, rfl⟩)
      ⟨hDesc.file, by
        intro hDead
        rcases hDead with hNot | hNot
        · cases hNot
        · cases hNot⟩
  simp only [update_idem] at h₇
  refine h₇.good_of_ofile ?_
  intro j
  dsimp only
  rw [ofile_update (by rw [hSelf]), hProc, ofile_update hFiles]

---- Whole Runs

theorem Reachable.good (h : Reachable L B s) : Good L B s := by
  induction h with
  | boot hBoot =>
    rcases hBoot with ⟨s₀, hFresh, hRun, hLeaf⟩
    have hSpec := userinit_spec hFresh.good
    exact wp_of_eq_ok hSpec hRun hLeaf
  | @call s s' i c r _ hi hState _ hCall ih =>
    have hSpec := syscall_spec c ih hi hState
    have hGood := wp_of_eq_ok hSpec hCall
    exact hGood

end

---- A Small Machine

/- A kernel that leaves 32 pages of memory. -/
def smallLayout : Layout where
  kend := 0x87fe0000
  trampoline := 0x80007000
  base_le := by decide
  le_top := by decide
  aligned := by decide
  ne_zero := by decide
  below := by decide

/- Each page leads to the next one, the last to none. -/
def linkedMemory : Memory :=
  fun a =>
    let next := PGROUNDDOWN a + PGSIZE
    (Bytes.le 8 (if next = PHYSTOP then 0 else next)).getD (a % PGSIZE) 0

/- The first page was taken at boot. -/
def smallFresh : State where
  kmem := ⟨linkedMemory, 0x87fe1000⟩
  proc := fun _ => Proc.zero
  file := fun _ => ⟨.none, 0, false, false, 0⟩
  nextpid := 1
  initproc := 0

/- The state that a program leads to, if it ends. -/
def after {α : Type} (x : KernelM α) (s : State) : State :=
  match x s with
  | .ok (_, s') => s'
  | .error _ => s

/- The program ends with a result that passes `c`. -/
def ends {α : Type} (c : α → Bool) (x : KernelM α) (s : State) : Bool :=
  match x s with
  | .ok (a, _) => c a
  | .error _ => false

theorem exists_ok_after {α : Type} {c : α → Bool} {x : KernelM α} {s : State}
    (h : ends c x s = true) : ∃ a, c a = true ∧ x s = .ok (a, after x s) := by
  unfold ends at h
  unfold after
  cases hx : x s with
  | error e =>
    rw [hx] at h
    cases h
  | ok r =>
    rw [hx] at h
    exact ⟨r.1, h, rfl⟩

/- A completed call of a process that does not wait. -/
theorem Reachable.after_call
    {L : Layout} {B : Multiset Nat} {s : State} {i : Nat} {c : Call}
    (h : Reachable L B s)
    (hi : i < NPROC)
    (hReady : (s.proc i).state = .runnable ∧ (s.proc i).waiting = none)
    (hEnds : ends Option.isSome (syscall L i c) s = true) :
    Reachable L B (after (syscall L i c) s) := by
  rcases exists_ok_after hEnds with ⟨r, _, hRun⟩
  refine .call h hi hReady.1 ?_ hRun
  rw [hReady.2]
  rintro addr ⟨⟩

def smallBooted : State := after (userinit smallLayout) smallFresh

/- The first process has forked. -/
def smallForked : State := after (syscall smallLayout 0 .fork) smallBooted

theorem smallFresh_fresh : Fresh smallLayout {0x87fe0000} smallFresh := by
  refine ⟨⟨(List.range 31).map fun i =>
    0x87fe1000 + i * PGSIZE, ?_, ?_⟩, ?_, ?_⟩
  · decide +kernel
  · decide +kernel
  · exact fun _ => rfl
  · exact fun _ => ⟨rfl, rfl⟩

theorem smallBooted_booted : Booted smallLayout {0x87fe0000} smallBooted := by
  have hEnds : ends (fun _ => true) (userinit smallLayout) smallFresh = true := by decide +kernel
  rcases exists_ok_after hEnds with ⟨_, _, hRun⟩
  refine ⟨smallFresh, smallFresh_fresh, hRun, ?_⟩
  decide +kernel

theorem smallBooted_ready :
    (smallBooted.proc 0).state = .runnable ∧ (smallBooted.proc 0).waiting = none := by
  decide +kernel

theorem smallForked_ends : ends Option.isSome (syscall smallLayout 0 .fork) smallBooted = true := by
  decide +kernel

theorem smallForked_reachable : Reachable smallLayout {0x87fe0000} smallForked :=
  (Reachable.boot smallBooted_booted).after_call (by decide) smallBooted_ready smallForked_ends

end Xv6.Kernel

import Xv6.Kernel.Isolation
import Xv6.Machine.State

/-
  `fork` copies and isolates memory.

  The child gets a copy of every user page with the same
  flags, in frames of its own, and the registers of the
  parent but for `a0`. Without memory for it nothing of the
  parent, of the files and inodes or of the free pages has
  changed.

  Main declarations:
    * `Child`
    * `Unforked`
    * `fork_copies_or_fails`
-/

namespace Xv6.Machine

open Vm Kernel

/- The child in slot `k` of a fork of process `i`. -/
structure Child (L : Layout) (i k : Nat) (s s' : Kernel.State) : Prop where
  new : (s.proc k).state = .unused
  live : Live s' k
  parent : s'.proc i = s.proc i
  kept : ∀ va < TRAMPOLINE, s'.byteOf i va = s.byteOf i va
  sz : (s'.proc k).sz = (s.proc i).sz
  copies :
    ∀ va < (s.proc i).sz, CopyAt s'.kmem.mem (s'.leafOf i) s'.kmem.mem (s'.leafOf k) (va / PGSIZE)
  apart : ∀ v w, v < USERTOP → s'.leafOf k v = some w → Ram L.kend (PTE2PA w) ∧
    ∀ j u w', Live s' j → j ≠ k → s'.leafOf j u = some w' → PTE2PA w' ≠ PTE2PA w
  registers : ∀ o < TRAPFRAMESIZE,
    s'.kmem.mem ((s'.proc k).trapframe + o) = childRegister s.kmem.mem (s.proc i).trapframe o
  isolated : ∀ t, Later L s' t → ∀ j j' va x t', Live t j → Live t j' →
    j ≠ j' → userStore j va x t = some t' → ∀ va', t'.byteOf j' va' = t.byteOf j' va'

/- What a failed fork leaves as it was. -/
structure Unforked (B : Multiset Nat) (i : Nat) (s s' : State) : Prop where
  proc : s'.kernel.proc i = s.kernel.proc i
  leaves : ∀ v, s'.kernel.leafOf i v = s.kernel.leafOf i v
  bytes : ∀ va < TRAMPOLINE, s'.kernel.byteOf i va = s.kernel.byteOf i va
  file : s'.kernel.file = s.kernel.file
  fs : s'.fs = s.fs
  cwd : s'.cwd = s.cwd
  free : ∀ p, Owns B s'.kernel p .freelist ↔ Owns B s.kernel p .freelist

section

variable {L : Layout} {B : Multiset Nat} {i k : Nat} {t t' : Kernel.State}

/- A state in which the child may run. -/
def released (i k : Nat) (t : Kernel.State) : Kernel.State :=
  { t with
    proc := Function.update t.proc k
      { t.proc k with
        parent := some i
        state := .runnable } }

theorem child_of_forked (h : Good L B t) (hLive : Live t i) (hForked : Forked B i k t t')
    (h' : Good L B (released i k t')) : Child L i k t (released i k t') := by
  have hNe : i ≠ k := by
    intro hEq
    have hState := hLive.2
    rw [hEq] at hState
    exact hState hForked.unused
  have hSelf : (released i k t').proc k = { t'.proc k with
      parent := some i
      state := .runnable } :=
    Function.update_self _ _ _
  have hOther : ∀ j, j ≠ k → (released i k t').proc j = t.proc j := by
    intro j hj
    rw [← hForked.others j hj]
    exact Function.update_of_ne hj _ _
  have hChild : Live (released i k t') k := by
    refine ⟨hForked.lt, ?_⟩
    rw [hSelf]
    rintro ⟨⟩
  have hParent := hOther i hNe
  have hLeaf : ∀ v, (released i k t').leafOf i v = t.leafOf i v :=
    h.leafOf_keeps (t := released i k t') hLive hParent hForked.pages
  refine ⟨hForked.unused, hChild, hParent, ?_, ?_, ?_, ?_, ?_, ?_⟩
  · intro va hva
    exact h.byteOf_keeps (t := released i k t') hLive hParent hForked.pages hva
  · rw [hSelf]
    exact hForked.sz
  · intro va hva
    have hPage := div_lt_pageCount hva
    rcases hForked.copies _ hPage with ⟨w, w', hw, hw', hFlags, hBytes⟩
    refine ⟨w, w', (hLeaf _).trans hw, ?_, hFlags, ?_⟩
    · unfold State.leafOf
      rw [hSelf]
      exact hw'
    · intro o ho
      have hTop := (range_top (h.small hLive.1 hLive.2)).2
      have hIn := h.frame_inUse hLive (v := va / PGSIZE) (by omega) hw B
      have hKeeps := hForked.pages (PTE2PA w + o)
      rw [pgrounddown_add (pte2pa_aligned w) ho] at hKeeps
      exact (hBytes o ho).trans (hKeeps hIn).symm
  · intro v w hv hw
    have hOwns := owns_user (B := B) hChild hw hv
    refine ⟨h'.owns_ram hOwns, ?_⟩
    intro j u w' hj hjk hw'
    exact h'.apart hChild hj hjk.symm hw hv hw'
  · intro o ho
    rw [hSelf]
    exact hForked.registers o ho
  · intro u hLater j j' va x u' hj hj' hjj' hStore va'
    exact userStore_other (hLater.good h') hj hj' hjj' hStore va'

theorem unforked_of_kept {s : State} (h : Good L B s.kernel) (hLive : Live s.kernel i)
    (h' : Good L B t') (hKept : Kept B s.kernel t') : Unforked B i s { s with kernel := t' } := by
  have hProc := hKept.live i hLive.2
  refine ⟨hProc, ?_, ?_, hKept.file, rfl, rfl, ?_⟩
  · exact h.leafOf_keeps hLive hProc hKept.pages
  · intro va hva
    exact h.byteOf_keeps hLive hProc hKept.pages hva
  · exact h.free_iff h' (hKept.inUse_eq h)

/-
  `fork` returns the pid of a child with a copy of the
  memory of its parent, which no store of one process can
  change for another, or it returns `-1` and leaves all as
  it was.
-/
theorem fork_copies_or_fails
    {s : State}
    (h : Good L B s.kernel)
    (hLive : Live s.kernel i) :
    ∃ r s',
      fork L i s = .ok (r, s') ∧
      ((∃ k, r = (s'.kernel.proc k).pid ∧ Child L i k s.kernel s'.kernel) ∨
        (r = -1 ∧ Unforked B i s s')) := by
  refine Prog.exists_ok_of_wp ?_
  unfold fork
  rw [Prog.wp_bind, wp_kernel]
  refine forkStart_spec h hLive.1 hLive.2 ?_ ?_
  · intro t h' hKept
    rw [Prog.wp_pure]
    exact .inr ⟨rfl, unforked_of_kept h hLive h' hKept⟩
  · intro k t h' hForked
    simp only [Fs.idup, Fs.setInode, forkEnd, Prog.wp_bind,
      Prog.wp_get, Prog.wp_modify, Prog.wp_pure, wp_fs, wp_kernel, wp_setProc]
    refine .inl ⟨k, ?_, ?_⟩
    · rw [Function.update_self]
    · exact child_of_forked h hLive hForked (hForked.good h')

end

/- The first process, before any file was used. -/
def smallMachine : State where
  kernel := smallBooted
  fs :=
    { disk := fun _ => Bytes.zero
      inode := fun _ => ⟨0, 0, false, false, Fs.Dinode.zero⟩
      outstanding := 0 }
  cwd := fun _ => 0
  name := fun _ => []

theorem smallMachine_ready :
    Good smallLayout {0x87fe0000} smallMachine.kernel ∧ Live smallMachine.kernel 0 := by
  have hKernel : smallMachine.kernel = smallBooted := by rw [smallMachine]
  rw [hKernel]
  exact ⟨(Reachable.boot smallBooted_booted).good, smallBooted_live⟩

theorem fork_copies_or_fails_smallMachine :
    ∃ k s',
      fork smallLayout 0 smallMachine = .ok (2, s') ∧
      (s'.kernel.proc k).pid = 2 ∧
      Child smallLayout 0 k smallMachine.kernel s'.kernel := by
  have hTwo : (fork smallLayout 0 smallMachine).toOption.map Prod.fst = some 2 := by
    decide +kernel
  rcases fork_copies_or_fails smallMachine_ready.1 smallMachine_ready.2 with ⟨r, s', hRun, hOut⟩
  rw [hRun] at hTwo
  cases hTwo
  rcases hOut with ⟨k, hPid, hChild⟩ | ⟨hFailed, _⟩
  · exact ⟨k, s', hRun, hPid.symm, hChild⟩
  · cases hFailed

end Xv6.Machine

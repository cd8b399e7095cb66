import Xv6.Kernel.AddressSpace

/-
  Processes do not share memory.

  A user page of one process is not a page of another, so a
  store by one changes nothing that the other can read. This
  holds in every state that calls and stores lead to.

  Main declarations:
    * `Later`
    * `Inv.apart`
    * `userStore_other`
-/

namespace Xv6.Kernel

open Vm

---- Stores Of User Programs

/- Process `i` stores a byte, if its page table lets it. -/
def userStore (i va : Nat) (x : UInt8) (s : State) : Option State :=
  match s.leafOf i (va / PGSIZE) with
  | none => none
  | some w =>
    if w &&& PTE_U ≠ 0 ∧ w &&& PTE_W ≠ 0 then
      some
        { s with
          kmem :=
            { s.kmem with
              mem := s.kmem.mem.write (PTE2PA w + va % PGSIZE) [x] } }
    else
      none

/- The states that calls and stores lead to. -/
inductive Later (L : Layout) (s : State) : State → Prop where
  | refl : Later L s s
  | call {t t' : State}
      {i : Nat} {c : Call} {r : Option Int} (h : Later L s t) (hi : i < NPROC)
      (hState : (t.proc i).state = .runnable) (hCall : syscall L i c t = .ok (r, t')) :
      Later L s t'
  | store {t t' : State}
      {i va : Nat} {x : UInt8} (h : Later L s t) (hLive : Live t i)
      (hStore : userStore i va x t = some t') :
      Later L s t'

section

variable {L : Layout} {B : Multiset Nat} {r : Nat → Nat} {s s' : State} {i j va : Nat} {x : UInt8}

theorem userStore_cases (h : userStore i va x s = some s') :
    ∃ w, s.leafOf i (va / PGSIZE) = some w ∧ w &&& PTE_U ≠ 0 ∧ s' = { s with
      kmem :=
        { s.kmem with
          mem := s.kmem.mem.write (PTE2PA w + va % PGSIZE) [x] } } := by
  unfold userStore at h
  cases hw : s.leafOf i (va / PGSIZE) with
  | none =>
    rw [hw] at h
    cases h
  | some w =>
    rw [hw] at h
    dsimp only at h
    by_cases hFlags : w &&& PTE_U ≠ 0 ∧ w &&& PTE_W ≠ 0
    · rw [if_pos hFlags] at h
      exact ⟨w, rfl, hFlags.1, (Option.some.inj h).symm⟩
    · rw [if_neg hFlags] at h
      cases h

theorem userStore_inv (h : Inv L B r s) (hLive : Live s i) (hStore : userStore i va x s = some s') :
    Inv L B r s' := by
  rcases userStore_cases hStore with ⟨w, hw, hUser, rfl⟩
  have hShape := h.shape hLive.1 hLive.2
  have hFrame := hShape.userFrames _ w hw hUser
  have hWrite :=
    (h.table hLive.1 hLive.2).writeFrame hFrame
      (show va % PGSIZE + [x].length ≤ PGSIZE from Nat.mod_lt va (by decide))
  refine h.memory hLive.1 hLive.2 hWrite.1 hShape ?_
  exact hWrite.2.mono (by simp +contextual)

theorem Later.good (h : Later L s s') (hGood : Good L B s) : Good L B s' := by
  induction h with
  | refl => exact hGood
  | @call t t' i c r _ hi hState hCall ih =>
    have hSpec := syscall_spec c ih hi hState
    have hNext := Prog.wp_of_eq_ok hSpec hCall
    exact hNext
  | store _ hLive hStore ih =>
    have hInv := userStore_inv ih hLive hStore
    rcases userStore_cases hStore with ⟨_, _, _, rfl⟩
    exact hInv

---- Kept Pages

section

variable (h : Inv L B r s)
include h

theorem Inv.leafOf_keeps {t : State} {C : Multiset Nat} (hLive : Live s i)
    (hProc : t.proc i = s.proc i) (hKeeps : Keeps (inUse C s) s.kmem.mem t.kmem.mem) (v : Nat) :
    t.leafOf i v = s.leafOf i v := by
  unfold State.leafOf
  rw [hProc]
  refine congrFun (SameEntries.leaf (hKeeps.sameEntries ?_ ?_)) v
  · intro p hp
    have hOwns : Owns B s p (.pagetable i) := ⟨hLive, hp⟩
    exact (h.owns_ram hOwns).aligned
  · intro p hp
    rw [inUse_split C s hLive.1, procPages_live hLive.2]
    simp [hp]

theorem Inv.frame_inUse {v w : Nat} (hLive : Live s i) (hv : v ≤ USERTOP)
    (hw : s.leafOf i v = some w) (C : Multiset Nat) : PTE2PA w ∈ inUse C s := by
  have hShape := h.shape hLive.1 hLive.2
  rw [inUse_split C s hLive.1, procPages_live hLive.2]
  by_cases hTf : v = USERTOP
  · subst hTf
    have hEntry := hw.symm.trans hShape.trapframe
    have hPage := (h.table hLive.1 hLive.2).isPage_rest (p := (s.proc i).trapframe) (by simp)
    have hPa : PTE2PA w = (s.proc i).trapframe := by
      rw [Option.some.inj hEntry]
      exact pte2pa_pte hPage.lt hPage.aligned (by decide)
    simp [hPa]
  · have hUser :=
      (h.user_iff hLive (p := PTE2PA w) (v := v)).mpr ⟨by omega, w, hw, rfl⟩
    have hIn := mem_frames hUser.1 hw
    unfold State.leafOf at hIn
    simp [hIn]

theorem Inv.byteOf_keeps {t : State} {C : Multiset Nat} {va : Nat} (hLive : Live s i)
    (hProc : t.proc i = s.proc i) (hKeeps : Keeps (inUse C s) s.kmem.mem t.kmem.mem)
    (hva : va < TRAMPOLINE) : t.byteOf i va = s.byteOf i va := by
  unfold State.byteOf view
  rw [h.leafOf_keeps hLive hProc hKeeps]
  cases hw : s.leafOf i (va / PGSIZE) with
  | none => rfl
  | some w =>
    have hPage : va / PGSIZE ≤ USERTOP := by
      rw [trampoline_eq] at hva
      unfold PGSIZE at *
      omega
    rw [Option.map_some, Option.map_some, hKeeps]
    rw [pgrounddown_add (pte2pa_aligned w) (Nat.mod_lt _ (by decide))]
    exact h.frame_inUse hLive hPage hw C

theorem Inv.free_iff {r' : Nat → Nat} (h' : Inv L B r' s') (hSame : inUse B s' = inUse B s)
    (p : Nat) : Owns B s' p .freelist ↔ Owns B s p .freelist := by
  rcases h.books with ⟨l, hChain, hSum⟩
  rcases h'.books with ⟨l', hChain', hSum'⟩
  have hLists : (l' : Multiset Nat) = l := by
    have hBoth := hSum'.trans hSum.symm
    unfold inUse at hSame
    rw [hSame] at hBoth
    exact add_right_cancel hBoth
  have hZero : ∀ l : List Nat, (l : Multiset Nat) ≤ ram L → 0 ∉ l := by
    intro l hLe hIn
    have hRam : 0 ∈ ram L := Multiset.mem_of_le hLe hIn
    exact (mem_ram.mp hRam).isPage.ne_zero rfl
  have hl := hZero l (hSum ▸ Multiset.le_add_right _ _)
  have hl' := hZero l' (hSum' ▸ Multiset.le_add_right _ _)
  have hOwns : Owns B s p .freelist ↔ p ∈ l := by
    constructor
    · rintro ⟨m, hFree, hp⟩
      rw [Chain.unique hl hFree.2 hChain hFree.1]
      exact hp
    · exact fun hp => ⟨l, ⟨hChain, hl⟩, hp⟩
  have hOwns' : Owns B s' p .freelist ↔ p ∈ l' := by
    constructor
    · rintro ⟨m, hFree, hp⟩
      rw [Chain.unique hl' hFree.2 hChain' hFree.1]
      exact hp
    · exact fun hp => ⟨l', ⟨hChain', hl'⟩, hp⟩
  rw [hOwns, hOwns', ← Multiset.mem_coe, hLists, Multiset.mem_coe]

theorem Kept.inUse_eq (hKept : Kept B s s') : inUse B s' = inUse B s := by
  have hProcs : procsPages s'.kmem.mem s'.proc = procsPages s.kmem.mem s.proc := by
    refine Eq.trans (slotPages_congr ?_) (h.procsPages_keeps hKept.pages)
    intro j _
    by_cases hState : (s.proc j).state = .unused
    · rw [procPages_unused hState, procPages_unused (hKept.unused j hState)]
    · rw [hKept.live j hState]
  unfold inUse
  rw [hProcs, hKept.file]

end

---- Pages Of Different Processes

theorem owns_user {v w : Nat} (hLive : Live s i) (hw : s.leafOf i v = some w) (hUser : v < USERTOP) :
    Owns B s (PTE2PA w) (.user i v) := ⟨hLive, hUser, w, hw, rfl⟩

variable (h : Inv L B r s) (hi : Live s i) (hj : Live s j)
include h hi hj

/- The frame of a user page is no page of another process. -/
theorem Inv.apart {u v w w' : Nat} (hNe : i ≠ j) (hw : s.leafOf i v = some w) (hUser : v < USERTOP)
    (hw' : s.leafOf j u = some w') : PTE2PA w' ≠ PTE2PA w := by
  intro hEq
  have hOwns := owns_user (B := B) hi hw hUser
  have hShape := h.shape hj.1 hj.2
  by_cases hu : u < USERTOP
  · have hOwns' := owns_user (B := B) hj hw' hu
    rw [hEq] at hOwns'
    have hSame := h.owns_unique hOwns hOwns'
    cases hSame
    exact hNe rfl
  by_cases hTf : u = USERTOP
  · subst hTf
    have hEntry := hw'.symm.trans hShape.trapframe
    have hTfPage := (h.table hj.1 hj.2).isPage_rest (p := (s.proc j).trapframe) (by simp)
    have hPa : PTE2PA w' = (s.proc j).trapframe := by
      rw [Option.some.inj hEntry]
      exact pte2pa_pte hTfPage.lt hTfPage.aligned (by decide)
    have hOwns' : Owns B s (PTE2PA w) (.trapframe j) := ⟨hj, hPa.symm.trans hEq⟩
    cases h.owns_unique hOwns hOwns'
  · by_cases hTr : u = USERTOP + 1
    · subst hTr
      have hEntry := hw'.symm.trans hShape.trampoline
      have hPa : PTE2PA w' = L.trampoline := by
        rw [Option.some.inj hEntry]
        exact pte2pa_pte (Layout.trampoline_lt L) L.aligned (by decide)
      have hLow := (h.owns_ram hOwns).low
      have hBelow := L.below
      omega
    · have hNone := hShape.above u (by omega)
      rw [show s.leafOf j u = _ from hNone] at hw'
      cases hw'

/- A store by one process and the page table of another. -/
theorem userStore_leaf (hStore : userStore i va x s = some s') (v : Nat) :
    s'.leafOf j v = s.leafOf j v := by
  rcases userStore_cases hStore with ⟨w, hw, hUser, rfl⟩
  have hLow := (h.shape hi.1 hi.2).lt_of_user hw hUser
  have hTop := (range_top (h.small hi.1 hi.2)).2
  have hOwns := owns_user (B := B) hi hw (by omega)
  have hFrame : Frame {PTE2PA w} s.kmem.mem (s.kmem.mem.write (PTE2PA w + va % PGSIZE) [x]) :=
    frame_write _ _ (pte2pa_aligned w) (Nat.mod_lt va (by decide))
  have hSame : SameEntries s.kmem.mem (s.kmem.mem.write (PTE2PA w + va % PGSIZE) [x])
      (s.proc j).pagetable := by
    refine (hFrame.keeps ?_).sameEntries ?_ (fun _ hp => hp)
    · intro p hp hEq
      rw [Multiset.mem_singleton] at hEq
      subst hEq
      have hOwns' : Owns B s (PTE2PA w) (.pagetable j) := ⟨hj, hp⟩
      cases h.owns_unique hOwns hOwns'
    · intro p hp
      have hOwns' : Owns B s p (.pagetable j) := ⟨hj, hp⟩
      exact (h.owns_ram hOwns').aligned
  exact congrFun hSame.leaf v

/- A store by one process leaves all that another reads. -/
theorem userStore_other (hNe : i ≠ j) (hStore : userStore i va x s = some s') (va' : Nat) :
    s'.byteOf j va' = s.byteOf j va' := by
  have hLeaf := userStore_leaf h hi hj hStore
  rcases userStore_cases hStore with ⟨w, hw, hUser, rfl⟩
  have hLow := (h.shape hi.1 hi.2).lt_of_user hw hUser
  have hTop := (range_top (h.small hi.1 hi.2)).2
  unfold State.byteOf view
  rw [hLeaf]
  cases hw' : s.leafOf j (va' / PGSIZE) with
  | none => rfl
  | some w' =>
    have hApart := h.apart hi hj hNe hw (by omega) hw'
    have hPage := pte2pa_aligned w
    have hPage' := pte2pa_aligned w'
    rw [Option.map_some, Option.map_some]
    congr 1
    apply Memory.write_other
    rw [List.length_singleton]
    unfold PGSIZE at *
    omega

end

end Xv6.Kernel

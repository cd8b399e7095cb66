import Xv6.Kernel.Ownership

/-
  The address spaces of processes over whole runs, and the
  panics that no call can reach.

  The main result is `address_space_shape`.
-/

namespace Xv6.Kernel

open Vm

/- The leaf of a virtual page of process `i`. -/
def State.leafOf (s : State) (i v : Nat) : Option Nat := leaf s.kmem.mem (s.proc i).pagetable v

/- The byte at a virtual address of process `i`. -/
def State.byteOf (s : State) (i va : Nat) : Option UInt8 := view s.kmem.mem (s.leafOf i) va

section

variable {L : Layout} {boot : Multiset Nat} {s : State}

theorem mul_lt_pgroundup {sz v : Nat} (hSmall : pageCount sz ≤ 2 ^ 15) :
    v * PGSIZE < PGROUNDUP sz ↔ v < pageCount sz := by
  unfold PGROUNDUP pageCount UINT64 PGSIZE at *
  omega

theorem div_lt_pageCount {sz va : Nat} (h : va < sz) : va / PGSIZE < pageCount sz := by
  unfold pageCount PGSIZE
  omega

theorem Inv.small {r : Nat → Nat} {i : Nat} (h : Inv L boot r s) (hi : i < NPROC)
    (hLive : (s.proc i).state ≠ .unused) : pageCount (s.proc i).sz ≤ 2 ^ 15 :=
  (h.shape hi hLive).user.le (h.table hi hLive).books

theorem Shape.mapped_iff {tf sz : Nat} {guard : Option Nat} {f : Nat → Option Nat}
    (h : Shape L tf guard sz f) (hSmall : pageCount sz ≤ 2 ^ 15) (v : Nat) :
    f v ≠ none ↔ v * PGSIZE < PGROUNDUP sz ∨ v * PGSIZE = TRAPFRAME ∨ v * PGSIZE = TRAMPOLINE := by
  have hTop := range_top hSmall
  rw [mul_lt_pgroundup hSmall, trapframe_eq, trampoline_eq, Nat.mul_left_inj (by decide),
    Nat.mul_left_inj (by decide)]
  constructor
  · intro hSome
    by_contra hOut
    push Not at hOut
    apply hSome
    by_cases hv : v < USERTOP
    · exact h.user.gap v hOut.1 hv
    · exact h.above v (by omega)
  · rintro (hv | rfl | rfl)
    · rcases h.user.leaves v hv with ⟨w, hw, _⟩
      rw [hw]
      exact Option.some_ne_none w
    · rw [h.trapframe]
      exact Option.some_ne_none _
    · rw [h.trampoline]
      exact Option.some_ne_none _

theorem Shape.user_leaf {tf sz v w : Nat} {guard : Option Nat} {f : Nat → Option Nat}
    (h : Shape L tf guard sz f) (hw : f v = some w) (hv : v < pageCount sz)
    (hGuard : guard ≠ some v) : w &&& PTE_U ≠ 0 := by
  rcases h.user.leaves v hv with ⟨w', hw', hLeaf⟩
  rw [hw'] at hw
  rw [← Option.some.inj hw]
  exact hLeaf.2 hGuard

/- The leaves of process `i` and their user bits. -/
structure AddressSpace (s : State) (i : Nat) : Prop where
  top : PGROUNDUP (s.proc i).sz ≤ TRAPFRAME
  mapped : ∀ v,
    s.leafOf i v ≠ none ↔
      v * PGSIZE < PGROUNDUP (s.proc i).sz ∨ v * PGSIZE = TRAPFRAME ∨ v * PGSIZE = TRAMPOLINE
  only : ∀ v w, s.leafOf i v = some w →
    w &&& PTE_U ≠ 0 → v * PGSIZE < PGROUNDUP (s.proc i).sz
  user : ∀ v w, s.leafOf i v = some w →
    v * PGSIZE < PGROUNDUP (s.proc i).sz → (s.proc i).guard ≠ some v → w &&& PTE_U ≠ 0

/-
  In every state of a run the leaves of a process are those
  of its user pages, which end below the trapframe, of the
  trapframe and of the trampoline. The user bit is set in
  user pages, but perhaps not in the guard page of `exec`,
  and not in the other two. The only panic of a call is the
  exit of the first process.
-/
theorem address_space_shape (h : Reachable L boot s) :
    (∀ i, Live s i → AddressSpace s i) ∧
      ∀ i c e,
        i < NPROC →
        (s.proc i).state = .runnable →
        syscall L i c s = .error e →
          e = .initExiting := by
  have hGood := h.good
  refine ⟨?_, ?_⟩
  · intro i hLive
    have hShape := hGood.shape hLive.1 hLive.2
    have hSmall := hShape.user.le (hGood.table hLive.1 hLive.2).books
    refine ⟨?_, hShape.mapped_iff hSmall, ?_, ?_⟩
    · unfold pageCount PGSIZE at hSmall
      unfold PGROUNDUP UINT64 TRAPFRAME TRAMPOLINE MAXVA PGSIZE
      omega
    · intro v w hw
      rw [mul_lt_pgroundup hSmall]
      exact hShape.lt_of_user hw
    · intro v w hw
      rw [mul_lt_pgroundup hSmall]
      exact hShape.user_leaf hw
  · intro i c e hi hState hError
    have hSpec := syscall_spec c hGood hi hState
    have hPanic := Prog.wp_of_eq_error hSpec hError
    exact hPanic

end

theorem address_space_shape_forked :
    Live smallForked 1 ∧
      AddressSpace smallForked 1 ∧
      ∀ c e, syscall smallLayout 1 c smallForked = .error e → e = .initExiting := by
  have hState : (smallForked.proc 1).state = .runnable := by decide +kernel
  have hLive : Live smallForked 1 := ⟨by decide, by rw [hState]; decide⟩
  rcases address_space_shape smallForked_reachable with ⟨hSpaces, hPanics⟩
  exact ⟨hLive, hSpaces 1 hLive, fun c e => hPanics 1 c e (by decide) hState⟩

end Xv6.Kernel

import Mathlib.Data.Nat.Bitwise
import Mathlib.Tactic.Common

/-
  The Sv39 page-table format and the memory layout, under
  the names of `riscv.h` and `memlayout.h`. Addresses and
  page-table entries are numbers below `2 ^ 64`.
-/

namespace Xv6.Vm

---- Pages And Entries

/- The range of the C type `uint64`. -/
def UINT64 : Nat := 2 ^ 64

def PGSIZE : Nat := 4096

/- Both clear the twelve low bits. -/
def PGROUNDUP (sz : Nat) : Nat := (sz + PGSIZE - 1) % UINT64 / PGSIZE * PGSIZE

def PGROUNDDOWN (a : Nat) : Nat := a / PGSIZE * PGSIZE

def PTE_V : Nat := 1
def PTE_R : Nat := 2
def PTE_W : Nat := 4
def PTE_X : Nat := 8
def PTE_U : Nat := 16

def PA2PTE (pa : Nat) : Nat := (pa >>> 12) <<< 10

def PTE2PA (pte : Nat) : Nat := ((pte >>> 10) <<< 12) % UINT64

def PTE_FLAGS (pte : Nat) : Nat := pte &&& 0x3FF

def PX (level va : Nat) : Nat := (va >>> (12 + 9 * level)) &&& 0x1FF

/- One bit less than Sv39 allows. -/
def MAXVA : Nat := 1 <<< (9 + 9 + 9 + 12 - 1)

---- Memory Layout

def KERNBASE : Nat := 0x80000000
def PHYSTOP : Nat := KERNBASE + 128 * 1024 * 1024
def TRAMPOLINE : Nat := MAXVA - PGSIZE
def TRAPFRAME : Nat := TRAMPOLINE - PGSIZE

---- Arithmetic Of The Macros

theorem and_V (w : Nat) : w &&& PTE_V = w % 2 := by
  exact Nat.and_one_is_mod w

theorem px_eq (level va : Nat) : PX level va = va / 2 ^ (12 + 9 * level) % 512 := by
  unfold PX
  rw [Nat.shiftRight_eq_div_pow]
  exact Nat.and_two_pow_sub_one_eq_mod _ 9

theorem px_lt (level va : Nat) : PX level va < 512 := by
  rw [px_eq]
  exact Nat.mod_lt _ (by decide)

theorem pte_flags_eq (w : Nat) : PTE_FLAGS w = w % 1024 := Nat.and_two_pow_sub_one_eq_mod w 10

theorem pa2pte_eq (pa : Nat) : PA2PTE pa = pa / 4096 * 1024 := by
  unfold PA2PTE
  rw [Nat.shiftRight_eq_div_pow, Nat.shiftLeft_eq]

theorem pte2pa_eq (w : Nat) : PTE2PA w = w / 1024 * 4096 % 2 ^ 64 := by
  unfold PTE2PA UINT64
  rw [Nat.shiftRight_eq_div_pow, Nat.shiftLeft_eq]

theorem pte2pa_aligned (w : Nat) : PTE2PA w % PGSIZE = 0 := by
  rw [pte2pa_eq]
  unfold PGSIZE
  omega

/- The permission bits of an entry sit beside the address. -/
theorem pa2pte_or (pa : Nat) {perm : Nat} (hPerm : perm < 1024) :
    PA2PTE pa ||| perm = pa / 4096 * 1024 + perm := by
  rw [← pa2pte_eq]
  unfold PA2PTE
  exact (Nat.shiftLeft_add_eq_or_of_lt (by simpa using hPerm) _).symm

theorem or_V_lt {perm : Nat} (hPerm : perm < 1024) : perm ||| PTE_V < 1024 :=
  Nat.or_lt_two_pow (n := 10) hPerm (by decide)

theorem pte2pa_pte {pa perm : Nat} (hPa : pa < 2 ^ 64) (hAlign : pa % 4096 = 0)
    (hPerm : perm < 1024) : PTE2PA (PA2PTE pa ||| perm ||| PTE_V) = pa := by
  rw [Nat.lor_assoc, pa2pte_or pa (or_V_lt hPerm), pte2pa_eq]
  have hFlags := or_V_lt hPerm
  omega

theorem flags_pte (pa : Nat) {perm : Nat} (hPerm : perm < 1024) :
    PTE_FLAGS (PA2PTE pa ||| perm ||| PTE_V) = perm ||| PTE_V := by
  rw [Nat.lor_assoc, pa2pte_or pa (or_V_lt hPerm), pte_flags_eq]
  have hFlags := or_V_lt hPerm
  omega

theorem flags_copied (pa : Nat) {w : Nat} (hValid : w &&& PTE_V ≠ 0) :
    PTE_FLAGS (PA2PTE pa ||| PTE_FLAGS w ||| PTE_V) = PTE_FLAGS w := by
  have hPerm : PTE_FLAGS w < 1024 := by
    rw [pte_flags_eq]
    exact Nat.mod_lt _ (by decide)
  rw [and_V] at hValid
  rw [flags_pte pa hPerm, pte_flags_eq]
  apply Nat.eq_of_testBit_eq
  intro i
  rw [Nat.testBit_or]
  cases i with
  | zero =>
    simp only [PTE_V, Nat.testBit_zero]
    simp
    omega
  | succ i =>
    have hHigh : PTE_V.testBit (i + 1) = false := by simp [PTE_V, Nat.testBit_succ]
    rw [hHigh, Bool.or_false]

theorem valid_pte (x : Nat) : (x ||| PTE_V) &&& PTE_V ≠ 0 := by
  rw [and_V]
  have hBit : (x ||| PTE_V).testBit 0 = true := by simp [PTE_V]
  rw [Nat.testBit_zero, decide_eq_true_eq] at hBit
  omega

theorem pte_lt {pa perm : Nat} (hPa : pa < 2 ^ 64) (hPerm : perm < 2 ^ 64) :
    PA2PTE pa ||| perm ||| PTE_V < 2 ^ 64 := by
  refine Nat.or_lt_two_pow (Nat.or_lt_two_pow ?_ hPerm) ?_
  · rw [pa2pte_eq]
    omega
  · decide

/- An entry without the user bit. -/
def clearU (w : Nat) : Nat := w &&& (UINT64 - 1 - PTE_U)

theorem pte2pa_clearU {w : Nat} (hw : w < 2 ^ 64) : PTE2PA (clearU w) = PTE2PA w := by
  have hHigh : w >>> 10 < 2 ^ 54 := by
    rw [Nat.shiftRight_eq_div_pow]
    omega
  have hMask : (UINT64 - 1 - PTE_U) >>> 10 = 2 ^ 54 - 1 := by decide
  unfold PTE2PA clearU
  rw [Nat.shiftRight_and_distrib, hMask, Nat.and_two_pow_sub_one_eq_mod, Nat.mod_eq_of_lt hHigh]

theorem clearU_and (w : Nat) {bit : Nat} (hBit : (UINT64 - 1 - PTE_U) &&& bit = bit) :
    clearU w &&& bit = w &&& bit := by
  unfold clearU
  rw [Nat.and_assoc, hBit]

theorem clearU_user (w : Nat) : clearU w &&& PTE_U = 0 := by
  unfold clearU
  rw [Nat.and_assoc]
  exact Nat.and_zero w

end Xv6.Vm

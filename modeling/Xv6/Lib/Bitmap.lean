import Xv6.Lib.Bytes

/-
  Maps of bits in byte buffers.

  Bit `i` of a map is bit `i % 8` of byte `i / 8`. It is
  tested, set and cleared with a mask; the other bits keep
  their values.

  The rules used by name are:
    * `Bitmap.test_set`
    * `Bitmap.test_clear`
-/

namespace Bitmap

variable {n : Nat}

/- The mask of a bit within its byte. -/
def mask (i : Nat) : UInt8 := 1 <<< UInt8.ofNat (i % 8)

def test (b : Bytes n) (i : Nat) : Bool := b.get (i / 8) &&& mask i != 0

def set (b : Bytes n) (i : Nat) : Bytes n := b.put (i / 8) [b.get (i / 8) ||| mask i]

def clear (b : Bytes n) (i : Nat) : Bytes n := b.put (i / 8) [b.get (i / 8) &&& ~~~ mask i]

---- Masks

theorem mask_and_mask (i j : Nat) : mask i &&& mask j = if i % 8 = j % 8 then mask i else 0 := by
  have hAll : ∀ a b : Fin 8, (1 : UInt8) <<< UInt8.ofNat a.1 &&& 1 <<< UInt8.ofNat b.1 =
      if a.1 = b.1 then 1 <<< UInt8.ofNat a.1 else 0 := by
    decide
  exact hAll ⟨i % 8, Nat.mod_lt _ (by decide)⟩ ⟨j % 8, Nat.mod_lt _ (by decide)⟩

theorem not_mask_and_mask (i j : Nat) :
    ~~~ mask i &&& mask j = if i % 8 = j % 8 then 0 else mask j := by
  have hAll : ∀ a b : Fin 8, ~~~ ((1 : UInt8) <<< UInt8.ofNat a.1) &&& 1 <<< UInt8.ofNat b.1 =
      if a.1 = b.1 then (0 : UInt8)
      else 1 <<< UInt8.ofNat b.1 := by
    decide
  exact hAll ⟨i % 8, Nat.mod_lt _ (by decide)⟩ ⟨j % 8, Nat.mod_lt _ (by decide)⟩

theorem mask_ne_zero (i : Nat) : mask i ≠ 0 := by
  have hAll : ∀ a : Fin 8, (1 : UInt8) <<< UInt8.ofNat a.1 ≠ 0 := by decide
  exact hAll ⟨i % 8, Nat.mod_lt _ (by decide)⟩

---- Updates

theorem get_put_one (b : Bytes n) (o i : Nat) (x : UInt8) (hi : i < n) :
    (b.put o [x]).get i = if i = o then x else b.get i := by
  rw [Bytes.get_put _ _ _ _ hi]
  by_cases h : i = o
  · rw [if_pos h, if_pos (by simp; omega), h, Nat.sub_self]
    rfl
  · rw [if_neg h, if_neg (by simp; omega)]

theorem or_and_distrib (x y z : UInt8) : (x ||| y) &&& z = x &&& z ||| y &&& z := by
  apply UInt8.eq_of_toBitVec_eq
  ext k
  simp [Bool.and_or_distrib_right]

/- Setting a bit sets that bit alone. -/
theorem test_set (b : Bytes n) {i j : Nat} (hj : j / 8 < n) :
    test (set b i) j = (decide (j = i) || test b j) := by
  unfold test set
  rw [get_put_one _ _ _ _ hj]
  by_cases hByte : j / 8 = i / 8
  · rw [if_pos hByte, hByte, or_and_distrib, mask_and_mask]
    by_cases hBit : i % 8 = j % 8
    · have hEq : j = i := by omega
      rw [if_pos hBit, decide_eq_true hEq, Bool.true_or, bne_iff_ne, ne_eq, UInt8.or_eq_zero_iff]
      exact fun h => mask_ne_zero i h.2
    · have hNe : j ≠ i := by
        intro h
        exact hBit (by rw [h])
      rw [if_neg hBit, decide_eq_false hNe, Bool.false_or, UInt8.or_zero]
  · have hNe : j ≠ i := by
      intro h
      exact hByte (by rw [h])
    rw [if_neg hByte, decide_eq_false hNe, Bool.false_or]

/- Clearing a bit clears that bit alone. -/
theorem test_clear (b : Bytes n) {i j : Nat} (hj : j / 8 < n) :
    test (clear b i) j = (!decide (j = i) && test b j) := by
  unfold test clear
  rw [get_put_one _ _ _ _ hj]
  by_cases hByte : j / 8 = i / 8
  · rw [if_pos hByte, hByte, UInt8.and_assoc, not_mask_and_mask]
    by_cases hBit : i % 8 = j % 8
    · have hEq : j = i := by omega
      rw [if_pos hBit, decide_eq_true hEq, UInt8.and_zero]
      rfl
    · have hNe : j ≠ i := by
        intro h
        exact hBit (by rw [h])
      rw [if_neg hBit, decide_eq_false hNe]
      rfl
  · have hNe : j ≠ i := by
      intro h
      exact hByte (by rw [h])
    rw [if_neg hByte, decide_eq_false hNe]
    rfl

end Bitmap

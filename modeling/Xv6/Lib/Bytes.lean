import Mathlib.Algebra.Group.Int.Defs
import Mathlib.Algebra.GroupWithZero.Nat
import Mathlib.Data.List.Basic
import Mathlib.Data.Nat.Basic
import Mathlib.Tactic.Common

/-
  Fixed-size byte buffers with little-endian fields.

  A buffer of `n` bytes is read in slices and written in
  runs of consecutive bytes. Numbers of `k` bytes are
  stored low byte first. A field read back after a write
  is the written value, and fields elsewhere keep theirs.

  Key definitions include:
    * `Bytes`
    * `Bytes.slice`
    * `Bytes.put`
-/

---- Buffers

/- A buffer of `n` bytes. -/
abbrev Bytes (n : Nat) := Fin n → UInt8

namespace Bytes

variable {n : Nat} (b : Bytes n)

/- One byte, with zero beyond the end of the buffer. -/
def get (i : Nat) : UInt8 := if h : i < n then b ⟨i, h⟩ else 0

/- The `k` bytes that start at `o`. -/
def slice (o k : Nat) : List UInt8 := (List.range k).map (fun i => b.get (o + i))

/- Overwrite consecutive bytes from `o` on. -/
def put (o : Nat) (xs : List UInt8) : Bytes n :=
  fun i =>
    if o ≤ i.1 ∧ i.1 < o + xs.length then xs.getD (i.1 - o) 0 else b i

/- The buffer of zero bytes. -/
def zero : Bytes n := fun _ => 0

@[simp] theorem length_slice (o k : Nat) : (b.slice o k).length = k := by
  simp [slice]

theorem get_put (o i : Nat) (xs : List UInt8) (hi : i < n) :
    (b.put o xs).get i =
      if o ≤ i ∧ i < o + xs.length then
        xs.getD (i - o) 0
      else
        b.get i := by
  simp [get, put, hi]

@[simp] theorem get_zero (i : Nat) : (zero : Bytes n).get i = 0 := by
  simp [get, zero]

/- A slice that was just written reads back. -/
theorem slice_put_same (o : Nat) (xs : List UInt8) (hFit : o + xs.length ≤ n) :
    (b.put o xs).slice o xs.length = xs := by
  apply List.ext_getElem
  · simp
  · intro i hi hi'
    have hIn : o + i < n := by
      simp only [length_slice] at hi
      omega
    simp [slice, get_put, hIn, hi']

/- A part of the written run reads back. -/
theorem slice_put_sub (o i k : Nat) (xs : List UInt8) (hFit : o + xs.length ≤ n)
    (hSub : i + k ≤ xs.length) : (b.put o xs).slice (o + i) k = (xs.drop i).take k := by
  apply List.ext_getElem
  · simp
    omega
  · intro j hj hj'
    simp only [length_slice] at hj
    have hIn : o + i + j < n := by omega
    have hRun : o ≤ o + i + j ∧ o + i + j < o + xs.length := by omega
    have hGet : i + j < xs.length := by omega
    have hSubEq : o + i + j - o = i + j := by omega
    simp [slice, get_put, hIn, hRun, hSubEq, hGet]

/- A slice away from the written run keeps its bytes. -/
theorem slice_put_disjoint (o o' k : Nat) (xs : List UInt8)
    (hApart : o' + k ≤ o ∨ o + xs.length ≤ o') : (b.put o xs).slice o' k = b.slice o' k := by
  apply List.ext_getElem
  · simp
  · intro i hi hi'
    simp only [length_slice] at hi
    by_cases hIn : o' + i < n
    · have hOut : ¬ (o ≤ o' + i ∧ o' + i < o + xs.length) := by omega
      simp [slice, get_put, hIn, hOut]
    · simp [slice, get, hIn]

---- Little-Endian Numbers

/- The `k` low bytes of a number, low byte first. -/
def le : Nat → Nat → List UInt8
| 0, _ => []
| k + 1, v => UInt8.ofNat v :: le k (v / 256)

/- The number a byte list denotes, low byte first. -/
def ofLe : List UInt8 → Nat
| [] => 0
| x :: xs => x.toNat + 256 * ofLe xs

/- The number in `k` bytes of a list. -/
def word (xs : List UInt8) (o k : Nat) : Nat := ofLe ((xs.drop o).take k)

/- The number stored in the `k` bytes at `o`. -/
def getLe (o k : Nat) : Nat := ofLe (b.slice o k)

@[simp] theorem length_le (k v : Nat) : (le k v).length = k := by
  induction k generalizing v with
  | zero => rfl
  | succ k ih => simp [le, ih]

theorem le_zero (k : Nat) : le k 0 = List.replicate k 0 := by
  induction k with
  | zero => rfl
  | succ k ih =>
    rw [le, Nat.zero_div, ih, List.replicate_succ]
    rfl

/- Storing keeps a number modulo its width. -/
@[simp] theorem ofLe_le (k v : Nat) : ofLe (le k v) = v % 256 ^ k := by
  induction k generalizing v with
  | zero => simp [le, ofLe, Nat.mod_one]
  | succ k ih =>
    simp only [le, ofLe, ih, UInt8.toNat_ofNat', Nat.reducePow]
    rw [Nat.pow_succ', Nat.mod_mul]

theorem ofLe_lt (xs : List UInt8) : ofLe xs < 256 ^ xs.length := by
  induction xs with
  | nil => simp [ofLe]
  | cons x xs ih =>
    have hx : x.toNat < 256 := x.toNat_lt
    simp only [ofLe, List.length_cons, Nat.pow_succ']
    omega

/- A field away from the written run keeps its value. -/
theorem getLe_put_disjoint (o o' k : Nat) (xs : List UInt8)
    (hApart : o' + k ≤ o ∨ o + xs.length ≤ o') : (b.put o xs).getLe o' k = b.getLe o' k := by
  rw [getLe, slice_put_disjoint b o o' k xs hApart, getLe]

/- A field that was just stored reads back. -/
theorem getLe_put_le (o k v : Nat) (hFit : o + k ≤ n) :
    (b.put o (le k v)).getLe o k = v % 256 ^ k := by
  have hSlice := slice_put_same b o (le k v) (by simpa using hFit)
  rw [length_le] at hSlice
  rw [getLe, hSlice, ofLe_le]

---- Lists Of Words

/- Word `i` of a list of stored words. -/
theorem take_drop_flatMap_le (ws : List Nat) (i : Nat) (hi : i < ws.length) :
    ((ws.flatMap (le 4)).drop (4 * i)).take 4 = le 4 ws[i] := by
  induction ws generalizing i with
  | nil => simp at hi
  | cons b ws ih =>
    cases i with
    | zero =>
      have hLen : (le 4 b).length = 4 := by simp
      simp [hLen]
    | succ i =>
      have hi' : i < ws.length := by simpa using hi
      have hDrop : 4 * (i + 1) = (le 4 b).length + 4 * i := by
        simp only [length_le]
        omega
      simp only [List.flatMap_cons, List.getElem_cons_succ]
      rw [hDrop, List.drop_append, List.drop_of_length_le (by omega),
        List.nil_append, Nat.add_sub_cancel_left]
      exact ih i hi'

theorem length_flatMap_le (ws : List Nat) : (ws.flatMap (le 4)).length = 4 * ws.length := by
  induction ws with
  | nil => rfl
  | cons b ws ih =>
    simp only [List.flatMap_cons, List.length_append, length_le, List.length_cons, ih]
    omega

theorem word_append_of_le {xs ys : List UInt8} {o : Nat} (h : xs.length ≤ o) (k : Nat) :
    word (xs ++ ys) o k = word ys (o - xs.length) k := by
  unfold word
  rw [List.drop_append, List.drop_of_length_le h, List.nil_append]

/- A number at the front. -/
theorem word_le_append (k v : Nat) (ys : List UInt8) : word (le k v ++ ys) 0 k = v % 256 ^ k := by
  unfold word
  rw [List.drop_zero, List.take_append_of_le_length (by simp),
    List.take_of_length_le (by simp), ofLe_le]

/- Word `i` of stored 32-bit words. -/
theorem word_flatMap_le (ws : List Nat) (i : Nat) (hi : i < ws.length) :
    word (ws.flatMap (le 4)) (4 * i) 4 = ws[i] % 256 ^ 4 := by
  unfold word
  rw [take_drop_flatMap_le ws i hi, ofLe_le]

end Bytes

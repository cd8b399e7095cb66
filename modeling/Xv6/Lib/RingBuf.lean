import Mathlib.Data.Nat.ModEq
import Mathlib.Tactic.Common

/-
  RingBuf buffers with free-running counters.

  A ring of `cap` cells is driven by two counters that count
  pops and pushes modulo `modulus`, a multiple of `cap`. The
  number of queued elements is the difference of the
  counters modulo `modulus`, and it survives any number of
  wraparounds.

  The rules used by name are:
    * `RingBuf.contents_push`
    * `RingBuf.contents_pop`
    * `RingBuf.full_iff`
-/

/- A ring of `cap` cells with counters below `modulus`. -/
structure RingBuf (α : Type) (cap modulus : Nat) where
  data : Nat → α
  head : Nat
  tail : Nat

namespace RingBuf

variable {α : Type} {cap modulus : Nat}

/- The number of queued elements. -/
def used (r : RingBuf α cap modulus) : Nat := (r.tail + modulus - r.head) % modulus

/- The queued elements, oldest first. -/
def contents (r : RingBuf α cap modulus) : List α :=
  (List.range r.used).map (fun i => r.data ((r.head + i) % cap))

/- Store an element in the next cell. -/
def push (r : RingBuf α cap modulus) (x : α) : RingBuf α cap modulus where
  data := fun i => if i = r.tail % cap then x else r.data i
  head := r.head
  tail := (r.tail + 1) % modulus

/- Give up the oldest cell. -/
def pop (r : RingBuf α cap modulus) : RingBuf α cap modulus where
  data := r.data
  head := (r.head + 1) % modulus
  tail := r.tail

/- The element in the oldest cell. -/
def front (r : RingBuf α cap modulus) : α := r.data (r.head % cap)

/- Counters in range, and no more elements than cells. -/
structure Wf (r : RingBuf α cap modulus) : Prop where
  pos : 0 < cap
  dvd : cap ∣ modulus
  lt : cap < modulus
  head_lt : r.head < modulus
  tail_lt : r.tail < modulus
  used_le : r.used ≤ cap

---- Counter Arithmetic

variable {r : RingBuf α cap modulus}

theorem used_eq (h : r.Wf) :
    r.used = if r.head ≤ r.tail then r.tail - r.head else r.tail + modulus - r.head := by
  have hHead := h.head_lt
  have hTail := h.tail_lt
  unfold used
  split
  · have hShift : r.tail + modulus - r.head = r.tail - r.head + modulus := by omega
    rw [hShift, Nat.add_mod_right, Nat.mod_eq_of_lt (by omega)]
  · exact Nat.mod_eq_of_lt (by omega)

/- The successor of a counter, with its wraparound. -/
theorem succ_mod {a m : Nat} (h : a < m) : (a + 1) % m = if a + 1 = m then 0 else a + 1 := by
  split
  · rename_i hEq
    rw [hEq, Nat.mod_self]
  · exact Nat.mod_eq_of_lt (by omega)

section

variable (h : r.Wf)
include h

theorem empty_iff : r.head = r.tail ↔ r.used = 0 := by
  have hHead := h.head_lt
  have hTail := h.tail_lt
  rw [used_eq h]
  split <;> omega

theorem full_iff : r.tail = (r.head + cap) % modulus ↔ r.used = cap := by
  have hHead := h.head_lt
  have hTail := h.tail_lt
  have hLt := h.lt
  have hWrap : (r.head + cap) % modulus =
      if r.head + cap < modulus then r.head + cap
      else r.head + cap - modulus := by
    split
    · rename_i hSmall
      exact Nat.mod_eq_of_lt hSmall
    · rename_i hBig
      rw [Nat.mod_eq_sub_mod (by omega), Nat.mod_eq_of_lt (by omega)]
  rw [used_eq h, hWrap]
  split <;> split <;> omega

theorem used_push (x : α) (hRoom : r.used < cap) : (r.push x).used = r.used + 1 := by
  have hHead := h.head_lt
  have hTail := h.tail_lt
  have hLt := h.lt
  have hUsed := used_eq h
  unfold used at *
  simp only [push]
  rw [succ_mod hTail]
  rw [hUsed] at hRoom ⊢
  split at hRoom <;> split
  · have hShift : 0 + modulus - r.head = modulus - r.head := by omega
    rw [hShift]
    have hMod := Nat.mod_eq_of_lt (show modulus - r.head < modulus by omega)
    rw [hMod]
    omega
  · have hShift : r.tail + 1 + modulus - r.head = r.tail + 1 - r.head + modulus := by omega
    rw [hShift, Nat.add_mod_right, Nat.mod_eq_of_lt (by omega)]
    omega
  · omega
  · rw [Nat.mod_eq_of_lt (by omega)]
    omega

theorem used_pop (hSome : 0 < r.used) : r.pop.used + 1 = r.used := by
  have hHead := h.head_lt
  have hTail := h.tail_lt
  have hUsed := used_eq h
  unfold used at *
  simp only [pop]
  rw [succ_mod hHead]
  rw [hUsed] at hSome ⊢
  split at hSome <;> split
  · omega
  · have hShift : r.tail + modulus - (r.head + 1) = r.tail - (r.head + 1) + modulus := by omega
    rw [hShift, Nat.add_mod_right, Nat.mod_eq_of_lt (by omega)]
    omega
  · have hShift : r.tail + modulus - 0 = r.tail + modulus := by omega
    rw [hShift, Nat.add_mod_right, Nat.mod_eq_of_lt (by omega)]
    omega
  · rw [Nat.mod_eq_of_lt (by omega)]
    omega

theorem Wf.push (x : α) (hRoom : r.used < cap) : (r.push x).Wf := by
  have hTail := h.tail_lt
  refine ⟨h.pos, h.dvd, h.lt, h.head_lt, ?_, ?_⟩
  · exact Nat.mod_lt _ (by omega)
  · rw [used_push h x hRoom]
    omega

theorem Wf.pop (hSome : 0 < r.used) : r.pop.Wf := by
  have hHead := h.head_lt
  refine ⟨h.pos, h.dvd, h.lt, ?_, h.tail_lt, ?_⟩
  · exact Nat.mod_lt _ (by omega)
  · have hUsed := used_pop h hSome
    have hLe := h.used_le
    omega

end

---- Contents

/- A wraparound does not change the cell of a counter. -/
theorem add_modulus_mod (hDvd : cap ∣ modulus) (a : Nat) : (a + modulus) % cap = a % cap := by
  rcases hDvd with ⟨k, hk⟩
  rw [hk, Nat.add_mul_mod_self_left]

/- The write counter points behind the queued elements. -/
theorem tail_mod (h : r.Wf) : r.tail % cap = (r.head + r.used) % cap := by
  have hHead := h.head_lt
  have hTail := h.tail_lt
  rw [used_eq h]
  split
  · congr 1
    omega
  · have hShift : r.head + (r.tail + modulus - r.head) = r.tail + modulus := by omega
    rw [hShift]
    exact (add_modulus_mod h.dvd r.tail).symm

/- Cells of different queued elements differ. -/
theorem cell_ne {a i j : Nat} (hij : i < j) (hj : j < cap) : (a + i) % cap ≠ (a + j) % cap := by
  intro hEq
  have hMod : i ≡ j [MOD cap] := Nat.ModEq.add_left_cancel' a hEq
  have hSame := Nat.ModEq.eq_of_lt_of_lt hMod (by omega) hj
  omega

/- A push appends to the queue. -/
theorem contents_push (h : r.Wf) (x : α) (hRoom : r.used < cap) :
    (r.push x).contents = r.contents ++ [x] := by
  unfold contents
  rw [used_push h x hRoom, List.range_succ, List.map_append]
  congr 1
  · apply List.map_congr_left
    intro i hi
    have hLt : i < r.used := List.mem_range.mp hi
    have hNe : (r.head + i) % cap ≠ r.tail % cap := by
      rw [tail_mod h]
      exact cell_ne hLt hRoom
    simp [RingBuf.push, hNe]
  · simp [RingBuf.push, tail_mod h]

/- A pop removes the front of the queue. -/
theorem contents_pop (h : r.Wf) (hSome : 0 < r.used) : r.contents = r.front :: r.pop.contents := by
  have hUsed := used_pop h hSome
  have hHead := h.head_lt
  unfold contents
  rw [← hUsed, List.range_succ_eq_map, List.map_cons, List.map_map]
  congr 1
  apply List.map_congr_left
  intro i _
  have hStep : ((r.head + 1) % modulus + i) % cap = (r.head + (i + 1)) % cap := by
    rw [succ_mod hHead]
    split
    · rename_i hEq
      have hShift : r.head + (i + 1) = i + modulus := by omega
      rw [hShift, add_modulus_mod h.dvd, Nat.zero_add]
    · congr 1
      omega
  simp [RingBuf.pop, hStep]

@[simp] theorem length_contents : r.contents.length = r.used := by
  simp [contents]

theorem contents_of_used_eq_zero (hNone : r.used = 0) : r.contents = [] := by
  simp [contents, hNone]

end RingBuf

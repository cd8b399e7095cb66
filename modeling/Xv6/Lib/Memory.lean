import Xv6.Lib.Bytes

/-
  Byte-addressed memory with little-endian words.

  A memory gives a byte at every address. Runs of bytes are
  read and written, filled and copied, and numbers of `k`
  bytes are loaded and stored low byte first.

  Key definitions include:
    * `Memory`
    * `Memory.write`
    * `Memory.load`
-/

/- A byte at every address. -/
abbrev Memory := Nat → UInt8

namespace Memory

variable (m : Memory) {a x b n k : Nat}

/- The `k` bytes that start at `a`. -/
def read (a k : Nat) : List UInt8 := (List.range k).map (fun i => m (a + i))

/- Overwrite consecutive bytes from `a` on. -/
def write (a : Nat) (xs : List UInt8) : Memory :=
  fun x =>
    if a ≤ x ∧ x < a + xs.length then xs.getD (x - a) 0 else m x

/- Set `n` bytes from `a` on to one value. -/
def fill (a n : Nat) (c : UInt8) : Memory :=
  fun x => if a ≤ x ∧ x < a + n then c else m x

/- The number in the `k` bytes at `a`. -/
def load (a k : Nat) : Nat := Bytes.ofLe (m.read a k)

/- Store the `k` low bytes of a number at `a`. -/
def store (a k v : Nat) : Memory := m.write a (Bytes.le k v)

@[simp]
theorem length_read (a k : Nat) : (m.read a k).length = k := by
  simp [read]

theorem write_other (xs : List UInt8) (hOut : x < a ∨ a + xs.length ≤ x) :
    m.write a xs x = m x := by
  have hNot : ¬ (a ≤ x ∧ x < a + xs.length) := by omega
  simp only [write, hNot, if_false]

/- The same write at the same distance. -/
theorem write_shift (c : Memory) {y : Nat} (xs : List UInt8) (hShift : x + b = y + a)
    (hByte : m x = c y) : m.write a xs x = c.write b xs y := by
  unfold write
  by_cases hIn : a ≤ x ∧ x < a + xs.length
  · have hIn' : b ≤ y ∧ y < b + xs.length := by omega
    have hIndex : x - a = y - b := by omega
    rw [if_pos hIn, if_pos hIn', hIndex]
  · have hOut : ¬ (b ≤ y ∧ y < b + xs.length) := by omega
    rw [if_neg hIn, if_neg hOut, hByte]

/- Bytes that were copied from `b`. -/
theorem write_read_same {o : Nat} (ho : o < n) :
    m.write a (m.read b n) (a + o) = m (b + o) := by
  have hIn : a ≤ a + o ∧ a + o < a + (m.read b n).length := by
    rw [length_read]
    omega
  unfold write
  rw [if_pos hIn, Nat.add_sub_cancel_left]
  simp [read, ho]

theorem fill_other (c : UInt8) (hOut : x < a ∨ a + n ≤ x) : m.fill a n c x = m x := by
  have hNot : ¬ (a ≤ x ∧ x < a + n) := by omega
  simp only [fill, hNot, if_false]

theorem fill_same (c : UInt8) (hLow : a ≤ x) (hHigh : x < a + n) :
    m.fill a n c x = c := if_pos ⟨hLow, hHigh⟩

theorem store_other (v : Nat) (hOut : x < a ∨ a + k ≤ x) : m.store a k v x = m x :=
  write_other m _ (by simpa using hOut)

/- A zero that was just stored, byte by byte. -/
theorem store_zero (a : Nat) {o : Nat} (ho : o < k) : m.store a k 0 (a + o) = 0 := by
  have hIn : a ≤ a + o ∧ a + o < a + (Bytes.le k 0).length := by
    rw [Bytes.length_le]
    omega
  unfold store write
  rw [if_pos hIn, Nat.add_sub_cancel_left, Bytes.le_zero]
  simp [ho]

/- A load depends on the bytes it covers only. -/
theorem load_congr {m m' : Memory} (h : ∀ i < k, m' (a + i) = m (a + i)) :
    m'.load a k = m.load a k := by
  have hRead : m'.read a k = m.read a k := by
    apply List.map_congr_left
    intro i hi
    exact h i (List.mem_range.mp hi)
  rw [load, hRead, load]

theorem load_lt (a k : Nat) : m.load a k < 256 ^ k := by
  simpa [load] using Bytes.ofLe_lt (m.read a k)

/- A number that was just stored is loaded back. -/
theorem load_store_same (a k v : Nat) : (m.store a k v).load a k = v % 256 ^ k := by
  have hRead : (m.store a k v).read a k = Bytes.le k v := by
    apply List.ext_getElem
    · simp
    · intro i hi hi'
      simp only [length_read] at hi
      simp [read, store, write, hi]
  rw [load, hRead, Bytes.ofLe_le]

/- A number elsewhere keeps its value. -/
theorem load_store_other {j : Nat} (v : Nat) (hApart : b + j ≤ a ∨ a + k ≤ b) :
    (m.store a k v).load b j = m.load b j := by
  apply load_congr
  intro i hi
  exact store_other m v (by omega)

/- Zeroed memory holds the number zero. -/
theorem load_fill_zero (hLow : a ≤ b) (hHigh : b + k ≤ a + n) :
    (m.fill a n 0).load b k = 0 := by
  have hZero : ∀ j, Bytes.ofLe (List.replicate j 0) = 0 := by
    intro j
    induction j with
    | zero => rfl
    | succ j ih => simp [List.replicate_succ, Bytes.ofLe, ih]
  have hRead : (m.fill a n 0).read b k = List.replicate k 0 := by
    apply List.ext_getElem
    · simp
    · intro i hi hi'
      simp only [length_read] at hi
      have hIn : a ≤ b + i ∧ b + i < a + n := by omega
      simp [read, fill, hIn]
  rw [load, hRead, hZero]

end Memory

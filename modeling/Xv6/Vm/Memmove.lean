import Xv6.Vm.Uvm

/-
  `memmove` of the kernel (`string.c`) and of the user
  library (`ulib.c`).

  Both copy byte by byte, up or down. The kernel copies down
  if the destination starts inside the source, the library if
  the source does not start above the destination. Pointers
  have 64 bits, and one past the last byte may be zero.

  Main declarations:
    * `copyUp_eq`
    * `copyDown_eq`
    * `memmove_correct`
-/

namespace Xv6.Memmove

open Function (update update_self update_of_ne)

---- Functions

/- `while(n-- > 0) *d++ = *s++`. -/
def copyUp : Nat → UInt64 → UInt64 → Memory → Memory
  | 0, _, _, m => m
  | n + 1, d, s, m => copyUp n (d + 1) (s + 1) (update m d.toNat (m s.toNat))

/- `while(n-- > 0) *--d = *--s`. -/
def copyDown : Nat → UInt64 → UInt64 → Memory → Memory
  | 0, _, _, m => m
  | n + 1, d, s, m => copyDown n (d - 1) (s - 1) (update m (d - 1).toNat (m (s - 1).toNat))

/- The pointer returned and the memory after the call. -/
def Kernel.memmove (dst src : UInt64) (n : UInt32) (m : Memory) : UInt64 × Memory :=
  if n = 0 then
    (dst, m)
  else if src < dst ∧ src + n.toUInt64 > dst then
    (dst, copyDown n.toNat (dst + n.toUInt64) (src + n.toUInt64) m)
  else
    (dst, copyUp n.toNat dst src m)

/- With a negative length no loop has a round. -/
def User.memmove (vdst vsrc : UInt64) (n : Int32) (m : Memory) : UInt64 × Memory :=
  if vsrc > vdst then
    (vdst, copyUp n.toInt.toNat vdst vsrc m)
  else
    (vdst, copyDown n.toInt.toNat (vdst + .ofInt n.toInt) (vsrc + .ofInt n.toInt) m)

---- Bytes Moved

/- Bytes `lo` to `hi` of the move from `s` to `d` are done. -/
def moved (m : Memory) (d s lo hi : Nat) : Memory := m.write (d + lo) (m.read (s + lo) (hi - lo))

/- `n` bytes are at `d` that were at `s`, and no other byte is changed. -/
structure Moves (m : Memory) (d s n : Nat) (m' : Memory) : Prop where
  copied : ∀ i, i < n → m' (d + i) = m (s + i)
  frame : ∀ a, a < d ∨ d + n ≤ a → m' a = m a

section

variable {m : Memory} {d s lo hi n i : Nat}

theorem moved_other {a : Nat} (h : a < d + lo ∨ d + hi ≤ a) : moved m d s lo hi a = m a := by
  refine Memory.write_other m _ ?_
  rw [Memory.length_read]
  omega

theorem moved_same (hLo : lo ≤ i) (hHi : i < hi) : moved m d s lo hi (d + i) = m (s + i) := by
  rcases Nat.exists_eq_add_of_le hLo with ⟨o, rfl⟩
  rw [← Nat.add_assoc, ← Nat.add_assoc]
  exact Memory.write_read_same m (by omega)

theorem moved_nil : moved m d s lo lo = m := by
  funext a
  exact moved_other (by omega)

theorem moves_moved : Moves m d s n (moved m d s 0 n) :=
  ⟨fun _ hi => moved_same (Nat.zero_le _) hi, fun _ ha => moved_other ha⟩

theorem moved_next {lo' hi' : Nat} (h : ∀ j, lo' ≤ j ∧ j < hi' ↔ j = i ∨ lo ≤ j ∧ j < hi) :
    update (moved m d s lo hi) (d + i) (m (s + i)) = moved m d s lo' hi' := by
  funext a
  have hj := h (a - d)
  by_cases ha : a = d + i
  · have hIn := (h i).mpr (.inl rfl)
    rw [ha, update_self, moved_same hIn.1 hIn.2]
  · rw [update_of_ne ha]
    by_cases hIn : d ≤ a ∧ lo ≤ a - d ∧ a - d < hi
    · have hBoth := hj.mpr (.inr hIn.2)
      rw [← Nat.add_sub_cancel' hIn.1, moved_same hIn.2.1 hIn.2.2, moved_same hBoth.1 hBoth.2]
    · rw [moved_other (by omega), moved_other (by omega)]

---- Loops

/-
  The upward loop, with `lo` bytes done. The source starts
  above the destination or ends below it, so that the next
  byte was not overwritten.
-/
theorem copyUp_eq {k : Nat} {p q : UInt64} (hApart : d ≤ s ∨ s + (lo + k) ≤ d)
    (hd : d + (lo + k) ≤ 2 ^ 64) (hs : s + (lo + k) ≤ 2 ^ 64) (hp : p.toNat = (d + lo) % 2 ^ 64)
    (hq : q.toNat = (s + lo) % 2 ^ 64) :
    copyUp k p q (moved m d s 0 lo) = moved m d s 0 (lo + k) := by
  induction k generalizing lo p q with
  | zero => rfl
  | succ k ih =>
    rw [Nat.mod_eq_of_lt (by omega)] at hp hq
    have hEnd : lo + (k + 1) = lo + 1 + k := by omega
    have hByte : update (moved m d s 0 lo) (d + lo) (m (s + lo)) = moved m d s 0 (lo + 1) :=
      moved_next (by omega)
    unfold copyUp
    rw [hp, hq, moved_other (by omega), hByte, hEnd]
    refine ih (by omega) (by omega) (by omega) ?_ ?_
    · rw [UInt64.toNat_add, hp]
      rfl
    · rw [UInt64.toNat_add, hq]
      rfl

theorem copyDown_eq {k : Nat} {p q : UInt64} (hApart : s ≤ d ∨ d + n ≤ s) (hk : k ≤ n)
    (hd : d + n ≤ 2 ^ 64) (hs : s + n ≤ 2 ^ 64) (hp : p.toNat = (d + k) % 2 ^ 64)
    (hq : q.toNat = (s + k) % 2 ^ 64) : copyDown k p q (moved m d s k n) = moved m d s 0 n := by
  induction k generalizing p q with
  | zero => rfl
  | succ k ih =>
    have hLast : ∀ {r : UInt64} {b : Nat}, r.toNat = (b + (k + 1)) % 2 ^ 64 → b + n ≤ 2 ^ 64 →
        (r - 1).toNat = b + k := by
      intro r b hr hb
      rw [UInt64.toNat_sub, hr, UInt64.toNat_one]
      omega
    have hByte : update (moved m d s (k + 1) n) (d + k) (m (s + k)) = moved m d s k n :=
      moved_next (by omega)
    unfold copyDown
    rw [hLast hp hd, hLast hq hs, moved_other (by omega), hByte]
    refine ih (by omega) ?_ ?_
    · rw [hLast hp hd, Nat.mod_eq_of_lt (by omega)]
    · rw [hLast hq hs, Nat.mod_eq_of_lt (by omega)]

end

section

variable {m : Memory} {d s : UInt64} {k : Nat} (hd : d.toNat + k ≤ 2 ^ 64)
  (hs : s.toNat + k ≤ 2 ^ 64)
include hd hs

theorem copyUp_all (hApart : d.toNat ≤ s.toNat ∨ s.toNat + k ≤ d.toNat) :
    copyUp k d s m = moved m d.toNat s.toNat 0 k := by
  have hLoop : copyUp k d s (moved m d.toNat s.toNat 0 0) = moved m d.toNat s.toNat 0 (0 + k) :=
    copyUp_eq (by omega) (by omega) (by omega) (Nat.mod_eq_of_lt d.toNat_lt).symm
      (Nat.mod_eq_of_lt s.toNat_lt).symm
  rw [moved_nil, Nat.zero_add] at hLoop
  exact hLoop

theorem copyDown_all {n : UInt64} (hn : n.toNat = k ∨ k = 0)
    (hApart : s.toNat ≤ d.toNat ∨ d.toNat + k ≤ s.toNat) :
    copyDown k (d + n) (s + n) m = moved m d.toNat s.toNat 0 k := by
  rcases hn with hn | rfl
  · have hLoop := @copyDown_eq m _ _ _ _ (d + n) (s + n) hApart le_rfl hd hs
      (by rw [UInt64.toNat_add, hn]) (by rw [UInt64.toNat_add, hn])
    rw [moved_nil] at hLoop
    exact hLoop
  · rw [moved_nil]
    rfl

end

theorem Kernel.memmove_eq {m : Memory} {dst src : UInt64} {n : UInt32}
    (hs : src.toNat + n.toNat ≤ 2 ^ 64) (hd : dst.toNat + n.toNat ≤ 2 ^ 64) :
    (Kernel.memmove dst src n m).2 = moved m dst.toNat src.toNat 0 n.toNat := by
  have hn : n.toUInt64.toNat = n.toNat := UInt32.toNat_toUInt64 n
  unfold Kernel.memmove
  split_ifs with hZero hInside
  · rw [hZero]
    exact moved_nil.symm
  · refine copyDown_all hd hs (.inl hn) (.inl ?_)
    exact UInt64.le_iff_toNat_le.mp (UInt64.le_of_lt hInside.1)
  · refine copyUp_all hd hs ?_
    -- The end of a source below `dst` does not wrap: the destination ends above it.
    rw [gt_iff_lt, UInt64.lt_iff_toNat_lt, UInt64.lt_iff_toNat_lt, UInt64.toNat_add, hn] at hInside
    omega

theorem User.memmove_eq {m : Memory} {dst src : UInt64} {n : Int32}
    (hs : src.toNat + n.toInt.toNat ≤ 2 ^ 64) (hd : dst.toNat + n.toInt.toNat ≤ 2 ^ 64) :
    (User.memmove dst src n m).2 = moved m dst.toNat src.toNat 0 n.toInt.toNat := by
  have hn : (UInt64.ofInt n.toInt).toNat = n.toInt.toNat ∨ n.toInt.toNat = 0 := by
    have hMax := n.toInt_lt
    unfold UInt64.ofInt
    rw [UInt64.toNat_ofNat']
    omega
  unfold User.memmove
  split_ifs with hAbove
  · exact copyUp_all hd hs (.inl (Nat.le_of_lt (UInt64.lt_iff_toNat_lt.mp hAbove)))
  · refine copyDown_all hd hs hn (.inl ?_)
    rw [gt_iff_lt, UInt64.lt_iff_toNat_lt] at hAbove
    omega

/- The copy of the memory model is the kernel's `memmove`. -/
theorem vm_memmove_eq {s : Vm.Kmem} {dst src : UInt64} {n : UInt32}
    (hs : src.toNat + n.toNat ≤ 2 ^ 64) (hd : dst.toNat + n.toNat ≤ 2 ^ 64) :
    Vm.memmove dst.toNat src.toNat n.toNat s =
      .ok ((), { s with mem := (Kernel.memmove dst src n s.mem).2 }) := by
  rw [Kernel.memmove_eq hs hd]
  rfl

/-
  Both functions move the bytes that were at the source
  before the call, and change no other byte, wherever the two
  regions stand, if neither wraps around.
-/
theorem memmove_correct
    (m : Memory)
    (dst src : UInt64) :
    (∀ n : UInt32,
      src.toNat + n.toNat ≤ 2 ^ 64 →
      dst.toNat + n.toNat ≤ 2 ^ 64 →
      Moves m dst.toNat src.toNat n.toNat (Kernel.memmove dst src n m).2) ∧
    ∀ n : Int32,
      src.toNat + n.toInt.toNat ≤ 2 ^ 64 →
      dst.toNat + n.toInt.toNat ≤ 2 ^ 64 →
      Moves m dst.toNat src.toNat n.toInt.toNat (User.memmove dst src n m).2 := by
  refine ⟨?_, ?_⟩
  · intro n hs hd
    rw [Kernel.memmove_eq hs hd]
    exact moves_moved
  · intro n hs hd
    rw [User.memmove_eq hs hd]
    exact moves_moved

/- Four bytes are moved up by one, to the end of the address space. -/
theorem memmove_correct_top :
    Moves Nat.toUInt8 (2 ^ 64 - 4) (2 ^ 64 - 5) 4 (Kernel.memmove (-4) (-5) 4 Nat.toUInt8).2 ∧
    Moves Nat.toUInt8 (2 ^ 64 - 4) (2 ^ 64 - 5) 4 (User.memmove (-4) (-5) 4 Nat.toUInt8).2 :=
  ⟨(memmove_correct Nat.toUInt8 (-4) (-5)).1 4 (by decide) (by decide),
    (memmove_correct Nat.toUInt8 (-4) (-5)).2 4 (by decide) (by decide)⟩

end Xv6.Memmove

import Xv6.Fs.Failure
import Xv6.Fs.Sharing

/-
  The number of bytes of a `fileread` (`file.c`, `fs.c`).

  `fileread` takes a signed count and hands it to `readi`,
  which takes an unsigned one. A negative count is a large
  number there. It is refused only if its sum with the offset
  wraps around; otherwise `readi` reads to the end of the
  file.

  Main declarations:
    * `readi_within`
    * `fileread_bounded_iff`
-/

namespace Xv6.Fs

/- The destination without the bytes from `b` on. -/
def Dst.within (dst : Dst) (b : Nat) : Dst := fun tot m => dst tot m && decide (tot + m ≤ b)

/-
  The call copies no byte past the first `n`, returns at most
  `n`, and moves the offset by the bytes it returns. A
  negative count stands for none.
-/
def ReadsAtMost (sb : Superblock) (inum : Nat) (s : Sharing.State) (p c : Nat) (dst : Dst) (n : Int) :
    Prop :=
  ∃ r s', Sharing.readSection sb inum s p c dst n = some s' ∧
      Sharing.readSection sb inum s p c (dst.within n.toNat) n = some s' ∧
      s'.returned = s.returned ++ [(c, r)] ∧ r ≤ max n 0 ∧
      (s'.off.toNat : Int) = s.off.toNat + max r 0

section

variable {sb : Superblock} {dst : Dst} {b : Nat}

theorem readLoop_within {fuel tot off n : Nat} (hn : n ≤ b) :
    readLoop sb (dst.within b) fuel tot off n = readLoop sb dst fuel tot off n := by
  induction fuel generalizing tot off with
  | zero => rfl
  | succ fuel ih =>
    have hCopy : dst.within b tot (min (n - tot) (BSIZE - off % BSIZE)) =
        (dst tot (min (n - tot) (BSIZE - off % BSIZE)) &&
          decide (tot + min (n - tot) (BSIZE - off % BSIZE) ≤ b)) :=
      rfl
    unfold readLoop
    by_cases hMore : tot < n
    · rw [if_pos hMore, if_pos hMore]
      rw [decide_eq_true (by omega), Bool.and_true] at hCopy
      refine bind_congr (fun addr => ?_)
      by_cases hAddr : addr = 0
      · rw [if_pos hAddr, if_pos hAddr]
      · rw [if_neg hAddr, if_neg hAddr]
        refine bind_congr (fun s => ?_)
        dsimp only
        rw [hCopy, ih]
    · rw [if_neg hMore, if_neg hMore]

/- The bytes that `readi` asks for. -/
def asked (size off n : UInt32) : Nat :=
  if off > size ∨ off + n < off then 0
  else (if off + n > size then size - off else n).toNat

theorem refused_iff {size off n : UInt32} :
    off > size ∨ off + n < off ↔ size.toNat < off.toNat ∨ 2 ^ 32 ≤ off.toNat + n.toNat := by
  rw [add_lt_iff_wrap, gt_iff_lt, UInt32.lt_iff_toNat_lt]

theorem asked_eq {size off n : UInt32} :
    asked size off n =
      if size.toNat < off.toNat ∨ 2 ^ 32 ≤ off.toNat + n.toNat then 0
      else min n.toNat (size.toNat - off.toNat) := by
  unfold asked
  rw [if_congr refused_iff rfl rfl]
  split
  · rfl
  rename_i hIn
  have hSum : (off + n).toNat = off.toNat + n.toNat := by
    rw [UInt32.toNat_add]
    exact Nat.mod_eq_of_lt (by omega)
  split
  · rename_i hPast
    rw [gt_iff_lt, UInt32.lt_iff_toNat_lt, hSum] at hPast
    rw [UInt32.toNat_sub_of_le _ _ (UInt32.le_iff_toNat_le.mpr (by omega))]
    omega
  · rename_i hPast
    rw [gt_iff_lt, UInt32.lt_iff_toNat_lt, hSum] at hPast
    omega

theorem readi_within {off n : UInt32} {s : Ip} (hAsked : asked s.ip.size off n ≤ b) :
    readi sb (dst.within b) off n s = readi sb dst off n s := by
  unfold asked at hAsked
  show (if off > s.ip.size ∨ off + n < off then pure (0, [])
    else _ : IpM (Int × List UInt8)) s = (if off > s.ip.size ∨ off + n < off then pure (0, [])
    else _ : IpM (Int × List UInt8)) s
  split
  · rfl
  · rename_i hIn
    rw [if_neg hIn] at hAsked
    rw [readLoop_within hAsked]

theorem length_readData {disk : Disk} {d : Dinode} {off n : UInt32} :
    (readData disk d off n).length = asked d.size off n := by
  rw [asked_eq]
  unfold readData
  rw [if_congr refused_iff rfl rfl]
  split
  · rfl
  · rw [List.length_take, List.length_drop, length_contents]

theorem readSection_ok {inum p c : Nat} {s : Sharing.State} {n : Int} {r : Int × List UInt8}
    {t : Ip} (h : readi sb dst s.off (UInt32.ofInt n) ⟨s.disk, inum, s.ip⟩ = .ok (r, t)) :
    ∃ s', Sharing.readSection sb inum s p c dst n = some s' ∧
      s'.returned = s.returned ++ [(c, r.1)] ∧ s'.off = Sharing.moveOff s.off r.1 := by
  unfold Sharing.readSection
  rw [h]
  exact ⟨_, rfl, rfl, rfl⟩

end

/-
  A read of a file that is open for reading keeps to its
  count if and only if the count is not negative, or there is
  nothing to read, or the count as an unsigned number wraps
  around. Other files are refused before.
-/
theorem fileread_bounded_iff
    (sb : Superblock)
    (f : Nat → Dinode)
    (inum : Nat)
    (s : Sharing.State)
    (p c : Nat)
    (n : Int32)
    (hLayout : Layout sb)
    (h : Consistent sb s.disk f)
    (hi : Alive sb f inum)
    (hIp : s.ip = f inum) :
    (∀ dst, ReadsAtMost sb inum s p c dst n.toInt) ↔
      0 ≤ n.toInt ∨
      s.ip.size ≤ s.off ∨
      2 ^ 32 ≤ s.off.toNat + (UInt32.ofInt n.toInt).toNat := by
  generalize hm : UInt32.ofInt n.toInt = m
  have hCount : (m.toNat : Int) = n.toInt % 2 ^ 32 := by
    rw [← hm]
    unfold UInt32.ofInt
    rw [UInt32.toNat_ofNat']
    omega
  have hLow := n.le_toInt
  have hHigh := n.toInt_lt
  have hSize := s.ip.size.toNat_lt
  have hAsked := @asked_eq s.ip.size s.off m
  have hLocked := h.locked hi
  have hFree := h.holeFree inum hi
  rw [← hIp] at hLocked hFree
  have hRead : ∀ dst, ∃ r, readi sb dst s.off m ⟨s.disk, inum, s.ip⟩ =
        .ok (r, ⟨s.disk, inum, s.ip⟩) ∧ (r.1 = -1 ∨ r.1 = asked s.ip.size s.off m) ∧
      ((∀ t k, dst t k = true) → r.1 = asked s.ip.size s.off m) := by
    intro dst
    have hMapped : MappedTo s.disk s.ip (min (s.off.toNat + m.toNat) s.ip.size.toNat) :=
      hFree.mono (Nat.min_le_right _ _)
    have hRun := wp_readi hLayout hLocked dst hMapped
    rcases Prog.exists_ok_of_wp hRun with ⟨r, t, hOk, rfl, hResult, hAll⟩
    have hLen : (readResult s.disk s.ip s.off m).1 = asked s.ip.size s.off m :=
      congrArg Nat.cast length_readData
    refine ⟨r, hOk, ?_, fun hTrue => by rw [hAll hTrue, hLen]⟩
    rcases hResult with rfl | rfl
    · exact .inl rfl
    · exact .inr hLen
  constructor
  · intro hAll
    by_contra hNot
    rw [not_or, not_or, UInt32.le_iff_toNat_le] at hNot
    rcases hRead (fun _ _ => true) with ⟨r, hOk, _, hTrue⟩
    rcases hAll (fun _ _ => true) with ⟨r', s', hRun, _, hReturned, hLe, _⟩
    rcases readSection_ok (p := p) (c := c) (hm ▸ hOk) with ⟨t, hRun', hReturned', _⟩
    rw [hRun, Option.some.injEq] at hRun'
    subst hRun'
    rw [hReturned, List.append_cancel_left_eq] at hReturned'
    have hSame : r' = r.1 := by simpa using hReturned'
    rw [hSame, hTrue (fun _ _ => rfl), hAsked, if_neg (by omega)] at hLe
    omega
  · intro hCond dst
    rw [UInt32.le_iff_toNat_le] at hCond
    rcases hRead dst with ⟨r, hOk, hResult, _⟩
    rcases readSection_ok (p := p) (c := c) (hm ▸ hOk) with ⟨s', hRun, hReturned, hOff⟩
    have hLe : asked s.ip.size s.off m ≤ n.toInt.toNat ∧
        s.off.toNat + asked s.ip.size s.off m < 2 ^ 32 := by
      have hLt := s.off.toNat_lt
      rw [hAsked]
      split <;> omega
    refine ⟨r.1, s', hRun, ?_, hReturned, by omega, ?_⟩
    · rw [← hRun]
      unfold Sharing.readSection
      rw [hm, readi_within hLe.1]
    · rw [hOff]
      unfold Sharing.moveOff
      split
      · rw [UInt32.toNat_add, UInt32.toNat_ofNat']
        omega
      · omega

theorem fourBytes_consistent :
    Consistent smallSuperblock fourBytes.disk (Function.update smallInodes 1 fourBytes.ip) :=
  (Prog.wp_of_eq_ok (writei_refines small_layout small_consistent (by decide) _ 0 4)
    writei_fourBytes).refined.consistent

/- A read of two of the four bytes of a file. -/
theorem fileread_bounded_small :
    ReadsAtMost smallSuperblock 1 (.init fourBytes.disk fourBytes.ip 0) 0 0 Dst.kernel 2 :=
  (fileread_bounded_iff smallSuperblock _ 1 (.init fourBytes.disk fourBytes.ip 0) 0 0 2
    small_layout fourBytes_consistent ⟨by decide, by decide +kernel⟩
    (Function.update_self 1 fourBytes.ip smallInodes).symm).mpr (.inl (by decide)) Dst.kernel

/- A read of -1 bytes returns all four bytes of a file. -/
theorem fileread_negative :
    ¬ ReadsAtMost smallSuperblock 1 (.init fourBytes.disk fourBytes.ip 0) 0 0 Dst.kernel (-1) := by
  rintro ⟨r, s', hRun, _, hReturned, hLe, _⟩
  have hFour : (Sharing.readSection smallSuperblock 1
      (.init fourBytes.disk fourBytes.ip 0) 0 0 Dst.kernel
      (-1)).map (fun s => s.returned) = some [(0, 4)] := by
    decide +kernel
  rw [hRun, Option.map_some, hReturned] at hFour
  have hr : r = 4 := by simpa [Sharing.State.init] using hFour
  omega

end Xv6.Fs

import Mathlib.Data.List.GetD
import Xv6.Fs.Contents

/-
  Writing through the block map.

  `writei` writes the blocks of a range one after another,
  mapping those that are missing, and then updates the inode.
  What it wrote reads back, the other bytes stay, and so do
  the other inodes. It may stop early: no block is left, or a
  copy from the source fails.
  The rules used by name are:
    * `wp_writeLoop`
    * `wp_writei`

  Main declarations:
    * `contents_refine`
-/

namespace Xv6.Fs

open Function (update update_self update_of_ne update_eq_self)

open Prog

variable {f : Nat → Dinode} {s s' : Ip}

section

variable {sb : Superblock}

---- Writing A Block

section

variable (h : Locked sb f s)
include h

theorem Locked.slot_write {k : Nat} (hk : k < SLOTS) (hNe : k ≠ NDIRECT)
    (hSlot : slot s.disk s.ip k ≠ 0) (v : Block) (l : Nat) :
    slot (s.disk.write (slot s.disk s.ip k) v) s.ip l = slot s.disk s.ip l := by
  apply slot_congr
  · exact fun _ => rfl
  · intro _
    apply Disk.write_other
    intro hEq
    rw [← slot_pointer s.disk] at hEq
    exact hNe (h.once hk (by decide) hSlot hEq.symm)

theorem Locked.others_write (hLayout : Layout sb) {k : Nat} (hk : k < SLOTS)
    (hSlot : slot s.disk s.ip k ≠ 0) (v : Block) :
    Others sb f s.inum s.disk (s.disk.write (slot s.disk s.ip k) v) := by
  rcases h.range hk hSlot with ⟨hLo, hHi⟩
  refine ⟨?_, ?_⟩
  · intro j hj _
    exact hLayout.dinode_write _ hLo hHi hj v
  · intro j l hj hNe hl _
    exact Disk.write_other _ _ (h.apart hj hNe hk hl hSlot)

theorem Locked.write (hLayout : Layout sb) {k : Nat} (hk : k < SLOTS) (hNe : k ≠ NDIRECT)
    (hSlot : slot s.disk s.ip k ≠ 0) (v : Block) :
    Locked sb f { s with disk := s.disk.write (slot s.disk s.ip k) v } := by
  have hOthers := h.others_write hLayout hk hSlot v
  refine ⟨h.inum, h.type, ?_⟩
  apply Exact.congr h.owned
  · rintro ⟨j, l⟩
    unfold owns
    split
    · rename_i hAlive
      by_cases hj : j = s.inum
      · dsimp only
        rw [hj, update_self]
        exact h.slot_write hk hNe hSlot v l
      · dsimp only
        rw [update_of_ne hj]
        exact hOthers.slot ((alive_update_of_ne hj).mp hAlive.1) hj l
    · rfl
  · intro c hc
    exact hLayout.bit_write _ (h.range hk hSlot).1 hc v

theorem Locked.byteAt_write {bn o : Nat} (hbn : bn < MAXFILE)
    (hSlot : slot s.disk s.ip (slotOf bn) ≠ 0) (v : Block) (ho : o / BSIZE < MAXFILE) :
    byteAt (s.disk.write (slot s.disk s.ip (slotOf bn)) v) s.ip o =
      if o / BSIZE = bn then v.get (o % BSIZE)
      else byteAt s.disk s.ip o := by
  unfold byteAt
  rw [h.slot_write (slotOf_lt hbn) (slotOf_ne_NDIRECT bn) hSlot]
  by_cases hEq : o / BSIZE = bn
  · rw [if_pos hEq, hEq, Disk.write_same]
  · rw [if_neg hEq, Disk.write_other]
    intro hBlock
    have hIndex := h.once (slotOf_lt hbn) (slotOf_lt ho) hSlot hBlock.symm
    exact hEq (slotOf_inj hIndex).symm

end

---- Writing

/-
  The bytes from `off` on are written from `src`, from byte
  `tot` on, up to `off'`. A copy that failed may have changed
  bytes after that, among those in `broken`.
-/
structure Writes (sb : Superblock) (f : Nat → Dinode) (src : Src) (tot off : Nat)
    (broken : Nat → Prop) (s : Ip) (tot' off' : Nat) (s' : Ip) : Prop where
  locked : Locked sb f s'
  others : Others sb f s.inum s.disk s'.disk
  inum : s'.inum = s.inum
  fields : ∃ addrs, s'.ip = { s.ip with addrs := addrs }
  dinode : dinode sb s'.disk s.inum = dinode sb s.disk s.inum
  le : tot ≤ tot'
  reached : off' = off + (tot' - tot)
  slots : ∀ k, k < SLOTS → slot s.disk s.ip k ≠ 0 → slot s'.disk s'.ip k = slot s.disk s.ip k
  mapped : ∀ o, off ≤ o → MappedTo s.disk s.ip o → MappedTo s'.disk s'.ip (max o off')
  covered :
    ∀ o, off ≤ o → o < off' → o / BSIZE < MAXFILE ∧ slot s'.disk s'.ip (slotOf (o / BSIZE)) ≠ 0
  written : ∀ o, off ≤ o → o < off' → byteAt s'.disk s'.ip o = src.byte (tot + (o - off))
  kept : ∀ o, o < off ∨ off' ≤ o → o / BSIZE < MAXFILE → slot s.disk s.ip (slotOf (o / BSIZE)) ≠ 0 →
    byteAt s'.disk s'.ip o = byteAt s.disk s.ip o ∨
      off' ≤ o ∧ broken o ∧ byteAt s'.disk s'.ip o = src.byte (tot + (o - off))

theorem Writes.refl {src : Src} {tot off : Nat} {broken : Nat → Prop} (h : Locked sb f s) :
    Writes sb f src tot off broken s tot off s where
  locked := h
  others := Others.refl
  inum := rfl
  fields := ⟨_, rfl⟩
  dinode := rfl
  le := Nat.le_refl tot
  reached := by omega
  slots _ _ _ := rfl
  mapped o hLe hMapped := by
    rw [Nat.max_eq_left hLe]
    exact hMapped
  covered o hLe hLt := by omega
  written o hLe hLt := by omega
  kept _ _ _ _ := Or.inl rfl

theorem MappedTo.grows {o : Nat} (h : MappedTo s.disk s.ip o) (hGrows : Grows sb s s') :
    MappedTo s'.disk s'.ip o := by
  intro bn hbn
  rcases h bn hbn with ⟨hLt, hSlot⟩
  refine ⟨hLt, ?_⟩
  rw [hGrows.slots _ (slotOf_lt hLt) hSlot]
  exact hSlot

theorem Grows.byteAt (h : Grows sb s s') {o : Nat} (ho : o / BSIZE < MAXFILE)
    (hSlot : slot s.disk s.ip (slotOf (o / BSIZE)) ≠ 0) :
    byteAt s'.disk s'.ip o = byteAt s.disk s.ip o := by
  unfold Fs.byteAt
  rw [h.slots _ (slotOf_lt ho) hSlot, h.data _ (slotOf_lt ho) (slotOf_ne_NDIRECT _) hSlot]

theorem Src.length_bytes (src : Src) (tot m : Nat) : (src.bytes tot m).length = m := by
  unfold Src.bytes
  rw [List.length_map, List.length_range]

theorem bytes_kernel {data p : List UInt8} {tot m : Nat} (hp : p = data.drop tot) (hm : m ≤ p.length) :
    (Src.kernel data).bytes tot m = p.take m := by
  rw [hp, List.length_drop] at hm
  apply List.ext_getElem
  · rw [Src.length_bytes, hp, List.length_take, List.length_drop]
    omega
  · intro i hi hi'
    rw [Src.length_bytes] at hi
    have hLt : tot + i < data.length := by omega
    simp [Src.bytes, Src.kernel, hp, hLt]

theorem div_eq_of_chunk {off l o : Nat} (hl : l ≤ BSIZE - off % BSIZE) (hLe : off ≤ o)
    (hLt : o < off + l) : o / BSIZE = off / BSIZE := by
  unfold BSIZE at *
  omega

/- One block gets `l` bytes of the source from `off` on. -/
theorem Locked.byteAt_chunk (h : Locked sb f s) (src : Src) {tot off l o : Nat}
    (hbn : off / BSIZE < MAXFILE) (hSlot : slot s.disk s.ip (slotOf (off / BSIZE)) ≠ 0)
    (hl : l ≤ BSIZE - off % BSIZE) (ho : o / BSIZE < MAXFILE) :
    byteAt (s.disk.write (slot s.disk s.ip (slotOf (off / BSIZE)))
          ((s.disk (slot s.disk s.ip (slotOf (off / BSIZE)))).put (off % BSIZE) (src.bytes tot l)))
        s.ip o =
      if off ≤ o ∧ o < off + l then src.byte (tot + (o - off))
      else byteAt s.disk s.ip o := by
  rw [h.byteAt_write hbn hSlot _ ho]
  have hMod := Nat.mod_lt o (show 0 < BSIZE by decide)
  have hMod' := Nat.mod_lt off (show 0 < BSIZE by decide)
  have hDiv := Nat.div_add_mod o BSIZE
  have hDiv' := Nat.div_add_mod off BSIZE
  by_cases hEq : o / BSIZE = off / BSIZE
  · rw [hEq] at hDiv
    rw [if_pos hEq, Bytes.get_put _ _ _ _ hMod, Src.length_bytes]
    by_cases hIn : off ≤ o ∧ o < off + l
    · have hIndex : o % BSIZE - off % BSIZE = o - off := by omega
      rw [if_pos (by omega), if_pos hIn, hIndex]
      unfold Src.bytes
      rw [List.getD_eq_getElem _ _ (by simp; omega)]
      simp
    · rw [if_neg (by omega), if_neg hIn]
      unfold byteAt
      rw [hEq]
  · rw [if_neg hEq, if_neg]
    intro hIn
    exact hEq (div_eq_of_chunk hl hIn.1 hIn.2)

/- The state after a copy of `l` bytes to a mapped block. -/
def chunk (src : Src) (tot off l : Nat) (s : Ip) : Ip :=
  { s with
    disk :=
      s.disk.write (slot s.disk s.ip (slotOf (off / BSIZE)))
        ((s.disk (slot s.disk s.ip (slotOf (off / BSIZE)))).put (off % BSIZE) (src.bytes tot l)) }

section

variable {src : Src} {tot off n l : Nat} {broken : Nat → Prop}

/- A block is mapped and gets `l` bytes; `m` of them count, all or none. -/
theorem Maps.chunk (hLayout : Layout sb) (h : Maps sb f s s') (hbn : off / BSIZE < MAXFILE)
    (hSlot : slot s'.disk s'.ip (slotOf (off / BSIZE)) ≠ 0) (hl : l ≤ BSIZE - off % BSIZE) {m : Nat}
    (hm : m = l ∨ m = 0 ∧ ∀ o, o < off + l → broken o) :
    Writes sb f src tot off broken s (tot + m) (off + m) (chunk src tot off l s') := by
  have hLocked := h.locked
  have hk := slotOf_lt hbn
  have hNe := slotOf_ne_NDIRECT (off / BSIZE)
  have hSame :=
    hLocked.slot_write hk hNe hSlot
      ((s'.disk (slot s'.disk s'.ip (slotOf (off / BSIZE)))).put (off % BSIZE) (src.bytes tot l))
  have hByte : ∀ o, o / BSIZE < MAXFILE → byteAt (Fs.chunk src tot off l s').disk s'.ip o =
      if off ≤ o ∧ o < off + l then
        src.byte (tot + (o - off))
      else
        byteAt s'.disk s'.ip o :=
    fun o ho => hLocked.byteAt_chunk src hbn hSlot hl ho
  have hRange := hLocked.range hk hSlot
  refine ⟨hLocked.write hLayout hk hNe hSlot _, ?_,
    h.grows.inum, h.grows.fields, ?_, by omega, by omega, ?_, ?_, ?_, ?_, ?_⟩
  · have hOthers := hLocked.others_write hLayout hk hSlot
      ((s'.disk (slot s'.disk s'.ip (slotOf (off / BSIZE)))).put (off % BSIZE) (src.bytes tot l))
    rw [h.grows.inum] at hOthers
    exact h.others.trans hOthers
  · have hInum := hLocked.inum
    rw [h.grows.inum] at hInum
    unfold Fs.chunk
    rw [hLayout.dinode_write _ hRange.1 hRange.2 hInum]
    exact h.grows.dinode
  · intro k hk' hOld
    unfold Fs.chunk
    rw [hSame, h.grows.slots k hk' hOld]
  · intro o hLe hMapped bn hLt
    unfold Fs.chunk
    rw [hSame]
    by_cases hEq : bn = off / BSIZE
    · rw [hEq]
      exact ⟨hbn, hSlot⟩
    apply hMapped.grows h.grows
    have hMod := Nat.mod_lt off (show 0 < BSIZE by decide)
    have hDiv := Nat.div_add_mod off BSIZE
    by_cases hLess : bn < off / BSIZE
    · have hMul : bn * BSIZE ≤ (off / BSIZE) * BSIZE :=
        Nat.mul_le_mul_right _ (Nat.le_of_lt hLess)
      have hStrict : bn * BSIZE < (off / BSIZE) * BSIZE :=
        Nat.mul_lt_mul_of_pos_right hLess (by decide)
      rw [Nat.mul_comm BSIZE] at hDiv
      omega
    · have hMul : (off / BSIZE + 1) * BSIZE ≤ bn * BSIZE :=
        Nat.mul_le_mul_right _ (by omega)
      rw [Nat.add_mul, Nat.one_mul] at hMul
      rw [Nat.mul_comm BSIZE] at hDiv
      omega
  · intro o hLe hLt
    unfold Fs.chunk
    rw [hSame, div_eq_of_chunk hl hLe (by omega)]
    exact ⟨hbn, hSlot⟩
  · intro o hLe hLt
    have ho : o / BSIZE < MAXFILE := by
      rw [div_eq_of_chunk hl hLe (by omega)]
      exact hbn
    refine (hByte o ho).trans ?_
    rw [if_pos (by omega)]
  · intro o hOut ho hOld
    have hNew := hByte o ho
    by_cases hIn : off ≤ o ∧ o < off + l
    · right
      rw [if_pos hIn] at hNew
      rcases hm with hAll | ⟨hZero, hBroken⟩
      · omega
      · exact ⟨by omega, hBroken o hIn.2, hNew⟩
    · left
      rw [if_neg hIn] at hNew
      exact hNew.trans (h.grows.byteAt ho hOld)

theorem Maps.writes (h : Maps sb f s s') : Writes sb f src tot off broken s tot off s' where
  locked := h.locked
  others := h.others
  inum := h.grows.inum
  fields := h.grows.fields
  dinode := h.grows.dinode
  le := Nat.le_refl tot
  reached := by omega
  slots := h.grows.slots
  mapped o hLe hMapped := by
    rw [Nat.max_eq_left hLe]
    exact hMapped.grows h.grows
  covered o hLe hLt := by omega
  written o hLe hLt := by omega
  kept o _ ho hOld := Or.inl (h.grows.byteAt ho hOld)

theorem Writes.mono {tot' off' : Nat} {broken' : Nat → Prop}
    (h : Writes sb f src tot off broken s tot' off' s') (hMono : ∀ o, broken o → broken' o) :
    Writes sb f src tot off broken' s tot' off' s' := by
  refine ⟨h.locked, h.others, h.inum, h.fields, h.dinode, h.le,
    h.reached, h.slots, h.mapped, h.covered, h.written, ?_⟩
  intro o hOut ho hOld
  rcases h.kept o hOut ho hOld with hSame | ⟨hAfter, hBroken, hByte⟩
  · exact Or.inl hSame
  · exact Or.inr ⟨hAfter, hMono o hBroken, hByte⟩

theorem Writes.trans {tot' off' tot'' off'' : Nat} {s'' : Ip}
    (h : Writes sb f src tot off (fun _ => False) s tot' off' s')
    (hNext : Writes sb f src tot' off' broken s' tot'' off'' s'') :
    Writes sb f src tot off broken s tot'' off'' s'' := by
  have hLe := h.le
  have hLe' := hNext.le
  have hReached := h.reached
  have hReached' := hNext.reached
  have hSlots : ∀ k, k < SLOTS → slot s.disk s.ip k ≠ 0 → slot s'.disk s'.ip k ≠ 0 := by
    intro k hk hOld
    rw [h.slots k hk hOld]
    exact hOld
  have hKept :
      ∀ o, o < off ∨ off' ≤ o → o / BSIZE < MAXFILE → slot s.disk s.ip (slotOf (o / BSIZE)) ≠ 0 →
        byteAt s'.disk s'.ip o = byteAt s.disk s.ip o := by
    intro o hOut ho hOld
    rcases h.kept o hOut ho hOld with hSame | ⟨_, hBroken, _⟩
    · exact hSame
    · exact hBroken.elim
  rcases h.fields with ⟨addrs, hFields⟩
  rcases hNext.fields with ⟨addrs', hFields'⟩
  have hOthers := hNext.others
  rw [h.inum] at hOthers
  have hDinode := hNext.dinode
  rw [h.inum] at hDinode
  refine ⟨hNext.locked, h.others.trans hOthers, hNext.inum.trans h.inum, ⟨addrs', ?_⟩,
    hDinode.trans h.dinode, by omega, by omega, ?_, ?_, ?_, ?_, ?_⟩
  · rw [hFields', hFields]
  · intro k hk hOld
    rw [hNext.slots k hk (hSlots k hk hOld), h.slots k hk hOld]
  · intro o hOff hMapped
    have hFirst := h.mapped o hOff hMapped
    have hSecond := hNext.mapped _ (by omega) hFirst
    exact hSecond.mono (by omega)
  · intro o hOff hLt
    by_cases hIn : off' ≤ o
    · exact hNext.covered o hIn hLt
    · rcases h.covered o hOff (by omega) with ⟨ho, hSlot⟩
      refine ⟨ho, ?_⟩
      rw [hNext.slots _ (slotOf_lt ho) hSlot]
      exact hSlot
  · intro o hOff hLt
    by_cases hIn : off' ≤ o
    · rw [hNext.written o hIn hLt]
      congr 1
      omega
    · rcases h.covered o hOff (by omega) with ⟨ho, hSlot⟩
      rcases hNext.kept o (by omega) ho hSlot with hSame | ⟨hAfter, _⟩
      · rw [hSame]
        exact h.written o hOff (by omega)
      · omega
  · intro o hOut ho hOld
    have hNew := hSlots _ (slotOf_lt ho) hOld
    rcases hNext.kept o (by omega) ho hNew with hSame | ⟨hAfter, hBroken, hByte⟩
    · left
      rw [hSame]
      exact hKept o (by omega) ho hOld
    · right
      refine ⟨hAfter, hBroken, ?_⟩
      rw [hByte]
      congr 1
      omega

/- No copy from the source fails. -/
def Src.Total (src : Src) : Prop := ∀ tot m, src.fails tot m = none

/- The bytes a failed copy may have changed: those of the data that were not counted. -/
def Broken (src : Src) (n last tot : Nat) (o : Nat) : Prop := tot < n ∧ ¬ src.Total ∧ o < last

section

variable {α : Type} {Q : α → Ip → Prop} {E : Panic → Prop} {bad : α}

/- A round of the loop: the disk is full, or the byte at `off` has a block. -/
theorem wp_mapped {k : Nat → IpM α} (hLayout : Layout sb) (h : Locked sb f s)
    (hEnd : off < MAXFILE * BSIZE)
    (hFull : ∀ s₁, Maps sb f s s₁ → slot s.disk s.ip (slotOf (off / BSIZE)) = 0 → Q bad s₁)
    (hBlock : ∀ s₁, Maps sb f s s₁ → off / BSIZE < MAXFILE →
      slot s₁.disk s₁.ip (slotOf (off / BSIZE)) ≠ 0 →
      wp (k (slot s₁.disk s₁.ip (slotOf (off / BSIZE)))) Q E s₁) :
    wp (do
      let addr ← bmap sb (off / BSIZE)
      if addr = 0 then pure bad else k addr) Q E s := by
  have hbn : off / BSIZE < MAXFILE := Nat.div_lt_of_lt_mul (by rwa [Nat.mul_comm])
  rw [wp_bind]
  refine wp_post (wp_bmap hLayout h hbn) ?_
  rintro addr s₁ ⟨hMaps, hAddr, hSame⟩
  rw [wp_ite]
  refine ⟨fun hZero => ?_, fun hNe => ?_⟩
  · rw [wp_pure]
    exact hFull s₁ hMaps (by_contra fun hSlot => (hSame hSlot).2 hZero)
  · have hSlot := hAddr hNe
    subst hSlot
    exact hBlock s₁ hMaps hbn hNe

/- The tests at the start of `writei`. -/
theorem wp_accepted {k : IpM α} {off n : UInt32}
    (hOut : off > s.ip.size ∨ MAXFILE * BSIZE < off.toNat + n.toNat → Q bad s)
    (hIn : off.toNat ≤ s.ip.size.toNat → off.toNat + n.toNat ≤ MAXFILE * BSIZE → wp k Q E s) :
    wp (if off > s.ip.size ∨ off + n < off then pure bad
      else if (off + n).toNat > MAXFILE * BSIZE then pure bad
      else k) Q E s := by
  have hLarge : MAXFILE * BSIZE < 2 ^ 32 := by decide
  rw [wp_ite]
  refine ⟨fun hRefused => ?_, fun hGiven => ?_⟩
  · rw [wp_pure]
    rw [add_lt_iff_wrap] at hRefused
    exact hOut (hRefused.imp_right (by omega))
  rw [gt_iff_lt, UInt32.lt_iff_toNat_lt, not_or] at hGiven
  rw [toNat_add_of_not_wrap hGiven.2, wp_ite]
  refine ⟨fun hPast => ?_, fun hFits => hIn (by omega) (by omega)⟩
  rw [wp_pure]
  exact hOut (.inr hPast)

end

theorem wp_writeLoop (hLayout : Layout sb) (h : Locked sb f s) {fuel : Nat} {last : Nat}
    (hFuel : n ≤ tot + fuel) (hLe : tot ≤ n) (hLast : last = off + (n - tot))
    (hEnd : last ≤ MAXFILE * BSIZE) :
    wp (writeLoop sb src fuel tot off n) (fun r s' =>
      Writes sb f src tot off (Broken src n last r.1) s r.1 r.2 s' ∧
        r.1 ≤ n ∧ (n - tot ≤ BSIZE - off % BSIZE → r.1 = tot ∨ r.1 = n) ∧
        (src.Total → MappedTo s.disk s.ip last → r.1 = n)) (fun _ => False) s := by
  induction fuel generalizing tot off s with
  | zero =>
    unfold writeLoop
    rw [wp_pure]
    have hEq : tot = n := by omega
    exact ⟨Writes.refl h, hLe, fun _ => Or.inl rfl, fun _ _ => hEq⟩
  | succ fuel ih =>
    unfold writeLoop
    rw [wp_ite]
    constructor
    · intro hLt
      refine wp_mapped hLayout h (by omega) ?_ ?_
      · intro s₁ hMaps hZero
        refine ⟨hMaps.writes, hLe, fun _ => Or.inl rfl, ?_⟩
        intro _ hMapped
        exact absurd hZero (hMapped.at (show off < last by omega)).2
      intro s₁ hMaps hbn hSlot
      dsimp only
      generalize hm : min (n - tot) (BSIZE - off % BSIZE) = m
      have hPos : 0 < m := by
        have hMod := Nat.mod_lt off (show 0 < BSIZE by decide)
        omega
      cases hFails : src.fails tot m with
      | some k =>
        have hNot : ¬ src.Total := by
          intro hTotal
          rw [hTotal tot m] at hFails
          cases hFails
        dsimp only
        rw [wp_bind, wp_setDisk, wp_pure]
        refine ⟨?_, hLe, fun _ => Or.inl rfl, fun hTotal => absurd hTotal hNot⟩
        exact hMaps.chunk hLayout hbn hSlot (by omega) (Or.inr ⟨rfl, fun o ho =>
            ⟨hLt, hNot, by omega⟩⟩)
      | none =>
        have hChunk : Writes sb f src tot off (fun _ => False) s (tot + m) (off + m)
            (chunk src tot off m s₁) :=
          hMaps.chunk hLayout hbn hSlot (by omega) (Or.inl rfl)
        dsimp only
        rw [wp_bind, wp_setDisk]
        refine wp_post (ih hChunk.locked (by omega) (by omega) (by omega)) ?_
        rintro r s' ⟨hRest, hRestLe, _, hFull⟩
        refine ⟨hChunk.trans hRest, hRestLe, ?_, ?_⟩
        · intro hOne
          right
          have hMore := hRest.le
          omega
        · intro hTotal hMapped
          apply hFull hTotal
          have hKept := hChunk.mapped _ (by omega) hMapped
          exact hKept.mono (by omega)
    · intro hDone
      rw [wp_pure]
      have hEq : tot = n := by omega
      exact ⟨Writes.refl h, hLe, fun _ => Or.inl rfl, fun _ _ => hEq⟩

/- What `writei` does when it accepts the offset. -/
structure Wrote (sb : Superblock) (f : Nat → Dinode) (src : Src) (off n tot : Nat) (s s' : Ip) :
    Prop where
  locked : Locked sb f s'
  others : Others sb f s.inum s.disk s'.disk
  inum : s'.inum = s.inum
  fields : ∃ addrs size,
    s'.ip = { s.ip with size := size, addrs := addrs }
  size : s'.ip.size.toNat = max s.ip.size.toNat (off + tot)
  updated : dinode sb s'.disk s.inum = s'.ip
  holeFree : HoleFree s.disk s.ip → HoleFree s'.disk s'.ip
  le : tot ≤ n
  single : n ≤ BSIZE - off % BSIZE → tot = 0 ∨ tot = n
  full : src.Total → MappedTo s.disk s.ip (off + n) → tot = n
  written : ∀ o, off ≤ o → o < off + tot → byteAt s'.disk s'.ip o = src.byte (o - off)
  kept :
    ∀ o, o < off ∨ off + tot ≤ o → o / BSIZE < MAXFILE → slot s.disk s.ip (slotOf (o / BSIZE)) ≠ 0 →
      byteAt s'.disk s'.ip o = byteAt s.disk s.ip o ∨
        off + tot ≤ o ∧ Broken src n (off + n) tot o ∧
          byteAt s'.disk s'.ip o = src.byte (o - off)

theorem Writes.wrote (hLayout : Layout sb) {s₁ : Ip} {off' tot' : Nat}
    (h : Writes sb f src 0 off (Broken src n (off + n) tot') s tot' off' s₁)
    (hOff : off ≤ s.ip.size.toNat) (hLe : tot' ≤ n)
    (hSingle : n ≤ BSIZE - off % BSIZE → tot' = 0 ∨ tot' = n)
    (hFull : src.Total → MappedTo s.disk s.ip (off + n) → tot' = n) {d : Dinode}
    (hFields : ∃ size, d = { s₁.ip with size := size })
    (hSize : d.size.toNat = max s.ip.size.toNat off') :
    Wrote sb f src off n tot' s (s₁.update sb d) := by
  rcases hFields with ⟨size, hd⟩
  rcases h.fields with ⟨addrs, hIp⟩
  have hType : d.type ≠ 0 := by
    rw [hd]
    exact h.locked.type
  have hAddrs : ∀ k, d.addr k = s₁.ip.addr k := by
    intro k
    rw [hd]
    rfl
  have hUpdates := h.locked.update hLayout hType hAddrs
  have hReached : off' = off + tot' := by
    have := h.reached
    omega
  have hOthers := hUpdates.others
  rw [h.inum] at hOthers
  have hSlots : ∀ o, o / BSIZE < MAXFILE → slot s.disk s.ip (slotOf (o / BSIZE)) ≠ 0 →
      slot s₁.disk s₁.ip (slotOf (o / BSIZE)) ≠ 0 := by
    intro o ho hOld
    rw [h.slots _ (slotOf_lt ho) hOld]
    exact hOld
  rw [hReached] at hSize
  refine ⟨hUpdates.locked, h.others.trans hOthers, h.inum,
    ⟨addrs, size, ?_⟩, hSize, ?_, ?_, hLe, hSingle, hFull, ?_, ?_⟩
  · change d = _
    rw [hd, hIp]
  · rw [← h.inum]
    exact dinode_putDinode_same ..
  · intro hFree
    have hMapped := h.mapped _ hOff hFree
    have hAfter := hUpdates.mapped hMapped
    rw [hReached, ← hSize] at hAfter
    exact hAfter
  · intro o hLow hHigh
    rcases h.covered o hLow (by omega) with ⟨ho, hSlot⟩
    rw [hUpdates.byteAt ho hSlot, h.written o hLow (by omega), Nat.zero_add]
  · intro o hOut ho hOld
    rw [hUpdates.byteAt ho (hSlots o ho hOld)]
    have hKept := h.kept o (by omega) ho hOld
    rw [hReached, Nat.zero_add] at hKept
    exact hKept

/-
  `writei` refuses the offset and changes nothing, or writes a
  number of bytes and updates the inode.
-/
theorem wp_writei (hLayout : Layout sb) (h : Locked sb f s) (off n : UInt32) :
    wp (writei sb src off n) (fun r s' =>
        r = -1 ∧ s' = s ∧ (off > s.ip.size ∨ MAXFILE * BSIZE < off.toNat + n.toNat) ∨
          off.toNat ≤ s.ip.size.toNat ∧
            ∃ tot : Nat, r = tot ∧ Wrote sb f src off.toNat n.toNat tot s s')
      (fun _ => False) s := by
  unfold writei
  rw [wp_bind, wp_get]
  refine wp_accepted (fun hOut => .inl ⟨rfl, rfl, hOut⟩) ?_
  intro hOff hFits
  rw [wp_bind]
  refine wp_post (wp_writeLoop hLayout h (by omega) (by omega) rfl (by omega)) ?_
  rintro ⟨tot, off'⟩ s₁ ⟨hWrites, hLe, hSingle, hFull⟩
  dsimp only at hWrites hLe hSingle hFull ⊢
  rw [Nat.sub_zero] at hSingle hFull
  rw [wp_bind, wp_setIp, wp_bind, wp_iupdate, wp_pure]
  refine Or.inr ⟨hOff, tot, rfl, ?_⟩
  have hReached := hWrites.reached
  have hOld : s₁.ip.size = s.ip.size := by
    rcases hWrites.fields with ⟨addrs, hIp⟩
    rw [hIp]
  apply hWrites.wrote hLayout hOff hLe hSingle hFull
  · split
    · exact ⟨_, rfl⟩
    · exact ⟨_, rfl⟩
  split
  · rename_i hGrow
    have hBound : MAXFILE * BSIZE < 2 ^ 32 := by decide
    rw [hOld] at hGrow
    change (UInt32.ofNat off').toNat = _
    rw [UInt32.toNat_ofNat_of_lt' (show off' < 2 ^ 32 by
      omega)]
    omega
  · rename_i hKeep
    rw [hOld] at hKeep ⊢
    omega

end

end

---- Consistent File Systems

/- Every block has at most one owner, the bitmap says which are owned, and no inode has a hole. -/
structure Consistent (sb : Superblock) (disk : Disk) (f : Nat → Dinode) : Prop where
  owned : Owned sb disk f
  holeFree : ∀ i, Alive sb f i → HoleFree disk (f i)

variable {i : Nat} {disk disk' : Disk}

section

variable {sb : Superblock}

theorem Consistent.locked (h : Consistent sb disk f) (hi : Alive sb f i) :
    Locked sb f ⟨disk, i, f i⟩ := by
  refine ⟨hi.1, hi.2, ?_⟩
  rw [update_eq_self]
  exact h.owned

theorem Others.mapped (h : Others sb f i disk disk') {j o : Nat} (hj : Alive sb f j) (hNe : j ≠ i)
    (hMapped : MappedTo disk (f j) o) : MappedTo disk' (f j) o := by
  intro bn hbn
  rw [h.slot hj hNe]
  exact hMapped bn hbn

theorem Others.contents (h : Others sb f i disk disk') {j : Nat} (hj : Alive sb f j) (hNe : j ≠ i)
    (hFree : HoleFree disk (f j)) : contents disk' (f j) = contents disk (f j) := by
  unfold Fs.contents
  apply List.map_congr_left
  intro o ho
  rcases hFree.at (List.mem_range.mp ho) with ⟨hbn, hSlot⟩
  unfold byteAt
  rw [h.slot hj hNe, h.blocks j _ hj hNe (slotOf_lt hbn) hSlot]

theorem Consistent.congr {g : Nat → Dinode} (h : Consistent sb disk f)
    (hSame : ∀ j, j < sb.ninodes.toNat → g j = f j) : Consistent sb disk g := by
  have hAlive : ∀ j, Alive sb g j ↔ Alive sb f j := by
    intro j
    unfold Alive
    constructor
    · rintro ⟨hj, hType⟩
      exact ⟨hj, hSame j hj ▸ hType⟩
    · rintro ⟨hj, hType⟩
      exact ⟨hj, (hSame j hj).symm ▸ hType⟩
  refine ⟨?_, ?_⟩
  · apply Exact.congr h.owned
    · rintro ⟨j, k⟩
      unfold owns
      by_cases hAnd : Alive sb f j ∧ k < SLOTS
      · rw [if_pos hAnd, if_pos ⟨(hAlive j).mpr hAnd.1, hAnd.2⟩, hSame j hAnd.1.1]
      · rw [if_neg hAnd, if_neg]
        exact fun hNow => hAnd ⟨(hAlive j).mp hNow.1, hNow.2⟩
    · exact fun _ _ => rfl
  · intro j hj
    rw [hSame j hj.1]
    exact h.holeFree j ((hAlive j).mp hj)

/- The state after a step on one inode of a consistent one. -/
theorem Consistent.step (h : Consistent sb disk f) {s' : Ip} (hInum : s'.inum = i)
    (hLocked : Locked sb f s') (hOthers : Others sb f i disk s'.disk)
    (hFree : HoleFree s'.disk s'.ip) : Consistent sb s'.disk (update f i s'.ip) := by
  refine ⟨?_, ?_⟩
  · rw [← hInum]
    exact hLocked.owned
  · intro j hj
    by_cases hNe : j = i
    · rw [hNe, update_self]
      exact hFree
    · rw [alive_update_of_ne hNe] at hj
      rw [update_of_ne hNe]
      exact hOthers.mapped hj hNe (h.holeFree j hj)

/- The inodes on disk after a step that updates inode `i`. -/
theorem dinode_eq_update {s' : Ip} (hOthers : Others sb f i disk s'.disk)
    (hUpdated : dinode sb s'.disk i = s'.ip) {j : Nat} (hj : j < sb.ninodes.toNat) :
    dinode sb s'.disk j = update (dinode sb disk) i s'.ip j := by
  by_cases hNe : j = i
  · rw [hNe, update_self, hUpdated]
  · rw [update_of_ne hNe, hOthers.dinodes j hj hNe]

theorem Consistent.settle (h : Consistent sb disk (dinode sb disk)) {s' : Ip} (hInum : s'.inum = i)
    (hLocked : Locked sb (dinode sb disk) s') (hOthers : Others sb (dinode sb disk) i disk s'.disk)
    (hFree : HoleFree s'.disk s'.ip) (hUpdated : dinode sb s'.disk i = s'.ip) :
    Consistent sb s'.disk (dinode sb s'.disk) :=
  (h.step hInum hLocked hOthers hFree).congr fun _ hj => dinode_eq_update hOthers hUpdated hj

theorem Consistent.claim (hLayout : Layout sb) (h : Consistent sb disk f)
    (hi : i < sb.ninodes.toNat) (hNone : (f i).type = 0) {d : Dinode} (hZero : ∀ k, d.addr k = 0)
    (hSize : d.size = 0) :
    Others sb f i disk (putDinode sb disk i d) ∧
      Consistent sb (putDinode sb disk i d) (update f i d) := by
  have hDead : ¬ Alive sb f i := fun hAlive => hAlive.2 hNone
  have hOthers : Others sb f i disk (putDinode sb disk i d) := by
    refine ⟨?_, ?_⟩
    · intro j _ hNe
      exact dinode_putDinode_ne _ _ hNe d
    · intro j k hj hNe hk hSlot
      rcases h.owned.range hj hk hSlot with ⟨hLo, hHi⟩
      exact hLayout.putDinode_data _ hi hLo hHi d
  refine ⟨hOthers, ?_, ?_⟩
  · apply Exact.congr h.owned
    · rintro ⟨j, k⟩
      unfold owns
      by_cases hNe : j = i
      · have hOld : ¬ (Alive sb f i ∧ k < SLOTS) :=
          fun hAnd => hDead hAnd.1
        dsimp only
        rw [hNe, update_self, if_neg hOld]
        split
        · exact slot_of_addr_zero hZero k
        · rfl
      · simp only [alive_update_of_ne hNe, update_of_ne hNe]
        split
        · rename_i hAlive
          exact hOthers.slot hAlive.1 hNe k
        · rfl
    · exact fun c _ => hLayout.bit_putDinode _ hi d
  · intro j hj
    by_cases hNe : j = i
    · rw [hNe, update_self]
      intro bn hbn
      rw [hSize] at hbn
      exact absurd hbn (Nat.not_lt_zero _)
    · rw [alive_update_of_ne hNe] at hj
      rw [update_of_ne hNe]
      exact hOthers.mapped hj hNe (h.holeFree j hj)

end

---- Byte Strings

/- The byte string with a range replaced. -/
def replaced (c : List UInt8) (off : Nat) (data : List UInt8) : List UInt8 :=
  c.take off ++ data ++ c.drop (off + data.length)

theorem length_replaced {c data : List UInt8} {off : Nat} (h : off ≤ c.length) :
    (replaced c off data).length = max c.length (off + data.length) := by
  unfold replaced
  simp only [List.length_append, List.length_take, List.length_drop]
  omega

theorem getElem?_replaced {old data : List UInt8} {off : Nat} (h : off ≤ old.length) (o : Nat) :
    (replaced old off data)[o]? =
      if off ≤ o ∧ o < off + data.length then data[o - off]?
      else old[o]? := by
  have hTake : (old.take off).length = off := by
    rw [List.length_take]
    omega
  unfold replaced
  rw [List.append_assoc, List.getElem?_append, hTake, List.getElem?_append]
  by_cases hLow : o < off
  · rw [if_pos hLow, if_neg (by omega), List.getElem?_take, if_pos hLow]
  · rw [if_neg hLow]
    by_cases hIn : o - off < data.length
    · rw [if_pos hIn, if_pos (by omega)]
    · rw [if_neg hIn, if_neg (by omega), List.getElem?_drop]
      congr 1
      omega

theorem getElem?_contents (disk : Disk) (d : Dinode) (o : Nat) :
    (contents disk d)[o]? = if o < d.size.toNat then some (byteAt disk d o) else none := by
  unfold contents
  rw [List.getElem?_map]
  split
  · rename_i hLt
    rw [List.getElem?_range hLt]
    rfl
  · rename_i hNot
    rw [List.getElem?_eq_none (by simp; omega)]
    rfl

variable {src : Src} {off n tot : Nat}

section

variable {sb : Superblock}

theorem Wrote.contents (h : Wrote sb f src off n tot s s') (hAll : tot = n ∨ src.Total)
    (hOff : off ≤ s.ip.size.toNat) (hFree : HoleFree s.disk s.ip) :
    contents s'.disk s'.ip = replaced (contents s.disk s.ip) off (src.bytes 0 tot) := by
  apply List.ext_getElem?
  intro o
  have hLen := src.length_bytes 0 tot
  rw [getElem?_replaced (by rw [length_contents]; exact hOff), hLen, getElem?_contents, h.size]
  by_cases hIn : off ≤ o ∧ o < off + tot
  · rw [if_pos hIn, if_pos (by omega), h.written o hIn.1 hIn.2]
    unfold Src.bytes
    rw [List.getElem?_map, List.getElem?_range (by omega), Option.map_some, Nat.zero_add]
  rw [if_neg hIn, getElem?_contents]
  by_cases hLt : o < s.ip.size.toNat
  · rcases hFree.at hLt with ⟨hbn, hSlot⟩
    rw [if_pos (by omega), if_pos hLt]
    rcases h.kept o (by omega) hbn hSlot with hSame | ⟨_, hBroken, _⟩
    · rw [hSame]
    · rcases hAll with hFull | hTotal
      · exact absurd hFull (Nat.ne_of_lt hBroken.1)
      · exact absurd hTotal hBroken.2.1
  · rw [if_neg (by omega), if_neg hLt]

/-
  Whatever the outcome, a byte of the contents was there
  before or is the byte of the data for its place.
-/
theorem Wrote.exposes (h : Wrote sb f src off n tot s s') (hOff : off ≤ s.ip.size.toNat)
    (hFree : HoleFree s.disk s.ip) {o : Nat} {b : UInt8}
    (hByte : (Fs.contents s'.disk s'.ip)[o]? = some b) :
    (Fs.contents s.disk s.ip)[o]? = some b ∨ off ≤ o ∧ o < off + n ∧ b = src.byte (o - off) := by
  rw [getElem?_contents, h.size] at hByte
  have hLe := h.le
  split at hByte
  · rename_i hLt
    cases hByte
    by_cases hIn : off ≤ o ∧ o < off + tot
    · right
      exact ⟨hIn.1, by omega, h.written o hIn.1 hIn.2⟩
    · have hOld : o < s.ip.size.toNat := by omega
      rcases hFree.at hOld with ⟨hbn, hSlot⟩
      rcases h.kept o (by omega) hbn hSlot with hSame | ⟨hAfter, hBroken, hSrc⟩
      · left
        rw [getElem?_contents, if_pos hOld, hSame]
      · right
        exact ⟨by omega, hBroken.2.2, hSrc⟩
  · cases hByte

end

section

variable {sb : Superblock}

/- What every operation on inode `i` keeps. -/
structure Refined (sb : Superblock) (disk : Disk) (f : Nat → Dinode) (i : Nat) (s' : Ip) :
    Prop where
  inum : s'.inum = i
  consistent : Consistent sb s'.disk (update f i s'.ip)
  others : ∀ j, Alive sb f j → j ≠ i → contents s'.disk (f j) = contents disk (f j)

/-
  What a write of `n` bytes at `off` leaves: a complete one
  has replaced its range, and whatever it returns, a byte of
  the contents was there or is one of its data.
-/
structure Written (sb : Superblock) (disk : Disk) (f : Nat → Dinode) (i : Nat) (src : Src)
    (off n : UInt32) (r : Int) (s' : Ip) : Prop where
  refined : Refined sb disk f i s'
  complete : r = n.toNat →
    off.toNat ≤ (contents disk (f i)).length ∧
    off.toNat + n.toNat ≤ MAXFILE * BSIZE ∧
    contents s'.disk s'.ip =
      replaced (contents disk (f i)) off.toNat (src.bytes 0 n.toNat)
  exposes : ∀ o b, (contents s'.disk s'.ip)[o]? = some b →
    (contents disk (f i))[o]? = some b ∨
      off.toNat ≤ o ∧ o < off.toNat + n.toNat ∧ b = src.byte (o - off.toNat)

/- What a read of `n` bytes at `off` delivers and returns. -/
structure Delivered (disk : Disk) (f : Nat → Dinode) (i : Nat) (off n : UInt32)
    (r : Int × List UInt8) (s' : Ip) : Prop where
  same : s' = ⟨disk, i, f i⟩
  bytes : r.2 = ((contents disk (f i)).drop off.toNat).take n.toNat
  count : r.1 = r.2.length

theorem Consistent.refined (h : Consistent sb disk f) {s' : Ip} (hInum : s'.inum = i)
    (hLocked : Locked sb f s') (hOthers : Others sb f i disk s'.disk)
    (hFree : HoleFree s'.disk s'.ip) : Refined sb disk f i s' := by
  refine ⟨hInum, h.step hInum hLocked hOthers hFree, ?_⟩
  intro j hj hNe
  exact hOthers.contents hj hNe (h.holeFree j hj)

section

variable (hLayout : Layout sb) (h : Consistent sb disk f) (hi : Alive sb f i)
include hLayout h hi

theorem writei_refines (src : Src) (off n : UInt32) :
    wp (writei sb src off n) (Written sb disk f i src off n) (fun _ => False) ⟨disk, i, f i⟩ := by
  have hLocked := h.locked hi
  have hFree := h.holeFree i hi
  refine wp_post (wp_writei hLayout hLocked off n) ?_
  rintro r s' (⟨hr, hSame, _⟩ | ⟨hOff, tot, hr, hWrote⟩)
  · rw [hSame]
    refine ⟨h.refined rfl hLocked Others.refl hFree, ?_, ?_⟩
    · intro hEq
      omega
    · exact fun o b hByte => Or.inl hByte
  have hFree' := hWrote.holeFree hFree
  refine ⟨h.refined hWrote.inum hWrote.locked hWrote.others hFree', ?_, ?_⟩
  · intro hEq
    have hAll : tot = n.toNat := by omega
    rw [hAll] at hWrote
    refine ⟨?_, ?_, hWrote.contents (.inl rfl) hOff hFree⟩
    · rw [length_contents]
      exact hOff
    · have hMapped := hFree'.le
      rw [hWrote.size] at hMapped
      omega
  · exact fun o b hByte => hWrote.exposes hOff hFree hByte

theorem readi_refines {dst : Dst} (hDst : ∀ tot m, dst tot m = true) {off n : UInt32}
    (hOff : off.toNat ≤ (contents disk (f i)).length) (hWrap : off.toNat + n.toNat < 2 ^ 32) :
    wp (readi sb dst off n) (Delivered disk f i off n) (fun _ => False) ⟨disk, i, f i⟩ := by
  refine wp_post
    (wp_readi hLayout (h.locked hi) dst ((h.holeFree i hi).mono (Nat.min_le_right ..))) ?_
  rintro r s' ⟨hSame, _, hAll⟩
  have hIn : ¬ (off > (f i).size ∨ off + n < off) := by
    rw [length_contents] at hOff
    rw [add_lt_iff_wrap, gt_iff_lt, UInt32.lt_iff_toNat_lt]
    omega
  have hData : readData disk (f i) off n = ((contents disk (f i)).drop off.toNat).take n.toNat :=
    if_neg hIn
  rw [hAll hDst]
  unfold readResult
  rw [hData]
  exact ⟨hSame, rfl, rfl⟩

theorem itrunc_refines :
    wp (itrunc sb) (fun _ s' => Refined sb disk f i s' ∧ contents s'.disk s'.ip = [])
      (fun _ => False) ⟨disk, i, f i⟩ := by
  refine wp_post (wp_itrunc hLayout (h.locked hi)) ?_
  rintro _ s' ⟨hInum, hIp, hLocked, hOthers, _⟩
  have hSize : s'.ip.size.toNat = 0 := by
    rw [hIp]
    rfl
  refine ⟨h.refined hInum hLocked hOthers ?_, ?_⟩
  · intro bn hbn
    omega
  · unfold contents
    rw [hSize]
    rfl

end

/-
  File contents refine byte strings. A complete write replaces
  its range, a read delivers a part, truncating empties, and
  each leaves the other inodes as they are. Whatever a write
  returns, it exposes old bytes and its own data only, and a
  block that `bmap` adds is zero.
-/
theorem contents_refine
    (hLayout : Layout sb)
    (h : Consistent sb disk f)
    (hi : Alive sb f i) :
    (∀ src off n,
      wp (writei sb src off n) (Written sb disk f i src off n)
        (fun _ => False) ⟨disk, i, f i⟩) ∧
    (∀ dst off n,
      (∀ tot m, dst tot m = true) →
      off.toNat ≤ (contents disk (f i)).length →
      off.toNat + n.toNat < 2 ^ 32 →
        wp (readi sb dst off n) (Delivered disk f i off n)
          (fun _ => False) ⟨disk, i, f i⟩) ∧
    wp (itrunc sb)
      (fun _ s' => Refined sb disk f i s' ∧ contents s'.disk s'.ip = [])
      (fun _ => False) ⟨disk, i, f i⟩ ∧
    ∀ bn,
      bn < MAXFILE →
      slot disk (f i) (slotOf bn) = 0 →
        wp (bmap sb bn) (fun addr s' => addr ≠ 0 → s'.disk addr = Bytes.zero)
          (fun _ => False) ⟨disk, i, f i⟩ := by
  refine ⟨?_, ?_, itrunc_refines hLayout h hi, ?_⟩
  · exact writei_refines hLayout h hi
  · intro dst off n hDst hOff hWrap
    exact readi_refines hLayout h hi hDst hOff hWrap
  · intro bn hbn hZero
    refine wp_post (wp_bmap hLayout (h.locked hi) hbn) ?_
    rintro addr s' ⟨hMaps, hSlot, _⟩ hNe
    have hFresh := hMaps.grows.fresh _ (slotOf_lt hbn) (slotOf_ne_NDIRECT bn) hZero
    rw [hSlot hNe] at hFresh
    exact hFresh hNe

end

/- Four blocks of metadata and one of data. -/
def smallSuperblock : Superblock where
  magic := 0x10203040
  size := 5
  nblocks := 1
  ninodes := 2
  nlog := 0
  logstart := 2
  inodestart := 2
  bmapstart := 3

/- Inode 1 is an empty file, and the data block is free. -/
def smallInodes (i : Nat) : Dinode := { Dinode.zero with type := if i = 1 then T_FILE else 0 }

def smallDisk : Disk := Disk.write (fun _ => Bytes.zero) 3 (Bytes.zero.put 0 [15])

theorem small_layout : Layout smallSuperblock := by
  refine ⟨?_, ?_⟩
  · decide
  · decide

theorem small_consistent : Consistent smallSuperblock smallDisk smallInodes := by
  have hOwns : ∀ x, owns smallSuperblock smallDisk smallInodes x = 0 := by
    intro x
    unfold owns
    split
    · apply slot_of_addr_zero
      intro k
      unfold Dinode.addr smallInodes Dinode.zero
      simp
    · rfl
  refine ⟨⟨?_, ?_, ?_⟩, ?_⟩
  · exact fun x hx => absurd (hOwns x) hx
  · exact fun x _ hx => absurd (hOwns x) hx
  · intro b hb
    simp only [hOwns, ne_eq, not_true_eq_false, false_and, exists_false, or_false]
    revert b
    decide
  · intro i hi bn hbn
    exact absurd hbn (Nat.not_lt_zero _)

/- A file of the small disk after a write at its start. -/
def written (data : List UInt8) (s : Ip) : Ip :=
  match writei smallSuperblock (.kernel data) 0 (UInt32.ofNat data.length) s with
  | .ok (_, s') => s'
  | .error _ => s

theorem writei_written (data : List UInt8) (s : Ip)
    (hAll : (writei smallSuperblock (.kernel data) 0 (UInt32.ofNat data.length) s).toOption.map
      Prod.fst = some (data.length : Int)) :
    writei smallSuperblock (.kernel data) 0 (UInt32.ofNat data.length) s =
      .ok ((data.length : Int), written data s) := by
  unfold written
  cases hRun : writei smallSuperblock (.kernel data) 0 (UInt32.ofNat data.length) s with
  | error e =>
    rw [hRun] at hAll
    cases hAll
  | ok r =>
    rw [hRun] at hAll
    rw [← Option.some.inj hAll]

def fourBytes : Ip := written [1, 2, 3, 4] ⟨smallDisk, 1, smallInodes 1⟩

theorem writei_fourBytes :
    writei smallSuperblock (.kernel [1, 2, 3, 4]) 0 4 ⟨smallDisk, 1, smallInodes 1⟩ =
      .ok (4, fourBytes) :=
  writei_written _ _ (by decide +kernel)

/- Four bytes are written to the empty file. -/
theorem contents_refine_small :
    writei smallSuperblock (.kernel [1, 2, 3, 4]) 0 4 ⟨smallDisk, 1, smallInodes 1⟩ =
      .ok (4, fourBytes) ∧
    Refined smallSuperblock smallDisk smallInodes 1 fourBytes ∧
    contents fourBytes.disk fourBytes.ip = [1, 2, 3, 4] := by
  have hWritten := wp_of_eq_ok
    ((contents_refine small_layout small_consistent (by decide)).1 _ 0 4) writei_fourBytes
  exact ⟨writei_fourBytes, hWritten.refined, (hWritten.complete rfl).2.2⟩

end Xv6.Fs

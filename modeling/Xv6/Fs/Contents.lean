import Xv6.Fs.Ownership

/-
  File contents as byte strings.

  The contents of an inode are the bytes below its size, each
  found through the block map. As long as every block below
  the size is mapped, `readi` delivers a part of them and
  allocates nothing. An update of the other fields keeps them.

  The rules used by name are:
    * `wp_readi`
    * `Locked.update`
-/

namespace Xv6.Fs

open Prog

---- Contents

/- Byte `o` of the inode. -/
def byteAt (disk : Disk) (d : Dinode) (o : Nat) : UInt8 :=
  (disk (slot disk d (slotOf (o / BSIZE)))).get (o % BSIZE)

def contents (disk : Disk) (d : Dinode) : List UInt8 :=
  (List.range d.size.toNat).map (byteAt disk d)

/- Every block that starts below `o` is mapped. -/
def MappedTo (disk : Disk) (d : Dinode) (o : Nat) : Prop :=
  ∀ bn, bn * BSIZE < o → bn < MAXFILE ∧ slot disk d (slotOf bn) ≠ 0

/- Every block below the size is mapped. -/
def HoleFree (disk : Disk) (d : Dinode) : Prop := MappedTo disk d d.size.toNat

theorem slotOf_lt {bn : Nat} (h : bn < MAXFILE) : slotOf bn < SLOTS := by
  unfold slotOf SLOTS
  unfold MAXFILE at h
  split
  · omega
  · omega

theorem slotOf_ne_NDIRECT (bn : Nat) : slotOf bn ≠ NDIRECT := by
  unfold slotOf
  split
  · omega
  · omega

theorem slotOf_inj {a b : Nat} (h : slotOf a = slotOf b) : a = b := by
  unfold slotOf at h
  split at h <;> split at h <;> omega

theorem MappedTo.le {disk : Disk} {d : Dinode} {o : Nat} (h : MappedTo disk d o) :
    o ≤ MAXFILE * BSIZE := by
  apply Nat.le_of_not_lt
  intro hLt
  exact Nat.lt_irrefl _ (h MAXFILE hLt).1

theorem MappedTo.mono {disk : Disk} {d : Dinode} {o p : Nat} (h : MappedTo disk d o) (hLe : p ≤ o) :
    MappedTo disk d p := fun bn hbn => h bn (Nat.lt_of_lt_of_le hbn hLe)

theorem MappedTo.at {disk : Disk} {d : Dinode} {o p : Nat} (h : MappedTo disk d p) (ho : o < p) :
    o / BSIZE < MAXFILE ∧ slot disk d (slotOf (o / BSIZE)) ≠ 0 := by
  apply h
  exact Nat.lt_of_le_of_lt (Nat.div_mul_le_self o BSIZE) ho

theorem length_contents (disk : Disk) (d : Dinode) : (contents disk d).length = d.size.toNat := by
  unfold contents
  rw [List.length_map, List.length_range]

theorem slice_eq_map_byteAt (disk : Disk) (d : Dinode) {o m : Nat} (h : m ≤ BSIZE - o % BSIZE) :
    (disk (slot disk d (slotOf (o / BSIZE)))).slice (o % BSIZE) m =
      (List.range m).map (fun i => byteAt disk d (o + i)) := by
  unfold Bytes.slice
  apply List.map_congr_left
  intro i hi
  rw [List.mem_range] at hi
  unfold byteAt
  simp only [BSIZE] at *
  have hDiv : (o + i) / 1024 = o / 1024 := by omega
  have hMod : (o + i) % 1024 = o % 1024 + i := by omega
  rw [hDiv, hMod]

theorem map_range_add {α : Type} (g : Nat → α) (m n : Nat) :
    (List.range (m + n)).map g =
      (List.range m).map g ++ (List.range n).map (fun i => g (m + i)) := by
  rw [List.range_add, List.map_append, List.map_map]
  rfl

---- Reading

section

variable {sb : Superblock} {f : Nat → Dinode} {s s' : Ip}

theorem wp_readLoop (hLayout : Layout sb) (h : Locked sb f s) {dst : Dst} {fuel tot off n : Nat}
    (hFuel : n ≤ tot + fuel) (hMapped : MappedTo s.disk s.ip (off + (n - tot))) :
    wp (readLoop sb dst fuel tot off n) (fun r s' => s' = s ∧ (r = none ∨
        r = some ((List.range (n - tot)).map (fun i => byteAt s.disk s.ip (off + i)))) ∧
      ((∀ t m, dst t m = true) → r ≠ none)) (fun _ => False) s := by
  induction fuel generalizing tot off with
  | zero =>
    unfold readLoop
    rw [wp_pure]
    have hZero : n - tot = 0 := by omega
    rw [hZero]
    exact ⟨rfl, Or.inr rfl, fun _ => Option.some_ne_none _⟩
  | succ fuel ih =>
    unfold readLoop
    rw [wp_ite]
    constructor
    · intro hLt
      rcases hMapped.at (show off < off + (n - tot) by omega) with ⟨hbn, hSlot⟩
      rw [wp_bind]
      refine wp_post (wp_bmap hLayout h hbn) ?_
      rintro addr s' ⟨_, hAddr, hSame⟩
      rcases hSame hSlot with ⟨hEq, hNe⟩
      have hBlock := hAddr hNe
      rw [hEq] at hBlock ⊢
      rw [if_neg hNe, wp_bind, wp_get]
      dsimp only
      generalize hm : min (n - tot) (BSIZE - off % BSIZE) = m
      have hPos : 0 < m := by
        have hMod := Nat.mod_lt off (show 0 < BSIZE by decide)
        omega
      have hLe : m ≤ BSIZE - off % BSIZE := by omega
      have hLeN : m ≤ n - tot := by omega
      rw [wp_ite]
      constructor
      · intro hDst
        rw [wp_bind]
        refine wp_post (ih (by omega) ?_) ?_
        · apply hMapped.mono
          omega
        rintro r s'' ⟨hEq', hData, hGood⟩
        rw [wp_pure]
        refine ⟨hEq', ?_, ?_⟩
        · rcases hData with hNone | hSome
          · left
            rw [hNone]
            rfl
          · right
            have hSplit : n - tot = m + (n - (tot + m)) := by omega
            rw [hSome, Option.map_some, ← hBlock, slice_eq_map_byteAt _ _ hLe, hSplit,
              map_range_add]
            simp only [Nat.add_assoc]
        · intro hAll
          cases r with
          | none => exact absurd rfl (hGood hAll)
          | some data => exact Option.some_ne_none _
      · intro hDst
        rw [wp_pure]
        exact ⟨rfl, Or.inl rfl, fun hAll => absurd (hAll tot m) hDst⟩
    · intro hEnd
      rw [wp_pure]
      have hZero : n - tot = 0 := by omega
      rw [hZero]
      exact ⟨rfl, Or.inr rfl, fun _ => Option.some_ne_none _⟩

theorem add_lt_iff_wrap (a b : UInt32) : a + b < a ↔ 2 ^ 32 ≤ a.toNat + b.toNat := by
  have ha := a.toNat_lt
  have hb := b.toNat_lt
  rw [UInt32.lt_iff_toNat_lt, UInt32.toNat_add]
  omega

theorem toNat_add_of_not_wrap {a b : UInt32} (h : ¬ a + b < a) :
    (a + b).toNat = a.toNat + b.toNat := by
  rw [add_lt_iff_wrap] at h
  rw [UInt32.toNat_add]
  exact Nat.mod_eq_of_lt (by omega)

theorem take_drop_contents (disk : Disk) (d : Dinode) (o n : Nat) :
    ((contents disk d).drop o).take n =
      (List.range (min n (d.size.toNat - o))).map (fun i => byteAt disk d (o + i)) := by
  apply List.ext_getElem
  · simp [length_contents]
  · intro i hi hi'
    simp [contents]

/- What `readi` delivers. -/
def readData (disk : Disk) (d : Dinode) (off n : UInt32) : List UInt8 :=
  if off > d.size ∨ off + n < off then [] else ((contents disk d).drop off.toNat).take n.toNat

/- The value of a read, and the bytes. -/
def readResult (disk : Disk) (d : Dinode) (off n : UInt32) : Int × List UInt8 :=
  ((readData disk d off n).length, readData disk d off n)

/-
  `readi` of bytes that are mapped delivers a part of the
  contents, or fails because a copy fails. It changes nothing
  and allocates nothing.
-/
theorem wp_readi (hLayout : Layout sb) (h : Locked sb f s) (dst : Dst) {off n : UInt32}
    (hMapped : MappedTo s.disk s.ip (min (off.toNat + n.toNat) s.ip.size.toNat)) :
    wp (readi sb dst off n) (fun r s' =>
      s' = s ∧ (r = (-1, []) ∨ r = readResult s.disk s.ip off n) ∧
        ((∀ t m, dst t m = true) → r = readResult s.disk s.ip off n)) (fun _ => False) s := by
  unfold readi readResult
  rw [wp_bind, wp_get, wp_ite]
  constructor
  · intro hOut
    have hData : readData s.disk s.ip off n = [] := if_pos hOut
    rw [wp_pure, hData]
    exact ⟨rfl, Or.inr rfl, fun _ => rfl⟩
  intro hIn
  have hData : readData s.disk s.ip off n = ((contents s.disk s.ip).drop off.toNat).take
      n.toNat :=
    if_neg hIn
  rw [not_or] at hIn
  have hLe : off.toNat ≤ s.ip.size.toNat := by
    have hNot := hIn.1
    rw [gt_iff_lt, UInt32.lt_iff_toNat_lt] at hNot
    omega
  have hSum := toNat_add_of_not_wrap hIn.2
  have hCount : (if off + n > s.ip.size then s.ip.size - off
      else n).toNat =
      min n.toNat (s.ip.size.toNat - off.toNat) := by
    split
    · rename_i hGt
      rw [gt_iff_lt, UInt32.lt_iff_toNat_lt, hSum] at hGt
      rw [UInt32.toNat_sub_of_le _ _ (UInt32.le_iff_toNat_le.mpr hLe)]
      omega
    · rename_i hLt
      rw [gt_iff_lt, UInt32.lt_iff_toNat_lt, hSum] at hLt
      omega
  rw [take_drop_contents] at hData
  rw [wp_bind, hCount]
  refine wp_post (wp_readLoop hLayout h (by omega) ?_) ?_
  · apply hMapped.mono
    omega
  rintro r s' ⟨hEq, hResult, hGood⟩
  rw [Nat.sub_zero, ← hData] at hResult
  rcases hResult with hNone | hSome
  · rw [hNone]
    dsimp only
    rw [wp_pure]
    exact ⟨hEq, Or.inl rfl, fun hAll => absurd hNone (hGood hAll)⟩
  · rw [hSome]
    dsimp only
    rw [wp_pure]
    exact ⟨hEq, Or.inr rfl, fun _ => rfl⟩

---- Updating The Inode

/- The state with the copy changed and written to disk. -/
def Ip.update (sb : Superblock) (s : Ip) (d : Dinode) : Ip where
  disk := putDinode sb s.disk s.inum d
  inum := s.inum
  ip := d

/-
  What an update of the fields other than the addresses keeps:
  every slot and every block of data.
-/
structure Updates (sb : Superblock) (f : Nat → Dinode) (s s' : Ip) : Prop where
  locked : Locked sb f s'
  others : Others sb f s.inum s.disk s'.disk
  slots : ∀ k, slot s'.disk s'.ip k = slot s.disk s.ip k
  data : ∀ k, k < SLOTS → slot s.disk s.ip k ≠ 0 →
    s'.disk (slot s.disk s.ip k) = s.disk (slot s.disk s.ip k)

theorem Locked.update (hLayout : Layout sb) (h : Locked sb f s) {d : Dinode} (hType : d.type ≠ 0)
    (hAddrs : ∀ k, d.addr k = s.ip.addr k) : Updates sb f s (s.update sb d) := by
  have hData : ∀ k, k < SLOTS → slot s.disk s.ip k ≠ 0 →
      putDinode sb s.disk s.inum d (slot s.disk s.ip k) = s.disk (slot s.disk s.ip k) := by
    intro k hk hSlot
    rcases h.range hk hSlot with ⟨hLo, hHi⟩
    exact hLayout.putDinode_data _ h.inum hLo hHi d
  have hSlots : ∀ k, slot (putDinode sb s.disk s.inum d) d k = slot s.disk s.ip k := by
    apply slot_congr hAddrs
    have hIndirect := hData NDIRECT (by decide)
    rw [slot_pointer] at hIndirect
    exact hIndirect
  have hOthers : Others sb f s.inum s.disk (putDinode sb s.disk s.inum d) := by
    refine ⟨?_, ?_⟩
    · intro j _ hNe
      exact dinode_putDinode_ne _ _ hNe d
    · intro j k hj hNe hk hSlot
      rcases h.range_other hj hNe hk hSlot with ⟨hLo, hHi⟩
      exact hLayout.putDinode_data _ h.inum hLo hHi d
  refine ⟨⟨h.inum, hType, ?_⟩, hOthers, hSlots, hData⟩
  apply Exact.congr h.owned
  · rintro ⟨j, l⟩
    unfold owns
    by_cases hj : j = s.inum
    · rw [hj]
      have hOld := h.alive
      have hNew : Alive sb (Function.update f s.inum d) s.inum :=
        alive_update_self.mpr ⟨h.inum, hType⟩
      simp only [Ip.update, hNew, hOld, true_and, Function.update_self, hSlots]
    · simp only [Ip.update, alive_update_of_ne hj, Function.update_of_ne hj]
      split
      · rename_i hAlive
        exact hOthers.slot hAlive.1 hj l
      · rfl
  · intro c _
    exact hLayout.bit_putDinode _ h.inum d

theorem Updates.byteAt (h : Updates sb f s s') {o : Nat} (ho : o / BSIZE < MAXFILE)
    (hSlot : slot s.disk s.ip (slotOf (o / BSIZE)) ≠ 0) :
    byteAt s'.disk s'.ip o = byteAt s.disk s.ip o := by
  unfold Fs.byteAt
  rw [h.slots, h.data _ (slotOf_lt ho) hSlot]

theorem Updates.mapped (h : Updates sb f s s') {o : Nat} (hMapped : MappedTo s.disk s.ip o) :
    MappedTo s'.disk s'.ip o := by
  intro bn hbn
  rw [h.slots]
  exact hMapped bn hbn

end

end Xv6.Fs

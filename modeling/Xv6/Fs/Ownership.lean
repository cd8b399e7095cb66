import Xv6.Fs.Inode
import Xv6.Lib.Exact

/-
  Who owns a block.

  An inode has 269 slots for block numbers: its direct
  addresses, the pointer to its indirect block, and the
  entries of that block. A block of the data area is marked
  in the bitmap exactly when a slot of an allocated inode
  holds it, and one slot only (`Owned`). Allocating and
  freeing blocks keeps this, and leaves the blocks of the
  other inodes alone (`Others`).

  The rules used by name are:
    * `wp_bmap`
    * `wp_itrunc`
-/

namespace Xv6.Fs

open Function (update update_self update_of_ne)

open Prog

---- Layout

/- The number of blocks before the data blocks. -/
def Superblock.meta (sb : Superblock) : Nat := sb.size.toNat - sb.nblocks.toNat

/- Inode blocks, bitmap and data blocks follow each other. -/
structure Layout (sb : Superblock) : Prop where
  inodes : ∀ i, i < sb.ninodes.toNat → IBLOCK i sb < sb.bmapstart.toNat
  bitmap : ∀ b, b < sb.size.toNat → BBLOCK b sb < sb.meta

section

variable {sb : Superblock} (hLayout : Layout sb) (disk : Disk) {b c : Nat}

theorem bmapstart_le_BBLOCK (sb : Superblock) (b : Nat) : sb.bmapstart.toNat ≤ BBLOCK b sb :=
  Nat.le_add_left ..

include hLayout in
theorem Layout.meta_pos (hb : b < sb.size.toNat) : 0 < sb.meta :=
  Nat.zero_lt_of_lt (hLayout.bitmap b hb)

---- The Bitmap

theorem mod_BPB_inj (hBlock : BBLOCK c sb = BBLOCK b sb) : c % BPB = b % BPB ↔ c = b := by
  unfold BBLOCK at hBlock
  simp only [BPB, BSIZE] at *
  omega

theorem mod_BPB_div_lt (b : Nat) : b % BPB / 8 < BSIZE := by
  have hLt : b % BPB < BPB := Nat.mod_lt _ (by decide)
  simp only [BPB, BSIZE] at *
  omega

theorem bit_setBit (b c : Nat) :
    bit sb (setBit sb disk b) c = (decide (c = b) || bit sb disk c) := by
  unfold bit setBit
  by_cases hBlock : BBLOCK c sb = BBLOCK b sb
  · rw [hBlock, Disk.write_same, Bitmap.test_set _ (mod_BPB_div_lt c),
      decide_eq_decide.mpr (mod_BPB_inj hBlock)]
  · have hNe : c ≠ b := by
      intro h
      exact hBlock (by rw [h])
    rw [Disk.write_other _ _ hBlock, decide_eq_false hNe, Bool.false_or]

theorem bit_clearBit (b c : Nat) :
    bit sb (clearBit sb disk b) c = (!decide (c = b) && bit sb disk c) := by
  unfold bit clearBit
  by_cases hBlock : BBLOCK c sb = BBLOCK b sb
  · rw [hBlock, Disk.write_same, Bitmap.test_clear _ (mod_BPB_div_lt c),
      decide_eq_decide.mpr (mod_BPB_inj hBlock)]
  · have hNe : c ≠ b := by
      intro h
      exact hBlock (by rw [h])
    rw [Disk.write_other _ _ hBlock, decide_eq_false hNe]
    rfl

theorem setBit_other (h : c ≠ BBLOCK b sb) : setBit sb disk b c = disk c := Disk.write_other _ _ h

theorem clearBit_other (h : c ≠ BBLOCK b sb) : clearBit sb disk b c = disk c :=
  Disk.write_other _ _ h

theorem bit_write_other (h : b ≠ BBLOCK c sb) (v : Block) :
    bit sb (disk.write b v) c = bit sb disk c := by
  unfold bit
  rw [Disk.write_other _ _ (Ne.symm h)]

---- Writing Data Blocks

include hLayout in
theorem Layout.bit_write (hb : sb.meta ≤ b) (hc : c < sb.size.toNat) (v : Block) :
    bit sb (disk.write b v) c = bit sb disk c := by
  apply bit_write_other
  have hLt := hLayout.bitmap c hc
  omega

include hLayout in
theorem Layout.IBLOCK_lt_meta {i : Nat} (hi : i < sb.ninodes.toNat) (hb : b < sb.size.toNat) :
    IBLOCK i sb < sb.meta := by
  have hInode := hLayout.inodes i hi
  have hBitmap := hLayout.bitmap b hb
  have hLe := bmapstart_le_BBLOCK sb b
  omega

include hLayout in
theorem Layout.dinode_write {i : Nat} (hb : sb.meta ≤ b) (hSize : b < sb.size.toNat)
    (hi : i < sb.ninodes.toNat) (v : Block) : dinode sb (disk.write b v) i = dinode sb disk i := by
  apply dinode_write_other
  have hLt := hLayout.IBLOCK_lt_meta hi hSize
  omega

include hLayout in
theorem Layout.bit_putDinode {i : Nat} (hi : i < sb.ninodes.toNat) (d : Dinode) :
    bit sb (putDinode sb disk i d) c = bit sb disk c := by
  apply bit_write_other
  have hInode := hLayout.inodes i hi
  have hLe := bmapstart_le_BBLOCK sb c
  omega

include hLayout in
theorem Layout.putDinode_data {i : Nat} (hi : i < sb.ninodes.toNat) (hb : sb.meta ≤ b)
    (hSize : b < sb.size.toNat) (d : Dinode) : putDinode sb disk i d b = disk b := by
  apply putDinode_other
  have hLt := hLayout.IBLOCK_lt_meta hi hSize
  omega

---- Allocated Blocks

/- What `balloc` does to the disk for block `b`. -/
def allocate (sb : Superblock) (disk : Disk) (b : Nat) : Disk :=
  (setBit sb disk b).write b Bytes.zero

theorem allocate_self (b : Nat) : allocate sb disk b b = Bytes.zero := Disk.write_same ..

include hLayout in
theorem Layout.allocate_other (hb : b < sb.size.toNat) (hc : sb.meta ≤ c) (hNe : c ≠ b) :
    allocate sb disk b c = disk c := by
  unfold allocate
  rw [Disk.write_other _ _ hNe]
  apply setBit_other
  have hLt := hLayout.bitmap b hb
  omega

include hLayout in
theorem Layout.bit_allocate (hb : sb.meta ≤ b) (hc : c < sb.size.toNat) :
    bit sb (allocate sb disk b) c = (decide (c = b) || bit sb disk c) := by
  unfold allocate
  rw [hLayout.bit_write _ hb hc, bit_setBit]

include hLayout in
theorem Layout.dinode_allocate {i : Nat} (hb : sb.meta ≤ b) (hSize : b < sb.size.toNat)
    (hi : i < sb.ninodes.toNat) : dinode sb (allocate sb disk b) i = dinode sb disk i := by
  unfold allocate
  rw [hLayout.dinode_write _ hb hSize hi]
  apply dinode_write_other
  have hInode := hLayout.inodes i hi
  have hLe := bmapstart_le_BBLOCK sb b
  omega

include hLayout in
theorem Layout.dinode_clearBit {i : Nat} (hi : i < sb.ninodes.toNat) :
    dinode sb (clearBit sb disk b) i = dinode sb disk i := by
  apply dinode_write_other
  have hInode := hLayout.inodes i hi
  have hLe := bmapstart_le_BBLOCK sb b
  omega

include hLayout in
theorem Layout.clearBit_data (hb : b < sb.size.toNat) (hc : sb.meta ≤ c) :
    clearBit sb disk b c = disk c := by
  apply clearBit_other
  have hLt := hLayout.bitmap b hb
  omega

end

theorem wp_balloc {sb : Superblock} {Q : Nat → Ip → Prop} {E : Panic → Prop} {s : Ip}
    (hNone : Q 0 s)
    (hSome : ∀ b, b < sb.size.toNat → bit sb s.disk b = false →
      Q b { s with disk := allocate sb s.disk b }) : wp (balloc sb) Q E s := by
  unfold balloc
  rw [wp_bind, wp_get]
  cases hFind : (List.range sb.size.toNat).find? (fun b => !bit sb s.disk b) with
  | none =>
    dsimp only
    rw [wp_pure]
    exact hNone
  | some b =>
    have hb := List.mem_of_find?_eq_some hFind
    have hBit := List.find?_some hFind
    rw [List.mem_range] at hb
    rw [Bool.not_eq_true'] at hBit
    simp only [bzero, wp_bind, wp_setDisk, wp_pure]
    exact hSome b hb hBit

---- Slots

def SLOTS : Nat := NDIRECT + 1 + NINDIRECT

def slot (disk : Disk) (d : Dinode) (k : Nat) : Nat :=
  if k ≤ NDIRECT then
    d.addr k
  else if d.addr NDIRECT = 0 then 0 else entry (disk (d.addr NDIRECT)) (k - NDIRECT - 1)

/- The slot of block `bn` of the inode. -/
def slotOf (bn : Nat) : Nat := if bn < NDIRECT then bn else bn + 1

/- The slots depend on the addresses and the indirect block. -/
theorem slot_congr {disk disk' : Disk} {d d' : Dinode} (hAddrs : ∀ k, d'.addr k = d.addr k)
    (hBlock : d.addr NDIRECT ≠ 0 → disk' (d.addr NDIRECT) = disk (d.addr NDIRECT)) (k : Nat) :
    slot disk' d' k = slot disk d k := by
  unfold slot
  rw [hAddrs, hAddrs]
  split
  · rfl
  · split
    · rfl
    · rename_i hPointer
      rw [hBlock hPointer]

/- The inode is allocated. -/
def Alive (sb : Superblock) (f : Nat → Dinode) (i : Nat) : Prop :=
  i < sb.ninodes.toNat ∧ (f i).type ≠ 0

instance
    (sb : Superblock) (f : Nat → Dinode) (i : Nat) :
    Decidable (Alive sb f i) := by
  unfold Alive
  infer_instance

/- The block of slot `x.2` of inode `x.1`. -/
def owns (sb : Superblock) (disk : Disk) (f : Nat → Dinode) (x : Nat × Nat) : Nat :=
  if Alive sb f x.1 ∧ x.2 < SLOTS then slot disk (f x.1) x.2 else 0

/- Every block is free or in one slot of one inode. -/
def Owned (sb : Superblock) (disk : Disk) (f : Nat → Dinode) : Prop :=
  Exact (owns sb disk f) (bit sb disk) sb.meta sb.size.toNat

section

variable {sb : Superblock} {disk : Disk} {f : Nat → Dinode} {k : Nat}

theorem owns_eq {i : Nat} (hi : Alive sb f i) (hk : k < SLOTS) :
    owns sb disk f (i, k) = slot disk (f i) k := if_pos ⟨hi, hk⟩

variable (h : Owned sb disk f)
include h

theorem Owned.range {i : Nat} (hi : Alive sb f i) (hk : k < SLOTS) (hSlot : slot disk (f i) k ≠ 0) :
    sb.meta ≤ slot disk (f i) k ∧ slot disk (f i) k < sb.size.toNat := by
  have hRange := Exact.range h (i, k)
  rw [owns_eq hi hk] at hRange
  exact hRange hSlot

theorem Owned.once {i j l : Nat} (hi : Alive sb f i) (hj : Alive sb f j) (hk : k < SLOTS)
    (hl : l < SLOTS) (hSlot : slot disk (f i) k ≠ 0) (hEq : slot disk (f i) k = slot disk (f j) l) :
    i = j ∧ k = l := by
  have hOnce := Exact.once h (i, k) (j, l)
  rw [owns_eq hi hk, owns_eq hj hl] at hOnce
  have hPair := hOnce hSlot hEq
  exact ⟨congrArg Prod.fst hPair, congrArg Prod.snd hPair⟩

/- A free block is in no slot. -/
theorem Owned.free {b : Nat} (hb : b < sb.size.toNat) (hFree : bit sb disk b = false) :
    sb.meta ≤ b ∧
      ∀ i k, Alive sb f i → k < SLOTS → slot disk (f i) k ≠ 0 → slot disk (f i) k ≠ b := by
  rcases Exact.not_owned h hb hFree with ⟨hLo, hNobody⟩
  refine ⟨hLo, ?_⟩
  intro i k hi hk hSlot
  have hNot := hNobody (i, k)
  rw [owns_eq hi hk] at hNot
  exact hNot hSlot

theorem Owned.bit {i : Nat} (hi : Alive sb f i) (hk : k < SLOTS) (hSlot : slot disk (f i) k ≠ 0) :
    bit sb disk (slot disk (f i) k) = true := by
  apply (Exact.used h _ (h.range hi hk hSlot).2).mpr
  right
  refine ⟨(i, k), ?_, ?_⟩
  · rw [owns_eq hi hk]
    exact hSlot
  · exact owns_eq hi hk

end

---- Frames

/- What a step on inode `i` leaves of the other inodes. -/
structure Others (sb : Superblock) (f : Nat → Dinode) (i : Nat) (disk disk' : Disk) : Prop where
  dinodes : ∀ j, j < sb.ninodes.toNat → j ≠ i → dinode sb disk' j = dinode sb disk j
  blocks : ∀ j k, Alive sb f j → j ≠ i → k < SLOTS →
    slot disk (f j) k ≠ 0 → disk' (slot disk (f j) k) = disk (slot disk (f j) k)

namespace Others

variable {sb : Superblock} {f : Nat → Dinode} {i : Nat} {disk disk' disk'' : Disk}

theorem refl : Others sb f i disk disk := ⟨fun _ _ _ => rfl, fun _ _ _ _ _ _ => rfl⟩

theorem slot (h : Others sb f i disk disk') {j : Nat} (hj : Alive sb f j) (hNe : j ≠ i) (k : Nat) :
    Fs.slot disk' (f j) k = Fs.slot disk (f j) k := by
  apply slot_congr
  · exact fun _ => rfl
  · exact h.blocks j NDIRECT hj hNe (by decide)

theorem trans (h : Others sb f i disk disk') (h' : Others sb f i disk' disk'') :
    Others sb f i disk disk'' := by
  refine ⟨?_, ?_⟩
  · intro j hj hNe
    rw [h'.dinodes j hj hNe, h.dinodes j hj hNe]
  · intro j k hj hNe hk hSlot
    have hSame := h'.blocks j k hj hNe hk
    rw [h.slot hj hNe] at hSame
    rw [hSame hSlot, h.blocks j k hj hNe hk hSlot]

end Others

/-
  A step that may map more blocks of the inode. What was
  mapped stays, with its contents, and a block that is mapped
  now is zero.
-/
structure Grows (sb : Superblock) (s s' : Ip) : Prop where
  inum : s'.inum = s.inum
  fields : ∃ addrs, s'.ip = { s.ip with addrs := addrs }
  dinode : dinode sb s'.disk s.inum = dinode sb s.disk s.inum
  slots : ∀ k, k < SLOTS → slot s.disk s.ip k ≠ 0 → slot s'.disk s'.ip k = slot s.disk s.ip k
  data : ∀ k, k < SLOTS → k ≠ NDIRECT → slot s.disk s.ip k ≠ 0 →
    s'.disk (slot s.disk s.ip k) = s.disk (slot s.disk s.ip k)
  fresh : ∀ k, k < SLOTS → k ≠ NDIRECT → slot s.disk s.ip k = 0 →
    slot s'.disk s'.ip k ≠ 0 → s'.disk (slot s'.disk s'.ip k) = Bytes.zero

namespace Grows

variable {sb : Superblock} {s s' s'' : Ip}

theorem refl : Grows sb s s where
  inum := rfl
  fields := ⟨_, rfl⟩
  dinode := rfl
  slots _ _ _ := rfl
  data _ _ _ _ := rfl
  fresh _ _ _ hZero hSlot := absurd hZero hSlot

theorem trans (h : Grows sb s s') (h' : Grows sb s' s'') : Grows sb s s'' where
  inum := h'.inum.trans h.inum
  fields := by
    rcases h.fields with ⟨addrs, hFirst⟩
    rcases h'.fields with ⟨addrs', hSecond⟩
    exact ⟨addrs', by rw [hSecond, hFirst]⟩
  dinode := by
    have hLast := h'.dinode
    rw [h.inum] at hLast
    exact hLast.trans h.dinode
  slots k hk hSlot := by
    have hMid := h.slots k hk hSlot
    rw [h'.slots k hk (by rw [hMid]; exact hSlot), hMid]
  data k hk hNe hSlot := by
    have hMid := h.slots k hk hSlot
    have hLast := h'.data k hk hNe (by rw [hMid]; exact hSlot)
    rw [hMid] at hLast
    rw [hLast, h.data k hk hNe hSlot]
  fresh k hk hNe hZero hSlot := by
    by_cases hMid : slot s'.disk s'.ip k = 0
    · exact h'.fresh k hk hNe hMid hSlot
    · rw [h'.slots k hk hMid, h'.data k hk hNe hMid]
      exact h.fresh k hk hNe hZero hMid

end Grows

---- Mapping A Block

/- The inode is allocated and its copy, taken with the other inodes, owns its blocks. -/
structure Locked (sb : Superblock) (f : Nat → Dinode) (s : Ip) : Prop where
  inum : s.inum < sb.ninodes.toNat
  type : s.ip.type ≠ 0
  owned : Owned sb s.disk (update f s.inum s.ip)

/- A step that may map more blocks of the inode. -/
structure Maps (sb : Superblock) (f : Nat → Dinode) (s s' : Ip) : Prop where
  locked : Locked sb f s'
  grows : Grows sb s s'
  others : Others sb f s.inum s.disk s'.disk

section

variable {sb : Superblock} {f : Nat → Dinode} {s s' s'' : Ip} {j k b : Nat}

theorem Maps.refl (h : Locked sb f s) : Maps sb f s s := ⟨h, Grows.refl, Others.refl⟩

theorem Maps.trans (h : Maps sb f s s') (h' : Maps sb f s' s'') : Maps sb f s s'' := by
  refine ⟨h'.locked, h.grows.trans h'.grows, ?_⟩
  have hOthers := h'.others
  rw [h.grows.inum] at hOthers
  exact h.others.trans hOthers

theorem alive_update_self {i : Nat} {d : Dinode} :
    Alive sb (update f i d) i ↔ i < sb.ninodes.toNat ∧ d.type ≠ 0 := by
  unfold Alive
  rw [update_self]

theorem alive_update_of_ne {i : Nat} {d : Dinode} (h : j ≠ i) :
    Alive sb (update f i d) j ↔ Alive sb f j := by
  unfold Alive
  rw [update_of_ne h]

section

variable (h : Locked sb f s)
include h

theorem Locked.alive : Alive sb (update f s.inum s.ip) s.inum :=
  alive_update_self.mpr ⟨h.inum, h.type⟩

theorem Locked.range (hk : k < SLOTS) (hSlot : slot s.disk s.ip k ≠ 0) :
    sb.meta ≤ slot s.disk s.ip k ∧ slot s.disk s.ip k < sb.size.toNat := by
  have hRange := h.owned.range h.alive hk
  rw [update_self] at hRange
  exact hRange hSlot

theorem Locked.once {l : Nat} (hk : k < SLOTS) (hl : l < SLOTS) (hSlot : slot s.disk s.ip k ≠ 0)
    (hEq : slot s.disk s.ip k = slot s.disk s.ip l) : k = l := by
  have hOnce := h.owned.once h.alive h.alive hk hl
  rw [update_self] at hOnce
  exact (hOnce hSlot hEq).2

/- No other inode has a block of this one. -/
theorem Locked.apart {l : Nat} (hj : Alive sb f j) (hNe : j ≠ s.inum) (hk : k < SLOTS)
    (hl : l < SLOTS) (hSlot : slot s.disk s.ip k ≠ 0) :
    slot s.disk (f j) l ≠ slot s.disk s.ip k := by
  intro hEq
  have hOnce := h.owned.once h.alive ((alive_update_of_ne hNe).mpr hj) hk hl
  rw [update_self, update_of_ne hNe] at hOnce
  exact hNe (hOnce hSlot hEq.symm).1.symm

theorem Locked.range_other {l : Nat} (hj : Alive sb f j) (hNe : j ≠ s.inum) (hl : l < SLOTS)
    (hSlot : slot s.disk (f j) l ≠ 0) :
    sb.meta ≤ slot s.disk (f j) l ∧ slot s.disk (f j) l < sb.size.toNat := by
  have hRange := h.owned.range ((alive_update_of_ne hNe).mpr hj) hl
  rw [update_of_ne hNe] at hRange
  exact hRange hSlot

theorem Locked.free (hb : b < sb.size.toNat) (hFree : bit sb s.disk b = false) :
    sb.meta ≤ b ∧ (∀ k, k < SLOTS → slot s.disk s.ip k ≠ 0 → slot s.disk s.ip k ≠ b) ∧ ∀ j k,
      Alive sb f j → j ≠ s.inum → k < SLOTS →
        slot s.disk (f j) k ≠ 0 → slot s.disk (f j) k ≠ b := by
  rcases h.owned.free hb hFree with ⟨hLo, hNobody⟩
  refine ⟨hLo, ?_, ?_⟩
  · intro k hk
    have hMine := hNobody s.inum k h.alive hk
    rw [update_self] at hMine
    exact hMine
  · intro j k hj hNe hk
    have hTheirs := hNobody j k ((alive_update_of_ne hNe).mpr hj) hk
    rw [update_of_ne hNe] at hTheirs
    exact hTheirs

end

/- The slots of all inodes after a step on one of them, given by the slots of that one. -/
theorem owns_update {disk disk' : Disk} {i : Nat} {d d' : Dinode} (hInum : i < sb.ninodes.toNat)
    (hType : d.type ≠ 0) (hType' : d'.type ≠ 0)
    (hOther : ∀ j k, Alive sb f j → j ≠ i → slot disk' (f j) k = slot disk (f j) k) (hk : k < SLOTS)
    (hSlots : ∀ l, l < SLOTS → slot disk' d' l = if l = k then b else slot disk d l) (x : Nat × Nat) :
    owns sb disk' (update f i d') x = update (owns sb disk (update f i d)) (i, k) b x := by
  rcases x with ⟨j, l⟩
  by_cases hj : j = i
  · rw [hj]
    by_cases hl : l < SLOTS
    · rw [owns_eq (alive_update_self.mpr ⟨hInum, hType'⟩) hl, update_self, hSlots l hl]
      by_cases hEq : l = k
      · rw [if_pos hEq, hEq, update_self]
      · rw [if_neg hEq, update_of_ne
          (fun h => hEq (congrArg Prod.snd h)), owns_eq (alive_update_self.mpr ⟨hInum, hType⟩) hl,
          update_self]
    · have hNe : (i, l) ≠ (i, k) := by
        intro h
        have hEq : l = k := congrArg Prod.snd h
        exact hl (hEq ▸ hk)
      rw [update_of_ne hNe]
      unfold owns
      rw [if_neg (fun h => hl h.2), if_neg (fun h => hl h.2)]
  · have hNe : (j, l) ≠ (i, k) := by
      intro h
      exact hj (congrArg Prod.fst h)
    rw [update_of_ne hNe]
    unfold owns
    simp only [alive_update_of_ne hj, update_of_ne hj]
    split
    · rename_i hAlive
      exact hOther j l hAlive.1 hj
    · rfl

section

variable (h : Locked sb f s) (hLayout : Layout sb)
include h hLayout

theorem Locked.slot_setAddr (hk : k < NDIRECT + 1) (hZero : s.ip.addr k = 0)
    (hb : b < sb.size.toNat) (hFree : bit sb s.disk b = false) (l : Nat) :
    slot (allocate sb s.disk b) (s.ip.setAddr k b) l = if l = k then b else slot s.disk s.ip l := by
  rcases h.free hb hFree with ⟨hLo, hMine, _⟩
  have hPos := hLayout.meta_pos hb
  have hWord : b < 2 ^ 32 := Nat.lt_trans hb (UInt32.toNat_lt _)
  by_cases hl : l = k
  · unfold slot
    rw [if_pos hl, hl, if_pos (by omega), Dinode.addr_setAddr_same _ hk hWord]
  rw [if_neg hl]
  unfold slot
  rw [Dinode.addr_setAddr_ne _ hl]
  by_cases hDirect : l ≤ NDIRECT
  · rw [if_pos hDirect, if_pos hDirect]
  rw [if_neg hDirect, if_neg hDirect]
  by_cases hPointer : k = NDIRECT
  · rw [← hPointer, Dinode.addr_setAddr_same _ hk hWord, hZero, if_neg (by omega), if_pos rfl,
      allocate_self, entry_zero]
  rw [Dinode.addr_setAddr_ne _ (Ne.symm hPointer)]
  split
  · rfl
  · rename_i hSome
    have hSlot : slot s.disk s.ip NDIRECT = s.ip.addr NDIRECT := if_pos (Nat.le_refl _)
    have hRange := h.range (k := NDIRECT) (by decide)
    have hNe := hMine NDIRECT (by decide)
    rw [hSlot] at hRange hNe
    rw [hLayout.allocate_other _ hb (hRange hSome).1 (hNe hSome)]

theorem Locked.others_allocate (hb : b < sb.size.toNat) (hFree : bit sb s.disk b = false) :
    Others sb f s.inum s.disk (allocate sb s.disk b) := by
  rcases h.free hb hFree with ⟨hLo, _, hTheirs⟩
  refine ⟨?_, ?_⟩
  · intro j hj _
    exact hLayout.dinode_allocate _ hLo hb hj
  · intro j k hj hNe hk hSlot
    exact hLayout.allocate_other _ hb (h.range_other hj hNe hk hSlot).1
      (hTheirs j k hj hNe hk hSlot)

/- A fresh block goes to `addrs[k]`. -/
theorem Locked.setAddr (hk : k < NDIRECT + 1) (hZero : s.ip.addr k = 0) (hb : b < sb.size.toNat)
    (hFree : bit sb s.disk b = false) :
    Locked sb f { s with
      disk := allocate sb s.disk b
      ip := s.ip.setAddr k b } ∧ Grows sb s { s with
      disk := allocate sb s.disk b
      ip := s.ip.setAddr k b } := by
  rcases h.free hb hFree with ⟨hLo, hMine, _⟩
  have hPos := hLayout.meta_pos hb
  have hSlots := h.slot_setAddr hLayout hk hZero hb hFree
  have hOld : slot s.disk s.ip k = 0 := by
    unfold slot
    rw [if_pos (by omega), hZero]
  have hkS : k < SLOTS := Nat.lt_of_lt_of_le hk (by decide)
  have hOthers := h.others_allocate hLayout hb hFree
  refine ⟨⟨h.inum, h.type, ?_⟩, ⟨rfl, ⟨_, rfl⟩, ?_, ?_, ?_, ?_⟩⟩
  · apply Exact.take h.owned hb hFree (x := (s.inum, k))
    · omega
    · rw [owns_eq h.alive hkS, update_self]
      exact hOld
    · apply owns_update h.inum h.type
      · exact h.type
      · exact fun j l hj hNe => hOthers.slot hj hNe l
      · exact hkS
      · exact fun l _ => hSlots l
    · intro c hc
      exact hLayout.bit_allocate _ hLo hc
  · exact hLayout.dinode_allocate _ hLo hb h.inum
  · intro l hl hSlot
    dsimp only
    rw [hSlots, if_neg]
    intro hEq
    exact hSlot (hEq ▸ hOld)
  · intro l hl _ hSlot
    exact hLayout.allocate_other _ hb (h.range hl hSlot).1 (hMine l hl hSlot)
  · intro l hl _ hSlot hNow
    dsimp only at hNow ⊢
    rw [hSlots] at hNow ⊢
    by_cases hEq : l = k
    · rw [if_pos hEq]
      exact allocate_self _ b
    · rw [if_neg hEq] at hNow
      exact absurd hSlot hNow

end

theorem wp_getAddr {E : Panic → Prop} (hLayout : Layout sb) (h : Locked sb f s)
    (hk : k < NDIRECT + 1) :
    wp (getAddr sb k) (fun addr s' =>
      Maps sb f s s' ∧ s'.ip.addr k = addr ∧ (s.ip.addr k ≠ 0 → s' = s)) E s := by
  unfold getAddr
  rw [wp_bind, wp_get, wp_ite]
  constructor
  · intro hZero
    rw [wp_bind]
    apply wp_balloc
    · rw [if_pos rfl, wp_pure]
      exact ⟨Maps.refl h, hZero, fun _ => rfl⟩
    intro b hb hFree
    have hLo := (h.free hb hFree).1
    have hPos := hLayout.meta_pos hb
    have hWord : b < 2 ^ 32 := Nat.lt_trans hb (UInt32.toNat_lt _)
    rw [if_neg (by omega), wp_bind, wp_setIp, wp_pure]
    rcases h.setAddr hLayout hk hZero hb hFree with ⟨hLocked, hGrows⟩
    exact
      ⟨⟨hLocked, hGrows, h.others_allocate hLayout hb hFree⟩, Dinode.addr_setAddr_same _ hk hWord,
        fun hSome => absurd hZero hSome⟩
  · intro hSome
    rw [wp_pure]
    exact ⟨Maps.refl h, rfl, fun _ => rfl⟩

/- The disk after a fresh block goes to an indirect block. -/
def enter (sb : Superblock) (disk : Disk) (a j b : Nat) : Disk :=
  (allocate sb disk b).write a (putEntry (allocate sb disk b a) j b)

theorem slot_pointer (disk : Disk) (d : Dinode) : slot disk d NDIRECT = d.addr NDIRECT :=
  if_pos (Nat.le_refl _)

theorem slot_entry {disk : Disk} {d : Dinode} (h : d.addr NDIRECT ≠ 0) (j : Nat) :
    slot disk d (NDIRECT + 1 + j) = entry (disk (d.addr NDIRECT)) j := by
  unfold slot
  rw [if_neg (by omega), if_neg h]
  congr 1
  omega

theorem Locked.slot_enter (h : Locked sb f s) (hLayout : Layout sb) (hj : j < NINDIRECT)
    (hPointer : s.ip.addr NDIRECT ≠ 0) (hb : b < sb.size.toNat) (hFree : bit sb s.disk b = false)
    (l : Nat) :
    slot (enter sb s.disk (s.ip.addr NDIRECT) j b) s.ip l =
      if l = NDIRECT + 1 + j then b
      else slot s.disk s.ip l := by
  have hWord : b < 2 ^ 32 := Nat.lt_trans hb (UInt32.toNat_lt _)
  rcases h.free hb hFree with ⟨_, hMine, _⟩
  have hRange := h.range (k := NDIRECT) (by decide)
  have hNe := hMine NDIRECT (by decide)
  rw [slot_pointer] at hRange hNe
  by_cases hl : l ≤ NDIRECT
  · rw [if_neg (by omega)]
    unfold slot
    rw [if_pos hl, if_pos hl]
  rcases Nat.exists_eq_add_of_le (show NDIRECT + 1 ≤ l by omega) with ⟨k, hk⟩
  rw [hk, slot_entry hPointer, slot_entry hPointer]
  unfold enter
  rw [Disk.write_same]
  by_cases hEq : k = j
  · rw [if_pos (by rw [hEq]), hEq]
    exact entry_putEntry_same _ hj hWord
  · rw [if_neg (by omega), entry_putEntry_ne _ hEq,
      hLayout.allocate_other _ hb (hRange hPointer).1 (hNe hPointer)]

/- Blocks of the data area other than the two are as before. -/
theorem Layout.enter_other (hLayout : Layout sb) {disk : Disk} {a c : Nat} (hb : b < sb.size.toNat)
    (hc : sb.meta ≤ c) (hNe : c ≠ b) (hNePointer : c ≠ a) : enter sb disk a j b c = disk c := by
  unfold enter
  rw [Disk.write_other _ _ hNePointer, hLayout.allocate_other _ hb hc hNe]

theorem Locked.others_enter (h : Locked sb f s) (hLayout : Layout sb)
    (hPointer : s.ip.addr NDIRECT ≠ 0) (hb : b < sb.size.toNat) (hFree : bit sb s.disk b = false) :
    Others sb f s.inum s.disk (enter sb s.disk (s.ip.addr NDIRECT) j b) := by
  rcases h.free hb hFree with ⟨hLo, _, hTheirs⟩
  have hRange := h.range (k := NDIRECT) (by decide)
  rw [slot_pointer] at hRange
  refine ⟨?_, ?_⟩
  · intro i hi _
    unfold enter
    rw [hLayout.dinode_write _ (hRange hPointer).1
      (hRange hPointer).2 hi, hLayout.dinode_allocate _ hLo hb hi]
  intro i k hi hNe hk hSlot
  apply hLayout.enter_other hb
  · exact (h.range_other hi hNe hk hSlot).1
  · exact hTheirs i k hi hNe hk hSlot
  · have hApart :=
      h.apart hi hNe (k := NDIRECT) (by decide) hk
    rw [slot_pointer] at hApart
    exact hApart hPointer

/- A fresh block goes to entry `j` of the indirect block. -/
theorem Locked.putEntry (h : Locked sb f s) (hLayout : Layout sb) (hj : j < NINDIRECT)
    (hPointer : s.ip.addr NDIRECT ≠ 0) (hZero : entry (s.disk (s.ip.addr NDIRECT)) j = 0)
    (hb : b < sb.size.toNat) (hFree : bit sb s.disk b = false) :
    Locked sb f { s with
      disk := enter sb s.disk (s.ip.addr NDIRECT) j b } ∧ Grows sb s { s with
      disk := enter sb s.disk (s.ip.addr NDIRECT) j b } := by
  rcases h.free hb hFree with ⟨hLo, hMine, _⟩
  have hPos := hLayout.meta_pos hb
  have hSlots := h.slot_enter hLayout hj hPointer hb hFree
  have hOld : slot s.disk s.ip (NDIRECT + 1 + j) = 0 := by rw [slot_entry hPointer, hZero]
  have hkS : NDIRECT + 1 + j < SLOTS := by
    unfold SLOTS
    omega
  have hOthers := h.others_enter hLayout (j := j) hPointer hb hFree
  have hRange := h.range (k := NDIRECT) (by decide)
  have hNe := hMine NDIRECT (by decide)
  rw [slot_pointer] at hRange hNe
  refine ⟨⟨h.inum, h.type, ?_⟩, ⟨rfl, ⟨_, rfl⟩, ?_, ?_, ?_, ?_⟩⟩
  · apply Exact.take h.owned hb hFree (x := (s.inum, NDIRECT + 1 + j))
    · omega
    · rw [owns_eq h.alive hkS, update_self]
      exact hOld
    · apply owns_update h.inum h.type
      · exact h.type
      · exact fun i l hi hNe => hOthers.slot hi hNe l
      · exact hkS
      · exact fun l _ => hSlots l
    · intro c hc
      unfold enter
      rw [hLayout.bit_write _ (hRange hPointer).1 hc]
      exact hLayout.bit_allocate _ hLo hc
  · unfold enter
    rw [hLayout.dinode_write _ (hRange hPointer).1
      (hRange hPointer).2 h.inum, hLayout.dinode_allocate _ hLo hb h.inum]
  · intro l hl hSlot
    dsimp only
    rw [hSlots, if_neg]
    intro hEq
    exact hSlot (hEq ▸ hOld)
  · intro l hl hData hSlot
    apply hLayout.enter_other hb (h.range hl hSlot).1 (hMine l hl hSlot)
    intro hEq
    rw [← slot_pointer s.disk] at hEq
    exact hData (h.once hl (by decide) hSlot hEq)
  · intro l hl _ hSlot hNow
    dsimp only at hNow ⊢
    rw [hSlots] at hNow ⊢
    by_cases hEq : l = NDIRECT + 1 + j
    · rw [if_pos hEq]
      unfold enter
      rw [Disk.write_other _ _ (Ne.symm (hNe hPointer)), allocate_self]
    · rw [if_neg hEq] at hNow
      exact absurd hSlot hNow

theorem wp_getEntry {E : Panic → Prop} (hLayout : Layout sb) (h : Locked sb f s)
    (hj : j < NINDIRECT) (hPointer : s.ip.addr NDIRECT ≠ 0) :
    wp (getEntry sb (s.ip.addr NDIRECT) j) (fun addr s' =>
      Maps sb f s s' ∧ slot s'.disk s'.ip (NDIRECT + 1 + j) = addr ∧
        (entry (s.disk (s.ip.addr NDIRECT)) j ≠ 0 → s' = s)) E s := by
  unfold getEntry
  rw [wp_bind, wp_get, wp_ite]
  constructor
  · intro hZero
    rw [wp_bind]
    apply wp_balloc
    · rw [if_pos rfl, wp_pure]
      refine ⟨Maps.refl h, ?_, fun _ => rfl⟩
      rw [slot_entry hPointer, hZero]
    intro b hb hFree
    have hLo := (h.free hb hFree).1
    have hPos := hLayout.meta_pos hb
    rw [if_neg (by omega), wp_bind, wp_setDisk, wp_pure]
    rcases h.putEntry hLayout hj hPointer hZero hb hFree with ⟨hLocked, hGrows⟩
    refine ⟨⟨hLocked, hGrows, h.others_enter hLayout hPointer hb hFree⟩,
        ?_, fun hSome => absurd hZero hSome⟩
    have hSlot := h.slot_enter hLayout hj hPointer hb hFree (NDIRECT + 1 + j)
    rw [if_pos rfl] at hSlot
    exact hSlot
  · intro hSome
    rw [wp_pure]
    exact ⟨Maps.refl h, slot_entry hPointer j, fun _ => rfl⟩

/- Block `bn` of the inode is mapped, or there is no space. -/
theorem wp_bmap {E : Panic → Prop} (hLayout : Layout sb) (h : Locked sb f s) {bn : Nat}
    (hbn : bn < MAXFILE) :
    wp (bmap sb bn) (fun addr s' =>
      Maps sb f s s' ∧ (addr ≠ 0 → slot s'.disk s'.ip (slotOf bn) = addr) ∧
        (slot s.disk s.ip (slotOf bn) ≠ 0 → s' = s ∧ addr ≠ 0)) E s := by
  unfold bmap
  rw [wp_ite]
  constructor
  · intro hDirect
    have hSlot : ∀ t : Ip, slot t.disk t.ip (slotOf bn) = t.ip.addr bn := by
      intro t
      unfold slotOf slot
      rw [if_pos hDirect, if_pos (by omega)]
    refine wp_post (wp_getAddr hLayout h (by omega)) ?_
    rintro addr s' ⟨hMaps, hAddr, hSame⟩
    rw [hSlot, hSlot]
    refine ⟨hMaps, fun _ => hAddr, ?_⟩
    intro hSome
    refine ⟨hSame hSome, ?_⟩
    rw [← hAddr, hSame hSome]
    exact hSome
  intro hDirect
  have hIndirect : bn - NDIRECT < NINDIRECT := by
    unfold MAXFILE at hbn
    omega
  have hIndex : slotOf bn = NDIRECT + 1 + (bn - NDIRECT) := by
    unfold slotOf
    rw [if_neg hDirect]
    omega
  rw [if_pos hIndirect, wp_bind]
  refine wp_post (wp_getAddr hLayout h (Nat.lt_succ_self _)) ?_
  rintro addr s₁ ⟨hMaps, hAddr, hSame⟩
  rw [hIndex, wp_ite]
  constructor
  · intro hZero
    rw [wp_pure]
    refine ⟨hMaps, fun hNe => absurd rfl hNe, ?_⟩
    intro hSlot
    have hPointer : s.ip.addr NDIRECT = 0 := by
      by_contra hSome
      rw [hSame hSome] at hAddr
      exact hSome (hAddr.trans hZero)
    unfold slot at hSlot
    rw [if_neg (by omega), if_pos hPointer] at hSlot
    exact absurd rfl hSlot
  · intro hSome
    rw [← hAddr] at hSome ⊢
    refine wp_post (wp_getEntry hLayout hMaps.locked hIndirect hSome) ?_
    rintro entry' s₂ ⟨hMaps', hEntry, hSame'⟩
    refine ⟨hMaps.trans hMaps', fun _ => hEntry, ?_⟩
    intro hSlot
    have hPointer : s.ip.addr NDIRECT ≠ 0 := by
      intro hZero
      unfold slot at hSlot
      rw [if_neg (by omega), if_pos hZero] at hSlot
      exact hSlot rfl
    have hFirst := hSame hPointer
    rw [slot_entry hPointer] at hSlot
    have hLast : s₂ = s := by
      rw [← hFirst]
      apply hSame'
      rw [hFirst]
      exact hSlot
    refine ⟨hLast, ?_⟩
    rw [← hEntry, hLast, slot_entry hPointer]
    exact hSlot

end

---- Truncating

/- Freeing blocks changes the bitmap alone. -/
structure Frees (sb : Superblock) (disk disk' : Disk) : Prop where
  blocks : ∀ c, sb.meta ≤ c → disk' c = disk c
  dinodes : ∀ j, j < sb.ninodes.toNat → dinode sb disk' j = dinode sb disk j

section

variable {sb : Superblock} {f : Nat → Dinode} {s s' : Ip} {own : Nat × Nat → Nat}

theorem Frees.refl {disk : Disk} : Frees sb disk disk := ⟨fun _ _ => rfl, fun _ _ => rfl⟩

theorem Frees.trans {disk disk' disk'' : Disk} (h : Frees sb disk disk')
    (h' : Frees sb disk' disk'') : Frees sb disk disk'' where
  blocks c hc := by rw [h'.blocks c hc, h.blocks c hc]
  dinodes j hj := by rw [h'.dinodes j hj, h.dinodes j hj]

/- The slots `xs` are empty now, and the others are as before. -/
structure Emptied (sb : Superblock) (own : Nat × Nat → Nat) (xs : List (Nat × Nat))
    (disk disk' : Disk) (own' : Nat × Nat → Nat) : Prop where
  exact : Exact own' (bit sb disk') sb.meta sb.size.toNat
  frees : Frees sb disk disk'
  empty : ∀ x ∈ xs, own' x = 0
  same : ∀ x, x ∉ xs → own' x = own x

/- A block in a slot is not free, and it can be freed. -/
theorem wp_bfree (hLayout : Layout sb) (h : Exact own (bit sb s.disk) sb.meta sb.size.toNat)
    {x : Nat × Nat} (hx : own x ≠ 0) :
    wp (bfree sb (own x)) (fun _ s' =>
        s'.ip = s.ip ∧ s'.inum = s.inum ∧ Emptied sb own [x] s.disk s'.disk (update own x 0))
      (fun _ => False) s := by
  rcases h.range x hx with ⟨hLo, hHi⟩
  have hUsed : bit sb s.disk (own x) = true := (h.used _ hHi).mpr (Or.inr ⟨x, hx, rfl⟩)
  unfold bfree
  rw [wp_bind, wp_get, if_neg (by simp [hUsed]), wp_setDisk]
  refine ⟨rfl, rfl, ⟨?_, ⟨?_, ?_⟩, ?_, ?_⟩⟩
  · apply h.give hx
    · exact fun _ => rfl
    · exact fun c _ => bit_clearBit _ _ _
  · exact fun c hc => hLayout.clearBit_data _ hHi hc
  · exact fun j hj => hLayout.dinode_clearBit _ hj
  · intro y hy
    rw [List.mem_singleton.mp hy, update_self]
  · intro y hy
    exact update_of_ne (fun hEq => hy (List.mem_singleton.mpr hEq)) ..

theorem Emptied.trans {disk disk' disk'' : Disk} {own' own'' : Nat × Nat → Nat}
    {xs ys : List (Nat × Nat)} (h : Emptied sb own xs disk disk' own')
    (h' : Emptied sb own' ys disk' disk'' own'') : Emptied sb own (xs ++ ys) disk disk'' own'' where
  exact := h'.exact
  frees := h.frees.trans h'.frees
  empty x hx := by
    by_cases hy : x ∈ ys
    · exact h'.empty x hy
    · rw [h'.same x hy]
      exact h.empty x ((List.mem_append.mp hx).resolve_right hy)
  same x hx := by
    rw [List.mem_append, not_or] at hx
    rw [h'.same x hx.2, h.same x hx.1]

theorem wp_itruncEntries (hLayout : Layout sb) {a : Block} {i : Nat} {js : List Nat}
    (h : Exact own (bit sb s.disk) sb.meta sb.size.toNat) (hNodup : js.Nodup)
    (hOwn : ∀ j ∈ js, own (i, NDIRECT + 1 + j) = entry a j) :
    wp (itruncEntries sb a js) (fun _ s' => s'.ip = s.ip ∧ s'.inum = s.inum ∧
        ∃ own', Emptied sb own (js.map fun j => (i, NDIRECT + 1 + j)) s.disk s'.disk own')
      (fun _ => False) s := by
  induction js generalizing s own with
  | nil =>
    unfold itruncEntries
    rw [wp_pure]
    exact ⟨rfl, rfl, own, h, Frees.refl, fun x hx => absurd hx List.not_mem_nil, fun _ _ => rfl⟩
  | cons j js ih =>
    rcases List.nodup_cons.mp hNodup with ⟨hNot, hRest⟩
    have hFirst := hOwn j List.mem_cons_self
    unfold itruncEntries
    rw [wp_ite]
    constructor
    · intro hZero
      refine wp_post (ih h hRest fun k hk =>
          hOwn k (List.mem_cons_of_mem j hk)) ?_
      rintro _ s' ⟨hIp, hInum, own', hEmptied⟩
      refine ⟨hIp, hInum, own', hEmptied.exact, hEmptied.frees, ?_, ?_⟩
      · intro x hx
        by_cases hIn : x ∈ js.map fun j => (i, NDIRECT + 1 + j)
        · exact hEmptied.empty x hIn
        · rcases List.mem_cons.mp hx with hEq | hTail
          · rw [hEmptied.same x hIn, hEq, hFirst, hZero]
          · exact absurd hTail hIn
      · intro x hx
        exact hEmptied.same x (fun hIn => hx (List.mem_cons_of_mem _ hIn))
    · intro hSome
      rw [← hFirst] at hSome ⊢
      rw [wp_bind]
      refine wp_post (wp_bfree hLayout h hSome) ?_
      rintro _ s₁ ⟨hIp, hInum, hOne⟩
      refine wp_post (ih hOne.exact hRest ?_) ?_
      · intro k hk
        rw [hOne.same]
        · exact hOwn k (List.mem_cons_of_mem j hk)
        · rw [List.mem_singleton]
          intro hEq
          have hkj : NDIRECT + 1 + k = NDIRECT + 1 + j := congrArg Prod.snd hEq
          exact hNot ((show k = j by omega) ▸ hk)
      · rintro _ s₂ ⟨hIp', hInum', own', hMore⟩
        exact ⟨hIp'.trans hIp, hInum'.trans hInum, own', hOne.trans hMore⟩

/- The addresses `is` are zero now. -/
structure Zeroed (is : List Nat) (d d' : Dinode) : Prop where
  fields : ∃ addrs, d' = { d with addrs := addrs }
  addrs : ∀ k, d'.addr k = if k ∈ is then 0 else d.addr k

section

variable (hLayout : Layout sb) (h : Exact own (bit sb s.disk) sb.meta sb.size.toNat)
include hLayout h

theorem wp_itruncDirect {i : Nat} {is : List Nat} (hBound : ∀ k ∈ is, k < NDIRECT + 1)
    (hNodup : is.Nodup) (hOwn : ∀ k ∈ is, own (i, k) = s.ip.addr k) :
    wp (itruncDirect sb is) (fun _ s' => s'.inum = s.inum ∧ Zeroed is s.ip s'.ip ∧
        ∃ own', Emptied sb own (is.map fun k => (i, k)) s.disk s'.disk own')
      (fun _ => False) s := by
  induction is generalizing s own with
  | nil =>
    unfold itruncDirect
    rw [wp_pure]
    exact ⟨rfl, ⟨⟨_, rfl⟩, fun _ => rfl⟩, own, h, Frees.refl,
      fun x hx => absurd hx List.not_mem_nil, fun _ _ => rfl⟩
  | cons k is ih =>
    rcases List.nodup_cons.mp hNodup with ⟨hNot, hRest⟩
    have hFirst := hOwn k List.mem_cons_self
    have hk := hBound k List.mem_cons_self
    unfold itruncDirect
    rw [wp_bind, wp_get, wp_ite]
    constructor
    · intro hZero
      refine wp_post (ih h (fun l hl => hBound l (List.mem_cons_of_mem k hl)) hRest fun l hl =>
            hOwn l (List.mem_cons_of_mem k hl)) ?_
      rintro _ s' ⟨hInum, hZeroed, own', hEmptied⟩
      refine ⟨hInum, ⟨hZeroed.fields, ?_⟩, own', hEmptied.exact, hEmptied.frees, ?_, ?_⟩
      · intro l
        rw [hZeroed.addrs l]
        by_cases hl : l = k
        · rw [hl, if_neg hNot, if_pos List.mem_cons_self, hZero]
        · simp only [List.mem_cons, hl, false_or]
      · intro x hx
        by_cases hIn : x ∈ is.map fun k => (i, k)
        · exact hEmptied.empty x hIn
        · rcases List.mem_cons.mp hx with hEq | hTail
          · rw [hEmptied.same x hIn, hEq, hFirst, hZero]
          · exact absurd hTail hIn
      · intro x hx
        exact hEmptied.same x (fun hIn => hx (List.mem_cons_of_mem _ hIn))
    · intro hSome
      rw [← hFirst] at hSome ⊢
      rw [wp_bind]
      refine wp_post (wp_bfree hLayout h hSome) ?_
      rintro _ s₁ ⟨hIp, hInum, hOne⟩
      rw [wp_bind, wp_setIp, hIp]
      have hSet : ∀ l, (s.ip.setAddr k 0).addr l =
          if l = k then 0 else s.ip.addr l := by
        intro l
        by_cases hl : l = k
        · rw [if_pos hl, hl, Dinode.addr_setAddr_same _ hk (by decide)]
        · rw [if_neg hl, Dinode.addr_setAddr_ne _ hl]
      have hApart : ∀ l ∈ is, l ≠ k := by
        intro l hl hEq
        exact hNot (hEq ▸ hl)
      refine wp_post (ih hOne.exact (fun l hl => hBound l (List.mem_cons_of_mem k hl)) hRest ?_) ?_
      · intro l hl
        dsimp only
        rw [hSet, if_neg (hApart l hl), update_of_ne]
        · exact hOwn l (List.mem_cons_of_mem k hl)
        · intro hEq
          exact hApart l hl (congrArg Prod.snd hEq)
      · rintro _ s₂ ⟨hInum', hZeroed, own', hMore⟩
        refine ⟨hInum'.trans hInum, ⟨?_, ?_⟩, own', hOne.trans hMore⟩
        · rcases hZeroed.fields with ⟨addrs, hEq⟩
          exact ⟨addrs, hEq⟩
        · intro l
          rw [hZeroed.addrs l]
          dsimp only
          rw [hSet]
          by_cases hl : l = k
          · rw [if_pos hl, hl, if_neg hNot, if_pos List.mem_cons_self]
          · simp only [List.mem_cons, hl, false_or, if_false]

theorem wp_itruncIndirect {i : Nat} (hPointer : own (i, NDIRECT) = s.ip.addr NDIRECT)
    (hEntries : ∀ j, j < NINDIRECT → own (i, NDIRECT + 1 + j) =
        if s.ip.addr NDIRECT = 0 then 0
        else entry (s.disk (s.ip.addr NDIRECT)) j) :
    wp (itruncIndirect sb) (fun _ s' =>
      s'.inum = s.inum ∧ Zeroed [NDIRECT] s.ip s'.ip ∧ ∃ own', Emptied sb own
          ((List.range NINDIRECT).map (fun j => (i, NDIRECT + 1 + j)) ++ [(i, NDIRECT)])
          s.disk s'.disk own') (fun _ => False) s := by
  unfold itruncIndirect
  rw [wp_bind, wp_get, wp_ite]
  constructor
  · intro hZero
    rw [wp_pure]
    refine ⟨rfl, ⟨⟨_, rfl⟩, ?_⟩, own, h, Frees.refl, ?_, fun _ _ => rfl⟩
    · intro k
      by_cases hk : k = NDIRECT
      · rw [hk, hZero]
        simp
      · simp [hk]
    · intro x hx
      rcases List.mem_append.mp hx with hEntry | hLast
      · rcases List.mem_map.mp hEntry with ⟨j, hj, hEq⟩
        rw [← hEq, hEntries j (List.mem_range.mp hj), if_pos hZero]
      · rw [List.mem_singleton.mp hLast, hPointer, hZero]
  · intro hSome
    rw [wp_bind]
    refine wp_post (wp_itruncEntries hLayout (i := i) h List.nodup_range ?_) ?_
    · intro j hj
      rw [hEntries j (List.mem_range.mp hj), if_neg hSome]
    rintro _ s₁ ⟨hIp, hInum, own', hEmptied⟩
    have hLast : own' (i, NDIRECT) = s.ip.addr NDIRECT := by
      rw [hEmptied.same, hPointer]
      rw [List.mem_map]
      rintro ⟨j, _, hEq⟩
      have hIndex : NDIRECT + 1 + j = NDIRECT := congrArg Prod.snd hEq
      omega
    rw [← hLast] at hSome ⊢
    rw [wp_bind]
    refine wp_post (wp_bfree hLayout hEmptied.exact hSome) ?_
    rintro _ s₂ ⟨hIp', hInum', hOne⟩
    rw [wp_setIp, hIp', hIp]
    refine ⟨hInum'.trans hInum, ⟨⟨_, rfl⟩, ?_⟩, _, hEmptied.trans hOne⟩
    intro k
    by_cases hk : k = NDIRECT
    · rw [hk, Dinode.addr_setAddr_same _ (by decide) (by decide)]
      simp
    · rw [Dinode.addr_setAddr_ne _ hk]
      simp [hk]

end

theorem slot_of_addr_zero {disk : Disk} {d : Dinode} (h : ∀ k, d.addr k = 0) (k : Nat) :
    slot disk d k = 0 := by
  unfold slot
  rw [h, h, if_pos rfl]
  split
  · rfl
  · rfl

theorem Locked.others_frees (h : Locked sb f s) (hLayout : Layout sb) {disk : Disk}
    (hFrees : Frees sb s.disk disk) (d : Dinode) :
    Others sb f s.inum s.disk (putDinode sb disk s.inum d) := by
  refine ⟨?_, ?_⟩
  · intro j hj hNe
    rw [dinode_putDinode_ne _ _ hNe, hFrees.dinodes j hj]
  · intro j k hj hNe hk hSlot
    rcases h.range_other hj hNe hk hSlot with ⟨hLo, hHi⟩
    rw [hLayout.putDinode_data _ h.inum hLo hHi, hFrees.blocks _ hLo]

/- The inode without blocks, and the slots emptied for it. -/
theorem Locked.emptied (h : Locked sb f s) (hLayout : Layout sb) {disk : Disk}
    {own' : Nat × Nat → Nat} {xs : List (Nat × Nat)} {d : Dinode}
    (hEmptied : Emptied sb (owns sb s.disk (update f s.inum s.ip)) xs s.disk disk own')
    (hMem : ∀ x, x ∈ xs ↔ x.1 = s.inum ∧ x.2 < SLOTS) (hType : d.type ≠ 0)
    (hZero : ∀ k, d.addr k = 0) : Locked sb f ⟨putDinode sb disk s.inum d, s.inum, d⟩ := by
  have hOthers := h.others_frees hLayout hEmptied.frees d
  refine ⟨h.inum, hType, ?_⟩
  apply hEmptied.exact.congr
  · rintro ⟨j, k⟩
    by_cases hj : j = s.inum
    · by_cases hk : k < SLOTS
      · rw [hEmptied.empty _ ((hMem (j, k)).mpr ⟨hj, hk⟩), hj,
          owns_eq (alive_update_self.mpr ⟨h.inum, hType⟩) hk, update_self]
        exact slot_of_addr_zero hZero k
      · rw [hEmptied.same _ (fun hIn => hk ((hMem (j, k)).mp hIn).2)]
        unfold owns
        rw [if_neg (fun hAnd => hk hAnd.2), if_neg (fun hAnd => hk hAnd.2)]
    · rw [hEmptied.same _ (fun hIn => hj ((hMem (j, k)).mp hIn).1)]
      unfold owns
      dsimp only
      simp only [alive_update_of_ne hj, update_of_ne hj]
      split
      · rename_i hAlive
        exact hOthers.slot hAlive.1 hj k
      · rfl
  · exact fun c _ => hLayout.bit_putDinode _ h.inum d

/- The inode loses its blocks, and the copy on disk says so. No block is freed twice. -/
theorem wp_itrunc (hLayout : Layout sb) (h : Locked sb f s) :
    wp (itrunc sb) (fun _ s' => s'.inum = s.inum ∧
        s'.ip = { s.ip with size := 0, addrs := fun _ => 0 } ∧ Locked sb f s' ∧
        Others sb f s.inum s.disk s'.disk ∧ dinode sb s'.disk s.inum = s'.ip)
      (fun _ => False) s := by
  have hOwn :
      ∀ k, k < SLOTS → owns sb s.disk (update f s.inum s.ip) (s.inum, k) = slot s.disk s.ip k := by
    intro k hk
    rw [owns_eq h.alive hk, update_self]
  unfold itrunc
  rw [wp_bind]
  refine wp_post (wp_itruncDirect hLayout (i := s.inum) h.owned ?_ List.nodup_range ?_) ?_
  · intro k hk
    exact Nat.lt_succ_of_lt (List.mem_range.mp hk)
  · intro k hk
    have hLt := List.mem_range.mp hk
    rw [hOwn k (Nat.lt_trans hLt (by decide))]
    exact if_pos (Nat.le_of_lt hLt)
  rintro _ s₁ ⟨hInum, hDirect, own₁, hEmptied⟩
  have hPointer : s₁.ip.addr NDIRECT = s.ip.addr NDIRECT := by
    rw [hDirect.addrs, if_neg]
    simp
  have hSame : ∀ k, NDIRECT ≤ k → k < SLOTS → own₁ (s.inum, k) = slot s.disk s.ip k := by
    intro k hLe hLt
    rw [hEmptied.same, hOwn k hLt]
    rw [List.mem_map]
    rintro ⟨l, hl, hEq⟩
    have hIndex : l = k := congrArg Prod.snd hEq
    have hLess := List.mem_range.mp hl
    omega
  rw [wp_bind]
  refine wp_post (wp_itruncIndirect hLayout (i := s.inum) hEmptied.exact ?_ ?_) ?_
  · rw [hSame NDIRECT (Nat.le_refl _) (by decide), slot_pointer, hPointer]
  · intro j hj
    rw [hSame _ (by omega) (by unfold SLOTS; omega), hPointer]
    by_cases hZero : s.ip.addr NDIRECT = 0
    · unfold slot
      rw [if_neg (by omega), if_pos hZero, if_pos hZero]
    · have hRange := h.range (k := NDIRECT) (by decide)
      rw [slot_pointer] at hRange
      rw [if_neg hZero, slot_entry hZero, hEmptied.frees.blocks _ (hRange hZero).1]
  rintro _ s₂ ⟨hInum', hIndirect, own₂, hEmptied'⟩
  have hZero : ∀ k, s₂.ip.addr k = 0 := by
    intro k
    rw [hIndirect.addrs, hDirect.addrs]
    by_cases hk : k < NDIRECT
    · simp [hk]
    · by_cases hLast : k = NDIRECT
      · simp [hLast]
      · simp only [List.mem_singleton, hLast, List.mem_range, hk, if_false]
        unfold Dinode.addr
        rw [dif_neg (by omega)]
  have hFields :
      { s₂.ip with size := 0 } = { s.ip with size := 0, addrs := fun _ => 0 } := by
    rcases hDirect.fields with ⟨addrs, hOne⟩
    rcases hIndirect.fields with ⟨addrs', hTwo⟩
    rw [hOne] at hTwo
    apply Dinode.ext_addr
    · rw [hTwo]
    · rw [hTwo]
    · rw [hTwo]
    · rw [hTwo]
    · rfl
    · intro k
      refine (hZero k).trans ?_
      unfold Dinode.addr
      split
      · rfl
      · rfl
  rw [wp_bind, wp_setIp, wp_iupdate]
  dsimp only
  rw [hFields, hInum', hInum]
  refine ⟨rfl, rfl, ?_, ?_, dinode_putDinode_same ..⟩
  · apply h.emptied hLayout (hEmptied.trans hEmptied')
    · rintro ⟨j, k⟩
      simp only [List.mem_append, List.mem_map,
        List.mem_range, List.mem_singleton, Prod.mk.injEq]
      constructor
      · rintro (⟨l, hl, hEq, hk⟩ |
          ⟨l, hl, hEq, hk⟩ | ⟨hEq, hk⟩)
        · exact ⟨hEq.symm, by unfold SLOTS; omega⟩
        · exact ⟨hEq.symm, by unfold SLOTS; omega⟩
        · exact ⟨hEq, by unfold SLOTS; omega⟩
      · rintro ⟨hEq, hk⟩
        by_cases hLess : k < NDIRECT
        · exact Or.inl ⟨k, hLess, hEq.symm, rfl⟩
        · by_cases hLast : k = NDIRECT
          · exact Or.inr (Or.inr ⟨hEq, hLast⟩)
          · unfold SLOTS at hk
            exact Or.inr (Or.inl ⟨k - (NDIRECT + 1), by omega, hEq.symm, by omega⟩)
    · exact h.type
    · intro k
      unfold Dinode.addr
      split
      · rfl
      · rfl
  · exact h.others_frees hLayout (hEmptied.trans hEmptied').frees _

end

end Xv6.Fs

import Xv6.Fs.Writing
import Xv6.Mkfs.Mkfs

/-
  Appending to a file of the image.

  The kernel reads the image with the bitmap that `balloc`
  writes at the end. In the image with that bitmap put in
  already (`shadow`), taking the next block of the counter is
  an allocation, and `iappend` writes through the block map
  as the kernel does.

  The rules used by name are:
    * `wp_mapBlock`
    * `wp_iappendLoop`
    * `wp_iappend`
-/

namespace Xv6.Mkfs

open Prog

open Fs

---- The Bitmap

/- The image as the kernel will see it. -/
def shadow (img : Img) : Disk := img.disk.write sb.bmapstart.toNat (bitmap img.freeblock)

theorem layout : Layout sb := by
  have hSize : sb.size.toNat = 2000 := by decide
  have hNinodes : sb.ninodes.toNat = 200 := by decide
  have hStart : sb.inodestart.toNat = 32 := by decide
  have hBmap : sb.bmapstart.toNat = 45 := by decide
  have hMeta : sb.meta = 46 := by decide
  refine ⟨?_, ?_⟩
  · intro i hi
    unfold IBLOCK IPB BSIZE
    omega
  · intro b hb
    unfold BBLOCK BPB BSIZE
    omega

theorem test_bitmap {used i : Nat} (hi : i < BPB) :
    Bitmap.test (bitmap used) i = decide (i < used) := by
  induction used with
  | zero =>
    unfold bitmap Bitmap.test
    rw [Bytes.get_zero]
    simp
  | succ used ih =>
    unfold bitmap
    rw [Bitmap.test_set _ (by unfold BPB at hi; omega), ih]
    by_cases hEq : i = used
    · simp [hEq]
    · have hIff : i < used + 1 ↔ i < used := by omega
      simp [hEq, hIff]

theorem bit_shadow (img : Img) {b : Nat} (hb : b < FSSIZE) :
    bit sb (shadow img) b = decide (b < img.freeblock) := by
  have hBmap : sb.bmapstart.toNat = 45 := by decide
  have hBlock : BBLOCK b sb = sb.bmapstart.toNat := by
    unfold BBLOCK BPB BSIZE
    unfold FSSIZE at hb
    omega
  have hMod : b % BPB = b := by
    unfold BPB BSIZE
    unfold FSSIZE at hb
    omega
  unfold bit shadow
  rw [hBlock, Disk.write_same, hMod]
  apply test_bitmap
  unfold BPB BSIZE
  unfold FSSIZE at hb
  omega

theorem shadow_other (img : Img) {b : Nat} (hb : b ≠ sb.bmapstart.toNat) :
    shadow img b = img.disk b := Disk.write_other _ _ hb

theorem shadow_wsect (img : Img) {b : Nat} (hb : b ≠ sb.bmapstart.toNat) (len : Nat) (v : Block) :
    shadow { img with disk := img.disk.write b v, len := len } = (shadow img).write b v := by
  funext c
  unfold shadow Disk.write
  dsimp only
  by_cases hc : c = b
  · rw [if_pos hc, if_pos hc, if_neg (hc ▸ hb)]
  · rw [if_neg hc, if_neg hc]

/- The image has its full length, and the blocks that are not taken are zero. -/
structure Sound (img : Img) : Prop where
  len : img.len = FSSIZE
  low : nmeta ≤ img.freeblock
  high : img.freeblock ≤ FSSIZE
  zeros : ∀ b, img.freeblock ≤ b → img.disk b = Bytes.zero

variable {img : Img}

theorem Sound.take (h : Sound img) (hRoom : img.freeblock < FSSIZE) :
    Sound { img with freeblock := img.freeblock + 1 } := by
  have hLow := h.low
  refine ⟨h.len, ?_, ?_, ?_⟩
  · dsimp only
    omega
  · exact hRoom
  · intro b hb
    dsimp only at hb
    exact h.zeros b (by omega)

theorem Sound.wsect (h : Sound img) {b : Nat} (hb : b < img.freeblock) (v : Block) :
    Sound { img with
      disk := img.disk.write b v
      len := max img.len (b + 1) } := by
  have hHigh := h.high
  have hLen := h.len
  refine ⟨?_, h.low, h.high, ?_⟩
  · dsimp only
    omega
  · intro c hc
    dsimp only at hc ⊢
    rw [Disk.write_other _ _ (by omega)]
    exact h.zeros c hc

/- Taking a block is an allocation of the kernel. -/
theorem Sound.shadow_take (h : Sound img) (hRoom : img.freeblock < FSSIZE) :
    shadow { img with freeblock := img.freeblock + 1 } =
      allocate sb (shadow img) img.freeblock := by
  have hBmap : sb.bmapstart.toNat = 45 := by decide
  have hLow := h.low
  have hMeta : nmeta = 46 := by decide
  have hBlock : BBLOCK img.freeblock sb = sb.bmapstart.toNat := by
    unfold BBLOCK BPB BSIZE
    unfold FSSIZE at hRoom
    omega
  have hMod : img.freeblock % BPB = img.freeblock := by
    unfold BPB BSIZE
    unfold FSSIZE at hRoom
    omega
  funext c
  unfold allocate setBit shadow
  rw [hBlock, hMod]
  by_cases hc : c = img.freeblock
  · rw [hc, Disk.write_same, Disk.write_other _ _ (by omega)]
    exact h.zeros _ (Nat.le_refl _)
  · rw [Disk.write_other _ _ hc]
    by_cases hb : c = sb.bmapstart.toNat
    · rw [hb, Disk.write_same, Disk.write_same, Disk.write_same]
      rfl
    · rw [Disk.write_other _ _ hb, Disk.write_other _ _ hb, Disk.write_other _ _ hb]

---- Sectors

theorem wp_wsect (sec : Nat) (buf : Block) (Q : Unit → Img → Prop) (E : Fail → Prop) (img : Img) :
    wp (wsect sec buf) Q E img ↔ Q () { img with
      disk := img.disk.write sec buf
      len := max img.len (sec + 1) } := wp_modify _ Q E img

theorem wp_rsect (sec : Nat) (Q : Block → Img → Prop) (E : Fail → Prop) (img : Img) :
    wp (rsect sec) Q E img ↔
      (sec < img.len → Q (img.disk sec) img) ∧ (¬ sec < img.len → E .die) := by
  unfold rsect
  rw [wp_bind, wp_get, wp_ite, wp_pure, wp_throw]

theorem wp_takeBlock (Q : Nat → Img → Prop) (E : Fail → Prop) (img : Img) :
    wp takeBlock Q E img ↔ Q img.freeblock { img with freeblock := img.freeblock + 1 } := by
  unfold takeBlock
  rw [wp_bind, wp_get, wp_bind, wp_set, wp_pure]

---- Mapping A Block

/- An inode of the image as the kernel holds it. -/
def ipOf (img : Img) (inum : Nat) (din : Dinode) : Ip := ⟨shadow img, inum, din⟩

/- The blocks to take before block `bn` can be written. -/
def missing (disk : Disk) (d : Dinode) (bn : Nat) : Nat :=
  (if NDIRECT ≤ bn ∧ d.addr NDIRECT = 0 then 1 else 0) +
    (if slot disk d (slotOf bn) = 0 then 1 else 0)

variable {f : Nat → Dinode} {inum : Nat} {din : Dinode}

section

/- A step that takes some blocks for the inode. -/
structure Takes (f : Nat → Dinode) (inum : Nat) (img : Img) (din : Dinode) (n : Nat) (img' : Img)
    (din' : Dinode) : Prop where
  maps : Maps sb f (ipOf img inum din) (ipOf img' inum din')
  sound : Sound img'
  freeinode : img'.freeinode = img.freeinode
  freeblock : img'.freeblock = img.freeblock + n

theorem Takes.refl (h : Locked sb f (ipOf img inum din)) (hSound : Sound img) :
    Takes f inum img din 0 img din := ⟨Maps.refl h, hSound, rfl, rfl⟩

theorem free_next (hRoom : img.freeblock < FSSIZE) :
    img.freeblock < sb.size.toNat ∧ bit sb (shadow img) img.freeblock = false := by
  refine ⟨hRoom, ?_⟩
  rw [bit_shadow img hRoom]
  exact decide_eq_false (Nat.lt_irrefl _)

theorem Sound.word (hSound : Sound img) : img.freeblock < 2 ^ 32 := by
  have hHigh := hSound.high
  unfold FSSIZE at hHigh
  omega

/-
  `addrs[k]` gets a block. The counter may have passed the
  end of the image, in which case the address is its length.
-/
theorem wp_mapAddr {E : Fail → Prop} (h : Locked sb f (ipOf img inum din)) (hSound : Sound img)
    {k : Nat} (hk : k < NDIRECT + 1) :
    wp (mapAddr k din) (fun din' img' => Takes f inum img din
            (if din.addr k = 0 then 1 else 0) img' din' ∧
          din'.addr k ≠ 0 ∧ (∀ l, l ≠ k → slot (shadow img') din' l = slot (shadow img) din l) ∧
          (din.addr k ≠ 0 → img' = img ∧ din' = din) ∨
        img.freeblock = FSSIZE ∧ din.addr k = 0 ∧ din'.addr k = FSSIZE ∧ img'.len = FSSIZE)
      E img := by
  unfold mapAddr
  rw [wp_ite]
  constructor
  · intro hZero
    rw [wp_bind, wp_takeBlock, wp_pure, if_pos hZero]
    have hAddr : (din.setAddr k img.freeblock).addr k =
        img.freeblock :=
      Dinode.addr_setAddr_same _ hk hSound.word
    have hLow := hSound.low
    have hMeta : nmeta = 46 := by decide
    by_cases hRoom : img.freeblock < FSSIZE
    · left
      rcases free_next hRoom with ⟨hb, hFree⟩
      rcases h.setAddr layout hk hZero hb hFree with ⟨hLocked, hGrows⟩
      have hOthers := h.others_allocate layout hb hFree
      have hSlots := h.slot_setAddr layout hk hZero hb hFree
      refine ⟨⟨?_, hSound.take hRoom, rfl, rfl⟩, ?_, ?_, ?_⟩
      · unfold ipOf
        rw [hSound.shadow_take hRoom]
        exact ⟨hLocked, hGrows, hOthers⟩
      · omega
      · intro l hl
        have hSame := hSlots l
        rw [if_neg hl] at hSame
        rw [hSound.shadow_take hRoom]
        exact hSame
      · exact fun hSome => absurd hZero hSome
    · right
      have hHigh := hSound.high
      have hEq : img.freeblock = FSSIZE := by omega
      exact ⟨hEq, hZero, hAddr.trans hEq, hSound.len⟩
  · intro hSome
    rw [wp_pure, if_neg hSome]
    left
    exact ⟨Takes.refl h hSound, hSome, fun _ _ => rfl, fun _ => ⟨rfl, rfl⟩⟩

theorem slotOf_direct {bn : Nat} (h : bn < NDIRECT) : slotOf bn = bn := if_pos h

theorem slot_direct (disk : Disk) (d : Dinode) {bn : Nat} (h : bn < NDIRECT) :
    slot disk d bn = d.addr bn := if_pos (Nat.le_of_lt h)

/- Block `bn` of the inode has sector `x`. -/
structure MapsTo (f : Nat → Dinode) (inum bn : Nat) (img : Img) (din : Dinode) (x : Nat)
    (img' : Img) (din' : Dinode) : Prop where
  takes : Takes f inum img din (missing (shadow img) din bn) img' din'
  pos : x ≠ 0
  slot : slot (shadow img') din' (slotOf bn) = x
  pointer : NDIRECT ≤ bn → din'.addr NDIRECT ≠ 0
  frame : ∀ l, l ≠ slotOf bn → (l = NDIRECT → bn < NDIRECT) →
    Fs.slot (shadow img') din' l = Fs.slot (shadow img) din l

/- A fresh block goes to entry `j` of the indirect block. -/
theorem Sound.shadow_enter (hSound : Sound img) (h : Locked sb f (ipOf img inum din))
    (hRoom : img.freeblock < FSSIZE) (hPointer : din.addr NDIRECT ≠ 0) (j len : Nat) :
    shadow { img with
        disk :=
          img.disk.write (din.addr NDIRECT)
            (putEntry (img.disk (din.addr NDIRECT)) j img.freeblock)
        len := len
        freeblock := img.freeblock + 1 } =
      enter sb (shadow img) (din.addr NDIRECT) j img.freeblock := by
  have hRange := h.range (k := NDIRECT) (by decide)
  rcases free_next hRoom with ⟨hb, hFree⟩
  have hMine := (h.free hb hFree).2.1 NDIRECT (by decide)
  unfold ipOf at hRange hMine
  dsimp only at hRange hMine
  rw [slot_pointer] at hRange hMine
  have hMeta : sb.meta = 46 := by decide
  have hBmap : sb.bmapstart.toNat = 45 := by decide
  have hLo := (hRange hPointer).1
  have hNe : din.addr NDIRECT ≠ sb.bmapstart.toNat := by omega
  unfold enter
  rw [← hSound.shadow_take hRoom, shadow_other _ hNe]
  exact shadow_wsect { img with freeblock := img.freeblock + 1 } hNe len _

variable (h : Locked sb f (ipOf img inum din))
include h

/- The blocks of an inode are sectors of the image. -/
theorem Locked.lt_len {k : Nat} (hk : k < SLOTS) (hSlot : slot (shadow img) din k ≠ 0) :
    slot (shadow img) din k < img.freeblock ∧ sb.meta ≤ slot (shadow img) din k := by
  have hRange : sb.meta ≤ slot (shadow img) din k ∧ slot (shadow img) din k < sb.size.toNat :=
    h.range hk hSlot
  refine ⟨?_, hRange.1⟩
  have hBit := h.owned.bit h.alive hk
  rw [Function.update_self] at hBit
  have hTaken := hBit hSlot
  unfold ipOf at hTaken
  dsimp only at hTaken
  rw [bit_shadow img hRange.2] at hTaken
  exact of_decide_eq_true hTaken

theorem wp_mapBlock (hSound : Sound img) {bn : Nat} (hbn : bn < MAXFILE) :
    wp (mapBlock bn din) (fun r img' => MapsTo f inum bn img din r.1 img' r.2 ∨
        FSSIZE < img.freeblock + missing (shadow img) din bn ∧ r.1 = FSSIZE ∧ img'.len = FSSIZE)
      (fun _ => FSSIZE < img.freeblock + missing (shadow img) din bn)
      img := by
  unfold mapBlock
  rw [wp_ite]
  constructor
  · intro hDirect
    have hMissing : missing (shadow img) din bn =
        if din.addr bn = 0 then 1 else 0 := by
      unfold missing
      rw [if_neg (by omega), slotOf_direct hDirect, slot_direct _ _ hDirect, Nat.zero_add]
    rw [wp_bind]
    refine wp_post (wp_mapAddr h hSound (by omega)) ?_
    intro din' img' hPost
    rw [wp_pure, hMissing]
    rcases hPost with ⟨hTakes, hNe, hFrame, _⟩ | ⟨hFull, hZero, hAddr, hLen⟩
    · left
      refine ⟨?_, hNe, ?_, fun hLe => by omega, ?_⟩
      · rw [hMissing]
        exact hTakes
      · rw [slotOf_direct hDirect, slot_direct _ _ hDirect]
      · intro l hl _
        rw [slotOf_direct hDirect] at hl
        exact hFrame l hl
    · right
      rw [if_pos hZero]
      exact ⟨by omega, hAddr, hLen⟩
  intro hDirect
  have hIndirect : bn - NDIRECT < NINDIRECT := by
    unfold MAXFILE at hbn
    omega
  have hIndex : slotOf bn = NDIRECT + 1 + (bn - NDIRECT) := by
    unfold slotOf
    rw [if_neg hDirect]
    omega
  have hSlotLt : NDIRECT + 1 + (bn - NDIRECT) < SLOTS := by
    unfold SLOTS
    omega
  rw [wp_bind]
  refine wp_post (wp_mapAddr h hSound (Nat.lt_succ_self _)) ?_
  intro din₁ img₁ hPost
  rw [wp_bind, wp_rsect]
  rcases hPost with ⟨hTakes, hNe, hFrame, hSame⟩ | ⟨hFull, hZero, hAddr, hLen⟩
  · have hLocked := hTakes.maps.locked
    have hSound₁ := hTakes.sound
    have hRange := Locked.lt_len hLocked (k := NDIRECT) (by decide)
    rw [slot_pointer] at hRange
    have hHigh := hSound₁.high
    have hLen := hSound₁.len
    have hLt := (hRange hNe).1
    have hOld : slot (shadow img₁) din₁ (slotOf bn) = slot (shadow img) din (slotOf bn) := by
      apply hFrame
      rw [hIndex]
      omega
    have hEntry : entry (img₁.disk (din₁.addr NDIRECT)) (bn - NDIRECT) =
        slot (shadow img) din (slotOf bn) := by
      have hMeta : sb.meta = 46 := by decide
      have hBmap : sb.bmapstart.toNat = 45 := by decide
      have hLo := (hRange hNe).2
      rw [← hOld, hIndex, slot_entry hNe, shadow_other _ (by omega)]
    have hMissing : missing (shadow img) din bn = (if din.addr NDIRECT = 0 then 1 else 0) +
        if slot (shadow img) din (slotOf bn) = 0 then 1
        else 0 := by
      have hLe : NDIRECT ≤ bn := by omega
      unfold missing
      simp only [hLe, true_and]
    constructor
    · intro _
      rw [wp_ite]
      constructor
      · intro hZero
        rw [hEntry] at hZero
        rw [wp_bind, wp_takeBlock, wp_bind, wp_wsect, wp_pure]
        dsimp only
        have hWord := hSound₁.word
        have hEntrySame := entry_putEntry_same (img₁.disk (din₁.addr NDIRECT)) hIndirect hWord
        rw [hEntrySame]
        by_cases hRoom : img₁.freeblock < FSSIZE
        · left
          rcases free_next hRoom with ⟨hb, hFree⟩
          have hEmpty : entry (shadow img₁ (din₁.addr NDIRECT)) (bn - NDIRECT) = 0 := by
            rw [← slot_entry hNe, ← hIndex, hOld, hZero]
          rcases hLocked.putEntry layout hIndirect hNe hEmpty hb hFree with ⟨hLocked₂, hGrows⟩
          have hOthers := hLocked.others_enter layout (j := bn - NDIRECT) hNe hb hFree
          have hSlots := hLocked.slot_enter layout hIndirect hNe hb hFree
          have hEnter :=
            hSound₁.shadow_enter hLocked hRoom hNe (bn - NDIRECT)
              (max img₁.len (din₁.addr NDIRECT + 1))
          have hMaps : Maps sb f (ipOf img₁ inum din₁) ⟨enter sb (shadow img₁) (din₁.addr NDIRECT)
              (bn - NDIRECT) img₁.freeblock, inum, din₁⟩ :=
            ⟨hLocked₂, hGrows, hOthers⟩
          have hPos : img₁.freeblock ≠ 0 := by
            have hLow := hSound₁.low
            have hMeta : nmeta = 46 := by decide
            omega
          refine ⟨⟨?_, ?_, hTakes.freeinode, ?_⟩, hPos, ?_, fun _ => hNe, ?_⟩
          · unfold ipOf
            rw [hEnter]
            exact hTakes.maps.trans hMaps
          · exact (hSound₁.take hRoom).wsect (Nat.lt_succ_of_lt hLt) _
          · dsimp only
            rw [hMissing, if_pos hZero, hTakes.freeblock]
            omega
          · rw [hEnter, hIndex]
            have hNew := hSlots (NDIRECT + 1 + (bn - NDIRECT))
            rw [if_pos rfl] at hNew
            exact hNew
          · intro l hl hPointer
            have hOther := hSlots l
            rw [if_neg (by rw [← hIndex]; exact hl)] at hOther
            rw [hEnter]
            refine hOther.trans ?_
            apply hFrame
            intro hEq
            exact hDirect (hPointer hEq)
        · right
          have hEq : img₁.freeblock = FSSIZE := by omega
          have hCount := hTakes.freeblock
          rw [hMissing, if_pos hZero]
          refine ⟨by omega, hEq, ?_⟩
          omega
      · intro hSome
        rw [hEntry] at hSome
        rw [wp_pure, hEntry]
        left
        refine ⟨?_, hSome, hOld, fun _ => hNe, ?_⟩
        · rw [hMissing, if_neg hSome]
          exact hTakes
        · intro l hl hPointer
          apply hFrame
          intro hEq
          exact hDirect (hPointer hEq)
    · intro hOut
      omega
  · have hCount : FSSIZE < img.freeblock + missing (shadow img) din bn := by
      unfold missing
      rw [if_pos ⟨by omega, hZero⟩]
      omega
    constructor
    · intro hIn
      omega
    · intro _
      exact hCount

end

---- Filled Inodes

/- The blocks of a file of `n` bytes, the indirect one too. -/
def blocksFor (n : Nat) : Nat := (n + (BSIZE - 1)) / BSIZE + if NDIRECT * BSIZE < n then 1 else 0

/- The blocks that start below `o` are mapped and no other. -/
structure Filled (disk : Disk) (d : Dinode) (o : Nat) : Prop where
  blocks : ∀ bn, bn < MAXFILE → (slot disk d (slotOf bn) ≠ 0 ↔ bn * BSIZE < o)
  pointer : d.addr NDIRECT ≠ 0 ↔ NDIRECT * BSIZE < o

theorem Filled.congr {disk disk' : Disk} {d d' : Dinode} {o : Nat} (h : Filled disk d o)
    (hSlots : ∀ k, slot disk' d' k = slot disk d k) : Filled disk' d' o := by
  refine ⟨?_, ?_⟩
  · intro bn hbn
    rw [hSlots]
    exact h.blocks bn hbn
  · have hPointer := hSlots NDIRECT
    rw [slot_pointer, slot_pointer] at hPointer
    rw [hPointer]
    exact h.pointer

theorem Filled.missing {disk : Disk} {d : Dinode} {off m : Nat} (h : Filled disk d off)
    (hbn : off / BSIZE < MAXFILE) (hPos : 0 < m) (hm : m ≤ BSIZE - off % BSIZE) :
    blocksFor (off + m) = blocksFor off + missing disk d (off / BSIZE) := by
  have hPointer : (NDIRECT ≤ off / BSIZE ∧ d.addr NDIRECT = 0) ↔ off = 12288 := by
    have hIff := h.pointer
    rw [← not_iff_not, not_not] at hIff
    rw [hIff]
    unfold NDIRECT BSIZE
    omega
  have hSlot : slot disk d (slotOf (off / BSIZE)) = 0 ↔ off % 1024 = 0 := by
    have hIff := h.blocks _ hbn
    rw [← not_iff_not, not_not] at hIff
    rw [hIff]
    unfold BSIZE
    omega
  unfold Mkfs.missing blocksFor
  simp only [hPointer, hSlot]
  unfold BSIZE at hm
  unfold BSIZE NDIRECT
  split <;> split <;> split <;> split <;> omega

variable {img' : Img} {din' : Dinode} {off m tot : Nat}

section

variable {data : List UInt8}

theorem MapsTo.filled {x : Nat} (h : MapsTo f inum (off / BSIZE) img din x img' din')
    (hFilled : Filled (shadow img) din off) (hPos : 0 < m) (hm : m ≤ BSIZE - off % BSIZE) :
    Filled (shadow img') din' (off + m) := by
  refine ⟨?_, ?_⟩
  · intro bn hLt
    by_cases hEq : bn = off / BSIZE
    · rw [hEq, h.slot]
      unfold BSIZE at *
      have hx := h.pos
      omega
    · rw [h.frame, hFilled.blocks bn hLt]
      · unfold BSIZE at *
        omega
      · exact fun hSlot => hEq (slotOf_inj hSlot)
      · exact fun hSlot =>
          absurd hSlot (slotOf_ne_NDIRECT bn)
  · by_cases hDirect : off / BSIZE < NDIRECT
    · have hSame :=
        h.frame NDIRECT (Ne.symm (slotOf_ne_NDIRECT _)) (fun _ => hDirect)
      rw [slot_pointer, slot_pointer] at hSame
      rw [hSame, hFilled.pointer]
      unfold NDIRECT BSIZE at *
      omega
    · have hNe := h.pointer (by omega)
      unfold NDIRECT BSIZE at *
      omega

---- The Loop

/- Bytes of `data` from `tot` on are appended from `off` on. -/
structure Appends (f : Nat → Dinode) (inum : Nat) (data : List UInt8) (img : Img) (din : Dinode)
    (tot off n : Nat) (img' : Img) (din' : Dinode) : Prop where
  writes : Writes sb f (Src.kernel data) tot off (fun _ => False)
    (ipOf img inum din) (tot + n) (off + n)
    (ipOf img' inum din')
  sound : Sound img'
  filled : Filled (shadow img') din' (off + n)
  freeinode : img'.freeinode = img.freeinode
  freeblock : img'.freeblock + blocksFor off = img.freeblock + blocksFor (off + n)

theorem Appends.refl (h : Locked sb f (ipOf img inum din)) (hSound : Sound img)
    (hFilled : Filled (shadow img) din off) : Appends f inum data img din tot off 0 img din :=
  ⟨Writes.refl h, hSound, hFilled, rfl, rfl⟩

theorem Appends.trans {n : Nat} {img'' : Img} {din'' : Dinode}
    (h : Appends f inum data img din tot off m img' din')
    (h' : Appends f inum data img' din' (tot + m) (off + m) n img'' din'') :
    Appends f inum data img din tot off (m + n) img'' din'' := by
  have hWrites := h.writes.trans h'.writes
  have hFilled := h'.filled
  have hCount := h.freeblock
  have hCount' := h'.freeblock
  rw [Nat.add_assoc, Nat.add_assoc] at hWrites
  rw [Nat.add_assoc] at hFilled hCount'
  exact ⟨hWrites, h'.sound, hFilled, h'.freeinode.trans h.freeinode, by omega⟩

theorem MapsTo.appends {p : List UInt8} {x : Nat}
    (h : MapsTo f inum (off / BSIZE) img din x img' din') (hFilled : Filled (shadow img) din off)
    (hbn : off / BSIZE < MAXFILE) (hp : p = data.drop tot) (hLe : m ≤ p.length) (hPos : 0 < m)
    (hm : m ≤ BSIZE - off % BSIZE) :
    Appends f inum data img din tot off m { img' with
        disk := img'.disk.write x ((img'.disk x).put (off % BSIZE) (p.take m))
        len := max img'.len (x + 1) }
      din' := by
  have hMaps := h.takes.maps
  have hSound := h.takes.sound
  have hSlot : Fs.slot (shadow img') din' (slotOf (off / BSIZE)) ≠ 0 := by
    rw [h.slot]
    exact h.pos
  have hRange := Locked.lt_len hMaps.locked (slotOf_lt hbn) hSlot
  rw [h.slot] at hRange
  have hMeta : sb.meta = 46 := by decide
  have hBmap : sb.bmapstart.toNat = 45 := by decide
  have hNe : x ≠ sb.bmapstart.toNat := by omega
  have hShadow :=
    shadow_wsect img' hNe (max img'.len (x + 1)) ((img'.disk x).put (off % BSIZE) (p.take m))
  have hChunk : ipOf { img' with
          disk := img'.disk.write x ((img'.disk x).put (off % BSIZE) (p.take m))
          len := max img'.len (x + 1) }
        inum din' =
      chunk (Src.kernel data) tot off m (ipOf img' inum din') := by
    unfold ipOf chunk
    dsimp only
    rw [hShadow, h.slot, bytes_kernel hp hLe, shadow_other img' hNe]
  refine ⟨?_, hSound.wsect hRange.1 _, ?_, h.takes.freeinode, ?_⟩
  · rw [hChunk]
    exact hMaps.chunk layout hbn hSlot hm (Or.inl rfl)
  · apply (h.filled hFilled hPos hm).congr
    intro k
    rw [hShadow, ← h.slot]
    exact hMaps.locked.slot_write (slotOf_lt hbn) (slotOf_ne_NDIRECT _) hSlot _ k
  · have hCount := h.takes.freeblock
    have hMissing := hFilled.missing hbn hPos hm
    dsimp only
    omega

theorem wp_iappendLoop (h : Locked sb f (ipOf img inum din)) (hSound : Sound img) {p : List UInt8}
    {fuel : Nat} (hFilled : Filled (shadow img) din off) (hp : p = data.drop tot)
    (hFuel : p.length ≤ fuel) :
    wp (iappendLoop fuel off p din) (fun r img' =>
        r.1 = off + p.length ∧ Appends f inum data img din tot off p.length img' r.2) (fun _ =>
        off + p.length ≤ MAXFILE * BSIZE →
          FSSIZE + blocksFor off < img.freeblock + blocksFor (off + p.length))
      img := by
  induction fuel generalizing tot off p din img with
  | zero =>
    have hZero : p.length = 0 := by omega
    unfold iappendLoop
    rw [wp_pure, hZero]
    exact ⟨rfl, Appends.refl h hSound hFilled⟩
  | succ fuel ih =>
    unfold iappendLoop
    rw [wp_ite]
    constructor
    · intro hSome
      dsimp only
      rw [wp_ite]
      constructor
      · intro hbn
        generalize hm : min p.length ((off / BSIZE + 1) * BSIZE - off) = m
        have hOff : off - off / BSIZE * BSIZE = off % BSIZE := by
          have hDiv := Nat.div_add_mod off BSIZE
          rw [Nat.mul_comm] at hDiv
          omega
        have hPos : 0 < m := by
          unfold BSIZE at *
          omega
        have hFit : m ≤ BSIZE - off % BSIZE := by
          unfold BSIZE at *
          omega
        have hLe : m ≤ p.length := by omega
        have hMissing := hFilled.missing hbn hPos hFit
        have hMono : blocksFor (off + m) ≤ blocksFor (off + p.length) := by
          unfold blocksFor BSIZE NDIRECT
          split <;> split <;> omega
        rw [wp_bind]
        apply wp_mono (wp_mapBlock h hSound hbn)
        · rintro ⟨x, din₁⟩ img₁ hPost
          dsimp only at hPost ⊢
          rw [wp_bind, wp_rsect]
          rcases hPost with hMaps | ⟨hFull, hx, hLen⟩
          · have hSlot : slot (shadow img₁) din₁ (slotOf (off / BSIZE)) ≠ 0 := by
              rw [hMaps.slot]
              exact hMaps.pos
            have hRange := Locked.lt_len hMaps.takes.maps.locked (slotOf_lt hbn) hSlot
            rw [hMaps.slot] at hRange
            have hHigh := hMaps.takes.sound.high
            have hLen := hMaps.takes.sound.len
            constructor
            · intro _
              rw [wp_bind, wp_wsect, hOff]
              have hRound := hMaps.appends hFilled hbn hp hLe hPos hFit
              have hDrop : p.drop m = data.drop (tot + m) := by rw [hp, List.drop_drop]
              have hRest : (p.drop m).length = p.length - m := List.length_drop
              have hSum : off + m + (p.length - m) = off + p.length := by omega
              apply wp_mono (ih hRound.writes.locked hRound.sound hRound.filled hDrop (by omega))
              · rintro ⟨off', din₂⟩ img₂ ⟨hOff', hAppends⟩
                dsimp only at hOff' hAppends ⊢
                have hAll := hRound.trans hAppends
                rw [hRest] at hAll hOff'
                have hTotal : m + (p.length - m) = p.length := by omega
                rw [hTotal] at hAll
                exact ⟨by omega, hAll⟩
              · intro _ hOver hIn
                have hCount := hRound.freeblock
                rw [hRest, hSum] at hOver
                have hMore := hOver hIn
                omega
            · intro hOut
              omega
          · constructor
            · intro hIn
              omega
            · intro _ _
              omega
        · intro _ hOver _
          omega
      · intro hPast
        rw [wp_throw]
        intro hIn
        unfold BSIZE at *
        omega
    · intro hNone
      have hZero : p.length = 0 := by omega
      rw [wp_pure, hZero]
      exact ⟨rfl, Appends.refl h hSound hFilled⟩

---- Inodes Of The Image

theorem IBLOCK_eq (inum : Nat) : IBLOCK inum sb = inum / 16 + 32 := by
  rfl

theorem IBLOCK_ne_bmapstart (h : inum < 208) :
    IBLOCK inum sb ≠ sb.bmapstart.toNat ∧ IBLOCK inum sb < nmeta := by
  have hBmap : sb.bmapstart.toNat = 45 := by decide
  have hMeta : nmeta = 46 := by decide
  rw [IBLOCK_eq]
  omega

theorem wp_rinode {Q : Dinode → Img → Prop} {E : Fail → Prop} (hSound : Sound img)
    (hInum : inum < 208) (hPost : Q (dinode sb (shadow img) inum) img) :
    wp (rinode inum) Q E img := by
  rcases IBLOCK_ne_bmapstart hInum with ⟨hNe, hLt⟩
  have hLow := hSound.low
  have hHigh := hSound.high
  have hLen := hSound.len
  unfold rinode
  rw [wp_bind, wp_rsect]
  constructor
  · intro _
    unfold dinode at hPost
    rw [shadow_other img hNe] at hPost
    rw [wp_pure]
    exact hPost
  · intro hOut
    omega

theorem wp_winode {Q : Unit → Img → Prop} {E : Fail → Prop} {d : Dinode} (hSound : Sound img)
    (hInum : inum < 208)
    (hPost : ∀ img', Sound img' → shadow img' = putDinode sb (shadow img) inum d →
      img'.freeinode = img.freeinode → img'.freeblock = img.freeblock → Q () img') :
    wp (winode inum d) Q E img := by
  rcases IBLOCK_ne_bmapstart hInum with ⟨hNe, hLt⟩
  have hLow := hSound.low
  have hHigh := hSound.high
  have hLen := hSound.len
  unfold winode
  rw [wp_bind, wp_rsect]
  constructor
  · intro _
    rw [wp_wsect]
    apply hPost
    · exact hSound.wsect (by omega) _
    · rw [shadow_wsect img hNe]
      unfold putDinode
      rw [shadow_other img hNe]
    · rfl
    · rfl
  · intro hOut
    omega

/- What `iappend` does to the inode and the counters. -/
structure Appended (f : Nat → Dinode) (inum : Nat) (p : List UInt8) (img : Img) (din : Dinode)
    (img' : Img) (din' : Dinode) : Prop where
  wrote : Wrote sb f (Src.kernel p) din.size.toNat p.length p.length
    (ipOf img inum din) (ipOf img' inum din')
  sound : Sound img'
  filled : Filled (shadow img') din' (din.size.toNat + p.length)
  freeinode : img'.freeinode = img.freeinode
  freeblock : img'.freeblock + blocksFor din.size.toNat =
    img.freeblock + blocksFor (din.size.toNat + p.length)

/- Appended bytes end within the largest file. -/
theorem Appends.le {n : Nat} (h : Appends f inum data img din tot din.size.toNat n img' din') :
    din.size.toNat + n < 2 ^ 32 := by
  have hSize := din.size.toNat_lt
  by_cases hZero : n = 0
  · omega
  · have hLast :=
      (h.writes.covered (din.size.toNat + n - 1) (by omega) (by omega)).1
    unfold MAXFILE NINDIRECT NDIRECT BSIZE at hLast
    omega

theorem wp_iappend (h : Locked sb f (ipOf img inum din)) (hDin : dinode sb (shadow img) inum = din)
    (hSound : Sound img) (hFilled : Filled (shadow img) din din.size.toNat) (p : List UInt8) :
    wp (iappend inum p) (fun _ img' => ∃ din', Appended f inum p img din img' din') (fun _ =>
        din.size.toNat + p.length ≤ MAXFILE * BSIZE →
          FSSIZE + blocksFor din.size.toNat < img.freeblock + blocksFor (din.size.toNat + p.length))
      img := by
  have hNinodes : sb.ninodes.toNat = 200 := by decide
  have hInum : inum < 208 := by
    have hLt : inum < sb.ninodes.toNat := h.inum
    omega
  unfold iappend
  rw [wp_bind]
  apply wp_rinode hSound hInum
  rw [hDin, wp_bind]
  refine wp_post (wp_iappendLoop h hSound hFilled (List.drop_zero).symm (Nat.le_refl _)) ?_
  rintro ⟨off, din₁⟩ img₁ ⟨hOff, hAppends⟩
  dsimp only at hOff hAppends ⊢
  have hWord := hAppends.le
  have hSize : (UInt32.ofNat off).toNat = off :=
    UInt32.toNat_ofNat_of_lt' (show off < 2 ^ 32 by omega)
  apply wp_winode hAppends.sound hInum
  intro img₂ hSound₂ hShadow hFreeinode hFreeblock
  have hWrites : Writes sb f (Src.kernel p) 0 din.size.toNat
      (Broken (Src.kernel p) p.length (din.size.toNat + p.length) p.length)
      (ipOf img inum din) (0 + p.length) (din.size.toNat + p.length) (ipOf img₁ inum din₁) :=
    hAppends.writes.mono fun _ hFalse => hFalse.elim
  rw [Nat.zero_add] at hWrites
  have hUpdate : ipOf img₂ inum { din₁ with size := UInt32.ofNat off } =
      (ipOf img₁ inum din₁).update sb { din₁ with size := UInt32.ofNat off } := by
    unfold ipOf Ip.update
    rw [hShadow]
  refine ⟨{ din₁ with size := UInt32.ofNat off }, ?_, hSound₂, ?_, ?_, ?_⟩
  · rw [hUpdate]
    apply hWrites.wrote layout
    · exact Nat.le_refl _
    · exact Nat.le_refl _
    · exact fun _ => Or.inr rfl
    · exact fun _ _ => rfl
    · exact ⟨_, rfl⟩
    · change (UInt32.ofNat off).toNat = _
      rw [hSize]
      unfold ipOf
      dsimp only
      omega
  · apply hAppends.filled.congr
    intro k
    have hUpdates :=
      hAppends.writes.locked.update layout (d := { din₁ with size := UInt32.ofNat off })
        hAppends.writes.locked.type (fun _ => rfl)
    rw [hShadow]
    exact hUpdates.slots k
  · exact hFreeinode.trans hAppends.freeinode
  · rw [hFreeblock]
    exact hAppends.freeblock

end

end Xv6.Mkfs

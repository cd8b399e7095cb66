import Xv6.Fs.Writing

/-
  Writes that fail half way.

  `writei` copies a part of a block from user memory into
  the cached buffer and calls `log_write` only if the copy
  succeeds. What a failed copy has stored before it failed
  is in the cache and not in the log: `readi` returns it
  until the buffer is evicted, and the old block after that
  or after a reboot. If something else logs the block in the
  same group of transactions, it stays.

  Main declarations:
    * `wp_writeLoopSpill`
    * `failed_write_iff`
-/

namespace Xv6.Fs

open Prog

---- The Block That Was Not Logged

/-
  `writeLoop`, with the block a failed copy wrote to without
  `log_write` and what the log and the disk have for it.
-/
def writeLoopSpill (sb : Superblock) (src : Src) :
    (fuel tot off n : Nat) → IpM (Nat × Nat × Option (Nat × Block))
  | 0, tot, off, _ => pure (tot, off, none)
  | fuel + 1, tot, off, n => do
    if tot < n then do
      let addr ← bmap sb (off / BSIZE)
      if addr = 0 then
        pure (tot, off, none)
      else do
        let m := min (n - tot) (BSIZE - off % BSIZE)
        match src.fails tot m with
        | some k => do
          let s ← get
          setDisk fun disk =>
            disk.write addr ((disk addr).put (off % BSIZE) (src.bytes tot (min k m)))
          pure (tot, off, some (addr, s.disk addr))
        | none => do
          setDisk fun disk =>
            disk.write addr ((disk addr).put (off % BSIZE) (src.bytes tot m))
          writeLoopSpill sb src fuel (tot + m) (off + m) n
    else
      pure (tot, off, none)

def writeiSpill (sb : Superblock) (src : Src) (off n : UInt32) :
    IpM (Int × Option (Nat × Block)) := do
  let s ← get
  if off > s.ip.size ∨ off + n < off then
    pure (-1, none)
  else if (off + n).toNat > MAXFILE * BSIZE then
    pure (-1, none)
  else do
    let (tot, off, spill) ← writeLoopSpill sb src n.toNat 0 off.toNat n.toNat
    setIp fun ip =>
      if off > ip.size.toNat then { ip with size := UInt32.ofNat off } else ip
    iupdate sb
    pure (tot, spill)

/- The blocks once the buffer of that block is evicted. -/
def evicted (disk : Disk) : Option (Nat × Block) → Disk
  | none => disk
  | some (addr, old) => disk.write addr old

theorem writeLoop_eq (sb : Superblock) (src : Src) (fuel tot off n : Nat) :
    writeLoop sb src fuel tot off n =
      (fun r => (r.1, r.2.1)) <$> writeLoopSpill sb src fuel tot off n := by
  induction fuel generalizing tot off with
  | zero => rfl
  | succ fuel ih =>
    unfold writeLoop writeLoopSpill
    split
    · rw [map_bind]
      refine bind_congr (fun addr => ?_)
      split
      · rfl
      · dsimp only
        cases src.fails tot (min (n - tot) (BSIZE - off % BSIZE)) with
        | some k => rfl
        | none =>
          dsimp only
          rw [map_bind]
          exact bind_congr (fun _ => ih _ _)
    · rfl

theorem writei_eq (sb : Superblock) (src : Src) (off n : UInt32) :
    writei sb src off n = Prod.fst <$> writeiSpill sb src off n := by
  unfold writei writeiSpill
  rw [map_bind]
  refine bind_congr (fun s => ?_)
  split
  · rfl
  split
  · rfl
  · rw [map_bind, writeLoop_eq, bind_map_left]
    refine bind_congr (fun r => ?_)
    rw [map_bind]
    refine bind_congr (fun _ => ?_)
    rw [map_bind]
    rfl

---- Sources That Spill

/-
  Going through the parts of the write in the old contents
  (`old` up to `size`), the first part whose copy fails has
  stored a byte other than the one that was there.
-/
def Spills (src : Src) (old : Nat → UInt8) (size n : Nat) : (fuel tot off : Nat) → Prop
  | 0, _, _ => False
  | fuel + 1, tot, off =>
    tot < n ∧ off < size ∧
      match src.fails tot (min (n - tot) (BSIZE - off % BSIZE)) with
      | some k =>
        ∃ i, i < min k
              (min (n - tot) (BSIZE - off % BSIZE)) ∧
            off + i < size ∧ old (off + i) ≠ src.byte (tot + i)
      | none =>
        Spills src old size n fuel (tot + min (n - tot) (BSIZE - off % BSIZE))
          (off + min (n - tot) (BSIZE - off % BSIZE))

section

variable {sb : Superblock} {f : Nat → Dinode} {s s' : Ip} {src : Src} {tot off n : Nat}

theorem spills_congr {old old' : Nat → UInt8} {size fuel : Nat}
    (hSame : ∀ o, off ≤ o → o < size → old' o = old o) :
    Spills src old' size n fuel tot off ↔ Spills src old size n fuel tot off := by
  induction fuel generalizing tot off with
  | zero => rfl
  | succ fuel ih =>
    unfold Spills
    refine and_congr_right (fun _ =>
      and_congr_right (fun _ => ?_))
    cases src.fails tot (min (n - tot) (BSIZE - off % BSIZE)) with
    | some k =>
      refine exists_congr (fun i =>
        and_congr_right (fun _ =>
          and_congr_right (fun hi => ?_)))
      rw [hSame _ (by omega) hi]
    | none =>
      exact ih (fun o hLe hLt =>
        hSame o (by omega) hLt)

/-
  After the loop has stopped at `off'`, the cached file has
  `l` bytes more than it counted, all in the block that was
  not logged.
-/
structure Spilled (s : Ip) (src : Src) (tot off off' l : Nat) (spill : Option (Nat × Block))
    (s' : Ip) : Prop where
  cached :
    ∀ o, o < off ∨ off' ≤ o → o / BSIZE < MAXFILE → slot s.disk s.ip (slotOf (o / BSIZE)) ≠ 0 →
      byteAt s'.disk s'.ip o =
        if off' ≤ o ∧ o < off' + l then src.byte (tot + (o - off)) else byteAt s.disk s.ip o
  clean : spill = none → l = 0
  block : ∀ addr old, spill = some (addr, old) → off' / BSIZE < MAXFILE ∧
    slot s'.disk s'.ip (slotOf (off' / BSIZE)) = addr ∧ addr ≠ 0 ∧ l ≤ BSIZE - off' % BSIZE ∧
    (off' = off ∨ off' % BSIZE = 0) ∧ ∀ o, o / BSIZE = off' / BSIZE → o < off ∨ off' ≤ o →
      slot s.disk s.ip (slotOf (o / BSIZE)) ≠ 0 →
        old.get (o % BSIZE) = byteAt s.disk s.ip o

theorem Maps.spilled (h : Maps sb f s s') : Spilled s src tot off off 0 none s' where
  cached o _ ho hOld := by
    rw [if_neg (by omega)]
    exact h.grows.byteAt ho hOld
  clean _ := rfl
  block := nofun

theorem Maps.spilled_chunk {l : Nat} (h : Maps sb f s s') (hbn : off / BSIZE < MAXFILE)
    (hSlot : slot s'.disk s'.ip (slotOf (off / BSIZE)) ≠ 0) (hl : l ≤ BSIZE - off % BSIZE) :
    Spilled s src tot off off l (some (slot s'.disk s'.ip (slotOf (off / BSIZE)),
      s'.disk (slot s'.disk s'.ip (slotOf (off / BSIZE))))) (Fs.chunk src tot off l s') where
  cached o _ ho hOld := by
    have hByte : byteAt (Fs.chunk src tot off l s').disk s'.ip o =
        if off ≤ o ∧ o < off + l then
          src.byte (tot + (o - off))
        else
          byteAt s'.disk s'.ip o :=
      h.locked.byteAt_chunk src hbn hSlot hl ho
    refine hByte.trans ?_
    rw [h.grows.byteAt ho hOld]
  clean hNone := nomatch hNone
  block addr old hSome := by
    cases hSome
    have hSame :=
      h.locked.slot_write (slotOf_lt hbn) (slotOf_ne_NDIRECT (off / BSIZE)) hSlot
        ((s'.disk (slot s'.disk s'.ip (slotOf (off / BSIZE)))).put (off % BSIZE) (src.bytes tot l))
    refine ⟨hbn, hSame _, hSlot, hl, .inl rfl, ?_⟩
    intro o hBlock _ hOld
    rw [← hBlock] at hbn ⊢
    exact h.grows.byteAt hbn hOld

theorem Spilled.cons {s₁ : Ip} {m off' l : Nat} {spill : Option (Nat × Block)}
    (hChunk : Writes sb f src tot off (fun _ => False) s (tot + m) (off + m) s₁)
    (hEnd : off + m ≤ off') (hAligned : spill ≠ none → (off + m) % BSIZE = 0)
    (h : Spilled s₁ src (tot + m) (off + m) off' l spill s') :
    Spilled s src tot off off' l spill s' := by
  have hMapped : ∀ o, o / BSIZE < MAXFILE → slot s.disk s.ip (slotOf (o / BSIZE)) ≠ 0 →
      slot s₁.disk s₁.ip (slotOf (o / BSIZE)) ≠ 0 := by
    intro o ho hOld
    rw [hChunk.slots _ (slotOf_lt ho) hOld]
    exact hOld
  have hKept :
      ∀ o, o < off ∨ off + m ≤ o → o / BSIZE < MAXFILE → slot s.disk s.ip (slotOf (o / BSIZE)) ≠ 0 →
        byteAt s₁.disk s₁.ip o = byteAt s.disk s.ip o := by
    intro o hOut ho hOld
    rcases hChunk.kept o hOut ho hOld with hSame | ⟨_, hNo, _⟩
    · exact hSame
    · exact hNo.elim
  refine ⟨?_, h.clean, ?_⟩
  · intro o hOut ho hOld
    rw [h.cached o (by omega) ho (hMapped o ho hOld)]
    by_cases hIn : off' ≤ o ∧ o < off' + l
    · rw [if_pos hIn, if_pos hIn]
      congr 1
      omega
    · rw [if_neg hIn, if_neg hIn]
      exact hKept o (by omega) ho hOld
  intro addr old hSome
  rcases h.block addr old hSome with ⟨hbn, hAddr, hNe, hl, hStart, hOld⟩
  have hZero : off' % BSIZE = 0 := by
    rcases hStart with hStart | hStart
    · rw [hStart]
      apply hAligned
      rw [hSome]
      exact Option.some_ne_none _
    · exact hStart
  refine ⟨hbn, hAddr, hNe, hl, .inr hZero, ?_⟩
  intro o hBlock hOut hSlot
  have ho : o / BSIZE < MAXFILE := by
    rw [hBlock]
    exact hbn
  have hPast : off' ≤ o := by
    unfold BSIZE at *
    omega
  rw [hOld o hBlock (.inr hPast) (hMapped o ho hSlot)]
  exact hKept o (by omega) ho hSlot

theorem writeLoopSpill_done {fuel : Nat} (hDone : n ≤ tot) :
    writeLoopSpill sb src fuel tot off n = pure (tot, off, none) := by
  cases fuel with
  | zero => rfl
  | succ fuel =>
    unfold writeLoopSpill
    rw [if_neg (by omega)]

/- Some uncounted byte of the old contents has changed. -/
def Visible (s : Ip) (src : Src) (size tot off off' l : Nat) : Prop :=
  ∃ o, off' ≤ o ∧ o < off' + l ∧ o < size ∧ byteAt s.disk s.ip o ≠ src.byte (tot + (o - off))

theorem Spills.lt {old : Nat → UInt8} {size fuel : Nat} (h : Spills src old size n fuel tot off) :
    off < size := by
  cases fuel with
  | zero => exact h.elim
  | succ fuel => exact h.2.1

theorem Spills.tot_lt {old : Nat → UInt8} {size fuel : Nat} (h : Spills src old size n fuel tot off) :
    tot < n := by
  cases fuel with
  | zero => exact h.elim
  | succ fuel => exact h.1

section

variable {s₁ : Ip} {m size : Nat}

variable (h : Writes sb f src tot off (fun _ => False) s (tot + m) (off + m) s₁)
  (hMapped : MappedTo s.disk s.ip size)
include h hMapped

theorem Writes.mappedTo : MappedTo s₁.disk s₁.ip size := by
  intro bn hbn
  rcases hMapped bn hbn with ⟨hLt, hSlot⟩
  rw [h.slots _ (slotOf_lt hLt) hSlot]
  exact ⟨hLt, hSlot⟩

theorem Writes.kept_old :
    ∀ o, off + m ≤ o → o < size → byteAt s₁.disk s₁.ip o = byteAt s.disk s.ip o := by
  intro o hLe hLt
  rcases hMapped.at hLt with ⟨ho, hSlot⟩
  rcases h.kept o (.inr hLe) ho hSlot with
    hSame | ⟨_, hNo, _⟩
  · exact hSame
  · exact hNo.elim

theorem Writes.visible {off' l : Nat} (hLe : off + m ≤ off') :
    Visible s₁ src size (tot + m) (off + m) off' l ↔ Visible s src size tot off off' l := by
  refine exists_congr (fun o =>
    and_congr_right (fun hLow =>
      and_congr_right (fun _ =>
        and_congr_right (fun hIn => ?_))))
  have hIndex : tot + m + (o - (off + m)) = tot + (o - off) := by omega
  rw [h.kept_old hMapped o (by omega) hIn, hIndex]

end

theorem wp_writeLoopSpill (hLayout : Layout sb) (h : Locked sb f s) {size fuel : Nat}
    (hMapped : MappedTo s.disk s.ip size) (hFuel : n ≤ tot + fuel)
    (hEnd : off + (n - tot) ≤ MAXFILE * BSIZE) :
    wp (writeLoopSpill sb src fuel tot off n) (fun r s' =>
      off ≤ r.2.1 ∧ ∃ l, Spilled s src tot off r.2.1 l r.2.2 s' ∧
        (Spills src (byteAt s.disk s.ip) size n fuel tot off ↔
          Visible s src size tot off r.2.1 l)) (fun _ => False) s := by
  induction fuel generalizing tot off s with
  | zero =>
    unfold writeLoopSpill Spills
    rw [wp_pure]
    refine ⟨Nat.le_refl off, 0, (Maps.refl h).spilled, ?_⟩
    constructor
    · exact False.elim
    · rintro ⟨o, hLe, hLt, _⟩
      omega
  | succ fuel ih =>
    unfold writeLoopSpill Spills
    rw [wp_ite]
    constructor
    · intro hLt
      refine wp_mapped hLayout h (by omega) ?_ ?_
      · -- The disk is full, so `off` is past the old size.
        intro s₁ hMaps hZero
        refine ⟨Nat.le_refl off, 0, hMaps.spilled, ?_⟩
        constructor
        · rintro ⟨_, hIn, _⟩
          exact absurd hZero (hMapped.at hIn).2
        · rintro ⟨o, hLe, hLt, _⟩
          omega
      intro s₁ hMaps hbn hSlot
      dsimp only
      generalize hm : min (n - tot) (BSIZE - off % BSIZE) = m
      have hPos : 0 < m := by
        have hMod := Nat.mod_lt off (show 0 < BSIZE by decide)
        omega
      cases hFails : src.fails tot m with
      | some k =>
        dsimp only
        rw [wp_bind, wp_get, wp_bind, wp_setDisk, wp_pure]
        refine ⟨Nat.le_refl off, min k m, hMaps.spilled_chunk hbn hSlot (by omega), ?_⟩
        dsimp only
        constructor
        · rintro ⟨_, _, i, hi, hIn, hDiff⟩
          refine ⟨off + i, by omega, by omega, hIn, ?_⟩
          rw [Nat.add_sub_cancel_left]
          exact hDiff
        · rintro ⟨o, hLe, hHigh, hIn, hDiff⟩
          refine ⟨hLt, by omega, o - off, by omega, by omega, ?_⟩
          rw [Nat.add_sub_cancel' hLe]
          exact hDiff
      | none =>
        have hChunk : Writes sb f src tot off (fun _ => False) s (tot + m) (off + m)
            (Fs.chunk src tot off m s₁) :=
          hMaps.chunk hLayout hbn hSlot (by omega) (Or.inl rfl)
        dsimp only
        rw [wp_bind, wp_setDisk]
        change wp _ _ _ (Fs.chunk src tot off m s₁)
        by_cases hMore : tot + m < n
        · have hAligned : (off + m) % BSIZE = 0 := by
            unfold BSIZE at *
            omega
          refine wp_post (ih hChunk.locked (hChunk.mappedTo hMapped) (by omega) (by omega)) ?_
          rintro r s' ⟨hLe, l, hSpilled, hIff⟩
          refine ⟨by omega, l, hSpilled.cons hChunk hLe (fun _ => hAligned), ?_⟩
          rw [← hChunk.visible hMapped hLe, ← hIff, spills_congr (hChunk.kept_old hMapped)]
          constructor
          · exact fun hSpills => hSpills.2.2
          · intro hSpills
            have hIn := hSpills.lt
            exact ⟨hLt, by omega, hSpills⟩
        · rw [writeLoopSpill_done (by omega), wp_pure]
          have hRest : Spilled (Fs.chunk src tot off m s₁) src
              (tot + m) (off + m) (off + m) 0 none (Fs.chunk src tot off m s₁) :=
            (Maps.refl hChunk.locked).spilled
          refine ⟨by dsimp only; omega, 0,
            hRest.cons hChunk (Nat.le_refl _) (fun hNone => absurd rfl hNone), ?_⟩
          constructor
          · rintro ⟨_, _, hSpills⟩
            exact absurd hSpills.tot_lt hMore
          · rintro ⟨o, hLe, hLt, _⟩
            omega
    · intro hDone
      rw [wp_pure]
      refine ⟨Nat.le_refl off, 0, (Maps.refl h).spilled, ?_⟩
      constructor
      · rintro ⟨hLt, _⟩
        exact absurd hLt hDone
      · rintro ⟨o, hLe, hLt, _⟩
        omega

---- What Later Reads Return

theorem Spilled.update {s₁ : Ip} {off' l : Nat} {spill : Option (Nat × Block)}
    (h : Spilled s src tot off off' l spill s₁)
    (hSlots : ∀ k, k < SLOTS → slot s.disk s.ip k ≠ 0 → slot s₁.disk s₁.ip k = slot s.disk s.ip k)
    (hUpdates : Updates sb f s₁ s') : Spilled s src tot off off' l spill s' := by
  refine ⟨?_, h.clean, ?_⟩
  · intro o hOut ho hOld
    rw [hUpdates.byteAt ho, h.cached o hOut ho hOld]
    rw [hSlots _ (slotOf_lt ho) hOld]
    exact hOld
  · intro addr old hSome
    rw [hUpdates.slots]
    exact h.block addr old hSome

end

section

variable {sb : Superblock} {f : Nat → Dinode} {s s' : Ip} {src : Src} {off n tot l : Nat}
variable {spill : Option (Nat × Block)}

section

variable (h : Wrote sb f src off n tot s s') (hSpilled : Spilled s src 0 off (off + tot) l spill s')
  (hOff : off ≤ s.ip.size.toNat) (hFree : HoleFree s.disk s.ip)
include h hSpilled hOff hFree

/- The cached file: the bytes counted and those that spilled. -/
theorem getElem?_cached (o : Nat) :
    (contents s'.disk s'.ip)[o]? =
      if off + tot ≤ o ∧ o < off + tot + l ∧ o < s.ip.size.toNat then
        some (src.byte (o - off))
      else
        (replaced (contents s.disk s.ip) off (src.bytes 0 tot))[o]? := by
  have hLen := src.length_bytes 0 tot
  rw [getElem?_replaced (by rw [length_contents]; exact hOff), hLen, getElem?_contents, h.size]
  by_cases hIn : off ≤ o ∧ o < off + tot
  · rw [if_pos (by omega), if_neg (by omega), if_pos hIn, h.written o hIn.1 hIn.2]
    unfold Src.bytes
    rw [List.getElem?_map, List.getElem?_range (by omega), Option.map_some, Nat.zero_add]
  rw [if_neg hIn, getElem?_contents]
  by_cases hLt : o < s.ip.size.toNat
  · rcases hFree.at hLt with ⟨hbn, hSlot⟩
    rw [if_pos (by omega), if_pos hLt, hSpilled.cached o (by omega) hbn hSlot]
    by_cases hSpill : off + tot ≤ o ∧ o < off + tot + l
    · rw [if_pos hSpill, if_pos (by omega), Nat.zero_add]
    · rw [if_neg hSpill, if_neg (by omega)]
  · rw [if_neg (by omega), if_neg (by omega), if_neg hLt]

/- Without its cached buffer, the file has the bytes counted. -/
theorem contents_evicted :
    contents (evicted s'.disk spill) s'.ip =
      replaced (contents s.disk s.ip) off (src.bytes 0 tot) := by
  apply List.ext_getElem?
  intro o
  have hCached := getElem?_cached h hSpilled hOff hFree o
  have hSize := h.size
  cases hSpill : spill with
  | none =>
    have hZero := hSpilled.clean hSpill
    rw [if_neg (by omega)] at hCached
    exact hCached
  | some p =>
    rcases hSpilled.block p.1 p.2 hSpill with ⟨hbn, hAddr, hNe, hl, hStart, hOld⟩
    rw [getElem?_contents] at hCached ⊢
    by_cases hLt : o < s'.ip.size.toNat
    · rw [if_pos hLt] at hCached ⊢
      have ho : o / BSIZE < MAXFILE := ((h.holeFree hFree).at hLt).1
      have hWrite := h.locked.byteAt_write hbn (hAddr.symm ▸ hNe) p.2 ho
      rw [hAddr] at hWrite
      show some (byteAt (s'.disk.write p.1 p.2) s'.ip o) = _
      rw [hWrite]
      by_cases hBlock : o / BSIZE = (off + tot) / BSIZE
      · -- The old block has what was there before.
        have hOut : o < off ∨ off + tot ≤ o := by
          by_contra hIn
          rcases hStart with hStart | hStart
          · omega
          · unfold BSIZE at *
            omega
        have hLow : o < s.ip.size.toNat := by omega
        have hSlot := (hFree.at hLow).2
        have hLen := src.length_bytes 0 tot
        rw [if_pos hBlock, hOld o hBlock hOut hSlot,
          getElem?_replaced (by rw [length_contents]; exact hOff),
          if_neg (by omega), getElem?_contents, if_pos hLow]
      · rw [if_neg hBlock, hCached, if_neg]
        rintro ⟨hLow, hHigh, _⟩
        exact hBlock (div_eq_of_chunk hl hLow hHigh)
    · rw [if_neg hLt] at hCached ⊢
      rw [hCached, if_neg (by omega)]

theorem contents_cached_iff :
    contents s'.disk s'.ip = replaced (contents s.disk s.ip) off (src.bytes 0 tot) ↔
      ¬ Visible s src s.ip.size.toNat 0 off (off + tot) l := by
  have hCached := getElem?_cached h hSpilled hOff hFree
  have hLen := src.length_bytes 0 tot
  have hBound : off ≤ (contents s.disk s.ip).length := by
    rw [length_contents]
    exact hOff
  constructor
  · rintro hEq ⟨o, hLow, hHigh, hIn, hDiff⟩
    have hByte := hCached o
    rw [hEq, if_pos ⟨hLow, hHigh, hIn⟩, getElem?_replaced hBound, if_neg (by omega),
      getElem?_contents, if_pos hIn] at hByte
    rw [Nat.zero_add] at hDiff
    exact hDiff (Option.some.inj hByte)
  intro hNone
  apply List.ext_getElem?
  intro o
  rw [hCached o]
  by_cases hSpill : off + tot ≤ o ∧ o < off + tot + l ∧ o < s.ip.size.toNat
  · have hSame : byteAt s.disk s.ip o = src.byte (o - off) := by
      by_contra hDiff
      refine hNone ⟨o, hSpill.1, hSpill.2.1, hSpill.2.2, ?_⟩
      rw [Nat.zero_add]
      exact hDiff
    rw [if_pos hSpill, getElem?_replaced hBound, if_neg (by omega), getElem?_contents,
      if_pos hSpill.2.2, hSame]
  · rw [if_neg hSpill]

end

/-
  A write within the limits goes through parts of the old
  contents until a copy fails, and that copy has changed a
  byte of them.
-/
def SpillsOver (src : Src) (old : List UInt8) (off n : Nat) : Prop :=
  off + n ≤ MAXFILE * BSIZE ∧ Spills src (fun o => old.getD o 0) old.length n n 0 off

theorem getD_contents {disk : Disk} {d : Dinode} {o : Nat} (ho : o < d.size.toNat) :
    (contents disk d).getD o 0 = byteAt disk d o := by
  rw [List.getD_eq_getElem?_getD, getElem?_contents, if_pos ho, Option.getD_some]

theorem wp_writeiSpill (hLayout : Layout sb) (h : Locked sb f s) (hFree : HoleFree s.disk s.ip)
    (off n : UInt32) :
    wp (writeiSpill sb src off n) (fun r s' =>
        r = (-1, none) ∧ s' = s ∧ (off > s.ip.size ∨ MAXFILE * BSIZE < off.toNat + n.toNat) ∨
          off.toNat + n.toNat ≤ MAXFILE * BSIZE ∧ ∃ (tot : Nat) (l : Nat), r.1 = tot ∧
            Spilled s src 0 off.toNat (off.toNat + tot) l r.2 s' ∧
            (Spills src (byteAt s.disk s.ip) s.ip.size.toNat n.toNat n.toNat 0 off.toNat ↔
              Visible s src s.ip.size.toNat 0 off.toNat (off.toNat + tot) l))
      (fun _ => False) s := by
  unfold writeiSpill
  rw [wp_bind, wp_get]
  refine wp_accepted (fun hOut => .inl ⟨rfl, rfl, hOut⟩) ?_
  intro _ hFits
  have hLoop : wp (writeLoop sb src n.toNat 0 off.toNat n.toNat) (fun r s' =>
        Writes sb f src 0 off.toNat
          (Broken src n.toNat (off.toNat + (n.toNat - 0)) r.1) s r.1 r.2
          s')
      (fun _ => False) s :=
    wp_post (wp_writeLoop hLayout h (by omega) (by omega) rfl (by omega))
      (fun _ _ hAll => hAll.1)
  rw [writeLoop_eq, Prog.wp_map] at hLoop
  have hSpills : wp (writeLoopSpill sb src n.toNat 0 off.toNat n.toNat) _ _ s :=
    wp_writeLoopSpill hLayout h hFree (by omega) (by omega)
  rw [wp_bind]
  refine wp_post (Prog.wp_and hLoop hSpills) ?_
  rintro ⟨tot, off', spill⟩ s₁ ⟨hWrites, _, l, hSpilled, hIff⟩
  dsimp only at hWrites hSpilled hIff ⊢
  rw [wp_bind, wp_setIp, wp_bind, wp_iupdate, wp_pure]
  have hReached : off' = off.toNat + tot := by
    have hStop := hWrites.reached
    omega
  rw [hReached] at hSpilled hIff
  refine Or.inr ⟨by omega, tot, l, rfl, ?_, hIff⟩
  apply hSpilled.update hWrites.slots
  apply hWrites.locked.update hLayout
  · split
    · exact hWrites.locked.type
    · exact hWrites.locked.type
  · intro k
    split
    · rfl
    · rfl

end

/-
  A call of `writei` leaves the old contents with the bytes
  it counts in place, in the cache and after the buffers are
  evicted, if and only if its source does not spill.
-/
theorem failed_write_iff
    (sb : Superblock)
    (disk : Disk)
    (f : Nat → Dinode)
    (i : Nat)
    (hLayout : Layout sb)
    (h : Consistent sb disk f)
    (hi : Alive sb f i)
    (src : Src)
    (off n : UInt32) :
    ∃ r spill s',
      writeiSpill sb src off n ⟨disk, i, f i⟩ = .ok ((r, spill), s') ∧
      writei sb src off n ⟨disk, i, f i⟩ = .ok (r, s') ∧
      ((∀ view ∈ [s'.disk, evicted s'.disk spill],
          contents view s'.ip =
            if r = -1 then
              contents disk (f i)
            else
              replaced (contents disk (f i)) off.toNat (src.bytes 0 r.toNat)) ↔
        ¬ SpillsOver src (contents disk (f i)) off.toNat n.toNat) := by
  have hLocked := h.locked hi
  have hFree := h.holeFree i hi
  have hSpill : wp (writeiSpill sb src off n) _ _ ⟨disk, i, f i⟩ :=
    wp_writeiSpill hLayout hLocked hFree off n
  have hWrite : wp (writei sb src off n) _ _ ⟨disk, i, f i⟩ := wp_writei hLayout hLocked off n
  rw [writei_eq, Prog.wp_map] at hWrite
  rcases exists_ok_of_wp (Prog.wp_and hSpill hWrite) with ⟨⟨r, spill⟩, s', hRun, hSpilled, hWrote⟩
  refine ⟨r, spill, s', hRun, ?_, ?_⟩
  · rw [writei_eq]
    show (writeiSpill sb src off n ⟨disk, i, f i⟩ >>= fun out => pure (out.1.1, out.2)) = _
    rw [hRun]
    rfl
  have hOld : Spills src (fun o => (contents disk (f i)).getD o 0)
        (contents disk (f i)).length n.toNat n.toNat 0 off.toNat ↔
      Spills src (byteAt disk (f i)) (f i).size.toNat n.toNat n.toNat 0 off.toNat := by
    rw [length_contents]
    exact spills_congr (fun o _ ho => getD_contents ho)
  unfold SpillsOver
  rw [hOld]
  rcases hSpilled with ⟨hr, hSame, hOut⟩ | ⟨hFits, tot, l, hr, hSpilled, hIff⟩
  · -- The call is refused: nothing has changed.
    cases hr
    rw [hSame]
    constructor
    · rintro _ ⟨hFits, hSpills⟩
      have hIn := hSpills.lt
      rcases hOut with hPast | hLarge
      · rw [gt_iff_lt, UInt32.lt_iff_toNat_lt] at hPast
        exact absurd hIn (by dsimp only at hPast; omega)
      · omega
    · intro _ view hView
      have hDisk : view = disk := by simpa [evicted] using hView
      rw [hDisk, if_pos rfl]
  · dsimp only at hr hWrote
    subst hr
    rcases hWrote with ⟨hNeg, _⟩ | ⟨hOff, tot', hr, hWrote⟩
    · omega
    have hEq : tot' = tot := by omega
    subst hEq
    have hCached := contents_cached_iff hWrote hSpilled hOff hFree
    have hEvicted := contents_evicted hWrote hSpilled hOff hFree
    rw [if_neg (by omega), Int.toNat_natCast]
    have hBoth : (off.toNat + n.toNat ≤ MAXFILE * BSIZE ∧
          Spills src (byteAt disk (f i)) (f i).size.toNat n.toNat n.toNat 0 off.toNat) ↔
        Visible ⟨disk, i, f i⟩ src (f i).size.toNat 0 off.toNat (off.toNat + tot') l := by
      rw [← hIff]
      exact and_iff_right hFits
    rw [hBoth, ← hCached]
    constructor
    · intro hViews
      exact hViews s'.disk (by simp)
    · intro hSame view hView
      rcases List.mem_pair.mp hView with rfl | rfl
      · exact hSame
      · exact hEvicted

/- A source of sevens whose copy fails after `k` bytes. -/
def failingAfter (k : Nat) : Src where
  byte _ := 7
  fails _ _ := some k

theorem failed_write_iff_small :
    ∃ r spill s', writeiSpill smallSuperblock (failingAfter 0) 0 2
        ⟨smallDisk, 1, smallInodes 1⟩ = .ok ((r, spill), s') ∧
      ∀ view ∈ [s'.disk, evicted s'.disk spill], contents view s'.ip =
          if r = -1 then
            contents smallDisk (smallInodes 1)
          else
            replaced (contents smallDisk (smallInodes 1)) 0
              ((failingAfter 0).bytes 0 r.toNat) := by
  rcases failed_write_iff smallSuperblock smallDisk
      smallInodes 1 small_layout small_consistent (by decide) (failingAfter 0) 0 2 with
    ⟨r, spill, s', hRun, _, hIff⟩
  refine ⟨r, spill, s', hRun, hIff.mpr ?_⟩
  rintro ⟨_, hSpills⟩
  exact absurd hSpills.lt (Nat.not_lt_zero _)

/-
  A file of four bytes gets a write of two bytes at its start
  whose copy fails after the first. The call returns `0`, but
  `readi` now returns another first byte; the old one is back
  once the buffer is evicted.
-/
theorem failed_write_shows :
    contents fourBytes.disk fourBytes.ip = [1, 2, 3, 4] ∧ ∃ spill s',
      writeiSpill smallSuperblock (failingAfter 1) 0 2 fourBytes = .ok ((0, spill), s') ∧
        contents s'.disk s'.ip = [7, 2, 3, 4] ∧
        contents (evicted s'.disk spill) s'.ip = [1, 2, 3, 4] := by
  have hCheck : (match writeiSpill smallSuperblock (failingAfter 1) 0 2 fourBytes with
      | .ok ((r, spill), s') =>
        decide (r = 0 ∧ contents s'.disk s'.ip = [7, 2, 3, 4] ∧
          contents (evicted s'.disk spill) s'.ip = [1, 2, 3, 4])
      | .error _ => false) = true := by
    decide +kernel
  refine ⟨by decide +kernel, ?_⟩
  split at hCheck
  · rename_i r spill s' hRun
    rcases of_decide_eq_true hCheck with ⟨rfl, hCached, hEvicted⟩
    exact ⟨spill, s', hRun, hCached, hEvicted⟩
  · cases hCheck

end Xv6.Fs

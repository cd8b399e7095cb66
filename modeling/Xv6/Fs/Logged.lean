import Xv6.Fs.Sharing
import Xv6.Lib.Trace
import Mathlib.Data.List.Dedup
import Mathlib.Data.List.Perm.Subperm

/-
  The blocks that a `filewrite` logs (`fs.c`, `file.c`).

  The functions are those of the model with the calls of
  `log_write` added: an event is the number of the block.
  Forgetting the events gives the functions of the model
  back.

  A round of `writei` logs its data block, and it pays for
  each block that it allocates with a block of the bitmap.
  The indirect block is allocated once. A write that starts
  inside a block has this block already.

  Main declarations:
    * `Logged.erases_writei`
    * `Logged.wp_writei`
    * `Logged.sections_fit`
-/

namespace Xv6.Fs.Logged

open Prog

---- Functions

/- Programs on an inode with the blocks they log. -/
abbrev LogM (α : Type) := Prog (Traced Ip Nat) Panic α

def balloc (sb : Superblock) : LogM Nat := do
  let s ← untraced get
  match (List.range sb.size.toNat).find? (fun b => !bit sb s.disk b) with
  | none => pure 0
  | some b => do
    untraced (setDisk fun disk => setBit sb disk b)
    emit (BBLOCK b sb)
    untraced (bzero b)
    emit b
    pure b

def getAddr (sb : Superblock) (k : Nat) : LogM Nat := do
  let s ← untraced get
  if s.ip.addr k = 0 then do
    let addr ← balloc sb
    if addr = 0 then
      pure 0
    else do
      untraced (setIp fun ip => ip.setAddr k addr)
      pure addr
  else
    pure (s.ip.addr k)

def getEntry (sb : Superblock) (b j : Nat) : LogM Nat := do
  let s ← untraced get
  if entry (s.disk b) j = 0 then do
    let addr ← balloc sb
    if addr = 0 then
      pure 0
    else do
      untraced (setDisk fun disk => disk.write b (putEntry (disk b) j addr))
      emit b
      pure addr
  else
    pure (entry (s.disk b) j)

def bmap (sb : Superblock) (bn : Nat) : LogM Nat := do
  if bn < NDIRECT then
    getAddr sb bn
  else if bn - NDIRECT < NINDIRECT then do
    let addr ← getAddr sb NDIRECT
    if addr = 0 then pure 0 else getEntry sb addr (bn - NDIRECT)
  else
    throw .bmapOutOfRange

/- A block whose copy has failed is not logged. -/
def writeLoop (sb : Superblock) (src : Src) : (fuel tot off n : Nat) → LogM (Nat × Nat)
  | 0, tot, off, _ => pure (tot, off)
  | fuel + 1, tot, off, n => do
    if tot < n then do
      let addr ← bmap sb (off / BSIZE)
      if addr = 0 then
        pure (tot, off)
      else do
        let m := min (n - tot) (BSIZE - off % BSIZE)
        match src.fails tot m with
        | some k => do
          untraced (setDisk fun disk =>
            disk.write addr ((disk addr).put (off % BSIZE) (src.bytes tot (min k m))))
          pure (tot, off)
        | none => do
          untraced (setDisk fun disk =>
            disk.write addr ((disk addr).put (off % BSIZE) (src.bytes tot m)))
          emit addr
          writeLoop sb src fuel (tot + m) (off + m) n
    else
      pure (tot, off)

def writei (sb : Superblock) (src : Src) (off n : UInt32) : LogM Int := do
  let s ← untraced get
  if off > s.ip.size ∨ off + n < off then
    pure (-1)
  else if (off + n).toNat > MAXFILE * BSIZE then
    pure (-1)
  else do
    let (tot, off) ← writeLoop sb src n.toNat 0 off.toNat n.toNat
    untraced (setIp fun ip =>
      if off > ip.size.toNat then { ip with size := UInt32.ofNat off } else ip)
    untraced (iupdate sb)
    emit (IBLOCK s.inum sb)
    pure tot

---- Erasure

section

variable (sb : Superblock) (src : Src)

theorem erases_balloc : Erases (balloc sb) (Fs.balloc sb) := by
  refine Erases.bind (.untraced get) ?_
  intro s
  cases (List.range sb.size.toNat).find? (fun b => !bit sb s.disk b) with
  | none => exact .pure 0
  | some b =>
    refine .bind (.untraced _) (fun _ => .emit _ ?_)
    refine .bind (.untraced _) (fun _ => .emit _ ?_)
    exact .pure b

theorem erases_getAddr (k : Nat) : Erases (getAddr sb k) (Fs.getAddr sb k) := by
  refine Erases.bind (.untraced get) ?_
  intro s
  refine .ite (.bind (erases_balloc sb) ?_) (.pure _)
  intro addr
  refine .ite (.pure 0) ?_
  exact .bind (.untraced _) (fun _ => .pure addr)

theorem erases_getEntry (b j : Nat) : Erases (getEntry sb b j) (Fs.getEntry sb b j) := by
  refine Erases.bind (.untraced get) ?_
  intro s
  refine .ite (.bind (erases_balloc sb) ?_) (.pure _)
  intro addr
  refine .ite (.pure 0) ?_
  exact .bind (.untraced _) (fun _ => .emit b (.pure addr))

theorem erases_bmap (bn : Nat) : Erases (bmap sb bn) (Fs.bmap sb bn) := by
  refine Erases.ite (erases_getAddr sb bn) ?_
  refine .ite (.bind (erases_getAddr sb NDIRECT) ?_) (.throw _)
  intro addr
  exact .ite (.pure 0) (erases_getEntry sb addr _)

theorem erases_writeLoop (fuel tot off n : Nat) :
    Erases (writeLoop sb src fuel tot off n) (Fs.writeLoop sb src fuel tot off n) := by
  induction fuel generalizing tot off with
  | zero => exact .pure _
  | succ fuel ih =>
    unfold writeLoop Fs.writeLoop
    refine .ite (.bind (erases_bmap sb _) ?_) (.pure _)
    intro addr
    refine .ite (.pure _) ?_
    dsimp only
    cases src.fails tot (min (n - tot) (BSIZE - off % BSIZE)) with
    | some k => exact .bind (.untraced _) (fun _ => .pure _)
    | none =>
      refine .bind (.untraced _) (fun _ => ?_)
      exact .emit addr (ih _ _)

theorem erases_writei (off n : UInt32) : Erases (writei sb src off n) (Fs.writei sb src off n) := by
  refine Erases.bind (.untraced get) ?_
  intro s
  refine .ite (.pure _) (.ite (.pure _) ?_)
  refine .bind (erases_writeLoop sb src _ _ _ _) ?_
  intro r
  refine .bind (.untraced _) (fun _ => ?_)
  refine .bind (.untraced _) (fun _ => ?_)
  exact .emit _ (.pure _)

end

---- Charges

/- Whether the indirect block is still to be allocated. -/
def spare (d : Dinode) : Nat := if d.addr NDIRECT = 0 then 1 else 0

/- Whether block `bn` is there without an indirect block. -/
def credit (d : Dinode) (bn : Nat) : Nat := if bn < NDIRECT ∧ d.addr bn ≠ 0 then 1 else 0

/- The inode has an address on the way to block `bn`. -/
def Reached (d : Dinode) (bn : Nat) : Prop :=
  if bn < NDIRECT then d.addr bn ≠ 0 else d.addr NDIRECT ≠ 0

/- The block that a write at `off` starts inside is reached. -/
def Ready (d : Dinode) (off : Nat) : Prop := off % BSIZE ≠ 0 → Reached d (off / BSIZE)

/-
  What is logged from `s` to `t`: the blocks `ds`, the
  indirect block, and at most `c` blocks of the bitmap, with
  one more if the indirect block is allocated.
-/
structure Charged (ds : List Nat) (c : Nat) (s t : Traced Ip Nat) : Prop where
  addrs : ∀ k, s.state.ip.addr k ≠ 0 → t.state.ip.addr k = s.state.ip.addr k
  events : ∃ ms : List Nat, ms.length + spare t.state.ip ≤ c + spare s.state.ip ∧
    ∀ b ∈ t.trace, b ∈ s.trace ∨ b ∈ ds ∨ b ∈ ms ∨ b = t.state.ip.addr NDIRECT ∧ b ≠ 0

section

variable {ds ds' : List Nat} {c c' m b bn : Nat} {s t u : Traced Ip Nat}

theorem credit_le (d : Dinode) (bn : Nat) : credit d bn ≤ 1 := by
  unfold credit
  split
  · exact Nat.le_refl 1
  · exact Nat.zero_le 1

theorem Charged.refl (ds : List Nat) (c : Nat) (s : Traced Ip Nat) : Charged ds c s s := by
  refine ⟨fun _ _ => rfl, [], ?_, fun b hb => .inl hb⟩
  exact Nat.add_le_add_right (Nat.zero_le c) _

section

variable (h : Charged ds c s t)
include h

theorem Charged.trans (h' : Charged ds' c' t u) : Charged (ds ++ ds') (c + c') s u := by
  rcases h.events with ⟨ms, hLen, hEvents⟩
  rcases h'.events with ⟨ms', hLen', hEvents'⟩
  refine ⟨?_, ms ++ ms', ?_, ?_⟩
  · intro k hk
    have hSame := h.addrs k hk
    rw [h'.addrs k (hSame ▸ hk), hSame]
  · rw [List.length_append]
    omega
  intro b hb
  rw [List.mem_append, List.mem_append]
  rcases hEvents' b hb with hb | hb | hb | hb
  · rcases hEvents b hb with hb | hb | hb | ⟨hEq, hNe⟩
    · exact .inl hb
    · exact .inr (.inl (.inl hb))
    · exact .inr (.inr (.inl (.inl hb)))
    · -- An indirect block that is there stays.
      have hSame := h'.addrs NDIRECT (hEq ▸ hNe)
      exact .inr (.inr (.inr ⟨hEq.trans hSame.symm, hNe⟩))
  · exact .inr (.inl (.inr hb))
  · exact .inr (.inr (.inl (.inr hb)))
  · exact .inr (.inr (.inr hb))

theorem Charged.mono (hLe : c ≤ c') : Charged ds c' s t := by
  rcases h.events with ⟨ms, hLen, hEvents⟩
  exact ⟨h.addrs, ms, by omega, hEvents⟩

theorem Charged.emit (hMem : b ∈ ds) (disk : Disk) :
    Charged ds c s ⟨{ t.state with disk := disk }, t.trace ++ [b]⟩ := by
  rcases h.events with ⟨ms, hLen, hEvents⟩
  refine ⟨h.addrs, ms, hLen, ?_⟩
  intro a ha
  rw [List.mem_append, List.mem_singleton] at ha
  rcases ha with ha | rfl
  · exact hEvents a ha
  · exact .inr (.inl hMem)

theorem Charged.reached (hReached : Reached s.state.ip bn) : Reached t.state.ip bn := by
  unfold Reached at *
  split
  · rename_i hDirect
    rw [if_pos hDirect] at hReached
    rw [h.addrs bn hReached]
    exact hReached
  · rename_i hDirect
    rw [if_neg hDirect] at hReached
    rw [h.addrs NDIRECT hReached]
    exact hReached

end

theorem charged_alloc (hTrace : t.trace = s.trace ++ [m, b])
    (hAddrs : ∀ k, s.state.ip.addr k ≠ 0 → t.state.ip.addr k = s.state.ip.addr k)
    (hBlock : b ∈ ds ∨ b = t.state.ip.addr NDIRECT ∧ b ≠ 0)
    (hCost : 1 + spare t.state.ip ≤ c + spare s.state.ip) : Charged ds c s t := by
  refine ⟨hAddrs, [m], hCost, ?_⟩
  intro a ha
  rw [hTrace, List.mem_append, List.mem_pair] at ha
  rcases ha with ha | rfl | rfl
  · exact .inl ha
  · exact .inr (.inr (.inl (List.mem_singleton_self a)))
  · rcases hBlock with hBlock | hBlock
    · exact .inr (.inl hBlock)
    · exact .inr (.inr (.inr hBlock))

end

---- The Map

section

variable {sb : Superblock} {Q : Nat → Traced Ip Nat → Prop} {E : Panic → Prop} {s : Traced Ip Nat}

theorem wp_balloc (hNone : Q 0 s)
    (hSome : ∀ b disk, b < 2 ^ 32 →
      Q b ⟨{ s.state with disk := disk }, s.trace ++ [BBLOCK b sb, b]⟩) : wp (balloc sb) Q E s := by
  unfold balloc
  rw [wp_untraced_get]
  cases hFind : (List.range sb.size.toNat).find? (fun b => !bit sb s.state.disk b) with
  | none =>
    rw [wp_pure]
    exact hNone
  | some b =>
    have hMem := List.mem_of_find?_eq_some hFind
    have hb : b < 2 ^ 32 := (List.mem_range.mp hMem).trans sb.size.toNat_lt
    have h := hSome b ((setBit sb s.state.disk b).write b Bytes.zero) hb
    unfold bzero
    rw [wp_bind, wp_untraced, wp_setDisk, wp_bind, wp_emit, wp_bind, wp_untraced, wp_setDisk,
      wp_bind, wp_emit, wp_pure, List.append_assoc]
    exact h

/-
  An address of the inode. It is there, or there is no block
  left, or it is allocated and entered.
-/
theorem wp_getAddr {k : Nat} (hk : k ≤ NDIRECT)
    (hOld : s.state.ip.addr k ≠ 0 → Q (s.state.ip.addr k) s)
    (hNone : ∀ t, s.state.ip.addr k = 0 → Charged [0] 1 s t → Q 0 t)
    (hNew : ∀ b t, s.state.ip.addr k = 0 → b ≠ 0 → t.state.ip.addr k = b →
      t.trace = s.trace ++ [BBLOCK b sb, b] →
      (∀ j, j ≠ k → t.state.ip.addr j = s.state.ip.addr j) → Q b t) : wp (getAddr sb k) Q E s := by
  unfold getAddr
  rw [wp_untraced_get, wp_ite]
  refine ⟨?_, ?_⟩
  · intro hZero
    rw [wp_bind]
    refine wp_balloc ?_ ?_
    · rw [if_pos rfl, wp_pure]
      exact hNone s hZero (.refl _ _ _)
    intro b disk hb
    rw [wp_ite]
    refine ⟨?_, ?_⟩
    · rintro rfl
      rw [wp_pure]
      refine hNone _ hZero ?_
      exact charged_alloc rfl (fun _ _ => rfl) (.inl (List.mem_singleton_self 0)) (Nat.le_refl _)
    · intro hNe
      rw [wp_bind, wp_untraced, wp_setIp, wp_pure]
      refine hNew b _ hZero hNe ?_ rfl ?_
      · exact Dinode.addr_setAddr_same _ (Nat.lt_succ_of_le hk) hb
      · exact fun j hj => Dinode.addr_setAddr_ne _ hj
  · intro hMapped
    rw [wp_pure]
    exact hOld hMapped

theorem wp_getAddr_direct {k : Nat} (hk : k < NDIRECT)
    (h : ∀ addr t, Charged [addr] (1 - credit s.state.ip k) s t →
      (addr ≠ 0 → t.state.ip.addr k ≠ 0) → Q addr t) : wp (getAddr sb k) Q E s := by
  have hCredit : s.state.ip.addr k = 0 → credit s.state.ip k = 0 :=
    fun hZero => if_neg (fun hBoth => hBoth.2 hZero)
  refine wp_getAddr (Nat.le_of_lt hk) ?_ ?_ ?_
  · intro hMapped
    exact h _ s (.refl _ _ _) (fun _ => hMapped)
  · intro t hZero hCharged
    rw [hCredit hZero] at h
    exact h 0 t hCharged (fun hNe => absurd rfl hNe)
  intro b t hZero hNe hAddr hTrace hOthers
  rw [hCredit hZero] at h
  refine h b t ?_ (fun _ => by rw [hAddr]; exact hNe)
  refine charged_alloc hTrace ?_ (.inl (List.mem_singleton_self b)) ?_
  · intro j hj
    refine hOthers j ?_
    rintro rfl
    exact hj hZero
  · unfold spare
    rw [hOthers NDIRECT (Nat.ne_of_gt hk)]

theorem wp_getAddr_indirect (hNone : ∀ t, Charged [0] 1 s t → Q 0 t)
    (hSome : ∀ addr t, Charged [] 0 s t → addr ≠ 0 → t.state.ip.addr NDIRECT = addr → Q addr t) :
    wp (getAddr sb NDIRECT) Q E s := by
  refine wp_getAddr (Nat.le_refl _) ?_ (fun t _ => hNone t) ?_
  · intro hMapped
    exact hSome _ s (.refl _ _ _) hMapped rfl
  intro b t hZero hNe hAddr hTrace hOthers
  refine hSome b t ?_ hNe hAddr
  refine charged_alloc hTrace ?_ (.inr ⟨hAddr.symm, hNe⟩) ?_
  · intro j hj
    refine hOthers j ?_
    rintro rfl
    exact hj hZero
  · unfold spare
    rw [hAddr, if_neg hNe, if_pos hZero]

theorem wp_getEntry {b j : Nat} (hb : b ≠ 0) (hIndirect : s.state.ip.addr NDIRECT = b)
    (h : ∀ addr t, Charged [addr] 1 s t → Q addr t) : wp (getEntry sb b j) Q E s := by
  unfold getEntry
  rw [wp_untraced_get, wp_ite]
  refine ⟨?_, ?_⟩
  · intro _
    rw [wp_bind]
    refine wp_balloc ?_ ?_
    · rw [if_pos rfl, wp_pure]
      exact h 0 s (.refl _ _ _)
    intro a disk ha
    have hAlloc :
        Charged [a] 1 s ⟨{ s.state with disk := disk }, s.trace ++ [BBLOCK a sb, a]⟩ :=
      charged_alloc rfl (fun _ _ => rfl) (.inl (List.mem_singleton_self a)) (Nat.le_refl _)
    rw [wp_ite]
    refine ⟨?_, ?_⟩
    · rintro rfl
      rw [wp_pure]
      exact h 0 _ hAlloc
    intro _
    rw [wp_bind, wp_untraced, wp_setDisk, wp_bind, wp_emit, wp_pure]
    refine h a _ (hAlloc.trans (?_ : Charged [] 0 _ _))
    refine ⟨fun _ _ => rfl, [], Nat.le_refl _, ?_⟩
    intro e he
    rw [List.mem_append, List.mem_singleton] at he
    rcases he with he | rfl
    · exact .inl he
    · exact .inr (.inr (.inr ⟨hIndirect.symm, hb⟩))
  · intro _
    rw [wp_pure]
    exact h _ s (.refl _ _ _)

theorem wp_bmap {bn : Nat} (hRange : bn < MAXFILE)
    (h : ∀ addr t, Charged [addr] (1 - credit s.state.ip bn) s t →
      (addr ≠ 0 → Reached t.state.ip bn) → Q addr t) : wp (bmap sb bn) Q E s := by
  unfold bmap
  rw [wp_ite]
  refine ⟨?_, ?_⟩
  · intro hDirect
    refine wp_getAddr_direct hDirect ?_
    intro addr t hCharged hReached
    refine h addr t hCharged ?_
    intro hNe
    unfold Reached
    rw [if_pos hDirect]
    exact hReached hNe
  intro hDirect
  have hCredit : credit s.state.ip bn = 0 := if_neg (fun h => hDirect h.1)
  rw [hCredit] at h
  have hEntry : bn - NDIRECT < NINDIRECT := by
    unfold MAXFILE at hRange
    omega
  rw [if_pos hEntry, wp_bind]
  refine wp_getAddr_indirect ?_ ?_
  · intro t hCharged
    rw [if_pos rfl, wp_pure]
    exact h 0 t hCharged (fun hNe => absurd rfl hNe)
  intro b t hCharged hNe hIndirect
  rw [if_neg hNe]
  refine wp_getEntry hNe hIndirect ?_
  intro addr u hEntry
  refine h addr u (hCharged.trans hEntry) ?_
  intro _
  unfold Reached
  rw [if_neg hDirect, hEntry.addrs NDIRECT (hIndirect ▸ hNe), hIndirect]
  exact hNe

end

---- Writes

/- The blocks that `n` bytes at `off` stand in. -/
def rounds (off n : Nat) : Nat := if n = 0 then 0 else (off % BSIZE + n - 1) / BSIZE + 1

theorem rounds_step {off n m : Nat} (hn : 0 < n) (hm : m = min n (BSIZE - off % BSIZE)) :
    rounds off n = 1 + rounds (off + m) (n - m) := by
  unfold rounds
  unfold BSIZE at *
  rw [if_neg (by omega)]
  split
  · omega
  · omega

theorem ready_of_reached {d : Dinode} {off n m : Nat} (hm : m = min n (BSIZE - off % BSIZE))
    (hReached : Reached d (off / BSIZE)) : Ready d (off + m) := by
  intro hInside
  have hBlock : (off + m) / BSIZE = off / BSIZE := by
    unfold BSIZE at *
    omega
  rw [hBlock]
  exact hReached

/-
  What the loop has done when it stops at `r`. The blocks of
  the bytes from `tot` on are charged.
-/
structure Stopped (s : Traced Ip Nat) (tot off n : Nat) (r : Nat × Nat) (t : Traced Ip Nat) :
    Prop where
  ge : tot ≤ r.1
  le : r.1 ≤ n
  end_eq : r.2 = off + (r.1 - tot)
  charged : ∃ ds : List Nat, ds.length ≤ rounds off (n - tot) ∧
    Charged ds (rounds off (n - tot) - credit s.state.ip (off / BSIZE)) s t
  ready : tot < r.1 → Ready t.state.ip r.2

section

variable {sb : Superblock} {src : Src} {fuel tot off n m b : Nat} {r : Nat × Nat}
  {s t u : Traced Ip Nat}

theorem Stopped.here {l : List Nat} (hTot : tot ≤ n) (hLen : l.length ≤ rounds off (n - tot))
    (h : Charged l (rounds off (n - tot) - credit s.state.ip (off / BSIZE)) s t) :
    Stopped s tot off n (tot, off) t := by
  refine ⟨Nat.le_refl _, hTot, ?_, ⟨l, hLen, h⟩, fun hLt => absurd hLt (Nat.lt_irrefl _)⟩
  rw [Nat.sub_self, Nat.add_zero]

theorem Stopped.round (hMore : tot < n) (hm : min (n - tot) (BSIZE - off % BSIZE) = m)
    (hCharged : Charged [b] (1 - credit s.state.ip (off / BSIZE)) s t)
    (hReached : Reached t.state.ip (off / BSIZE)) (h : Stopped t (tot + m) (off + m) n r u) :
    Stopped s tot off n r u := by
  have hRounds : rounds off (n - tot) = 1 + rounds (off + m) (n - (tot + m)) := by
    rw [rounds_step (by omega) hm.symm, Nat.sub_add_eq]
  have hCredit := credit_le s.state.ip (off / BSIZE)
  have hGe := h.ge
  have hOff := h.end_eq
  rcases h.charged with ⟨ds, hLen, hTail⟩
  refine ⟨by omega, h.le, by omega, ⟨b :: ds, ?_, (hCharged.trans hTail).mono (by omega)⟩, ?_⟩
  · rw [List.length_cons]
    omega
  · intro _
    by_cases hLast : tot + m < r.1
    · exact h.ready hLast
    · have hEq : r.2 = off + m := by omega
      rw [hEq]
      exact ready_of_reached hm.symm (hTail.reached hReached)

theorem wp_writeLoop {E : Panic → Prop} (hEnd : off + (n - tot) ≤ MAXFILE * BSIZE)
    (hTot : tot ≤ n) : wp (writeLoop sb src fuel tot off n) (Stopped s tot off n) E s := by
  induction fuel generalizing tot off s with
  | zero =>
    unfold writeLoop
    rw [wp_pure]
    exact .here hTot (Nat.zero_le _) (.refl [] _ _)
  | succ fuel ih =>
    unfold writeLoop
    rw [wp_ite, wp_pure]
    refine ⟨?_, fun _ => .here hTot (Nat.zero_le _) (.refl [] _ _)⟩
    intro hMore
    rw [wp_bind]
    have hRange : off / BSIZE < MAXFILE := by
      unfold BSIZE at *
      omega
    refine wp_bmap hRange ?_
    intro addr t hCharged hReached
    -- A round that fails is charged for its block only.
    have hFail : ∀ disk,
        Stopped s tot off n (tot, off) ⟨{ t.state with disk := disk }, t.trace⟩ := by
      intro disk
      have hOne : 1 ≤ rounds off (n - tot) := by
        rw [rounds_step (by omega) rfl]
        exact Nat.le_add_right 1 _
      have hHere := hCharged.mono (Nat.sub_le_sub_right hOne _)
      exact .here (l := [addr]) hTot hOne ⟨hHere.addrs, hHere.events⟩
    rw [wp_ite]
    refine ⟨?_, ?_⟩
    · intro _
      rw [wp_pure]
      exact hFail t.state.disk
    intro hNe
    dsimp only
    generalize hm : min (n - tot) (BSIZE - off % BSIZE) = m
    cases src.fails tot m with
    | some k =>
      dsimp only
      rw [wp_bind, wp_untraced, wp_setDisk, wp_pure]
      exact hFail _
    | none =>
      dsimp only
      rw [wp_bind, wp_untraced, wp_setDisk, wp_bind, wp_emit]
      refine wp_post (ih (by omega) (by omega)) ?_
      intro r u hRest
      refine hRest.round (b := addr) hMore hm ?_ ?_
      · exact hCharged.emit (List.mem_singleton_self addr) _
      · exact hReached hNe

end

theorem cost_le {d : Dinode} {off n : Nat} (hReady : Ready d off) (hn : n ≤ Sharing.maxPart) :
    rounds off n + (rounds off n - credit d (off / BSIZE) + spare d) + 2 ≤ MAXOPBLOCKS := by
  have hMax : n ≤ 3072 := hn
  have hSpare : spare d ≤ 1 := by
    unfold spare
    split
    · exact Nat.le_refl 1
    · exact Nat.zero_le 1
  have hFour : rounds off n ≤ 4 ∧ (off % BSIZE = 0 → rounds off n ≤ 3) := by
    unfold rounds BSIZE
    split
    · omega
    · omega
  unfold MAXOPBLOCKS
  by_cases hInside : off % BSIZE = 0
  · have hThree := hFour.2 hInside
    omega
  have hReached := hReady hInside
  unfold Reached at hReached
  split at hReached
  · rename_i hDirect
    have hCredit : credit d (off / BSIZE) = 1 := if_pos ⟨hDirect, hReached⟩
    omega
  · have hNoSpare : spare d = 0 := if_neg hReached
    omega

theorem ready_congr {d d' : Dinode} (hAddrs : ∀ k, d'.addr k = d.addr k) {off : Nat}
    (h : Ready d off) : Ready d' off := by
  unfold Ready Reached at *
  simp only [hAddrs]
  exact h

/-
  A part of a `filewrite` logs `MAXOPBLOCKS` blocks at most,
  and a write that goes on from its end is ready again.
-/
theorem wp_writei {sb : Superblock} {src : Src} {off n : UInt32} {s : Ip}
    (hReady : off ≤ s.ip.size → Ready s.ip off.toNat) (hPart : n.toNat ≤ Sharing.maxPart) :
    wp (writei sb src off n) (fun r t => t.trace.dedup.length ≤ MAXOPBLOCKS ∧
        (r = -1 ∧ t.state = s ∨
          ∃ tot : Nat, r = tot ∧ off.toNat + tot < 2 ^ 32 ∧ Ready t.state.ip (off.toNat + tot)))
      (fun _ => False) ⟨s, []⟩ := by
  unfold writei
  rw [wp_untraced_get, wp_ite, wp_ite, wp_pure]
  refine ⟨fun _ => ⟨Nat.zero_le _, .inl ⟨rfl, rfl⟩⟩, ?_⟩
  intro hIn
  rw [not_or, gt_iff_lt, UInt32.not_lt] at hIn
  refine ⟨fun _ => ⟨Nat.zero_le _, .inl ⟨rfl, rfl⟩⟩, ?_⟩
  intro hFit
  rw [toNat_add_of_not_wrap hIn.2] at hFit
  have hStart := hReady hIn.1
  rw [wp_bind]
  refine wp_post (wp_writeLoop (by omega) (Nat.zero_le _)) ?_
  rintro ⟨tot, off'⟩ t ⟨_, hMax, hOff, ⟨ds, hLen, hCharged⟩, hEnd⟩
  dsimp only at hMax hOff hEnd
  rw [Nat.sub_zero] at hLen hCharged hOff
  rw [hOff] at hEnd
  rw [wp_bind, wp_untraced, wp_setIp, wp_bind, wp_untraced, wp_iupdate, wp_bind, wp_emit, wp_pure]
  refine ⟨?_, .inr ⟨tot, rfl, ?_, ?_⟩⟩
  · rcases hCharged.events with ⟨ms, hms, hEvents⟩
    have hSub : (t.trace ++ [IBLOCK s.inum sb]).dedup ⊆
        ds ++ ms ++ [t.state.ip.addr NDIRECT, IBLOCK s.inum sb] := by
      intro b hb
      rw [List.mem_dedup, List.mem_append, List.mem_singleton] at hb
      rw [List.mem_append, List.mem_append, List.mem_pair]
      rcases hb with hb | hb
      · rcases hEvents b hb with hb | hb | hb | ⟨hb, _⟩
        · cases hb
        · exact .inl (.inl hb)
        · exact .inl (.inr hb)
        · exact .inr (.inl hb)
      · exact .inr (.inr hb)
    have hLength := ((List.nodup_dedup _).subperm hSub).length_le
    rw [List.length_append, List.length_append] at hLength
    have hCost := cost_le hStart hPart
    dsimp only at hms hLen
    refine hLength.trans ?_
    change ds.length + ms.length + 2 ≤ MAXOPBLOCKS
    omega
  · have hLarge : MAXFILE * BSIZE < 2 ^ 32 := by decide
    omega
  · have hSame : Ready t.state.ip (off.toNat + tot) := by
      by_cases hZero : 0 < tot
      · exact hEnd hZero
      · have hNone : tot = 0 := by omega
        rw [hNone]
        exact fun hInside => hCharged.reached (hStart hInside)
    refine ready_congr ?_ hSame
    intro k
    dsimp only
    split
    · rfl
    · rfl

---- Transactions

open Sharing (Action partLen shifted moveOff writeSection)

/-
  A transaction of `filewrite`: its `writei` returns, as in
  the model, and logs at most `MAXOPBLOCKS` distinct blocks.
-/
def Fits (sb : Superblock) (src : Src) (off n : UInt32) (s : Ip) : Prop :=
  ∃ r t, writei sb src off n ⟨s, []⟩ = .ok (r, t) ∧ Fs.writei sb src off n s = .ok (r, t.state) ∧
    t.trace.dedup.length ≤ MAXOPBLOCKS

/- The next write finds the block that it starts inside. -/
structure Prepared (s : Sharing.State) : Prop where
  writes : ∀ q c dst n, s.pc q ≠ .read c dst n
  ready : s.off ≤ s.ip.size → Ready s.ip s.off.toNat

section

variable {sb : Superblock} {inum p : Nat} {s s' : Sharing.State}

/- A hole-free inode is ready at every offset inside it. -/
theorem ready_of_holeFree {disk : Disk} {d : Dinode} (h : HoleFree disk d) {off : Nat}
    (hOff : off ≤ d.size.toNat) : Ready d off := by
  intro hInside
  have hBelow : off / BSIZE * BSIZE < d.size.toNat := by
    unfold BSIZE at *
    omega
  have hSlot := (h _ hBelow).2
  unfold Reached
  split
  · rename_i hDirect
    rw [slotOf, if_pos hDirect, slot, if_pos (by omega)] at hSlot
    exact hSlot
  · rename_i hDirect
    intro hZero
    rw [slotOf, if_neg hDirect, slot, if_neg (by omega), if_pos hZero] at hSlot
    exact hSlot rfl

variable (h : Prepared s)
include h

theorem Prepared.goto (p : Nat) (pc : Sharing.Pc) (hPc : ∀ c dst n, pc ≠ .read c dst n) :
    Prepared (s.goto p pc) := by
  refine ⟨?_, h.ready⟩
  intro q c dst n
  rw [Sharing.State.pc_goto]
  split
  · exact hPc c dst n
  · exact h.writes q c dst n

theorem Prepared.writeSection (p c : Nat) (src : Src) (n : Int) (i : Nat) :
    Fits sb (shifted src i) s.off (UInt32.ofNat (partLen n i)) ⟨s.disk, inum, s.ip⟩ ∧
      ∃ s', writeSection sb inum s p c src n i = some s' ∧ Prepared s' := by
  have hPart : (UInt32.ofNat (partLen n i)).toNat ≤ Sharing.maxPart := by
    rw [Sharing.toNat_partLen]
    exact Nat.min_le_right _ _
  rcases Erases.exists_ok (erases_writei sb (shifted src i) s.off _)
    (wp_writei (s := ⟨s.disk, inum, s.ip⟩) h.ready hPart) with ⟨r, t, hRun, hModel, hLog, hPost⟩
  refine ⟨⟨r, t, hRun, hModel, hLog⟩, ?_⟩
  have hMoved : ∀ x, Prepared (s.transfer t.state r x) := by
    refine fun x => ⟨h.writes, ?_⟩
    change moveOff s.off r ≤ t.state.ip.size → Ready t.state.ip (moveOff s.off r).toNat
    rcases hPost with ⟨rfl, hSame⟩ | ⟨tot, rfl, hSmall, hReady⟩
    · rw [hSame]
      exact h.ready
    · rw [Sharing.toNat_moveOff hSmall]
      exact fun _ => hReady
  unfold Sharing.writeSection
  dsimp only at hModel ⊢
  rw [hModel]
  dsimp only
  split
  · have hNext := (hMoved ⟨c, true, s.off.toNat, (shifted src i).bytes 0 r.toNat⟩).goto p .idle
      (fun _ _ _ => Sharing.Pc.noConfusion)
    exact ⟨_, rfl, hNext.writes, hNext.ready⟩
  · exact ⟨_, rfl, (hMoved _).goto _ _ (fun _ _ _ => Sharing.Pc.noConfusion)⟩

theorem Prepared.step {a : Action} (hWrite : ∀ q dst n, a ≠ .call q (.read dst n))
    (hStep : Sharing.step sb inum s a = some s') : Prepared s' := by
  cases a with
  | call q c =>
    dsimp only [Sharing.step] at hStep
    split at hStep
    · cases hStep
      cases c with
      | read dst n => exact absurd rfl (hWrite q dst n)
      | write src n =>
        have hNext := h.goto q (.write s.calls.length src n 0) (fun _ _ _ => Sharing.Pc.noConfusion)
        exact ⟨hNext.writes, hNext.ready⟩
    · cases hStep
  | run q =>
    dsimp only [Sharing.step] at hStep
    cases hPc : s.pc q with
    | idle =>
      rw [hPc] at hStep
      cases hStep
    | read c dst n => exact absurd hPc (h.writes q c dst n)
    | write c src n i =>
      rw [hPc] at hStep
      dsimp only at hStep
      split at hStep
      · rcases (h.writeSection q c src n i).2 with ⟨t, hNext, hPrepared⟩
        rw [hNext] at hStep
        cases hStep
        exact hPrepared
      · cases hStep
        have hNext := h.goto q .idle (fun _ _ _ => Sharing.Pc.noConfusion)
        exact ⟨hNext.writes, hNext.ready⟩

theorem Prepared.run {as : List Action} (hWrites : ∀ q dst n, Action.call q (.read dst n) ∉ as)
    (hRun : Sharing.run sb inum s as = some s') : Prepared s' := by
  induction as generalizing s with
  | nil =>
    cases hRun
    exact h
  | cons a as ih =>
    rcases Option.bind_eq_some_iff.mp hRun with ⟨t, hStep, hRest⟩
    refine ih (h.step ?_ hStep) ?_ hRest
    · rintro q dst n rfl
      exact hWrites q dst n List.mem_cons_self
    · exact fun q dst n hMem => hWrites q dst n (List.mem_cons_of_mem a hMem)

end

/-
  Any number of processes call `filewrite` on one file, with
  any lengths and sources, from a hole-free inode on any disk
  and any bitmap. Whatever the order of the transactions and
  the failures of earlier ones, each transaction fits.
-/
theorem sections_fit
    (sb : Superblock)
    (inum : Nat)
    (disk : Disk)
    (ip : Dinode)
    (off : UInt32)
    (hFree : HoleFree disk ip)
    (as : List Action)
    (hWrites : ∀ q dst n, Action.call q (.read dst n) ∉ as)
    (s : Sharing.State)
    (hRun : Sharing.run sb inum (.init disk ip off) as = some s)
    (p c : Nat)
    (src : Src)
    (n : Int)
    (i : Nat)
    (hPc : s.pc p = .write c src n i)
    (hMore : (i : Int) < n) :
    Fits sb (shifted src i) s.off (UInt32.ofNat (partLen n i)) ⟨s.disk, inum, s.ip⟩ ∧
    ∃ s', Sharing.step sb inum s (.run p) = some s' := by
  have hInit : Prepared (.init disk ip off) := by
    refine ⟨fun _ _ _ _ => Sharing.Pc.noConfusion, ?_⟩
    intro hLe
    exact ready_of_holeFree hFree (UInt32.le_iff_toNat_le.mp hLe)
  rcases (hInit.run hWrites hRun).writeSection p c src n i with ⟨hFits, s', hNext, _⟩
  refine ⟨hFits, s', ?_⟩
  dsimp only [Sharing.step]
  rw [hPc]
  dsimp only
  rw [if_pos hMore]
  exact hNext

theorem sections_fit_oneByte :
    Fits smallSuperblock (shifted (Src.kernel [7]) 0) 0 (UInt32.ofNat (partLen 1 0))
      ⟨smallDisk, 1, smallInodes 1⟩ :=
  (sections_fit smallSuperblock 1 smallDisk (smallInodes 1) 0
    (small_consistent.holeFree 1 (by decide)) [.call 0 (.write (Src.kernel [7]) 1)]
    (fun _ _ _ hMem => by cases List.mem_singleton.mp hMem) _ rfl 0 0 (Src.kernel [7]) 1 0 rfl
    (by decide)).1

end Xv6.Fs.Logged

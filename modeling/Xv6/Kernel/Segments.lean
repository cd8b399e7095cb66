import Xv6.Kernel.Exec
import Xv6.Kernel.Shape
import Xv6.Vm.View

/-
  The segments that `exec` loads.

  Whatever the file holds, the new page table has the shape
  of a process of the size reached so far. If all segments
  are loaded, user memory holds what `segments` says: the
  bytes that were read, later segments over earlier ones,
  and zero bytes elsewhere.

  Main declarations:
    * `Loaded`
    * `loadseg_spec`
    * `loadSegments_spec`
-/

namespace Xv6.Kernel

open Prog

open Vm

---- What The Loops Write

/- The bytes read for the page of the offset `x`. -/
def chunk (ip : Inode) (offset size x : Nat) : List UInt8 :=
  readi ip ((offset + x / PGSIZE * PGSIZE) % 2 ^ 32) (min (size - x / PGSIZE * PGSIZE) PGSIZE)

/- From `start` on all pages were read in full. -/
def Whole (ip : Inode) (offset size start : Nat) : Prop :=
  ∀ x, start ≤ x → x < size →
    (chunk ip offset size x).length = min (size - x / PGSIZE * PGSIZE) PGSIZE

/- User memory with the pages of a segment from `start` on. -/
def segment (ip : Inode) (va offset size start : Nat) (c : Memory) : Memory :=
  fun y =>
    if va + start ≤ y ∧ y < va + size then
      (chunk ip offset size (y - va)).getD ((y - va) % PGSIZE) 0
    else
      c y

/- A program header, as far as `exec` reads it. -/
structure Proghdr where
  type : Nat
  off : Nat
  vaddr : Nat
  filesz : Nat
  memsz : Nat

def Proghdr.ofBytes (ph : List UInt8) : Proghdr where
  type := field ph 0 4
  off := field ph 8 8
  vaddr := field ph 16 8
  filesz := field ph 32 8
  memsz := field ph 40 8

/- User memory after `n` program headers from `off` on. -/
def segments (ip : Inode) : Nat → Nat → Memory → Memory
| 0, _, c => c
| n + 1, off, c =>
  let ph := Proghdr.ofBytes (readi ip off PROGHDRSIZE)
  segments ip n ((off + PROGHDRSIZE) % 2 ^ 32)
    (if ph.type = ELF_PROG_LOAD then
      segment ip ph.vaddr (ph.off % 2 ^ 32) (ph.filesz % 2 ^ 32) 0 c
    else
      c)

/- One header passed its checks in an image of size `sz`. -/
structure Passed (ip : Inode) (sz : Nat) (ph : Proghdr) : Prop where
  filesz : ph.filesz ≤ ph.memsz
  fits : ph.vaddr + ph.memsz ≤ sz
  whole : Whole ip (ph.off % 2 ^ 32) (ph.filesz % 2 ^ 32) 0

/- All headers were read, and passed where they count. -/
def Loaded (ip : Inode) (sz : Nat) : Nat → Nat → Prop
| 0, _ => True
| n + 1, off =>
  (readi ip off PROGHDRSIZE).length = PROGHDRSIZE ∧
    ((Proghdr.ofBytes (readi ip off PROGHDRSIZE)).type =
        ELF_PROG_LOAD →
      Passed ip sz (Proghdr.ofBytes (readi ip off PROGHDRSIZE))) ∧
      Loaded ip sz n ((off + PROGHDRSIZE) % 2 ^ 32)

theorem chunk_congr (ip : Inode) (offset size : Nat) {x y : Nat} (h : x / PGSIZE = y / PGSIZE) :
    chunk ip offset size x = chunk ip offset size y := by
  unfold chunk
  rw [h]

theorem segment_end (ip : Inode) {va offset size start : Nat} (c : Memory) (h : size ≤ start) :
    segment ip va offset size start c = c := by
  funext y
  unfold segment
  rw [if_neg (by omega)]

theorem page_of_segment {va j y : Nat} (hLow : va + j * PGSIZE ≤ y)
    (hHigh : y < va + (j + 1) * PGSIZE) :
    (y - va) / PGSIZE = j ∧ y - (va + j * PGSIZE) = (y - va) % PGSIZE := by
  unfold PGSIZE at *
  omega

theorem page_next (j : Nat) : (j + 1) * PGSIZE = j * PGSIZE + PGSIZE := by
  rw [Nat.add_mul, Nat.one_mul]

theorem segment_next (ip : Inode) {va offset size j : Nat} (c : Memory) (hMore : j * PGSIZE < size)
    (hFull : (chunk ip offset size (j * PGSIZE)).length = min (size - j * PGSIZE) PGSIZE) :
    segment ip va offset size ((j + 1) * PGSIZE)
        (c.write (va + j * PGSIZE) (chunk ip offset size (j * PGSIZE))) =
      segment ip va offset size (j * PGSIZE) c := by
  have hNext := page_next j
  funext y
  unfold segment
  by_cases hLater : va + (j + 1) * PGSIZE ≤ y ∧ y < va + size
  · have hIn : va + j * PGSIZE ≤ y ∧ y < va + size := by omega
    rw [if_pos hLater, if_pos hIn]
  rw [if_neg hLater]
  by_cases hIn : va + j * PGSIZE ≤ y ∧ y < va + size
  · rcases page_of_segment hIn.1 (by omega) with ⟨hPage, hIndex⟩
    have hSame : chunk ip offset size (y - va) = chunk ip offset size (j * PGSIZE) := by
      refine chunk_congr ip offset size ?_
      rw [hPage, Nat.mul_div_cancel j (by decide)]
    have hRange : va + j * PGSIZE ≤ y ∧
        y < va + j * PGSIZE + (chunk ip offset size (j * PGSIZE)).length := by
      rw [hFull]
      omega
    rw [if_pos hIn, hSame]
    unfold Memory.write
    rw [if_pos hRange, hIndex]
  · rw [if_neg hIn]
    apply Memory.write_other
    rw [hFull]
    omega

---- Loading Segments

section

variable {L : Layout} {s : Kmem} {pt tf sz : Nat} {f : Nat → Option Nat} {R : Multiset Nat}
variable {E : Panic → Prop} {c : Memory}

theorem length_readi (ip : Inode) (off n : Nat) : (readi ip off n).length ≤ n := by
  unfold readi
  exact List.length_take_le n _

theorem pageSteps_next {j k size : Nat} (h : k + 1 = pageSteps (j * PGSIZE) size) :
    j * PGSIZE < size ∧ k = pageSteps ((j + 1) * PGSIZE) size := by
  unfold pageSteps PGSIZE at *
  omega

theorem page_start {va j : Nat} (h : va % PGSIZE = 0) :
    (va + j * PGSIZE) / PGSIZE * PGSIZE = va + j * PGSIZE := by
  unfold PGSIZE at *
  omega

theorem page_lt_pageCount {a sz : Nat} (h : a < sz) : a / PGSIZE < pageCount sz := by
  unfold pageCount PGSIZE
  omega

theorem lt_MAXVA {a sz : Nat} (h : a < sz) (hSz : pageCount sz ≤ 2 ^ 15) : a < MAXVA := by
  unfold pageCount PGSIZE at hSz
  unfold MAXVA
  omega

section

variable (h : Table L s pt f (frames f 0 (pageCount sz) + R)) (hShape : Shape L tf none sz f)
  (hc : Contents s.mem f (pageCount sz) c)
include h hShape hc

/- The loop of `loadseg` after `j` pages: the segment lies in user memory. -/
theorem loadsegFrom_spec {va offset size k j : Nat} {ip : Inode} {Q : Int → Kmem → Prop}
    (hAlign : va % PGSIZE = 0) (hFits : va + size ≤ sz) (hRounds : k = pageSteps (j * PGSIZE) size)
    (hFail :
      ∀ s', Table L s' pt f (frames f 0 (pageCount sz) + R) → Keeps R s.mem s'.mem → Q (-1) s')
    (hDone : ∀ s', Table L s' pt f (frames f 0 (pageCount sz) + R) →
        Keeps R s.mem s'.mem → Whole ip offset size (j * PGSIZE) →
          Contents s'.mem f (pageCount sz) (segment ip va offset size (j * PGSIZE) c) → Q 0 s') :
    wp (loadsegFrom pt va ip offset size k (j * PGSIZE)) Q E s := by
  induction k generalizing s j c with
  | zero =>
    have hEnd : size ≤ j * PGSIZE := by
      unfold pageSteps PGSIZE at *
      omega
    simp only [loadsegFrom, wp_pure]
    refine hDone s h (Keeps.refl _ _) ?_ ?_
    · intro x hLow hHigh
      omega
    · rw [segment_end ip c hEnd]
      exact hc
  | succ k ih =>
    have hLe := hShape.user.le h.books
    have hNow := pageSteps_next hRounds
    have hInside : va + j * PGSIZE < sz := by omega
    have hPage := page_lt_pageCount hInside
    have hTop := lt_MAXVA hInside hLe
    have hMod : (va + j * PGSIZE) % UINT64 = va + j * PGSIZE :=
      Nat.mod_eq_of_lt (Nat.lt_trans hTop (by decide))
    have hNext : j * PGSIZE + PGSIZE = (j + 1) * PGSIZE := by rw [Nat.add_mul, Nat.one_mul]
    rcases hShape.user.leaves _ hPage with ⟨w, hw, _, hUser⟩
    have hAccess := hUser (by simp)
    have hFrame := mem_frames hPage hw
    have hNe : ¬ PTE2PA w = 0 := (h.isPage_rest (Multiset.mem_add.mpr (.inl hFrame))).ne_zero
    have hLeaf : leaf s.mem pt ((va + j * PGSIZE) / PGSIZE) = some w := by
      rw [h.map]
      exact hw
    have hVpn := (leaf_eq_some hLeaf).1
    have hStart : j * PGSIZE / PGSIZE * PGSIZE = j * PGSIZE :=
      by rw [Nat.mul_div_cancel j (by decide)]
    have hChunk : readi ip ((offset + j * PGSIZE) % 2 ^ 32) (min (size - j * PGSIZE) PGSIZE) =
        chunk ip offset size (j * PGSIZE) := by
      unfold chunk
      rw [hStart]
    simp only [loadsegFrom, wp_bind, hMod]
    refine walkaddr_user hLeaf rfl hTop (fun p hp => h.leafPage_ne_zero hVpn hp) hAccess ?_
    have hRead := length_readi ip ((offset + j * PGSIZE) % 2 ^ 32) (min (size - j * PGSIZE) PGSIZE)
    rw [if_neg hNe]
    rw [hChunk] at hRead ⊢
    have hLength : 0 + (chunk ip offset size (j * PGSIZE)).length ≤ PGSIZE := by omega
    rcases h.writeFrame hFrame hLength with ⟨hTable, hKeeps⟩
    have hWrite := hc.write h hPage hw hLength
    rw [Nat.add_zero] at hTable hKeeps
    rw [Nat.add_zero, Nat.add_zero, page_start hAlign] at hWrite
    simp only [wp_modify, wp_ite, wp_pure, wp_bind, hNext]
    refine ⟨fun _ => ?_, fun hFull => ?_⟩
    · have hEnd := hFail _ hTable
      dsimp only at hEnd
      exact hEnd hKeeps
    refine ih (j := j + 1) (c := c.write (va + j * PGSIZE) (chunk ip offset size (j * PGSIZE)))
      hTable ?_ hNow.2 ?_ ?_
    · dsimp only
      exact hWrite
    · intro s' h' hKeeps'
      dsimp only at hKeeps'
      exact hFail s' h' (hKeeps.trans hKeeps')
    intro s' h' hKeeps' hWhole hc'
    dsimp only at hKeeps'
    have hLen := not_not.mp hFull
    refine hDone s' h' (hKeeps.trans hKeeps') ?_ ?_
    · intro x hLow hHigh
      by_cases hLater : (j + 1) * PGSIZE ≤ x
      · exact hWhole x hLater hHigh
      · have hSame : x / PGSIZE = j :=
          Nat.div_eq_of_lt_le hLow (by omega)
        rw [hSame, ← hLen]
        refine congrArg List.length (chunk_congr ip offset size ?_)
        rw [hSame, Nat.mul_div_cancel j (by decide)]
    · rw [← segment_next ip c hNow.1 hLen]
      exact hc'

theorem loadseg_spec {va offset size : Nat} {ip : Inode} {Q : Int → Kmem → Prop}
    (hAlign : va % PGSIZE = 0) (hFits : va + size ≤ sz) (hFail :
      ∀ s', Table L s' pt f (frames f 0 (pageCount sz) + R) → Keeps R s.mem s'.mem → Q (-1) s')
    (hDone : ∀ s', Table L s' pt f (frames f 0 (pageCount sz) + R) →
        Keeps R s.mem s'.mem → Whole ip (offset % 2 ^ 32) (size % 2 ^ 32) 0 →
          Contents s'.mem f (pageCount sz)
            (segment ip va (offset % 2 ^ 32) (size % 2 ^ 32) 0 c) → Q 0 s') :
    wp (loadseg pt va ip offset size) Q E s := by
  have hSmall := Nat.mod_le size (2 ^ 32)
  have hLoop : wp (loadsegFrom pt va ip (offset % 2 ^ 32) (size % 2 ^ 32)
      (pageSteps (0 * PGSIZE) (size % 2 ^ 32)) (0 * PGSIZE)) Q E s := by
    refine loadsegFrom_spec h hShape hc hAlign (by omega) rfl hFail ?_
    rw [Nat.zero_mul]
    exact hDone
  rw [Nat.zero_mul] at hLoop
  exact hLoop

end

theorem field_lt (header : List UInt8) (off : Nat) : field header off 8 < 2 ^ 64 := by
  have hBound := Bytes.ofLe_lt ((header.drop off).take 8)
  have hLength := List.length_take_le 8 (header.drop off)
  have hPow : 256 ^ ((header.drop off).take 8).length ≤ 256 ^ 8 :=
    Nat.pow_le_pow_right (by decide) hLength
  exact Nat.lt_of_lt_of_le hBound hPow

theorem no_overflow {vaddr memsz : Nat} (hVaddr : vaddr < 2 ^ 64) (hMemsz : memsz < 2 ^ 64)
    (hCheck : ¬ (vaddr + memsz) % UINT64 < vaddr) : (vaddr + memsz) % UINT64 = vaddr + memsz := by
  unfold UINT64 at *
  omega

theorem flags2perm_lt (flags : Nat) : flags2perm flags < 1024 := by
  unfold flags2perm
  split <;> split <;> decide

/-
  After any number of program headers the page table has the
  shape of an image of the size reached.
-/
theorem loadSegments_spec {ip : Inode} {n off : Nat} {Q : Bool × Nat → Kmem → Prop}
    (h : Table L s pt f (frames f 0 (pageCount sz) + R)) (hShape : Shape L tf none sz f)
    (hc : Contents s.mem f (pageCount sz) c)
    (hFail : ∀ sz' s' f', Table L s' pt f' (frames f' 0 (pageCount sz') + R) →
      Shape L tf none sz' f' → Keeps R s.mem s'.mem → Q (false, sz') s')
    (hDone : ∀ sz' s' f', Table L s' pt f' (frames f' 0 (pageCount sz') + R) →
      Shape L tf none sz' f' → Keeps R s.mem s'.mem → sz ≤ sz' → Loaded ip sz' n off →
        Contents s'.mem f' (pageCount sz') (segments ip n off c) → Q (true, sz') s') :
    wp (loadSegments L.kend pt ip n off sz) Q E s := by
  induction n generalizing s f sz off c with
  | zero =>
    simp only [loadSegments, wp_pure]
    exact hDone sz s f h hShape (Keeps.refl _ _) (Nat.le_refl sz) trivial hc
  | succ n ih =>
    have hBad : Q (false, sz) s := hFail sz s f h hShape (Keeps.refl _ _)
    simp only [loadSegments, wp_ite, wp_pure]
    refine ⟨fun _ => hBad, fun hLength =>
      ⟨fun hType => ?_, fun hType =>
        ⟨fun _ => hBad, fun hMem =>
          ⟨fun _ => hBad, fun hOver =>
            ⟨fun _ => hBad, fun hAlign => ?_⟩⟩⟩⟩⟩
    · -- A header of another type.
      refine ih h hShape hc hFail ?_
      intro sz' s' f' h' hShape' hKeeps hLe hLoaded hc'
      refine hDone sz' s' f' h' hShape' hKeeps hLe
        ⟨not_not.mp hLength, fun hNot => absurd hNot hType, hLoaded⟩ ?_
      have hOther : (Proghdr.ofBytes (readi ip off PROGHDRSIZE)).type ≠ ELF_PROG_LOAD := hType
      rw [segments, if_neg hOther]
      exact hc'
    have hEnd := no_overflow (field_lt _ _) (field_lt _ _) hOver
    -- Enough memory is there: the segment is loaded.
    have hLoad : ∀ sz1 s₁ f₁, sz ≤ sz1 → Table L s₁ pt f₁ (frames f₁ 0 (pageCount sz1) + R) →
        Shape L tf none sz1 f₁ → Contents s₁.mem f₁ (pageCount sz1) c → Keeps R s.mem s₁.mem →
          field (readi ip off PROGHDRSIZE) 16 8 +
            field (readi ip off PROGHDRSIZE) 40 8 ≤ sz1 → wp (do
              let r ← loadseg pt (field (readi ip off PROGHDRSIZE) 16 8) ip
                (field (readi ip off PROGHDRSIZE) 8 8)
                (field (readi ip off PROGHDRSIZE) 32 8)
              if r < 0 then
                pure (false, sz1)
              else
                loadSegments L.kend pt ip n ((off + PROGHDRSIZE) % 2 ^ 32)
                  sz1) Q E s₁ := by
      intro sz1 s₁ f₁ hGrow h₁ hShape₁ hc₁ hKeeps₁ hFits
      rw [wp_bind]
      refine loadseg_spec h₁ hShape₁ hc₁ (not_not.mp hAlign) (by omega) ?_ ?_
      · intro s₂ h₂ hKeeps₂
        rw [if_pos (by decide), wp_pure]
        exact hFail sz1 s₂ f₁ h₂ hShape₁ (hKeeps₁.trans hKeeps₂)
      intro s₂ h₂ hKeeps₂ hWhole hc₂
      have hKeeps := hKeeps₁.trans hKeeps₂
      rw [if_neg (by decide)]
      refine ih h₂ hShape₁ hc₂ ?_ ?_
      · intro sz' s' f' h' hShape' hKeeps'
        exact hFail sz' s' f' h' hShape' (hKeeps.trans hKeeps')
      intro sz' s' f' h' hShape' hKeeps' hLe hLoaded hc'
      refine hDone sz' s' f' h' hShape' (hKeeps.trans hKeeps') (Nat.le_trans hGrow hLe)
        ⟨not_not.mp hLength, fun _ => ⟨?_, ?_, hWhole⟩, hLoaded⟩ ?_
      · exact Nat.le_of_not_lt hMem
      · exact Nat.le_trans hFits hLe
      · have hThis : (Proghdr.ofBytes (readi ip off PROGHDRSIZE)).type =
            ELF_PROG_LOAD := not_not.mp hType
        rw [segments, if_pos hThis]
        exact hc'
    rw [wp_bind, hEnd]
    refine uvmalloc_spec (leafFlags_userLeaf none) (newEntries_userLeaf none (flags2perm_lt _))
      (flags2perm_lt _) h hShape.user ?_ ?_ ?_
    · intro hLess
      have hNe : sz ≠ 0 := by omega
      rw [if_neg hNe]
      exact hLoad sz s f (Nat.le_refl sz) h hShape hc (Keeps.refl _ _) (Nat.le_of_lt hLess)
    · intro s₁ _ h₁ hKeeps₁
      rw [if_pos rfl, wp_pure]
      exact hFail sz s₁ f h₁ hShape (hKeeps₁.mono (by simp +contextual))
    · intro s₁ g hMore h₁ hRange hSame hAll hZeros
      have hKeeps₁ : Keeps R s.mem s₁.mem := hAll.mono (by simp +contextual)
      have hShape₁ := hShape.resize hRange (fun v hv => hSame v (.inr hv))
      by_cases hZero :
          field (readi ip off PROGHDRSIZE) 16 8 + field (readi ip off PROGHDRSIZE) 40 8 = 0
      · have hOld : sz = 0 := by omega
        rw [if_pos hZero, wp_pure]
        rw [hZero] at h₁ hShape₁
        rw [hOld]
        exact hFail 0 s₁ g h₁ hShape₁ hKeeps₁
      · rw [if_neg hZero]
        exact hLoad _ s₁ g hMore h₁ hShape₁ (hc.grown h hMore hAll hSame hZeros) hKeeps₁
          (Nat.le_refl _)

end

end Xv6.Kernel

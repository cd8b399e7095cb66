import Xv6.Vm.Copy
import Xv6.Vm.Refinement

/-
  What `copyout` and `copyin` transfer, byte by byte.

  A user address has a translation if the leaf of its page
  carries the bits asked for. Both loops go through the
  pages of a range in order and stop at the first page that
  does not, so what they transfer is the range or a prefix
  of it that ends at a page boundary.

  Main declarations:
    * `wp_copyoutFrom`
    * `wp_copyinToFrom`
    * `user_copies_exact`
-/

namespace Xv6.Vm

open Prog

---- Permissions And Translations

/- The virtual page `v` lies below `MAXVA` and its valid entry has every bit in `bits`. -/
def Granted (m : Memory) (pt : Nat) (bits : List Nat) (v : Nat) : Prop :=
  v * PGSIZE < MAXVA ∧ ∃ w, leaf m pt v = some w ∧ ∀ b ∈ bits, w &&& b ≠ 0

/- The physical address of a mapped virtual address. -/
def phys (m : Memory) (pt va : Nat) : Nat := PTE2PA ((leaf m pt (va / PGSIZE)).getD 0) + va % PGSIZE

/- The user leaves map different pages, and none of them is a page-table page. -/
structure UserMap (m : Memory) (pt : Nat) : Prop where
  pages : ∀ p ∈ tree m pt, IsPage p
  frames : ∀ v w, leaf m pt v = some w → w &&& PTE_U ≠ 0 → IsPage (PTE2PA w) ∧ PTE2PA w ∉ tree m pt
  distinct : ∀ v w v' w', leaf m pt v = some w → w &&& PTE_U ≠ 0 →
    leaf m pt v' = some w' → w' &&& PTE_U ≠ 0 → PTE2PA w = PTE2PA w' → v = v'

variable {m m' : Memory} {pt : Nat} {bits : List Nat}

theorem granted_congr {v : Nat} (hLeaf : leaf m' pt = leaf m pt) :
    Granted m' pt bits v ↔ Granted m pt bits v := by
  unfold Granted
  rw [hLeaf]

theorem phys_congr {va : Nat} (hLeaf : leaf m' pt = leaf m pt) : phys m' pt va = phys m pt va := by
  unfold phys
  rw [hLeaf]

theorem phys_of_leaf {va w : Nat} (hLeaf : leaf m pt (va / PGSIZE) = some w) :
    phys m pt va = PTE2PA w + va % PGSIZE := by
  unfold phys
  rw [hLeaf, Option.getD_some]

section

variable (h : UserMap m pt)
include h

theorem UserMap.congr (hSame : SameEntries m m' pt) : UserMap m' pt := by
  refine ⟨?_, ?_, ?_⟩
  · rw [hSame.tree]
    exact h.pages
  · rw [hSame.tree, hSame.leaf]
    exact h.frames
  · rw [hSame.leaf]
    exact h.distinct

/- A write inside a user frame keeps the page table. -/
theorem UserMap.sameEntries_write {v w o : Nat} {bytes : List UInt8} (hLeaf : leaf m pt v = some w)
    (hUser : w &&& PTE_U ≠ 0) (ho : o + bytes.length ≤ PGSIZE) :
    SameEntries m (m.write (PTE2PA w + o) bytes) pt := by
  have hPage := h.frames v w hLeaf hUser
  refine (frame_write m bytes hPage.1.aligned ho).sameEntries
    (fun p hp => (h.pages p hp).aligned) ?_
  intro p hp hEq
  rw [Multiset.mem_singleton.mp hEq] at hp
  exact hPage.2 hp

/- Different user addresses have different translations. -/
theorem UserMap.phys_inj {a b : Nat} (hBit : PTE_U ∈ bits) (ha : Granted m pt bits (a / PGSIZE))
    (hb : Granted m pt bits (b / PGSIZE)) (hEq : phys m pt a = phys m pt b) : a = b := by
  rcases ha with ⟨_, w, hw, hUser⟩
  rcases hb with ⟨_, w', hw', hUser'⟩
  have hUser := hUser _ hBit
  have hUser' := hUser' _ hBit
  rw [phys_of_leaf hw, phys_of_leaf hw'] at hEq
  have hp := (h.frames _ _ hw hUser).1.aligned
  have hp' := (h.frames _ _ hw' hUser').1.aligned
  have hPage : PTE2PA w = PTE2PA w' := by
    unfold PGSIZE at *
    omega
  have hVpn := h.distinct _ _ _ _ hw hUser hw' hUser' hPage
  unfold PGSIZE at *
  omega

/- The page of a translation is a frame with user access. -/
theorem UserMap.phys_page {va : Nat} (hBit : PTE_U ∈ bits) (hva : Granted m pt bits (va / PGSIZE)) :
    ∃ v w, leaf m pt v = some w ∧ w &&& PTE_U ≠ 0 ∧ PGROUNDDOWN (phys m pt va) = PTE2PA w := by
  rcases hva with ⟨_, w, hw, hUser⟩
  have hUser := hUser _ hBit
  refine ⟨_, w, hw, hUser, ?_⟩
  rw [phys_of_leaf hw]
  exact pgrounddown_add (h.frames _ _ hw hUser).1.aligned (Nat.mod_lt _ (by decide))

end

/- The leaf entry behind the page `walk` arrives at. -/
theorem leaf_of_leafPage {v p : Nat} (hv : v < 2 ^ 27) (hp : leafPage m pt v = some p) :
    leaf m pt v = entry (pteAt m p (v % 512)) := by
  unfold leaf
  rw [if_pos hv, hp, Option.bind_some]

theorem pgrounddown_div (va : Nat) : PGROUNDDOWN va / PGSIZE = va / PGSIZE :=
  Nat.mul_div_cancel _ (by decide)

---- The Part Of A Range In One Page

/- The bytes of a range of `len` bytes in its first page. -/
def firstPart (va len : Nat) : Nat := min (PGSIZE - (va - PGROUNDDOWN va)) len

theorem firstPart_le (va len : Nat) : firstPart va len ≤ len := Nat.min_le_right _ _

theorem firstPart_pos {va len : Nat} (hLen : len ≠ 0) : 0 < firstPart va len := by
  unfold firstPart PGROUNDDOWN PGSIZE
  omega

theorem firstPart_page {va len i : Nat} (hi : i < firstPart va len) :
    (va + i) / PGSIZE = va / PGSIZE ∧ (va + i) % PGSIZE = va - PGROUNDDOWN va + i := by
  unfold firstPart PGROUNDDOWN PGSIZE at *
  omega

theorem firstPart_fits (va len : Nat) : va - PGROUNDDOWN va + firstPart va len ≤ PGSIZE := by
  unfold firstPart PGROUNDDOWN PGSIZE
  omega

/- A range that goes on does so at the next page. -/
theorem firstPart_next {va len : Nat} (hMore : firstPart va len < len) :
    PGROUNDDOWN va + PGSIZE = va + firstPart va len := by
  unfold firstPart PGROUNDDOWN PGSIZE at *
  omega

/- The loops went through the first `k` bytes of a range of `len` and then returned `r`. -/
structure Covers (m : Memory) (pt : Nat) (bits : List Nat) (va len k : Nat) (r : Int) : Prop where
  granted : ∀ i < k, Granted m pt bits ((va + i) / PGSIZE)
  result : (r = 0 ∧ k = len) ∨ (r = -1 ∧ k < len ∧ ¬ Granted m pt bits ((va + k) / PGSIZE))

variable {va len k : Nat} {r : Int}

section

theorem Covers.congr (hLeaf : leaf m' pt = leaf m pt) (h : Covers m' pt bits va len k r) :
    Covers m pt bits va len k r := by
  refine ⟨?_, ?_⟩
  · intro i hi
    exact (granted_congr hLeaf).mp (h.granted i hi)
  · rw [← granted_congr hLeaf]
    exact h.result

/- The first page has access, and the loop went on. -/
theorem Covers.cons (hHead : Granted m pt bits (va / PGSIZE)) (hMore : firstPart va len < len)
    (h : Covers m pt bits (va + firstPart va len) (len - firstPart va len) k r) :
    Covers m pt bits va len (firstPart va len + k) r := by
  refine ⟨?_, ?_⟩
  · intro i hi
    rcases Nat.lt_or_ge i (firstPart va len) with hIn | hOut
    · rw [(firstPart_page hIn).1]
      exact hHead
    · have hTail := h.granted (i - firstPart va len) (by omega)
      rw [Nat.add_assoc, Nat.add_sub_cancel' hOut] at hTail
      exact hTail
  · rcases h.result with ⟨hr, hk⟩ | ⟨hr, hk, hBad⟩
    · exact .inl ⟨hr, by omega⟩
    · refine .inr ⟨hr, by omega, ?_⟩
      rw [← Nat.add_assoc]
      exact hBad

/- The first page holds the whole range. -/
theorem Covers.last (hHead : Granted m pt bits (va / PGSIZE)) (hAll : firstPart va len = len) :
    Covers m pt bits va len len 0 := by
  refine ⟨?_, .inl ⟨rfl, rfl⟩⟩
  intro i hi
  rw [(firstPart_page (hAll.symm ▸ hi)).1]
  exact hHead

theorem Covers.stop (hLen : len ≠ 0) (hHead : ¬ Granted m pt bits (va / PGSIZE)) :
    Covers m pt bits va len 0 (-1) := by
  refine ⟨fun i hi => absurd hi (Nat.not_lt_zero i), ?_⟩
  exact .inr ⟨rfl, Nat.pos_of_ne_zero hLen, hHead⟩

variable (h : Covers m pt bits va len k r)
include h

theorem Covers.le : k ≤ len := by
  rcases h.result with ⟨_, hk⟩ | ⟨_, hk, _⟩
  · omega
  · omega

/- The call succeeds iff every page of the range allows it. -/
theorem Covers.zero_iff : r = 0 ↔ ∀ i < len, Granted m pt bits ((va + i) / PGSIZE) := by
  constructor
  · intro hr
    rcases h.result with ⟨_, hk⟩ | ⟨hFail, _, _⟩
    · rw [← hk]
      exact h.granted
    · omega
  · intro hAll
    rcases h.result with ⟨hr, _⟩ | ⟨_, hk, hBad⟩
    · exact hr
    · exact absurd (hAll k hk) hBad

/- On failure, the prefix ends where a page begins. -/
theorem Covers.boundary (hr : r = -1) : k = 0 ∨ (va + k) % PGSIZE = 0 := by
  rcases h.result with ⟨hOk, _⟩ | ⟨_, _, hBad⟩
  · omega
  by_contra hNot
  push Not at hNot
  have hPrev := h.granted (k - 1) (by omega)
  have hSame : (va + (k - 1)) / PGSIZE = (va + k) / PGSIZE := by
    unfold PGSIZE at *
    omega
  rw [hSame] at hPrev
  exact hBad hPrev

/- The permissions determine how far the loops get. -/
theorem Covers.unique {k' : Nat} {r' : Int} (h' : Covers m pt bits va len k' r') :
    k = k' ∧ r = r' := by
  have hk : k = k' := by
    rcases Nat.lt_trichotomy k k' with hLt | hEq | hGt
    · rcases h.result with ⟨_, hLen⟩ | ⟨_, _, hBad⟩
      · have hLe := h'.le
        omega
      · exact absurd (h'.granted k hLt) hBad
    · exact hEq
    · rcases h'.result with ⟨_, hLen⟩ | ⟨_, _, hBad⟩
      · have hLe := h.le
        omega
      · exact absurd (h.granted k' hGt) hBad
  refine ⟨hk, ?_⟩
  rcases h.result with ⟨hr, hLen⟩ | ⟨hr, hLt, _⟩
  · rcases h'.result with ⟨hr', _⟩ | ⟨_, hLt', _⟩
    · rw [hr, hr']
    · omega
  · rcases h'.result with ⟨_, hLen'⟩ | ⟨hr', _, _⟩
    · omega
    · rw [hr, hr']

end

---- Copying Out

/-
  The first `k` bytes of `src` stand at the translations of
  `dstva` and the addresses after it; nothing else changed.
-/
structure Stored (m m' : Memory) (pt dstva : Nat) (src : List UInt8) (k : Nat) : Prop where
  bytes : ∀ i < k, m' (phys m pt (dstva + i)) = src.getD i 0
  rest : ∀ a, (∀ i < k, a ≠ phys m pt (dstva + i)) → m' a = m a

variable {s : Kmem} {m₁ : Memory} {dstva : Nat} {src : List UInt8} {E : Panic → Prop}

theorem Stored.zero : Stored m m pt dstva src 0 :=
  ⟨fun i hi => absurd hi (Nat.not_lt_zero i), fun _ _ => rfl⟩

/- The write of one round. -/
theorem Stored.first {w : Nat} (hLeaf : leaf m pt (dstva / PGSIZE) = some w) :
    Stored m
      (m.write (PTE2PA w + (dstva - PGROUNDDOWN dstva)) (src.take (firstPart dstva src.length)))
      pt dstva src (firstPart dstva src.length) := by
  have hLe := firstPart_le dstva src.length
  have hLength : (src.take (firstPart dstva src.length)).length = firstPart dstva src.length := by
    rw [List.length_take]
    omega
  have hPhys : ∀ i < firstPart dstva src.length,
      phys m pt (dstva + i) = PTE2PA w + (dstva - PGROUNDDOWN dstva) + i := by
    intro i hi
    have hPage := firstPart_page hi
    rw [phys_of_leaf (by rw [hPage.1]; exact hLeaf), hPage.2]
    omega
  refine ⟨?_, ?_⟩
  · intro i hi
    rw [hPhys i hi]
    unfold Memory.write
    rw [if_pos (by omega), Nat.add_sub_cancel_left,
      List.getD_eq_getElem?_getD, List.getD_eq_getElem?_getD, List.getElem?_take_of_lt hi]
  · intro a hOut
    apply Memory.write_other
    by_contra hIn
    push Not at hIn
    have hNe := hOut (a - (PTE2PA w + (dstva - PGROUNDDOWN dstva))) (by omega)
    rw [hPhys _ (by omega)] at hNe
    omega

/- Two parts one after the other. -/
theorem Stored.append {bits : List Nat} {c : Nat} (hMap : UserMap m pt) (hBit : PTE_U ∈ bits)
    (hLeaf : leaf m₁ pt = leaf m pt)
    (hGranted : ∀ i < c + k, Granted m pt bits ((dstva + i) / PGSIZE))
    (h₁ : Stored m m₁ pt dstva src c) (h₂ : Stored m₁ m' pt (dstva + c) (src.drop c) k) :
    Stored m m' pt dstva src (c + k) := by
  refine ⟨?_, ?_⟩
  · intro i hi
    rcases Nat.lt_or_ge i c with hIn | hOut
    · rw [← h₁.bytes i hIn]
      apply h₂.rest
      intro j hj hEq
      rw [phys_congr hLeaf, Nat.add_assoc] at hEq
      have hSame := hMap.phys_inj hBit (hGranted i hi) (hGranted (c + j) (by omega)) hEq
      omega
    · have hByte := h₂.bytes (i - c) (by omega)
      rw [phys_congr hLeaf, Nat.add_assoc, Nat.add_sub_cancel' hOut] at hByte
      rw [hByte, List.getD_eq_getElem?_getD, List.getD_eq_getElem?_getD, List.getElem?_drop,
        Nat.add_sub_cancel' hOut]
  · intro a hOut
    rw [h₂.rest a, h₁.rest a]
    · intro i hi
      exact hOut i (by omega)
    · intro j hj
      rw [phys_congr hLeaf, Nat.add_assoc]
      exact hOut (c + j) (by omega)

/- What one round of `copyout` asks of the page. -/
theorem not_granted_of_bits {v w : Nat} {bits : List Nat} (hLeaf : leaf m pt v = entry w)
    (hBits : w &&& PTE_V = 0 ∨ ∃ b ∈ bits, w &&& b = 0) : ¬ Granted m pt bits v := by
  rintro ⟨_, w', hw', hAll⟩
  rw [hLeaf] at hw'
  unfold entry at hw'
  split at hw'
  · cases hw'
  · rename_i hValid
    cases hw'
    rcases hBits with hZero | ⟨b, hb, hZero⟩
    · exact hValid hZero
    · exact hAll b hb hZero

theorem copyoutFrom_nil (n : Nat) : copyoutFrom pt n dstva [] = pure 0 := by
  cases n with
  | zero => rfl
  | succ n => rfl

/- A round that finds the page, before the next rounds. -/
theorem wp_copyout_round {n w : Nat} {Q : Int → Kmem → Prop} (hMap : UserMap s.mem pt)
    (hLeaf : leaf s.mem pt (dstva / PGSIZE) = some w) (hVa : PGROUNDDOWN dstva < MAXVA)
    (hUser : w &&& PTE_U ≠ 0) (hWrite : w &&& PTE_W ≠ 0) (hLen : src.length ≠ 0)
    (hn : src.length ≤ n + 1)
    (ih :
      ∀ {s : Kmem} {dstva : Nat} {src : List UInt8}, UserMap s.mem pt → src.length ≤ n → (∀ r m' k,
            Covers s.mem pt [PTE_U, PTE_W] dstva src.length k r → Stored s.mem m' pt dstva src k →
              Q r { s with mem := m' }) → wp (copyoutFrom pt n dstva src) Q E s)
    (hPost : ∀ r m' k, Covers s.mem pt [PTE_U, PTE_W] dstva src.length k r →
          Stored s.mem m' pt dstva src k → Q r { s with mem := m' }) :
    wp (copyoutFrom pt n (PGROUNDDOWN dstva + PGSIZE) (src.drop (firstPart dstva src.length))) Q E
      { s with
        mem := s.mem.write (PTE2PA w + (dstva - PGROUNDDOWN dstva))
          (src.take (firstPart dstva src.length)) } := by
  have hHead : Granted s.mem pt [PTE_U, PTE_W] (dstva / PGSIZE) := by
    refine ⟨hVa, w, hLeaf, ?_⟩
    simp only [List.mem_cons, List.not_mem_nil, or_false]
    rintro b (rfl | rfl)
    · exact hUser
    · exact hWrite
  have hFits :
      dstva - PGROUNDDOWN dstva + (src.take (firstPart dstva src.length)).length ≤ PGSIZE := by
    have hPart := firstPart_fits dstva src.length
    rw [List.length_take]
    omega
  have hSame := hMap.sameEntries_write hLeaf hUser hFits
  have hFirst : Stored s.mem (s.mem.write (PTE2PA w + (dstva - PGROUNDDOWN dstva))
      (src.take (firstPart dstva src.length))) pt dstva src (firstPart dstva src.length) :=
    Stored.first hLeaf
  have hLe := firstPart_le dstva src.length
  rcases Nat.lt_or_ge (firstPart dstva src.length) src.length with hMore | hAll
  · rw [firstPart_next hMore]
    refine ih (hMap.congr hSame) ?_ ?_
    · have hPos : 0 < firstPart dstva src.length :=
        firstPart_pos hLen
      rw [List.length_drop]
      omega
    · intro r m' k hCovers hStored
      rw [List.length_drop] at hCovers
      have hWhole := (hCovers.congr hSame.leaf).cons hHead hMore
      exact hPost r m' _ hWhole (hFirst.append hMap (by simp) hSame.leaf hWhole.granted hStored)
  · have hEq : firstPart dstva src.length = src.length := by omega
    rw [List.drop_of_length_le hAll, copyoutFrom_nil, wp_pure]
    refine hPost 0 _ src.length (.last hHead hEq) ?_
    rw [hEq] at hFirst ⊢
    exact hFirst

theorem wp_copyoutFrom {n : Nat} {Q : Int → Kmem → Prop} (hMap : UserMap s.mem pt)
    (hn : src.length ≤ n)
    (hPost : ∀ r m' k, Covers s.mem pt [PTE_U, PTE_W] dstva src.length k r →
      Stored s.mem m' pt dstva src k → Q r { s with mem := m' }) :
    wp (copyoutFrom pt n dstva src) Q E s := by
  induction n generalizing s dstva src with
  | zero =>
    have hLen : src.length = 0 := by omega
    rw [copyoutFrom, wp_pure]
    refine hPost 0 s.mem 0 ⟨?_, .inl ⟨rfl, hLen.symm⟩⟩ Stored.zero
    intro i hi
    omega
  | succ n ih =>
    rw [copyoutFrom]
    by_cases hLen : src.length = 0
    · rw [if_pos hLen, wp_pure]
      refine hPost 0 s.mem 0 ⟨?_, .inl ⟨rfl, hLen.symm⟩⟩ Stored.zero
      intro i hi
      omega
    rw [if_neg hLen]
    have hStop : ¬ Granted s.mem pt [PTE_U, PTE_W] (dstva / PGSIZE) → Q (-1) s :=
      fun hBad =>
        hPost (-1) s.mem 0 (.stop hLen hBad) .zero
    by_cases hTop : PGROUNDDOWN dstva ≥ MAXVA
    · rw [if_pos hTop, wp_pure]
      refine hStop ?_
      rintro ⟨hBelow, _⟩
      unfold PGROUNDDOWN at hTop
      omega
    rw [if_neg hTop, wp_bind]
    have hVa : PGROUNDDOWN dstva < MAXVA := by omega
    have hVpn := vpn_lt hVa
    rw [pgrounddown_div] at hVpn
    refine walk_false_spec hVa ?_
    rw [pgrounddown_div, px_zero, pgrounddown_div]
    cases hp : leafPage s.mem pt (dstva / PGSIZE) with
    | none =>
      rw [Option.elim_none, if_pos rfl, wp_pure]
      refine hStop ?_
      rintro ⟨_, w, hw, _⟩
      rcases (leaf_eq_some hw).2 with ⟨p, hSome, _⟩
      rw [hp] at hSome
      cases hSome
    | some p =>
      have hv : dstva / PGSIZE < 2 ^ 27 := by omega
      have hEntry : leaf s.mem pt (dstva / PGSIZE) =
          entry (s.mem.load (p + 8 * (dstva / PGSIZE % 512)) 8) :=
        leaf_of_leafPage hv hp
      have hNe := (hMap.pages p (leafPage_mem_tree hv hp)).ne_zero
      rw [Option.elim_some, if_neg (by omega)]
      simp only [ld, wp_bind, wp_get, wp_pure, wp_ite, wp_modify]
      refine ⟨fun hBad => hStop ?_, fun hGood => ?_⟩
      · refine not_granted_of_bits hEntry ?_
        rcases hBad with hV | hU | hW
        · exact .inl hV
        · exact .inr ⟨PTE_U, by simp, hU⟩
        · exact .inr ⟨PTE_W, by simp, hW⟩
      · push Not at hGood
        rw [entry, if_neg hGood.1] at hEntry
        exact wp_copyout_round hMap hEntry hVa hGood.2.1 hGood.2.2 hLen hn ih hPost

---- Copying In

/-
  `copyin` with the buffer: the bytes stored at `dst` so far
  stand beside the result, also when the call fails.
-/
def copyinToFrom (pagetable : Nat) : Nat → Nat → Nat → VmM (Int × List UInt8)
| 0, _, _ => pure (0, [])
| n + 1, srcva, len =>
  if len = 0 then
    pure (0, [])
  else do
    let va0 := PGROUNDDOWN srcva
    let pa0 ← walkaddr pagetable va0
    if pa0 = 0 then
      pure (-1, [])
    else do
      let k := min (PGSIZE - (srcva - va0)) len
      let s ← get
      let rest ← copyinToFrom pagetable n ((va0 + PGSIZE) % UINT64) (len - k)
      pure (rest.1, s.mem.read (pa0 + (srcva - va0)) k ++ rest.2)

def copyinTo (pagetable srcva len : Nat) : VmM (Int × List UInt8) :=
  copyinToFrom pagetable len srcva len

variable {srcva : Nat}

/- The value of `copyin`, from the buffer. -/
def copied (r : Int × List UInt8) : Option (List UInt8) := if r.1 = 0 then some r.2 else none

theorem copyinFrom_eq (n : Nat) :
    copyinFrom pt n srcva len = copied <$> copyinToFrom pt n srcva len := by
  induction n generalizing srcva len with
  | zero => rfl
  | succ n ih =>
    unfold copyinFrom copyinToFrom
    split
    · rfl
    rw [map_bind]
    refine bind_congr (fun pa0 => ?_)
    split
    · rfl
    dsimp only
    rw [map_bind]
    refine bind_congr (fun t => ?_)
    rw [ih, map_bind, bind_map_left]
    refine bind_congr (fun rest => ?_)
    rw [map_pure]
    unfold copied
    split
    · rfl
    · rfl

/- The call returns the buffer if it succeeds. -/
theorem copyin_eq : copyin pt srcva len = copied <$> copyinTo pt srcva len := copyinFrom_eq len

theorem copyin_of_run {r : Int} {bytes : List UInt8}
    (hRun : copyinTo pt srcva len s = .ok ((r, bytes), s)) :
    copyin pt srcva len s = .ok (if r = 0 then some bytes else none, s) := by
  rw [copyin_eq]
  show (copyinTo pt srcva len s >>= fun out =>
    pure (copied out.1, out.2)) = _
  rw [hRun]
  rfl

/- The bytes at the translations of a range. -/
def userBytes (m : Memory) (pt va k : Nat) : List UInt8 :=
  (List.range k).map (fun i => m (phys m pt (va + i)))

theorem userBytes_first {w : Nat} (hLeaf : leaf m pt (srcva / PGSIZE) = some w) :
    m.read (PTE2PA w + (srcva - PGROUNDDOWN srcva)) (firstPart srcva len) =
      userBytes m pt srcva (firstPart srcva len) := by
  apply List.map_congr_left
  intro i hi
  have hPage := firstPart_page (List.mem_range.mp hi)
  rw [phys_of_leaf (by rw [hPage.1]; exact hLeaf), hPage.2, Nat.add_assoc]

theorem userBytes_append (m : Memory) (pt va c k : Nat) :
    userBytes m pt va (c + k) = userBytes m pt va c ++ userBytes m pt (va + c) k := by
  unfold userBytes
  rw [List.range_add, List.map_append, List.map_map]
  congr 1
  apply List.map_congr_left
  intro i _
  rw [Function.comp_apply, Nat.add_assoc]

/- `walkaddr` finds the pages with user access. -/
theorem wp_walkaddr {va : Nat} {Q : Nat → Kmem → Prop} (hPages : ∀ p ∈ tree s.mem pt, p ≠ 0)
    (hNone : ¬ Granted s.mem pt [PTE_U] (va / PGSIZE) → Q 0 s)
    (hSome : ∀ w, leaf s.mem pt (va / PGSIZE) = some w →
      Granted s.mem pt [PTE_U] (va / PGSIZE) → w &&& PTE_U ≠ 0 → Q (PTE2PA w) s) :
    wp (walkaddr pt va) Q E s := by
  unfold walkaddr
  by_cases hVa : va ≥ MAXVA
  · rw [if_pos hVa, wp_pure]
    refine hNone ?_
    rintro ⟨hBelow, _⟩
    unfold MAXVA PGSIZE at *
    omega
  rw [if_neg hVa, wp_bind]
  have hLt : va < MAXVA := by omega
  have hVpn := vpn_lt hLt
  have hv : va / PGSIZE < 2 ^ 27 := by omega
  refine walk_false_spec hLt ?_
  rw [px_zero]
  cases hp : leafPage s.mem pt (va / PGSIZE) with
  | none =>
    rw [Option.elim_none, if_pos rfl, wp_pure]
    refine hNone ?_
    rintro ⟨_, w, hw, _⟩
    rcases (leaf_eq_some hw).2 with ⟨p, hFound, _⟩
    rw [hp] at hFound
    cases hFound
  | some p =>
    have hEntry :
        leaf s.mem pt (va / PGSIZE) = entry (s.mem.load (p + 8 * (va / PGSIZE % 512)) 8) :=
      leaf_of_leafPage hv hp
    have hNe := hPages p (leafPage_mem_tree hv hp)
    rw [Option.elim_some, if_neg (by omega)]
    simp only [ld, wp_bind, wp_get, wp_pure, wp_ite]
    refine ⟨fun hV => hNone ?_, fun hValid =>
      ⟨fun hU => hNone ?_, fun hUser => ?_⟩⟩
    · exact not_granted_of_bits hEntry (.inl hV)
    · exact not_granted_of_bits hEntry (.inr ⟨PTE_U, by simp, hU⟩)
    · rw [entry, if_neg hValid] at hEntry
      refine hSome _ hEntry ⟨?_, _, hEntry, ?_⟩ hUser
      · exact Nat.lt_of_le_of_lt (Nat.div_mul_le_self va PGSIZE) hLt
      · intro b hb
        rw [List.mem_singleton.mp hb]
        exact hUser

theorem wp_copyinToFrom {n : Nat} {Q : Int × List UInt8 → Kmem → Prop} (hMap : UserMap s.mem pt)
    (hn : len ≤ n)
    (hPost : ∀ r k, Covers s.mem pt [PTE_U] srcva len k r → Q (r, userBytes s.mem pt srcva k) s) :
    wp (copyinToFrom pt n srcva len) Q E s := by
  induction n generalizing srcva len Q with
  | zero =>
    have hLen : len = 0 := by omega
    rw [copyinToFrom, wp_pure]
    refine hPost 0 0 ⟨?_, .inl ⟨rfl, hLen.symm⟩⟩
    intro i hi
    omega
  | succ n ih =>
    rw [copyinToFrom]
    by_cases hLen : len = 0
    · rw [if_pos hLen, wp_pure]
      refine hPost 0 0 ⟨?_, .inl ⟨rfl, hLen.symm⟩⟩
      intro i hi
      omega
    rw [if_neg hLen, wp_bind]
    refine wp_walkaddr (fun p hp => (hMap.pages p hp).ne_zero) ?_ ?_
    · intro hBad
      rw [pgrounddown_div] at hBad
      rw [if_pos rfl, wp_pure]
      exact hPost (-1) 0 (.stop hLen hBad)
    intro w hLeaf hHead hUser
    rw [pgrounddown_div] at hLeaf hHead
    have hNe := (hMap.frames _ _ hLeaf hUser).1.ne_zero
    rw [if_neg hNe]
    simp only [wp_bind, wp_get, wp_pure]
    have hTop : PGROUNDDOWN srcva < MAXVA := hHead.1
    have hWrap : (PGROUNDDOWN srcva + PGSIZE) % UINT64 = PGROUNDDOWN srcva + PGSIZE := by
      apply Nat.mod_eq_of_lt
      unfold MAXVA UINT64 PGSIZE at *
      omega
    have hRead : s.mem.read (PTE2PA w + (srcva - PGROUNDDOWN srcva))
          (min (PGSIZE - (srcva - PGROUNDDOWN srcva)) len) =
        userBytes s.mem pt srcva (firstPart srcva len) :=
      userBytes_first hLeaf
    rw [hWrap, hRead]
    have hLe := firstPart_le srcva len
    refine ih ?_ ?_
    · have hPos : 0 < firstPart srcva len :=
        firstPart_pos hLen
      show len - firstPart srcva len ≤ n
      omega
    intro r k hCovers
    change Covers s.mem pt [PTE_U] _ (len - firstPart srcva len) k r at hCovers
    rcases Nat.lt_or_ge (firstPart srcva len) len with hMore | hAll
    · rw [firstPart_next hMore] at hCovers ⊢
      rw [← userBytes_append]
      exact hPost r _ (hCovers.cons hHead hMore)
    have hEq : firstPart srcva len = len := by omega
    have hk : k = 0 := by
      have hBound := hCovers.le
      omega
    have hr : r = 0 := by
      rcases hCovers.result with ⟨hr, _⟩ | ⟨_, hLt, _⟩
      · exact hr
      · omega
    have hWhole := hPost 0 len (.last hHead hEq)
    rw [hk, hr, hEq]
    simpa [userBytes] using hWhole

---- The Laws Of Both

/- The virtual page `v` overlaps `[va, va + len)`. -/
def Overlaps (v va len : Nat) : Prop := ∃ a, va ≤ a ∧ a < va + len ∧ a / PGSIZE = v

/- The pages a copy may look at: the tree and user frames. -/
def Visible (m : Memory) (pt p : Nat) : Prop :=
  p ∈ tree m pt ∨ ∃ v w, leaf m pt v = some w ∧ w &&& PTE_U ≠ 0 ∧ p = PTE2PA w

theorem Covers.zero_iff_pages (h : Covers m pt bits va len k r) :
    r = 0 ↔ ∀ v, Overlaps v va len → Granted m pt bits v := by
  rw [h.zero_iff]
  constructor
  · rintro hAll v ⟨a, hLow, hHigh, rfl⟩
    have hByte := hAll (a - va) (by omega)
    rw [Nat.add_sub_cancel' hLow] at hByte
    exact hByte
  · intro hAll i hi
    exact hAll _ ⟨va + i, by omega, by omega, rfl⟩

/- What `copyout` changes lies in user frames. -/
theorem Stored.confined {src : List UInt8} (h : Stored m m' pt va src k) (hMap : UserMap m pt)
    (hBit : PTE_U ∈ bits) (hGranted : ∀ i < k, Granted m pt bits ((va + i) / PGSIZE)) {a : Nat}
    (hDiff : m' a ≠ m a) :
    ∃ v w, leaf m pt v = some w ∧ w &&& PTE_U ≠ 0 ∧ PGROUNDDOWN a = PTE2PA w := by
  have hHit : ∃ i, i < k ∧ a = phys m pt (va + i) := by
    by_contra hNone
    push Not at hNone
    exact hDiff (h.rest a hNone)
  rcases hHit with ⟨i, hi, rfl⟩
  exact hMap.phys_page hBit (hGranted i hi)

/- Bytes elsewhere make no difference to the page table. -/
theorem UserMap.sameEntries (h : UserMap m pt)
    (hSame : ∀ a, Visible m pt (PGROUNDDOWN a) → m' a = m a) : SameEntries m m' pt := by
  intro p hp i hi
  apply Memory.load_congr
  intro j hj
  apply hSame
  rw [Nat.add_assoc, pgrounddown_add (h.pages p hp).aligned (by unfold PGSIZE; omega)]
  exact .inl hp

theorem UserMap.userBytes_congr (h : UserMap m pt) (hBit : PTE_U ∈ bits)
    (hSame : ∀ a, Visible m pt (PGROUNDDOWN a) → m' a = m a)
    (hGranted : ∀ i < k, Granted m pt bits ((va + i) / PGSIZE)) :
    userBytes m' pt va k = userBytes m pt va k := by
  apply List.map_congr_left
  intro i hi
  rw [phys_congr (h.sameEntries hSame).leaf]
  apply hSame
  rcases h.phys_page hBit (hGranted i (List.mem_range.mp hi)) with ⟨v, w, hLeaf, hUser, hPage⟩
  exact .inr ⟨v, w, hLeaf, hUser, hPage⟩

theorem copyout_runs (hMap : UserMap s.mem pt) (src : List UInt8) :
    ∃ r m' k, copyout pt va src s = .ok (r, { s with mem := m' }) ∧
      Covers s.mem pt [PTE_U, PTE_W] va src.length k r ∧ Stored s.mem m' pt va src k := by
  have hWp : wp (copyout pt va src) (fun r s' => ∃ m' k, s' = { s with mem := m' } ∧
        Covers s.mem pt [PTE_U, PTE_W] va src.length k r ∧ Stored s.mem m' pt va src k)
      (fun _ => False) s :=
    wp_copyoutFrom hMap (Nat.le_refl _)
      (fun r m' k hCovers hStored =>
        ⟨m', k, rfl, hCovers, hStored⟩)
  rcases exists_ok_of_wp hWp with ⟨r, s', hRun, m', k, hState, hCovers, hStored⟩
  rw [hState] at hRun
  exact ⟨r, m', k, hRun, hCovers, hStored⟩

theorem copyinTo_runs (hMap : UserMap s.mem pt) :
    ∃ r k, copyinTo pt va len s = .ok ((r, userBytes s.mem pt va k), s) ∧
      Covers s.mem pt [PTE_U] va len k r := by
  have hWp : wp (copyinTo pt va len) (fun out s' => s' = s ∧
        ∃ r k, out = (r, userBytes s.mem pt va k) ∧ Covers s.mem pt [PTE_U] va len k r)
      (fun _ => False) s :=
    wp_copyinToFrom hMap (Nat.le_refl _) (fun r k hCovers => ⟨rfl, r, k, rfl, hCovers⟩)
  rcases exists_ok_of_wp hWp with ⟨out, s', hRun, hState, r, k, hOut, hCovers⟩
  rw [hState, hOut] at hRun
  exact ⟨r, k, hRun, hCovers⟩

/-
  Both calls succeed exactly if every page of the range
  allows the access, transfer exactly its bytes or the bytes
  before the first page that does not, and stay inside the
  pages with user access.
-/
theorem user_copies_exact
    (s : Kmem)
    (pt : Nat)
    (hMap : UserMap s.mem pt) :
    (∀ dstva src, ∃ r m' k,
      copyout pt dstva src s = .ok (r, { s with mem := m' }) ∧
      (r = 0 ↔ ∀ v, Overlaps v dstva src.length → Granted s.mem pt [PTE_U, PTE_W] v) ∧
      Covers s.mem pt [PTE_U, PTE_W] dstva src.length k r ∧
      (r = -1 → k = 0 ∨ (dstva + k) % PGSIZE = 0) ∧
      Stored s.mem m' pt dstva src k ∧
      ∀ a,
        m' a ≠ s.mem a →
        ∃ v w, leaf s.mem pt v = some w ∧ w &&& PTE_U ≠ 0 ∧ PGROUNDDOWN a = PTE2PA w) ∧
    ∀ srcva len, ∃ r k,
      copyinTo pt srcva len s = .ok ((r, userBytes s.mem pt srcva k), s) ∧
      copyin pt srcva len s =
        .ok (if r = 0 then some (userBytes s.mem pt srcva k) else none, s) ∧
      (r = 0 ↔ ∀ v, Overlaps v srcva len → Granted s.mem pt [PTE_U] v) ∧
      Covers s.mem pt [PTE_U] srcva len k r ∧
      (r = -1 → k = 0 ∨ (srcva + k) % PGSIZE = 0) ∧
      ∀ m',
        (∀ a, Visible s.mem pt (PGROUNDDOWN a) → m' a = s.mem a) →
        copyinTo pt srcva len { s with mem := m' } =
          .ok ((r, userBytes s.mem pt srcva k), { s with mem := m' }) := by
  refine ⟨?_, ?_⟩
  · intro dstva src
    rcases copyout_runs hMap src with ⟨r, m', k, hRun, hCovers, hStored⟩
    exact ⟨r, m', k, hRun, hCovers.zero_iff_pages, hCovers, hCovers.boundary, hStored,
      fun a => hStored.confined hMap (by simp) hCovers.granted⟩
  intro srcva len
  rcases copyinTo_runs hMap with ⟨r, k, hRun, hCovers⟩
  refine ⟨r, k, hRun, copyin_of_run hRun, hCovers.zero_iff_pages, hCovers, hCovers.boundary, ?_⟩
  intro m' hSame
  have hEntries := hMap.sameEntries hSame
  have hMap' : UserMap ({ s with mem := m' } : Kmem).mem pt := hMap.congr hEntries
  rcases copyinTo_runs hMap' with ⟨r', k', hRun', hCovers'⟩
  rcases hCovers.unique (hCovers'.congr hEntries.leaf) with ⟨rfl, rfl⟩
  rw [hRun', hMap.userBytes_congr (by simp) hSame hCovers.granted]

/- The tables of the other results are such maps. -/
theorem PageTable.userMap {ok : Nat → Prop} {s : Kmem} {pt : Nat} {f : Nat → Option Nat}
    {l : List Nat} {R : Multiset Nat} (h : PageTable ok s pt f l R) (hUser : UserFrames f R)
    (hDistinct : ∀ v w v' w', f v = some w → w &&& PTE_U ≠ 0 →
      f v' = some w' → w' &&& PTE_U ≠ 0 → PTE2PA w = PTE2PA w' → v = v') :
    UserMap s.mem pt := by
  refine ⟨fun p hp => h.isPage hp, ?_, ?_⟩
  · intro v w hLeaf hBit
    rw [h.map] at hLeaf
    have hIn := hUser v w hLeaf hBit
    refine ⟨h.heap.isPage_own (Multiset.mem_add.mpr (.inr hIn)), ?_⟩
    have hNodup := (Multiset.nodup_add.mp h.heap.nodup).2.1
    intro hTree
    exact Multiset.disjoint_left.mp (Multiset.nodup_add.mp hNodup).2.2 hTree hIn
  · rw [h.map]
    exact hDistinct

/-
  The sample page table with one user page at `0x1000`: a
  copy of three bytes to its end writes two and fails.
-/
theorem user_copies_exact_sample :
    ∃ s' m', mappages 0x80001000 0x1000 PGSIZE 0x80004000
      (PTE_W ||| PTE_U) sampleKmem = .ok (0, s') ∧ copyout 0x80001000 0x1ffe [1, 2, 3] s' =
        .ok (-1, { s' with mem := m' }) ∧ m' 0x80004ffe = 1 ∧ m' 0x80004fff = 2 := by
  rcases sampleKmem_wellFormed.pageTable with ⟨l, hTable⟩
  rw [leaf_of_empty sampleKmem_empty] at hTable
  have hRun : ∃ s',
      mappages 0x80001000 0x1000 PGSIZE 0x80004000 (PTE_W ||| PTE_U) sampleKmem = .ok (0, s') :=
    ⟨_, rfl⟩
  rcases hRun with ⟨s', hRun⟩
  have hMapped : ∃ l', PageTable (fun _ => True) s' 0x80001000
      (mapRange (fun _ => none) 1 0x80004000 (PTE_W ||| PTE_U) 1) l' {0x80004000} := by
    have hSpec : wp (mappages 0x80001000 (1 * PGSIZE) (1 * PGSIZE) 0x80004000 (PTE_W ||| PTE_U))
        (fun r s' => r = 0 → ∃ l', PageTable (fun _ => True) s' 0x80001000
          (mapRange (fun _ => none) 1 0x80004000 (PTE_W ||| PTE_U) 1) l' {0x80004000})
        (fun _ => True) sampleKmem :=
      mappages_spec (fun _ _ => trivial) (by decide) hTable
        (by decide) (by decide) (by decide) (by decide)
        (fun _ => trivial) (fun _ => trivial)
        (fun _ _ _ _ _ _ hZero => absurd hZero (by decide))
        (fun _ l' _ hNew _ _ => ⟨l', hNew⟩)
    exact wp_of_eq_ok hSpec hRun rfl
  rcases hMapped with ⟨l', hNew⟩
  have hOne : ∀ v w, mapRange (fun _ => none) 1 0x80004000 (PTE_W ||| PTE_U) 1 v = some w →
      v = 1 ∧ PTE2PA w = 0x80004000 := by
    intro v w hv
    unfold mapRange at hv
    split at hv
    · rename_i hIn
      have hEq : v = 1 := by omega
      subst hEq
      cases hv
      exact ⟨rfl, by decide⟩
    · cases hv
  have hMap : UserMap s'.mem 0x80001000 := by
    refine hNew.userMap ?_ ?_
    · intro v w hv _
      rw [(hOne v w hv).2]
      exact Multiset.mem_singleton_self _
    · intro v w v' w' hv _ hv' _ _
      rw [(hOne v w hv).1, (hOne v' w' hv').1]
  rcases (user_copies_exact s' 0x80001000 hMap).1 0x1ffe [1, 2, 3] with
    ⟨r, m', k, hCopy, _, hCovers, _, hStored, _⟩
  have hFirst :
      leaf s'.mem 0x80001000 1 = some (PA2PTE 0x80004000 ||| (PTE_W ||| PTE_U) ||| PTE_V) := by
    rw [hNew.map]
    rfl
  have hSecond : leaf s'.mem 0x80001000 2 = none := by
    rw [hNew.map]
    rfl
  have hTwo : Covers s'.mem 0x80001000 [PTE_U, PTE_W] 0x1ffe 3 2 (-1) := by
    refine ⟨?_, .inr ⟨rfl, by decide, ?_⟩⟩
    · intro i hi
      have hPage : (0x1ffe + i) / PGSIZE = 1 := by
        unfold PGSIZE
        omega
      rw [hPage]
      exact ⟨by decide, _, hFirst, by decide⟩
    · rintro ⟨_, w, hw, _⟩
      have hw : leaf s'.mem 0x80001000 2 = some w := hw
      rw [hSecond] at hw
      cases hw
  rcases hCovers.unique hTwo with ⟨rfl, rfl⟩
  have hPhys : ∀ i < 2, phys s'.mem 0x80001000 (0x1ffe + i) = 0x80004ffe + i := by
    intro i hi
    have hPage : (0x1ffe + i) / PGSIZE = 1 := by
      unfold PGSIZE
      omega
    rw [phys_of_leaf (by rw [hPage]; exact hFirst)]
    unfold PGSIZE
    have hFrame : PTE2PA (PA2PTE 0x80004000 ||| (PTE_W ||| PTE_U) ||| PTE_V) = 0x80004000 := by
      decide
    omega
  refine ⟨s', m', hRun, hCopy, ?_, ?_⟩
  · have hByte := hStored.bytes 0 (by decide)
    rw [hPhys 0 (by decide)] at hByte
    exact hByte
  · have hByte := hStored.bytes 1 (by decide)
    rw [hPhys 1 (by decide)] at hByte
    exact hByte

end Xv6.Vm

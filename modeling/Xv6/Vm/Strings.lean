import Xv6.Vm.Transfer

/-
  `copyinstr`, with the buffer it writes and the pages it
  asks `walkaddr` for.

  The statement is about any page table at all: a user byte
  is readable if `walkaddr` translates its page, whatever
  the tree looks like.

  Main declarations:
    * `wp_copyinstrToFrom`
    * `copyinstr_exact`
-/

namespace Xv6.Vm

open Prog

---- Pages Under Walkaddr

/- What `walkaddr` answers for an address, or `0`. -/
def userPage (s : Kmem) (pt va : Nat) : Nat :=
  match walkaddr pt va s with
  | .ok (pa, _) => pa
  | .error _ => 0

/- The page of a user address is readable by `walkaddr`. -/
def Readable (s : Kmem) (pt a : Nat) : Prop := userPage s pt (PGROUNDDOWN a) ≠ 0

/- The byte at a user address. -/
def userByte (s : Kmem) (pt a : Nat) : UInt8 := s.mem (userPage s pt (PGROUNDDOWN a) + a % PGSIZE)

/- The string at `va` has its zero at byte `k`, and all of it is readable. -/
structure StrAt (s : Kmem) (pt va k : Nat) : Prop where
  readable : ∀ i ≤ k, Readable s pt (va + i)
  nonzero : ∀ i < k, userByte s pt (va + i) ≠ 0
  zero : userByte s pt (va + k) = 0

/- The first `k` bytes at `va`. -/
def strBytes (s : Kmem) (pt va k : Nat) : List UInt8 :=
  (List.range k).map (fun i => userByte s pt (va + i))

variable {s : Kmem} {pt va : Nat}

theorem walkaddr_eq (s : Kmem) (pt va : Nat) : walkaddr pt va s = .ok (userPage s pt va, s) := by
  have hWp : wp (walkaddr pt va) (fun _ s' => s' = s) (fun _ => False) s :=
    walkaddr_spec (fun _ => rfl)
  rcases exists_ok_of_wp hWp with ⟨pa, s', hRun, hState⟩
  subst hState
  unfold userPage
  rw [hRun]

theorem wp_userPage {Q : Nat → Kmem → Prop} {E : Panic → Prop} (hPost : Q (userPage s pt va) s) :
    wp (walkaddr pt va) Q E s := by
  unfold wp
  rw [walkaddr_eq]
  exact hPost

theorem Readable.lt (h : Readable s pt va) : PGROUNDDOWN va < MAXVA := by
  by_contra hNot
  have hTop : PGROUNDDOWN va ≥ MAXVA := by omega
  have hRun : walkaddr pt (PGROUNDDOWN va) s = .ok (0, s) := by
    unfold walkaddr
    rw [if_pos hTop]
    rfl
  apply h
  unfold userPage
  rw [hRun]

theorem StrAt.unique {k k' : Nat} (h : StrAt s pt va k) (h' : StrAt s pt va k') : k = k' := by
  rcases Nat.lt_trichotomy k k' with hLt | hEq | hGt
  · exact absurd h.zero (h'.nonzero k hLt)
  · exact hEq
  · exact absurd h'.zero (h.nonzero k' hGt)

theorem strBytes_append (s : Kmem) (pt va c k : Nat) :
    strBytes s pt va (c + k) = strBytes s pt va c ++ strBytes s pt (va + c) k := by
  unfold strBytes
  rw [List.range_add, List.map_append, List.map_map]
  refine congrArg₂ (· ++ ·) rfl (List.map_congr_left ?_)
  intro i _
  rw [Function.comp_apply, Nat.add_assoc]

theorem firstPart_userPage {len i : Nat} (hi : i < firstPart va len) :
    userPage s pt (PGROUNDDOWN (va + i)) = userPage s pt (PGROUNDDOWN va) := by
  unfold PGROUNDDOWN
  rw [(firstPart_page hi).1]

theorem read_first (s : Kmem) (pt va len : Nat) :
    s.mem.read (userPage s pt (PGROUNDDOWN va) + (va - PGROUNDDOWN va)) (firstPart va len) =
      strBytes s pt va (firstPart va len) := by
  apply List.map_congr_left
  intro i hi
  have hi := List.mem_range.mp hi
  unfold userByte
  rw [firstPart_userPage hi, (firstPart_page hi).2, Nat.add_assoc]

---- The Loops

/- The inner loop on the bytes of one page: the bytes it stores at `dst`, and `got_null`. -/
def copyBytes : List UInt8 → List UInt8 × Bool
| [] => ([], false)
| b :: bs =>
  if b = 0 then ([0], true) else (b :: (copyBytes bs).1, (copyBytes bs).2)

/- The loop of `copyinstr` with the bytes stored at `dst` and the pages translated, in order. -/
def copyinstrToFrom (pagetable : Nat) : Nat → Nat → Nat → VmM (Int × List UInt8 × List Nat)
| 0, _, _ => pure (-1, [], [])
| n + 1, srcva, max =>
  if max = 0 then
    pure (-1, [], [])
  else do
    let va0 := PGROUNDDOWN srcva
    let pa0 ← walkaddr pagetable va0
    if pa0 = 0 then
      pure (-1, [], [va0])
    else do
      let k := min (PGSIZE - (srcva - va0)) max
      let s ← get
      let part := copyBytes (s.mem.read (pa0 + (srcva - va0)) k)
      if part.2 = true then
        pure (0, part.1, [va0])
      else do
        let rest ← copyinstrToFrom pagetable n ((va0 + PGSIZE) % UINT64) (max - k)
        pure (rest.1, part.1 ++ rest.2.1, va0 :: rest.2.2)

def copyinstrTo (pagetable srcva max : Nat) : VmM (Int × List UInt8 × List Nat) :=
  copyinstrToFrom pagetable max srcva max

/- The string `copyinstr` returns, from the buffer. -/
def terminated (r : Int × List UInt8 × List Nat) : Option (List UInt8) :=
  if r.1 = 0 then some (r.2.1.takeWhile (· ≠ 0)) else none

theorem copyBytes_eq (bs : List UInt8) :
    copyBytes bs =
      if (bs.takeWhile (· ≠ 0)).length < bs.length then
        (bs.takeWhile (· ≠ 0) ++ [0], true)
      else
        (bs, false) := by
  induction bs with
  | nil => rfl
  | cons b bs ih =>
    unfold copyBytes
    by_cases hb : b = 0
    · simp [hb]
    · rw [if_neg hb, ih, List.takeWhile_cons_of_pos (by simpa using hb)]
      simp only [List.length_cons, Nat.add_lt_add_iff_right]
      split
      · rfl
      · rfl

theorem takeWhile_terminated (bs : List UInt8) :
    (bs.takeWhile (· ≠ 0) ++ [0]).takeWhile (· ≠ 0) = bs.takeWhile (· ≠ 0) := by
  rw [List.takeWhile_append_of_pos (List.all_eq_true.mp List.all_takeWhile)]
  simp

theorem takeWhile_eq_self {bs : List UInt8} (hFull : ¬ (bs.takeWhile (· ≠ 0)).length < bs.length) :
    bs.takeWhile (· ≠ 0) = bs := by
  refine (List.takeWhile_sublist _).eq_of_length ?_
  have hLe := (List.takeWhile_sublist (fun b : UInt8 => decide (b ≠ 0)) (l := bs)).length_le
  omega

theorem copyinstrFrom_eq (n srcva max : Nat) :
    copyinstrFrom pt n srcva max = terminated <$> copyinstrToFrom pt n srcva max := by
  induction n generalizing srcva max with
  | zero => rfl
  | succ n ih =>
    unfold copyinstrFrom copyinstrToFrom
    split
    · rfl
    rw [map_bind]
    refine bind_congr (fun pa0 => ?_)
    split
    · rfl
    dsimp only
    rw [map_bind]
    refine bind_congr (fun t => ?_)
    rw [copyBytes_eq]
    split
    · rw [if_pos rfl, map_pure, terminated, if_pos rfl, takeWhile_terminated]
    rename_i hFull
    have hAll := takeWhile_eq_self hFull
    rw [ih, if_neg (by simp), map_bind, bind_map_left]
    refine bind_congr (fun rest => ?_)
    rw [map_pure]
    unfold terminated
    split
    · rw [Option.map_some, List.takeWhile_append, hAll, if_pos rfl]
    · rfl

theorem copyinstrToFrom_zero (n srcva : Nat) :
    copyinstrToFrom pt n srcva 0 = pure (-1, [], []) := by
  cases n with
  | zero => rfl
  | succ n => rfl

---- What A Call Has Done

/- A call for `max` bytes at `va` stored `dst`, translated `pages` and returned `r`. -/
structure Scanned (s : Kmem) (pt va max : Nat) (r : Int) (dst : List UInt8) (pages : List Nat) :
    Prop where
  bytes : dst = strBytes s pt va dst.length
  length : dst.length ≤ max
  found : r = 0 → ∃ k, dst.length = k + 1 ∧ StrAt s pt va k
  missed : r ≠ 0 → r = -1 ∧ ∀ k < max, ¬ StrAt s pt va k
  pages : ∀ p ∈ pages, ∀ k, StrAt s pt va k → p ≤ PGROUNDDOWN (va + k)

variable {max : Nat} {r : Int} {dst : List UInt8} {E : Panic → Prop}

section

variable {pages : List Nat}

theorem pgrounddown_le (va k : Nat) : PGROUNDDOWN va ≤ PGROUNDDOWN (va + k) := by
  unfold PGROUNDDOWN PGSIZE
  omega

theorem page_first (va : Nat) :
    ∀ p ∈ [PGROUNDDOWN va], ∀ k, StrAt s pt va k → p ≤ PGROUNDDOWN (va + k) := by
  intro p hp k _
  rw [List.mem_singleton.mp hp]
  exact pgrounddown_le va k

theorem Scanned.unreadable (hBad : ¬ Readable s pt va) :
    Scanned s pt va max (-1) [] [PGROUNDDOWN va] := by
  refine ⟨rfl, Nat.zero_le max, ?_, ?_, page_first va⟩
  · intro hZero
    cases hZero
  · refine fun _ => ⟨rfl, ?_⟩
    intro k _ hStr
    exact hBad (hStr.readable 0 (Nat.zero_le k))

theorem copyBytes_strBytes (s : Kmem) (pt va c : Nat) :
    (copyBytes (strBytes s pt va c) = (strBytes s pt va c, false) ∧
      ∀ i < c, userByte s pt (va + i) ≠ 0) ∨ ∃ k < c, copyBytes (strBytes s pt va c) =
          (strBytes s pt va (k + 1), true) ∧
        (∀ i < k, userByte s pt (va + i) ≠ 0) ∧ userByte s pt (va + k) = 0 := by
  induction c generalizing va with
  | zero =>
    refine .inl ⟨rfl, ?_⟩
    intro i hi
    omega
  | succ c ih =>
    have hSplit : ∀ n, strBytes s pt va (n + 1) = userByte s pt va :: strBytes s pt (va + 1) n := by
      intro n
      rw [Nat.add_comm n 1, strBytes_append]
      rfl
    rw [hSplit, copyBytes]
    by_cases hZero : userByte s pt va = 0
    · refine .inr ⟨0, by omega, ?_, ?_, hZero⟩
      · rw [if_pos hZero, hSplit, hZero]
        rfl
      · intro i hi
        omega
    -- The first byte is copied; the rest by induction.
    rw [if_neg hZero]
    have hShift : ∀ {n}, (∀ i < n, userByte s pt (va + 1 + i) ≠ 0) →
        ∀ i < n + 1, userByte s pt (va + i) ≠ 0 := by
      intro n hTail i hi
      cases i with
      | zero => exact hZero
      | succ i =>
        rw [Nat.add_comm i 1, ← Nat.add_assoc]
        exact hTail i (by omega)
    rcases ih (va + 1) with ⟨hCopy, hAll⟩ | ⟨k, hk, hCopy, hBefore, hEnd⟩
    · rw [hCopy]
      exact .inl ⟨rfl, hShift hAll⟩
    · rw [hCopy]
      refine .inr ⟨k + 1, by omega, ?_, hShift hBefore, ?_⟩
      · rw [hSplit (k + 1)]
      · rw [Nat.add_comm k 1, ← Nat.add_assoc]
        exact hEnd

theorem Scanned.here {k : Nat} (hRead : Readable s pt va) (hk : k < firstPart va max)
    (hBefore : ∀ i < k, userByte s pt (va + i) ≠ 0) (hEnd : userByte s pt (va + k) = 0) :
    Scanned s pt va max 0 (strBytes s pt va (k + 1)) [PGROUNDDOWN va] := by
  have hLe := firstPart_le va max
  have hLength : (strBytes s pt va (k + 1)).length = k + 1 := by simp [strBytes]
  refine ⟨by rw [hLength], by omega, ?_, ?_, page_first va⟩
  · intro _
    refine ⟨k, hLength, ?_, hBefore, hEnd⟩
    intro i hi
    unfold Readable
    rw [firstPart_userPage (show i < firstPart va max by omega)]
    exact hRead
  · intro hNe
    exact absurd rfl hNe

theorem Scanned.next (hRead : Readable s pt va)
    (hBytes : ∀ i < firstPart va max, userByte s pt (va + i) ≠ 0)
    (h : Scanned s pt (va + firstPart va max) (max - firstPart va max) r dst pages) :
    Scanned s pt va max r (strBytes s pt va (firstPart va max) ++ dst)
      (PGROUNDDOWN va :: pages) := by
  have hLe := firstPart_le va max
  have hLength :
      (strBytes s pt va (firstPart va max) ++ dst).length = firstPart va max + dst.length := by
    simp [strBytes]
  -- A string at `va` is a string after the first page.
  have hTail : ∀ k, StrAt s pt va k →
      ∃ j, k = firstPart va max + j ∧ StrAt s pt (va + firstPart va max) j := by
    intro k hStr
    have hPast : firstPart va max ≤ k := by
      by_contra hIn
      exact hBytes k (by omega) hStr.zero
    refine ⟨k - firstPart va max, by omega, ?_, ?_, ?_⟩
    · intro i hi
      rw [Nat.add_assoc]
      exact hStr.readable _ (by omega)
    · intro i hi
      rw [Nat.add_assoc]
      exact hStr.nonzero _ (by omega)
    · rw [Nat.add_assoc, Nat.add_sub_cancel' hPast]
      exact hStr.zero
  refine ⟨?_, ?_, ?_, ?_, ?_⟩
  · rw [hLength, strBytes_append, ← h.bytes]
  · have hShort := h.length
    omega
  · intro hr
    rcases h.found hr with ⟨j, hj, hStr⟩
    refine ⟨firstPart va max + j, by omega, ?_, ?_, ?_⟩
    · intro i hi
      rcases Nat.lt_or_ge i (firstPart va max) with hIn | hOut
      · unfold Readable
        rw [firstPart_userPage hIn]
        exact hRead
      · have hByte :=
          hStr.readable (i - firstPart va max) (by omega)
        rw [Nat.add_assoc, Nat.add_sub_cancel' hOut] at hByte
        exact hByte
    · intro i hi
      rcases Nat.lt_or_ge i (firstPart va max) with hIn | hOut
      · exact hBytes i hIn
      · have hByte :=
          hStr.nonzero (i - firstPart va max) (by omega)
        rw [Nat.add_assoc, Nat.add_sub_cancel' hOut] at hByte
        exact hByte
    · rw [← Nat.add_assoc]
      exact hStr.zero
  · intro hr
    refine ⟨(h.missed hr).1, ?_⟩
    intro k hk hStr
    rcases hTail k hStr with ⟨j, hj, hStr'⟩
    exact (h.missed hr).2 j (by omega) hStr'
  · intro p hp k hStr
    rcases List.mem_cons.mp hp with hp | hp
    · rw [hp]
      exact pgrounddown_le va k
    · rcases hTail k hStr with ⟨j, hj, hStr'⟩
      rw [hj, ← Nat.add_assoc]
      exact h.pages p hp j hStr'

/- Every byte allowed is on the first page and not zero. -/
theorem Scanned.exhausted (hBytes : ∀ i < max, userByte s pt (va + i) ≠ 0) :
    Scanned s pt va max (-1) (strBytes s pt va max) [PGROUNDDOWN va] := by
  have hLength : (strBytes s pt va max).length = max := by simp [strBytes]
  refine ⟨by rw [hLength], by omega, ?_, ?_, page_first va⟩
  · intro hZero
    cases hZero
  · refine fun _ => ⟨rfl, ?_⟩
    intro k hk hStr
    exact hBytes k hk hStr.zero

theorem wp_copyinstrToFrom {n : Nat} {Q : Int × List UInt8 × List Nat → Kmem → Prop} (hn : max ≤ n)
    (hPost : ∀ r dst pages, Scanned s pt va max r dst pages → Q (r, dst, pages) s) :
    wp (copyinstrToFrom pt n va max) Q E s := by
  induction n generalizing va max Q with
  | zero =>
    rw [copyinstrToFrom, wp_pure]
    have hMax : max = 0 := by omega
    subst hMax
    refine hPost _ _ _ ⟨rfl, by simp, ?_, ?_, by simp⟩
    · intro hZero
      cases hZero
    · exact fun _ => ⟨rfl, fun k hk => by omega⟩
  | succ n ih =>
    rw [copyinstrToFrom]
    by_cases hMax : max = 0
    · subst hMax
      rw [if_pos rfl, wp_pure]
      refine hPost _ _ _ ⟨rfl, by simp, ?_, ?_, by simp⟩
      · intro hZero
        cases hZero
      · exact fun _ => ⟨rfl, fun k hk => by omega⟩
    rw [if_neg hMax, wp_bind]
    refine wp_userPage ?_
    by_cases hBad : userPage s pt (PGROUNDDOWN va) = 0
    · rw [if_pos hBad, wp_pure]
      exact hPost _ _ _ (.unreadable (fun hRead => hRead hBad))
    have hRead : Readable s pt va := hBad
    have hTop := hRead.lt
    have hPart : s.mem.read (userPage s pt (PGROUNDDOWN va) + (va - PGROUNDDOWN va))
        (min (PGSIZE - (va - PGROUNDDOWN va)) max) = strBytes s pt va (firstPart va max) :=
      read_first s pt va max
    rw [if_neg hBad]
    simp only [wp_bind, wp_get, hPart]
    rcases copyBytes_strBytes s pt va (firstPart va max) with
      ⟨hCopy, hAll⟩ | ⟨k, hk, hCopy, hBefore, hEnd⟩
    · simp only [hCopy, Bool.false_eq_true, if_false, wp_bind, wp_pure]
      have hLe := firstPart_le va max
      have hPos : 0 < firstPart va max := firstPart_pos hMax
      rcases Nat.lt_or_ge (firstPart va max) max with
        hMore | hFull
      · have hWrap : (PGROUNDDOWN va + PGSIZE) % UINT64 = va + firstPart va max := by
          rw [← firstPart_next hMore]
          apply Nat.mod_eq_of_lt
          unfold MAXVA UINT64 PGSIZE at *
          omega
        rw [hWrap]
        refine ih (by unfold firstPart at *; omega) ?_
        intro r dst pages hRest
        exact hPost _ _ _ (hRest.next hRead hAll)
      · have hEq : firstPart va max = max := by omega
        have hZero : max - min (PGSIZE - (va - PGROUNDDOWN va)) max = 0 := by
          unfold firstPart at hEq
          omega
        rw [hZero, copyinstrToFrom_zero, wp_pure, hEq, List.append_nil]
        rw [hEq] at hAll
        exact hPost _ _ _ (.exhausted hAll)
    · simp only [hCopy, if_true, wp_pure]
      exact hPost _ _ _ (.here hRead hk hBefore hEnd)

end

/-
  `copyinstr` returns `0` exactly if a readable string ends
  within `max` bytes, and then stores that string with its
  zero. It never stores more than `max` bytes and never asks
  for a page after the one with the terminating zero.
-/
theorem copyinstr_exact
    (s : Kmem)
    (pt va max : Nat) :
    ∃ r dst pages,
      copyinstrTo pt va max s = .ok ((r, dst, pages), s) ∧
      copyinstr pt va max s =
        .ok (if r = 0 then some (dst.takeWhile (· ≠ 0)) else none, s) ∧
      (r = 0 ∨ r = -1) ∧
      (r = 0 ↔ ∃ k < max, StrAt s pt va k) ∧
      (∀ k < max, StrAt s pt va k → dst = strBytes s pt va (k + 1)) ∧
      dst.length ≤ max ∧
      ∀ p ∈ pages, ∀ k, StrAt s pt va k → p ≤ PGROUNDDOWN (va + k) := by
  have hWp : wp (copyinstrTo pt va max)
      (fun out s' => s' = s ∧ Scanned s pt va max out.1 out.2.1 out.2.2) (fun _ => False) s :=
    wp_copyinstrToFrom (Nat.le_refl max) (fun _ _ _ hScan => ⟨rfl, hScan⟩)
  rcases exists_ok_of_wp hWp with ⟨⟨r, dst, pages⟩, s', hRun, hState, hScan⟩
  rw [hState] at hRun
  have hBoth : r = 0 ∨ r = -1 := by
    by_cases hr : r = 0
    · exact .inl hr
    · exact .inr (hScan.missed hr).1
  refine ⟨r, dst, pages, hRun, ?_, hBoth, ?_, ?_, hScan.length, hScan.pages⟩
  · have hEq : copyinstr pt va max = terminated <$> copyinstrTo pt va max :=
      copyinstrFrom_eq max va max
    rw [hEq]
    show (copyinstrTo pt va max s >>= fun out =>
      pure (terminated out.1, out.2)) = _
    rw [hRun]
    rfl
  · constructor
    · intro hr
      rcases hScan.found hr with ⟨k, hk, hStr⟩
      have hLength : dst.length ≤ max := hScan.length
      have hk : dst.length = k + 1 := hk
      exact ⟨k, by omega, hStr⟩
    · rintro ⟨k, hk, hStr⟩
      by_contra hr
      exact (hScan.missed hr).2 k hk hStr
  · intro k hk hStr
    have hr : r = 0 := by
      by_contra hr
      exact (hScan.missed hr).2 k hk hStr
    rcases hScan.found hr with ⟨j, hj, hStr'⟩
    have hBytes : dst = strBytes s pt va dst.length := hScan.bytes
    rw [hBytes, show dst.length = j + 1 from hj, hStr.unique hStr']

end Xv6.Vm

import Mathlib.Data.List.Range
import Xv6.Bio.Cache
import Xv6.Lib.Links

/-
  The list of buffers of the buffer cache (`bio.c`), with its
  links.

  A step is a critical section of `bcache.lock`. Buffers are
  given by their index, and `head` by the index after them.
  Reference counts are 32-bit numbers. The history is not in
  the source: when each buffer was last released to zero
  references, counted from one, or zero if it never was.

  Main declarations:
    * `cache_ring`
-/

namespace Xv6.Bio.Lru

open Function (update update_self update_of_ne)

/- `struct buf` without its sleep lock and data. -/
structure Entry where
  dev : UInt32
  blockno : UInt32
  valid : Bool
  refcnt : UInt32
deriving DecidableEq

def Entry.block (x : Entry) : UInt32 × UInt32 := (x.dev, x.blockno)

def head : Nat := NBUF

structure Cache where
  links : Dll.Links Nat
  buf : Nat → Entry
  freed : Nat → Nat
  clock : Nat

/- The links are made by `binit`; buffers start as zeros. -/
def binit (next prev : Nat → Nat) : Cache where
  links :=
    (List.range NBUF).foldl (fun l b => l.pushFront head b)
      ⟨update next head head, update prev head head⟩
  buf := fun _ => ⟨0, 0, false, 0⟩
  freed := fun _ => 0
  clock := 0

def Cache.setBuf (c : Cache) (i : Nat) (x : Entry) : Cache := { c with buf := update c.buf i x }

/- The result is `none` if `bget` panics. -/
def bget (c : Cache) (dev blockno : UInt32) : Option Cache :=
  match Dll.scan c.links.next head (fun i => (c.buf i).block = (dev, blockno))
      (NBUF + 1) (c.links.next head) with
  | some (some i) => some (c.setBuf i { c.buf i with refcnt := (c.buf i).refcnt + 1 })
  | some none =>
    match Dll.scan c.links.prev head (fun i => (c.buf i).refcnt = 0)
        (NBUF + 1) (c.links.prev head) with
    | some (some i) => some (c.setBuf i ⟨dev, blockno, false, 1⟩)
    | _ => none
  | none => none

def brelse (c : Cache) (i : Nat) : Cache :=
  let x := { c.buf i with refcnt := (c.buf i).refcnt - 1 }
  if x.refcnt = 0 then
    { c.setBuf i x with
      links := (c.links.unlink i).pushFront head i
      freed := update c.freed i (c.clock + 1)
      clock := c.clock + 1 }
  else
    c.setBuf i x

inductive Op where
  | bget (dev blockno : UInt32)
  | brelse (i : Nat)
  | bpin (i : Nat)
  | bunpin (i : Nat)

/- Calls are made with buffers of the cache. -/
def step (c : Cache) : Op → Option Cache
  | .bget dev blockno => bget c dev blockno
  | .brelse i => if i < NBUF then some (brelse c i) else none
  | .bpin i =>
    if i < NBUF then some (c.setBuf i { c.buf i with refcnt := (c.buf i).refcnt + 1 })
    else none
  | .bunpin i =>
    if i < NBUF then some (c.setBuf i { c.buf i with refcnt := (c.buf i).refcnt - 1 })
    else none

inductive Reachable : Cache → Prop where
  | init (next prev : Nat → Nat) : Reachable (binit next prev)
  | step {c c' : Cache}
      {op : Op} (hReach : Reachable c) (hStep : step c op = some c') :
      Reachable c'

/-
  The buffers in the order of the list: those released to
  zero come first, the latest before all, and then those that
  never were.
-/
structure Inv (c : Cache) (order : List Nat) : Prop where
  ring : Dll.Seg c.links head order head
  all : order.Perm (List.range NBUF)
  unique : ∀ i < NBUF, ∀ j < NBUF, (c.buf i).dev ≠ 0 → (c.buf i).block = (c.buf j).block → i = j
  sorted : order.Pairwise (fun i j => c.freed j < c.freed i ∨ c.freed i = 0 ∧ c.freed j = 0)
  past : ∀ i, c.freed i ≤ c.clock

section

variable {c c' : Cache} {order : List Nat} {i j : Nat} {x : Entry} {dev blockno : UInt32}

theorem Inv.mem_iff (h : Inv c order) : i ∈ order ↔ i < NBUF := by
  rw [h.all.mem_iff, List.mem_range]

theorem Inv.nodup (h : Inv c order) : (head :: order).Nodup :=
  List.nodup_cons.mpr
    ⟨fun hIn => Nat.lt_irrefl NBUF (h.mem_iff.mp hIn), h.all.nodup_iff.mpr List.nodup_range⟩

theorem Inv.init (next prev : Nat → Nat) : Inv (binit next prev) (List.range NBUF).reverse := by
  refine ⟨?_, List.reverse_perm _, fun i _ j _ hDev => absurd rfl hDev, ?_, fun _ => Nat.le_refl 0⟩
  · -- After some rounds of the loop, the buffers so far are linked.
    have hLoop : ∀ n ≤ NBUF, Dll.Seg ((List.range n).foldl (fun l b => l.pushFront head b)
        ⟨update next head head, update prev head head⟩) head (List.range n).reverse head := by
      intro n
      induction n with
      | zero => simp [Dll.Seg, Dll.Edge]
      | succ n ih =>
        intro hn
        rw [List.range_succ, List.foldl_append, List.reverse_append]
        refine (ih (by omega)).pushFront ?_ ?_
        · simp only [List.nodup_cons, List.mem_reverse, List.mem_range, List.nodup_reverse, head]
          exact ⟨by omega, List.nodup_range⟩
        · simp only [List.mem_cons, List.mem_reverse, List.mem_range, head]
          omega
    exact hLoop NBUF (Nat.le_refl NBUF)
  · exact (List.nodup_reverse.mpr List.nodup_range).imp fun _ => Or.inr ⟨rfl, rfl⟩

theorem setBuf_block (hBlock : x.block = (c.buf i).block) (j : Nat) :
    ((c.setBuf i x).buf j).block = (c.buf j).block := by
  by_cases hj : j = i
  · rw [hj, ← hBlock]
    exact congrArg Entry.block (update_self ..)
  · exact congrArg Entry.block (update_of_ne hj ..)

section

variable (h : Inv c order)
include h

theorem Inv.setBuf (hBlock : x.block = (c.buf i).block) : Inv (c.setBuf i x) order := by
  have hSame := fun j => setBuf_block (c := c) hBlock j
  refine ⟨h.ring, h.all, fun j hj k hk hDev hEq => ?_, h.sorted, h.past⟩
  rw [hSame, hSame] at hEq
  exact h.unique j hj k hk (fun hZero => hDev ((congrArg Prod.fst (hSame j)).trans hZero)) hEq

theorem Inv.bget_eq :
    bget c dev blockno =
      match order.find? (fun i => (c.buf i).block = (dev, blockno)) with
      | some i => some (c.setBuf i { c.buf i with refcnt := (c.buf i).refcnt + 1 })
      | none =>
        (order.reverse.find? (fun i => (c.buf i).refcnt = 0)).map
          (fun i => c.setBuf i ⟨dev, blockno, false, 1⟩) := by
  have hHead := (List.nodup_cons.mp h.nodup).1
  have hLength : order.length < NBUF + 1 := by
    rw [h.all.length_eq, List.length_range]
    exact Nat.lt_succ_self NBUF
  unfold Lru.bget
  rw [h.ring.scan_next hHead _ hLength, h.ring.scan_prev hHead _ hLength]
  cases order.find? (fun i => decide ((c.buf i).block = (dev, blockno))) with
  | some i => rfl
  | none =>
    cases order.reverse.find? (fun i => decide ((c.buf i).refcnt = 0)) with
    | some i => rfl
    | none => rfl

theorem Inv.oldest (hFind : order.reverse.find? (fun i => (c.buf i).refcnt = 0) = some i) :
    i < NBUF ∧ (c.buf i).refcnt = 0 ∧
      ∀ j < NBUF, (c.buf j).refcnt = 0 → c.freed i = 0 ∨ c.freed j ≠ 0 ∧ c.freed i ≤ c.freed j := by
  rcases List.find?_eq_some_iff_append.mp hFind with ⟨hZero, newer, older, hSplit, hNone⟩
  have hOrder : order = older.reverse ++ i :: newer.reverse := by
    rw [← List.reverse_reverse order, hSplit]
    simp
  have hSorted := h.sorted
  rw [hOrder] at hSorted
  refine ⟨h.mem_iff.mp (by simp [hOrder]), of_decide_eq_true hZero, fun j hj hUnused => ?_⟩
  have hMem := h.mem_iff.mpr hj
  rw [hOrder] at hMem
  rcases List.mem_append.mp hMem with hLeft | hRight
  · have hBefore := (List.pairwise_append.mp hSorted).2.2 j hLeft i List.mem_cons_self
    omega
  · rcases List.mem_cons.mp hRight with hEq | hLate
    · rw [hEq]
      omega
    · have hUsed := hNone j (List.mem_reverse.mp hLate)
      simp [hUnused] at hUsed

theorem Inv.recycle (hMiss : ∀ j < NBUF, (c.buf j).block ≠ (dev, blockno)) :
    Inv (c.setBuf i ⟨dev, blockno, false, 1⟩) order := by
  refine ⟨h.ring, h.all, fun j hj k hk => ?_, h.sorted, h.past⟩
  change (update c.buf i _ j).dev ≠ 0 → (update c.buf i _ j).block = (update c.buf i _ k).block → _
  by_cases hji : j = i
  · by_cases hki : k = i
    · exact fun _ _ => hji.trans hki.symm
    · rw [hji, update_self, update_of_ne hki]
      exact fun _ hEq => absurd hEq.symm (hMiss k hk)
  · rw [update_of_ne hji]
    by_cases hki : k = i
    · rw [hki, update_self]
      exact fun _ hEq => absurd hEq (hMiss j hj)
    · rw [update_of_ne hki]
      exact h.unique j hj k hk

theorem Inv.release (hi : i < NBUF) :
    ∃ order', Inv { c with
      links := (c.links.unlink i).pushFront head i
      freed := update c.freed i (c.clock + 1)
      clock := c.clock + 1 } order' := by
  rcases List.append_of_mem (h.mem_iff.mpr hi) with ⟨xs, ys, rfl⟩
  have hNodup := h.nodup
  have hMoved : (head :: i :: (xs ++ ys)).Nodup := (List.perm_middle.cons head).nodup_iff.mp hNodup
  have hOut := (List.nodup_cons.mp hMoved).2
  have hFront : i ∉ head :: (xs ++ ys) :=
    (List.nodup_cons.mp ((List.Perm.swap i head _).nodup_iff.mp hMoved)).1
  refine ⟨i :: (xs ++ ys), ?_, List.perm_middle.symm.trans h.all, h.unique, ?_, ?_⟩
  · refine (h.ring.unlink hNodup (List.nodup_cons.mp hNodup).1).pushFront ?_ hFront
    exact hMoved.sublist ((List.sublist_cons_self i _).cons_cons head)
  · have hOld : ∀ j ∈ xs ++ ys, update c.freed i (c.clock + 1) j = c.freed j := by
      intro j hj
      refine update_of_ne ?_ ..
      rintro rfl
      exact (List.nodup_cons.mp hOut).1 hj
    refine List.pairwise_cons.mpr ⟨fun j hj => Or.inl ?_, ?_⟩
    · dsimp only
      rw [hOld j hj, update_self]
      exact Nat.lt_succ_of_le (h.past j)
    · refine List.Pairwise.imp_of_mem ?_
        (h.sorted.sublist ((List.sublist_cons_self i ys).append_left xs))
      intro j k hj hk hOrder
      dsimp only
      rw [hOld j hj, hOld k hk]
      exact hOrder
  · intro j
    by_cases hj : j = i
    · rw [hj]
      exact Nat.le_of_eq (update_self ..)
    · exact Nat.le_trans (Nat.le_of_eq (update_of_ne hj ..)) (Nat.le_succ_of_le (h.past j))

/- The cache after a step, and the blocks of its buffers. -/
theorem Inv.step {op : Op} (hStep : step c op = some c') :
    (∃ order', Inv c' order') ∧
      ∀ i < NBUF, (c.buf i).refcnt ≠ 0 → (c'.buf i).block = (c.buf i).block := by
  have hKeeps :
      ∀ i n j, ((c.setBuf i { c.buf i with refcnt := n }).buf j).block = (c.buf j).block :=
    fun i n j => setBuf_block (x := { c.buf i with refcnt := n }) rfl j
  cases op with
  | bget dev blockno =>
    dsimp only [Lru.step] at hStep
    rw [h.bget_eq] at hStep
    cases hHit : order.find? (fun i => (c.buf i).block = (dev, blockno)) with
    | some i =>
      rw [hHit] at hStep
      cases hStep
      exact ⟨⟨order, h.setBuf rfl⟩, fun j _ _ => hKeeps i _ j⟩
    | none =>
      rw [hHit] at hStep
      rcases Option.map_eq_some_iff.mp hStep with ⟨i, hFind, rfl⟩
      have hMiss : ∀ j < NBUF, (c.buf j).block ≠ (dev, blockno) := by
        intro j hj hEq
        have hNot := List.find?_eq_none.mp hHit j (h.mem_iff.mpr hj)
        simp [hEq] at hNot
      refine ⟨⟨order, h.recycle hMiss⟩, fun j _ hUsed => ?_⟩
      refine congrArg Entry.block (update_of_ne ?_ ..)
      rintro rfl
      exact hUsed (h.oldest hFind).2.1
  | brelse i =>
    rcases Option.ite_none_right_eq_some.mp hStep with ⟨hi, hEq⟩
    cases hEq
    unfold Lru.brelse
    dsimp only
    split
    · have hSet : Inv (c.setBuf i { c.buf i with refcnt := (c.buf i).refcnt - 1 }) order :=
        h.setBuf rfl
      exact ⟨hSet.release hi, fun j _ _ => hKeeps i _ j⟩
    · exact ⟨⟨order, h.setBuf rfl⟩, fun j _ _ => hKeeps i _ j⟩
  | bpin i | bunpin i =>
    rcases Option.ite_none_right_eq_some.mp hStep with ⟨_, hEq⟩
    cases hEq
    exact ⟨⟨order, h.setBuf rfl⟩, fun j _ _ => hKeeps i _ j⟩

end

theorem Reachable.inv (h : Reachable c) : ∃ order, Inv c order := by
  induction h with
  | init next prev => exact ⟨_, Inv.init next prev⟩
  | step hReach hStep ih =>
    rcases ih with ⟨order, hInv⟩
    exact (hInv.step hStep).1

/-
  In every run: the links are one ring through all buffers, a
  block is in one buffer at most, and a step changes the
  block of unreferenced buffers only. A miss takes a buffer
  that never was released to zero, or the one where that is
  longest ago; it panics only if all buffers have references.
-/
theorem cache_ring
    (c : Cache)
    (hReach : Reachable c) :
    (∃ order,
      Dll.Seg c.links head order head ∧
      order.Perm (List.range NBUF)) ∧
    (∀ i < NBUF, ∀ j < NBUF,
      (c.buf i).dev ≠ 0 → (c.buf i).block = (c.buf j).block → i = j) ∧
    (∀ op c',
      step c op = some c' →
      ∀ i < NBUF, (c.buf i).refcnt ≠ 0 → (c'.buf i).block = (c.buf i).block) ∧
    ∀ dev blockno,
      (∀ i < NBUF, (c.buf i).block ≠ (dev, blockno)) →
      (∀ i < NBUF, (c.buf i).refcnt ≠ 0) ∧
        step c (.bget dev blockno) = none ∨
      ∃ i < NBUF,
        step c (.bget dev blockno) = some (c.setBuf i ⟨dev, blockno, false, 1⟩) ∧
        (c.buf i).refcnt = 0 ∧
        ∀ j < NBUF,
          (c.buf j).refcnt = 0 →
          c.freed i = 0 ∨ c.freed j ≠ 0 ∧ c.freed i ≤ c.freed j := by
  rcases hReach.inv with ⟨order, h⟩
  refine ⟨⟨order, h.ring, h.all⟩, h.unique, fun op c' hStep => (h.step hStep).2, ?_⟩
  intro dev blockno hMiss
  have hNone : order.find? (fun i => (c.buf i).block = (dev, blockno)) = none := by
    refine List.find?_eq_none.mpr fun i hi => ?_
    simp [hMiss i (h.mem_iff.mp hi)]
  dsimp only [Lru.step]
  rw [h.bget_eq, hNone]
  dsimp only
  cases hFind : order.reverse.find? (fun i => (c.buf i).refcnt = 0) with
  | none =>
    refine Or.inl ⟨fun i hi => ?_, rfl⟩
    have hUsed := List.find?_eq_none.mp hFind i (List.mem_reverse.mpr (h.mem_iff.mpr hi))
    simpa using hUsed
  | some i =>
    rcases h.oldest hFind with ⟨hi, hZero, hOldest⟩
    exact Or.inr ⟨i, hi, rfl, hZero, hOldest⟩

end

/-
  Block 7 is read into buffer 0 and released. The next miss
  takes buffer 1, which never was released, so block 7 stays.
-/
theorem cache_ring_released :
    ∃ c₁ c,
      step (binit id id) (.bget 1 7) = some c₁ ∧
      step c₁ (.brelse 0) = some c ∧
      (c.buf 0).block = (1, 7) ∧
      c.freed 0 = 1 ∧
      step c (.bget 1 8) = some (c.setBuf 1 ⟨1, 8, false, 1⟩) := by
  have hRun : ∃ c₁ ∈ step (binit id id) (.bget 1 7), ∃ c ∈ step c₁ (.brelse 0),
      (c.buf 0).block = (1, 7) ∧ c.freed 0 = 1 ∧
      (∀ i < NBUF, (c.buf i).block ≠ (1, 8)) ∧ (c.buf 1).refcnt = 0 ∧
      (step c (.bget 1 8)).map (fun c' => (c'.buf 1).block) = some (1, 8) := by
    decide +kernel
  rcases hRun with ⟨c₁, hGet, c, hRel, hBlock, hFreed, hMiss, hZero, hTaken⟩
  refine ⟨c₁, c, hGet, hRel, hBlock, hFreed, ?_⟩
  rcases (cache_ring c (.step (.step (.init id id) hGet) hRel)).2.2.2 1 8 hMiss with
    ⟨hUsed, _⟩ | ⟨i, _, hStep, _, _⟩
  · exact absurd hZero (hUsed 1 (by decide))
  rw [hStep] at hTaken ⊢
  by_cases hOne : i = 1
  · rw [hOne]
  · -- Otherwise buffer 1 would have the block before the miss.
    have hSame : (update c.buf i ⟨1, 8, false, 1⟩ 1).block = (1, 8) := Option.some.inj hTaken
    rw [update_of_ne (Ne.symm hOne)] at hSame
    exact absurd hSame (hMiss 1 (by decide))

end Xv6.Bio.Lru

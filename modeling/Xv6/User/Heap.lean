import Mathlib.Data.List.Nodup
import Mathlib.Data.List.Perm.Basic
import Xv6.User.FreeList

/-
  The allocator over whole runs of `malloc` and `free`.

  The blocks of the free list and the live blocks together
  cover what `morecore` got, every address once. So a block
  that is freed fits between two free blocks, and a block
  that is allocated overlaps no other. The size in a header
  has 32 bits: all this holds as long as `sbrk` has given
  out less than 2^32 units.

  Main declarations:
    * `mallocLoop_returns`
    * `Kept.step`
    * `heap_blocks`
-/

namespace Xv6.User

---- Allocating From A Ring

section

variable {base n : Nat} {sbrk : Sbrk} {h : Heap} {nodes : List Block} {prevp p k : Nat} {h' : Heap}

theorem mallocLoop_take (hFits : n ≤ (h.mem p).size) (k : Nat) :
    mallocLoop sbrk n (k + 1) h prevp p = some (take h n prevp p) := by
  rw [mallocLoop, if_pos hFits]

theorem mallocLoop_next (hSmall : (h.mem p).size < n) (hNe : p ≠ h.freep) (k : Nat) :
    mallocLoop sbrk n (k + 1) h prevp p = mallocLoop sbrk n k h p (h.mem p).ptr := by
  rw [mallocLoop, if_neg (Nat.not_le_of_lt hSmall), if_neg hNe]

/- `freep` is reached and its block is too small. -/
def grow (sbrk : Sbrk) (n k : Nat) (h : Heap) : Option (Heap × Nat) :=
  (morecore sbrk k h n).bind (fun (h, p) =>
    if p = 0 then some (h, 0)
    else mallocLoop sbrk n k h p (h.mem p).ptr)

theorem mallocLoop_grow (hSmall : (h.mem h.freep).size < n) (k : Nat) :
    mallocLoop sbrk n (k + 1) h prevp h.freep = grow sbrk n k h := by
  rw [mallocLoop, if_neg (Nat.not_le_of_lt hSmall), if_pos rfl]
  rfl

/-
  One way round the ring, from a node to `freep`: a block
  that is large enough is taken, or none is and the heap is
  grown.
-/
theorem mallocLoop_round {x : Nat} {xs : List Nat}
    (hLinked : Chain.Linked (fun p => (h.mem p).ptr) (x :: xs) h.freep) (hNot : h.freep ∉ xs) :
    (∃ m prevp, prevp ∈ x :: xs ∧ n ≤ (h.mem (h.mem prevp).ptr).size ∧ ∀ k,
        mallocLoop sbrk n (k + m + 1) h x (h.mem x).ptr =
          some (take h n prevp (h.mem prevp).ptr)) ∨ (∀ a ∈ h.freep :: xs, (h.mem a).size < n) ∧
      ∃ m, ∀ k, mallocLoop sbrk n (k + m + 1) h x (h.mem x).ptr = grow sbrk n k h := by
  induction xs generalizing x with
  | nil =>
    have hNext : (h.mem x).ptr = h.freep := hLinked.1
    by_cases hFits : n ≤ (h.mem h.freep).size
    · refine Or.inl ⟨0, x, List.mem_cons_self, ?_, ?_⟩
      · rw [hNext]
        exact hFits
      · intro k
        rw [hNext]
        exact mallocLoop_take hFits k
    · have hSmall := Nat.lt_of_not_le hFits
      refine Or.inr ⟨?_, 0, ?_⟩
      · intro a ha
        rw [List.mem_singleton.mp ha]
        exact hSmall
      · intro k
        rw [hNext]
        exact mallocLoop_grow hSmall k
  | cons y ys ih =>
    have hNext : (h.mem x).ptr = y := hLinked.1
    have hNe : y ≠ h.freep := by
      intro hEq
      exact hNot (by simp [hEq])
    by_cases hFits : n ≤ (h.mem y).size
    · refine Or.inl ⟨0, x, List.mem_cons_self, ?_, ?_⟩
      · rw [hNext]
        exact hFits
      · intro k
        rw [hNext]
        exact mallocLoop_take hFits k
    have hSmall := Nat.lt_of_not_le hFits
    rw [hNext]
    rcases ih hLinked.2 (fun hIn => hNot (by simp [hIn]))
      with ⟨m, prevp, hMem, hBig, hRun⟩ | ⟨hAll, m, hRun⟩
    · refine Or.inl ⟨m + 1, prevp, List.mem_cons_of_mem x hMem, hBig, ?_⟩
      intro k
      rw [mallocLoop_next hSmall hNe]
      exact hRun k
    refine Or.inr ⟨?_, m + 1, ?_⟩
    · intro a ha
      rcases List.mem_cons.mp ha with hEq | ha
      · rw [hEq]
        exact hAll _ List.mem_cons_self
      · rcases List.mem_cons.mp ha with hEq | ha
        · rw [hEq]
          exact hSmall
        · exact hAll a (List.mem_cons_of_mem _ ha)
    · intro k
      rw [mallocLoop_next hSmall hNe]
      exact hRun k

/- The same, for a whole ring. -/
theorem Ring.round (hRing : Ring base h.mem nodes) (hEntry : h.freep ∈ addrs nodes) (sbrk : Sbrk) :
    (∃ m prevp, prevp ∈ addrs nodes ∧ n ≤ (h.mem (h.mem prevp).ptr).size ∧ ∀ k,
      mallocLoop sbrk n (k + m + 1) h h.freep (h.mem h.freep).ptr =
        some (User.take h n prevp (h.mem prevp).ptr)) ∨ (∀ b ∈ nodes, b.units < n) ∧ ∃ m, ∀ k,
      mallocLoop sbrk n (k + m + 1) h h.freep (h.mem h.freep).ptr = grow sbrk n k h := by
  rcases List.append_of_mem hEntry with ⟨as, bs, hEq⟩
  have hMem : ∀ a, a ∈ h.freep :: (bs ++ as) ↔ a ∈ addrs nodes := by
    intro a
    rw [hEq]
    simp only [List.mem_cons, List.mem_append]
    tauto
  have hLinked : Chain.Linked (fun p => (h.mem p).ptr) (h.freep :: bs ++ as) h.freep := by
    have hOld := hRing.linked
    have hHead : (addrs nodes).headD base = base := by
      have hOrigin := hRing.origin
      cases nodes with
      | nil => rfl
      | cons c cs =>
        cases hOrigin
        rfl
    refine Chain.Linked.rotate (e := base) ?_
    rw [← hEq, hHead]
    exact hOld
  have hNot : h.freep ∉ bs ++ as := by
    have hNodup : (addrs nodes).Nodup := hRing.ascending.imp Nat.ne_of_lt
    rw [hEq, List.nodup_middle, List.nodup_cons] at hNodup
    intro hIn
    apply hNodup.1
    simp only [List.mem_append] at hIn ⊢
    tauto
  rcases mallocLoop_round hLinked hNot with ⟨m, prevp, hIn, hBig, hRun⟩ | ⟨hAll, hRun⟩
  · exact Or.inl ⟨m, prevp, (hMem prevp).mp hIn, hBig, hRun⟩
  · refine Or.inr ⟨?_, hRun⟩
    intro b hb
    rw [← hRing.sizes b hb]
    exact hAll _ ((hMem b.addr).mpr (addr_mem_addrs hb))

/- Only the headers of the nodes matter. -/
theorem Ring.congr {mem mem' : Nat → Header} (hRing : Ring base mem nodes)
    (hSame : ∀ b ∈ nodes, mem' b.addr = mem b.addr) : Ring base mem' nodes := by
  refine ⟨hRing.origin, hRing.linked.congr ?_, ?_, hRing.apart, hRing.used⟩
  · intro a ha
    rcases List.mem_map.mp ha with ⟨b, hb, rfl⟩
    rw [hSame b hb]
  · intro b hb
    rw [hSame b hb]
    exact hRing.sizes b hb

/- An address that no node covers is not one of a node. -/
theorem Ring.not_mem {mem : Nat → Header} (hRing : Ring base mem nodes) {r : Nat} (hBase : r ≠ base)
    (hFree : cover nodes r = 0) : r ∉ addrs nodes := by
  intro hIn
  rcases List.mem_map.mp hIn with ⟨b, hb, rfl⟩
  have hPos := cover_pos hb (covers_addr (hRing.used b hb hBase))
  omega

/- The heap after a block was allocated, with the regions that were added for it. -/
structure Allocated (base : Nat) (h h' : Heap) (nodes : List Block) (b : Block)
    (nodes' news : List Block) : Prop where
  ring : Ring base h'.mem nodes'
  entry : h'.freep ∈ addrs nodes'
  cover : ∀ x, cover (b :: nodes') x = cover (nodes ++ news) x
  total : total (b :: nodes') = total (nodes ++ news)
  size : (h'.mem b.addr).size = b.units
  frame : ∀ r, r ≠ base → User.cover (nodes ++ news) r = 0 → h'.mem r = h.mem r
  regions : h'.regions = h.regions ++ news

theorem Taken.allocated {b : Block} {nodes' : List Block} (hRing : Ring base h.mem nodes)
    (hTaken : Taken base h h' nodes b nodes') (hUsed : 0 < b.units) :
    Allocated base h h' nodes b nodes' [] := by
  refine ⟨hTaken.ring, hTaken.entry, ?_, ?_, hTaken.size, ?_, ?_⟩
  · intro x
    rw [List.append_nil]
    exact hTaken.cover x
  · rw [List.append_nil]
    exact hTaken.total
  · intro r hBase hFree
    rw [List.append_nil] at hFree
    refine hTaken.frame r ?_ (hRing.not_mem hBase hFree)
    intro hEq
    have hPos := cover_pos (List.mem_cons_self (a := b) (l := nodes')) (covers_addr hUsed)
    rw [hTaken.cover, ← hEq] at hPos
    omega
  · rw [List.append_nil]
    exact hTaken.regions

theorem cover_snoc (bs : List Block) (b : Block) (x : Nat) :
    cover (bs ++ [b]) x = cover (b :: bs) x := by
  have hNil : cover [] x = 0 := rfl
  rw [cover_append, cover_cons, cover_cons, hNil, Nat.zero_add]

section

variable (hRing : Ring base h.mem nodes)
include hRing

/- A block taken after a region was entered. -/
theorem Entered.allocated {h₁ : Heap} {b p region : Block} {nodes₁ nodes' : List Block}
    (hUsed : 0 < region.units) (hEntered : Entered base h h₁ nodes region p nodes₁)
    (hRegions : h₁.regions = h.regions ++ [region])
    (hNext : Allocated base h₁ h' nodes₁ b nodes' []) :
    Allocated base h h' nodes b nodes' [region] := by
  refine ⟨hNext.ring, hNext.entry, ?_, ?_, hNext.size, ?_, ?_⟩
  · intro x
    rw [hNext.cover, List.append_nil, hEntered.cover, cover_snoc]
  · have hLeft := hNext.total
    rw [List.append_nil] at hLeft
    rw [hLeft, hEntered.total, total_cons, total_append, total_cons, Nat.add_comm]
    rfl
  · intro r hBase hFree
    rw [cover_snoc] at hFree
    have hOld : User.cover nodes r = 0 := by
      rw [cover_cons] at hFree
      omega
    have hNe : r ≠ region.addr := by
      intro hEq
      have hPos := cover_pos (List.mem_cons_self (a := region) (l := nodes)) (covers_addr hUsed)
      rw [← hEq] at hPos
      omega
    rw [hNext.frame r hBase, hEntered.frame r hNe]
    · exact hRing.not_mem hBase hOld
    · rw [List.append_nil, hEntered.cover]
      exact hFree
  · rw [hNext.regions, List.append_nil, hRegions]

/- `morecore` enters the new region in the ring. -/
theorem Ring.morecore {a : Nat} (hEntry : h.freep ∈ addrs nodes)
    (hSbrk : sbrk (coreUnits n * HEADERSIZE) = some a) (hUsed : 0 < coreUnits n) (hAbove : base < a)
    (hFresh : ∀ c ∈ nodes, c.stop ≤ a) (hBound : total nodes + coreUnits n < 2 ^ 32) :
    ∃ m h₁ p nodes₁, (∀ k, morecore sbrk (k + m) h n = some (h₁, h₁.freep)) ∧
      Entered base h h₁ nodes ⟨a, coreUnits n⟩ p nodes₁ ∧ h₁.freep = p.addr ∧
      h₁.regions = h.regions ++ [⟨a, coreUnits n⟩] := by
  have hNe : ∀ c ∈ nodes, c.addr ≠ a := by
    intro c hc hEq
    have hStop := hFresh c hc
    have hPos := hRing.used c hc (by omega)
    rw [stop_eq] at hStop
    omega
  let h₀ : Heap := { h.setSize a (coreUnits n) with regions := h.regions ++ [⟨a, coreUnits n⟩] }
  have hMem : ∀ r, h₀.mem r =
      if r = a then ⟨(h.mem a).ptr, coreUnits n⟩
      else h.mem r := by
    intro r
    change (h.setSize a (coreUnits n)).mem r = _
    rw [setSize_mem, Nat.mod_eq_of_lt (by omega)]
  have hRing₀ : Ring base h₀.mem nodes := by
    refine hRing.congr ?_
    intro c hc
    rw [hMem, if_neg (hNe c hc)]
  have hLoose : Loose base h₀.mem nodes ⟨a, coreUnits n⟩ := by
    refine ⟨?_, hUsed, hAbove, fun c hc => Or.inl ?_⟩
    · rw [hMem, if_pos rfl]
    · exact hFresh c hc
  rcases hRing₀.free hEntry hLoose (by rw [total_cons]; dsimp only; omega)
    with ⟨m, h₁, p, nodes₁, hRun, hEntered, hFreep, hRegions⟩
  refine ⟨m, h₁, p, nodes₁, ?_, ?_, hFreep, hRegions⟩
  · intro k
    unfold User.morecore
    dsimp only
    rw [hSbrk]
    dsimp only
    rw [hRun k, Option.map_some]
  · refine ⟨hEntered.ring, hEntered.cover, hEntered.total, hEntered.entry, hEntered.more, ?_⟩
    intro r hr hNodes
    rw [hEntered.frame r hr hNodes, hMem, if_neg hr]

/- The loop of `malloc` ends with a block or a failure. -/
theorem Ring.malloc (hEntry : h.freep ∈ addrs nodes) (hBase : 0 < base) (hn : 0 < n)
    (hBound : total nodes < 2 ^ 32)
    (hSbrk : (∀ b ∈ nodes, b.units < n) → ∀ a, sbrk (coreUnits n * HEADERSIZE) = some a →
        base < a ∧ (∀ c ∈ nodes, c.stop ≤ a) ∧ total nodes + coreUnits n < 2 ^ 32) :
    ∃ m h' p, (∀ k, mallocLoop sbrk n (k + m) h h.freep (h.mem h.freep).ptr = some (h', p)) ∧
      (p = 0 ∧ h' = h ∧ sbrk (coreUnits n * HEADERSIZE) = none ∨ ∃ b nodes' news,
        p = headerAt b.addr 1 ∧ b.units = n ∧ Allocated base h h' nodes b nodes' news ∧
          (news = [] ∨
            ∃ a, sbrk (coreUnits n * HEADERSIZE) = some a ∧ news = [⟨a, coreUnits n⟩])) := by
  rcases hRing.round (n := n) hEntry sbrk with ⟨m, prevp, hPrev, hBig, hRun⟩ | ⟨hSmall, m, hRun⟩
  · rcases hRing.take hPrev hn hBig hBound
      with ⟨h', b, nodes', hTake, hUnits, hTaken⟩
    refine ⟨m + 1, h', headerAt b.addr 1, ?_, Or.inr ⟨b, nodes', [], rfl, hUnits, ?_, Or.inl rfl⟩⟩
    · intro k
      rw [← Nat.add_assoc, hRun k, hTake]
    · exact hTaken.allocated hRing (by omega)
  cases hCore : sbrk (coreUnits n * HEADERSIZE) with
  | none =>
    refine ⟨m + 1, h, 0, ?_, Or.inl ⟨rfl, rfl, rfl⟩⟩
    intro k
    rw [← Nat.add_assoc, hRun k]
    unfold grow User.morecore
    dsimp only
    rw [hCore]
    rfl
  | some a =>
    rcases hSbrk hSmall a hCore with ⟨hAbove, hFresh, hFits⟩
    have hLe : n ≤ coreUnits n := by
      unfold coreUnits
      split
      · omega
      · exact Nat.le_refl n
    rcases hRing.morecore hEntry hCore (by omega) hAbove hFresh hFits
      with ⟨m₁, h₁, p, nodes₁, hMore, hEntered, hFreep, hRegions⟩
    have hEntry₁ : h₁.freep ∈ addrs nodes₁ := by
      rw [hFreep]
      exact hEntered.entry
    have hNull : h₁.freep ≠ 0 := by
      rcases List.mem_map.mp hEntry₁ with ⟨c, hc, hEq⟩
      have hLeast := hEntered.ring.base_le hc
      omega
    have hBound₁ : total nodes₁ < 2 ^ 32 := by
      rw [hEntered.total, total_cons]
      dsimp only
      omega
    rcases hEntered.ring.round (n := n) hEntry₁ sbrk
      with ⟨m₂, prevp, hPrev, hBig, hRun₁⟩ | ⟨hNone, _⟩
    · rcases hEntered.ring.take hPrev hn hBig hBound₁
        with ⟨h', b, nodes', hTake, hUnits, hTaken⟩
      refine ⟨m₁ + m₂ + 1 + m + 1, h', headerAt b.addr 1, ?_,
          Or.inr ⟨b, nodes', [⟨a, coreUnits n⟩], rfl, hUnits, ?_, Or.inr ⟨a, rfl, rfl⟩⟩⟩
      · intro k
        have hFuel : k + (m₁ + m₂ + 1 + m + 1) = (k + m₂ + 1 + m₁) + m + 1 := by omega
        have hRest : k + m₂ + 1 + m₁ = (k + m₁) + m₂ + 1 := by omega
        rw [hFuel, hRun]
        unfold grow
        rw [hMore, Option.bind_some]
        dsimp only
        rw [if_neg hNull, hRest, hRun₁, hTake]
      · exact hEntered.allocated hRing (by dsimp only; omega) hRegions
            (hTaken.allocated hEntered.ring (by omega))
    · rcases hEntered.more with ⟨c, hc, hMany⟩
      have hFew := hNone c hc
      dsimp only at hMany
      omega

end

---- Regions

theorem free_regions {ap : Nat} (hRun : free k h ap = some h') : h'.regions = h.regions := by
  unfold free at hRun
  rcases Option.map_eq_some_iff.mp hRun with ⟨p, _, hEq⟩
  subst hEq
  change (joinBelow (joinAbove h (ap - HEADERSIZE) p) (ap - HEADERSIZE) p).regions = h.regions
  rw [joinBelow_regions, joinAbove_regions]

theorem morecore_regions (hRun : morecore sbrk k h n = some (h', p)) :
    sbrk (coreUnits n * HEADERSIZE) = none ∧ h'.regions = h.regions ∨ ∃ a,
      sbrk (coreUnits n * HEADERSIZE) = some a ∧
        h'.regions = h.regions ++ [⟨a, coreUnits n⟩] := by
  unfold morecore at hRun
  dsimp only at hRun
  cases hCore : sbrk (coreUnits n * HEADERSIZE) with
  | none =>
    rw [hCore] at hRun
    cases hRun
    exact Or.inl ⟨rfl, rfl⟩
  | some a =>
    rw [hCore] at hRun
    dsimp only at hRun
    rcases Option.map_eq_some_iff.mp hRun with ⟨h₁, hFree, hEq⟩
    cases hEq
    exact Or.inr ⟨a, rfl, free_regions hFree⟩

theorem take_regions (h : Heap) (n prevp p : Nat) : (take h n prevp p).1.regions = h.regions := by
  unfold take
  dsimp only
  split
  · rfl
  · rfl

/- Regions are only added. -/
theorem mallocLoop_regions {q : Nat} (hRun : mallocLoop sbrk n k h prevp p = some (h', q)) :
    h.regions <+: h'.regions := by
  induction k generalizing h prevp p with
  | zero => cases hRun
  | succ k ih =>
    rw [mallocLoop] at hRun
    split at hRun
    · have hEq : (take h n prevp p).1 = h' :=
        congrArg Prod.fst (Option.some.inj hRun)
      have hSame : h.regions = h'.regions := by rw [← hEq, take_regions]
      exact hSame ▸ List.prefix_rfl
    split at hRun
    · rcases Option.bind_eq_some_iff.mp hRun
        with ⟨⟨h₁, p₁⟩, hMore, hRest⟩
      have hGrown : h.regions <+: h₁.regions := by
        rcases morecore_regions hMore with ⟨_, hEq⟩ | ⟨a, _, hEq⟩
        · exact hEq.symm ▸ List.prefix_rfl
        · rw [hEq]
          exact List.prefix_append _ _
      dsimp only at hRest
      split at hRest
      · cases hRest
        exact hGrown
      · exact hGrown.trans (ih hRest)
    · exact ih hRun

/- A call that grows the heap has added its region. -/
theorem grow_regions {a q : Nat} (hCore : sbrk (coreUnits n * HEADERSIZE) = some a)
    (hRun : grow sbrk n k h = some (h', q)) : h.regions ++ [⟨a, coreUnits n⟩] <+: h'.regions := by
  rcases Option.bind_eq_some_iff.mp hRun with ⟨⟨h₁, p₁⟩, hMore, hRest⟩
  have hGrown : h₁.regions = h.regions ++ [⟨a, coreUnits n⟩] := by
    rcases morecore_regions hMore with ⟨hNone, _⟩ | ⟨b, hb, hEq⟩
    · rw [hCore] at hNone
      cases hNone
    · rw [hCore] at hb
      cases hb
      exact hEq
  rw [← hGrown]
  dsimp only at hRest
  split at hRest
  · cases hRest
    exact List.prefix_rfl
  · exact mallocLoop_regions hRest

theorem total_le_of_prefix {rs ts : List Block} (h : rs <+: ts) : total rs ≤ total ts := by
  rcases h with ⟨us, rfl⟩
  rw [total_append]
  exact Nat.le_add_right _ _

end

---- Runs

/- A pointer that `malloc` returned, and the request. -/
structure Live where
  ptr : Nat
  nbytes : Nat
  deriving DecidableEq

structure State where
  heap : Heap
  live : List Live

/- The block of a pointer, as its header says. -/
def blockOf (mem : Nat → Header) (l : Live) : Block where
  addr := l.ptr - HEADERSIZE
  units := (mem (l.ptr - HEADERSIZE)).size

def State.blocks (s : State) : List Block := s.live.map (blockOf s.heap.mem)

/- No block was asked for yet. -/
def State.init (mem : Nat → Header) : State where
  heap := ⟨mem, 0, []⟩
  live := []

/- The function ends with a result, given enough rounds. -/
def Returns {α : Type} (f : Nat → Option α) (r : α) : Prop := ∃ m, ∀ k, f (k + m) = some r

/- `sbrk` fails or gives memory above all it gave before. -/
def Fresh (base : Nat) (h : Heap) (sbrk : Sbrk) : Prop :=
  ∀ n a, sbrk n = some a → headerAt base 1 ≤ a ∧ ∀ r ∈ h.regions, r.stop ≤ a

def State.malloced (s : State) (h : Heap) (p nbytes : Nat) : State where
  heap := h
  live := if p = 0 then s.live else ⟨p, nbytes⟩ :: s.live

/-
  A call of `malloc`, a call of `free` with a live pointer,
  or a store of the program to its blocks.
-/
inductive Step (base : Nat) (s : State) : State → Prop where
  | malloc (nbytes : Nat)
      (hSize : nbytes < 2 ^ 32) (sbrk : Sbrk) (hFresh : Fresh base s.heap sbrk) (h : Heap) (p : Nat)
      (hRun : Returns (fun k => malloc base sbrk k s.heap nbytes) (h, p)) :
      Step base s (s.malloced h p nbytes)
  | free (l : Live)
      (hLive : l ∈ s.live) (h : Heap) (hRun : Returns (fun k => free k s.heap l.ptr) h) :
      Step base s ⟨h, s.live.erase l⟩
  | store (mem : Nat → Header)
      (hKept : ∀ r, (∀ b ∈ s.blocks, r ≤ b.addr ∨ b.stop ≤ r) → mem r = s.heap.mem r) :
      Step base s ⟨{ s.heap with mem := mem }, s.live⟩

inductive Reachable (base : Nat) : State → Prop where
  | init (mem : Nat → Header) : Reachable base (State.init mem)
  | step {s s' : State} (hReach : Reachable base s) (hStep : Step base s s') : Reachable base s'

---- The Invariant

/- The nodes of the free list and the live blocks cover the regions, every address once. -/
structure Kept (base : Nat) (s : State) (nodes : List Block) : Prop where
  ring : Ring base s.heap.mem nodes
  entry : s.heap.freep ∈ addrs nodes
  cover : ∀ x, cover (nodes ++ s.blocks) x = cover s.heap.regions x
  total : total (nodes ++ s.blocks) = total s.heap.regions
  regions : s.heap.regions.Pairwise (fun r t => r.stop ≤ t.addr)
  above : ∀ r ∈ s.heap.regions, headerAt base 1 ≤ r.addr
  live : ∀ l ∈ s.live, HEADERSIZE ≤ l.ptr ∧ 0 < (blockOf s.heap.mem l).units ∧
    l.nbytes ≤ HEADERSIZE * ((blockOf s.heap.mem l).units - 1)

section

variable {base : Nat} {s : State} {nodes : List Block} {l : Live} {nbytes : Nat}

/- Regions in order cover an address at most once. -/
theorem cover_le_one {rs : List Block} (h : rs.Pairwise (fun r t => r.stop ≤ t.addr)) (x : Nat) :
    cover rs x ≤ 1 := by
  induction rs with
  | nil => exact Nat.zero_le 1
  | cons r rs ih =>
    rcases List.pairwise_cons.mp h with ⟨hFirst, hRest⟩
    rw [cover_cons]
    split
    · rename_i hCovers
      have hZero : cover rs x = 0 := by
        apply List.countP_eq_zero.mpr
        intro t ht hCov
        have hLe := hFirst t ht
        have hIn := of_decide_eq_true hCov
        exact absurd hCovers.2 (Nat.not_lt_of_le (Nat.le_trans hLe hIn.1))
      omega
    · exact ih hRest

theorem Kept.cover_le_one (h : Kept base s nodes) (x : Nat) :
    User.cover nodes x + User.cover s.blocks x ≤ 1 := by
  rw [← cover_append, h.cover]
  exact User.cover_le_one h.regions x

/- What is covered lies above `base`. -/
theorem Kept.above_base (h : Kept base s nodes) {x : Nat}
    (hPos : 0 < User.cover (nodes ++ s.blocks) x) : headerAt base 1 ≤ x := by
  rw [h.cover] at hPos
  rcases List.countP_pos_iff.mp hPos with ⟨r, hr, hCov⟩
  exact Nat.le_trans (h.above r hr) (of_decide_eq_true hCov).1

theorem apart_of_disjoint {b c : Block} (hb : 0 < b.units) (hc : 0 < c.units)
    (h : ∀ x, ¬ (b.Covers x ∧ c.Covers x)) : c.stop ≤ b.addr ∨ b.stop ≤ c.addr := by
  have hLow := h b.addr
  have hHigh := h c.addr
  unfold Block.Covers at hLow hHigh
  rw [stop_eq, stop_eq] at hLow hHigh ⊢
  omega

theorem two_le_cover {bs : List Block} {b c : Block} {x : Nat} (hb : b ∈ bs) (hc : c ∈ bs)
    (hNe : b ≠ c) (hbx : b.Covers x) (hcx : c.Covers x) : 2 ≤ User.cover bs x := by
  rcases List.append_of_mem hb with ⟨as, ds, hEq⟩
  subst hEq
  have hRest : c ∈ as ++ ds := by
    simp only [List.mem_append, List.mem_cons] at hc ⊢
    tauto
  have hPos := cover_pos hRest hcx
  rw [cover_append] at hPos
  rw [cover_append, cover_cons, if_pos hbx]
  omega

theorem pairwise_apart {bs : List Block} (hOnce : ∀ x, User.cover bs x ≤ 1)
    (hUsed : ∀ b ∈ bs, 0 < b.units) :
    bs.Pairwise (fun b c => c.stop ≤ b.addr ∨ b.stop ≤ c.addr) := by
  induction bs with
  | nil => exact List.Pairwise.nil
  | cons b bs ih =>
    refine List.pairwise_cons.mpr ⟨?_, ih ?_ ?_⟩
    · intro c hc
      refine apart_of_disjoint (hUsed b List.mem_cons_self) (hUsed c (List.mem_cons_of_mem b hc)) ?_
      rintro x ⟨hbx, hcx⟩
      have hPos := cover_pos hc hcx
      have hLe := hOnce x
      rw [cover_cons, if_pos hbx] at hLe
      omega
    · intro x
      have hLe := hOnce x
      rw [cover_cons] at hLe
      omega
    · exact fun c hc => hUsed c (List.mem_cons_of_mem b hc)

/- The header of a live block. -/
theorem Kept.live_addr (h : Kept base s nodes) (hl : l ∈ s.live) :
    base < (blockOf s.heap.mem l).addr ∧ User.cover nodes (blockOf s.heap.mem l).addr = 0 ∧
      User.cover s.heap.regions (blockOf s.heap.mem l).addr = 1 := by
  have hPos : 0 < User.cover s.blocks (blockOf s.heap.mem l).addr :=
    cover_pos (List.mem_map_of_mem hl) (covers_addr (h.live l hl).2.1)
  have hLe := h.cover_le_one (blockOf s.heap.mem l).addr
  have hAll := h.cover (blockOf s.heap.mem l).addr
  have hAbove := h.above_base (x := (blockOf s.heap.mem l).addr) (by rw [cover_append]; omega)
  rw [cover_append] at hAll
  unfold headerAt HEADERSIZE at hAbove
  exact ⟨by omega, by omega, by omega⟩

theorem blocks_congr {mem mem' : Nat → Header} {ls : List Live}
    (h : ∀ l ∈ ls, mem' (blockOf mem l).addr = mem (blockOf mem l).addr) :
    ls.map (blockOf mem') = ls.map (blockOf mem) := by
  apply List.map_congr_left
  intro l hl
  have hSame : mem' (l.ptr - HEADERSIZE) = mem (l.ptr - HEADERSIZE) := h l hl
  unfold blockOf
  rw [hSame]

/- A live block overlaps no free block. -/
theorem Kept.loose (h : Kept base s nodes) (hl : l ∈ s.live) :
    Loose base s.heap.mem nodes (blockOf s.heap.mem l) := by
  have hAddr := h.live_addr hl
  refine ⟨rfl, (h.live l hl).2.1, hAddr.1, ?_⟩
  intro c hc
  by_cases hBase : c.addr = base
  · have hOrigin := h.ring.origin
    have hApart := h.ring.apart
    cases nodes with
    | nil => cases hc
    | cons n ns =>
      cases hOrigin
      rcases List.mem_cons.mp hc with hEq | hc
      · rw [hEq]
        exact Or.inl (Nat.le_of_lt hAddr.1)
      · have hLt : base < c.addr :=
          (List.pairwise_cons.mp hApart).1 c hc
        omega
  · refine apart_of_disjoint (h.live l hl).2.1 (h.ring.used c hc hBase) ?_
    rintro x ⟨hlx, hcx⟩
    have hLe := h.cover_le_one x
    have hFree := cover_pos hc hcx
    have hLive : 0 < User.cover s.blocks x := cover_pos (List.mem_map_of_mem hl) hlx
    omega

---- Steps

/- The program stores to its own blocks. -/
theorem Kept.store (h : Kept base s nodes) {mem : Nat → Header}
    (hKept : ∀ r, (∀ b ∈ s.blocks, r ≤ b.addr ∨ b.stop ≤ r) → mem r = s.heap.mem r) :
    Kept base ⟨{ s.heap with mem := mem }, s.live⟩ nodes := by
  have hBlocks : s.live.map (blockOf mem) = s.live.map (blockOf s.heap.mem) := by
    apply blocks_congr
    intro l hl
    apply hKept
    intro b hb
    by_contra hIn
    rw [not_or] at hIn
    have hlMem : blockOf s.heap.mem l ∈ s.blocks := List.mem_map_of_mem hl
    have hTwo :=
      two_le_cover hlMem hb (by intro hEq; rw [hEq] at hIn; omega)
        (covers_addr (h.live l hl).2.1)
        ⟨by omega, by omega⟩
    have hLe := h.cover_le_one (blockOf s.heap.mem l).addr
    omega
  have hRing : Ring base mem nodes := by
    refine h.ring.congr ?_
    intro c hc
    apply hKept
    intro b hb
    rcases List.mem_map.mp hb with ⟨l, hl, rfl⟩
    rcases (h.loose hl).clear c hc with hLow | hHigh
    · rw [stop_eq] at hLow
      omega
    · exact Or.inr hHigh
  refine ⟨hRing, h.entry, ?_, ?_, h.regions, h.above, ?_⟩
  · intro x
    change User.cover (nodes ++ s.live.map (blockOf mem)) x = _
    rw [hBlocks]
    exact h.cover x
  · change User.total (nodes ++ s.live.map (blockOf mem)) = _
    rw [hBlocks]
    exact h.total
  · intro l hl
    have hEq : blockOf mem l = blockOf s.heap.mem l := List.map_inj_left.mp hBlocks l hl
    change _ ∧ 0 < (blockOf mem l).units ∧ l.nbytes ≤ HEADERSIZE * ((blockOf mem l).units - 1)
    rw [hEq]
    exact h.live l hl

theorem headerAt_ptr (mem : Nat → Header) (h : HEADERSIZE ≤ l.ptr) :
    headerAt (blockOf mem l).addr 1 = l.ptr := by
  unfold blockOf headerAt
  dsimp only
  omega

/- `free` of a live pointer ends. -/
theorem Kept.free_returns (h : Kept base s nodes) (hBound : User.total s.heap.regions < 2 ^ 32)
    (hl : l ∈ s.live) :
    ∃ h' p nodes', Returns (fun k => free k s.heap l.ptr) h' ∧
      Entered base s.heap h' nodes (blockOf s.heap.mem l) p nodes' ∧ h'.freep = p.addr ∧
      h'.regions = s.heap.regions := by
  have hPerm := List.perm_cons_erase hl
  have hTotal : User.total s.blocks =
      User.total (blockOf s.heap.mem l :: (s.live.erase l).map (blockOf s.heap.mem)) :=
    ((hPerm.map (blockOf s.heap.mem)).map Block.units).sum_nat
  have hFits : User.total (blockOf s.heap.mem l :: nodes) < 2 ^ 32 := by
    have hAll := h.total
    rw [total_append, hTotal, total_cons] at hAll
    rw [total_cons]
    omega
  rcases h.ring.free h.entry (h.loose hl) hFits with ⟨m, h', p, nodes', hRun, hRest⟩
  rw [headerAt_ptr s.heap.mem (h.live l hl).1] at hRun
  exact ⟨h', p, nodes', ⟨m, hRun⟩, hRest⟩

theorem Kept.free (h : Kept base s nodes) (hl : l ∈ s.live) {h' : Heap} {p : Block}
    {nodes' : List Block} (hEntered : Entered base s.heap h' nodes (blockOf s.heap.mem l) p nodes')
    (hFreep : h'.freep = p.addr) (hRegions : h'.regions = s.heap.regions) :
    Kept base ⟨h', s.live.erase l⟩ nodes' := by
  have hPerm := (List.perm_cons_erase hl).map (blockOf s.heap.mem)
  have hCover : ∀ x, User.cover s.blocks x = User.cover (blockOf s.heap.mem l ::
      (s.live.erase l).map (blockOf s.heap.mem)) x :=
    fun x => hPerm.countP_eq _
  have hTotal : User.total s.blocks =
      User.total (blockOf s.heap.mem l :: (s.live.erase l).map (blockOf s.heap.mem)) :=
    (hPerm.map Block.units).sum_nat
  have hBlocks :
      (s.live.erase l).map (blockOf h'.mem) = (s.live.erase l).map (blockOf s.heap.mem) := by
    apply blocks_congr
    intro l' hl'
    have hOld := List.mem_of_mem_erase hl'
    have hAddr := h.live_addr hOld
    refine hEntered.frame _ ?_ (h.ring.not_mem (Nat.ne_of_gt hAddr.1) hAddr.2.1)
    intro hEq
    have hLe := h.cover_le_one (blockOf s.heap.mem l').addr
    have hPos : 0 < User.cover ((s.live.erase l).map (blockOf s.heap.mem))
        (blockOf s.heap.mem l').addr :=
      cover_pos (List.mem_map_of_mem hl') (covers_addr (h.live l' hOld).2.1)
    rw [hCover, cover_cons, if_pos] at hLe
    · omega
    · rw [hEq]
      exact covers_addr (h.live l hl).2.1
  refine ⟨hEntered.ring, ?_, ?_, ?_, ?_, ?_, ?_⟩
  · rw [hFreep]
    exact hEntered.entry
  · intro x
    have hAll := h.cover x
    change User.cover (nodes' ++ (s.live.erase l).map (blockOf h'.mem)) x = User.cover h'.regions x
    rw [hRegions, ← hAll, hBlocks, cover_append, cover_append,
      hCover, hEntered.cover, cover_cons, cover_cons]
    omega
  · have hAll := h.total
    change User.total (nodes' ++ (s.live.erase l).map (blockOf h'.mem)) = User.total h'.regions
    rw [hRegions, ← hAll, hBlocks, total_append, total_append,
      hTotal, hEntered.total, total_cons, total_cons]
    omega
  · rw [hRegions]
    exact h.regions
  · rw [hRegions]
    exact h.above
  · intro l' hl'
    have hEq : blockOf h'.mem l' = blockOf s.heap.mem l' := List.map_inj_left.mp hBlocks l' hl'
    change _ ∧ 0 < (blockOf h'.mem l').units ∧
      l'.nbytes ≤ HEADERSIZE * ((blockOf h'.mem l').units - 1)
    rw [hEq]
    exact h.live l' (List.mem_of_mem_erase hl')

/- A block is allocated for a request. -/
theorem Kept.malloc (h : Kept base s nodes) {h' : Heap} {b : Block} {nodes' news : List Block}
    (hAlloc : Allocated base s.heap h' nodes b nodes' news) (hUsed : 0 < b.units)
    (hSize : nbytes ≤ HEADERSIZE * (b.units - 1))
    (hNews : (s.heap.regions ++ news).Pairwise (fun r t => r.stop ≤ t.addr))
    (hAbove : ∀ r ∈ news, headerAt base 1 ≤ r.addr) :
    Kept base ⟨h', ⟨headerAt b.addr 1, nbytes⟩ :: s.live⟩ nodes' := by
  have hBlocks : s.live.map (blockOf h'.mem) = s.blocks := by
    apply blocks_congr
    intro l hl
    have hAddr := h.live_addr hl
    refine hAlloc.frame _ (Nat.ne_of_gt hAddr.1) ?_
    have hLe := User.cover_le_one hNews (blockOf s.heap.mem l).addr
    rw [cover_append] at hLe ⊢
    omega
  have hNew : blockOf h'.mem ⟨headerAt b.addr 1, nbytes⟩ = b := by
    have hAddr : headerAt b.addr 1 - HEADERSIZE = b.addr := by
      unfold headerAt
      omega
    unfold blockOf
    dsimp only
    rw [hAddr, hAlloc.size]
  refine ⟨hAlloc.ring, hAlloc.entry, ?_, ?_, ?_, ?_, ?_⟩
  · intro x
    have hAll := h.cover x
    have hPart := hAlloc.cover x
    change User.cover
        (nodes' ++ blockOf h'.mem ⟨headerAt b.addr 1, nbytes⟩ :: s.live.map (blockOf h'.mem)) x =
        User.cover h'.regions x
    rw [cover_cons, cover_append] at hPart
    rw [cover_append] at hAll
    rw [hAlloc.regions, hNew, hBlocks, cover_append, cover_cons, cover_append, ← hAll]
    omega
  · have hAll := h.total
    have hPart := hAlloc.total
    change User.total
        (nodes' ++ blockOf h'.mem ⟨headerAt b.addr 1, nbytes⟩ :: s.live.map (blockOf h'.mem)) =
        User.total h'.regions
    rw [total_cons, total_append] at hPart
    rw [total_append] at hAll
    rw [hAlloc.regions, hNew, hBlocks, total_append, total_cons, total_append, ← hAll]
    omega
  · rw [hAlloc.regions]
    exact hNews
  · rw [hAlloc.regions]
    intro r hr
    rcases List.mem_append.mp hr with hr | hr
    · exact h.above r hr
    · exact hAbove r hr
  · intro l hl
    rcases List.mem_cons.mp hl with hEq | hl
    · subst hEq
      change _ ∧ 0 < (blockOf h'.mem _).units ∧ nbytes ≤ HEADERSIZE * ((blockOf h'.mem _).units - 1)
      rw [hNew]
      exact ⟨Nat.le_add_left _ _, hUsed, hSize⟩
    · have hEq : blockOf h'.mem l = blockOf s.heap.mem l :=
        List.map_inj_left.mp hBlocks l hl
      change _ ∧ 0 < (blockOf h'.mem l).units ∧
        l.nbytes ≤ HEADERSIZE * ((blockOf h'.mem l).units - 1)
      rw [hEq]
      exact h.live l hl

---- Whole Runs

/- Nothing was allocated yet, or the invariant holds. -/
def Fine (base : Nat) (s : State) : Prop :=
  s.heap.freep = 0 ∧ s.heap.regions = [] ∧ s.live = [] ∨ ∃ nodes, Kept base s nodes

theorem Returns.unique {α : Type} {f : Nat → Option α} {r r' : α} (h : Returns f r)
    (h' : Returns f r') : r = r' := by
  rcases h with ⟨m, hm⟩
  rcases h' with ⟨m', hm'⟩
  have hLeft := hm m'
  rw [Nat.add_comm, hm' m] at hLeft
  exact (Option.some.inj hLeft).symm

theorem unitsFor_spec (h : nbytes < 2 ^ 32) :
    0 < unitsFor nbytes ∧ nbytes ≤ HEADERSIZE * (unitsFor nbytes - 1) := by
  unfold unitsFor HEADERSIZE
  omega

theorem Kept.freep_ne (h : Kept base s nodes) (hBase : 0 < base) : s.heap.freep ≠ 0 := by
  rcases List.mem_map.mp h.entry with ⟨c, hc, hEq⟩
  have hLe := h.ring.base_le hc
  omega

/- The heap that `malloc` works on. -/
theorem Fine.start (h : Fine base s) (hBase : 0 < base) :
    ∃ nodes, Kept base ⟨initHeap base s.heap, s.live⟩ nodes ∧
      (initHeap base s.heap).regions = s.heap.regions := by
  unfold initHeap
  rcases h with ⟨hNull, hRegions, hLive⟩ | ⟨nodes, hKept⟩
  · rw [if_pos hNull, hLive]
    refine ⟨[⟨base, 0⟩], ?_, rfl⟩
    have hMem :
        (((s.heap.setPtr base base).setFreep base).setSize base 0).mem base = ⟨base, 0⟩ := by
      rw [setSize_mem, if_pos rfl]
      change (⟨((s.heap.setPtr base base).mem base).ptr, 0⟩ : Header) = _
      rw [setPtr_mem, if_pos rfl]
    have hOld : (((s.heap.setPtr base base).setFreep base).setSize base 0).regions = [] := hRegions
    refine ⟨⟨rfl, ⟨?_, trivial⟩, ?_, List.pairwise_singleton _ _,
        ?_⟩, List.mem_singleton.mpr rfl, ?_, ?_, ?_, ?_, ?_⟩
    · exact congrArg Header.ptr hMem
    · intro b hb
      rw [List.mem_singleton.mp hb]
      exact congrArg Header.size hMem
    · intro b hb hNe
      rw [List.mem_singleton.mp hb] at hNe
      exact absurd rfl hNe
    · intro x
      rw [hOld]
      change User.cover [⟨base, 0⟩] x = 0
      rw [cover_cons, if_neg]
      · rfl
      · rintro ⟨hLow, hHigh⟩
        exact Nat.not_lt_of_le hLow hHigh
    · rw [hOld]
      rfl
    · rw [hOld]
      exact List.Pairwise.nil
    · rw [hOld]
      intro r hr
      cases hr
    · intro l hl
      cases hl
  · rw [if_neg (hKept.freep_ne hBase)]
    exact ⟨nodes, hKept, rfl⟩

/- Free blocks end where the regions do. -/
theorem Kept.stop_le (h : Kept base s nodes) {a : Nat} (hAbove : headerAt base 1 ≤ a)
    (hFresh : ∀ r ∈ s.heap.regions, r.stop ≤ a) {c : Block} (hc : c ∈ nodes) : c.stop ≤ a := by
  by_cases hUsed : 0 < c.units
  · -- The last address of the block lies in a region.
    have hLast : c.Covers (c.stop - 1) := by
      unfold Block.Covers
      rw [stop_eq]
      omega
    have hPos := cover_pos hc hLast
    have hAll := h.cover (c.stop - 1)
    rw [cover_append] at hAll
    rcases List.countP_pos_iff.mp (show 0 < User.cover s.heap.regions (c.stop - 1) by
          omega)
      with ⟨r, hr, hCov⟩
    have hIn := (of_decide_eq_true hCov).2
    have hEnd := hFresh r hr
    omega
  · have hBase : c.addr = base := by
      by_contra hNe
      exact hUsed (h.ring.used c hc hNe)
    have hZero : c.units = 0 := by omega
    unfold headerAt at hAbove
    rw [stop_eq, hBase, hZero]
    omega

/- The loop of `malloc` ends and the invariant holds again. -/
theorem Kept.mallocLoop_returns (h : Kept base s nodes) (hBase : 0 < base)
    (hBound : User.total s.heap.regions < 2 ^ 32) (hSize : nbytes < 2 ^ 32) {sbrk : Sbrk}
    (hFresh : Fresh base s.heap sbrk)
    (hFits : (∀ b ∈ nodes, b.units < unitsFor nbytes) → ∀ a,
        sbrk (coreUnits (unitsFor nbytes) * HEADERSIZE) = some a →
          User.total s.heap.regions + coreUnits (unitsFor nbytes) < 2 ^ 32) :
    ∃ h' p nodes', Returns (fun k =>
          mallocLoop sbrk (unitsFor nbytes) k s.heap s.heap.freep (s.heap.mem s.heap.freep).ptr)
        (h', p) ∧ Kept base (s.malloced h' p nbytes) nodes' ∧
      (p = 0 ∧ h' = s.heap ∧ sbrk (coreUnits (unitsFor nbytes) * HEADERSIZE) = none ∨ p ≠ 0 ∧
          (h'.regions = s.heap.regions ∨ ∃ a,
            sbrk (coreUnits (unitsFor nbytes) * HEADERSIZE) = some a ∧
              h'.regions = s.heap.regions ++ [⟨a, coreUnits (unitsFor nbytes)⟩])) := by
  rcases unitsFor_spec hSize with ⟨hPos, hEnough⟩
  have hTotal := h.total
  rw [total_append] at hTotal
  have hAbove : ∀ m a, sbrk m = some a → base < a := by
    intro m a ha
    have hLe := (hFresh m a ha).1
    unfold headerAt HEADERSIZE at hLe
    omega
  have hSbrk : (∀ b ∈ nodes, b.units < unitsFor nbytes) → ∀ a,
      sbrk (coreUnits (unitsFor nbytes) * HEADERSIZE) = some a →
        base < a ∧ (∀ c ∈ nodes, c.stop ≤ a) ∧
          User.total nodes + coreUnits (unitsFor nbytes) < 2 ^ 32 := by
    intro hSmall a ha
    have hRoom := hFits hSmall a ha
    refine ⟨hAbove _ a ha, ?_, by omega⟩
    intro c hc
    rcases hFresh _ a ha with ⟨hLow, hRegions⟩
    exact h.stop_le hLow hRegions hc
  rcases h.ring.malloc h.entry hBase hPos (by omega) hSbrk with ⟨m, h', p, hRun, hEnd⟩
  rcases hEnd with ⟨hNull, hSame, hNone⟩ | ⟨b, nodes', news, hp, hUnits, hAlloc, hNews⟩
  · refine ⟨h', p, nodes, ⟨m, hRun⟩, ?_, Or.inl ⟨hNull, hSame, hNone⟩⟩
    unfold State.malloced
    rw [if_pos hNull, hSame]
    exact h
  have hNotNull : p ≠ 0 := by
    rw [hp]
    unfold headerAt HEADERSIZE
    omega
  have hAdded := hAlloc.regions
  have hRegions : h'.regions = s.heap.regions ∨ ∃ a,
      sbrk (coreUnits (unitsFor nbytes) * HEADERSIZE) = some a ∧
        h'.regions = s.heap.regions ++ [⟨a, coreUnits (unitsFor nbytes)⟩] := by
    rcases hNews with hNil | ⟨a, ha, hOne⟩
    · rw [hNil, List.append_nil] at hAdded
      exact Or.inl hAdded
    · exact Or.inr ⟨a, ha, hOne ▸ hAdded⟩
  refine ⟨h', p, nodes', ⟨m, hRun⟩, ?_, Or.inr ⟨hNotNull, hRegions⟩⟩
  unfold State.malloced
  rw [if_neg hNotNull, hp]
  have hGrown : (s.heap.regions ++ news).Pairwise (fun r t => r.stop ≤ t.addr) ∧
      ∀ r ∈ news, headerAt base 1 ≤ r.addr := by
    rcases hNews with hNil | ⟨a, ha, hOne⟩
    · rw [hNil, List.append_nil]
      refine ⟨h.regions, ?_⟩
      intro r hr
      cases hr
    rcases hFresh _ a ha with ⟨hLow, hRegions⟩
    rw [hOne]
    refine ⟨List.pairwise_append.mpr ⟨h.regions, List.pairwise_singleton _ _, ?_⟩, ?_⟩
    · intro r hr t ht
      rw [List.mem_singleton.mp ht]
      exact hRegions r hr
    · intro r hr
      rw [List.mem_singleton.mp hr]
      exact hLow
  refine h.malloc hAlloc ?_ ?_ hGrown.1 hGrown.2
  · rw [hUnits]
    exact hPos
  · rw [hUnits]
    exact hEnough

/- When no free block is large enough, the heap is grown. -/
theorem Ring.grows {h : Heap} {n : Nat} (hRing : Ring base h.mem nodes)
    (hEntry : h.freep ∈ addrs nodes) (sbrk : Sbrk) (hn : 0 < n) (hSmall : ∀ b ∈ nodes, b.units < n) :
    ∃ m, ∀ k, mallocLoop sbrk n (k + m + 1) h h.freep (h.mem h.freep).ptr = grow sbrk n k h := by
  rcases hRing.round (n := n) hEntry sbrk with ⟨_, prevp, hPrev, hBig, _⟩ | ⟨_, hRun⟩
  · rcases hRing.before hPrev (by omega)
      with ⟨lo, q, c, hi, hEq, _, hc⟩
    have hcMem : c ∈ nodes := by
      rw [hEq]
      simp
    have hFew := hSmall c hcMem
    rw [← hc, hRing.sizes c hcMem] at hBig
    omega
  · exact hRun

/- `malloc` ends if what it may ask for fits in a header. -/
theorem Fine.malloc_returns (h : Fine base s) (hBase : 0 < base)
    (hBound : User.total s.heap.regions < 2 ^ 32) (hSize : nbytes < 2 ^ 32) {sbrk : Sbrk}
    (hFresh : Fresh base s.heap sbrk)
    (hFits : ∀ a, sbrk (coreUnits (unitsFor nbytes) * HEADERSIZE) = some a →
      User.total s.heap.regions + coreUnits (unitsFor nbytes) < 2 ^ 32) :
    ∃ r, Returns (fun k => malloc base sbrk k s.heap nbytes) r := by
  rcases h.start hBase with ⟨nodes, hKept, hRegions⟩
  have hFresh' : Fresh base (initHeap base s.heap) sbrk := by
    intro n a ha
    rw [hRegions]
    exact hFresh n a ha
  rcases hKept.mallocLoop_returns hBase (by dsimp only; rw [hRegions]; exact hBound) hSize hFresh'
      (fun _ a ha => by
        dsimp only; rw [hRegions]; exact hFits a ha)
    with ⟨h', p, _, hRun, _, _⟩
  exact ⟨(h', p), hRun⟩

theorem Step.total_le {s' : State} (hStep : Step base s s') :
    User.total s.heap.regions ≤ User.total s'.heap.regions := by
  cases hStep with
  | malloc nbytes hSize sbrk hFresh h p hRun =>
    rcases hRun with ⟨m, hRun⟩
    have hGrown := mallocLoop_regions (hRun 0)
    have hSame : (initHeap base s.heap).regions = s.heap.regions := by
      unfold initHeap
      split
      · rfl
      · rfl
    rw [hSame] at hGrown
    exact total_le_of_prefix hGrown
  | free l hLive h hRun =>
    rcases hRun with ⟨m, hRun⟩
    exact Nat.le_of_eq (by rw [free_regions (hRun 0)])
  | store mem hKept => exact Nat.le_refl _

/- The invariant is kept as long as sizes fit in a header. -/
theorem Fine.step (h : Fine base s) (hBase : 0 < base) {s' : State} (hStep : Step base s s')
    (hBound : User.total s'.heap.regions < 2 ^ 32) : Fine base s' := by
  have hOld := Nat.lt_of_le_of_lt hStep.total_le hBound
  cases hStep with
  | malloc nbytes hSize sbrk hFresh h₁ p hRun =>
    rcases h.start hBase with ⟨nodes, hKept, hRegions⟩
    have hFresh' : Fresh base (initHeap base s.heap) sbrk := by
      intro n a ha
      rw [hRegions]
      exact hFresh n a ha
    have hFits : (∀ b ∈ nodes, b.units < unitsFor nbytes) → ∀ a, sbrk (coreUnits (unitsFor nbytes) *
          HEADERSIZE) = some a →
        User.total (initHeap base s.heap).regions + coreUnits (unitsFor nbytes) < 2 ^ 32 := by
      intro hSmall a ha
      rcases hRun with ⟨m, hRun⟩
      rcases hKept.ring.grows hKept.entry sbrk (unitsFor_spec hSize).1 hSmall with ⟨m', hGrow⟩
      have hEnd := hRun (m' + 1)
      have hFuel : m' + 1 + m = m + m' + 1 := by omega
      rw [hFuel] at hEnd
      have hGrown := total_le_of_prefix (grow_regions ha ((hGrow m).symm.trans hEnd))
      rw [total_append, total_cons] at hGrown
      have hLess : User.total h₁.regions < 2 ^ 32 := hBound
      have hNil : User.total [] = 0 := rfl
      dsimp only at hGrown
      omega
    rcases hKept.mallocLoop_returns hBase (by dsimp only; rw [hRegions]; exact hOld) hSize
        hFresh' hFits
      with ⟨h', p', nodes', hRun', hKept', _⟩
    have hEq : (h', p') = (h₁, p) := hRun'.unique hRun
    cases hEq
    exact Or.inr ⟨nodes', hKept'⟩
  | free l hLive h₁ hRun =>
    rcases h with ⟨_, _, hNil⟩ | ⟨nodes, hKept⟩
    · rw [hNil] at hLive
      cases hLive
    · rcases hKept.free_returns hOld hLive
        with ⟨h', p, nodes', hRun', hEntered, hFreep, hSame⟩
      have hEq : h' = h₁ := hRun'.unique hRun
      subst hEq
      exact Or.inr ⟨nodes', hKept.free hLive hEntered hFreep hSame⟩
  | store mem hStore =>
    rcases h with hBlank | ⟨nodes, hKept⟩
    · exact Or.inl hBlank
    · exact Or.inr ⟨nodes, hKept.store hStore⟩

theorem Reachable.fine (hReach : Reachable base s) (hBase : 0 < base)
    (hBound : User.total s.heap.regions < 2 ^ 32) : Fine base s := by
  induction hReach with
  | init mem => exact Or.inl ⟨rfl, rfl, rfl⟩
  | step _ hStep ih =>
    have hOld := Nat.lt_of_le_of_lt hStep.total_le hBound
    exact (ih hOld).step hBase hStep hBound

/-
  The free list and the live blocks of a heap: the list from
  `base` is a ring through all free blocks in ascending
  order, blocks do not overlap, free blocks do not touch,
  every unit of the regions is in one block, and each live
  block has the bytes that were asked for.
-/
structure Blocks (base : Nat) (s : State) (free : List Block) : Prop where
  ring : Chain.Linked (fun p => (s.heap.mem p).ptr) (base :: addrs free) base
  ascending : (base :: addrs free).Pairwise (· < ·)
  entry : s.heap.freep ∈ base :: addrs free
  sizes : ∀ b ∈ free, 0 < b.units ∧ (s.heap.mem b.addr).size = b.units
  disjoint :
    (⟨base, 1⟩ :: (free ++ s.blocks)).Pairwise (fun b c => c.stop ≤ b.addr ∨ b.stop ≤ c.addr)
  apart : ∀ b ∈ free, ∀ c ∈ free, b.stop ≠ c.addr
  once : ∀ r ∈ s.heap.regions, ∀ i < r.units, cover (free ++ s.blocks) (headerAt r.addr i) = 1
  only : ∀ b ∈ free ++ s.blocks, ∀ x, b.Covers x → cover s.heap.regions x = 1
  enough : ∀ l ∈ s.live, l.nbytes ≤ HEADERSIZE * ((blockOf s.heap.mem l).units - 1)

theorem Kept.blocks (h : Kept base s nodes) : ∃ free, Blocks base s free := by
  have hRing := h.ring
  have hEntry := h.entry
  have hCover := h.cover
  have hAbove := fun x => h.above_base (x := x)
  cases nodes with
  | nil => cases hRing.origin
  | cons n free =>
    cases hRing.origin
    rcases List.pairwise_cons.mp hRing.apart with ⟨hLeast, hApart⟩
    -- The header of `base` has no units.
    have hSkip :
        ∀ x, User.cover (⟨base, 0⟩ :: free ++ s.blocks) x = User.cover (free ++ s.blocks) x := by
      intro x
      rw [List.cons_append, cover_cons, if_neg]
      · rfl
      · rintro ⟨hLow, hHigh⟩
        exact Nat.not_lt_of_le hLow hHigh
    have hAll : ∀ x, User.cover (free ++ s.blocks) x = User.cover s.heap.regions x := by
      intro x
      rw [← hSkip, hCover]
    have hOnce : ∀ x, User.cover (free ++ s.blocks) x ≤ 1 := by
      intro x
      rw [hAll]
      exact User.cover_le_one h.regions x
    have hUsed : ∀ b ∈ free, 0 < b.units := by
      intro b hb
      refine hRing.used b (List.mem_cons_of_mem _ hb) ?_
      exact Nat.ne_of_gt (hLeast b hb)
    have hUsedAll : ∀ b ∈ free ++ s.blocks, 0 < b.units := by
      intro b hb
      rcases List.mem_append.mp hb with hb | hb
      · exact hUsed b hb
      · rcases List.mem_map.mp hb with ⟨l, hl, rfl⟩
        exact (h.live l hl).2.1
    refine ⟨free, hRing.linked, hRing.ascending, hEntry, ?_, ?_,
        ?_, ?_, ?_, fun l hl => (h.live l hl).2.2⟩
    · intro b hb
      exact ⟨hUsed b hb, hRing.sizes b (List.mem_cons_of_mem _ hb)⟩
    · refine List.pairwise_cons.mpr ⟨?_, pairwise_apart hOnce hUsedAll⟩
      intro c hc
      refine Or.inr (hAbove c.addr ?_)
      rw [hSkip]
      exact cover_pos hc (covers_addr (hUsedAll c hc))
    · have hBoth :=
        List.Pairwise.forall_of_forall_of_flip (R := fun b c : Block => b.stop ≠ c.addr)
          (l := free)
          (fun b hb => by
            have hPos := hUsed b hb
            rw [stop_eq]
            omega)
          (hApart.imp Nat.ne_of_lt)
          (hApart.imp (fun {b c} hLt => by
            rw [stop_eq] at hLt
            change c.stop ≠ b.addr
            rw [stop_eq]
            omega))
      exact fun b hb c hc => hBoth hb hc
    · intro r hr i hi
      have hIn : r.Covers (headerAt r.addr i) := by
        unfold Block.Covers
        rw [stop_eq]
        unfold headerAt HEADERSIZE
        omega
      have hPos := cover_pos hr hIn
      have hLe := hOnce (headerAt r.addr i)
      rw [← hAll] at hPos
      omega
    · intro b hb x hx
      have hPos := cover_pos hb hx
      have hLe := hOnce x
      rw [← hAll]
      omega

/-
  In every run of `malloc`, `free` and stores to live blocks
  in which `sbrk` has given out less than 2^32 units: before
  the first call there is nothing, and from then on the heap
  is in order. The loops of `malloc` and `free` end.
-/
theorem heap_blocks
    (hReach : Reachable base s)
    (hBase : 0 < base)
    (hBound : User.total s.heap.regions < 2 ^ 32) :
    (s.heap.freep = 0 ∧ s.heap.regions = [] ∧ s.live = [] ∨
      ∃ free, Blocks base s free) ∧
    (∀ nbytes sbrk,
      nbytes < 2 ^ 32 →
      Fresh base s.heap sbrk →
      (∀ a,
        sbrk (coreUnits (unitsFor nbytes) * HEADERSIZE) = some a →
        User.total s.heap.regions + coreUnits (unitsFor nbytes) < 2 ^ 32) →
      ∃ r, Returns (fun k => malloc base sbrk k s.heap nbytes) r) ∧
    ∀ l ∈ s.live, ∃ h, Returns (fun k => free k s.heap l.ptr) h := by
  have hFine := hReach.fine hBase hBound
  refine ⟨?_, ?_, ?_⟩
  · rcases hFine with hBlank | ⟨nodes, hKept⟩
    · exact Or.inl hBlank
    · exact Or.inr hKept.blocks
  · intro nbytes sbrk hSize hFresh hFits
    exact hFine.malloc_returns hBase hBound hSize hFresh hFits
  · intro l hl
    rcases hFine with ⟨_, _, hNil⟩ | ⟨nodes, hKept⟩
    · rw [hNil] at hl
      cases hl
    · rcases hKept.free_returns hBound hl with ⟨h', _, _, hRun, _⟩
      exact ⟨h', hRun⟩

end

---- Sample Runs

section

variable {α : Type}

/- More rounds do not change a result. -/
def Steady (f : Nat → Option α) : Prop := ∀ k r, f k = some r → f (k + 1) = some r

theorem Steady.returns {f : Nat → Option α} (h : Steady f) {k : Nat} {r : α} (hRun : f k = some r) :
    Returns f r := by
  refine ⟨k, fun n => ?_⟩
  induction n with
  | zero =>
    rw [Nat.zero_add]
    exact hRun
  | succ n ih =>
    rw [Nat.succ_add]
    exact h (n + k) r ih

theorem freeSearch_steady (mem : Nat → Header) (bp p : Nat) :
    Steady (fun k => freeSearch mem bp k p) := by
  intro k r hRun
  induction k generalizing p with
  | zero => cases hRun
  | succ k ih =>
    dsimp only at hRun ⊢
    rw [freeSearch] at hRun ⊢
    split at hRun
    · rename_i hIn
      rw [if_pos hIn]
      exact hRun
    rename_i hIn
    rw [if_neg hIn]
    split at hRun
    · rename_i hWrap
      rw [if_pos hWrap]
      exact hRun
    · rename_i hWrap
      rw [if_neg hWrap]
      exact ih _ hRun

theorem free_steady (h : Heap) (ap : Nat) : Steady (fun k => free k h ap) := by
  intro k r hRun
  rcases Option.map_eq_some_iff.mp hRun with ⟨p, hp, hEq⟩
  exact Option.map_eq_some_iff.mpr ⟨p, freeSearch_steady _ _ _ k p hp, hEq⟩

theorem morecore_steady (sbrk : Sbrk) (h : Heap) (nu : Nat) :
    Steady (fun k => morecore sbrk k h nu) := by
  intro k r hRun
  unfold morecore at hRun ⊢
  dsimp only at hRun ⊢
  cases hCore : sbrk (coreUnits nu * HEADERSIZE) with
  | none =>
    rw [hCore] at hRun
    exact hRun
  | some a =>
    rw [hCore] at hRun
    dsimp only at hRun ⊢
    rcases Option.map_eq_some_iff.mp hRun with ⟨h₁, hFree, hEq⟩
    exact Option.map_eq_some_iff.mpr ⟨h₁, free_steady _ _ k h₁ hFree, hEq⟩

theorem mallocLoop_steady (sbrk : Sbrk) (n : Nat) (h : Heap) (prevp p : Nat) :
    Steady (fun k => mallocLoop sbrk n k h prevp p) := by
  intro k r hRun
  induction k generalizing h prevp p with
  | zero => cases hRun
  | succ k ih =>
    dsimp only at hRun ⊢
    rw [mallocLoop] at hRun ⊢
    split at hRun
    · rename_i hFits
      rw [if_pos hFits]
      exact hRun
    rename_i hFits
    rw [if_neg hFits]
    split at hRun
    · rename_i hRound
      rcases Option.bind_eq_some_iff.mp hRun with ⟨⟨h₁, p₁⟩, hMore, hRest⟩
      have hMore' : morecore sbrk (k + 1) h n = some (h₁, p₁) := morecore_steady _ _ _ k _ hMore
      rw [if_pos hRound, hMore', Option.bind_some]
      dsimp only at hRest ⊢
      split at hRest
      · rename_i hNull
        rw [if_pos hNull]
        exact hRest
      · rename_i hNull
        rw [if_neg hNull]
        exact ih _ _ _ hRest
    · rename_i hRound
      rw [if_neg hRound]
      exact ih _ _ _ hRun

end

/- A call with at most `fuel` rounds; `sbrk` returns `a` when it is called. -/
inductive Call where
  | malloc (nbytes a : Nat)
  | free (l : Live)

def call (base fuel : Nat) (s : State) : Call → Option State
  | .malloc nbytes a =>
    if nbytes < 2 ^ 32 ∧ headerAt base 1 ≤ a ∧ ∀ r ∈ s.heap.regions, r.stop ≤ a then
      (malloc base (fun _ => some a) fuel s.heap nbytes).map (fun (h, p) => s.malloced h p nbytes)
    else
      none
  | .free l =>
    if l ∈ s.live then (free fuel s.heap l.ptr).map (fun h => ⟨h, s.live.erase l⟩) else none

def calls (base fuel : Nat) (s : State) : List Call → Option State
  | [] => some s
  | c :: cs => (call base fuel s c).bind (calls base fuel · cs)

theorem Reachable.call {base fuel : Nat} {s s' : State} {c : Call} (h : Reachable base s)
    (hCall : call base fuel s c = some s') : Reachable base s' := by
  cases c with
  | malloc nbytes a =>
    dsimp only [User.call] at hCall
    split at hCall
    · rename_i hFresh
      rcases Option.map_eq_some_iff.mp hCall with ⟨⟨h₁, p⟩, hRun, hEq⟩
      subst hEq
      refine h.step (Step.malloc nbytes hFresh.1 (fun _ => some a) ?_ h₁ p ?_)
      · intro n b hb
        cases hb
        exact hFresh.2
      · exact Steady.returns (mallocLoop_steady _ _ _ _ _) hRun
    · cases hCall
  | free l =>
    dsimp only [User.call] at hCall
    split at hCall
    · rename_i hLive
      rcases Option.map_eq_some_iff.mp hCall with ⟨h₁, hRun, hEq⟩
      subst hEq
      exact h.step (Step.free l hLive h₁ (Steady.returns (free_steady _ _) hRun))
    · cases hCall

theorem Reachable.calls {base fuel : Nat} {s s' : State} {cs : List Call} (h : Reachable base s)
    (hCalls : calls base fuel s cs = some s') : Reachable base s' := by
  induction cs generalizing s with
  | nil =>
    cases hCalls
    exact h
  | cons c cs ih =>
    rcases Option.bind_eq_some_iff.mp hCalls with ⟨t, hCall, hRest⟩
    exact ih (h.call hCall) hRest

/- Two blocks are allocated, and the first one is freed. -/
def firstFreed : Option State :=
  calls 4096 8 (State.init (fun _ => ⟨0, 0⟩))
    [.malloc 100 65536, .malloc 50 131072, .free ⟨130960, 100⟩]

theorem heap_blocks_firstFreed :
    ∃ s, firstFreed = some s ∧ s.live = [⟨130880, 50⟩] ∧
      (s.heap.freep = 0 ∧ s.heap.regions = [] ∧ s.live = [] ∨ ∃ free, Blocks 4096 s free) := by
  have hRun :
      firstFreed.map (fun s => (s.live, total s.heap.regions)) = some ([⟨130880, 50⟩], 4096) := by
    decide +kernel
  rcases Option.map_eq_some_iff.mp hRun with ⟨s, hs, hEq⟩
  rw [Prod.mk.injEq] at hEq
  have hReach : Reachable 4096 s := (Reachable.init _).calls hs
  refine ⟨s, hs, hEq.1, ?_⟩
  exact (heap_blocks hReach (by decide) (by rw [hEq.2]; decide)).1

/-
  Thirty-three blocks of almost 2 GiB in regions that touch.
  When all are freed, their joined size does not fit in the
  header.
-/
def largeUnits : Nat := 134217726

def largeBytes : Nat := 2147483600

def largeAt (i : Nat) : Nat := headerAt 65536 (i * largeUnits)

def largeFreed : Option State :=
  calls 4096 40 (State.init (fun _ => ⟨0, 0⟩))
    ((List.range 33).map
        (fun i => .malloc largeBytes (largeAt i)) ++
      (List.range 33).map
        (fun i =>
          .free ⟨headerAt (largeAt i) 1, largeBytes⟩))

theorem large_block_lost :
    ∃ s, Reachable 4096 s ∧
      ¬ (s.heap.freep = 0 ∧ s.heap.regions = [] ∧ s.live = [] ∨ ∃ free, Blocks 4096 s free) := by
  have hRun : largeFreed.map (fun s =>
        ((s.live, s.heap.regions.head?), s.heap.mem 4096, s.heap.mem 65536)) =
      some (([], some ⟨65536, largeUnits⟩), ⟨65536, 0⟩, ⟨4096, 134217662⟩) := by
    decide +kernel
  rcases Option.map_eq_some_iff.mp hRun with ⟨s, hs, hEq⟩
  simp only [Prod.mk.injEq] at hEq
  rcases hEq with ⟨⟨hLive, hRegion⟩, hBase, hFirst⟩
  have hIn : ⟨65536, largeUnits⟩ ∈ s.heap.regions := List.mem_of_head? hRegion
  refine ⟨s, (Reachable.init _).calls hs, ?_⟩
  rintro (⟨_, hNil, _⟩ | ⟨free, hBlocks⟩)
  · rw [hNil] at hIn
    cases hIn
  -- The list has one block, with the size in its header.
  have hRing := hBlocks.ring
  have hAsc := hBlocks.ascending
  cases free with
  | nil =>
    have hNext : (s.heap.mem 4096).ptr = 4096 := hRing.1
    rw [hBase] at hNext
    exact absurd hNext (by decide)
  | cons c cs =>
    have hNext : (s.heap.mem 4096).ptr = c.addr := hRing.1
    rw [hBase] at hNext
    have hAfter : (s.heap.mem c.addr).ptr = (addrs cs).headD 4096 := hRing.2.1
    cases cs with
    | cons d ds =>
      rw [← hNext, hFirst] at hAfter
      have hEqual : 4096 = d.addr := hAfter
      have hLt := (List.pairwise_cons.mp hAsc).1 d.addr (by simp [addrs])
      omega
    | nil =>
      have hUnits := (hBlocks.sizes c List.mem_cons_self).2
      rw [← hNext, hFirst] at hUnits
      have hOnce := hBlocks.once _ hIn 134217662 (by decide)
      unfold State.blocks at hOnce
      rw [hLive] at hOnce
      change cover [c] _ = 1 at hOnce
      rw [cover_cons, if_neg] at hOnce
      · exact absurd hOnce (by decide)
      · rintro ⟨_, hHigh⟩
        rw [stop_eq, ← hNext, ← hUnits] at hHigh
        exact Nat.lt_irrefl _ hHigh

end Xv6.User

import Mathlib.Tactic.Common
import Xv6.Lib.Chain
import Xv6.User.Umalloc

/-
  The free list of the allocator.

  The free blocks and `base` form a ring in ascending order
  of addresses, and no two of them touch. `free` finds the
  place of a block in the ring, wherever it starts to look,
  and joins it with its neighbours.

  The rules used by name are:
    * `Ring.free`
-/

namespace Xv6.User

---- Blocks

/- The first address after a block. -/
def Block.stop (b : Block) : Nat := headerAt b.addr b.units

def Block.Covers (b : Block) (x : Nat) : Prop := b.addr ≤ x ∧ x < b.stop

instance (b : Block) (x : Nat) : Decidable (b.Covers x) := inferInstanceAs (Decidable (_ ∧ _))

/- The number of blocks that cover an address. -/
def cover (bs : List Block) (x : Nat) : Nat := bs.countP (fun b => b.Covers x)

def total (bs : List Block) : Nat := (bs.map Block.units).sum

def addrs (bs : List Block) : List Nat := bs.map Block.addr

theorem stop_eq (b : Block) : b.stop = b.addr + 16 * b.units := rfl

theorem cover_cons (b : Block) (bs : List Block) (x : Nat) :
    cover (b :: bs) x = cover bs x + if b.Covers x then 1 else 0 := by
  unfold cover
  rw [List.countP_cons]
  simp only [decide_eq_true_eq]

theorem cover_append (bs cs : List Block) (x : Nat) :
    cover (bs ++ cs) x = cover bs x + cover cs x := List.countP_append

theorem total_cons (b : Block) (bs : List Block) : total (b :: bs) = b.units + total bs :=
  List.sum_cons

theorem total_append (bs cs : List Block) : total (bs ++ cs) = total bs + total cs := by
  unfold total
  rw [List.map_append, List.sum_append]

/- Two blocks that touch cover what the joined one covers. -/
theorem cover_join (a m n : Nat) (x : Nat) :
    (if Block.Covers ⟨a, m + n⟩ x then 1 else 0) = (if Block.Covers ⟨a, m⟩ x then 1 else 0) +
      if Block.Covers ⟨headerAt a m, n⟩ x then 1 else 0 := by
  have hIff :
      Block.Covers ⟨a, m + n⟩ x ↔ Block.Covers ⟨a, m⟩ x ∨ Block.Covers ⟨headerAt a m, n⟩ x := by
    simp only [Block.Covers, stop_eq, headerAt, HEADERSIZE]
    omega
  have hNot : ¬ (Block.Covers ⟨a, m⟩ x ∧ Block.Covers ⟨headerAt a m, n⟩ x) := by
    simp only [Block.Covers, stop_eq, headerAt, HEADERSIZE]
    omega
  simp only [hIff]
  split <;> split <;> split <;> tauto

theorem covers_addr {b : Block} (h : 0 < b.units) : b.Covers b.addr := by
  refine ⟨Nat.le_refl _, ?_⟩
  rw [stop_eq]
  omega

theorem cover_pos {bs : List Block} {b : Block} {x : Nat} (hMem : b ∈ bs) (h : b.Covers x) :
    0 < cover bs x := List.countP_pos_iff.mpr ⟨b, hMem, decide_eq_true h⟩

---- Updates Of Headers

section

variable (h : Heap) (p q r n : Nat)

theorem setPtr_mem : (h.setPtr p q).mem r = if r = p then ⟨q, (h.mem p).size⟩ else h.mem r :=
  Function.update_apply h.mem p _ r

theorem setSize_mem :
    (h.setSize p n).mem r = if r = p then ⟨(h.mem p).ptr, n % 2 ^ 32⟩ else h.mem r :=
  Function.update_apply h.mem p _ r

end

---- Rings

/-
  The nodes of the free list in order, `base` first. Each is
  linked to the next, the last to `base`.
-/
structure Ring (base : Nat) (mem : Nat → Header) (nodes : List Block) : Prop where
  origin : nodes.head? = some ⟨base, 0⟩
  linked : Chain.Linked (fun p => (mem p).ptr) (addrs nodes) base
  sizes : ∀ b ∈ nodes, (mem b.addr).size = b.units
  apart : nodes.Pairwise (fun b c => b.stop < c.addr)
  used : ∀ b ∈ nodes, b.addr ≠ base → 0 < b.units

/- A block that is not in the ring and overlaps no node. -/
structure Loose (base : Nat) (mem : Nat → Header) (nodes : List Block) (b : Block) : Prop where
  size : (mem b.addr).size = b.units
  used : 0 < b.units
  above : base < b.addr
  clear : ∀ c ∈ nodes, c.stop ≤ b.addr ∨ b.stop ≤ c.addr

section

variable {base : Nat} {mem : Nat → Header} {nodes : List Block} {b : Block}

theorem Ring.ascending (h : Ring base mem nodes) : (addrs nodes).Pairwise (· < ·) := by
  unfold addrs
  rw [List.pairwise_map]
  refine h.apart.imp ?_
  intro c d hLt
  rw [stop_eq] at hLt
  omega

theorem Ring.base_le (h : Ring base mem nodes) {c : Block} (hc : c ∈ nodes) : base ≤ c.addr := by
  have hOrigin := h.origin
  have hApart := h.apart
  cases nodes with
  | nil => cases hOrigin
  | cons n ns =>
    cases hOrigin
    rcases List.mem_cons.mp hc with hEq | hc
    · exact Nat.le_of_eq (by rw [hEq])
    · exact Nat.le_of_lt ((List.pairwise_cons.mp hApart).1 c hc)

/- The node below a block, and the nodes above it. -/
theorem exists_below {b : Block} {n : Block} {ns : List Block}
    (hApart : (n :: ns).Pairwise (fun c d => c.stop < d.addr))
    (hClear : ∀ c ∈ n :: ns, c.stop ≤ b.addr ∨ b.stop ≤ c.addr) (hFirst : n.stop ≤ b.addr) :
    ∃ lo p hi, n :: ns = lo ++ p :: hi ∧ p.stop ≤ b.addr ∧ ∀ c ∈ hi, b.stop ≤ c.addr := by
  induction ns generalizing n with
  | nil =>
    refine ⟨[], n, [], rfl, hFirst, ?_⟩
    intro c hc
    cases hc
  | cons m ms ih =>
    rcases List.pairwise_cons.mp hApart with ⟨_, hRest⟩
    by_cases hm : m.stop ≤ b.addr
    · rcases ih hRest (fun c hc => hClear c (List.mem_cons_of_mem n hc)) hm
        with ⟨lo, p, hi, hEq, hp, hHi⟩
      exact ⟨n :: lo, p, hi, by rw [hEq]; rfl, hp, hHi⟩
    refine ⟨[], n, m :: ms, rfl, hFirst, ?_⟩
    have hm' : b.stop ≤ m.addr := (hClear m (by simp)).resolve_left hm
    intro c hc
    rcases List.mem_cons.mp hc with hEq | hc
    · rw [hEq]
      exact hm'
    · have hLt :=
        (List.pairwise_cons.mp hRest).1 c hc
      rw [stop_eq m] at hLt
      omega

theorem Ring.below (h : Ring base mem nodes) (hb : Loose base mem nodes b) :
    ∃ lo p hi, nodes = lo ++ p :: hi ∧ p.stop ≤ b.addr ∧ ∀ c ∈ hi, b.stop ≤ c.addr := by
  have hOrigin := h.origin
  have hApart := h.apart
  have hClear := hb.clear
  cases nodes with
  | nil => cases hOrigin
  | cons n ns =>
    cases hOrigin
    exact exists_below hApart hClear (Nat.le_of_lt hb.above)

---- Searching

/- A node that is not followed by the block is passed. -/
theorem freeSearch_pass {bp p : Nat} (hIn : ¬ (p < bp ∧ bp < (mem p).ptr))
    (hOut : (mem p).ptr ≤ p → bp ≤ p ∧ (mem p).ptr ≤ bp) (k : Nat) :
    freeSearch mem bp (k + 1) p = freeSearch mem bp k (mem p).ptr := by
  rw [freeSearch, if_neg hIn, if_neg]
  rintro ⟨hLe, hNot⟩
  have hBoth := hOut hLe
  omega

theorem freeSearch_below {bp x e : Nat} {xs : List Nat}
    (hLinked : Chain.Linked (fun p => (mem p).ptr) (x :: xs) e)
    (hAsc : (x :: xs ++ [e]).Pairwise (· < ·)) (he : e < bp) (k : Nat) :
    freeSearch mem bp (k + xs.length + 1) x = freeSearch mem bp k e := by
  induction xs generalizing x with
  | nil =>
    have hNext : (mem x).ptr = e := hLinked.1
    have hLt : x < e := by simpa using hAsc
    rw [List.length_nil, Nat.add_zero, freeSearch_pass (by omega) (by omega), hNext]
  | cons y ys ih =>
    have hNext : (mem x).ptr = y := hLinked.1
    rcases List.pairwise_cons.mp hAsc with ⟨hx, hRest⟩
    have hLt : x < y := hx y (by simp)
    have hye : y < e := (List.pairwise_cons.mp hRest).1 e (by simp)
    rw [freeSearch_pass (by omega) (by omega), hNext]
    exact ih hLinked.2 hRest

theorem freeSearch_above {bp x e : Nat} {xs : List Nat}
    (hLinked : Chain.Linked (fun p => (mem p).ptr) (x :: xs) e) (hAsc : (x :: xs).Pairwise (· < ·))
    (hx : bp < x) (he : e ≤ bp) (k : Nat) :
    freeSearch mem bp (k + xs.length + 1) x = freeSearch mem bp k e := by
  induction xs generalizing x with
  | nil =>
    have hNext : (mem x).ptr = e := hLinked.1
    rw [List.length_nil, Nat.add_zero, freeSearch_pass (by omega) (by omega), hNext]
  | cons y ys ih =>
    have hNext : (mem x).ptr = y := hLinked.1
    rcases List.pairwise_cons.mp hAsc with ⟨hFirst, hRest⟩
    have hLt : x < y := hFirst y (by simp)
    rw [freeSearch_pass (by omega) (by omega), hNext]
    exact ih hLinked.2 hRest (by omega)

/- The search stops at the node below the block. -/
theorem freeSearch_stop {bp p e : Nat} {hi : List Nat} (hNext : (mem p).ptr = hi.headD e)
    (hp : p < bp) (hHi : ∀ c ∈ hi, bp < c) (he : e ≤ p) (k : Nat) :
    freeSearch mem bp (k + 1) p = some p := by
  rw [freeSearch, hNext]
  cases hi with
  | nil => rw [if_neg, if_pos] <;> dsimp only [List.headD] <;> omega
  | cons c cs =>
    have hc : bp < c := hHi c List.mem_cons_self
    rw [if_pos]
    exact ⟨hp, hc⟩

/- The search finds the node below the block, wherever in the ring it starts. -/
theorem freeSearch_ring {bp base p x : Nat} {lo hi : List Nat}
    (hLinked : Chain.Linked (fun p => (mem p).ptr) (lo ++ p :: hi) base)
    (hAsc : (lo ++ p :: hi).Pairwise (· < ·)) (hBase : base ∈ lo ++ [p]) (hp : p < bp)
    (hHi : ∀ c ∈ hi, bp < c) (hx : x ∈ lo ++ p :: hi) :
    ∃ n, ∀ k, freeSearch mem bp (k + n) x = some p := by
  have hLe : ∀ y ∈ lo ++ [p], y ≤ p := by
    intro y hy
    rcases List.mem_append.mp hy with hy | hy
    · have hRel := (List.pairwise_append.mp hAsc).2.2
      exact Nat.le_of_lt (hRel y hy p List.mem_cons_self)
    · exact Nat.le_of_eq (List.mem_singleton.mp hy)
  rcases (Chain.linked_append lo (p :: hi) base).mp hLinked with ⟨hLo, hNext, hUp⟩
  -- From a node below the block.
  have hBelow : ∀ y ∈ lo ++ [p], ∃ n, ∀ k, freeSearch mem bp (k + n) y = some p := by
    intro y hy
    rcases List.mem_append.mp hy with hy | hy
    · rcases List.append_of_mem hy with ⟨l₁, l₂, hEq⟩
      rw [hEq, Chain.linked_append] at hLo
      have hSeg : (y :: l₂ ++ [p]).Pairwise (· < ·) := by
        refine hAsc.sublist ?_
        rw [hEq]
        simp
      refine ⟨1 + l₂.length + 1, fun k => ?_⟩
      rw [← Nat.add_assoc, ← Nat.add_assoc,
        freeSearch_below (e := p) hLo.2 hSeg hp, freeSearch_stop hNext hp hHi (hLe base hBase)]
    · rw [List.mem_singleton.mp hy]
      exact ⟨1, freeSearch_stop hNext hp hHi (hLe base hBase)⟩
  by_cases hIn : x ∈ hi
  · rcases List.append_of_mem hIn with ⟨l₁, l₂, hEq⟩
    rcases hBelow base hBase with ⟨n, hn⟩
    rw [hEq, Chain.linked_append] at hUp
    have hSeg : (x :: l₂).Pairwise (· < ·) := by
      refine hAsc.sublist ?_
      rw [hEq]
      exact ((List.sublist_append_right l₁ (x :: l₂)).cons p).trans (List.sublist_append_right lo _)
    refine ⟨n + l₂.length + 1, fun k => ?_⟩
    rw [← Nat.add_assoc, ← Nat.add_assoc, freeSearch_above hUp.2 hSeg (hHi x hIn)
        (Nat.le_of_lt (Nat.lt_of_le_of_lt (hLe base hBase) hp)), hn]
  · refine hBelow x ?_
    simp only [List.mem_append, List.mem_cons] at hx ⊢
    tauto

---- Joining

theorem Ring.next_eq {lo hi : List Block} {p : Block} (h : Ring base mem (lo ++ p :: hi)) :
    (mem p.addr).ptr = (addrs hi).headD base := by
  have hLinked := h.linked
  unfold addrs at hLinked
  rw [List.map_append, List.map_cons] at hLinked
  exact hLinked.next_eq

theorem Loose.addr_ne (hb : Loose base mem nodes b) (h : Ring base mem nodes) {c : Block}
    (hc : c ∈ nodes) : c.addr ≠ b.addr := by
  intro hEq
  have hUsed := hb.used
  have hAbove := hb.above
  have hPos := h.used c hc (by omega)
  have hClear := hb.clear c hc
  rw [stop_eq, stop_eq] at hClear
  omega

theorem cover_touch {c d : Block} (hTouch : c.stop = d.addr) (bs : List Block) (x : Nat) :
    cover (⟨c.addr, c.units + d.units⟩ :: bs) x = cover (c :: d :: bs) x := by
  rcases c with ⟨a, m⟩
  rcases d with ⟨a', n⟩
  have hEq : a' = headerAt a m := hTouch.symm
  subst hEq
  dsimp only
  rw [cover_cons, cover_cons, cover_cons, cover_join]
  omega

/-
  The block after the join above: it is linked to the rest
  of the list and touches no node of it.
-/
structure Joined (base : Nat) (h h' : Heap) (b : Block) (hi : List Block) (b' : Block)
    (hi' : List Block) : Prop where
  addr : b'.addr = b.addr
  mem : ∀ r, h'.mem r =
    if r = b.addr then
      ⟨(addrs hi').headD base, b'.units⟩
    else h.mem r
  cover : ∀ x, cover (b' :: hi') x = cover (b :: hi) x
  total : total (b' :: hi') = total (b :: hi)
  apart : ∀ c ∈ hi', b'.stop < c.addr
  rest : hi' <:+ hi
  used : 0 < b'.units
  more : b.units ≤ b'.units

theorem Ring.joinAbove {h : Heap} {lo hi : List Block} {p : Block}
    (hRing : Ring base h.mem (lo ++ p :: hi)) (hb : Loose base h.mem (lo ++ p :: hi) b)
    (hHi : ∀ c ∈ hi, b.stop ≤ c.addr) (hBound : b.units + total hi < 2 ^ 32) :
    ∃ b' hi', Joined base h (joinAbove h b.addr p.addr) b hi b' hi' := by
  have hNext := hRing.next_eq
  have hSize := hb.size
  have hUsed := hb.used
  have hAbove := hb.above
  unfold User.joinAbove
  dsimp only
  by_cases hTouch : headerAt b.addr (h.mem b.addr).size = (h.mem p.addr).ptr
  · rw [if_pos hTouch]
    rw [hNext, hSize] at hTouch
    cases hi with
    | nil =>
      have hBad : b.stop = base := hTouch
      rw [stop_eq] at hBad
      omega
    | cons c cs =>
      have hStop : b.stop = c.addr := hTouch
      have hq : (h.mem p.addr).ptr = c.addr := hNext
      have hcMem : c ∈ lo ++ p :: c :: cs := by simp
      have hcSize := hRing.sizes c hcMem
      have hcNext : (h.mem c.addr).ptr = (addrs cs).headD base := by
        have hSplit : Ring base h.mem ((lo ++ [p]) ++ c :: cs) := by
          rw [List.append_assoc]
          exact hRing
        exact hSplit.next_eq
      have hFits : b.units + c.units < 2 ^ 32 := by
        unfold total at hBound
        rw [List.map_cons, List.sum_cons] at hBound
        omega
      refine ⟨⟨b.addr, b.units + c.units⟩, cs, rfl, ?_, ?_, ?_,
          ?_, List.suffix_cons c cs, by dsimp only; omega, Nat.le_add_right _ _⟩
      · intro r
        rw [hq, hSize, hcSize, hcNext, setPtr_mem, setSize_mem, setSize_mem, if_pos rfl,
          Nat.mod_eq_of_lt hFits]
        split
        · rfl
        · rfl
      · exact cover_touch hStop cs
      · unfold total
        simp only [List.map_cons, List.sum_cons]
        omega
      · intro d hd
        have hLt :=
          (List.pairwise_cons.mp
            (List.pairwise_cons.mp (List.pairwise_append.mp hRing.apart).2.1).2).1 d hd
        rw [stop_eq] at hLt hStop ⊢
        dsimp only
        omega
  · rw [if_neg hTouch]
    rw [hNext, hSize] at hTouch
    refine ⟨b, hi, rfl, ?_, fun _ => rfl, rfl, ?_, List.suffix_rfl, hUsed, Nat.le_refl _⟩
    · intro r
      rw [setPtr_mem, hNext, hSize]
    intro c hc
    have hLe := hHi c hc
    cases hi with
    | nil => cases hc
    | cons d ds =>
      have hNe : b.stop ≠ d.addr := hTouch
      rcases List.mem_cons.mp hc with hEq | hc
      · rw [hEq] at hLe ⊢
        omega
      · have hLt :=
          (List.pairwise_cons.mp
            (List.pairwise_cons.mp (List.pairwise_append.mp hRing.apart).2.1).2).1 c hc
        have hFirst := hHi d List.mem_cons_self
        rw [stop_eq d] at hLt
        omega

/- Free blocks below a node and above it, with the node rewritten: the ring is linked again. -/
theorem Ring.splice {lo hi hi' : List Block} {p p' : Block} {mem' : Nat → Header}
    (h : Ring base mem (lo ++ p :: hi)) (hOrigin : lo = [] → p' = p) (hAddr : p'.addr = p.addr)
    (hp : mem' p.addr = ⟨(addrs hi').headD base, p'.units⟩)
    (hLo : ∀ c ∈ lo, mem' c.addr = mem c.addr)
    (hLinked : Chain.Linked (fun p => (mem' p).ptr) (addrs hi') base)
    (hSizes : ∀ c ∈ hi', (mem' c.addr).size = c.units)
    (hApart : (p' :: hi').Pairwise (fun c d => c.stop < d.addr))
    (hAbove : ∀ c ∈ hi', p.addr ≤ c.addr) (hUsed : p'.addr ≠ base → 0 < p'.units)
    (hUsed' : ∀ c ∈ hi', 0 < c.units) : Ring base mem' (lo ++ p' :: hi') := by
  have hRel := (List.pairwise_append.mp h.apart).2.2
  refine ⟨?_, ?_, ?_, ?_, ?_⟩
  · have hHead := h.origin
    cases lo with
    | nil =>
      rw [hOrigin rfl]
      exact hHead
    | cons c cs => exact hHead
  · have hOld := h.linked
    unfold addrs at hOld ⊢
    rw [List.map_append, List.map_cons, Chain.linked_append] at hOld ⊢
    refine ⟨?_, ?_, hLinked⟩
    · have hFirst := hOld.1
      rw [← hAddr] at hFirst
      refine hFirst.congr ?_
      intro a ha
      rcases List.mem_map.mp ha with ⟨c, hc, rfl⟩
      rw [hLo c hc]
    · change (mem' p'.addr).ptr = _
      rw [hAddr, hp]
      rfl
  · intro c hc
    rcases List.mem_append.mp hc with hc | hc
    · rw [hLo c hc]
      exact h.sizes c (List.mem_append_left _ hc)
    · rcases List.mem_cons.mp hc with hEq | hc
      · rw [hEq, hAddr, hp]
      · exact hSizes c hc
  · refine List.pairwise_append.mpr ⟨(List.pairwise_append.mp h.apart).1, hApart, ?_⟩
    intro c hc d hd
    have hLt := hRel c hc p List.mem_cons_self
    rcases List.mem_cons.mp hd with hEq | hd
    · rw [hEq, hAddr]
      exact hLt
    · exact Nat.lt_of_lt_of_le hLt (hAbove d hd)
  · intro c hc hNe
    rcases List.mem_append.mp hc with hc | hc
    · exact h.used c (List.mem_append_left _ hc) hNe
    · rcases List.mem_cons.mp hc with hEq | hc
      · rw [hEq] at hNe ⊢
        exact hUsed hNe
      · exact hUsed' c hc

/- The ring after a block was entered after the node `p`. -/
structure Entered (base : Nat) (h h' : Heap) (nodes : List Block) (b p : Block)
    (nodes' : List Block) : Prop where
  ring : Ring base h'.mem nodes'
  cover : ∀ x, cover nodes' x = cover (b :: nodes) x
  total : total nodes' = total (b :: nodes)
  entry : p.addr ∈ addrs nodes'
  more : ∃ c ∈ nodes', b.units ≤ c.units
  frame : ∀ r, r ≠ b.addr → r ∉ addrs nodes → h'.mem r = h.mem r

theorem addr_mem_addrs {c : Block} (hc : c ∈ nodes) : c.addr ∈ addrs nodes := List.mem_map_of_mem hc

section

variable {h h₁ : Heap} {lo hi hi' : List Block} {p b' : Block}

section

variable (hRing : Ring base h.mem (lo ++ p :: hi))
include hRing

theorem Joined.rest_used (hAbove : base < b.addr) (hHi : ∀ c ∈ hi, b.stop ≤ c.addr)
    (hJoined : Joined base h h₁ b hi b' hi') :
    ∀ c ∈ hi', 0 < c.units ∧ b.stop ≤ c.addr ∧ (h.mem c.addr).size = c.units := by
  intro c hc
  have hcHi := hJoined.rest.subset hc
  have hcMem : c ∈ lo ++ p :: hi := by simp [hcHi]
  have hGe := hHi c hcHi
  refine ⟨hRing.used c hcMem ?_, hGe, hRing.sizes c hcMem⟩
  have hEq := stop_eq b
  omega

theorem Joined.rest_linked (hJoined : Joined base h h₁ b hi b' hi') :
    Chain.Linked (fun q => (h.mem q).ptr) (addrs hi') base := by
  rcases hJoined.rest with ⟨zs, hzs⟩
  have hOld := hRing.linked
  unfold addrs at hOld ⊢
  rw [← hzs, List.map_append, List.map_cons, List.map_append, Chain.linked_append] at hOld
  exact ((Chain.linked_append _ _ _).mp hOld.2.2).2

theorem Joined.rest_apart (hJoined : Joined base h h₁ b hi b' hi') :
    (b' :: hi').Pairwise (fun c d => c.stop < d.addr) := by
  refine List.pairwise_cons.mpr ⟨hJoined.apart, ?_⟩
  refine hRing.apart.sublist ?_
  exact (hJoined.rest.sublist.cons p).trans (List.sublist_append_right lo _)

end

variable (hRing : Ring base h.mem (lo ++ p :: hi)) (hb : Loose base h.mem (lo ++ p :: hi) b)
include hRing hb

/- The block is linked after the node `p`. -/
theorem Ring.linkBelow (hp : p.stop < b.addr) (hHi : ∀ c ∈ hi, b.stop ≤ c.addr)
    (hJoined : Joined base h h₁ b hi b' hi') :
    Entered base h (h₁.setPtr p.addr b.addr) (lo ++ p :: hi) b p (lo ++ p :: b' :: hi') := by
  have hpMem : p ∈ lo ++ p :: hi := by simp
  have hpNe := hb.addr_ne hRing hpMem
  have hRest := hJoined.rest_used hRing hb.above hHi
  have hAddr := hJoined.addr
  have hLt : p.addr < b.addr := by
    rw [stop_eq] at hp
    omega
  have hStop := stop_eq b
  have hMem : ∀ r, (h₁.setPtr p.addr b.addr).mem r =
      if r = p.addr then ⟨b.addr, p.units⟩
      else if r = b.addr then
        ⟨(addrs hi').headD base, b'.units⟩
      else h.mem r := by
    intro r
    rw [setPtr_mem, hJoined.mem, hJoined.mem, if_neg hpNe, hRing.sizes p hpMem]
  have hKept : ∀ c ∈ hi', (h₁.setPtr p.addr b.addr).mem c.addr = h.mem c.addr := by
    intro c hc
    have hGe := (hRest c hc).2.1
    have hUsed := hb.used
    rw [hMem, if_neg (by omega), if_neg (by omega)]
  refine ⟨?_, ?_, ?_, ?_, ?_, ?_⟩
  · refine hRing.splice (fun _ => rfl) rfl ?_ ?_ ?_ ?_ ?_ ?_ ?_ ?_
    · rw [hMem, if_pos rfl, ← hAddr]
      rfl
    · intro c hc
      have hRel := (List.pairwise_append.mp hRing.apart).2.2 c hc p List.mem_cons_self
      rw [stop_eq] at hRel
      rw [hMem, if_neg (by omega), if_neg (by omega)]
    · refine ⟨?_, ?_⟩
      · change ((h₁.setPtr p.addr b.addr).mem b'.addr).ptr = _
        rw [hAddr, hMem, if_neg (Ne.symm hpNe), if_pos rfl]
        rfl
      · refine (hJoined.rest_linked hRing).congr ?_
        intro a ha
        rcases List.mem_map.mp ha with ⟨c, hc, rfl⟩
        rw [hKept c hc]
    · intro c hc
      rcases List.mem_cons.mp hc with hEq | hc
      · rw [hEq, hAddr, hMem, if_neg (Ne.symm hpNe), if_pos rfl]
      · rw [hKept c hc]
        exact (hRest c hc).2.2
    · refine List.pairwise_cons.mpr ⟨?_, hJoined.rest_apart hRing⟩
      intro c hc
      rcases List.mem_cons.mp hc with hEq | hc
      · rw [hEq, hAddr]
        exact hp
      · have hGe := (hRest c hc).2.1
        omega
    · intro c hc
      rcases List.mem_cons.mp hc with hEq | hc
      · rw [hEq, hAddr]
        exact Nat.le_of_lt hLt
      · have hGe := (hRest c hc).2.1
        omega
    · exact hRing.used p hpMem
    · intro c hc
      rcases List.mem_cons.mp hc with hEq | hc
      · rw [hEq]
        exact hJoined.used
      · exact (hRest c hc).1
  · intro x
    have hCover := hJoined.cover x
    rw [cover_cons b] at hCover
    rw [cover_append, cover_cons p, hCover, cover_cons b, cover_append, cover_cons p]
    omega
  · have hTotal := hJoined.total
    rw [total_cons b] at hTotal
    rw [total_append, total_cons p, hTotal, total_cons b, total_append, total_cons p]
    omega
  · exact addr_mem_addrs (by simp)
  · exact ⟨b', by simp, hJoined.more⟩
  · intro r hr hNodes
    rw [hMem, if_neg, if_neg hr]
    intro hEq
    rw [hEq] at hNodes
    exact hNodes (addr_mem_addrs hpMem)

/- The block is joined to the node `p`. -/
theorem Ring.growBelow (hp : p.stop = b.addr) (hHi : ∀ c ∈ hi, b.stop ≤ c.addr)
    (hBound : p.units + b.units + User.total hi < 2 ^ 32) (hJoined : Joined base h h₁ b hi b' hi') :
    Entered base h ((h₁.setSize p.addr (p.units + b'.units)).setPtr p.addr ((addrs hi').headD base))
      (lo ++ p :: hi) b p (lo ++ ⟨p.addr, p.units + b'.units⟩ :: hi') := by
  have hpMem : p ∈ lo ++ p :: hi := by simp
  have hpNe := hb.addr_ne hRing hpMem
  have hRest := hJoined.rest_used hRing hb.above hHi
  have hAddr := hJoined.addr
  have hUsed := hJoined.used
  have hFits : p.units + b'.units < 2 ^ 32 := by
    have hTotal := hJoined.total
    rw [total_cons, total_cons] at hTotal
    omega
  have hMem : ∀ r, ((h₁.setSize p.addr (p.units + b'.units)).setPtr
        p.addr ((addrs hi').headD base)).mem r =
      if r = p.addr then
        ⟨(addrs hi').headD base, p.units + b'.units⟩
      else if r = b.addr then
        ⟨(addrs hi').headD base, b'.units⟩
      else h.mem r := by
    intro r
    rw [setPtr_mem, setSize_mem, setSize_mem, hJoined.mem,
      hJoined.mem, if_pos rfl, Nat.mod_eq_of_lt hFits]
    split
    · rfl
    · rfl
  have hKept : ∀ c ∈ hi', ((h₁.setSize p.addr (p.units + b'.units)).setPtr
      p.addr ((addrs hi').headD base)).mem c.addr = h.mem c.addr := by
    intro c hc
    have hGe := (hRest c hc).2.1
    have hbUsed := hb.used
    rw [stop_eq] at hGe hp
    rw [hMem, if_neg (by omega), if_neg (by omega)]
  have hApart := hJoined.rest_apart hRing
  refine ⟨?_, ?_, ?_, ?_, ?_, ?_⟩
  · refine hRing.splice ?_ rfl ?_ ?_ ?_ ?_ ?_ ?_ ?_ ?_
    · intro hNil
      have hOrigin := hRing.origin
      rw [hNil] at hOrigin
      cases hOrigin
      exact absurd hp (Nat.ne_of_lt hb.above)
    · rw [hMem, if_pos rfl]
    · intro c hc
      have hRel := (List.pairwise_append.mp hRing.apart).2.2 c hc p List.mem_cons_self
      rw [stop_eq] at hRel hp
      rw [hMem, if_neg (by omega), if_neg (by omega)]
    · refine (hJoined.rest_linked hRing).congr ?_
      intro a ha
      rcases List.mem_map.mp ha with ⟨c, hc, rfl⟩
      rw [hKept c hc]
    · intro c hc
      rw [hKept c hc]
      exact (hRest c hc).2.2
    · refine List.pairwise_cons.mpr ⟨?_, (List.pairwise_cons.mp hApart).2⟩
      intro c hc
      have hLt := (List.pairwise_cons.mp hApart).1 c hc
      rw [stop_eq] at hLt hp ⊢
      dsimp only
      omega
    · intro c hc
      have hGe := (hRest c hc).2.1
      rw [stop_eq] at hGe hp
      omega
    · intro _
      dsimp only
      omega
    · exact fun c hc => (hRest c hc).1
  · intro x
    have hTouch : p.stop = b'.addr := by rw [hAddr, hp]
    have hCover := hJoined.cover x
    rw [cover_cons b] at hCover
    rw [cover_append, cover_touch hTouch, cover_cons p, hCover,
      cover_cons b, cover_append, cover_cons p]
    omega
  · have hTotal := hJoined.total
    rw [total_cons, total_cons] at hTotal
    rw [total_append, total_cons, total_cons, total_append, total_cons]
    dsimp only
    omega
  · exact addr_mem_addrs (c := ⟨p.addr, p.units + b'.units⟩) (by simp)
  · refine ⟨⟨p.addr, p.units + b'.units⟩, by simp, ?_⟩
    exact Nat.le_trans hJoined.more (Nat.le_add_left _ _)
  · intro r hr hNodes
    rw [hMem, if_neg, if_neg hr]
    intro hEq
    rw [hEq] at hNodes
    exact hNodes (addr_mem_addrs hpMem)

theorem Ring.joinBelow (hp : p.stop ≤ b.addr) (hHi : ∀ c ∈ hi, b.stop ≤ c.addr)
    (hBound : p.units + b.units + User.total hi < 2 ^ 32) (hJoined : Joined base h h₁ b hi b' hi') :
    ∃ nodes', Entered base h (joinBelow h₁ b.addr p.addr) (lo ++ p :: hi) b p nodes' := by
  have hpMem : p ∈ lo ++ p :: hi := by simp
  have hMemP : h₁.mem p.addr = h.mem p.addr := by rw [hJoined.mem, if_neg (hb.addr_ne hRing hpMem)]
  have hMemB : h₁.mem b.addr = ⟨(addrs hi').headD base, b'.units⟩ := by rw [hJoined.mem, if_pos rfl]
  unfold User.joinBelow
  rw [hMemP, hRing.sizes p hpMem, hMemB]
  by_cases hTouch : headerAt p.addr p.units = b.addr
  · rw [if_pos hTouch]
    exact ⟨_, hRing.growBelow hb hTouch hHi hBound hJoined⟩
  · rw [if_neg hTouch]
    have hLt : p.stop < b.addr := Nat.lt_of_le_of_ne hp hTouch
    exact ⟨_, hRing.linkBelow hb hLt hHi hJoined⟩

end

theorem joinAbove_regions (h : Heap) (bp p : Nat) : (joinAbove h bp p).regions = h.regions := by
  unfold joinAbove
  dsimp only
  split
  · rfl
  · rfl

theorem joinBelow_regions (h : Heap) (bp p : Nat) : (joinBelow h bp p).regions = h.regions := by
  unfold joinBelow
  split
  · rfl
  · rfl

/- `free` ends, with the block in the ring. -/
theorem Ring.free {h : Heap} (hRing : Ring base h.mem nodes) (hEntry : h.freep ∈ addrs nodes)
    (hb : Loose base h.mem nodes b) (hBound : total (b :: nodes) < 2 ^ 32) :
    ∃ n h' p nodes', (∀ k, free (k + n) h (headerAt b.addr 1) = some h') ∧
      Entered base h h' nodes b p nodes' ∧ h'.freep = p.addr ∧ h'.regions = h.regions := by
  rcases hRing.below hb with ⟨lo, p, hi, hEq, hp, hHi⟩
  subst hEq
  rw [total_cons, total_append, total_cons] at hBound
  rcases hRing.joinAbove hb hHi (by omega) with ⟨b', hi', hJoined⟩
  rcases hRing.joinBelow hb hp hHi (by omega) hJoined with ⟨nodes', hEntered⟩
  have hUsed := hb.used
  have hStop := stop_eq b
  have hpLt : p.addr < b.addr := by
    have hNe := hb.addr_ne hRing (c := p) (by simp)
    rw [stop_eq] at hp
    omega
  have hMap : addrs (lo ++ p :: hi) = addrs lo ++ p.addr :: addrs hi := by
    unfold addrs
    rw [List.map_append, List.map_cons]
  have hLinked := hRing.linked
  have hAsc := hRing.ascending
  rw [hMap] at hLinked hAsc hEntry
  have hBase : base ∈ addrs lo ++ [p.addr] := by
    have hOrigin := hRing.origin
    cases lo with
    | nil =>
      cases hOrigin
      exact List.mem_singleton.mpr rfl
    | cons c cs =>
      cases hOrigin
      exact List.mem_cons_self
  have hAbove : ∀ a ∈ addrs hi, b.addr < a := by
    intro a ha
    rcases List.mem_map.mp ha with ⟨c, hc, rfl⟩
    have hGe := hHi c hc
    omega
  rcases freeSearch_ring hLinked hAsc hBase hpLt hAbove hEntry with ⟨n, hn⟩
  refine ⟨n, (User.joinBelow (User.joinAbove h b.addr p.addr) b.addr p.addr).setFreep p.addr,
      p, nodes', ?_, ?_, rfl, ?_⟩
  · intro k
    have hAddr : headerAt b.addr 1 - HEADERSIZE = b.addr := by
      unfold headerAt
      omega
    unfold User.free
    dsimp only
    rw [hAddr, hn, Option.map_some]
  · exact
      ⟨hEntered.ring, hEntered.cover, hEntered.total, hEntered.entry, hEntered.more, hEntered.frame⟩
  · change (User.joinBelow (User.joinAbove h b.addr p.addr) b.addr p.addr).regions = h.regions
    rw [joinBelow_regions, joinAbove_regions]

---- Taking

/- The ring after a block was taken from it. -/
structure Taken (base : Nat) (h h' : Heap) (nodes : List Block) (b : Block) (nodes' : List Block) :
    Prop where
  ring : Ring base h'.mem nodes'
  cover : ∀ x, cover (b :: nodes') x = cover nodes x
  total : total (b :: nodes') = total nodes
  entry : h'.freep ∈ addrs nodes'
  size : (h'.mem b.addr).size = b.units
  frame : ∀ r, r ≠ b.addr → r ∉ addrs nodes → h'.mem r = h.mem r
  regions : h'.regions = h.regions

theorem Ring.before (h : Ring base mem nodes) {prevp : Nat} (hPrev : prevp ∈ addrs nodes)
    (hSize : 0 < (mem (mem prevp).ptr).size) :
    ∃ lo q c hi, nodes = lo ++ q :: c :: hi ∧ q.addr = prevp ∧ c.addr = (mem prevp).ptr := by
  rcases List.mem_map.mp hPrev with ⟨q, hq, rfl⟩
  rcases List.append_of_mem hq with ⟨lo, hi, hEq⟩
  subst hEq
  cases hi with
  | nil =>
    have hBase : ⟨base, 0⟩ ∈ lo ++ [q] := List.mem_of_head? h.origin
    have hNext : (mem q.addr).ptr = base := h.next_eq
    have hZero : (mem base).size = 0 := h.sizes _ hBase
    rw [hNext, hZero] at hSize
    exact absurd hSize (Nat.lt_irrefl 0)
  | cons c hi =>
    refine ⟨lo, q, c, hi, rfl, rfl, ?_⟩
    exact h.next_eq.symm

section

variable {h : Heap} {lo hi : List Block} {q c : Block}

theorem Ring.rows (h : Ring base mem (lo ++ q :: c :: hi)) :
    Ring base mem ((lo ++ [q]) ++ c :: hi) := by
  rw [List.append_assoc]
  exact h

variable (hRing : Ring base h.mem (lo ++ q :: c :: hi))
include hRing

/- The whole block is taken. -/
theorem Ring.takeWhole :
    Taken base h ((h.setPtr q.addr (h.mem c.addr).ptr).setFreep q.addr)
      (lo ++ q :: c :: hi) c (lo ++ q :: hi) := by
  have hqMem : q ∈ lo ++ q :: c :: hi := by simp
  have hcMem : c ∈ lo ++ q :: c :: hi := by simp
  have hcNext := hRing.rows.next_eq
  have hApart := List.pairwise_append.mp hRing.apart
  have hqc : q.addr < c.addr := by
    have hLt := (List.pairwise_cons.mp hApart.2.1).1 c List.mem_cons_self
    rw [stop_eq] at hLt
    omega
  have hMem : ∀ r, ((h.setPtr q.addr (h.mem c.addr).ptr).setFreep q.addr).mem r =
      if r = q.addr then
        ⟨(addrs hi).headD base, q.units⟩
      else h.mem r := by
    intro r
    change (h.setPtr q.addr (h.mem c.addr).ptr).mem r = _
    rw [setPtr_mem, hcNext, hRing.sizes q hqMem]
  have hAfter : ∀ d ∈ hi, q.addr < d.addr := by
    intro d hd
    have hLt := (List.pairwise_cons.mp hApart.2.1).1 d (List.mem_cons_of_mem c hd)
    rw [stop_eq] at hLt
    omega
  have hHi : ∀ d ∈ hi,
      ((h.setPtr q.addr (h.mem c.addr).ptr).setFreep q.addr).mem d.addr = h.mem d.addr := by
    intro d hd
    rw [hMem, if_neg (Nat.ne_of_gt (hAfter d hd))]
  have hLinked :=
    (Chain.linked_append (addrs lo) (q.addr :: c.addr :: addrs hi) base).mp
      (by
        have hOld := hRing.linked
        unfold addrs at hOld ⊢
        rw [List.map_append, List.map_cons, List.map_cons] at hOld
        exact hOld)
  refine ⟨?_, ?_, ?_, ?_, ?_, ?_, rfl⟩
  · refine hRing.splice (fun _ => rfl) rfl ?_ ?_ ?_ ?_ ?_ ?_ ?_ ?_
    · rw [hMem, if_pos rfl]
    · intro d hd
      have hLt := hApart.2.2 d hd q List.mem_cons_self
      rw [stop_eq] at hLt
      rw [hMem, if_neg (by omega)]
    · refine Chain.Linked.congr hLinked.2.2.2 ?_
      intro a ha
      rcases List.mem_map.mp ha with ⟨d, hd, rfl⟩
      rw [hHi d hd]
    · intro d hd
      rw [hHi d hd]
      exact hRing.sizes d (by simp [hd])
    · refine hApart.2.1.sublist ?_
      exact List.Sublist.cons_cons q (List.sublist_cons_self c hi)
    · exact fun d hd => Nat.le_of_lt (hAfter d hd)
    · exact hRing.used q hqMem
    · intro d hd
      refine hRing.used d (by simp [hd]) ?_
      have hLe := hRing.base_le hqMem
      have hLt := hAfter d hd
      omega
  · intro x
    rw [cover_cons c, cover_append, cover_cons q, cover_append, cover_cons q, cover_cons c]
    omega
  · rw [total_cons c, total_append, total_cons q, total_append, total_cons q, total_cons c]
    omega
  · exact addr_mem_addrs (c := q) (by simp)
  · rw [hMem, if_neg (Nat.ne_of_gt hqc)]
    exact hRing.sizes c hcMem
  · intro r _ hNodes
    rw [hMem, if_neg]
    intro hEq
    rw [hEq] at hNodes
    exact hNodes (addr_mem_addrs hqMem)

/- The last units of the block are taken. -/
theorem Ring.takePart {n : Nat} (hn : 0 < n) (hLt : n < c.units) (hBound : c.units < 2 ^ 32) :
    Taken base h
      (((h.setSize c.addr (c.units - n)).setSize (headerAt c.addr (c.units - n)) n).setFreep q.addr)
      (lo ++ q :: c :: hi) ⟨headerAt c.addr (c.units - n), n⟩
      (lo ++ q :: ⟨c.addr, c.units - n⟩ :: hi) := by
  have hRows := hRing.rows
  have hcMem : c ∈ (lo ++ [q]) ++ c :: hi := by simp
  have hcNext := hRows.next_eq
  have hApart := List.pairwise_append.mp hRows.apart
  have hCut : headerAt c.addr (c.units - n) + 16 * n = c.stop := by
    rw [stop_eq]
    unfold headerAt HEADERSIZE
    omega
  have hIn : c.addr < headerAt c.addr (c.units - n) := by
    unfold headerAt HEADERSIZE
    omega
  generalize hCutAt : headerAt c.addr (c.units - n) = cut at hCut hIn ⊢
  have hMem : ∀ r, (((h.setSize c.addr (c.units - n)).setSize cut n).setFreep q.addr).mem r =
      if r = cut then ⟨(h.mem cut).ptr, n⟩
      else if r = c.addr then
        ⟨(addrs hi).headD base, c.units - n⟩
      else h.mem r := by
    intro r
    change ((h.setSize c.addr (c.units - n)).setSize cut n).mem r = _
    rw [setSize_mem, setSize_mem, setSize_mem, if_neg (Nat.ne_of_gt hIn), hcNext,
      Nat.mod_eq_of_lt (Nat.lt_trans hLt hBound), Nat.mod_eq_of_lt (by omega)]
  have hAfter : ∀ d ∈ hi, c.stop < d.addr := (List.pairwise_cons.mp hApart.2.1).1
  have hBefore : ∀ d ∈ lo ++ [q], d.addr < c.addr := by
    intro d hd
    have hRel := hApart.2.2 d hd c List.mem_cons_self
    rw [stop_eq] at hRel
    omega
  have hHi : ∀ d ∈ hi, (((h.setSize c.addr (c.units - n)).setSize cut
      n).setFreep q.addr).mem d.addr = h.mem d.addr := by
    intro d hd
    have hGt := hAfter d hd
    rw [hMem, if_neg (by omega), if_neg (by omega)]
  refine ⟨?_, ?_, ?_, ?_, ?_, ?_, rfl⟩
  · have hNew : Ring base (((h.setSize c.addr (c.units - n)).setSize cut n).setFreep q.addr).mem
        ((lo ++ [q]) ++ ⟨c.addr, c.units - n⟩ :: hi) := by
      refine hRows.splice ?_ rfl ?_ ?_ ?_ ?_ ?_ ?_ ?_ ?_
      · intro hNil
        exact absurd hNil (by simp)
      · rw [hMem, if_neg (Nat.ne_of_lt hIn), if_pos rfl]
      · intro d hd
        have hRel := hBefore d hd
        rw [hMem, if_neg (by omega), if_neg (by omega)]
      · have hOld := hRows.linked
        unfold addrs at hOld
        rw [List.map_append, List.map_cons, Chain.linked_append] at hOld
        refine Chain.Linked.congr hOld.2.2 ?_
        intro a ha
        rcases List.mem_map.mp ha with ⟨d, hd, rfl⟩
        rw [hHi d hd]
      · intro d hd
        rw [hHi d hd]
        exact hRows.sizes d (by simp [hd])
      · refine List.pairwise_cons.mpr ⟨?_, (List.pairwise_cons.mp hApart.2.1).2⟩
        intro d hd
        have hGt := hAfter d hd
        rw [stop_eq] at hGt ⊢
        dsimp only
        omega
      · intro d hd
        have hGt := hAfter d hd
        omega
      · intro _
        dsimp only
        omega
      · intro d hd
        refine hRows.used d (by simp [hd]) ?_
        have hLe := hRows.base_le hcMem
        have hGt := hAfter d hd
        omega
    rw [List.append_assoc] at hNew
    exact hNew
  · intro x
    have hJoin := cover_join c.addr (c.units - n) n x
    rw [Nat.sub_add_cancel (Nat.le_of_lt hLt), hCutAt] at hJoin
    rw [cover_cons, cover_append, cover_cons q, cover_cons,
      cover_append, cover_cons q, cover_cons c, hJoin]
    omega
  · rw [total_cons, total_append, total_cons q, total_cons,
      total_append, total_cons q, total_cons c]
    dsimp only
    omega
  · exact addr_mem_addrs (c := q) (by simp)
  · rw [hMem, if_pos rfl]
  · intro r hr hNodes
    rw [hMem, if_neg hr, if_neg]
    intro hEq
    rw [hEq] at hNodes
    exact hNodes (addr_mem_addrs (by simp))

end

theorem Ring.take {h : Heap} {n prevp : Nat} (hRing : Ring base h.mem nodes)
    (hPrev : prevp ∈ addrs nodes) (hn : 0 < n) (hLe : n ≤ (h.mem (h.mem prevp).ptr).size)
    (hBound : total nodes < 2 ^ 32) :
    ∃ h' b nodes', take h n prevp (h.mem prevp).ptr = (h', headerAt b.addr 1) ∧
      b.units = n ∧ Taken base h h' nodes b nodes' := by
  rcases hRing.before hPrev (by omega) with ⟨lo, q, c, hi, hEq, rfl, hc⟩
  subst hEq
  rw [← hc] at hLe ⊢
  have hSize : (h.mem c.addr).size = c.units := hRing.sizes c (by simp)
  unfold User.take
  dsimp only
  rw [hSize] at hLe ⊢
  by_cases hEq : c.units = n
  · rw [if_pos hEq]
    exact ⟨_, c, _, rfl, hEq, hRing.takeWhole⟩
  · rw [if_neg hEq]
    have hFits : c.units < 2 ^ 32 := by
      rw [total_append, total_cons, total_cons] at hBound
      omega
    exact ⟨_, ⟨headerAt c.addr (c.units - n), n⟩, _, rfl, rfl, hRing.takePart hn (by omega) hFits⟩

end

end Xv6.User

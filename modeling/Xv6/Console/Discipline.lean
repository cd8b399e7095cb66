import Xv6.Console.Console
import Mathlib.Data.List.Count

/-
  The line discipline of the console.

  `Inv` ties the three indices to the history: `r` counts
  the consumed characters, `w` the committed ones, and `e`
  runs at most a buffer ahead of `r`. Each turn of a
  reader's loop keeps it, with the reader's own call held in
  the state (`State.hold`).

  Two readers can share a line that was committed because
  the buffer was full, so a read is one piece of the input
  only in runs where no reader takes characters while
  another one is halfway through a line (`Apart`).

  Main declarations:
    * `Inv.run`
    * `Joined`
    * `line_discipline`
-/

namespace Xv6.Console

open Function (update update_self update_of_ne update_eq_self)

variable {committed : List UInt8} {taken p : Nat} {got : List (Nat × UInt8)} {rd : Read}
variable {s s' : State}

---- Index Arithmetic

theorem toNat_sub_ofNat {a b : Nat} (h : a ≤ b) (hNear : b ≤ a + 128) :
    (UInt32.ofNat b - UInt32.ofNat a).toNat = b - a := by
  rw [← UInt32.ofNat_sub h, UInt32.toNat_ofNat']
  omega

theorem ofNat_succ (i : Nat) : UInt32.ofNat i + 1 = UInt32.ofNat (i + 1) :=
  (UInt32.ofNat_add i 1).symm

theorem ofNat_pred {i : Nat} (h : 0 < i) : UInt32.ofNat i - 1 = UInt32.ofNat (i - 1) :=
  (UInt32.ofNat_sub h).symm

theorem cell_ofNat (i : Nat) : cell (UInt32.ofNat i) = i % 128 := by
  have hSize : INPUT_BUF_SIZE.toNat = 128 := rfl
  rw [cell, UInt32.toNat_mod, UInt32.toNat_ofNat', hSize]
  omega

---- The Invariant

/-
  The bytes of a read stand at their places among the
  committed characters, in order, and a newline ends them.
-/
structure Sourced (committed : List UInt8) (taken : Nat) (got : List (Nat × UInt8)) : Prop where
  place : ∀ x ∈ got, x.1 < taken ∧ committed[x.1]? = some x.2
  order : got.Pairwise (fun x y => x.1 < y.1)
  marks : ∀ x ∈ got, x.2 ≠ CTRL_D
  line : got.Pairwise (fun x _ => x.2 ≠ NEWLINE)

/- A call in progress has not met the end of a line. -/
structure Open (committed : List UInt8) (taken : Nat) (rd : Read) : Prop where
  sourced : Sourced committed taken rd.got
  before : ∀ x ∈ rd.got, x.2 ≠ NEWLINE
  count : rd.n + rd.got.length = rd.target
  pos : 0 < rd.target

structure Inv (s : State) : Prop where
  r : s.cons.r = UInt32.ofNat s.taken
  w : s.cons.w = UInt32.ofNat s.committed.length
  le : s.taken ≤ s.committed.length
  edit : ∃ e, s.cons.e = UInt32.ofNat e ∧ s.committed.length ≤ e ∧ e ≤ s.taken + 128
  cells : ∀ i c, s.taken ≤ i → s.committed[i]? = some c → s.cons.buf (i % 128) = c
  delivered : s.delivered = (s.committed.take s.taken).filter (· ≠ CTRL_D)
  eofs : s.finished.countP (fun d => d.result = 0) = (s.committed.take s.taken).count CTRL_D
  reads : ∀ p rd, s.reads p = some rd → Open s.committed s.taken rd
  finished : ∀ d ∈ s.finished, Sourced s.committed s.taken d.got
  results : ∀ d ∈ s.finished, d.result = -1 ∨ d.result = d.got.length

/- The state with a reader's call as its loop has it. -/
def State.hold (s : State) (p : Nat) (rd : Read) : State :=
  { s with reads := update s.reads p (some rd) }

---- Histories That Grow

theorem Sourced.mono {committed' : List UInt8} {taken' : Nat} (h : Sourced committed taken got)
    (hMore : committed <+: committed') (hTaken : taken ≤ taken') :
    Sourced committed' taken' got where
  place x hx := by
    rcases h.place x hx with ⟨hLt, hGet⟩
    rcases hMore with ⟨more, hEq⟩
    refine ⟨by omega, ?_⟩
    rw [← hEq, List.getElem?_append_left, hGet]
    exact (List.getElem?_eq_some_iff.mp hGet).1
  order := h.order
  marks := h.marks
  line := h.line

theorem Open.mono {committed' : List UInt8} {taken' : Nat} (h : Open committed taken rd)
    (hMore : committed <+: committed') (hTaken : taken ≤ taken') : Open committed' taken' rd :=
  ⟨h.sourced.mono hMore hTaken, h.before, h.count, h.pos⟩

theorem Sourced.snoc {c : UInt8} (h : Sourced committed taken got)
    (hBefore : ∀ x ∈ got, x.2 ≠ NEWLINE) (hGet : committed[taken]? = some c) (hMark : c ≠ CTRL_D) :
    Sourced committed (taken + 1) (got ++ [(taken, c)]) where
  place x hx := by
    rcases List.mem_append.mp hx with hOld | hNew
    · rcases h.place x hOld with ⟨hLt, hAt⟩
      exact ⟨by omega, hAt⟩
    · rw [List.mem_singleton.mp hNew]
      exact ⟨by omega, hGet⟩
  order := by
    rw [List.pairwise_append]
    refine ⟨h.order, List.pairwise_singleton _ _, ?_⟩
    intro x hx y hy
    rw [List.mem_singleton.mp hy]
    exact (h.place x hx).1
  marks x hx := by
    rcases List.mem_append.mp hx with hOld | hNew
    · exact h.marks x hOld
    · rw [List.mem_singleton.mp hNew]
      exact hMark
  line := by
    rw [List.pairwise_append]
    refine ⟨h.line, List.pairwise_singleton _ _, ?_⟩
    intro x hx y _
    exact hBefore x hx

---- Typing

/- A change of the line that is still edited. -/
theorem Inv.set_edit (h : Inv s) {e : Nat} (hLow : s.committed.length ≤ e)
    (hHigh : e ≤ s.taken + 128) :
    Inv { s with
      cons := { s.cons with e := UInt32.ofNat e } } := { h with edit := ⟨e, rfl, hLow, hHigh⟩ }

/- Killing a line moves the edit index, down to `w` at most. -/
theorem killLine_spec (fuel : Nat) {cons : Cons} {low e : Nat} (hW : cons.w = UInt32.ofNat low)
    (hE : cons.e = UInt32.ofNat e) (hLow : low ≤ e) (hNear : e ≤ low + 128) :
    ∃ e', killLine fuel cons = { cons with e := UInt32.ofNat e' } ∧ low ≤ e' ∧ e' ≤ e := by
  induction fuel generalizing cons e with
  | zero =>
    refine ⟨e, ?_, hLow, Nat.le_refl e⟩
    rw [← hE]
    rfl
  | succ fuel ih =>
    unfold killLine
    split
    · rename_i hMore
      have hLt : low < e := by
        apply Nat.lt_of_le_of_ne hLow
        intro hEq
        exact hMore.1 (by rw [hE, hW, hEq])
      let back : Cons := { cons with e := cons.e - 1 }
      have hWidth : back.w = UInt32.ofNat low := hW
      have hPred : back.e = UInt32.ofNat (e - 1) := by
        change cons.e - 1 = UInt32.ofNat (e - 1)
        rw [hE, ofNat_pred (by omega)]
      rcases ih hWidth hPred (by omega) (by omega) with ⟨e', hEq, hLow', hHigh'⟩
      exact ⟨e', hEq, hLow', by omega⟩
    · refine ⟨e, ?_, hLow, Nat.le_refl e⟩
      rw [← hE]

/- A character goes behind the line that is edited. -/
theorem Inv.store (h : Inv s) (c : UInt8) (hRoom : s.cons.e - s.cons.r < INPUT_BUF_SIZE) :
    Inv { s with cons := s.cons.store c } := by
  rcases h.edit with ⟨e, hE, hLow, hHigh⟩
  have hLe := h.le
  have hLt : e < s.taken + 128 := by
    rw [UInt32.lt_iff_toNat_lt, hE, h.r, toNat_sub_ofNat (by omega) (by omega)] at hRoom
    have hSize : INPUT_BUF_SIZE.toNat = 128 := rfl
    omega
  refine { h with edit := ?_, cells := ?_ }
  · refine ⟨e + 1, ?_, Nat.le_succ_of_le hLow, hLt⟩
    change s.cons.e + 1 = _
    rw [hE, ofNat_succ]
  · intro i b (hi : s.taken ≤ i)
      (hGet : s.committed[i]? = some b)
    have hIn := (List.getElem?_eq_some_iff.mp hGet).1
    change update s.cons.buf (cell s.cons.e) c (i % 128) = b
    rw [hE, cell_ofNat, update_of_ne]
    · exact h.cells i b hi hGet
    · omega

/- The characters a commit adds, each in its cell. -/
theorem Inv.line_getElem? (h : Inv s) {e : Nat} (hE : s.cons.e = UInt32.ofNat e)
    (hLow : s.committed.length ≤ e) (hHigh : e ≤ s.taken + 128) (i : Nat) :
    s.cons.line[i]? =
      if s.committed.length + i < e then
        some (s.cons.buf ((s.committed.length + i) % 128))
      else
        none := by
  have hLe := h.le
  unfold Cons.line
  rw [hE, h.w, toNat_sub_ofNat hLow (by omega), List.getElem?_map]
  split
  · rw [List.getElem?_range (by omega), Option.map_some, ← UInt32.ofNat_add, cell_ofNat]
  · rw [List.getElem?_eq_none (by simp; omega)]
    rfl

theorem Inv.commit (h : Inv s) : Inv s.commit := by
  rcases h.edit with ⟨e, hE, hLow, hHigh⟩
  have hLe := h.le
  have hLine := h.line_getElem? hE hLow hHigh
  have hLen : (s.committed ++ s.cons.line).length = e := by
    rw [List.length_append]
    unfold Cons.line
    rw [hE, h.w, toNat_sub_ofNat hLow (by omega)]
    simp
    omega
  have hTake : (s.committed ++ s.cons.line).take s.taken = s.committed.take s.taken :=
    List.take_append_of_le_length hLe
  exact
    { r := h.r
      w := by
        change s.cons.e = UInt32.ofNat _
        rw [hE]
        exact congrArg UInt32.ofNat hLen.symm
      le := by
        change s.taken ≤ (s.committed ++ s.cons.line).length
        omega
      edit := ⟨e, hE, Nat.le_of_eq hLen, hHigh⟩
      cells := by
        intro i c hi hGet
        change (s.committed ++ s.cons.line)[i]? = some c at hGet
        by_cases hOld : i < s.committed.length
        · rw [List.getElem?_append_left hOld] at hGet
          exact h.cells i c hi hGet
        · rw [List.getElem?_append_right (by omega), hLine]
            at hGet
          have hAt : s.committed.length + (i - s.committed.length) = i := by omega
          rw [hAt] at hGet
          split at hGet
          · exact Option.some.inj hGet
          · cases hGet
      delivered := by
        change s.delivered = _
        rw [h.delivered]
        exact congrArg (List.filter _) hTake.symm
      eofs := by
        change s.finished.countP _ = _
        rw [h.eofs]
        exact congrArg (List.count _) hTake.symm
      reads := fun p rd hRead =>
        (h.reads p rd hRead).mono (List.prefix_append _ _) (Nat.le_refl _)
      finished := fun d hd =>
        (h.finished d hd).mono (List.prefix_append _ _) (Nat.le_refl _)
      results := h.results }

theorem Inv.consoleintr (h : Inv s) (c : UInt8) : Inv (consoleintr c s) := by
  rcases h.edit with ⟨e, hE, hLow, hHigh⟩
  have hLe := h.le
  unfold Console.consoleintr
  split
  · exact h
  split
  · rcases killLine_spec (s.cons.e - s.cons.w).toNat h.w hE
        hLow (by omega) with ⟨e', hEq, hLow', hHigh'⟩
    rw [hEq]
    exact h.set_edit hLow' (by omega)
  split
  · split
    · rename_i hMore
      have hLt : s.committed.length < e := by
        apply Nat.lt_of_le_of_ne hLow
        intro hEq
        exact hMore (by rw [hE, h.w, hEq])
      rw [hE, ofNat_pred (by omega)]
      exact h.set_edit (by omega) (by omega)
    · exact h
  split
  · rename_i hRoom
    have hStored := h.store (if c = RETURN then NEWLINE else c) hRoom.2
    dsimp only
    generalize (if c = RETURN then NEWLINE else c) = b at hStored ⊢
    split
    · exact hStored.commit
    · exact hStored
  · exact h

---- Reading

@[simp] theorem advance_back (s : State) : s.advance.back = s := by
  have hR : s.cons.r + 1 - 1 = s.cons.r := UInt32.add_sub_cancel _ _
  simp [State.advance, State.back, hR]

/- The character a reader finds is the next committed one. -/
theorem Inv.next (h : Inv s) (hMore : s.cons.r ≠ s.cons.w) :
    s.taken < s.committed.length ∧ s.committed[s.taken]? = some (s.cons.buf (cell s.cons.r)) := by
  have hLe := h.le
  have hLt : s.taken < s.committed.length := by
    apply Nat.lt_of_le_of_ne hLe
    intro hEq
    exact hMore (by rw [h.r, h.w, hEq])
  refine ⟨hLt, ?_⟩
  have hGet := List.getElem?_eq_getElem hLt
  rw [h.r, cell_ofNat, h.cells _ _ (Nat.le_refl _) hGet, hGet]

/-
  The read index moves past a character. What was delivered
  and how many calls returned 0 must account for it.
-/
theorem Inv.advance (h : Inv s) {c : UInt8} (hLt : s.taken < s.committed.length)
    (hGet : s.committed[s.taken]? = some c) {delivered : List UInt8}
    (hDelivered : delivered = s.delivered ++ [c].filter (· ≠ CTRL_D)) {finished : List Done}
    (hEofs : finished.countP (fun d => d.result = 0) =
        s.finished.countP (fun d => d.result = 0) + [c].count CTRL_D)
    (hFinished : ∀ d ∈ finished, Sourced s.committed (s.taken + 1) d.got)
    (hResults : ∀ d ∈ finished, d.result = -1 ∨ d.result = d.got.length) {reads : Nat → Option Read}
    (hReads : ∀ p rd, reads p = some rd → Open s.committed (s.taken + 1) rd) :
    Inv
      { cons := { s.cons with r := s.cons.r + 1 }
        reads := reads
        committed := s.committed
        taken := s.taken + 1
        delivered := delivered
        finished := finished } := by
  rcases h.edit with ⟨e, hE, hLow, hHigh⟩
  have hTake : s.committed.take (s.taken + 1) = s.committed.take s.taken ++ [c] := by
    rw [List.take_add_one, hGet]
    rfl
  exact
    { r := by
        change s.cons.r + 1 = UInt32.ofNat (s.taken + 1)
        rw [h.r, ofNat_succ]
      w := h.w
      le := hLt
      edit := ⟨e, hE, hLow, Nat.le_succ_of_le hHigh⟩
      cells := fun i c hi =>
        h.cells i c (Nat.le_of_succ_le hi)
      delivered := by
        change delivered = _
        rw [hDelivered, hTake, List.filter_append, h.delivered]
      eofs := by
        change finished.countP _ = _
        rw [hEofs, hTake, List.count_append, h.eofs]
      reads := hReads
      finished := hFinished
      results := hResults }

/- A call returns without taking another character. -/
theorem Inv.finish (h : Inv (s.hold p rd)) {result : Int} (hResult : result ≠ 0)
    (hCount : result = -1 ∨ result = rd.got.length) : Inv (s.finish p rd.got result) := by
  have hRd : Open s.committed s.taken rd := h.reads p rd (update_self p _ s.reads)
  refine { h with
      eofs := ?_
      reads := ?_
      finished := ?_
      results := ?_ }
  · refine Eq.trans ?_ h.eofs
    change (s.finished ++ [_]).countP _ = s.finished.countP _
    simp [List.countP_append, hResult]
  · intro q rdq hRead
    change update s.reads p none q = some rdq at hRead
    by_cases hq : q = p
    · rw [hq, update_self] at hRead
      cases hRead
    · rw [update_of_ne hq] at hRead
      apply h.reads q rdq
      exact (update_of_ne hq _ _).trans hRead
  · intro d hd
    change d ∈ s.finished ++ [_] at hd
    rcases List.mem_append.mp hd with hOld | hNew
    · exact h.finished d hOld
    · rw [List.mem_singleton.mp hNew]
      exact hRd.sourced
  · intro d hd
    rcases List.mem_append.mp hd with hOld | hNew
    · exact h.results d hOld
    · rw [List.mem_singleton.mp hNew]
      exact hCount

/- What a reader leaves when it gives up the lock. -/
def Leaves (p target : Nat) : Outcome × State → Prop
  | (.sleep n got, s) => Inv (s.hold p ⟨target, n, got⟩)
  | (.done n got, s) => Inv (s.finish p got (target - n))

theorem Inv.reads_update (h : Inv (s.hold p rd)) {next : Option Read}
    (hNext : ∀ x ∈ next, Open s.committed (s.taken + 1) x) (q : Nat) (x : Read)
    (hRead : update s.reads p next q = some x) : Open s.committed (s.taken + 1) x := by
  by_cases hq : q = p
  · rw [hq, update_self] at hRead
    exact hNext x hRead
  · rw [update_of_ne hq] at hRead
    have hOpen := h.reads q x ((update_of_ne hq _ _).trans hRead)
    exact hOpen.mono (List.prefix_refl _) (Nat.le_succ _)

theorem Inv.finished_later (h : Inv s) (d : Done) (hd : d ∈ s.finished) :
    Sourced s.committed (s.taken + 1) d.got :=
  (h.finished d hd).mono (List.prefix_refl _) (Nat.le_succ _)

/-
  The loop keeps the invariant, turn by turn: with its call
  held in the state, every turn is a character moved, and
  the last one also returns.
-/
theorem Inv.readLoop (p target : Nat) (n : Nat) (h : Inv (s.hold p ⟨target, n, got⟩)) :
    Leaves p target (readLoop target n got s) := by
  induction n generalizing got s with
  | zero =>
    have hRd := h.reads p _ (update_self p _ _)
    have hPos : 0 < target := hRd.pos
    have hCount : 0 + got.length = target := hRd.count
    apply h.finish
    · omega
    · simp only
      omega
  | succ n ih =>
    have hRd := h.reads p _ (update_self p _ _)
    have hCount : n + 1 + got.length = target := hRd.count
    unfold Console.readLoop
    split
    · exact h
    rename_i hMore
    rcases h.next hMore with ⟨hLt, hGet⟩
    change s.committed[s.taken]? = some (s.cons.buf (cell s.cons.r)) at hGet
    dsimp only
    generalize s.cons.buf (cell s.cons.r) = c at hGet ⊢
    split
    · rename_i hMark
      split
      · rw [advance_back]
        apply h.finish
        · omega
        · simp only
          omega
      -- The mark is the first character of the call.
      rename_i hFirst
      have hNil : got = [] := List.length_eq_zero_iff.mp (by omega)
      have hZero : ((target : Int) - ((n : Int) + 1)) = 0 := by omega
      apply h.advance hLt hGet
      · rw [hMark]
        exact (List.append_nil _).symm
      · rw [hMark]
        simp [State.advance, State.hold, List.countP_append, hZero]
      · intro d hd
        rcases List.mem_append.mp hd with hOld | hNew
        · exact h.finished_later d hOld
        · rw [List.mem_singleton.mp hNew, hNil]
          exact ⟨by simp, by simp, by simp, by simp⟩
      · intro d hd
        rcases List.mem_append.mp hd with hOld | hNew
        · exact h.results d hOld
        · rw [List.mem_singleton.mp hNew, hNil]
          exact Or.inr hZero
      · exact h.reads_update (by simp)
    · rename_i hMark
      have hSourced := hRd.sourced.snoc hRd.before hGet hMark
      have hDelivered : s.delivered ++ [c] =
          (s.hold p ⟨target, n + 1, got⟩).delivered ++ [c].filter (· ≠ CTRL_D) := by
        simp [State.hold, hMark]
      have hNone : [c].count CTRL_D = 0 := by simp [hMark]
      split
      · apply h.advance hLt hGet hDelivered
        · have hPos : (target : Int) - n ≠ 0 := by omega
          simp [State.advance, State.hold, State.deliver, List.countP_append, hPos, hNone]
        · intro d hd
          rcases List.mem_append.mp hd with hOld | hNew
          · exact h.finished_later d hOld
          · rw [List.mem_singleton.mp hNew]
            exact hSourced
        · intro d hd
          rcases List.mem_append.mp hd with hOld | hNew
          · exact h.results d hOld
          · rw [List.mem_singleton.mp hNew]
            right
            simp only [List.length_append, List.length_singleton]
            omega
        · exact h.reads_update (by simp)
      · rename_i hOpen
        apply ih
        apply h.advance hLt hGet hDelivered
        · simp [State.advance, State.hold, State.deliver, hNone]
        · exact h.finished_later
        · exact h.results
        apply h.reads_update
        intro x hx
        rw [← Option.some.inj hx]
        refine ⟨hSourced, ?_, ?_, hRd.pos⟩
        · intro y hy
          rcases List.mem_append.mp hy with hOld | hNew
          · exact hRd.before y hOld
          · rw [List.mem_singleton.mp hNew]
            exact hOpen
        · change n + (got ++ [(s.taken, c)]).length = target
          rw [List.length_append, List.length_singleton]
          omega

/- A reader's turn, from its call to its sleep or return. -/
theorem Inv.consoleread (h : Inv (s.hold p rd)) (killed : Bool) :
    Inv (consoleread p killed rd s) := by
  have hLeaves := h.readLoop p rd.target rd.n
  unfold Console.consoleread
  generalize Console.readLoop rd.target rd.n rd.got s = r at hLeaves ⊢
  rcases r with ⟨_ | _, s'⟩
  · dsimp only
    split
    · exact hLeaves.finish (by omega) (Or.inl rfl)
    · exact hLeaves
  · exact hLeaves

/- Taking up a call that is in progress changes nothing. -/
theorem hold_of_reads (h : s.reads p = some rd) : s.hold p rd = s := by
  unfold State.hold
  rw [← h, update_eq_self]

theorem Inv.step {ev : Event} (h : Inv s) (hStep : step s ev = some s') : Inv s' := by
  cases ev with
  | intr c =>
    rw [← Option.some.inj hStep]
    exact h.consoleintr c
  | read p n killed =>
    simp only [Console.step] at hStep
    split at hStep
    · rename_i hCall
      rw [← Option.some.inj hStep]
      apply Inv.consoleread
      refine { h with reads := ?_ }
      intro q rd hRead
      change update s.reads p _ q = some rd at hRead
      by_cases hq : q = p
      · rw [hq, update_self] at hRead
        rw [← Option.some.inj hRead]
        exact ⟨⟨by simp, by simp, by simp, by simp⟩, by simp, by simp, hCall.2.1⟩
      · rw [update_of_ne hq] at hRead
        exact h.reads q rd hRead
    · cases hStep
  | resume p killed =>
    simp only [Console.step, Option.map_eq_some_iff] at hStep
    rcases hStep with ⟨rd, hRead, hEq⟩
    rw [← hEq]
    apply Inv.consoleread
    rw [hold_of_reads hRead]
    exact h

theorem Inv.boot : Inv boot where
  r := rfl
  w := rfl
  le := Nat.le_refl 0
  edit := ⟨0, rfl, Nat.le_refl 0, by decide⟩
  cells i c _ hGet := by
    cases hGet
  delivered := rfl
  eofs := rfl
  reads p rd hRead := by
    cases hRead
  finished d hd := by
    cases hd
  results d hd := by
    cases hd

theorem Inv.run {evs : List Event} (h : Inv s) (hRun : run s evs = some s') : Inv s' := by
  induction evs generalizing s with
  | nil =>
    rw [← Option.some.inj hRun]
    exact h
  | cons ev evs ih =>
    simp only [Console.run] at hRun
    split at hRun
    · cases hRun
    · rename_i hStep
      exact ih (h.step hStep) hRun

---- Readers That Take Turns

/- No call but that of `p` is halfway through a line. -/
def Alone (s : State) (p : Nat) : Prop := ∀ q rd, q ≠ p → s.reads q = some rd → rd.got = []

/- No reader takes characters while another one that has already taken some is asleep. -/
def Apart (s : State) : Event → Prop
  | .intr _ => True
  | .read p _ _ => Alone s p
  | .resume p _ => Alone s p

/- Every step of a run finds its reader alone. -/
def RunApart : State → List Event → Prop
  | _, [] => True
  | s, ev :: evs => Apart s ev ∧ ∀ s', step s ev = some s' → RunApart s' evs

/- The bytes of a read stand next to each other. -/
def Contiguous (first : Nat) (got : List (Nat × UInt8)) : Prop :=
  got.map Prod.fst = List.range' first got.length

/-
  Every call has taken one piece of the input, and the piece
  of a call in progress ends where the next one starts.
-/
structure Joined (s : State) : Prop where
  reads : ∀ p rd, s.reads p = some rd → rd.got ≠ [] → ∃ first,
    first + rd.got.length = s.taken ∧ Contiguous first rd.got
  finished : ∀ d ∈ s.finished, ∃ first, Contiguous first d.got

theorem Contiguous.snoc {first place : Nat} (h : Contiguous first got)
    (hPlace : first + got.length = place) (c : UInt8) : Contiguous first (got ++ [(place, c)]) := by
  unfold Contiguous at *
  rw [List.map_append, h, List.length_append,
    List.length_singleton, List.range'_concat, Nat.one_mul, hPlace]
  rfl

/- A single byte, or one more at the end of a piece. -/
theorem Joined.snoc {target n : Nat} (h : Joined (s.hold p ⟨target, n, got⟩)) (c : UInt8) :
    ∃ first, first + (got ++ [(s.taken, c)]).length = s.taken + 1 ∧
      Contiguous first (got ++ [(s.taken, c)]) := by
  by_cases hNil : got = []
  · rw [hNil]
    exact ⟨s.taken, rfl, rfl⟩
  · rcases h.reads p _ (update_self p _ _) hNil
      with ⟨first, hEnd, hPiece⟩
    refine ⟨first, ?_, hPiece.snoc hEnd c⟩
    change first + got.length = s.taken at hEnd
    rw [List.length_append, List.length_singleton]
    omega

theorem Joined.piece {target n : Nat} (h : Joined (s.hold p ⟨target, n, got⟩)) :
    ∃ first, Contiguous first got := by
  by_cases hNil : got = []
  · rw [hNil]
    exact ⟨0, rfl⟩
  · rcases h.reads p _ (update_self p _ _) hNil
      with ⟨first, _, hPiece⟩
    exact ⟨first, hPiece⟩

/- A reader that is alone returns with its piece. -/
theorem Joined.finish {target n : Nat} {got' : List (Nat × UInt8)}
    (h : Joined (s.hold p ⟨target, n, got⟩)) (s' : State) (hAlone : Alone s p)
    (hReads : s'.reads = s.reads) (hFinished : s'.finished = s.finished)
    (hPiece : ∃ first, Contiguous first got') (result : Int) :
    Joined (s'.finish p got' result) where
  reads q rd hRead hGot := by
    change update s'.reads p none q = some rd at hRead
    by_cases hq : q = p
    · rw [hq, update_self] at hRead
      cases hRead
    · rw [update_of_ne hq, hReads] at hRead
      exact absurd (hAlone q rd hq hRead) hGot
  finished d hd := by
    change d ∈ s'.finished ++ [_] at hd
    rw [hFinished] at hd
    rcases List.mem_append.mp hd with hOld | hNew
    · exact h.finished d hOld
    · rw [List.mem_singleton.mp hNew]
      exact hPiece

def JoinedLeaves (p target : Nat) : Outcome × State → Prop
  | (.sleep n got, s) => Joined (s.hold p ⟨target, n, got⟩) ∧ Alone s p
  | (.done n got, s) => Joined (s.finish p got (target - n))

/- One induction over the turns of the loop, as above. -/
theorem Joined.readLoop (p target : Nat) (n : Nat) (h : Joined (s.hold p ⟨target, n, got⟩))
    (hAlone : Alone s p) : JoinedLeaves p target (readLoop target n got s) := by
  induction n generalizing got s with
  | zero => exact h.finish s hAlone rfl rfl h.piece _
  | succ n ih =>
    unfold Console.readLoop
    split
    · exact ⟨h, hAlone⟩
    dsimp only
    generalize s.cons.buf (cell s.cons.r) = c
    split
    · split
      · exact h.finish s.advance.back hAlone rfl rfl h.piece _
      · exact h.finish s.advance hAlone rfl rfl h.piece _
    rcases h.snoc c with ⟨first, hEnd, hPiece⟩
    split
    · exact h.finish (s.advance.deliver c) hAlone rfl rfl ⟨first, hPiece⟩ _
    apply ih
    · refine ⟨?_, h.finished⟩
      intro q rd hRead hGot
      change update s.reads p _ q = some rd at hRead
      by_cases hq : q = p
      · rw [hq, update_self] at hRead
        rw [← Option.some.inj hRead]
        exact ⟨first, hEnd, hPiece⟩
      · rw [update_of_ne hq] at hRead
        exact absurd (hAlone q rd hq hRead) hGot
    · exact hAlone

theorem Joined.consoleread (h : Joined (s.hold p rd)) (hAlone : Alone s p) (killed : Bool) :
    Joined (consoleread p killed rd s) := by
  have hLeaves := h.readLoop p rd.target rd.n hAlone
  unfold Console.consoleread
  generalize Console.readLoop rd.target rd.n rd.got s = r at hLeaves ⊢
  rcases r with ⟨_ | _, s'⟩
  · rcases hLeaves with ⟨hHeld, hStill⟩
    dsimp only
    split
    · exact hHeld.finish s' hStill rfl rfl hHeld.piece _
    · exact hHeld
  · exact hLeaves

/- Typing takes no characters. -/
theorem consoleintr_frame (c : UInt8) (s : State) :
    (consoleintr c s).reads = s.reads ∧
      (consoleintr c s).finished = s.finished ∧ (consoleintr c s).taken = s.taken := by
  unfold consoleintr State.commit
  dsimp only
  split
  · exact ⟨rfl, rfl, rfl⟩
  split
  · exact ⟨rfl, rfl, rfl⟩
  split
  · split <;> exact ⟨rfl, rfl, rfl⟩
  split
  · generalize (if c = RETURN then NEWLINE else c) = b
    split <;> exact ⟨rfl, rfl, rfl⟩
  · exact ⟨rfl, rfl, rfl⟩

theorem Joined.step {ev : Event} (h : Joined s) (hApart : Apart s ev) (hStep : step s ev = some s') :
    Joined s' := by
  cases ev with
  | intr c =>
    rw [← Option.some.inj hStep]
    rcases consoleintr_frame c s with ⟨hReads, hFinished, hTaken⟩
    refine ⟨?_, ?_⟩
    · rw [hReads, hTaken]
      exact h.reads
    · rw [hFinished]
      exact h.finished
  | read p n killed =>
    simp only [Console.step] at hStep
    split at hStep
    · rw [← Option.some.inj hStep]
      apply Joined.consoleread _ hApart
      refine ⟨?_, h.finished⟩
      intro q rd hRead hGot
      change update s.reads p _ q = some rd at hRead
      by_cases hq : q = p
      · rw [hq, update_self] at hRead
        rw [← Option.some.inj hRead] at hGot
        exact absurd rfl hGot
      · rw [update_of_ne hq] at hRead
        exact h.reads q rd hRead hGot
    · cases hStep
  | resume p killed =>
    simp only [Console.step, Option.map_eq_some_iff] at hStep
    rcases hStep with ⟨rd, hRead, hEq⟩
    rw [← hEq]
    apply Joined.consoleread _ hApart
    rw [hold_of_reads hRead]
    exact h

theorem Joined.run {evs : List Event} (h : Joined s) (hApart : RunApart s evs)
    (hRun : run s evs = some s') : Joined s' := by
  induction evs generalizing s with
  | nil =>
    rw [← Option.some.inj hRun]
    exact h
  | cons ev evs ih =>
    simp only [Console.run] at hRun
    split at hRun
    · cases hRun
    · rename_i hStep
      exact ih (h.step hApart.1 hStep) (hApart.2 _ hStep) hRun

---- Main Results

/- No newline and no control-d stands among the committed characters between two bytes of a read. -/
def Within (committed : List UInt8) (got : List (Nat × UInt8)) : Prop :=
  ∀ x ∈ got, ∀ y ∈ got, ∀ i c, x.1 ≤ i → i < y.1 → committed[i]? = some c → c ≠ NEWLINE ∧ c ≠ CTRL_D

/- A newline among the bytes of a read is its last byte. -/
theorem Sourced.before (h : Sourced committed taken got) {x y : Nat × UInt8} (hx : x ∈ got)
    (hy : y ∈ got) (hLt : x.1 < y.1) : x.2 ≠ NEWLINE := by
  rcases List.getElem_of_mem hx with ⟨i, hi, hxi⟩
  rcases List.getElem_of_mem hy with ⟨j, hj, hyj⟩
  have hOrder := List.pairwise_iff_getElem.mp h.order
  have hLine := List.pairwise_iff_getElem.mp h.line
  rcases Nat.lt_trichotomy i j with hij | hij | hij
  · rw [← hxi]
    exact hLine i j hi hj hij
  · subst hij
    rw [← hxi, ← hyj] at hLt
    omega
  · have hGt := hOrder j i hj hi hij
    rw [hxi, hyj] at hGt
    omega

theorem Contiguous.within {first : Nat} (hPiece : Contiguous first got)
    (h : Sourced committed taken got) : Within committed got := by
  intro x hx y hy i c hLow hHigh hGet
  have hPlace : ∀ z ∈ got,
      first ≤ z.1 ∧ z.1 < first + got.length := by
    intro z hz
    have hMem : z.1 ∈ got.map Prod.fst := List.mem_map_of_mem hz
    rw [hPiece, List.mem_range'_1] at hMem
    exact hMem
  have hBetween : i ∈ got.map Prod.fst := by
    have hFirst := hPlace x hx
    have hLast := hPlace y hy
    rw [hPiece, List.mem_range'_1]
    omega
  rcases List.mem_map.mp hBetween with ⟨z, hz, hzi⟩
  have hByte := (h.place z hz).2
  rw [hzi, hGet] at hByte
  rw [Option.some.inj hByte]
  refine ⟨h.before hz hy (by omega), h.marks z hz⟩

/- The unread characters stand in the ring. -/
theorem Inv.pending (h : Inv s) :
    s.committed.drop s.taken = (List.range (s.cons.w - s.cons.r).toNat).map (fun i =>
      s.cons.buf (cell (s.cons.r + UInt32.ofNat i))) := by
  rcases h.edit with ⟨e, hE, hLow, hHigh⟩
  have hLe := h.le
  rw [h.w, h.r, toNat_sub_ofNat hLe (by omega)]
  apply List.ext_getElem?
  intro i
  rw [List.getElem?_drop, List.getElem?_map]
  by_cases hi : s.taken + i < s.committed.length
  · have hGet := List.getElem?_eq_getElem hi
    rw [List.getElem?_range (by omega), hGet, Option.map_some, ← UInt32.ofNat_add, cell_ofNat,
      h.cells _ _ (by omega) hGet]
  · rw [List.getElem?_eq_none (by omega), List.getElem?_eq_none (by simp; omega)]
    rfl

theorem Inv.indices (h : Inv s) :
    s.cons.w - s.cons.r ≤ s.cons.e - s.cons.r ∧ s.cons.e - s.cons.r ≤ INPUT_BUF_SIZE := by
  rcases h.edit with ⟨e, hE, hLow, hHigh⟩
  have hLe := h.le
  have hSize : INPUT_BUF_SIZE.toNat = 128 := rfl
  rw [UInt32.le_iff_toNat_le, UInt32.le_iff_toNat_le, hE, h.w, h.r, toNat_sub_ofNat hLe (by omega),
    toNat_sub_ofNat (by omega) (by omega), hSize]
  omega

/- Editing leaves the ring and what is committed in it. -/
theorem consoleintr_edit (h : Inv s) {c : UInt8} (hc : c = CTRL_U ∨ c = CTRL_H ∨ c = DELETE) :
    ∃ e, consoleintr c s = { s with cons := { s.cons with e := e } } := by
  rcases h.edit with ⟨e, hE, hLow, hHigh⟩
  have hLe := h.le
  have hP : c ≠ CTRL_P := by
    rcases hc with rfl | rfl | rfl <;> decide
  unfold consoleintr
  rw [if_neg hP]
  split
  · rcases killLine_spec (s.cons.e - s.cons.w).toNat h.w hE hLow (by omega) with ⟨e', hEq, _, _⟩
    exact ⟨_, by rw [hEq]⟩
  · rename_i hU
    rw [if_pos (hc.resolve_left hU)]
    split
    · exact ⟨_, rfl⟩
    · exact ⟨s.cons.e, rfl⟩

theorem Joined.boot : Joined boot where
  reads p rd hRead := by
    cases hRead
  finished d hd := by
    cases hd

/- What holds after every run of readers and typed characters. -/
structure Disciplined (s : State) : Prop where
  order : s.cons.w - s.cons.r ≤ s.cons.e - s.cons.r
  bound : s.cons.e - s.cons.r ≤ INPUT_BUF_SIZE
  editing : ∀ c, c = CTRL_U ∨ c = CTRL_H ∨ c = DELETE →
    (consoleintr c s).cons.buf = s.cons.buf ∧
    (consoleintr c s).cons.r = s.cons.r ∧
    (consoleintr c s).cons.w = s.cons.w ∧
    s.cons.w - s.cons.r ≤ (consoleintr c s).cons.e - s.cons.r
  taken : s.taken ≤ s.committed.length
  pending :
    s.committed.drop s.taken = (List.range (s.cons.w - s.cons.r).toNat).map (fun i =>
      s.cons.buf (cell (s.cons.r + UInt32.ofNat i)))
  delivered : s.delivered = (s.committed.take s.taken).filter (· ≠ CTRL_D)
  eofs :
    s.finished.countP (fun d => d.result = 0) = (s.committed.take s.taken).count CTRL_D
  reads : ∀ d ∈ s.finished,
    Sourced s.committed s.taken d.got ∧ (d.result = -1 ∨ d.result = d.got.length)

/-
  In every run the indices keep their order, editing leaves
  what is committed, readers get the committed characters
  in order without the control-d marks, each consumed mark
  makes one call return 0, and a newline ends a read. Where
  no reader takes characters while another one is halfway
  through a line, no read reaches beyond a newline or a
  control-d.
-/
theorem line_discipline
    (evs : List Event)
    {s : State}
    (hRun : run boot evs = some s) :
    Disciplined s ∧
      (RunApart boot evs → ∀ d ∈ s.finished, Within s.committed d.got) := by
  have hInv := Inv.boot.run hRun
  refine ⟨⟨hInv.indices.1, hInv.indices.2, ?_, hInv.le, hInv.pending, hInv.delivered, hInv.eofs,
    fun d hd => ⟨hInv.finished d hd, hInv.results d hd⟩⟩, ?_⟩
  · intro c hc
    have hNext := (hInv.consoleintr c).indices.1
    rcases consoleintr_edit hInv hc with ⟨e, hEq⟩
    rw [hEq] at hNext ⊢
    exact ⟨rfl, rfl, rfl, hNext⟩
  · intro hApart d hd
    rcases (Joined.boot.run hApart hRun).finished d hd with ⟨first, hPiece⟩
    exact hPiece.within (hInv.finished d hd)

/-
  Process 0 waits for a line. Process 1 takes the first one,
  and process 0 the second one.
-/
def twoLines : List Event :=
  [.read 0 16 false, .intr 104, .intr RETURN, .read 1 16 false, .intr 105, .intr RETURN,
    .resume 0 false]

theorem twoLines_apart : RunApart boot twoLines := by
  refine ⟨by rintro q rd hq ⟨⟩, ?_⟩
  rintro _ ⟨⟩
  refine ⟨trivial, ?_⟩
  rintro _ ⟨⟩
  refine ⟨trivial, ?_⟩
  rintro _ ⟨⟩
  refine ⟨?_, ?_⟩
  · -- Process 0 has no character yet.
    intro q rd hq hRead
    change update boot.reads 0 (some ⟨16, 16, []⟩) q = some rd at hRead
    by_cases hZero : q = 0
    · rw [hZero, update_self] at hRead
      cases hRead
      rfl
    · rw [update_of_ne hZero] at hRead
      cases hRead
  rintro _ ⟨⟩
  refine ⟨trivial, ?_⟩
  rintro _ ⟨⟩
  refine ⟨trivial, ?_⟩
  rintro _ ⟨⟩
  refine ⟨?_, fun _ _ => trivial⟩
  intro q rd hq hRead
  change update (update boot.reads 0 (some ⟨16, 16, []⟩)) 1 none q = some rd at hRead
  by_cases hOne : q = 1
  · rw [hOne, update_self] at hRead
    cases hRead
  · rw [update_of_ne hOne, update_of_ne hq] at hRead
    cases hRead

theorem line_discipline_twoLines :
    ∃ s,
      run boot twoLines = some s ∧
      s.finished.map (fun d => (d.proc, d.result)) = [(1, 2), (0, 2)] ∧
      s.delivered = [104, 10, 105, 10] ∧
      s.delivered = (s.committed.take s.taken).filter (· ≠ CTRL_D) ∧
      ∀ d ∈ s.finished, Within s.committed d.got := by
  refine ⟨_, rfl, rfl, rfl, ?_⟩
  have hBoth := line_discipline twoLines rfl
  exact ⟨hBoth.1.delivered, hBoth.2 twoLines_apart⟩

/-
  Process 0 takes a full buffer without a newline and waits
  for the rest of its line. Process 1 takes the newline, and
  process 0 goes on with the next line.
-/
def sharedLine : List Event :=
  .read 0 200 false ::
    (List.replicate 128 (.intr 97) ++
      [.resume 0 false, .intr RETURN, .read 1 1 false, .intr 98, .intr RETURN, .resume 0 false])

theorem read_beyond_newline :
    ∃ s, run boot sharedLine = some s ∧ ∃ d ∈ s.finished, ¬ Within s.committed d.got := by
  have hEval : (run boot sharedLine).map (fun s =>
        (s.committed[128]?, s.finished.map (fun d => (d.got[0]?, d.got[128]?)))) =
      some (some NEWLINE, [(some (128, NEWLINE), none), (some (0, 97), some (129, 98))]) := by
    decide +kernel
  rcases Option.map_eq_some_iff.mp hEval with ⟨s, hRun, hs⟩
  rw [Prod.mk.injEq] at hs
  rcases hs with ⟨hNewline, hReads⟩
  have hMem :
      (some (0, 97), some (129, 98)) ∈ s.finished.map (fun d => (d.got[0]?, d.got[128]?)) := by
    rw [hReads]
    simp
  rcases List.mem_map.mp hMem with ⟨d, hd, hGot⟩
  rw [Prod.mk.injEq] at hGot
  refine ⟨s, hRun, d, hd, ?_⟩
  intro hWithin
  have hFirst := List.mem_of_getElem? hGot.1
  have hLast := List.mem_of_getElem? hGot.2
  exact (hWithin _ hFirst _ hLast 128 NEWLINE (by decide) (by decide) hNewline).1 rfl

end Xv6.Console

import Mathlib.Tactic.Common

/-
  The program `grep` (`grep.c`).

  A string is the list of its bytes before the NUL, so
  `re[0] == '\0'` asks for the empty list. A pattern is read
  as a list of items, and `Lang` says which words a list of
  items has, in front of the rest of a text.

  The buffer of `grep` is the list of the bytes carried over.
  A `read` returns some of the bytes that are left, at least
  one if there are any and there is room.

  Main declarations:
    * `match_iff`
    * `grep_eq`
    * `grep_prints_iff`
-/

namespace Xv6.User.Grep

variable {c : UInt8} {s re : List UInt8}

---- The Matcher

def CARET : UInt8 := 94

def STAR : UInt8 := 42

def DOT : UInt8 := 46

def DOLLAR : UInt8 := 36

/- Search for `c*re`, where `here` is the search for `re`. -/
def matchstar (c : UInt8) (here : List UInt8 → Bool) : List UInt8 → Bool
  | [] => here []
  | t :: text => here (t :: text) || ((t == c || c == DOT) && matchstar c here text)

/- One byte of the pattern, and the test of what follows. -/
def oneByte (c : UInt8) (next : List UInt8 → Bool) : List UInt8 → Bool
  | [] => false
  | t :: text => (c == DOT || c == t) && next text

/- Search for the pattern at the beginning of the text. -/
def matchhere : List UInt8 → List UInt8 → Bool
  | [], _ => true
  | [c], text =>
    if c = DOLLAR then text.isEmpty else oneByte c (matchhere []) text
  | c :: d :: re, text =>
    if d = STAR then matchstar c (matchhere re) text else oneByte c (matchhere (d :: re)) text

/- The loop of `match`. -/
def anywhere (re : List UInt8) : List UInt8 → Bool
  | [] => matchhere re []
  | t :: text => matchhere re (t :: text) || anywhere re text

/- `match` of the source. -/
def matchText : List UInt8 → List UInt8 → Bool
  | [], text => anywhere [] text
  | c :: re, text =>
    if c = CARET then matchhere re text else anywhere (c :: re) text

---- The Pattern Language

inductive Item where
  | star (x : UInt8)
  | one (x : UInt8)
  | eot

/- The items of a pattern, from left to right. -/
def items : List UInt8 → List Item
  | [] => []
  | [c] => if c = DOLLAR then [.eot] else [.one c]
  | c :: d :: re =>
    if d = STAR then .star c :: items re else .one c :: items (d :: re)

/- Byte `b` is one that `x` stands for. -/
def Fits (x b : UInt8) : Prop := x = DOT ∨ b = x

/- The item has the word `u`, in front of `rest`. -/
def Item.Has (u rest : List UInt8) : Item → Prop
  | .star x => ∀ b ∈ u, Fits x b
  | .one x => ∃ b, u = [b] ∧ Fits x b
  | .eot => u = [] ∧ rest = []

/- The items have the word `w` one after another. -/
def Lang : List Item → List UInt8 → List UInt8 → Prop
  | [], w, _ => w = []
  | i :: is, w, rest => ∃ u v, w = u ++ v ∧ i.Has u (v ++ rest) ∧ Lang is v rest

/- Some part of the text at its start is in the language. -/
def Starts (is : List Item) (text : List UInt8) : Prop :=
  ∃ w rest, text = w ++ rest ∧ Lang is w rest

theorem starts_nil (text : List UInt8) : Starts [] text := ⟨[], text, rfl, rfl⟩

theorem starts_cons {i : Item} {is : List Item} {text : List UInt8} :
    Starts (i :: is) text ↔ ∃ u rest, text = u ++ rest ∧ i.Has u rest ∧ Starts is rest := by
  constructor
  · rintro ⟨w, rest, hText, u, v, hWord, hHas, hLang⟩
    refine ⟨u, v ++ rest, ?_, hHas, v, rest, rfl, hLang⟩
    rw [hText, hWord, List.append_assoc]
  · rintro ⟨u, r, hText, hHas, v, rest, hRest, hLang⟩
    subst hRest
    refine ⟨u ++ v, rest, ?_, u, v, rfl, hHas, hLang⟩
    rw [hText, List.append_assoc]

theorem starts_one {x : UInt8} {is : List Item} {text : List UInt8} :
    Starts (.one x :: is) text ↔ ∃ b rest, text = b :: rest ∧ Fits x b ∧ Starts is rest := by
  rw [starts_cons]
  constructor
  · rintro ⟨u, rest, hText, ⟨b, hOne, hFits⟩, hStarts⟩
    exact ⟨b, rest, by rw [hText, hOne]; rfl, hFits, hStarts⟩
  · rintro ⟨b, rest, hText, hFits, hStarts⟩
    exact ⟨[b], rest, hText, ⟨b, rfl, hFits⟩, hStarts⟩

---- Correctness

theorem fits_iff {x b : UInt8} : (x == DOT || x == b) = true ↔ Fits x b := by
  unfold Fits
  rw [Bool.or_eq_true, beq_iff_eq, beq_iff_eq, eq_comm (a := b)]

/- The loop tries every run of `c` in front of the text. -/
theorem matchstar_iff {here : List UInt8 → Bool} {text : List UInt8} :
    matchstar c here text = true ↔
      ∃ u rest, text = u ++ rest ∧ (∀ b ∈ u, Fits c b) ∧ here rest = true := by
  induction text with
  | nil =>
    constructor
    · intro h
      exact ⟨[], [], rfl, by simp, h⟩
    · rintro ⟨u, rest, hText, _, hHere⟩
      rcases List.nil_eq_append_iff.mp hText with ⟨_, hRest⟩
      rw [hRest] at hHere
      exact hHere
  | cons t text ih =>
    have hFits : (t == c || c == DOT) = true ↔ Fits c t := by
      rw [← fits_iff, Bool.or_comm, Bool.beq_comm (a := t)]
    unfold matchstar
    rw [Bool.or_eq_true, Bool.and_eq_true, hFits, ih]
    constructor
    · rintro (h | ⟨hFirst, u, rest, hText, hAll, hHere⟩)
      · exact ⟨[], t :: text, rfl, by simp, h⟩
      · refine ⟨t :: u, rest, by rw [hText]; rfl, ?_, hHere⟩
        exact List.forall_mem_cons.mpr ⟨hFirst, hAll⟩
    rintro ⟨u, rest, hText, hAll, hHere⟩
    cases u with
    | nil =>
      left
      rw [hText]
      exact hHere
    | cons a u =>
      right
      rcases List.cons.inj hText with ⟨hHead, hTail⟩
      rcases List.forall_mem_cons.mp hAll with ⟨hFirst, hAll⟩
      exact ⟨hHead ▸ hFirst, u, rest, hTail, hAll, hHere⟩

theorem oneByte_iff {is : List Item} {text : List UInt8} {next : List UInt8 → Bool}
    (hNext : ∀ rest, next rest = true ↔ Starts is rest) :
    oneByte c next text = true ↔ Starts (.one c :: is) text := by
  rw [starts_one]
  cases text with
  | nil => simp [oneByte]
  | cons t text =>
    unfold oneByte
    rw [Bool.and_eq_true, fits_iff, hNext]
    simp

theorem matchhere_iff (re text : List UInt8) :
    matchhere re text = true ↔ Starts (items re) text := by
  -- The recursion is that of the items.
  induction re using items.induct generalizing text with
  | case1 => simp [matchhere, items, starts_nil]
  | case2 =>
    rw [matchhere, items, if_pos rfl, if_pos rfl, starts_cons]
    constructor
    · intro h
      rw [List.isEmpty_iff] at h
      exact ⟨[], [], h, ⟨rfl, rfl⟩, starts_nil []⟩
    · rintro ⟨u, rest, hText, ⟨hu, hRest⟩, _⟩
      rw [hText, hu, hRest]
      rfl
  | case3 c hc =>
    rw [matchhere, items, if_neg hc, if_neg hc]
    refine oneByte_iff ?_
    intro rest
    simp [matchhere, starts_nil]
  | case4 c re ih =>
    rw [matchhere, items, if_pos rfl, if_pos rfl, starts_cons, matchstar_iff]
    simp only [ih]
    rfl
  | case5 c d re hd ih =>
    rw [matchhere, items, if_neg hd, if_neg hd]
    exact oneByte_iff ih

theorem anywhere_iff (re text : List UInt8) :
    anywhere re text = true ↔ ∃ skip rest, text = skip ++ rest ∧ Starts (items re) rest := by
  induction text with
  | nil =>
    unfold anywhere
    rw [matchhere_iff]
    constructor
    · intro h
      exact ⟨[], [], rfl, h⟩
    · rintro ⟨skip, rest, hText, h⟩
      rcases List.nil_eq_append_iff.mp hText with ⟨_, hRest⟩
      exact hRest ▸ h
  | cons t text ih =>
    unfold anywhere
    rw [Bool.or_eq_true, matchhere_iff, ih]
    constructor
    · rintro (h | ⟨skip, rest, hText, h⟩)
      · exact ⟨[], t :: text, rfl, h⟩
      · exact ⟨t :: skip, rest, by rw [hText]; rfl, h⟩
    · rintro ⟨skip, rest, hText, h⟩
      cases skip with
      | nil => exact .inl (hText ▸ h)
      | cons a skip => exact .inr ⟨skip, rest, (List.cons.inj hText).2, h⟩

/-
  A text matches if some suffix of it, or the whole of it
  under `^`, starts with a word of the pattern.
-/
theorem match_iff (re text : List UInt8) :
    matchText re text = true ↔
      if re.head? = some CARET then
        Starts (items re.tail) text
      else
        ∃ skip rest, text = skip ++ rest ∧ Starts (items re) rest := by
  cases re with
  | nil => exact anywhere_iff [] text
  | cons c re =>
    rw [matchText, List.head?_cons]
    by_cases hCaret : c = CARET
    · rw [if_pos hCaret, if_pos (congrArg some hCaret)]
      exact matchhere_iff re text
    · have hHead : some c ≠ some CARET :=
        fun h => hCaret (Option.some.inj h)
      rw [if_neg hCaret, if_neg hHead]
      exact anywhere_iff (c :: re) text

---- Lines

def NEWLINE : UInt8 := 10

/- `sizeof(buf) - 1`. -/
def ROOM : Nat := 1023

/- Where a byte stands first in a string. -/
def strchr (c : UInt8) : List UInt8 → Option Nat
  | [] => none
  | b :: s =>
    if b = 0 then
      none
    else if b = c then some 0 else (strchr c s).map (· + 1)

/- The inner loop: what it writes, and what is left over. -/
def printLines (re : List UInt8) : Nat → List UInt8 → List (List UInt8) × List UInt8
  | 0, p => ([], p)
  | fuel + 1, p =>
    match strchr NEWLINE p with
    | none => ([], p)
    | some q =>
      let r := printLines re fuel (p.drop (q + 1))
      if matchText re (p.take q) = true then (p.take (q + 1) :: r.1, r.2) else r

/-
  The loop of `grep`, with the bytes carried over. The k-th
  `read` gives `cut k` bytes if it can.
-/
def grepLoop (re : List UInt8) (cut : Nat → Nat) :
    Nat → Nat → List UInt8 → List UInt8 → List (List UInt8)
  | 0, _, _, _ => []
  | fuel + 1, k, buf, input =>
    let n := min (max 1 (cut k)) (min (ROOM - buf.length) input.length)
    if n = 0 then
      []
    else
      let buf := buf ++ input.take n
      let r := printLines re buf.length buf
      r.1 ++ grepLoop re cut fuel (k + 1) r.2 (input.drop n)

/- The writes of `grep`; every round reads a byte. -/
def grep (re : List UInt8) (cut : Nat → Nat) (input : List UInt8) : List (List UInt8) :=
  grepLoop re cut (input.length + 1) 0 [] input

/- The lines that end with a newline, without it. -/
def linesOf : List UInt8 → List (List UInt8)
  | [] => []
  | b :: s =>
    if b = NEWLINE then
      [] :: linesOf s
    else
      match linesOf s with
      | [] => []
      | l :: ls => (b :: l) :: ls

/- What the matching ones of some lines print. -/
def printed (re : List UInt8) (ls : List (List UInt8)) : List (List UInt8) :=
  (ls.filter (matchText re)).map (· ++ [NEWLINE])

/- The line fits in the buffer together with its newline. -/
def Short (l : List UInt8) : Bool := l.length < ROOM

theorem strchr_none (hNul : 0 ∉ s) (h : strchr c s = none) : c ∉ s := by
  induction s with
  | nil => exact List.not_mem_nil
  | cons b s ih =>
    rw [List.mem_cons, not_or] at hNul
    rw [strchr, if_neg (Ne.symm hNul.1)] at h
    by_cases hb : b = c
    · rw [if_pos hb] at h
      cases h
    · rw [if_neg hb, Option.map_eq_none_iff] at h
      rw [List.mem_cons, not_or]
      exact ⟨Ne.symm hb, ih hNul.2 h⟩

theorem strchr_some {q : Nat} (h : strchr c s = some q) :
    s.take (q + 1) = s.take q ++ [c] ∧ c ∉ s.take q := by
  induction s generalizing q with
  | nil => cases h
  | cons b s ih =>
    rw [strchr] at h
    by_cases hNul : b = 0
    · rw [if_pos hNul] at h
      cases h
    rw [if_neg hNul] at h
    by_cases hb : b = c
    · rw [if_pos hb] at h
      cases h
      simp [hb]
    · rw [if_neg hb] at h
      rcases Option.map_eq_some_iff.mp h with ⟨r, hr, rfl⟩
      rcases ih hr with ⟨hEq, hFree⟩
      refine ⟨congrArg (b :: ·) hEq, ?_⟩
      rw [List.take_succ_cons, List.mem_cons, not_or]
      exact ⟨Ne.symm hb, hFree⟩

theorem linesOf_append {c : List UInt8} (h : NEWLINE ∉ c) :
    linesOf (c ++ s) =
      match linesOf s with
      | [] => []
      | l :: ls => (c ++ l) :: ls := by
  induction c with
  | nil =>
    rw [List.nil_append]
    cases linesOf s <;> rfl
  | cons b c ih =>
    rw [List.mem_cons, not_or] at h
    rw [List.cons_append, linesOf, if_neg (Ne.symm h.1), ih h.2]
    cases linesOf s <;> rfl

theorem linesOf_newline {c : List UInt8} (h : NEWLINE ∉ c) :
    linesOf (c ++ NEWLINE :: s) = c :: linesOf s := by
  rw [linesOf_append h, linesOf, if_pos rfl]
  dsimp only
  rw [List.append_nil]

/- The lines that are printed, in a buffer of `ROOM` bytes. -/
def expected (re input : List UInt8) : List (List UInt8) :=
  printed re ((linesOf input).takeWhile Short)

theorem expected_line {c : List UInt8} (hFree : NEWLINE ∉ c) (hShort : c.length < ROOM) :
    expected re (c ++ NEWLINE :: s) =
      if matchText re c = true then
        (c ++ [NEWLINE]) :: expected re s
      else
        expected re s := by
  have hTake : Short c = true := decide_eq_true hShort
  unfold expected printed
  rw [linesOf_newline hFree, List.takeWhile_cons, if_pos hTake, List.filter_cons]
  split
  · rfl
  · rfl

theorem expected_stop {c : List UInt8} (hFree : NEWLINE ∉ c) (hStop : s = [] ∨ ROOM ≤ c.length) :
    expected re (c ++ s) = [] := by
  unfold expected
  rw [linesOf_append hFree]
  cases hLines : linesOf s with
  | nil => rfl
  | cons l ls =>
    rcases hStop with rfl | hFull
    · cases hLines
    · have hLong : Short (c ++ l) = false := by
        refine decide_eq_false ?_
        rw [List.length_append]
        omega
      dsimp only
      rw [List.takeWhile_cons, hLong]
      rfl

/- What the buffer holds is printed, and the rest stays. -/
theorem printLines_spec {fuel : Nat} {p : List UInt8} (hFuel : p.length ≤ fuel)
    (hNul : 0 ∉ p) (hRoom : p.length ≤ ROOM) :
    let r := printLines re fuel p
    NEWLINE ∉ r.2 ∧ 0 ∉ r.2 ∧ r.2.length ≤ ROOM ∧
      ∀ s, expected re (p ++ s) = r.1 ++ expected re (r.2 ++ s) := by
  induction fuel generalizing p with
  | zero =>
    have hNil : p = [] := List.length_eq_zero_iff.mp (by omega)
    subst hNil
    simp [printLines]
  | succ fuel ih =>
    rw [printLines]
    cases hFind : strchr NEWLINE p with
    | none => exact ⟨strchr_none hNul hFind, hNul, hRoom, fun s => rfl⟩
    | some q =>
      rcases strchr_some hFind with ⟨hEq, hFree⟩
      have hLen := congrArg List.length hEq
      simp only [List.length_append, List.length_take, List.length_singleton] at hLen
      have hDrop := p.length_drop (i := q + 1)
      rcases ih (p := p.drop (q + 1)) (by omega) (fun h => hNul (List.mem_of_mem_drop h)) (by omega)
        with ⟨hLine, hZero, hFits, hRest⟩
      have hSplit : ∀ s, p ++ s = p.take q ++ NEWLINE :: (p.drop (q + 1) ++ s) := by
        intro s
        conv_lhs => rw [← p.take_append_drop (q + 1), hEq]
        simp
      have hShort : (p.take q).length < ROOM := by
        rw [List.length_take]
        omega
      dsimp only
      split
      · rename_i hMatch
        refine ⟨hLine, hZero, hFits, ?_⟩
        intro s
        rw [hSplit, expected_line hFree hShort, if_pos hMatch, hRest, hEq]
        rfl
      · rename_i hMatch
        refine ⟨hLine, hZero, hFits, ?_⟩
        intro s
        rw [hSplit, expected_line hFree hShort, if_neg hMatch]
        exact hRest s

/- The loop prints what is expected of the bytes it has left. -/
theorem grepLoop_eq {cut : Nat → Nat} {fuel k : Nat} {buf input : List UInt8}
    (hFuel : input.length < fuel) (hNul : 0 ∉ buf ++ input) (hFree : NEWLINE ∉ buf)
    (hRoom : buf.length ≤ ROOM) :
    grepLoop re cut fuel k buf input = expected re (buf ++ input) := by
  induction fuel generalizing k buf input with
  | zero => omega
  | succ fuel ih =>
    rw [grepLoop]
    generalize hn : min (max 1 (cut k)) (min (ROOM - buf.length) input.length) = n
    dsimp only
    split
    · rename_i hZero
      refine (expected_stop hFree ?_).symm
      by_cases hNil : input = []
      · exact .inl hNil
      · have hPos := List.length_pos_iff.mpr hNil
        exact .inr (by omega)
    rename_i hPos
    have hInput : input = input.take n ++ input.drop n := (List.take_append_drop n input).symm
    have hAll : buf ++ input = buf ++ input.take n ++ input.drop n := by
      rw [List.append_assoc, ← hInput]
    rw [hAll, List.mem_append, not_or] at hNul
    have hLen : (buf ++ input.take n).length ≤ ROOM := by
      rw [List.length_append, List.length_take]
      omega
    rcases @printLines_spec re _ _ (Nat.le_refl _) hNul.1 hLen with ⟨hLine, hZero, hFits, hRest⟩
    rw [hAll, hRest, ih]
    · rw [List.length_drop]
      omega
    · rw [List.mem_append, not_or]
      exact ⟨hZero, hNul.2⟩
    · exact hLine
    · exact hFits

theorem grep_eq {cut : Nat → Nat} {input : List UInt8} (hNul : 0 ∉ input) :
    grep re cut input = expected re input :=
  grepLoop_eq (Nat.lt_succ_self _) hNul List.not_mem_nil (Nat.zero_le _)

/-
  All matching lines are printed exactly if none of them
  comes at or after a line that is too long for the buffer.
-/
theorem grep_prints_iff
    (re : List UInt8)
    (cut : Nat → Nat)
    (input : List UInt8)
    (hNul : 0 ∉ input) :
    grep re cut input = printed re (linesOf input) ↔
      ∀ l ∈ (linesOf input).dropWhile Short, matchText re l = false := by
  have hSplit : printed re (linesOf input) =
      expected re input ++ printed re ((linesOf input).dropWhile Short) := by
    unfold expected printed
    rw [← List.map_append, ← List.filter_append, List.takeWhile_append_dropWhile]
  rw [grep_eq hNul, hSplit, List.self_eq_append_right]
  unfold printed
  rw [List.map_eq_nil_iff, List.filter_eq_nil_iff]
  simp only [Bool.not_eq_true]

theorem grep_prints_two_lines :
    0 ∉ [97, 10, 98, 10] ∧ (grep [98] (fun _ => 1) [97, 10, 98, 10] =
        printed [98] (linesOf [97, 10, 98, 10]) ↔
      ∀ l ∈ (linesOf [97, 10, 98, 10]).dropWhile Short, matchText [98] l = false) :=
  ⟨by decide, grep_prints_iff _ _ _ (by decide)⟩

/- A line of 1023 bytes, and a line that matches. -/
theorem grep_stops_at_long_line :
    grep [98] (fun _ => 512) (List.replicate 1023 97 ++ [10, 98, 10]) ≠
      printed [98] (linesOf (List.replicate 1023 97 ++ [10, 98, 10])) := by
  decide +kernel

end Xv6.User.Grep

import Mathlib.Data.List.Nodup
import Mathlib.Logic.Function.Basic

/-
  Doubly linked lists in a memory.

  Two functions give the successor and the predecessor of
  every node. A segment leads from a node through a list of
  nodes to another one; a ring leads back to its first node,
  the head, which is not an element.

  The rules used by name are:
    * `Seg.unlink`
    * `Seg.pushFront`
    * `Seg.scan_next`
-/

namespace Dll

open Function (update update_self update_of_ne)

structure Links (α : Type) where
  next : α → α
  prev : α → α

variable {α : Type}

def Links.flip (l : Links α) : Links α := ⟨l.prev, l.next⟩

/- The nodes are next to each other. -/
def Edge (l : Links α) (x y : α) : Prop := l.next x = y ∧ l.prev y = x

def Seg (l : Links α) : α → List α → α → Prop
  | x, [], z => Edge l x z
  | x, y :: ys, z => Edge l x y ∧ Seg l y ys z

variable [DecidableEq α]

/- Take `b` out of its list. -/
def Links.unlink (l : Links α) (b : α) : Links α :=
  let l := { l with prev := update l.prev (l.next b) (l.prev b) }
  { l with next := update l.next (l.prev b) (l.next b) }

/- Put `b` right after `h`. -/
def Links.pushFront (l : Links α) (h b : α) : Links α :=
  let l := { l with next := update l.next b (l.next h) }
  let l := { l with prev := update l.prev b h }
  let l := { l with prev := update l.prev (l.next h) b }
  { l with next := update l.next h b }

/-
  The first node from `b` on that passes, until `stop` is
  reached. The result is `none` if that takes more rounds.
-/
def scan (link : α → α) (stop : α) (p : α → Bool) : Nat → α → Option (Option α)
  | 0, _ => none
  | fuel + 1, b =>
    if b = stop then some none
    else if p b = true then some (some b)
    else scan link stop p fuel (link b)

section

variable {l l' : Links α} {x z b : α} {xs ys : List α}

omit [DecidableEq α] in
theorem seg_append : Seg l x (xs ++ b :: ys) z ↔ Seg l x xs b ∧ Seg l b ys z := by
  induction xs generalizing x with
  | nil => exact Iff.rfl
  | cons y xs ih => simp [Seg, ih, and_assoc]

/- Only the links along the segment matter. -/
omit [DecidableEq α] in
theorem Seg.congr (h : Seg l x ys z) (hNext : ∀ a ∈ x :: ys, l'.next a = l.next a)
    (hPrev : ∀ a ∈ ys ++ [z], l'.prev a = l.prev a) : Seg l' x ys z := by
  induction ys generalizing x with
  | nil => exact ⟨by rw [hNext x (by simp), h.1], by rw [hPrev z (by simp), h.2]⟩
  | cons y ys ih =>
    refine ⟨⟨?_, ?_⟩, ih h.2 ?_ ?_⟩
    · rw [hNext x (by simp), h.1.1]
    · rw [hPrev y (by simp), h.1.2]
    · exact fun a ha => hNext a (List.mem_cons_of_mem x ha)
    · exact fun a ha => hPrev a (List.mem_cons_of_mem y ha)

omit [DecidableEq α] in
theorem Seg.next_mem (h : Seg l x ys z) : l.next x ∈ ys ++ [z] := by
  cases ys with
  | nil => simp [h.1]
  | cons y ys => simp [h.1.1]

omit [DecidableEq α] in
theorem Seg.flip (h : Seg l x ys z) : Seg l.flip z ys.reverse x := by
  induction ys generalizing x with
  | nil => exact ⟨h.2, h.1⟩
  | cons y ys ih =>
    rw [List.reverse_cons, seg_append]
    exact ⟨ih h.2, h.1.2, h.1.1⟩

theorem unlink_links (l : Links α) (b : α) :
    (l.unlink b).prev = update l.prev (l.next b) (l.prev b) ∧
      (l.unlink b).next = update l.next (l.prev b) (l.next b) := by
  have hSame : update l.prev (l.next b) (l.prev b) b = l.prev b := by
    by_cases h : b = l.next b
    · rw [← h, update_self]
    · rw [update_of_ne h]
  exact ⟨rfl, by simp only [Links.unlink, hSame]⟩

theorem Seg.unlink (h : Seg l x (xs ++ b :: ys) z) (hNodup : (x :: (xs ++ b :: ys)).Nodup)
    (hz : z ∉ xs ++ b :: ys) : Seg (l.unlink b) x (xs ++ ys) z := by
  rcases unlink_links l b with ⟨hPrev, hNext⟩
  induction xs generalizing x with
  | nil =>
    rw [(h.1).2] at hPrev hNext
    simp only [List.nil_append, List.nodup_cons, List.mem_cons, not_or] at hNodup hz
    cases ys with
    | nil =>
      rw [(h.2).1] at hPrev hNext
      exact ⟨by rw [hNext, update_self], by rw [hPrev, update_self]⟩
    | cons c ys =>
      rw [(h.2).1.1] at hPrev hNext
      simp only [List.nodup_cons, List.mem_cons, not_or] at hNodup hz
      refine ⟨⟨by rw [hNext, update_self], by rw [hPrev, update_self]⟩, (h.2).2.congr ?_ ?_⟩
      · intro a ha
        rw [hNext, update_of_ne]
        rintro rfl
        simp only [List.mem_cons] at ha
        tauto
      · intro a ha
        rw [hPrev, update_of_ne]
        rintro rfl
        simp only [List.mem_append, List.mem_singleton] at ha
        rcases ha with ha | rfl <;> tauto
  | cons y xs ih =>
    simp only [List.cons_append, List.nodup_cons, List.mem_cons, not_or] at hNodup hz
    rcases seg_append.mp h.2 with ⟨hLeft, hRight⟩
    -- The neighbours of `b` are on its two sides.
    have hBefore : l.prev b ∈ xs.reverse ++ [y] := hLeft.flip.next_mem
    have hAfter := hRight.next_mem
    refine ⟨⟨?_, ?_⟩, ih h.2 ?_ hz.2⟩
    · rw [hNext, update_of_ne, h.1.1]
      rintro rfl
      simp only [List.mem_append, List.mem_reverse, List.mem_cons] at hNodup hBefore
      tauto
    · rw [hPrev, update_of_ne, h.1.2]
      rintro rfl
      simp only [List.mem_append, List.mem_cons] at hNodup hAfter
      tauto
    · exact List.nodup_cons.mpr hNodup.2

theorem Seg.pushFront (h : Seg l x ys x) (hNodup : (x :: ys).Nodup) (hb : b ∉ x :: ys) :
    Seg (l.pushFront x b) x (b :: ys) x := by
  simp only [List.mem_cons, not_or] at hb
  have hHead : update l.next b (l.next x) x = l.next x := update_of_ne (Ne.symm hb.1) ..
  have hNext : (l.pushFront x b).next = update (update l.next b (l.next x)) x b := rfl
  have hPrev : (l.pushFront x b).prev = update (update l.prev b x) (l.next x) b := by
    simp only [Links.pushFront, hHead]
  have hNe : b ≠ l.next x := by
    rintro rfl
    simpa [hb] using h.next_mem
  have hb' : (l.pushFront x b).next b = l.next x := by rw [hNext, update_of_ne hb.1, update_self]
  refine ⟨⟨by rw [hNext, update_self], by rw [hPrev, update_of_ne hNe, update_self]⟩, ?_⟩
  cases ys with
  | nil => exact ⟨hb'.trans h.1, by rw [hPrev, h.1, update_self]⟩
  | cons y ys =>
    simp only [List.nodup_cons, List.mem_cons, not_or] at hNodup hb
    refine ⟨⟨hb'.trans h.1.1, by rw [hPrev, h.1.1, update_self]⟩, h.2.congr ?_ ?_⟩
    · intro a ha
      rw [hNext, update_of_ne, update_of_ne]
      all_goals
        rintro rfl
        simp only [List.mem_cons] at ha
        tauto
    · intro a ha
      simp only [List.mem_append, List.mem_singleton] at ha
      rw [hPrev, h.1.1, update_of_ne, update_of_ne]
      · rintro rfl
        tauto
      · rintro rfl
        rcases ha with ha | rfl <;> tauto

theorem Seg.scan_next (h : Seg l x ys z) (hz : z ∉ ys) (p : α → Bool) {fuel : Nat}
    (hFuel : ys.length < fuel) : scan l.next z p fuel (l.next x) = some (ys.find? p) := by
  induction ys generalizing x fuel with
  | nil =>
    cases fuel with
    | zero => simp at hFuel
    | succ fuel => simp [scan, h.1]
  | cons y ys ih =>
    cases fuel with
    | zero => simp at hFuel
    | succ fuel =>
      simp only [List.mem_cons, not_or] at hz
      rw [h.1.1, scan, if_neg (Ne.symm hz.1)]
      by_cases hp : p y = true
      · rw [if_pos hp, List.find?_cons_of_pos hp]
      · rw [if_neg hp, List.find?_cons_of_neg hp]
        exact ih h.2 hz.2 (by simpa using hFuel)

theorem Seg.scan_prev (h : Seg l x ys z) (hx : x ∉ ys) (p : α → Bool) {fuel : Nat}
    (hFuel : ys.length < fuel) : scan l.prev x p fuel (l.prev z) = some (ys.reverse.find? p) :=
  h.flip.scan_next (by simpa using hx) p (by simpa using hFuel)

end

end Dll

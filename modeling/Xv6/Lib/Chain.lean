import Mathlib.Data.List.Basic

/-
  Linked lists in a memory.

  A function gives the successor of every node. A list of
  nodes is linked when each node is followed by the next one
  and the last by a given end. A ring is linked to its own
  first node, and may be entered anywhere.

  The rules used by name are:
    * `linked_append`
    * `Linked.congr`
    * `Linked.rotate`
-/

namespace Chain

variable {α : Type} {next next' : α → α}

/- The nodes follow each other, and the end the last one. -/
def Linked (next : α → α) : List α → α → Prop
  | [], _ => True
  | x :: xs, e => next x = xs.headD e ∧ Linked next xs e

theorem linked_cons (x : α) (xs : List α) (e : α) :
    Linked next (x :: xs) e ↔ next x = xs.headD e ∧ Linked next xs e := Iff.rfl

theorem headD_append (xs ys : List α) (e : α) : (xs ++ ys).headD e = xs.headD (ys.headD e) := by
  cases xs with
  | nil => rfl
  | cons x xs => rfl

theorem linked_append (xs ys : List α) (e : α) :
    Linked next (xs ++ ys) e ↔ Linked next xs (ys.headD e) ∧ Linked next ys e := by
  induction xs with
  | nil => exact (true_and _).symm.to_iff
  | cons x xs ih => rw [List.cons_append, linked_cons, linked_cons, headD_append, ih, and_assoc]

/- Only the successors of the nodes matter. -/
theorem Linked.congr {xs : List α} {e : α} (h : Linked next xs e)
    (hSame : ∀ x ∈ xs, next' x = next x) : Linked next' xs e := by
  induction xs with
  | nil => exact trivial
  | cons x xs ih =>
    refine ⟨?_, ih h.2 ?_⟩
    · rw [hSame x List.mem_cons_self]
      exact h.1
    · intro y hy
      exact hSame y (List.mem_cons_of_mem x hy)

/- A ring entered at one of its nodes. -/
theorem Linked.rotate {xs ys : List α} {x e : α}
    (h : Linked next (xs ++ x :: ys) ((xs ++ x :: ys).headD e)) :
    Linked next (x :: ys ++ xs) x := by
  rw [linked_append] at h ⊢
  rw [headD_append] at h
  exact ⟨h.2, h.1⟩

/- The successor of a node of a linked list. -/
theorem Linked.next_eq {xs ys : List α} {x e : α} (h : Linked next (xs ++ x :: ys) e) :
    next x = ys.headD e := ((linked_append xs (x :: ys) e).mp h).2.1

end Chain

import Mathlib.Data.Multiset.AddSub
import Mathlib.Data.Multiset.UnionInter
import Mathlib.Data.List.Induction
import Mathlib.Data.List.Nodup
import Mathlib.Tactic.Common

/-
  Radix trees of bounded depth.

  A tree is given by a root page and a partial function
  `child` from a page and an index to a page. A page of the
  tree is found along a path of indices. The pages of the
  tree form a multiset, so that no page is used at two
  places exactly when the multiset has no duplicates.

  The rules used by name are:
    * `Radix.find_congr`
    * `Radix.find_link`
    * `Radix.pages_link`
-/

namespace Radix

variable {P : Type}

/- The page at the end of a path from `p`. -/
def find (child : P → Nat → Option P) : P → List Nat → Option P
| p, [] => some p
| p, i :: is => (child p i).bind fun q => find child q is

/- The paths of at most `d` indices below `fan`. -/
def paths (fan : Nat) : Nat → List (List Nat)
| 0 => [[]]
| d + 1 => [] :: (List.range fan).flatMap (fun i => (paths fan d).map (i :: ·))

/- The pages at most `d` levels below `p`. -/
def pages (child : P → Nat → Option P) (fan d : Nat) (p : P) : Multiset P :=
  ((paths fan d).filterMap (find child p) : List P)

---- Paths

theorem mem_paths {fan d : Nat} {xs : List Nat} :
    xs ∈ paths fan d ↔ xs.length ≤ d ∧ ∀ i ∈ xs, i < fan := by
  induction d generalizing xs with
  | zero =>
    cases xs with
    | nil => simp [paths]
    | cons i is => simp [paths]
  | succ d ih =>
    cases xs with
    | nil => simp [paths]
    | cons i is =>
      simp [paths, ih]
      tauto

theorem nodup_paths (fan d : Nat) : (paths fan d).Nodup := by
  induction d with
  | zero => simp [paths]
  | succ d ih =>
    rw [paths, List.nodup_cons]
    refine ⟨by simp, ?_⟩
    rw [List.nodup_flatMap]
    refine ⟨?_, ?_⟩
    · intro i _
      exact ih.map (fun a b hab => (List.cons.inj hab).2)
    refine List.nodup_range.imp ?_
    intro i j hij
    show List.Disjoint _ _
    intro xs hi hj
    rw [List.mem_map] at hi hj
    rcases hi with ⟨a, _, ha⟩
    rcases hj with ⟨b, _, hb⟩
    rw [← hb] at ha
    exact hij (List.cons.inj ha).1

---- Values Of A Partial Function

section FilterMap

variable {α β : Type}

/- Without duplicates a value has one argument. -/
theorem eq_of_nodup_filterMap {f : α → Option β} {l : List α} {x y : α} {b : β}
    (hNodup : (l.filterMap f).Nodup) (hx : x ∈ l) (hy : y ∈ l) (hfx : f x = some b)
    (hfy : f y = some b) : x = y := by
  induction l with
  | nil => simp at hx
  | cons a l ih =>
    have hLater : ∀ z ∈ l, f z = some b → b ∈ l.filterMap f :=
      fun z hz hfz => List.mem_filterMap.mpr ⟨z, hz, hfz⟩
    cases hfa : f a with
    | none =>
      rw [List.filterMap_cons_none hfa] at hNodup
      have hxl : x ∈ l := by
        rcases List.mem_cons.mp hx with rfl | h
        · simp [hfa] at hfx
        · exact h
      have hyl : y ∈ l := by
        rcases List.mem_cons.mp hy with rfl | h
        · simp [hfa] at hfy
        · exact h
      exact ih hNodup hxl hyl
    | some c =>
      rw [List.filterMap_cons_some hfa, List.nodup_cons] at hNodup
      rcases List.mem_cons.mp hx with rfl | hxl
      · rcases List.mem_cons.mp hy with rfl | hyl
        · rfl
        · have hbc : c = b := by simpa [hfa] using hfx
          rw [hbc] at hNodup
          exact absurd (hLater y hyl hfy) hNodup.1
      · rcases List.mem_cons.mp hy with rfl | hyl
        · have hbc : c = b := by simpa [hfa] using hfy
          rw [hbc] at hNodup
          exact absurd (hLater x hxl hfx) hNodup.1
        · exact ih hNodup.2 hxl hyl

/- Giving one argument a value adds that value. -/
theorem filterMap_gain {f g : α → Option β} {l : List α} {x : α} {b : β} (hNodup : l.Nodup)
    (hx : x ∈ l) (hfx : f x = none) (hgx : g x = some b) (hSame : ∀ y ∈ l, y ≠ x → g y = f y) :
    (l.filterMap g : Multiset β) = b ::ₘ (l.filterMap f : Multiset β) := by
  induction l with
  | nil => simp at hx
  | cons a l ih =>
    rw [List.nodup_cons] at hNodup
    by_cases hax : a = x
    · have hRest : l.filterMap g = l.filterMap f := by
        apply List.filterMap_congr
        intro y hy
        refine hSame y (List.mem_cons_of_mem a hy) ?_
        intro hyx
        rw [hyx, ← hax] at hy
        exact hNodup.1 hy
      rw [← hax] at hfx hgx
      rw [List.filterMap_cons_some hgx, List.filterMap_cons_none hfx, hRest]
      rfl
    · have hxl : x ∈ l := by
        rcases List.mem_cons.mp hx with h | h
        · exact absurd h.symm hax
        · exact h
      have hTail := ih hNodup.2 hxl (fun y hy => hSame y (List.mem_cons_of_mem a hy))
      have hHead : g a = f a := hSame a List.mem_cons_self hax
      cases hfa : f a with
      | none =>
        rw [hfa] at hHead
        rw [List.filterMap_cons_none hHead, List.filterMap_cons_none hfa]
        exact hTail
      | some c =>
        rw [hfa] at hHead
        rw [List.filterMap_cons_some hHead, List.filterMap_cons_some hfa,
          ← Multiset.cons_coe, ← Multiset.cons_coe, hTail, Multiset.cons_swap]

end FilterMap

---- Finding Pages

variable {child child' : P → Nat → Option P} {fan d : Nat} {root p q r : P} {xs ys : List Nat}
variable {i : Nat}

theorem find_snoc (child : P → Nat → Option P) (root : P) (xs : List Nat) (i : Nat) :
    find child root (xs ++ [i]) = (find child root xs).bind (fun q => child q i) := by
  induction xs generalizing root with
  | nil => simp [find]
  | cons j js ih =>
    simp only [List.cons_append, find]
    cases child root j with
    | none => rfl
    | some q => exact ih q

theorem mem_pages :
    q ∈ pages child fan d root ↔ ∃ xs ∈ paths fan d, find child root xs = some q := by
  simp [pages]

theorem root_mem_pages : root ∈ pages child fan d root :=
  mem_pages.mpr ⟨[], mem_paths.mpr (by simp), rfl⟩

/- No page is used at two places. -/
theorem path_unique (hNodup : (pages child fan d root).Nodup) (hxs : xs ∈ paths fan d)
    (hys : ys ∈ paths fan d) (hfx : find child root xs = some q) (hfy : find child root ys = some q) :
    xs = ys := eq_of_nodup_filterMap hNodup hxs hys hfx hfy

section

variable
  (h : ∀ ys p, ys.length < d → (∀ i ∈ ys, i < fan) →
      find child root ys = some p → ∀ i < fan, child' p i = child p i)
include h

/- The inner pages decide where paths lead. -/
theorem find_congr (hxs : xs ∈ paths fan d) : find child' root xs = find child root xs := by
  induction xs using List.reverseRecOn with
  | nil => rfl
  | append_singleton xs i ih =>
    rcases mem_paths.mp hxs with ⟨hLen, hFan⟩
    have hShort : xs.length < d := by
      simp at hLen
      omega
    have hFan' : ∀ j ∈ xs, j < fan := fun j hj =>
      hFan j (by simp [hj])
    have hTail := ih (mem_paths.mpr ⟨Nat.le_of_lt hShort, hFan'⟩)
    rw [find_snoc, find_snoc, hTail]
    cases hq : find child root xs with
    | none => rfl
    | some q => exact h xs q hShort hFan' hq i (hFan i (by simp))

theorem pages_congr : pages child' fan d root = pages child fan d root := by
  unfold pages
  congr 1
  apply List.filterMap_congr
  intro xs hxs
  exact find_congr h hxs

end

---- Linking A Page

/-
  A new page `r` without children is linked at index `i` of
  the page at the end of `ys`; nothing else changes.
-/
structure Links (child child' : P → Nat → Option P) (fan d : Nat) (root : P) (ys : List Nat)
    (i : Nat) (r : P) : Prop where
  nodup : (pages child fan d root).Nodup
  short : ys.length < d
  below : ∀ j ∈ ys, j < fan
  index : i < fan
  parent : ∃ q, find child root ys = some q ∧ child q i = none ∧ child' q i = some r
  leaf : ∀ j < fan, child' r j = none
  same : ∀ xs p j, xs.length < d → (∀ k ∈ xs, k < fan) →
    find child root xs = some p → j < fan → (xs ≠ ys ∨ j ≠ i) → child' p j = child p j

section

variable (h : Links child child' fan d root ys i r)
include h

theorem find_link (hxs : xs ∈ paths fan d) :
    find child' root xs = if xs = ys ++ [i] then some r else find child root xs := by
  rcases h.parent with ⟨q, hq, hNone, hSome⟩
  induction xs using List.reverseRecOn with
  | nil => simp [find]
  | append_singleton xs j ih =>
    rcases mem_paths.mp hxs with ⟨hLen, hFan⟩
    have hShort : xs.length < d := by
      simp at hLen
      omega
    have hFan' : ∀ k ∈ xs, k < fan := fun k hk =>
      hFan k (by simp [hk])
    have hj : j < fan := hFan j (by simp)
    have hTail := ih (mem_paths.mpr ⟨Nat.le_of_lt hShort, hFan'⟩)
    rw [find_snoc, find_snoc, hTail]
    by_cases hHere : xs = ys ++ [i]
    · -- Below the new page there is nothing yet.
      rw [if_pos hHere, hHere, find_snoc, hq]
      simp [hNone, h.leaf j hj]
    rw [if_neg hHere]
    by_cases hLink : xs = ys ∧ j = i
    · rcases hLink with ⟨rfl, rfl⟩
      simp [hq, hSome]
    have hNe : xs ++ [j] ≠ ys ++ [i] := by
      intro hEq
      have hBoth := List.append_inj' hEq rfl
      exact hLink ⟨hBoth.1, (List.cons.inj hBoth.2).1⟩
    rw [if_neg hNe]
    cases hp : find child root xs with
    | none => rfl
    | some p =>
      have hOr : xs ≠ ys ∨ j ≠ i := by tauto
      exact h.same xs p j hShort hFan' hp hj hOr

theorem Links.path_mem : ys ++ [i] ∈ paths fan d := by
  have hShort := h.short
  refine mem_paths.mpr ⟨?_, ?_⟩
  · simp
    omega
  · intro j hj
    rcases List.mem_append.mp hj with hj | hj
    · exact h.below j hj
    · rw [List.mem_singleton.mp hj]
      exact h.index

/- The linked page joins the pages of the tree. -/
theorem pages_link : pages child' fan d root = r ::ₘ pages child fan d root := by
  rcases h.parent with ⟨q, hq, hNone, _⟩
  refine filterMap_gain (nodup_paths fan d) h.path_mem ?_ ?_ ?_
  · rw [find_snoc, hq]
    exact hNone
  · rw [find_link h h.path_mem, if_pos rfl]
  · intro xs hxs hNe
    rw [find_link h hxs, if_neg hNe]

end

---- Subtrees

@[simp]
theorem pages_zero (child : P → Nat → Option P) (fan : Nat) (p : P) : pages child fan 0 p = {p} :=
  rfl

/- A tree is its root and the trees of the children. -/
theorem pages_succ (child : P → Nat → Option P) (fan d : Nat) (p : P) :
    pages child fan (d + 1) p = p ::ₘ ((List.range fan).map fun i =>
      ((child p i).elim 0 (pages child fan d) : Multiset P)).sum := by
  have hChild : ∀ i, (((paths fan d).map (i :: ·)).filterMap (find child p) : List P) =
      (child p i).elim [] (fun q => (paths fan d).filterMap (find child q)) := by
    intro i
    rw [List.filterMap_map]
    cases hq : child p i with
    | none => simp [Function.comp_def, find, hq]
    | some q =>
      apply List.filterMap_congr
      intro xs _
      simp [find, hq]
  have hSum : ∀ l : List Nat, ((l.flatMap fun i =>
      (child p i).elim []
        (fun q => (paths fan d).filterMap (find child q)) : List P) : Multiset P) =
      (l.map fun i =>
        ((child p i).elim 0 (pages child fan d) : Multiset P)).sum := by
    intro l
    induction l with
    | nil => rfl
    | cons i l ih =>
      rw [List.flatMap_cons, ← Multiset.coe_add, ih, List.map_cons, List.sum_cons]
      congr 1
      cases child p i with
      | none => rfl
      | some q => rfl
  have hRoot : find child p [] = some p := rfl
  calc
    pages child fan (d + 1) p
        = p ::ₘ (((List.range fan).flatMap fun i =>
            ((paths fan d).map (i :: ·)).filterMap (find child p) : List P) : Multiset P) := by
          simp only [pages, paths]
          rw [List.filterMap_cons_some hRoot, List.filterMap_flatMap, ← Multiset.cons_coe]
    _ = _ := by
          rw [← hSum]
          simp only [hChild]

/- A page without children is a tree of its own. -/
theorem pages_of_no_child (h : ∀ i < fan, child p i = none) : pages child fan d p = {p} := by
  cases d with
  | zero => exact pages_zero child fan p
  | succ d =>
    have hZero : ∀ l : List Nat, (∀ i ∈ l, i < fan) → (l.map fun i =>
        ((child p i).elim 0 (pages child fan d) : Multiset P)).sum = 0 := by
      intro l hl
      induction l with
      | nil => rfl
      | cons i l ih =>
        rw [List.map_cons, List.sum_cons, h i (hl i (by simp)), Option.elim_none,
          ih (fun j hj => hl j (by simp [hj]))]
        rfl
    rw [pages_succ, hZero _ (fun i hi => List.mem_range.mp hi)]
    rfl

-- A tree of real size has too many paths to list.
attribute [irreducible] paths

end Radix

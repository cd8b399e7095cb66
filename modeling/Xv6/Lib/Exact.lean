import Mathlib.Logic.Function.Basic

/-
  Numbered resources and the slots that own them.

  Resources below `lo` are reserved; those from `lo` on, up
  to `hi`, are marked as used exactly when a slot owns them,
  and no two slots own the same one. A slot that owns nothing
  holds zero.

  The rules used by name are:
    * `Exact.take`
    * `Exact.give`
    * `Exact.congr`
-/

structure Exact {ι : Type} (own : ι → Nat) (used : Nat → Bool) (lo hi : Nat) : Prop where
  range : ∀ x, own x ≠ 0 → lo ≤ own x ∧ own x < hi
  once : ∀ x y, own x ≠ 0 → own x = own y → x = y
  used : ∀ b, b < hi → (used b = true ↔ b < lo ∨ ∃ x, own x ≠ 0 ∧ own x = b)

namespace Exact

open Function (update update_self update_of_ne)

variable {ι : Type} {own own' : ι → Nat} {used used' : Nat → Bool} {lo hi : Nat}

section

variable (h : Exact own used lo hi)
include h

/- A resource that is not used has no owner. -/
theorem not_owned {b : Nat} (hb : b < hi) (hFree : used b = false) :
    lo ≤ b ∧ ∀ x, own x ≠ 0 → own x ≠ b := by
  have hNot : ¬ (b < lo ∨ ∃ x, own x ≠ 0 ∧ own x = b) := by
    rw [← h.used b hb, hFree]
    exact Bool.false_ne_true
  constructor
  · exact Nat.le_of_not_lt fun hLt => hNot (Or.inl hLt)
  · exact fun x hx hEq => hNot (Or.inr ⟨x, hx, hEq⟩)

theorem congr (hOwn : ∀ x, own' x = own x) (hUsed : ∀ b, b < hi → used' b = used b) :
    Exact own' used' lo hi where
  range x := by
    rw [hOwn]
    exact h.range x
  once x y := by
    rw [hOwn, hOwn]
    exact h.once x y
  used b hb := by
    simp only [hUsed b hb, hOwn]
    exact h.used b hb

/- A slot that owns nothing takes a free resource. -/
theorem take [DecidableEq ι] {x : ι} {b : Nat} (hb : b < hi) (hFree : used b = false) (hPos : b ≠ 0)
    (hx : own x = 0) (hOwn : ∀ y, own' y = update own x b y)
    (hUsed : ∀ c, c < hi → used' c = (decide (c = b) || used c)) : Exact own' used' lo hi := by
  rcases h.not_owned hb hFree with ⟨hLo, hNobody⟩
  have hSelf : own' x = b := by rw [hOwn, update_self]
  have hOther : ∀ y, y ≠ x → own' y = own y := by
    intro y hy
    rw [hOwn, update_of_ne hy]
  refine ⟨?_, ?_, ?_⟩
  · intro y hy
    by_cases hyx : y = x
    · rw [hyx, hSelf]
      exact ⟨hLo, hb⟩
    · rw [hOther y hyx] at hy ⊢
      exact h.range y hy
  · intro y z hy hEq
    by_cases hyx : y = x
    · by_cases hzx : z = x
      · rw [hyx, hzx]
      · rw [hyx, hSelf, hOther z hzx] at hEq
        exact absurd hEq.symm (hNobody z (by rw [← hEq]; exact hPos))
    · rw [hOther y hyx] at hy hEq
      by_cases hzx : z = x
      · rw [hzx, hSelf] at hEq
        exact absurd hEq (hNobody y hy)
      · rw [hOther z hzx] at hEq
        exact h.once y z hy hEq
  · intro c hc
    rw [hUsed c hc, Bool.or_eq_true, decide_eq_true_eq, h.used c hc]
    constructor
    · rintro (hEq | hLt | ⟨y, hy, hEq⟩)
      · right
        exact ⟨x, by rw [hSelf]; exact hPos, by rw [hSelf, hEq]⟩
      · exact Or.inl hLt
      have hyx : y ≠ x := by
        intro h'
        exact hy (h' ▸ hx)
      right
      refine ⟨y, ?_, ?_⟩
      · rw [hOther y hyx]
        exact hy
      · rw [hOther y hyx]
        exact hEq
    · rintro (hLt | ⟨y, hy, hEq⟩)
      · exact Or.inr (Or.inl hLt)
      · by_cases hyx : y = x
        · left
          rw [← hEq, hyx, hSelf]
        · rw [hOther y hyx] at hy hEq
          exact Or.inr (Or.inr ⟨y, hy, hEq⟩)

/- A slot gives its resource back. -/
theorem give [DecidableEq ι] {x : ι} (hx : own x ≠ 0) (hOwn : ∀ y, own' y = update own x 0 y)
    (hUsed : ∀ c, c < hi → used' c = (!decide (c = own x) && used c)) : Exact own' used' lo hi := by
  have hSelf : own' x = 0 := by rw [hOwn, update_self]
  have hOther : ∀ y, y ≠ x → own' y = own y := by
    intro y hy
    rw [hOwn, update_of_ne hy]
  have hLo := (h.range x hx).1
  refine ⟨?_, ?_, ?_⟩
  · intro y hy
    have hyx : y ≠ x := by
      intro h'
      exact hy (h' ▸ hSelf)
    rw [hOther y hyx] at hy ⊢
    exact h.range y hy
  · intro y z hy hEq
    have hyx : y ≠ x := by
      intro h'
      exact hy (h' ▸ hSelf)
    have hzx : z ≠ x := by
      intro h'
      rw [h', hSelf] at hEq
      exact hy hEq
    rw [hOther y hyx] at hy hEq
    rw [hOther z hzx] at hEq
    exact h.once y z hy hEq
  · intro c hc
    rw [hUsed c hc, Bool.and_eq_true, Bool.not_eq_true', decide_eq_false_iff_not, h.used c hc]
    constructor
    · rintro ⟨hNe, hLt | ⟨y, hy, hEq⟩⟩
      · exact Or.inl hLt
      have hyx : y ≠ x := by
        intro h'
        exact hNe (by rw [← hEq, h'])
      right
      refine ⟨y, ?_, ?_⟩
      · rw [hOther y hyx]
        exact hy
      · rw [hOther y hyx]
        exact hEq
    · rintro (hLt | ⟨y, hy, hEq⟩)
      · exact ⟨by omega, Or.inl hLt⟩
      · have hyx : y ≠ x := by
          intro h'
          exact hy (h' ▸ hSelf)
        rw [hOther y hyx] at hy hEq
        refine ⟨?_, Or.inr ⟨y, hy, hEq⟩⟩
        intro hc
        exact hyx (h.once y x hy (by rw [hEq, hc]))

end

end Exact

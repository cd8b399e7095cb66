import Xv6.Lib.Prog
import Mathlib.Algebra.BigOperators.Group.Finset.Piecewise

/-
  Programs that add a known amount to a measure.

  The measure of a state is in a commutative group. What a
  run adds depends on its result alone, so the amounts of
  the parts of a program add up.

  The rules used by name are:
    * `Prog.Adds.seq`
    * `Prog.Adds.bind`
    * `Prog.Adds.skip`
-/

namespace Prog

variable {σ ε α β G : Type} [AddCommGroup G] {I J K : σ → Prop} {v : σ → G} {x : Prog σ ε α}
variable {f : α → Prog σ ε β} {d : α → G} {e : β → G}

/- Every normal return leads from `I` to `J` and adds `d`. -/
def Adds (I J : σ → Prop) (v : σ → G) (x : Prog σ ε α) (d : α → G) : Prop :=
  ∀ s, I s → wp x (fun a s' => J s' ∧ v s' = v s + d a) (fun _ => True) s

theorem Adds.pure {a : α} (h : d a = 0) : Adds I I v (pure a : Prog σ ε α) d := by
  intro s hs
  rw [wp_pure, h, add_zero]
  exact ⟨hs, rfl⟩

theorem Adds.throw {c : ε} : Adds I J v (throw c : Prog σ ε α) d := by
  intro s hs
  rw [wp_throw]
  trivial

/- What the first part adds is no longer due. -/
theorem Adds.seq (hx : Adds I J v x d) (hf : ∀ a, Adds J K v (f a) fun b => e b - d a) :
    Adds I K v (x >>= f) e := by
  intro s hs
  rw [wp_bind]
  refine wp_post (hx s hs) ?_
  rintro a s' ⟨hs', hv⟩
  refine wp_post (hf a s' hs') ?_
  rintro b s'' ⟨hs'', hv'⟩
  refine ⟨hs'', ?_⟩
  rw [hv', hv, add_assoc, add_sub_cancel]

theorem Adds.bind (hx : Adds I I v x d) (hf : ∀ a, Adds I J v (f a) fun b => e b - d a) :
    Adds I J v (x >>= f) e := .seq hx hf

theorem Adds.skip (hx : Adds I I v x fun _ => 0) (hf : ∀ a, Adds I J v (f a) e) :
    Adds I J v (x >>= f) e := .bind hx fun a => by simpa only [sub_zero] using hf a

theorem Adds.get {f : σ → Prog σ ε β} (hf : ∀ s, Adds I J v (f s) e) :
    Adds I J v (get >>= f) e := by
  intro s hs
  rw [wp_bind, wp_get]
  exact hf s s hs

theorem Adds.pure_bind {a : α} (h : Adds I J v (f a) e) : Adds I J v (Pure.pure a >>= f) e := by
  intro s hs
  rw [wp_bind, wp_pure]
  exact h s hs

theorem Adds.modify {g : σ → σ} {c : G} (hg : ∀ s, I s → J (g s) ∧ v (g s) = v s + c) :
    Adds I J v (modify g : Prog σ ε PUnit) fun _ => c := by
  intro s hs
  rw [wp_modify]
  exact hg s hs

theorem Adds.ite {c : Prop} [Decidable c] {y : Prog σ ε α} (hx : Adds I J v x d)
    (hy : Adds I J v y d) : Adds I J v (if c then x else y) d := by
  split
  · exact hx
  · exact hy

theorem Adds.of_eq {d' : α → G} (hx : Adds I J v x d) (h : ∀ a, d a = d' a) : Adds I J v x d' := by
  rwa [← funext h]

/- The run from a later state. -/
theorem Adds.wp {s s' : σ} {d' : α → G} (hx : Adds I J v x d) (hs : I s')
    (hv : ∀ a, v s' + d a = v s + d' a) :
    Prog.wp x (fun a t => J t ∧ v t = v s + d' a) (fun _ => True) s' :=
  wp_post (hx s' hs) fun a _ ht => ⟨ht.1, ht.2.trans (hv a)⟩

/- A sum over a table in which one entry is changed. -/
theorem sum_update {τ : Type} (r : τ → G) (t : Nat → τ) (n i : Nat) (y : τ) :
    ∑ j ∈ Finset.range n, r (Function.update t i y j) =
      ∑ j ∈ Finset.range n, r (t j) + if i < n then r y - r (t i) else 0 := by
  have hEach : ∀ j, r (Function.update t i y j) = r (t j) + if j = i then r y - r (t i) else 0 := by
    intro j
    by_cases hj : j = i
    · simp [hj]
    · simp [hj]
  simp only [hEach, Finset.sum_add_distrib, Finset.sum_ite_eq', Finset.mem_range]

end Prog

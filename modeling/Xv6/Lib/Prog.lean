import Mathlib.Logic.Relation
import Mathlib.Tactic.Common

/-
  Stateful programs that may stop early, and their weakest
  preconditions.

  A program runs on a state and either returns a value with
  a new state or stops with a value of an exit type. The
  exit is an error the program raises or a point at which
  it is cut off from outside. `wp` asks for a postcondition
  on every normal return and for an exit condition on every
  early stop, so one rule set serves for panics and for
  crash conditions.

  The rules used by name are:
    * `Prog.wp_bind`
    * `Prog.wp_focus`
    * `Prog.wp_mono`
-/

---- Programs

/- A program over states `σ` with early exits `ε`. -/
abbrev Prog (σ ε α : Type) := StateT σ (Except ε) α

namespace Prog

variable {σ ε α β : Type} {x : Prog σ ε α} {Q : α → σ → Prop} {E : ε → Prop} {s : σ}

/- The weakest precondition: normal returns satisfy `Q`, and early exits satisfy `E`. -/
def wp (x : Prog σ ε α) (Q : α → σ → Prop) (E : ε → Prop) (s : σ) : Prop :=
  match x s with
  | .ok (a, s') => Q a s'
  | .error e => E e

---- Structural Rules

@[simp] theorem wp_pure (a : α) (Q : α → σ → Prop) (E : ε → Prop) (s : σ) :
    wp (pure a : Prog σ ε α) Q E s ↔ Q a s := Iff.rfl

/- Sequencing composes the two preconditions. -/
@[simp] theorem wp_bind (x : Prog σ ε α) (f : α → Prog σ ε β) (Q : β → σ → Prop) (E : ε → Prop)
    (s : σ) : wp (x >>= f) Q E s ↔ wp x (fun a s' => wp (f a) Q E s') E s := by
  unfold wp
  simp only [bind, StateT.bind, Except.bind]
  cases x s with
  | error e => rfl
  | ok r => rfl

@[simp] theorem wp_get (Q : σ → σ → Prop) (E : ε → Prop) (s : σ) :
    wp (get : Prog σ ε σ) Q E s ↔ Q s s := Iff.rfl

@[simp] theorem wp_set (t : σ) (Q : PUnit → σ → Prop) (E : ε → Prop) (s : σ) :
    wp (set t : Prog σ ε PUnit) Q E s ↔ Q ⟨⟩ t := Iff.rfl

@[simp] theorem wp_modify (f : σ → σ) (Q : PUnit → σ → Prop) (E : ε → Prop) (s : σ) :
    wp (modify f : Prog σ ε PUnit) Q E s ↔ Q ⟨⟩ (f s) := Iff.rfl

@[simp] theorem wp_throw (e : ε) (Q : α → σ → Prop) (E : ε → Prop) (s : σ) :
    wp (throw e : Prog σ ε α) Q E s ↔ E e := Iff.rfl

theorem wp_map (g : α → β) (x : Prog σ ε α) (Q : β → σ → Prop) (E : ε → Prop) (s : σ) :
    wp (g <$> x) Q E s ↔ wp x (fun a s' => Q (g a) s') E s := by
  rw [map_eq_pure_bind, wp_bind]
  rfl

theorem wp_ite (c : Prop) [Decidable c] (x y : Prog σ ε α) (Q : α → σ → Prop) (E : ε → Prop) (s : σ) :
    wp (if c then x else y) Q E s ↔ (c → wp x Q E s) ∧ (¬ c → wp y Q E s) := by
  by_cases h : c <;> simp [h]

---- Parts Of The State

/- Run a program on a part of the state. -/
def focus {τ : Type} (view : σ → τ) (put : σ → τ → σ) (x : Prog τ ε α) : Prog σ ε α :=
  fun s =>
    match x (view s) with
    | .ok (a, t) => .ok (a, put s t)
    | .error e => .error e

@[simp] theorem wp_focus {τ : Type} (view : σ → τ) (put : σ → τ → σ) (x : Prog τ ε α)
    (Q : α → σ → Prop) (E : ε → Prop) (s : σ) :
    wp (focus view put x) Q E s ↔ wp x (fun a t => Q a (put s t)) E (view s) := by
  unfold wp focus
  cases x (view s) with
  | error e => rfl
  | ok r => rfl

/- Run a program on a part of the state, with its exits read as exits of the whole. -/
def within {τ δ : Type} (view : σ → τ) (put : σ → τ → σ) (exit : δ → ε) (x : Prog τ δ α) :
    Prog σ ε α :=
  fun s =>
    match x (view s) with
    | .ok (a, t) => .ok (a, put s t)
    | .error e => .error (exit e)

@[simp] theorem wp_within {τ δ : Type} (view : σ → τ) (put : σ → τ → σ) (exit : δ → ε)
    (x : Prog τ δ α) (Q : α → σ → Prop) (E : ε → Prop) (s : σ) :
    wp (within view put exit x) Q E s ↔
      wp x (fun a t => Q a (put s t)) (fun e => E (exit e)) (view s) := by
  unfold wp within
  cases x (view s) with
  | error e => rfl
  | ok r => rfl

---- Consequence

/- Weakening the postcondition and the exit condition. -/
theorem wp_mono {R : α → σ → Prop} {F : ε → Prop} (h : wp x Q E s) (hPost : ∀ a s', Q a s' → R a s')
    (hExit : ∀ e, E e → F e) : wp x R F s := by
  unfold wp at *
  cases hRun : x s with
  | error e =>
    rw [hRun] at h
    exact hExit e h
  | ok r =>
    rw [hRun] at h
    exact hPost r.1 r.2 h

/- Weakening the postcondition alone. -/
theorem wp_post {R : α → σ → Prop} (h : wp x Q E s) (hPost : ∀ a s', Q a s' → R a s') :
    wp x R E s := wp_mono h hPost (fun _ hE => hE)

/- Two postconditions of one run. -/
theorem wp_and {R : α → σ → Prop} (h : wp x Q E s) (h' : wp x R E s) :
    wp x (fun a s' => Q a s' ∧ R a s') E s := by
  unfold wp at *
  cases hRun : x s with
  | error e =>
    rw [hRun] at h
    exact h
  | ok r =>
    rw [hRun] at h h'
    exact ⟨h, h'⟩

theorem wp_true (x : Prog σ ε α) (s : σ) : wp x (fun _ _ => True) (fun _ => True) s := by
  unfold wp
  cases x s with
  | error e => trivial
  | ok r => trivial

/- The precondition read along a run that returns. -/
theorem wp_of_eq_ok {s' : σ} {a : α} (h : wp x Q E s) (hRun : x s = .ok (a, s')) : Q a s' := by
  unfold wp at h
  rw [hRun] at h
  exact h

/- A postcondition may name the run. -/
theorem wp_eq (h : wp x (fun a s' => x s = .ok (a, s') → Q a s') E s) : wp x Q E s := by
  unfold wp at *
  cases hRun : x s with
  | error e =>
    rw [hRun] at h
    exact h
  | ok r =>
    rw [hRun] at h
    exact h rfl

/- The precondition read along a run that stops early. -/
theorem wp_of_eq_error {e : ε} (h : wp x Q E s) (hRun : x s = .error e) : E e := by
  unfold wp at h
  rw [hRun] at h
  exact h

/- Programs with the same run have the same preconditions. -/
theorem wp_congr {y : Prog σ ε α} (h : x s = y s) : wp x Q E s ↔ wp y Q E s := by
  unfold wp
  rw [h]

/- A program after one that returns. -/
theorem bind_of_ok {f : α → Prog σ ε β} {a : α} {s' : σ} (h : x s = .ok (a, s')) :
    (x >>= f) s = f a s' := by
  simp only [bind, StateT.bind, h, Except.bind]

/- Without early exits the program returns. -/
theorem exists_ok_of_wp (h : wp x Q (fun _ => False) s) : ∃ a s', x s = .ok (a, s') ∧ Q a s' := by
  unfold wp at h
  cases hRun : x s with
  | error e =>
    rw [hRun] at h
    exact h.elim
  | ok r =>
    rw [hRun] at h
    exact ⟨r.1, r.2, rfl, h⟩

---- Parts That Stay

/- Every normal return leaves the view `v` of the state. -/
def Preserves {ν : Type} (v : σ → ν) (x : Prog σ ε α) : Prop :=
  ∀ s, wp x (fun _ s' => v s' = v s) (fun _ => True) s

section

variable {ν : Type} {v : σ → ν}

theorem Preserves.pure (a : α) : Preserves v (pure a : Prog σ ε α) := by
  intro s
  rw [wp_pure]

theorem Preserves.bind {x : Prog σ ε α} {f : α → Prog σ ε β} (hx : Preserves v x)
    (hf : ∀ a, Preserves v (f a)) : Preserves v (x >>= f) := by
  intro s
  rw [wp_bind]
  refine wp_post (hx s) ?_
  intro a s' hSame
  refine wp_post (hf a s') ?_
  intro b s'' hSame'
  exact hSame'.trans hSame

theorem Preserves.get : Preserves v (get : Prog σ ε σ) := by
  intro s
  rw [wp_get]

theorem Preserves.modify {f : σ → σ} (h : ∀ s, v (f s) = v s) :
    Preserves v (modify f : Prog σ ε PUnit) := by
  intro s
  rw [wp_modify]
  exact h s

theorem Preserves.throw (e : ε) : Preserves v (throw e : Prog σ ε α) := by
  intro s
  rw [wp_throw]
  trivial

theorem Preserves.ite {c : Prop} [Decidable c] {x y : Prog σ ε α} (hx : Preserves v x)
    (hy : Preserves v y) : Preserves v (if c then x else y) := by
  by_cases h : c
  · rw [if_pos h]
    exact hx
  · rw [if_neg h]
    exact hy

theorem Preserves.focus {τ : Type} {view : σ → τ} {put : σ → τ → σ} (h : ∀ s t, v (put s t) = v s)
    (x : Prog τ ε α) : Preserves v (focus view put x) := by
  intro s
  rw [wp_focus]
  refine wp_post (wp_true x (view s)) ?_
  intro a t _
  exact h s t

/- What depends on the view alone goes through. -/
theorem Preserves.wp {x : Prog σ ε α} {Q : α → σ → Prop} {s : σ} (h : Preserves v x)
    (hPost : ∀ a s', v s' = v s → Q a s') : Prog.wp x Q (fun _ => True) s := wp_post (h s) hPost

end

-- Only the rules above open `wp`: unification would
-- otherwise run the program.
attribute [irreducible] wp

end Prog

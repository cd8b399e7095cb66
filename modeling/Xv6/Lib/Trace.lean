import Xv6.Lib.Prog

/-
  Programs that leave a trace.

  A traced program emits events beside its work on the
  state. `Erases x y` says that `x` is `y` with events added:
  forgetting the trace gives the run of `y`.

  The rules used by name are:
    * `Prog.wp_untraced_get`
    * `Prog.Erases.bind`
    * `Prog.Erases.emit`
-/

/- A state with the events so far. -/
structure Traced (σ ι : Type) where
  state : σ
  trace : List ι

namespace Prog

variable {σ ι ε α β : Type} {x x' : Prog (Traced σ ι) ε α} {y y' : Prog σ ε α}

---- Traced Programs

/- A program without events. -/
def untraced (x : Prog σ ε α) : Prog (Traced σ ι) ε α :=
  focus Traced.state (fun s t => { s with state := t }) x

def emit (i : ι) : Prog (Traced σ ι) ε Unit := modify fun s => { s with trace := s.trace ++ [i] }

@[simp] theorem wp_untraced (x : Prog σ ε α) (Q : α → Traced σ ι → Prop) (E : ε → Prop)
    (s : Traced σ ι) :
    wp (untraced x) Q E s ↔ wp x (fun a t => Q a { s with state := t }) E s.state :=
  wp_focus _ _ x Q E s

/- Reading the state under a trace. -/
theorem wp_untraced_get (f : σ → Prog (Traced σ ι) ε α) (Q : α → Traced σ ι → Prop) (E : ε → Prop)
    (s : Traced σ ι) : wp (do let t ← untraced get; f t) Q E s ↔ wp (f s.state) Q E s := by
  rw [wp_bind, wp_untraced, wp_get]

@[simp] theorem wp_emit (i : ι) (Q : Unit → Traced σ ι → Prop) (E : ε → Prop) (s : Traced σ ι) :
    wp (emit i) Q E s ↔ Q () { s with trace := s.trace ++ [i] } := wp_modify _ Q E s

---- Erasure

/- `x` is `y` with events added. -/
def Erases (x : Prog (Traced σ ι) ε α) (y : Prog σ ε α) : Prop :=
  ∀ s, (x s).map (fun r => (r.1, r.2.state)) = y s.state

theorem Erases.untraced (y : Prog σ ε α) : Erases (untraced y : Prog (Traced σ ι) ε α) y := by
  intro s
  unfold Prog.untraced focus
  cases y s.state with
  | error e => rfl
  | ok r => rfl

theorem Erases.pure (a : α) : Erases (pure a : Prog (Traced σ ι) ε α) (pure a) := by
  intro s
  rfl

theorem Erases.throw (e : ε) : Erases (throw e : Prog (Traced σ ι) ε α) (throw e) := by
  intro s
  rfl

theorem Erases.bind {f : α → Prog (Traced σ ι) ε β} {g : α → Prog σ ε β} (hx : Erases x y)
    (hf : ∀ a, Erases (f a) (g a)) : Erases (x >>= f) (y >>= g) := by
  intro s
  have h := hx s
  simp only [Bind.bind, StateT.bind, Except.bind]
  rw [← h]
  cases x s with
  | error e => rfl
  | ok r => exact hf r.1 r.2

/- An event changes nothing. -/
theorem Erases.emit (i : ι) (h : Erases x y) : Erases (do emit i; x) y := by
  intro s
  exact h { s with trace := s.trace ++ [i] }

theorem Erases.ite {c : Prop} [Decidable c] (h : Erases x y) (h' : Erases x' y') :
    Erases (if c then x else x') (if c then y else y') := by
  by_cases hc : c
  · rw [if_pos hc, if_pos hc]
    exact h
  · rw [if_neg hc, if_neg hc]
    exact h'

/- A traced run that returns is a run of the program. -/
theorem Erases.exists_ok (h : Erases x y) {Q : α → Traced σ ι → Prop} {s : Traced σ ι}
    (hRun : wp x Q (fun _ => False) s) :
    ∃ a t, x s = .ok (a, t) ∧ y s.state = .ok (a, t.state) ∧ Q a t := by
  rcases exists_ok_of_wp hRun with ⟨a, t, hOk, hPost⟩
  refine ⟨a, t, hOk, ?_, hPost⟩
  rw [← h s, hOk]
  rfl

end Prog

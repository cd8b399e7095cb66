import Xv6.Log.Grouping

/-
  Log space and reservations.

  `begin_op` reserves `MAXOPBLOCKS` slots for each admitted
  operation against `LOGSIZE`, while `log_write` refuses a
  header with `log.size - 1` entries, also for a block that
  would be absorbed. With `log.size = LOGSIZE`, as `mkfs`
  writes it, three operations that use their reservations
  run into the panic.

  A schedule avoids the panic exactly when no `log_write` is
  called after the open transaction has collected
  `LOGSIZE - 1` distinct blocks.

  Main declarations:
    * `Roomy`
    * `no_tooBig_iff_roomy`
    * `tooBig_of_three_full_operations`
-/

namespace Xv6.Log

variable {s s' : State} {blocks : List Nat}

---- Schedules

/-
  Each operation of the schedule calls `log_write` on at
  most `MAXOPBLOCKS` distinct blocks. `used p` lists the
  blocks the current operation of `p` has logged.
-/
def Bounded : (Nat → List Nat) → List Action → Prop
| _, [] => True
| used, .beginOp p :: as => Bounded (fun q => if q = p then [] else used q) as
| used, .logWrite p b :: as =>
  (used p ++ [b]).toFinset.card ≤ MAXOPBLOCKS ∧
    Bounded (fun q => if q = p then used p ++ [b] else used q) as
| used, .endOp _ :: as => Bounded used as
| used, .commit _ _ :: as => Bounded used as

/-
  No `log_write` of the schedule is called when the open
  transaction has `LOGSIZE - 1` distinct blocks. `blocks`
  lists what was logged since the last commit.
-/
def Roomy : List Nat → List Action → Prop
| _, [] => True
| blocks, .logWrite _ b :: as => blocks.toFinset.card < LOGSIZE - 1 ∧ Roomy (blocks ++ [b]) as
| _, .commit _ .clear :: as => Roomy [] as
| blocks, .commit _ .test :: as | blocks, .commit _ (.log _) :: as
| blocks, .commit _ .head :: as | blocks, .commit _ (.install _) :: as
| blocks, .commit _ .erase :: as | blocks, .commit _ .finish :: as
| blocks, .beginOp _ :: as | blocks, .endOp _ :: as => Roomy blocks as

/- A panicking or unfinished run reports its first panic. -/
theorem run_cons_ok {a : Action} (as : List Action) (hStep : step s a = some (.ok s')) :
    run s (a :: as) = run s' as := by
  simp [run, hStep]

theorem run_cons_error {a : Action} {e : LogPanic} (as : List Action)
    (hStep : step s a = some (.error e)) : run s (a :: as) = some (.error e) := by
  simp [run, hStep]

---- Header And History

/- The header lists the blocks logged since the commit. -/
structure Tracks (s : State) (blocks : List Nat) : Prop where
  size : s.size = LOGSIZE
  nodup : s.lh.Nodup
  same : ∀ b, b ∈ s.lh ↔ b ∈ blocks

section

variable (h : Tracks s blocks)
include h

theorem Tracks.length_eq : s.lh.length = blocks.toFinset.card := by
  rw [← List.toFinset_card_of_nodup h.nodup]
  congr 1
  ext b
  simp [h.same b]

theorem Tracks.of_eq (hSize : s'.size = s.size) (hLh : s'.lh = s.lh) : Tracks s' blocks := by
  constructor
  · rw [hSize]
    exact h.size
  · rw [hLh]
    exact h.nodup
  · rw [hLh]
    exact h.same

theorem Tracks.beginOp (p : Nat) : Tracks (beginOp s p) blocks := by
  unfold Log.beginOp
  split
  · exact h.of_eq rfl rfl
  · split
    · exact h.of_eq rfl rfl
    · exact h.of_eq rfl rfl

theorem Tracks.endOp {p : Nat} (hStep : endOp s p = .ok s') : Tracks s' blocks := by
  unfold Log.endOp at hStep
  split at hStep
  · exact absurd hStep (by simp)
  · split at hStep
    · cases hStep
      exact h.of_eq rfl rfl
    · cases hStep
      exact h.of_eq rfl rfl

theorem Tracks.logWrite {p b : Nat} (hStep : logWrite s p b = .ok s') :
    Tracks s' (blocks ++ [b]) := by
  unfold Log.logWrite at hStep
  split at hStep
  · exact absurd hStep (by simp)
  split at hStep
  · exact absurd hStep (by simp)
  · cases hStep
    constructor
    · exact h.size
    · exact nodup_absorb b h.nodup
    · intro c
      rw [mem_absorb, h.same c, List.mem_append, List.mem_singleton]
      exact or_comm

theorem Tracks.logWrite_tooBig_iff (p b : Nat) :
    Log.logWrite s p b = .error .tooBig ↔ ¬ blocks.toFinset.card < LOGSIZE - 1 := by
  have hLen := h.length_eq
  have hSize := h.size
  simp only [LOGSIZE, MAXOPBLOCKS] at hSize ⊢
  unfold Log.logWrite
  split
  · rename_i hFull
    simp only [LOGSIZE, MAXOPBLOCKS] at hFull
    simp only [true_iff]
    omega
  · rename_i hRoom
    simp only [LOGSIZE, MAXOPBLOCKS] at hRoom
    constructor
    · intro hErr
      split at hErr <;> simp at hErr
    · intro hNot
      omega

end

/- The blocks of the open transaction after one action. -/
def after (blocks : List Nat) : Action → List Nat
| .logWrite _ b => blocks ++ [b]
| .commit _ .clear => []
| _ => blocks

theorem Tracks.step {a : Action} (h : Tracks s blocks) (hStep : step s a = some (.ok s')) :
    Tracks s' (after blocks a) := by
  cases a with
  | beginOp p =>
    simp only [Log.step] at hStep
    split at hStep
    · cases hStep
      exact h.beginOp p
    · exact absurd hStep (by simp)
  | logWrite p b =>
    simp only [Log.step] at hStep
    split at hStep
    · exact h.logWrite (Option.some.inj hStep)
    · exact absurd hStep (by simp)
  | endOp p =>
    simp only [Log.step] at hStep
    split at hStep
    · exact h.endOp (Option.some.inj hStep)
    · exact absurd hStep (by simp)
  | commit p c =>
    simp only [Log.step] at hStep
    split at hStep
    · cases hStep
      cases c with
      | test =>
        simp only [Log.commitStep]
        split <;> exact h.of_eq rfl rfl
      | log tail | install tail =>
        simp only [Log.commitStep]
        split <;> exact h.of_eq rfl rfl
      | clear =>
        exact ⟨h.size, List.nodup_nil, fun b => by
          simp [Log.commitStep, after]⟩
      | head => exact h.of_eq rfl rfl
      | erase => exact h.of_eq rfl rfl
      | finish => exact h.of_eq rfl rfl
    · exact absurd hStep (by simp)

---- Runs

theorem roomy_cons_iff (blocks : List Nat) (a : Action) (as : List Action) :
    Roomy blocks (a :: as) ↔ (∀ p b, a = .logWrite p b → blocks.toFinset.card < LOGSIZE - 1) ∧
      Roomy (after blocks a) as := by
  cases a with
  | beginOp p => simp [Roomy, after]
  | logWrite p b => simp [Roomy, after]
  | endOp p => simp [Roomy, after]
  | commit p c => cases c <;> simp [Roomy, after]

/- Along a run, by induction on the schedule. -/
theorem run_ne_tooBig_iff (hGrouped : Grouped s) (h : Tracks s blocks) (as : List Action)
    (hRuns : run s as ≠ none) : run s as ≠ some (.error .tooBig) ↔ Roomy blocks as := by
  induction as generalizing s blocks with
  | nil => simp [run, Roomy]
  | cons a as ih =>
    cases hStep : Log.step s a with
    | none => simp [run, hStep] at hRuns
    | some r =>
      rw [roomy_cons_iff]
      cases r with
      | ok s' =>
        rw [run_cons_ok as hStep] at hRuns ⊢
        rw [ih (hGrouped.step hStep) (h.step hStep) hRuns]
        constructor
        · intro hRoomy
          refine ⟨?_, hRoomy⟩
          rintro p b rfl
          by_contra hFull
          have hErr := (h.logWrite_tooBig_iff p b).mpr hFull
          simp only [Log.step] at hStep
          split at hStep
          · rw [hErr] at hStep
            simp at hStep
          · exact absurd hStep (by simp)
        · exact And.right
      | error e =>
        -- the panic is `tooBig`, raised by `log_write`
        rw [run_cons_error as hStep]
        have hBig := hGrouped.panic_eq_tooBig hStep
        subst hBig
        constructor
        · intro hNe
          exact absurd rfl hNe
        rintro ⟨hRoom, _⟩
        exfalso
        cases a with
        | logWrite p b =>
          simp only [Log.step] at hStep
          split at hStep
          · have hErr := Option.some.inj hStep
            exact (h.logWrite_tooBig_iff p b).mp hErr (hRoom p b rfl)
          · exact absurd hStep (by simp)
        | beginOp p =>
          simp only [Log.step] at hStep
          split at hStep <;> simp at hStep
        | endOp p =>
          simp only [Log.step] at hStep
          split at hStep
          · have hErr := Option.some.inj hStep
            unfold Log.endOp at hErr
            split at hErr
            · simp at hErr
            · split at hErr <;> simp at hErr
          · exact absurd hStep (by simp)
        | commit p c =>
          simp only [Log.step] at hStep
          split at hStep <;> simp at hStep

/-
  For every schedule of begin, log-write, end and commit
  steps on a freshly booted log of the size `mkfs` writes:
  no `log_write` panics if and only if none is called after
  the open transaction has collected `LOGSIZE - 1` distinct
  blocks.
-/
theorem no_tooBig_iff_roomy (as : List Action) (hRuns : run (State.init LOGSIZE) as ≠ none) :
    run (State.init LOGSIZE) as ≠ some (.error .tooBig) ↔ Roomy [] as := by
  apply run_ne_tooBig_iff (grouped_init _) _ as hRuns
  exact ⟨rfl, List.nodup_nil, by simp [State.init]⟩

/- Two operations that log a block each and end. -/
theorem no_tooBig_iff_roomy_sample :
    run (State.init LOGSIZE)
        [.beginOp 0, .beginOp 1, .logWrite 0 46, .logWrite 1 47, .endOp 1, .endOp 0] ≠ none ∧
      run (State.init LOGSIZE)
          [.beginOp 0, .beginOp 1, .logWrite 0 46, .logWrite 1 47, .endOp 1, .endOp 0] ≠
        some (.error .tooBig) := by
  have hRuns : run (State.init LOGSIZE)
      [.beginOp 0, .beginOp 1, .logWrite 0 46, .logWrite 1 47, .endOp 1, .endOp 0] ≠ none := by
    intro hNone
    cases hNone
  refine ⟨hRuns, (no_tooBig_iff_roomy _ hRuns).mpr ?_⟩
  refine ⟨?_, ?_, trivial⟩ <;> decide

---- Three Full Operations

/- Three operations are admitted together and each logs ten blocks of its own, as reserved. -/
def threeFull : List Action :=
  [.beginOp 0, .beginOp 1, .beginOp 2] ++
    (List.range 30).map (fun k => .logWrite (k / MAXOPBLOCKS) (46 + k))

/- The last of the thirty reserved blocks panics. -/
theorem tooBig_of_three_full_operations :
    Bounded (fun _ => []) threeFull ∧
      run (State.init LOGSIZE) threeFull = some (.error .tooBig) := by
  constructor
  · simp only [threeFull, List.range, List.range.loop, List.map, List.cons_append, List.nil_append,
      Bounded, MAXOPBLOCKS]
    decide
  · rfl

end Xv6.Log

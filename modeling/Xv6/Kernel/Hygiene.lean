import Xv6.Kernel.Boot

/-
  Slots of the process table that are not in use.

  `allocproc` relies on what the last user of a slot left
  there. Every call leaves free slots as `freeproc` made
  them, but for `kill(0)`: free slots have number `0`.

  Main declarations:
    * `Tidy`
    * `unused_slots_tidy`
    * `kill_zero_marks_free_slot`
-/

namespace Xv6.Kernel

open Function (update update_self update_of_ne update_idem)

open Prog

open Vm

---- Labels

/- What a slot says about its process beside its memory. -/
structure Label where
  state : ProcState
  chan : Option Nat
  killed : Bool
  xstate : Int
  pid : Int
  parent : Option Nat

/- The label that `freeproc` leaves. -/
def Label.free : Label where
  state := .unused
  chan := none
  killed := false
  xstate := 0
  pid := 0
  parent := none

def Proc.label (p : Proc) : Label where
  state := p.state
  chan := p.chan
  killed := p.killed
  xstate := p.xstate
  pid := p.pid
  parent := p.parent

/- The labels of all slots. -/
def labels (s : State) (j : Nat) : Label := (s.proc j).label

/- A free slot has the label of `freeproc`. -/
def Label.Tidy (l : Label) : Prop := l.state = .unused → l = .free

---- Calls That Leave The Labels

/- The program leaves all labels. -/
abbrev Quiet {α : Type} (x : KernelM α) : Prop := Preserves labels x

theorem quiet_vm {α : Type} (x : VmM α) : Quiet (vm x) := by
  refine Preserves.focus ?_ x
  exact fun _ _ => rfl

theorem labels_update {s : State} {i : Nat} {p : Proc} (h : p.label = (s.proc i).label) :
    labels { s with proc := update s.proc i p } = labels s := by
  funext j
  unfold labels
  dsimp only
  by_cases hEq : j = i
  · rw [hEq, update_self]
    exact h
  · rw [update_of_ne hEq]

theorem quiet_setProc {change : Proc → Proc} (i : Nat) (h : ∀ p, (change p).label = p.label) :
    Quiet (setProc i change) := Preserves.modify fun _ => labels_update (h _)

theorem quiet_getProc (i : Nat) : Quiet (getProc i) := Preserves.get.bind fun _ => Preserves.pure _

theorem quiet_setFile (f : Nat) (change : File → File) : Quiet (setFile f change) :=
  Preserves.modify fun _ => rfl

theorem quiet_setOfile (i fd : Nat) (v : Option Nat) : Quiet (setOfile i fd v) :=
  quiet_setProc i fun _ => rfl

theorem quiet_filealloc : Quiet filealloc := by
  refine Preserves.get.bind fun s => ?_
  split
  · exact Preserves.pure _
  · exact (quiet_setFile _ _).bind fun _ =>
      Preserves.pure _

theorem quiet_filedup (f : Nat) : Quiet (filedup f) := by
  refine Preserves.get.bind fun s => ?_
  refine Preserves.ite ((Preserves.throw _).bind fun _ => ?_) ?_
  all_goals
    exact (quiet_setFile _ _).bind fun _ =>
      Preserves.pure _

theorem quiet_fileclose (kend f : Nat) : Quiet (fileclose kend f) := by
  have hRest : ∀ ff : File, Quiet (if ff.ref - 1 > 0 then
        setFile f fun file => { file with ref := ff.ref - 1 }
      else do
        setFile f fun file => { file with ref := 0, type := .none }
        if ff.type = .pipe then
          vm (pipeclose kend ff.pipe ff.writable)) := by
    intro ff
    refine (quiet_setFile _ _).ite ?_
    refine (quiet_setFile _ _).bind fun _ => ?_
    exact (quiet_vm _).ite (Preserves.pure _)
  refine Preserves.get.bind fun s => ?_
  exact ((Preserves.throw _).bind fun _ => hRest _).ite (hRest _)

theorem quiet_pipealloc (kend : Nat) : Quiet (pipealloc kend) := by
  refine quiet_filealloc.bind fun r => ?_
  cases r with
  | none => exact Preserves.pure _
  | some f0 =>
    refine quiet_filealloc.bind fun r => ?_
    cases r with
    | none =>
      exact (quiet_fileclose _ _).bind fun _ =>
        Preserves.pure _
    | some f1 =>
      refine (quiet_vm _).bind fun pi => ?_
      refine Preserves.ite ?_ ?_
      · exact (quiet_fileclose _ _).bind fun _ =>
          (quiet_fileclose _ _).bind fun _ =>
            Preserves.pure _
      · exact (quiet_vm _).bind fun _ =>
          (quiet_vm _).bind fun _ =>
            (quiet_vm _).bind fun _ =>
              (quiet_vm _).bind fun _ =>
                (quiet_setFile _ _).bind fun _ =>
                  (quiet_setFile _ _).bind fun _ =>
                    Preserves.pure _

theorem quiet_fdalloc (i f : Nat) : Quiet (fdalloc i f) := by
  refine (quiet_getProc i).bind fun p => ?_
  split
  · exact Preserves.pure _
  · exact (quiet_setOfile _ _ _).bind fun _ =>
      Preserves.pure _

theorem quiet_sysPipe (kend i fdarray : Nat) : Quiet (sysPipe kend i fdarray) := by
  have hClose : ∀ rf wf, Quiet (do
      fileclose kend rf
      fileclose kend wf
      pure (-1 : Int)) :=
    fun rf wf => (quiet_fileclose _ _).bind fun _ =>
      (quiet_fileclose _ _).bind fun _ =>
        Preserves.pure _
  refine (quiet_pipealloc kend).bind fun r => ?_
  cases r with
  | none => exact Preserves.pure _
  | some ends =>
    refine (quiet_fdalloc i ends.1).bind fun r => ?_
    cases r with
    | none => exact hClose _ _
    | some fd0 =>
      refine (quiet_fdalloc i ends.2).bind fun r => ?_
      cases r with
      | none =>
        exact (quiet_setOfile _ _ _).bind fun _ =>
          hClose _ _
      | some fd1 =>
        refine (quiet_getProc i).bind fun p => ?_
        refine (quiet_vm _).bind fun r0 => ?_
        have hEnd : ∀ r1 : Int, Quiet (if r1 < 0 then do
              setOfile i fd0 none
              setOfile i fd1 none
              fileclose kend ends.1
              fileclose kend ends.2
              pure (-1 : Int)
            else
              pure 0) := by
          intro r1
          refine Preserves.ite ?_ (Preserves.pure _)
          exact (quiet_setOfile _ _ _).bind fun _ =>
            (quiet_setOfile _ _ _).bind fun _ =>
              hClose _ _
        exact ((Preserves.pure _).bind hEnd).ite ((quiet_vm _).bind hEnd)

theorem quiet_sysClose (kend i : Nat) (fd : Int) : Quiet (sysClose kend i fd) := by
  refine (quiet_getProc i).bind fun p => ?_
  cases argfd p fd with
  | none => exact Preserves.pure _
  | some f =>
    exact (quiet_setOfile _ _ _).bind fun _ =>
      (quiet_fileclose _ _).bind fun _ =>
        Preserves.pure _

theorem quiet_sysSbrk (kend i : Nat) (n : Int) : Quiet (sysSbrk kend i n) := by
  have hGrow : Quiet (growproc kend i n) := by
    refine (quiet_getProc i).bind fun p => ?_
    refine Preserves.ite ?_ (Preserves.ite ?_ ?_)
    · refine (quiet_vm _).bind fun sz => ?_
      refine (Preserves.pure _).ite ?_
      refine Preserves.bind (quiet_setProc i ?_) fun _ => Preserves.pure _
      exact fun _ => rfl
    · refine (quiet_vm _).bind fun sz => ?_
      refine Preserves.bind (quiet_setProc i ?_) fun _ => Preserves.pure _
      exact fun _ => rfl
    · refine Preserves.bind (quiet_setProc i ?_) fun _ => Preserves.pure _
      exact fun _ => rfl
  refine (quiet_getProc i).bind fun p => ?_
  refine hGrow.bind fun r => ?_
  exact (Preserves.pure _).ite (Preserves.pure _)

theorem quiet_exec (L : Layout) (i : Nat) (ip : Option Inode) (argv : List Nat) :
    Quiet (exec L i ip argv) := by
  cases ip with
  | none => exact Preserves.pure _
  | some ip =>
    refine (Preserves.pure _).ite ((Preserves.pure _).ite ?_)
    refine (quiet_getProc i).bind fun p => ?_
    refine (quiet_vm _).bind fun r => ?_
    cases r with
    | none => exact Preserves.pure _
    | some image =>
      refine (quiet_vm _).bind fun _ => ?_
      refine Preserves.bind (quiet_setProc i ?_) fun _ => ?_
      · exact fun _ => rfl
      · exact (quiet_vm _).bind fun _ =>
          (quiet_vm _).bind fun _ =>
            (quiet_vm _).bind fun _ =>
              Preserves.pure _

theorem quiet_sysExec (L : Layout) (i path uargv : Nat) (ip : Option Inode) :
    Quiet (sysExec L i path uargv ip) := by
  refine (quiet_getProc i).bind fun p => ?_
  refine (quiet_vm _).bind fun r => ?_
  cases r with
  | none => exact Preserves.pure _
  | some str =>
    refine (quiet_vm _).bind fun args => ?_
    refine Preserves.ite ?_ ?_
    · exact (quiet_vm _).bind fun _ =>
        Preserves.pure _
    · exact (quiet_exec _ _ _ _).bind fun _ =>
        (quiet_vm _).bind fun _ => Preserves.pure _

theorem quiet_return (i : Nat) (r : Int) : Quiet (return_ i r) :=
  (quiet_getProc i).bind fun _ =>
    (quiet_vm _).bind fun _ => Preserves.pure _

theorem quiet_dupFiles (i np : Nat) (fds : List Nat) : Quiet (dupFiles i np fds) := by
  induction fds with
  | nil => exact Preserves.pure _
  | cons fd fds ih =>
    refine (quiet_getProc i).bind fun p => ?_
    cases p.ofile fd with
    | none => exact ih
    | some f =>
      exact (quiet_filedup f).bind fun _ =>
        (quiet_setOfile _ _ _).bind fun _ => ih

theorem quiet_closeFiles (kend i : Nat) (fds : List Nat) : Quiet (closeFiles kend i fds) := by
  induction fds with
  | nil => exact Preserves.pure _
  | cons fd fds ih =>
    refine (quiet_getProc i).bind fun p => ?_
    cases p.ofile fd with
    | none => exact ih
    | some f =>
      exact (quiet_fileclose _ _).bind fun _ =>
        (quiet_setOfile _ _ _).bind fun _ => ih

---- Calls That Change Labels

/- Tidy slots stay tidy. -/
def Calm (s s' : State) : Prop := ∀ j, (labels s j).Tidy → (labels s' j).Tidy

theorem Calm.of_eq {s s' : State} (h : labels s' = labels s) : Calm s s' := by
  intro j hj
  rw [h]
  exact hj

theorem Calm.trans {s s₁ s' : State} (h : Calm s s₁) (h' : Calm s₁ s') : Calm s s' :=
  fun j hj => h' j (h j hj)

/- A slot gets a tidy label. -/
theorem Calm.of_update {s s' : State} {i : Nat} {l : Label}
    (hLabels : labels s' = update (labels s) i l) (hTidy : (labels s i).Tidy → l.Tidy) :
    Calm s s' := by
  intro j hj
  rw [hLabels]
  by_cases hEq : j = i
  · rw [hEq, update_self]
    rw [hEq] at hj
    exact hTidy hj
  · rw [update_of_ne hEq]
    exact hj

theorem tidy_of_used {l : Label} (h : l.state ≠ .unused) : l.Tidy := fun hNot => absurd hNot h

theorem tidy_free : Label.free.Tidy := fun _ => rfl

theorem labels_setProc (s : State) (i : Nat) (p : Proc) :
    labels { s with proc := update s.proc i p } = update (labels s) i p.label := by
  funext j
  unfold labels
  dsimp only
  by_cases hEq : j = i
  · rw [hEq, update_self, update_self]
  · rw [update_of_ne hEq, update_of_ne hEq]

section

variable {L : Layout} {s : State} {i : Nat}

theorem wp_optional_vm {α : Type} {c : Prop} [Decidable c] {x : VmM Unit}
    {y : KernelM α} {Q : α → State → Prop}
    (h : ∀ s', labels s' = labels s → wp y Q (fun _ => True) s') :
    wp
      (if c then do
        vm x
        y
      else
        y) Q (fun _ => True) s := by
  rw [wp_ite, wp_bind]
  exact ⟨fun _ => (quiet_vm x).wp fun _ => h, fun _ => h s rfl⟩

/- `freeproc` clears the label of its slot. -/
theorem freeproc_labels {kend : Nat} {Q : Unit → State → Prop}
    (hPost : ∀ s', labels s' = update (labels s) i .free → Q () s') :
    wp (freeproc kend i) Q (fun _ => True) s := by
  unfold freeproc
  rw [wp_bind, wp_getProc]
  refine wp_optional_vm fun s₁ h₁ => ?_
  rw [wp_bind, wp_setProc]
  refine wp_optional_vm fun s₂ h₂ => ?_
  rw [wp_setProc]
  refine hPost _ ?_
  have hSame : labels s₂ = labels s := (h₂.trans (labels_update rfl)).trans h₁
  rw [labels_setProc, hSame]
  rfl

/- `allocproc` takes a free slot, or leaves it free. -/
theorem allocproc_labels {Q : Option Nat → State → Prop}
    (hNone : ∀ s', (∀ j, labels s' j = labels s j ∨ labels s' j = .free) → Q none s')
    (hSome : ∀ k pid s', (labels s k).state = .unused → labels s' = update (labels s) k
      { labels s k with pid := pid, state := .used } → Q (some k) s') :
    wp (allocproc L) Q (fun _ => True) s := by
  unfold allocproc
  rw [wp_bind, wp_get]
  cases hFind : (List.range NPROC).find? (fun i => decide ((s.proc i).state = .unused)) with
  | none =>
    rw [wp_pure]
    exact hNone s fun j => .inl rfl
  | some k =>
    have hUnused : (s.proc k).state = .unused := by
      have hFound := List.find?_some hFind
      exact of_decide_eq_true hFound
    -- The slot with its number, whatever memory does.
    have hFree : ∀ s₁ l, labels s₁ = update (labels s) k l → wp (do
        freeproc L.kend k
        pure none) Q (fun _ => True) s₁ := by
      intro s₁ l hLabels
      rw [wp_bind]
      refine freeproc_labels fun s₂ h₂ => ?_
      rw [wp_pure]
      refine hNone s₂ fun j => ?_
      rw [h₂, hLabels, update_idem]
      by_cases hEq : j = k
      · rw [hEq, update_self]
        exact .inr rfl
      · rw [update_of_ne hEq]
        exact .inl rfl
    dsimp only
    rw [wp_bind, allocpid, wp_bind, wp_get, wp_bind, wp_set, wp_pure, wp_bind, wp_setProc]
    generalize hT : ({ s with
        nextpid := incr s.nextpid
        proc := update s.proc k
          { s.proc k with
            pid := s.nextpid
            state := .used } } : State) = t
    have ht : labels t = update (labels s) k { labels s k with
        pid := s.nextpid, state := .used } := by
      rw [← hT]
      exact labels_setProc { s with nextpid := incr s.nextpid } k _
    rw [wp_bind]
    refine (quiet_vm _).wp fun tf s₁ h₁ => ?_
    rw [wp_bind, wp_setProc, wp_ite]
    have h₂ : labels { s₁ with
          proc := update s₁.proc k { s₁.proc k with trapframe := tf } } =
        labels t := by
      refine Eq.trans (labels_update ?_) h₁
      rfl
    refine ⟨fun _ => hFree _ _ (h₂.trans ht), fun _ => ?_⟩
    rw [wp_bind]
    refine (quiet_vm _).wp fun pt s₃ h₃ => ?_
    rw [wp_bind, wp_setProc, wp_ite]
    have h₄ : labels { s₃ with
          proc := update s₃.proc k
            { s₃.proc k with
              pagetable := pt, guard := none } } =
        labels t := by
      refine Eq.trans (labels_update ?_) (h₃.trans h₂)
      rfl
    refine ⟨fun _ => hFree _ _ (h₄.trans ht), fun _ => ?_⟩
    rw [wp_pure]
    exact hSome k _ _ hUnused (h₄.trans ht)

/- The labels that `fork` may give to a slot. -/
def Grown (l l' : Label) : Prop :=
  l' = l ∨ l' = .free ∨ (l.state = .unused ∧ l'.state ≠ .unused ∧ l'.killed = l.killed)

theorem fork_labels :
    wp (fork L i) (fun _ s' => ∀ j, Grown (labels s j) (labels s' j)) (fun _ => True) s := by
  unfold fork
  rw [wp_bind]
  refine allocproc_labels ?_ ?_
  · intro s' hLabels
    rw [wp_pure]
    intro j
    rcases hLabels j with hSame | hFree
    · exact .inl hSame
    · exact .inr (.inl hFree)
  intro k pid s₁ hUnused h₁
  -- The other slots keep their labels.
  have hGrown : ∀ s' l, labels s' = update (labels s) k l →
      Grown (labels s k) l → ∀ j, Grown (labels s j) (labels s' j) := by
    intro s' l hLabels hSlot j
    rw [hLabels]
    by_cases hEq : j = k
    · rw [hEq, update_self]
      exact hSlot
    · rw [update_of_ne hEq]
      exact .inl rfl
  dsimp only
  rw [wp_bind, wp_getProc, wp_bind, wp_getProc, wp_bind]
  refine (quiet_vm _).wp fun r s₂ h₂ => ?_
  rw [wp_ite]
  refine ⟨fun _ => ?_, fun _ => ?_⟩
  · rw [wp_bind]
    refine freeproc_labels fun s₃ h₃ => ?_
    rw [wp_pure]
    refine hGrown s₃ .free ?_ (.inr (.inl rfl))
    rw [h₃, h₂, h₁, update_idem]
  rw [wp_bind]
  refine (quiet_setProc k ?_).wp fun _ s₃ h₃ => ?_
  · exact fun _ => rfl
  rw [wp_bind]
  refine (quiet_vm _).wp fun _ s₄ h₄ => ?_
  rw [wp_bind]
  refine (quiet_vm _).wp fun _ s₅ h₅ => ?_
  rw [wp_bind]
  refine (quiet_dupFiles i k _).wp fun _ s₆ h₆ => ?_
  rw [wp_bind, wp_setProc, wp_pure]
  have hSame : labels s₆ = labels s₁ := (((h₆.trans h₅).trans h₄).trans h₃).trans h₂
  have hKilled : (s₆.proc k).killed = (labels s k).killed := by
    have hk := congrFun (hSame.trans h₁) k
    rw [update_self] at hk
    exact congrArg Label.killed hk
  refine hGrown _ ({ s₆.proc k with parent := some i, state := .runnable } : Proc).label
    ?_ (.inr (.inr ⟨hUnused, ?_, hKilled⟩))
  · rw [labels_setProc, hSame, h₁, update_idem]
  · rintro ⟨⟩


theorem Grown.tidy {l l' : Label} (h : Grown l l') (hTidy : l.Tidy) : l'.Tidy := by
  rcases h with hSame | hFree | ⟨_, hUsed, _⟩
  · rw [hSame]
    exact hTidy
  · rw [hFree]
    exact tidy_free
  · exact tidy_of_used hUsed

theorem calm_setProc {p : Proc} (h : (labels s i).Tidy → p.label.Tidy) :
    Calm s { s with proc := update s.proc i p } := Calm.of_update (labels_setProc s i p) h

/- Sleepers are in use. -/
theorem wakeup_calm {chan : Nat} {Q : Unit → State → Prop}
    (hPost : ∀ s', Calm s s' → (s'.proc i).state = (s.proc i).state → Q () s') :
    wp (wakeup i chan) Q (fun _ => True) s := by
  rw [wakeup, wp_modify]
  refine hPost _ ?_ ?_
  · intro j hj
    unfold labels
    dsimp only
    split
    · exact tidy_of_used (by rintro ⟨⟩)
    · exact hj
  · dsimp only
    rw [if_neg fun hNot => hNot.1 rfl]

/- Only slots in use have a parent. -/
theorem reparent_calm {js : List Nat} {Q : Unit → State → Prop}
    (hPost : ∀ s', Calm s s' → (s'.proc i).state = (s.proc i).state → Q () s') :
    wp (reparent i js) Q (fun _ => True) s := by
  induction js generalizing s with
  | nil =>
    rw [reparent, wp_pure]
    exact hPost s (Calm.of_eq rfl) rfl
  | cons j js ih =>
    rw [reparent, wp_bind, wp_get]
    by_cases hChild : (s.proc j).parent = some i
    · rw [if_pos hChild, wp_bind, wp_setProc, wp_bind]
      have hMove : Calm s { s with
          proc := update s.proc j
            { s.proc j with
              parent := some s.initproc } } := by
        refine calm_setProc fun hTidy => ?_
        refine tidy_of_used fun hNot => ?_
        have hFree := hTidy hNot
        have hParent := congrArg Label.parent hFree
        exact absurd (hChild.symm.trans hParent) (by rintro ⟨⟩)
      have hSelf : (update s.proc j { s.proc j with parent := some s.initproc }
          i).state = (s.proc i).state := by
        by_cases hEq : i = j
        · rw [hEq, update_self]
        · rw [update_of_ne hEq]
      refine wakeup_calm ?_
      intro s₁ h₁ hi₁
      refine ih ?_
      intro s₂ h₂ hi₂
      exact hPost s₂ ((hMove.trans h₁).trans h₂) ((hi₂.trans hi₁).trans hSelf)
    · rw [if_neg hChild]
      exact ih hPost

theorem exit_calm {kend : Nat} {status : Int} :
    wp (exit kend i status) (fun _ s' => Calm s s') (fun _ => True) s := by
  have hLast : ∀ s₁, Calm s s₁ → wp (setProc i fun p =>
        { p with xstate := status, state := .zombie })
      (fun _ s' => Calm s s') (fun _ => True) s₁ := by
    intro s₁ h₁
    rw [wp_setProc]
    refine h₁.trans (calm_setProc fun _ => ?_)
    exact tidy_of_used (by rintro ⟨⟩)
  unfold exit
  rw [wp_bind, wp_get, wp_ite, wp_bind, wp_throw]
  refine ⟨fun _ => trivial, fun _ => ?_⟩
  rw [wp_bind]
  refine (quiet_closeFiles kend i _).wp fun _ s₁ h₁ => ?_
  rw [wp_bind]
  refine reparent_calm fun s₂ h₂ _ => ?_
  have hCalm := (Calm.of_eq h₁).trans h₂
  rw [wp_bind, wp_getProc]
  cases (s₂.proc i).parent with
  | none => exact hLast s₂ hCalm
  | some q =>
    dsimp only
    rw [wp_bind]
    exact wakeup_calm fun s₃ h₃ _ => hLast s₃ (hCalm.trans h₃)

theorem wait_calm {kend addr : Nat} (hRun : (s.proc i).state = .runnable) :
    wp (wait kend i addr) (fun _ s' => Calm s s') (fun _ => True) s := by
  unfold wait
  rw [wp_bind, wp_setProc, wp_bind, wp_get]
  have h₁ : Calm s { s with
      proc := update s.proc i
        { s.proc i with
          chan := none, waiting := none } } := by
    refine calm_setProc fun _ => tidy_of_used ?_
    intro hNot
    exact absurd (hRun.symm.trans hNot) (by decide)
  generalize ({ s with
      proc := update s.proc i { s.proc i with chan := none, waiting := none } } :
      State) = t at h₁ ⊢
  cases (List.range NPROC).find? (fun j =>
      decide ((t.proc j).parent = some i ∧ (t.proc j).state = .zombie)) with
  | none =>
    rw [wp_ite, wp_pure, wp_bind, wp_setProc, wp_pure]
    refine ⟨fun _ => h₁, fun _ => ?_⟩
    refine h₁.trans (calm_setProc fun _ => ?_)
    exact tidy_of_used (by rintro ⟨⟩)
  | some j =>
    have hFree : ∀ s₁, labels s₁ = labels t → wp (do
          freeproc kend j
          pure (some (t.proc j).pid))
        (fun _ s' => Calm s s') (fun _ => True) s₁ := by
      intro s₁ hSame
      rw [wp_bind]
      refine freeproc_labels fun s₂ h₂ => ?_
      rw [wp_pure]
      refine (h₁.trans (Calm.of_eq hSame)).trans ?_
      exact Calm.of_update h₂ fun _ => tidy_free
    have hDeliver : ∀ (r : Int) s₁, labels s₁ = labels t → wp (if r < 0 then
          pure (some (-1))
        else do
          freeproc kend j
          pure (some (t.proc j).pid))
        (fun _ s' => Calm s s') (fun _ => True) s₁ := by
      intro r s₁ hSame
      rw [wp_ite, wp_pure]
      exact ⟨fun _ => h₁.trans (Calm.of_eq hSame), fun _ => hFree s₁ hSame⟩
    dsimp only
    rw [wp_ite, wp_bind, wp_bind, wp_pure]
    exact ⟨fun _ => (quiet_vm _).wp fun r => hDeliver r, fun _ => hDeliver 0 t rfl⟩

/- `kill` of a number other than `0` hits a process. -/
theorem kill_tidy {j : Nat} {pid : Int} (hPid : pid ≠ 0) (hFound : (s.proc j).pid = pid)
    (hTidy : (labels s j).Tidy) : (s.proc j).state ≠ .unused := by
  intro hNot
  have hFree := congrArg Label.pid (hTidy hNot)
  exact hPid (hFound.symm.trans hFree)

theorem kill_calm {pid : Int} (hPid : pid ≠ 0) :
    wp (kill pid) (fun _ s' => Calm s s') (fun _ => True) s := by
  unfold kill
  rw [wp_bind, wp_get]
  cases hFind : (List.range NPROC).find? (fun j => decide ((s.proc j).pid = pid)) with
  | none =>
    rw [wp_pure]
    exact Calm.of_eq rfl
  | some j =>
    have hFound : (s.proc j).pid = pid := by
      have hTest := List.find?_some hFind
      exact of_decide_eq_true hTest
    rw [wp_bind, wp_setProc, wp_pure]
    refine calm_setProc fun hTidy => ?_
    have hUsed := kill_tidy hPid hFound hTidy
    refine tidy_of_used ?_
    dsimp only [Proc.label]
    split
    · rintro ⟨⟩
    · exact hUsed

/- Calls other than `kill(0)` keep free slots tidy. -/
theorem syscall_calm (c : Call) (hRun : (s.proc i).state = .runnable) (hKill : c ≠ .kill 0) :
    wp (syscall L i c) (fun _ s' => Calm s s') (fun _ => True) s := by
  have hReturn : ∀ r s₁, Calm s s₁ → wp (return_ i r) (fun _ s' => Calm s s') (fun _ => True) s₁ :=
    fun r s₁ h₁ => (quiet_return i r).wp fun _ s₂ h₂ =>
      h₁.trans (Calm.of_eq h₂)
  have hQuiet : ∀ {x : KernelM Int}, Quiet x →
      wp (do return_ i (← x)) (fun _ s' => Calm s s') (fun _ => True) s := by
    intro x hx
    rw [wp_bind]
    exact hx.wp fun r s₁ h₁ =>
      hReturn r s₁ (Calm.of_eq h₁)
  cases c with
  | fork =>
    rw [syscall, wp_bind]
    refine wp_post fork_labels fun r s₁ h₁ => ?_
    exact hReturn r s₁ fun j hj => (h₁ j).tidy hj
  | exec path uargv ip => exact hQuiet (quiet_sysExec _ _ _ _ _)
  | sbrk n => exact hQuiet (quiet_sysSbrk _ _ _)
  | exit status =>
    rw [syscall, wp_bind]
    refine wp_post exit_calm fun _ s₁ h₁ => ?_
    rw [wp_pure]
    exact h₁
  | wait addr =>
    rw [syscall, wp_bind]
    refine wp_post (wait_calm hRun) fun r s₁ h₁ => ?_
    cases r with
    | none =>
      rw [wp_pure]
      exact h₁
    | some r => exact hReturn r s₁ h₁
  | pipe fdarray => exact hQuiet (quiet_sysPipe _ _ _)
  | close fd => exact hQuiet (quiet_sysClose _ _ _)
  | kill pid =>
    rw [syscall, wp_bind]
    have hPid : pid ≠ 0 := fun hZero => hKill (hZero ▸ rfl)
    exact wp_post (kill_calm hPid) hReturn
  | store va byte =>
    rw [syscall, wp_bind, wp_getProc, wp_bind]
    refine (quiet_vm _).wp fun r s₁ h₁ => ?_
    rw [wp_pure]
    exact Calm.of_eq h₁

theorem userinit_calm : wp (userinit L) (fun _ s' => Calm s s') (fun _ => True) s := by
  unfold userinit
  rw [wp_bind]
  refine allocproc_labels ?_ ?_
  · intro s' _
    rw [wp_throw]
    trivial
  intro k pid s₁ _ h₁
  have hCalm : Calm s s₁ :=
    Calm.of_update h₁ fun _ =>
      tidy_of_used (by rintro ⟨⟩)
  dsimp only
  rw [wp_bind, wp_modify, wp_bind, wp_getProc, wp_bind]
  refine (quiet_vm _).wp fun _ s₂ h₂ => ?_
  rw [wp_bind]
  refine (quiet_setProc k ?_).wp fun _ s₃ h₃ => ?_
  · exact fun _ => rfl
  rw [wp_bind]
  refine (quiet_vm _).wp fun _ s₄ h₄ => ?_
  rw [wp_bind]
  refine (quiet_vm _).wp fun _ s₅ h₅ => ?_
  rw [wp_setProc]
  have hSame : labels s₅ = labels s₁ := ((h₅.trans h₄).trans h₃).trans h₂
  refine (hCalm.trans (Calm.of_eq hSame)).trans (calm_setProc fun _ => ?_)
  exact tidy_of_used (by rintro ⟨⟩)

end

---- Whole Runs

/- Runs without `kill(0)`. -/
inductive Careful (L : Layout) (boot : Multiset Nat) : State → Prop where
  | boot {s : State} (h : Booted L boot s) : Careful L boot s
  | call {s s' : State}
      {i : Nat} {c : Call} {r : Option Int} (h : Careful L boot s) (hi : i < NPROC)
      (hState : (s.proc i).state = .runnable)
      (hWaiting : ∀ addr ∈ (s.proc i).waiting, c = .wait addr) (hKill : c ≠ .kill 0)
      (hCall : syscall L i c s = .ok (r, s')) :
      Careful L boot s'

section

variable {L : Layout} {boot : Multiset Nat} {s : State}

theorem Careful.reachable (h : Careful L boot s) : Reachable L boot s := by
  induction h with
  | boot hBoot => exact .boot hBoot
  | call _ hi hState hWaiting _ hCall ih => exact .call ih hi hState hWaiting hCall

theorem Careful.tidy (h : Careful L boot s) (j : Nat) : (labels s j).Tidy := by
  induction h with
  | boot hBoot =>
    rcases hBoot with ⟨s₀, hFresh, hRun, _⟩
    have hCalm := wp_of_eq_ok userinit_calm hRun
    refine hCalm j ?_
    unfold labels
    rw [hFresh.procs j]
    exact tidy_free
  | @call s s' i c r _ hi hState _ hKill hCall ih =>
    have hSpec := syscall_calm (L := L) c hState hKill
    have hCalm := wp_of_eq_ok hSpec hCall
    exact hCalm j ih

theorem fork_not_killed {s' : State} {i j : Nat} {r : Option Int} (hTidy : (labels s j).Tidy)
    (hCall : syscall L i .fork s = .ok (r, s')) (hOld : (s.proc j).state = .unused) :
    (s'.proc j).killed = false := by
  have hSpec : wp (syscall L i .fork) (fun _ s' => ∀ j, Grown (labels s j) (labels s' j))
      (fun _ => True) s := by
    rw [syscall, wp_bind]
    refine wp_post fork_labels fun r s₁ h₁ => ?_
    refine (quiet_return i r).wp fun _ s₂ h₂ => ?_
    rw [h₂]
    exact h₁
  have hGrown := wp_of_eq_ok hSpec hCall j
  have hFree := hTidy hOld
  rcases hGrown with hSame | hBlank | ⟨_, _, hKilled⟩
  · exact congrArg Label.killed (hSame.trans hFree)
  · exact congrArg Label.killed hBlank
  · exact hKilled.trans (congrArg Label.killed hFree)

theorem return_proc {i : Nat} {r : Int} {Q : Option Int → State → Prop}
    (hPost : ∀ s', s'.proc = s.proc → Q (some r) s') : wp (return_ i r) Q (fun _ => True) s := by
  rw [return_, wp_bind, wp_getProc, wp_bind, wp_vm, st, wp_modify, wp_pure]
  refine hPost _ ?_
  rfl

/- What a successful `kill` does to the process table. -/
theorem kill_marks_one {s' : State} {i : Nat} {pid : Int}
    (hCall : syscall L i (.kill pid) s = .ok (some 0, s')) :
    ∃ k < NPROC,
      (s.proc k).pid = pid ∧ (s'.proc k).killed = true ∧ ∀ j, j ≠ k → s'.proc j = s.proc j := by
  have hSpec : wp (syscall L i (.kill pid)) (fun r s' =>
        r = some 0 → ∃ k < NPROC,
          (s.proc k).pid = pid ∧ (s'.proc k).killed = true ∧ ∀ j, j ≠ k → s'.proc j = s.proc j)
      (fun _ => True) s := by
    rw [syscall, wp_bind, kill, wp_bind, wp_get]
    cases hFind : (List.range NPROC).find? (fun j => decide ((s.proc j).pid = pid)) with
    | none =>
      rw [wp_pure]
      refine return_proc fun s₁ _ hZero => ?_
      exact absurd (Option.some.inj hZero) (by decide)
    | some k =>
      have hk : k < NPROC := List.mem_range.mp (List.mem_of_find?_eq_some hFind)
      have hFound : (s.proc k).pid = pid := by
        have hTest := List.find?_some hFind
        exact of_decide_eq_true hTest
      rw [wp_bind, wp_setProc, wp_pure]
      refine return_proc fun s₁ h₁ _ => ?_
      rw [h₁]
      refine ⟨k, hk, hFound, ?_, ?_⟩
      · dsimp only
        rw [update_self]
      · intro j hNe
        dsimp only
        rw [update_of_ne hNe]
  exact wp_of_eq_ok hSpec hCall rfl

/- A slot that is not in use, as `freeproc` leaves it. -/
structure Cleared (p : Proc) : Prop where
  pid : p.pid = 0
  parent : p.parent = none
  killed : p.killed = false
  xstate : p.xstate = 0
  chan : p.chan = none
  sz : p.sz = 0
  trapframe : p.trapframe = 0
  pagetable : p.pagetable = 0
  ofile : ∀ fd < NOFILE, p.ofile fd = none

/- `kill` has marked a process with this number, and no other. -/
def Marked (s s' : State) (pid : Int) : Prop :=
  ∃ k < NPROC,
    (s.proc k).state ≠ .unused ∧
    (s.proc k).pid = pid ∧
    (s'.proc k).killed = true ∧
    ∀ j, j ≠ k → s'.proc j = s.proc j

/-
  In every state of a run without `kill(0)` the slots that
  are not in use are clear. A new process is not marked as
  killed, and `kill` of another number than `0` returns `0`
  only if it marks a process with that number, and it
  changes no other slot.
-/
theorem unused_slots_tidy (h : Careful L boot s) :
    (∀ j < NPROC, (s.proc j).state = .unused → Cleared (s.proc j)) ∧
      (∀ i j r s',
        syscall L i .fork s = .ok (r, s') →
        (s.proc j).state = .unused →
        (s'.proc j).state ≠ .unused →
          (s'.proc j).killed = false) ∧
      ∀ i pid s',
        pid ≠ 0 →
        syscall L i (.kill pid) s = .ok (some 0, s') →
          Marked s s' pid := by
  have hGood := h.reachable.good
  refine ⟨?_, ?_, ?_⟩
  · intro j hj hUnused
    have hFree := h.tidy j hUnused
    have hBlank := (hGood.slots j hj).blank hUnused
    exact ⟨congrArg Label.pid hFree, congrArg Label.parent hFree, congrArg Label.killed hFree,
      congrArg Label.xstate hFree, congrArg Label.chan hFree,
      hBlank.sz, hBlank.trapframe, hBlank.pagetable, (hGood.descriptors j hj).closed (.inl hUnused)⟩
  · intro i j r s' hCall hOld _
    exact fork_not_killed (h.tidy j) hCall hOld
  · intro i pid s' hPid hCall
    rcases kill_marks_one hCall with ⟨k, hk, hFound, hKilled, hOthers⟩
    exact ⟨k, hk, kill_tidy hPid hFound (h.tidy k), hFound, hKilled, hOthers⟩

end

---- Small Runs

theorem smallForked_careful : Careful smallLayout {0x87fe0000} smallForked := by
  rcases exists_ok_after smallForked_ends with ⟨r, _, hRun⟩
  refine .call (.boot smallBooted_booted) (by decide) smallBooted_ready.1 ?_ ?_ hRun
  · rw [smallBooted_ready.2]
    rintro addr ⟨⟩
  · rintro ⟨⟩

/- The first free slot, and a `kill` of the child. -/
theorem unused_slots_tidy_forked :
    Cleared (smallForked.proc 2) ∧
      ∃ s',
        syscall smallLayout 0 (.kill 2) smallForked = .ok (some 0, s') ∧
          Marked smallForked s' 2 := by
  have hKill : ends (· == some 0) (syscall smallLayout 0 (.kill 2)) smallForked = true := by
    decide +kernel
  rcases exists_ok_after hKill with ⟨r, hZero, hRun⟩
  rw [eq_of_beq hZero] at hRun
  rcases unused_slots_tidy smallForked_careful with ⟨hCleared, _, hKills⟩
  exact ⟨hCleared 2 (by decide) (by decide +kernel), _, hRun, hKills 0 2 _ (by decide) hRun⟩

/- The first process calls `kill(0)`, and then `fork`. -/
def smallMarked : State := after (syscall smallLayout 0 (.kill 0)) smallBooted

def smallDoomed : State := after (syscall smallLayout 0 .fork) smallMarked

/- A free slot is marked, and its next process is killed. -/
theorem kill_zero_marks_free_slot :
    Reachable smallLayout {0x87fe0000} smallMarked ∧ (smallMarked.proc 1).state = .unused ∧
      (smallMarked.proc 1).killed = true ∧ Reachable smallLayout {0x87fe0000} smallDoomed ∧
      (smallDoomed.proc 1).state = .runnable ∧ (smallDoomed.proc 1).killed = true := by
  have hKill : ends Option.isSome (syscall smallLayout 0 (.kill 0)) smallBooted = true := by
    decide +kernel
  have hFork : ends Option.isSome (syscall smallLayout 0 .fork) smallMarked = true := by
    decide +kernel
  have hReady : (smallMarked.proc 0).state = .runnable ∧ (smallMarked.proc 0).waiting = none := by
    decide +kernel
  have hMarked : (smallMarked.proc 1).state = .unused ∧ (smallMarked.proc 1).killed = true := by
    decide +kernel
  have hDoomed : (smallDoomed.proc 1).state = .runnable ∧ (smallDoomed.proc 1).killed = true := by
    decide +kernel
  have hReach : Reachable smallLayout {0x87fe0000} smallMarked :=
    (Reachable.boot smallBooted_booted).after_call (by decide) smallBooted_ready hKill
  exact ⟨hReach, hMarked.1, hMarked.2, hReach.after_call (by decide) hReady hFork, hDoomed⟩

end Xv6.Kernel

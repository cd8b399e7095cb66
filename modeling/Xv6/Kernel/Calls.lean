import Xv6.Kernel.Execution
import Xv6.Kernel.Fork
import Xv6.Kernel.Syscall

/-
  Every system call keeps the invariant, and panics only
  when the first process exits.

  Main declarations:
    * `exit_spec`
    * `wait_spec`
    * `syscall_spec`
-/

namespace Xv6.Kernel

open Function (update update_self update_of_ne)

open Prog

open Vm

section

variable {L : Layout} {B : Multiset Nat} {r : Nat → Nat} {s : State} {i : Nat} {E : Panic → Prop}

---- Exit, Wait And Kill

/- A process with another parent that may have woken up. -/
structure Roused (p q : Proc) : Prop where
  same : q = { p with parent := q.parent, state := q.state }
  state : q.state = p.state ∨ (p.state = .sleeping ∧ q.state = .runnable)

theorem Roused.refl (p : Proc) : Roused p p := ⟨rfl, .inl rfl⟩

theorem Roused.trans {p q t : Proc} (h : Roused p q) (h' : Roused q t) : Roused p t := by
  refine ⟨?_, ?_⟩
  · rw [h'.same, h.same]
  · rcases h.state with hSame | ⟨hOld, hNew⟩
    · rw [← hSame]
      exact h'.state
    · rcases h'.state with hSame' | ⟨hNot, _⟩
      · exact .inr ⟨hOld, hSame'.trans hNew⟩
      · rw [hNew] at hNot
        cases hNot

theorem Roused.state_iff {p q : Proc} (h : Roused p q) {x : ProcState} (hSleep : x ≠ .sleeping)
    (hRun : x ≠ .runnable) : q.state = x ↔ p.state = x := by
  rcases h.state with hSame | ⟨hOld, hNew⟩
  · rw [hSame]
  · rw [hOld, hNew]
    exact iff_of_false hRun.symm hSleep.symm

theorem Roused.ofile {p q : Proc} (h : Roused p q) : q.ofile = p.ofile := by
  rw [h.same]

theorem Inv.roused {proc : Nat → Proc} (h : Good L B s) (hProc : ∀ j, Roused (s.proc j) (proc j)) :
    Good L B { s with proc := proc } := by
  refine Inv.good_of_ofile (s := s) (Inv.relabel h ?_ ?_) ?_
  · intro j _
    refine ⟨(hProc j).state_iff (by decide) (by decide), ?_, ?_, ?_, ?_⟩
    all_goals rw [(hProc j).same]
  · intro j hj
    have hDesc := h.descriptors j hj
    refine ⟨?_, ?_⟩
    · rw [(hProc j).ofile]
      exact hDesc.file
    · rw [(hProc j).ofile, (hProc j).state_iff (by decide) (by decide),
        (hProc j).state_iff (by decide) (by decide)]
      exact hDesc.closed
  · exact fun j => (hProc j).ofile

theorem wakeup_spec {chan : Nat} {Q : Unit → State → Prop}
    (hPost : ∀ proc, (∀ j, Roused (s.proc j) (proc j)) → proc i = s.proc i →
      Q () { s with proc := proc }) : wp (wakeup i chan) Q E s := by
  rw [wakeup, wp_modify]
  refine hPost _ ?_ ?_
  · intro j
    split
    · rename_i hSleeps
      exact ⟨rfl, .inr ⟨hSleeps.2.1, rfl⟩⟩
    · exact Roused.refl _
  · exact if_neg fun hNot => hNot.1 rfl

theorem reparent_spec {js : List Nat} {Q : Unit → State → Prop}
    (hPost : ∀ proc, (∀ j, Roused (s.proc j) (proc j)) → (proc i).state = (s.proc i).state →
      Q () { s with proc := proc }) : wp (reparent i js) Q E s := by
  induction js generalizing s with
  | nil =>
    rw [reparent, wp_pure]
    exact hPost s.proc (fun j => Roused.refl _) rfl
  | cons j js ih =>
    rw [reparent, wp_bind, wp_get]
    by_cases hChild : (s.proc j).parent = some i
    · rw [if_pos hChild, wp_bind, wp_setProc, wp_bind]
      have hMove : ∀ k, Roused (s.proc k) (update s.proc j
          { s.proc j with parent := some s.initproc }
          k) := by
        intro k
        by_cases hEq : k = j
        · rw [hEq, update_self]
          exact ⟨rfl, .inl rfl⟩
        · rw [update_of_ne hEq]
          exact Roused.refl _
      have hSelf : (update s.proc j { s.proc j with parent := some s.initproc }
          i).state = (s.proc i).state := by
        by_cases hEq : i = j
        · rw [hEq, update_self]
        · rw [update_of_ne hEq]
      refine wakeup_spec ?_
      intro proc₁ hWake hi₁
      refine ih ?_
      intro proc₂ hRest hi₂
      refine hPost proc₂ ?_ ?_
      · exact fun k =>
          ((hMove k).trans (hWake k)).trans (hRest k)
      · rw [hi₂]
        dsimp only
        rw [hi₁]
        exact hSelf
    · rw [if_neg hChild]
      exact ih hPost

section

variable (h : Good L B s)
include h

theorem exit_spec {status : Int} {Q : Unit → State → Prop} (hi : i < NPROC)
    (hRun : (s.proc i).state = .runnable) (hInit : i = s.initproc → E .initExiting)
    (hPost : ∀ s', Good L B s' → Q () s') : wp (exit L.kend i status) Q E s := by
  unfold exit
  rw [wp_bind, wp_get]
  by_cases hFirst : i = s.initproc
  · rw [if_pos hFirst, wp_bind, wp_throw]
    exact hInit hFirst
  rw [if_neg hFirst, wp_bind]
  refine closeFiles_spec h hi (fun fd hfd => List.mem_range.mp hfd) ?_
  intro kmem file o h₁ hNone
  -- The last steps, with other parents and sleepers awake.
  have hLast : ∀ proc, (∀ j, Roused
      (update s.proc i (withFiles (s.proc i) o) j) (proc j)) → (proc i).state = .runnable → wp
        (setProc i fun p =>
          { p with xstate := status, state := .zombie })
        Q E
        { s with kmem := kmem, file := file, proc := proc } := by
    intro proc hProc hState
    have h₂ := Inv.roused h₁ hProc
    have hFiles : ∀ fd < NOFILE, (proc i).ofile fd = none := by
      intro fd hfd
      rw [(hProc i).ofile, update_self]
      exact hNone fd (.inl (List.mem_range.mpr hfd))
    rw [wp_setProc]
    have h₃ :=
      Inv.touch (i := i) (p := { proc i with xstate := status, state := .zombie })
        h₂
        ⟨iff_of_false (by rintro ⟨⟩) (by rw [hState]; decide), rfl, rfl, rfl, rfl⟩
        ⟨(h₂.descriptors i hi).file, fun _ => hFiles⟩
    refine hPost _ (h₃.good_of_ofile ?_)
    exact ofile_update rfl
  rw [wp_bind]
  refine reparent_spec ?_
  intro proc hProc hState
  have hRun₁ : (proc i).state = .runnable := by
    rw [hState]
    dsimp only
    rw [update_self]
    exact hRun
  rw [wp_bind, wp_getProc]
  dsimp only
  cases (proc i).parent with
  | none => exact hLast proc hProc hRun₁
  | some q =>
    rw [wp_bind]
    refine wakeup_spec ?_
    intro proc' hWake hSelf
    refine hLast proc' ?_ ?_
    · exact fun j => (hProc j).trans (hWake j)
    · rw [hSelf]
      exact hRun₁

theorem waitFree_spec {j : Nat} {Q : Option Int → State → Prop} (hj : j < NPROC)
    (hRun : (s.proc i).state = .runnable) (hZombie : (s.proc j).state = .zombie) (n : Int)
    (hPost : ∀ s', Good L B s' → (s'.proc i).state = .runnable → Q (some n) s') :
    wp
      (do
        freeproc L.kend j
        pure (some n)) Q E s := by
  have hNe : i ≠ j := by
    intro hEq
    rw [hEq, hZombie] at hRun
    cases hRun
  rw [wp_bind]
  refine freeproc_spec h hj ?_ ?_ ?_
  · rw [hZombie]
    decide
  · exact (h.descriptors j hj).closed (.inr hZombie)
  intro kmem h₁ _
  rw [wp_pure]
  refine hPost _ (h₁.good_of_ofile (ofile_update rfl)) ?_
  dsimp only
  rw [update_of_ne hNe]
  exact hRun

theorem wait_spec {addr : Nat} {Q : Option Int → State → Prop} (hi : i < NPROC)
    (hRun : (s.proc i).state = .runnable) (hSleep : ∀ s', Good L B s' → Q none s')
    (hPost : ∀ n s', Good L B s' → (s'.proc i).state = .runnable → Q (some n) s') :
    wp (wait L.kend i addr) Q E s := by
  unfold wait
  rw [wp_bind, wp_setProc, wp_bind, wp_get]
  have hDesc := h.descriptors i hi
  have h₁ :=
    Inv.good_of_ofile
      (Inv.touch (i := i) (p := { s.proc i with chan := none, waiting := none })
        h ⟨Iff.rfl, rfl, rfl, rfl, rfl⟩
        ⟨hDesc.file, hDesc.closed⟩)
      (ofile_update rfl)
  have hRun₁ : (({ s with
        proc :=
          update s.proc i
            { s.proc i with
              chan := none, waiting := none } } :
      State).proc i).state = .runnable := by
    dsimp only
    rw [update_self]
    exact hRun
  generalize ({ s with
      proc := update s.proc i { s.proc i with chan := none, waiting := none } } :
      State) = t at h₁ hRun₁ ⊢
  have hLive : (t.proc i).state ≠ .unused := by
    rw [hRun₁]
    decide
  cases hFind : (List.range NPROC).find? (fun j =>
      decide ((t.proc j).parent = some i ∧ (t.proc j).state = .zombie)) with
  | none =>
    rw [wp_ite, wp_pure, wp_bind, wp_setProc, wp_pure]
    refine ⟨fun _ => hPost _ _ h₁ hRun₁, fun _ => ?_⟩
    have hDesc₁ := h₁.descriptors i hi
    refine hSleep _ (Inv.good_of_ofile (Inv.touch (i := i) (p :=
          { t.proc i with
            chan := some i
            state := .sleeping
            waiting := some addr })
        h₁ ?_ ⟨hDesc₁.file, ?_⟩) (ofile_update rfl))
    · exact ⟨iff_of_false (by rintro ⟨⟩) hLive, rfl, rfl, rfl, rfl⟩
    · intro hDead
      rcases hDead with hNot | hNot
      · cases hNot
      · cases hNot
  | some j =>
    have hj : j < NPROC := List.mem_range.mp (List.mem_of_find?_eq_some hFind)
    have hZombie : (t.proc j).state = .zombie := by
      have hFound := List.find?_some hFind
      exact (of_decide_eq_true hFound).2
    dsimp only
    by_cases hAddr : addr ≠ 0
    · rw [if_pos hAddr, wp_bind]
      refine copyoutUser_spec h₁ hi hLive ?_
      intro n kmem h₂
      have h₃ : Good L B { t with kmem := kmem } := h₂
      rw [wp_ite, wp_pure]
      exact ⟨fun _ => hPost _ _ h₃ hRun₁, fun _ =>
        waitFree_spec h₃ hj hRun₁ hZombie _ (hPost _)⟩
    · rw [if_neg hAddr, wp_bind, wp_pure, if_neg (by decide)]
      exact waitFree_spec h₁ hj hRun₁ hZombie _ (hPost _)

theorem kill_spec {pid : Int} {Q : Int → State → Prop} (hRun : (s.proc i).state = .runnable)
    (hPost : ∀ n s', Good L B s' → (s'.proc i).state = .runnable → Q n s') :
    wp (kill pid) Q E s := by
  unfold kill
  rw [wp_bind, wp_get]
  cases hFind : (List.range NPROC).find? (fun j => decide ((s.proc j).pid = pid)) with
  | none =>
    rw [wp_pure]
    exact hPost _ s h hRun
  | some j =>
    have hj : j < NPROC := List.mem_range.mp (List.mem_of_find?_eq_some hFind)
    have hDesc := h.descriptors j hj
    rw [wp_bind, wp_setProc, wp_pure]
    generalize hp : ({ s.proc j with
        killed := true
        state :=
          if (s.proc j).state = .sleeping then .runnable else (s.proc j).state } : Proc) = p
    have hState : ∀ x, x ≠ .sleeping → x ≠ .runnable → (p.state = x ↔ (s.proc j).state = x) := by
      intro x hSleep hAwake
      rw [← hp]
      dsimp only
      split
      · rename_i hWas
        rw [hWas]
        exact iff_of_false hAwake.symm hSleep.symm
      · exact Iff.rfl
    have hFiles : p.ofile = (s.proc j).ofile := by rw [← hp]
    have h₁ :=
      Inv.touch (i := j) (p := p) h
        ⟨hState _ (by decide) (by decide), by rw [← hp], by rw [← hp], by rw [← hp], by rw [← hp]⟩
        ⟨by rw [hFiles]; exact hDesc.file, by
          rw [hFiles, hState _ (by decide) (by decide), hState _ (by decide) (by decide)]
          exact hDesc.closed⟩
    refine hPost _ _ (h₁.good_of_ofile ?_) ?_
    · exact ofile_update hFiles
    dsimp only
    by_cases hEq : i = j
    · rw [hEq, update_self, ← hp]
      dsimp only
      rw [← hEq, hRun]
      rfl
    · rw [update_of_ne hEq]
      exact hRun

---- Every Call

variable (hi : i < NPROC) (hRun : (s.proc i).state = .runnable)
include hi hRun

theorem return_spec {n : Int} {Q : Option Int → State → Prop} (hPost : ∀ n s', Good L B s' → Q n s') :
    wp (return_ i n) Q E s := by
  have hLive : (s.proc i).state ≠ .unused := by
    rw [hRun]
    decide
  unfold return_
  rw [wp_bind, wp_getProc, wp_bind]
  refine stTrapframe_spec h hi hLive rfl (by decide) ?_
  intro kmem h₁ _
  rw [wp_pure]
  exact hPost _ _ (h₁.good_of_ofile fun _ => rfl)

theorem sysSbrk_spec {n : Int} {Q : Int → State → Prop}
    (hPost : ∀ n s', Good L B s' → (s'.proc i).state = .runnable → Q n s') :
    wp (sysSbrk L.kend i n) Q E s := by
  have hLive : (s.proc i).state ≠ .unused := by
    rw [hRun]
    decide
  unfold sysSbrk
  rw [wp_bind, wp_getProc, wp_bind]
  refine growproc_spec h hi hLive ?_ ?_
  · intro kmem h₁ _
    have hGood := h₁.good_of_ofile (ofile_update rfl)
    have hState : (update s.proc i { s.proc i with sz := grownSize (s.proc i).sz n } i).state =
        .runnable := by
      rw [update_self]
      exact hRun
    rw [wp_ite, wp_pure, wp_pure]
    exact ⟨fun _ => hPost _ _ hGood hState, fun _ => hPost _ _ hGood hState⟩
  · intro kmem h₁ _ _
    rw [wp_ite, wp_pure, wp_pure]
    exact ⟨fun _ => hPost _ _ (h₁.good_of_ofile fun _ => rfl) hRun,
      fun _ => hPost _ _ (h₁.good_of_ofile fun _ => rfl) hRun⟩

end

/- Every call keeps the invariant. The only panic is the exit of the first process. -/
theorem syscall_spec (c : Call) (h : Good L B s) (hi : i < NPROC)
    (hRun : (s.proc i).state = .runnable) :
    wp (syscall L i c) (fun _ s' => Good L B s') (· = .initExiting) s := by
  have hReturn : ∀ n s', Good L B s' → (s'.proc i).state = .runnable →
      wp (return_ i n) (fun _ s' => Good L B s') (· = .initExiting) s' :=
    fun n s' h' hState =>
      return_spec h' hi hState fun _ _ hDone => hDone
  have hLive : (s.proc i).state ≠ .unused := by
    rw [hRun]
    decide
  cases c with
  | fork =>
    rw [syscall, wp_bind]
    exact fork_spec h hi hRun hReturn
  | exec path uargv ip =>
    rw [syscall, wp_bind]
    refine sysExec_spec h hi hLive ?_ ?_
    · intro kmem h₁ _ _
      exact hReturn (-1) _ (h₁.good_of_ofile fun _ => rfl) hRun
    intro _ image _ _ _ s₂ kmem₃ _ _ _ _ hCommitted _
      h₃ _
    have hProc : s₂.proc = update s.proc i (execProc image (s.proc i)) := by rw [hCommitted.same]
    refine hReturn _ _ (h₃.good_of_ofile ?_) ?_
    · dsimp only
      rw [hProc]
      exact ofile_update rfl
    · dsimp only
      rw [hProc, update_self]
      exact hRun
  | sbrk n =>
    rw [syscall, wp_bind]
    exact sysSbrk_spec h hi hRun hReturn
  | exit status =>
    rw [syscall, wp_bind]
    refine exit_spec h hi hRun (fun _ => rfl) ?_
    intro s' h'
    rw [wp_pure]
    exact h'
  | wait addr =>
    rw [syscall, wp_bind]
    refine wait_spec h hi hRun ?_ hReturn
    intro s' h'
    rw [wp_pure]
    exact h'
  | pipe fdarray =>
    rw [syscall, wp_bind]
    exact sysPipe_spec h hi hRun hReturn
  | close fd =>
    rw [syscall, wp_bind]
    refine sysClose_spec h hi ?_
    intro n s' h' hState
    exact hReturn n s' h' (hState.trans hRun)
  | kill pid =>
    rw [syscall, wp_bind]
    exact kill_spec h hRun hReturn
  | store va byte =>
    rw [syscall, wp_bind, wp_getProc, wp_bind]
    refine copyoutUser_spec h hi hLive ?_
    intro n kmem h₁
    rw [wp_pure]
    exact h₁.good_of_ofile fun _ => rfl

end

end Xv6.Kernel

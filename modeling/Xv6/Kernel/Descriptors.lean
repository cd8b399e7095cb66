import Xv6.Kernel.Files
import Xv6.Kernel.Slots

/-
  Descriptors of processes: the system calls `pipe` and
  `close`, and the loops of `fork` and `exit` over open
  files. Between calls the file table counts exactly the
  descriptors.

  Main declarations:
    * `sysClose_spec`
    * `dupFiles_spec`
    * `closeFiles_spec`
-/

namespace Xv6.Kernel

open Function (update update_self update_of_ne update_idem update_eq_self)

open Prog

open Vm

---- Between System Calls

/- The invariant with no reference in hand. -/
def Good (L : Layout) (B : Multiset Nat) (s : State) : Prop := Inv L B (refs s.proc) s

section

variable {L : Layout} {B : Multiset Nat} {r : Nat → Nat} {s : State} {i fd f : Nat}
variable {E : Panic → Prop}

theorem Inv.good (h : Inv L B r s) (hCounts : ∀ g < NFILE, r g = refs s.proc g) : Good L B s :=
  h.counts_eq hCounts

/- A process whose descriptor was changed. -/
def withOfile (p : Proc) (fd : Nat) (v : Option Nat) : Proc :=
  { p with ofile := update p.ofile fd v }

theorem withOfile_ofile (p : Proc) (v : Option Nat) :
    (withOfile p fd v).ofile = update p.ofile fd v := rfl

@[simp] theorem wp_setOfile (v : Option Nat) (Q : Unit → State → Prop) :
    wp (setOfile i fd v) Q E s ↔ Q () { s with
      proc := update s.proc i (withOfile (s.proc i) fd v) } := wp_setProc _ _ Q

theorem Inv.setOfile (h : Inv L B r s) (fd : Nat) (v : Option Nat) (hi : i < NPROC)
    (hFile : ∀ g, v = some g → g < NFILE)
    (hState : v = none ∨ ((s.proc i).state ≠ .unused ∧ (s.proc i).state ≠ .zombie)) :
    Inv L B r { s with proc := update s.proc i (withOfile (s.proc i) fd v) } := by
  have hOld := h.descriptors i hi
  refine h.touch ⟨Iff.rfl, rfl, rfl, rfl, rfl⟩ ⟨?_, ?_⟩
  · intro d hd g hg
    rw [withOfile_ofile] at hg
    by_cases hEq : d = fd
    · rw [hEq, update_self] at hg
      exact hFile g hg
    · rw [update_of_ne hEq] at hg
      exact hOld.file d hd g hg
  · intro hDead d hd
    rw [withOfile_ofile]
    by_cases hEq : d = fd
    · rw [hEq, update_self]
      rcases hState with hNone | hLive
      · exact hNone
      · rcases hDead with hUnused | hZombie
        · exact absurd hUnused hLive.1
        · exact absurd hZombie hLive.2
    · rw [update_of_ne hEq]
      exact hOld.closed hDead d hd

theorem refs_close {proc : Nat → Proc} {k : Nat} (hi : i < NPROC) (hfd : fd < NOFILE)
    (hf : (proc i).ofile fd = some f) (hk : refs proc f = k + 1) (g : Nat) :
    update (refs proc) f k g =
      refs (update proc i (withOfile (proc i) fd none)) g := by
  have hSet := refs_setOfile (v := none) (p := withOfile (proc i) fd none) hi hfd rfl g
  rw [hf] at hSet
  simp only [reduceCtorEq, if_false, Option.some.injEq] at hSet
  by_cases hEq : g = f
  · rw [hEq, update_self]
    rw [hEq, if_pos rfl, hk] at hSet
    omega
  · rw [update_of_ne hEq]
    rw [if_neg (Ne.symm hEq)] at hSet
    omega

theorem refs_open (proc : Nat → Proc) (hi : i < NPROC) (hfd : fd < NOFILE)
    (hFree : (proc i).ofile fd = none) (f g : Nat) :
    update (refs proc) f (refs proc f + 1) g =
      refs (update proc i (withOfile (proc i) fd (some f))) g := by
  have hSet := refs_setOfile (v := some f) (p := withOfile (proc i) fd (some f)) hi hfd rfl g
  rw [hFree] at hSet
  simp only [reduceCtorEq, if_false, Option.some.injEq] at hSet
  by_cases hEq : g = f
  · rw [hEq, update_self]
    rw [hEq, if_pos rfl] at hSet
    omega
  · rw [update_of_ne hEq]
    rw [if_neg (Ne.symm hEq)] at hSet
    omega

---- Close

theorem sysClose_spec {n : Int} {Q : Int → State → Prop} (h : Good L B s) (hi : i < NPROC)
    (hPost : ∀ k s', Good L B s' → (s'.proc i).state = (s.proc i).state → Q k s') :
    wp (sysClose L.kend i n) Q E s := by
  unfold sysClose
  rw [wp_bind, wp_getProc]
  cases hFd : argfd (s.proc i) n with
  | none =>
    rw [wp_pure]
    exact hPost _ s h rfl
  | some f =>
    have hArg : n.toNat < NOFILE ∧ (s.proc i).ofile n.toNat = some f := by
      unfold argfd at hFd
      split at hFd
      · cases hFd
      · refine ⟨?_, hFd⟩
        omega
    have hf := (h.descriptors i hi).file _ hArg.1 f hArg.2
    have hPos := refs_pos hi hArg.1 hArg.2
    rcases Nat.exists_eq_succ_of_ne_zero (Nat.pos_iff_ne_zero.mp hPos) with ⟨k, hk⟩
    rw [wp_bind, wp_setOfile, wp_bind]
    have h₁ := h.setOfile n.toNat none hi (by rintro g ⟨⟩) (.inl rfl)
    refine fileclose_spec h₁ hf hk ?_
    intro kmem file h₂
    rw [wp_pure]
    refine hPost 0 _ (h₂.good ?_) ?_
    · intro g _
      exact refs_close hi hArg.1 hArg.2 hk g
    · dsimp only
      rw [update_self]
      rfl

---- Pipe

theorem fdalloc_spec {Q : Option Nat → State → Prop} (hNone : Q none s)
    (hSome : ∀ fd, fd < NOFILE → (s.proc i).ofile fd = none → Q (some fd) { s with
      proc := update s.proc i (withOfile (s.proc i) fd (some f)) }) :
    wp (fdalloc i f) Q E s := by
  unfold fdalloc
  rw [wp_bind, wp_getProc]
  cases hFind : (List.range NOFILE).find? (fun fd => ((s.proc i).ofile fd).isNone) with
  | none =>
    rw [wp_pure]
    exact hNone
  | some fd =>
    have hFree := List.find?_some hFind
    rw [wp_bind, wp_setOfile, wp_pure]
    exact hSome fd (List.mem_range.mp (List.mem_of_find?_eq_some hFind))
      (Option.isNone_iff_eq_none.mp hFree)

/- The references of `sys_pipe` to the ends of a pipe. -/
structure Ends (r : Nat → Nat) (f0 f1 : Nat) : Prop where
  lt0 : f0 < NFILE
  lt1 : f1 < NFILE
  ne : f0 ≠ f1
  new0 : r f0 = 0
  new1 : r f1 = 0

/- One more reference to each end. -/
def addEnds (r : Nat → Nat) (f0 f1 : Nat) : Nat → Nat :=
  update (update r f0 1) f1 1

theorem closeEnds_spec {f0 f1 : Nat} {Q : Int → State → Prop}
    (hEnds : Ends r f0 f1) (h : Inv L B (addEnds r f0 f1) s)
    (hPost :
      ∀ kmem file,
        Inv L B r { s with kmem := kmem, file := file } →
          Q (-1) { s with kmem := kmem, file := file }) :
    Prog.wp
      (do
        fileclose L.kend f0
        fileclose L.kend f1
        pure (-1)) Q E s := by
  rw [wp_bind]
  refine fileclose_spec h hEnds.lt0 (k := 0) ?_ ?_
  · unfold addEnds
    rw [update_of_ne hEnds.ne, update_self]
  intro kmem file h₁
  rw [wp_bind]
  refine fileclose_spec h₁ hEnds.lt1 (k := 0) ?_ ?_
  · unfold addEnds
    rw [update_of_ne hEnds.ne.symm, update_self]
  intro kmem' file' h₂
  rw [wp_pure]
  refine hPost kmem' file' (h₂.counts_eq ?_)
  intro g _
  unfold addEnds
  by_cases hg1 : g = f1
  · rw [hg1, update_self, hEnds.new1]
  · rw [update_of_ne hg1]
    by_cases hg0 : g = f0
    · rw [hg0, update_self, hEnds.new0]
    · rw [update_of_ne hg0, update_of_ne hg1, update_of_ne hg0]

theorem refs_addEnds {proc : Nat → Proc} {f0 f1 fd0 fd1 : Nat} {p q : Proc} (hi : i < NPROC)
    (hEnds : Ends (refs proc) f0 f1) (hfd0 : fd0 < NOFILE) (hFree0 : (proc i).ofile fd0 = none)
    (hp : p = withOfile (proc i) fd0 (some f0)) (hfd1 : fd1 < NOFILE) (hFree1 : p.ofile fd1 = none)
    (hq : q = withOfile p fd1 (some f1)) (g : Nat) :
    addEnds (refs proc) f0 f1 g = refs (update proc i q) g := by
  have hOpen0 := refs_open proc hi hfd0 hFree0 f0
  have hSelf : update proc i p i = p := update_self _ _ _
  have hOpen1 := refs_open (update proc i p) hi hfd1 (by rw [hSelf]; exact hFree1) f1 g
  rw [← hp] at hOpen0
  rw [hSelf, ← hq, update_idem, ← hOpen0, update_of_ne hEnds.ne.symm, hEnds.new1] at hOpen1
  rw [← hOpen1]
  have hFun :
      refs (update proc i p) = update (refs proc) f0 (refs proc f0 + 1) := by
    funext x
    exact (hOpen0 x).symm
  unfold addEnds
  rw [hFun, hEnds.new0]

theorem update_back {o : Nat → Option Nat} {fd0 fd1 : Nat} (a b : Option Nat)
    (hFree0 : o fd0 = none) (hFree1 : o fd1 = none) :
    update (update (update (update o fd0 a) fd1 b)
      fd0 none) fd1 none = o := by
  funext d
  by_cases h1 : d = fd1
  · rw [h1, update_self, hFree1]
  · rw [update_of_ne h1]
    by_cases h0 : d = fd0
    · rw [h0, update_self, hFree0]
    · rw [update_of_ne h0, update_of_ne h1, update_of_ne h0]

/- A change of one process leaves the files of the others. -/
theorem ofile_update {proc : Nat → Proc} {p : Proc} (hp : p.ofile = (proc i).ofile) (j : Nat) :
    (update proc i p j).ofile = (proc j).ofile := by
  by_cases hEq : j = i
  · rw [hEq, update_self, hp]
  · rw [update_of_ne hEq]

theorem sysPipe_spec {fdarray : Nat} {Q : Int → State → Prop} (h : Good L B s) (hi : i < NPROC)
    (hRun : (s.proc i).state = .runnable)
    (hPost : ∀ k s', Good L B s' → (s'.proc i).state = .runnable → Q k s') :
    wp (sysPipe L.kend i fdarray) Q E s := by
  -- The ways out with the descriptors as they were.
  have hBack : ∀ s', Inv L B (refs s.proc) s' → (∀ j, (s'.proc j).ofile = (s.proc j).ofile) →
      (s'.proc i).state = .runnable → Q (-1) s' := by
    intro s' h' hFiles hState
    refine hPost (-1) s' (h'.good ?_) hState
    intro g _
    refine (refs_congr ?_ g).symm
    intro j _ fd _
    rw [hFiles j]
  unfold sysPipe
  rw [wp_bind]
  refine pipealloc_spec h ?_ ?_
  · intro kmem file h₁
    rw [wp_pure]
    exact hBack _ h₁ (fun _ => rfl) hRun
  intro f0 f1 kmem file hf0 hf1 hNe hNew0 hNew1 h₁
  have hEnds : Ends (refs s.proc) f0 f1 := ⟨hf0, hf1, hNe, hNew0, hNew1⟩
  rw [wp_bind]
  refine fdalloc_spec ?_ ?_
  · refine closeEnds_spec hEnds h₁ ?_
    intro kmem' file' h₂
    exact hBack _ h₂ (fun _ => rfl) hRun
  intro fd0 hfd0 hFree0
  have hLive : (s.proc i).state ≠ .unused ∧ (s.proc i).state ≠ .zombie := by
    rw [hRun]
    exact ⟨by decide, by decide⟩
  have h₂ := h₁.setOfile fd0 (some f0) hi (fun g hg => Option.some.inj hg ▸ hf0) (.inr hLive)
  generalize hp : withOfile (s.proc i) fd0 (some f0) = p at h₂ ⊢
  have hpState : p.state = .runnable := by
    rw [← hp]
    exact hRun
  have hpFiles : p.ofile = update (s.proc i).ofile fd0 (some f0) := by
    rw [← hp, withOfile_ofile]
  rw [wp_bind]
  refine fdalloc_spec ?_ ?_
  · -- No second descriptor.
    rw [wp_bind, wp_setOfile]
    simp only [update_self, update_idem]
    have h₃ := h₂.setOfile fd0 none hi (by rintro g ⟨⟩) (.inl rfl)
    simp only [update_self, update_idem] at h₃
    refine closeEnds_spec hEnds h₃ ?_
    intro kmem' file' h₄
    refine hBack _ h₄ ?_ ?_
    · refine ofile_update ?_
      rw [withOfile_ofile, hpFiles, update_idem, ← hFree0, update_eq_self]
    · dsimp only
      rw [update_self]
      exact hpState
  intro fd1 hfd1 hFree1
  simp only [update_self] at hFree1
  have hpLive : p.state ≠ .unused ∧ p.state ≠ .zombie := by
    rw [hpState]
    exact ⟨by decide, by decide⟩
  have hOld1 : (s.proc i).ofile fd1 = none := by
    rw [hpFiles] at hFree1
    by_cases hEq : fd1 = fd0
    · rw [hEq]
      exact hFree0
    · rw [update_of_ne hEq] at hFree1
      exact hFree1
  have h₃ := h₂.setOfile fd1 (some f1) hi (fun g hg => Option.some.inj hg ▸ hf1) (by
      simp only [update_self]
      exact .inr hpLive)
  simp only [update_self, update_idem] at h₃ ⊢
  have hRefs := refs_addEnds hi hEnds hfd0 hFree0 hp.symm hfd1 hFree1 rfl
  generalize hq : withOfile p fd1 (some f1) = q at h₃ hRefs ⊢
  have hqState : q.state = .runnable := by
    rw [← hq]
    exact hpState
  have hqFiles : q.ofile = update p.ofile fd1 (some f1) := by rw [← hq, withOfile_ofile]
  -- A failed copy closes everything again.
  have hUndo : ∀ kmem', Inv L B (addEnds (refs s.proc) f0 f1) { s with
          kmem := kmem'
          file := file
          proc := update s.proc i q } →
      wp
        (do
          setOfile i fd0 none
          setOfile i fd1 none
          fileclose L.kend f0
          fileclose L.kend f1
          pure (-1)) Q E
        { s with
          kmem := kmem'
          file := file
          proc := update s.proc i q } := by
    intro kmem' h₄
    have h₅ := h₄.setOfile fd0 none hi (by rintro g ⟨⟩) (.inl rfl)
    simp only [update_self, update_idem] at h₅
    have h₆ := h₅.setOfile fd1 none hi (by rintro g ⟨⟩) (.inl rfl)
    simp only [update_self, update_idem] at h₆
    rw [wp_bind, wp_setOfile, wp_bind, wp_setOfile]
    simp only [update_self, update_idem]
    refine closeEnds_spec hEnds h₆ ?_
    intro kmem'' file'' h₇
    refine hBack _ h₇ ?_ ?_
    · refine ofile_update ?_
      rw [withOfile_ofile, withOfile_ofile, hqFiles, hpFiles]
      exact update_back _ _ hFree0 hOld1
    · dsimp only
      rw [update_self]
      exact hqState
  have hqLive : ∀ kmem', (({ s with
      kmem := kmem'
      file := file
      proc := update s.proc i q } : State).proc i).state ≠ .unused := by
    intro kmem'
    dsimp only
    rw [update_self, hqState]
    rintro ⟨⟩
  rw [wp_bind, wp_getProc, wp_bind]
  refine copyoutUser_spec h₃ hi (hqLive kmem) ?_
  intro n kmem₁ h₄
  rw [wp_ite]
  refine ⟨fun _ => ?_, fun _ => ?_⟩
  · rw [wp_bind, wp_pure, if_pos (by decide)]
    exact hUndo kmem₁ h₄
  rw [wp_bind]
  refine copyoutUser_spec h₄ hi (hqLive kmem₁) ?_
  intro n' kmem₂ h₅
  rw [wp_ite]
  refine ⟨fun _ => hUndo kmem₂ h₅, fun _ => ?_⟩
  rw [wp_pure]
  refine hPost 0 _ (h₅.good ?_) ?_
  · exact fun g _ => hRefs g
  · dsimp only
    rw [update_self]
    exact hqState

---- The Loops Of Fork And Exit

/- A process with other descriptors. -/
def withFiles (p : Proc) (o : Nat → Option Nat) : Proc := { p with ofile := o }

/- The loop of `fork`: the child takes a reference for every descriptor of the parent. -/
theorem dupFiles_spec {np : Nat} {fds : List Nat} {Q : Unit → State → Prop} (h : Good L B s)
    (hi : i < NPROC) (hnp : np < NPROC) (hUsed : (s.proc np).state = .used)
    (hFds : ∀ fd ∈ fds, fd < NOFILE) (hNodup : fds.Nodup)
    (hFree : ∀ fd ∈ fds, (s.proc np).ofile fd = none)
    (hPost : ∀ file o, Good L B { s with
      file := file
      proc := update s.proc np (withFiles (s.proc np) o) } → Q () { s with
      file := file
      proc := update s.proc np (withFiles (s.proc np) o) }) :
    wp (dupFiles i np fds) Q E s := by
  induction fds generalizing s with
  | nil =>
    rw [dupFiles, wp_pure]
    have hDone := hPost s.file (s.proc np).ofile
    have hSame : withFiles (s.proc np) (s.proc np).ofile = s.proc np := rfl
    rw [hSame, update_eq_self] at hDone
    exact hDone h
  | cons fd fds ih =>
    rcases List.nodup_cons.mp hNodup with ⟨hNot, hRest⟩
    have hfd := hFds fd (by simp)
    rw [dupFiles, wp_bind, wp_getProc]
    cases hFile : (s.proc i).ofile fd with
    | none =>
      refine ih h hUsed (fun d hd => hFds d (by simp [hd])) hRest
        (fun d hd => hFree d (by simp [hd])) hPost
    | some f =>
      have hf := (h.descriptors i hi).file fd hfd f hFile
      dsimp only
      rw [wp_bind]
      refine filedup_spec h hf (refs_pos hi hfd hFile) ?_
      intro h₁
      rw [wp_bind, wp_setOfile]
      have h₂ := h₁.setOfile fd (some f) hnp (fun g hg => Option.some.inj hg ▸ hf) (.inr (by
          dsimp only
          rw [hUsed]
          exact ⟨by decide, by decide⟩))
      have hCounts := refs_open _ hnp hfd (hFree fd (by simp)) f
      have h₃ := h₂.good (fun g _ => hCounts g)
      refine ih h₃ ?_ (fun d hd => hFds d (by simp [hd])) hRest ?_ ?_
      · dsimp only
        rw [update_self]
        exact hUsed
      · intro d hd
        dsimp only
        rw [update_self, withOfile_ofile, update_of_ne]
        · exact hFree d (by simp [hd])
        · intro hEq
          rw [hEq] at hd
          exact hNot hd
      · intro file o h₄
        simp only [update_self, update_idem] at h₄ ⊢
        exact hPost file o h₄

/- The loop of `exit` closes every descriptor it visits. -/
theorem closeFiles_spec {fds : List Nat} {Q : Unit → State → Prop} (h : Good L B s) (hi : i < NPROC)
    (hFds : ∀ fd ∈ fds, fd < NOFILE)
    (hPost : ∀ kmem file o, Good L B { s with
        kmem := kmem
        file := file
        proc := update s.proc i (withFiles (s.proc i) o) } →
      (∀ fd, fd ∈ fds ∨ (s.proc i).ofile fd = none → o fd = none) → Q () { s with
          kmem := kmem
          file := file
          proc := update s.proc i (withFiles (s.proc i) o) }) :
    wp (closeFiles L.kend i fds) Q E s := by
  induction fds generalizing s with
  | nil =>
    rw [closeFiles, wp_pure]
    have hDone := hPost s.kmem s.file (s.proc i).ofile
    have hSame : withFiles (s.proc i) (s.proc i).ofile = s.proc i := rfl
    rw [hSame, update_eq_self] at hDone
    exact hDone h (fun fd hfd => by simpa using hfd)
  | cons fd fds ih =>
    have hfd := hFds fd (by simp)
    have hTail : ∀ d ∈ fds, d < NOFILE := fun d hd => hFds d (by simp [hd])
    rw [closeFiles, wp_bind, wp_getProc]
    cases hFile : (s.proc i).ofile fd with
    | none =>
      refine ih h hTail ?_
      intro kmem file o h' hNone
      refine hPost kmem file o h' ?_
      intro d hd
      refine hNone d ?_
      rcases hd with hIn | hFree
      · rcases List.mem_cons.mp hIn with hEq | hIn
        · rw [hEq]
          exact .inr hFile
        · exact .inl hIn
      · exact .inr hFree
    | some f =>
      have hf := (h.descriptors i hi).file fd hfd f hFile
      rcases Nat.exists_eq_succ_of_ne_zero
        (Nat.pos_iff_ne_zero.mp (refs_pos hi hfd hFile)) with ⟨k, hk⟩
      dsimp only
      rw [wp_bind]
      refine fileclose_spec h hf hk ?_
      intro kmem₁ file₁ h₁
      rw [wp_bind, wp_setOfile]
      have h₂ := h₁.setOfile fd none hi (by rintro g ⟨⟩) (.inl rfl)
      have h₃ := h₂.good (fun g _ => refs_close hi hfd hFile hk g)
      refine ih h₃ hTail ?_
      intro kmem file o h' hNone
      simp only [update_self, update_idem] at h' hNone ⊢
      refine hPost kmem file o h' ?_
      intro d hd
      refine hNone d ?_
      rw [withOfile_ofile]
      rcases hd with hIn | hFree
      · rcases List.mem_cons.mp hIn with hEq | hIn
        · rw [hEq, update_self]
          exact .inr rfl
        · exact .inl hIn
      · by_cases hEq : d = fd
        · rw [hEq, update_self]
          exact .inr rfl
        · rw [update_of_ne hEq]
          exact .inr hFree

end

end Xv6.Kernel

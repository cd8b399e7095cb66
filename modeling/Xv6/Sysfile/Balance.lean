import Xv6.Fs.Tally
import Xv6.Sysfile.Sysfile
import Mathlib.Algebra.BigOperators.Ring.Finset

/-
  Locks, references and transactions over all system calls.

  After any sequence of calls no inode is locked, no
  transaction is open, and the reference count of an inode
  is the number of open files and current directories that
  refer to it.

  Main declarations:
    * `adds_fileclose`
    * `Settled.syscall`
    * `inodes_accounted`
-/

namespace Xv6.Sysfile

open Function (update update_apply update_self update_idem forall_update_iff)

open Kernel (ProcState)

open Fs hiding State Panic

open Fs.Tally (lock ref op)

open Prog

variable {α β : Type} {sb : Superblock} {i k dp ip off f pi cwd : Nat} {fd n other : Int}
variable {name path : List UInt8} {type major minor : UInt16} {omode : UInt32} {s : State}
variable {page : Option Nat} {copied : Bool} {src : Src} {dst : Dst}

---- Calls On The File System

theorem calls_fail {r : α} {d : α → Tally} (hd : d r = -lock k - ref k) :
    Calls (do iunlockput sb k; pure r) d := .bind calls_iunlockput fun _ => .pure (by grind)

theorem calls_linkNew {new : List UInt8} : Calls (linkNew sb cwd ip new) fun _ => 0 := by
  refine .bind calls_namex ?_
  rintro (_ | ⟨dp, name⟩)
  · exact .pure (sub_self _)
  · refine .bind calls_ilock fun _ => .get fun s => .skip calls_dirlink fun r => ?_
    exact calls_fail (by grind)

theorem calls_setFields (change : Dinode → Dinode) : Calls (setFields sb k change) fun _ => 0 :=
  calls_onIp _

theorem calls_clearEntry :
    Calls (clearEntry sb dp ip off) fun _ => -lock dp - ref dp - lock ip - ref ip := by
  have hEnd : Calls (do
      iunlockput sb dp
      setFields sb ip fun d => { d with nlink := d.nlink - 1 }
      iunlockput sb ip) fun _ => -lock dp - ref dp - lock ip - ref ip := by
    refine .bind calls_iunlockput fun _ => .skip (calls_setFields _) fun _ => ?_
    exact .of_eq calls_iunlockput (by grind)
  refine .skip (calls_onIp _) fun _ => .ite .throw (.get fun s => .ite ?_ hEnd)
  exact .skip (calls_setFields _) fun _ => hEnd

theorem calls_unlinkIn : Calls (unlinkIn sb dp name) fun _ => -lock dp - ref dp := by
  refine .ite (calls_fail rfl) (.bind (calls_dirlookup name) ?_)
  rintro (_ | ⟨ip, off⟩)
  · exact calls_fail (by grind)
  have hTail : ∀ full : Bool, Calls (if full = true then do
        iunlockput sb ip
        iunlockput sb dp
        pure (-1 : Int)
      else do
        clearEntry sb dp ip off
        pure 0) fun _ => -lock dp - ref dp - ref ip - lock ip := by
    refine fun full => .ite (.bind calls_iunlockput fun _ => .bind calls_iunlockput fun _ => ?_) ?_
    · exact .pure (by grind)
    · exact .bind calls_clearEntry fun _ => .pure (by grind)
  refine .bind calls_ilock fun _ => .get fun s => .ite .throw (.ite ?_ (.pure_bind (hTail _)))
  refine .skip (.get fun _ => .skip calls_scan fun _ => .pure rfl) fun _ => ?_
  exact .pure_bind (hTail _)

theorem calls_enterNew : Calls (enterNew sb dp ip name type) fun _ => 0 := by
  refine .get fun s => ?_
  have hLast : ∀ r : Int, Calls (if r < 0 then pure r else dirlink sb dp name (s.inode ip).inum)
      fun _ => 0 := fun _ => .ite (.pure rfl) calls_dirlink
  refine .ite (.skip calls_dirlink fun r => .ite ?_ ?_) (.pure_bind (hLast _))
  · exact .pure_bind (hLast _)
  · exact .skip calls_dirlink hLast

/- An inode that is returned with its lock. -/
@[grind =]
def locked (r : Option Nat) : Tally := r.elim 0 fun ip => lock ip + ref ip

theorem calls_createIn :
    Calls (createIn sb dp name type major minor) fun r => locked r - lock dp - ref dp := by
  refine .bind (calls_dirlookup name) ?_
  rintro (_ | ⟨ip, off⟩)
  · refine .bind (calls_ialloc type) ?_
    rintro (_ | ip)
    · exact calls_fail (by grind)
    · refine .bind calls_ilock fun _ => .skip (calls_setFields _) fun _ => ?_
      refine .skip calls_enterNew fun r => .ite (.skip (calls_setFields _) fun _ => ?_) (.ite ?_ ?_)
      · exact .bind calls_iunlockput fun _ => calls_fail (by grind)
      · refine .skip (calls_setFields _) fun _ => ?_
        exact calls_fail (by grind)
      · exact calls_fail (by grind)
  · refine .bind calls_iunlockput fun _ => .bind calls_ilock fun _ => .get fun s => ?_
    exact .ite (.pure (by grind)) (calls_fail (by grind))

theorem calls_create : Calls (create sb cwd path type major minor) locked := by
  refine .bind calls_namex ?_
  rintro (_ | ⟨dp, name⟩)
  · exact .pure (by grind)
  · exact .bind calls_ilock fun _ => .of_eq calls_createIn (by grind)

theorem calls_openInode : Calls (openInode sb cwd path omode) locked := by
  refine .ite (.bind calls_create ?_) (.bind calls_namei ?_)
  · rintro (_ | ip)
    · exact .pure (by grind)
    · exact .get fun s => .ite (calls_fail (by grind)) (.pure (by grind))
  · rintro (_ | ip)
    · exact .pure_bind (.pure (by grind))
    · refine .bind calls_ilock fun _ => .get fun s => .ite ?_ (.pure_bind (.get fun s => ?_))
      · exact .bind calls_iunlockput fun _ => .pure_bind (.pure (by grind))
      · exact .ite (calls_fail (by grind)) (.pure (by grind))

theorem calls_findDir : Calls (findDir sb cwd path) fun r => r.elim 0 ref := by
  refine .bind calls_namei ?_
  rintro (_ | ip)
  · exact .pure (by grind)
  · refine .bind calls_ilock fun _ => .get fun s => .ite ?_ ?_
    · exact calls_fail (by grind)
    · exact .bind calls_iunlock fun _ => .pure (by grind)

theorem calls_readAll (reads : List (UInt32 × UInt32)) :
    Calls (readAll sb k reads) fun _ => 0 := by
  induction reads with
  | nil => exact .pure rfl
  | cons r rs ih => exact .skip (calls_onIp _) fun _ => ih

---- The Books

/- The reference of an open file to its inode. -/
@[grind =]
def File.holds (x : File) : Tally := if x.type = .inode ∨ x.type = .device then Tally.ref x.ip else 0

/- The current directory of a process, and its state. -/
abbrev Home := Option Nat × ProcState

@[grind =]
def Home.holds (x : Home) : Tally := x.1.elim 0 ref

def State.home (s : State) (p : Nat) : Home := ((s.proc p).cwd, (s.proc p).state)

def State.holds (s : State) : Tally :=
  ∑ f ∈ Finset.range NFILE, (s.file f).holds + ∑ p ∈ Finset.range NPROC, (s.home p).holds

/- What no open file and no process accounts for. -/
def State.books (s : State) : Tally := s.fs.tally - s.holds

theorem State.holds_congr {s' : State} (hFile : s'.file = s.file) (hHome : s'.home = s.home) :
    s'.holds = s.holds := by rw [State.holds, State.holds, hFile, hHome]

/- A file that is not in use has no type. -/
structure Kept (h : Nat → Home) (s : State) : Prop where
  blank : ∀ f, (s.file f).ref < 1 → (s.file f).type = .none
  few : ∀ f, NFILE ≤ f → (s.file f).ref < 1
  home : s.home = h

def Books (h : Nat → Home) (x : SysM α) (d : α → Tally) : Prop :=
  Adds (Kept h) (Kept h) State.books x d

abbrev Balanced (h : Nat → Home) (x : SysM α) : Prop := Books h x fun _ => 0

variable {h h' : Nat → Home}

theorem adds_fs {x : FsM α} {d : α → Tally} (hx : Calls x d) : Books h (fs x) d := by
  intro s hs
  unfold fs
  rw [wp_focus]
  refine wp_post (hx s.fs trivial) fun a t ht => ⟨⟨hs.blank, hs.few, hs.home⟩, ?_⟩
  have hHolds : { s with fs := t }.holds = s.holds := State.holds_congr rfl rfl
  unfold State.books
  grind

theorem Kept.setFile (hs : Kept h s) (f : Nat) (x : File) (hBlank : x.ref < 1 → x.type = .none)
    (hFew : NFILE ≤ f → x.ref < 1) :
    Kept h { s with file := update s.file f x } ∧
      { s with file := update s.file f x }.books = s.books + ((s.file f).holds - x.holds) := by
  refine ⟨⟨?_, ?_, hs.home⟩, ?_⟩
  · refine (forall_update_iff s.file fun _ y => y.ref < 1 → y.type = .none).mpr ⟨hBlank, ?_⟩
    exact fun g _ => hs.blank g
  · refine (forall_update_iff s.file fun g y => NFILE ≤ g → y.ref < 1).mpr ⟨hFew, ?_⟩
    exact fun g _ => hs.few g
  have hOld := hs.blank f
  have hUnused := hs.few f
  have hHome : { s with file := update s.file f x }.home = s.home := rfl
  unfold State.books State.holds
  rw [hHome]
  dsimp only
  rw [Prog.sum_update File.holds]
  grind

theorem wp_setFile {change : File → File} (hs : Kept h s) (hf : f < NFILE)
    (hRef : 1 ≤ (change (s.file f)).ref) :
    wp (setFile f change) (fun _ s' => Kept h s' ∧
      s'.books = s.books + ((s.file f).holds - (change (s.file f)).holds) ∧
      ∀ g, s'.file g = if g = f then change (s.file f) else s.file g) (fun _ => True) s := by
  have hKept := hs.setFile f (change (s.file f)) (by omega) (by omega)
  unfold Sysfile.setFile
  rw [wp_modify]
  exact ⟨hKept.1, hKept.2, fun _ => update_apply ..⟩

theorem adds_setFile {change : File → File}
    (hSame : ∀ x, (change x).ref = x.ref ∧ (change x).type = x.type ∧ (change x).ip = x.ip) :
    Balanced h (setFile f change) := by
  refine .modify fun s hs => ?_
  obtain ⟨hRef, hType, hIp⟩ := hSame (s.file f)
  have hKept := hs.setFile f (change (s.file f)) (by rw [hRef, hType]; exact hs.blank f)
    (by rw [hRef]; exact hs.few f)
  exact ⟨hKept.1, hKept.2.trans (by grind)⟩

/- Pipes, descriptors and parents are not in the books. -/
theorem adds_modify {g : State → State}
    (hg : ∀ s, (g s).fs = s.fs ∧ (g s).file = s.file ∧ (g s).home = s.home) :
    Balanced h (modify g : SysM PUnit) := by
  refine .modify fun s hs => ?_
  obtain ⟨hFs, hFile, hHome⟩ := hg s
  refine ⟨⟨?_, ?_, hHome.trans hs.home⟩, ?_⟩
  · rw [hFile]
    exact hs.blank
  · rw [hFile]
    exact hs.few
  · rw [State.books, State.books, hFs, State.holds_congr hFile hHome, add_zero]

theorem State.home_setProc (s : State) (i : Nat) (x : Proc) :
    { s with proc := update s.proc i x }.home = update s.home i (x.cwd, x.state) :=
  Function.comp_update (fun y : Proc => (y.cwd, y.state)) s.proc i x

theorem adds_setProc {change : Proc → Proc} {x : Home} (hi : i < NPROC)
    (hx : ∀ p : Proc, (p.cwd, p.state) = h i → ((change p).cwd, (change p).state) = x) :
    Adds (Kept h) (Kept (update h i x)) State.books (setProc i change)
      fun _ => Home.holds (h i) - x.holds := by
  refine .modify fun s hs => ?_
  have hHome := s.home_setProc i (change (s.proc i))
  rw [hx _ (congrFun hs.home i), hs.home] at hHome
  refine ⟨⟨hs.blank, hs.few, hHome⟩, ?_⟩
  unfold State.books State.holds
  rw [hHome, hs.home]
  dsimp only
  rw [Prog.sum_update Home.holds, if_pos hi]
  grind

theorem adds_setOfile {fd : Nat} {x : Option Nat} : Balanced h (setOfile i fd x) :=
  adds_modify fun s =>
    ⟨rfl, rfl, (s.home_setProc i _).trans (Function.update_eq_self i s.home)⟩

theorem adds_setPipe {p : Option Pipe} : Balanced h (setPipe pi p) :=
  adds_modify fun _ => ⟨rfl, rfl, rfl⟩

/- The current directory is that of the home. -/
theorem adds_cwd {J : State → Prop} {old : Nat} {g : Nat → SysM α} {d : α → Tally}
    (hOld : (h i).1 = some old) (hg : Adds (Kept h) J State.books (g old) d) :
    Adds (Kept h) J State.books (Sysfile.cwd i >>= g) d := by
  intro s hs
  have hCwd : (s.proc i).cwd = some old := by rw [← hOld, ← hs.home]; rfl
  unfold Sysfile.cwd
  rw [wp_bind, wp_bind, wp_get, wp_pure, hCwd]
  exact hg s hs

theorem call {J : State → Prop} {x : FsM α} {g : α → SysM β} {d : α → Tally} {e : β → Tally}
    (hx : Calls x d) (hg : ∀ a, Adds (Kept h) J State.books (g a) fun b => e b - d a) :
    Adds (Kept h) J State.books (fs x >>= g) e := .bind (adds_fs hx) hg

theorem adds_done {r : Int} {d : Int → Tally} (hd : d r = -op) :
    Books h (do fs endOp; pure r) d := call calls_endOp fun _ => .pure (by grind)

---- Open Files

theorem wp_filealloc (hs : Kept h s) :
    wp filealloc (fun r s' => Kept h s' ∧ s'.books = s.books ∧
      (∀ g, (s.file g).ref = 1 → s'.file g = s.file g) ∧
      ∀ f, r = some f → f < NFILE ∧ (s'.file f).type = .none ∧ (s'.file f).ref = 1)
      (fun _ => True) s := by
  unfold filealloc
  rw [wp_bind, wp_get]
  split
  · rw [wp_pure]
    exact ⟨hs, rfl, fun _ _ => rfl, by rintro _ ⟨⟩⟩
  rename_i f hFind
  have hZero : (s.file f).ref = 0 := of_decide_eq_true (List.find?_some hFind :)
  have hLt : f < NFILE := List.mem_range.mp (List.mem_of_find?_eq_some hFind)
  have hType := hs.blank f (by omega)
  rw [wp_bind]
  refine wp_post (wp_setFile hs hLt (by simp)) ?_
  rintro _ s' ⟨hKept, hBooks, hFile⟩
  rw [wp_pure]
  refine ⟨hKept, hBooks.trans (by grind), fun g hg => by grind, ?_⟩
  rintro _ ⟨⟩
  grind

theorem adds_filedup : Balanced h (filedup f) := by
  intro s hs
  have hFew := hs.few f
  unfold filedup
  rw [wp_bind, wp_get, wp_ite]
  refine ⟨fun _ => by rw [wp_throw]; trivial, fun hRef => ?_⟩
  rw [wp_bind]
  refine wp_post (wp_setFile hs (by omega) (by grind)) fun _ s' hs' => ?_
  rw [wp_pure]
  exact ⟨hs'.1, hs'.2.1.trans (by grind)⟩

theorem adds_fileclose : Balanced h (fileclose sb f) := by
  intro s hs
  have hFew := hs.few f
  unfold fileclose Sysfile.setFile
  rw [wp_bind, wp_get]
  dsimp only
  rw [wp_ite]
  refine ⟨fun _ => by rw [wp_throw]; trivial, fun hRef => ?_⟩
  rw [wp_ite]
  refine ⟨fun hMore => ?_, fun hLast => ?_⟩
  · have hKept := hs.setFile f { s.file f with ref := (s.file f).ref - 1 } (by grind) (by grind)
    rw [wp_modify]
    exact ⟨hKept.1, hKept.2.trans (by grind)⟩
  have hKept := hs.setFile f { s.file f with ref := 0, type := .none } (by grind) (by grind)
  rw [wp_bind, wp_modify]
  split
  · refine Adds.wp (d := fun _ => 0) (.get fun s => ?_) hKept.1 (by grind)
    split
    · exact .pure rfl
    · exact .ite adds_setPipe adds_setPipe
  · split
    · refine Adds.wp (d := fun _ => -ref (s.file f).ip) ?_ hKept.1 (by grind)
      refine call calls_beginOp fun _ => call calls_iput fun _ => ?_
      exact .of_eq (adds_fs calls_endOp) (by grind)
    · exact Adds.wp (d := fun _ => 0) (.pure rfl) hKept.1 (by grind)

theorem adds_pipealloc : Balanced h (pipealloc sb page) := by
  intro s hs
  unfold pipealloc
  rw [wp_bind]
  refine wp_post (wp_filealloc hs) ?_
  rintro (_ | f₀) s₁ ⟨hKept₁, hBooks₁, -, hNew₀⟩
  · exact Adds.wp (d := fun _ => 0) (.pure rfl) hKept₁ (by grind)
  rw [wp_bind]
  refine wp_post (wp_filealloc hKept₁) ?_
  rintro (_ | f₁) s₂ ⟨hKept₂, hBooks₂, hOld, hNew₁⟩
  · exact Adds.wp (d := fun _ => 0) (.skip adds_fileclose fun _ => .pure rfl) hKept₂ (by grind)
  obtain ⟨hLt₀, hType₀, hRef₀⟩ := hNew₀ f₀ rfl
  obtain ⟨hLt₁, hType₁, hRef₁⟩ := hNew₁ f₁ rfl
  have hSame := hOld f₀ hRef₀
  unfold kalloc
  rw [wp_bind, wp_bind, wp_get, wp_pure]
  split
  · refine Adds.wp (d := fun _ => 0) (.skip adds_fileclose fun _ => ?_) hKept₂ (by grind)
    exact .skip adds_fileclose fun _ => .pure rfl
  have hFile : ∀ pi p, Prog.Preserves State.file (setPipe pi p) := fun _ _ => .modify fun _ => rfl
  rw [wp_bind]
  refine wp_post (wp_and (adds_setPipe s₂ hKept₂) (hFile _ _ s₂)) ?_
  rintro _ s₃ ⟨⟨hKept₃, hBooks₃⟩, hFile₃⟩
  rw [wp_bind]
  refine wp_post (wp_setFile hKept₃ hLt₀ (by grind)) ?_
  rintro _ s₄ ⟨hKept₄, hBooks₄, hFile₄⟩
  rw [wp_bind]
  refine wp_post (wp_setFile hKept₄ hLt₁ (by grind)) ?_
  rintro _ s₅ ⟨hKept₅, hBooks₅, -⟩
  rw [wp_pure]
  exact ⟨hKept₅, by grind⟩

theorem adds_filestat : Balanced h (filestat sb f copied) := by
  refine .get fun s => .ite (call calls_ilock fun _ => ?_) (.pure rfl)
  exact call calls_iunlock fun _ => .ite (.pure (by grind)) (.pure (by grind))

theorem adds_fileread : Balanced h (fileread sb f dst n other) := by
  refine .get fun s => .ite (.pure rfl) (.ite (.pure rfl) (.ite ?_ .throw))
  refine call calls_ilock fun _ => .skip (adds_fs (calls_onIp _)) fun _ => ?_
  refine .skip (adds_setFile fun _ => ⟨rfl, rfl, rfl⟩) fun _ => ?_
  exact call calls_iunlock fun _ => .pure (by grind)

theorem adds_writeParts {fuel j : Nat} : Balanced h (writeParts sb f src n fuel j) := by
  induction fuel generalizing j with
  | zero => exact .pure rfl
  | succ fuel ih =>
    refine .ite (.get fun s => call calls_beginOp fun _ => ?_) (.pure rfl)
    refine call calls_ilock fun _ => .skip (adds_fs (calls_onIp _)) fun _ => ?_
    refine .skip (adds_setFile fun _ => ⟨rfl, rfl, rfl⟩) fun _ => ?_
    refine call calls_iunlock fun _ => call calls_endOp fun _ => ?_
    exact .ite (.pure (by grind)) (.of_eq ih (by grind))

theorem adds_filewrite : Balanced h (filewrite sb f src n other) := by
  refine .get fun s => .ite (.pure rfl) (.ite (.pure rfl) (.ite ?_ .throw))
  exact .skip adds_writeParts fun _ => .ite (.pure rfl) (.pure rfl)

---- System Calls

theorem adds_argfd {g : Option Nat → SysM α} (hNone : Balanced h (g none))
    (hSome : ∀ f, Balanced h (g (some f))) : Balanced h (argfd i fd >>= g) := by
  refine .skip (.get fun _ => .ite (.pure rfl) (.pure rfl)) ?_
  rintro (_ | f)
  · exact hNone
  · exact hSome f

theorem adds_fdalloc : Balanced h (fdalloc i f) := by
  refine .get fun s => ?_
  split
  · exact .pure rfl
  · exact .skip adds_setOfile fun _ => .pure rfl

theorem adds_sysDup : Balanced h (sysDup i fd) := by
  refine adds_argfd (.pure rfl) fun f => .skip adds_fdalloc ?_
  rintro (_ | fd)
  · exact .pure rfl
  · exact .skip adds_filedup fun _ => .pure rfl

theorem adds_sysClose : Balanced h (sysClose sb i fd) :=
  adds_argfd (.pure rfl) fun _ => .skip adds_setOfile fun _ => .skip adds_fileclose fun _ => .pure rfl

theorem adds_sysPipe : Balanced h (sysPipe sb i page copied) := by
  refine .skip adds_pipealloc ?_
  rintro (_ | ⟨rf, wf⟩)
  · exact .pure rfl
  have hFail : Balanced h (do fileclose sb rf; fileclose sb wf; pure (-1 : Int)) :=
    .skip adds_fileclose fun _ => .skip adds_fileclose fun _ => .pure rfl
  refine .skip adds_fdalloc ?_
  rintro (_ | fd₀)
  · exact hFail
  · refine .skip adds_fdalloc ?_
    rintro (_ | fd₁)
    · exact .skip adds_setOfile fun _ => hFail
    · exact .ite (.skip adds_setOfile fun _ => .skip adds_setOfile fun _ => hFail) (.pure rfl)

section

variable {old : Nat} {arg : Option (List UInt8)} (hOld : (h i).1 = some old)
include hOld

theorem adds_sysLink {new : Option (List UInt8)} : Balanced h (sysLink sb i arg new) := by
  unfold sysLink
  split
  · refine adds_cwd hOld (call calls_beginOp fun _ => call calls_namei ?_)
    rintro (_ | ip)
    · exact adds_done (by grind)
    refine call calls_ilock fun _ => .get fun s => .ite ?_ ?_
    · exact call calls_iunlockput fun _ => adds_done (by grind)
    · refine .skip (adds_fs (calls_setFields _)) fun _ => call calls_iunlock fun _ => ?_
      refine .skip (adds_fs calls_linkNew) fun r => .ite (call calls_ilock fun _ => ?_) ?_
      · refine .skip (adds_fs (calls_setFields _)) fun _ => ?_
        exact call calls_iunlockput fun _ => adds_done (by grind)
      · exact call calls_iput fun _ => adds_done (by grind)
  · exact .pure rfl

theorem adds_sysUnlink : Balanced h (sysUnlink sb i arg) := by
  cases arg with
  | none => exact .pure rfl
  | some path =>
    refine adds_cwd hOld (call calls_beginOp fun _ => call calls_namex ?_)
    rintro (_ | ⟨dp, name⟩)
    · exact adds_done (by grind)
    · refine call calls_ilock fun _ => call calls_unlinkIn fun _ => ?_
      exact adds_done (by grind)

theorem adds_sysCreate : Balanced h (sysCreate sb i arg type major minor) := by
  refine adds_cwd hOld (call calls_beginOp fun _ => ?_)
  cases arg with
  | none => exact adds_done (by grind)
  | some path =>
    refine call calls_create ?_
    rintro (_ | ip)
    · exact adds_done (by grind)
    · exact call calls_iunlockput fun _ => adds_done (by grind)

theorem adds_exec {reads : List (UInt32 × UInt32)} {image : Option Nat} :
    Balanced h (exec sb i arg reads image) := by
  cases arg with
  | none => exact .pure rfl
  | some path =>
    refine adds_cwd hOld (call calls_beginOp fun _ => call calls_namei ?_)
    rintro (_ | ip)
    · exact adds_done (by grind)
    refine call calls_ilock fun _ => .skip (adds_fs (calls_readAll reads)) fun _ => ?_
    refine call calls_iunlockput fun _ => ?_
    cases image with
    | none => exact adds_done (by grind)
    | some argc => exact adds_done (by grind)

theorem adds_sysOpen : Balanced h (sysOpen sb i arg omode) := by
  have hFail : ∀ ip g, Books h (openFail sb ip g) fun _ => -lock ip - ref ip - op := by
    intro ip g
    have hEnd : Books h (do fs (iunlockput sb ip); fs endOp; pure (-1)) fun _ =>
        -lock ip - ref ip - op := call calls_iunlockput fun _ => adds_done (by grind)
    cases g with
    | none => exact hEnd
    | some f => exact .skip adds_fileclose fun _ => hEnd
  cases arg with
  | none => exact .pure rfl
  | some path =>
    refine adds_cwd hOld (call calls_beginOp fun _ => call calls_openInode ?_)
    rintro (_ | ip)
    · exact adds_done (by grind)
    intro s hs
    rw [wp_bind]
    refine wp_post (wp_filealloc hs) ?_
    rintro (_ | f) s₁ ⟨hKept₁, hBooks₁, -, hNew⟩
    · exact Adds.wp (hFail ip none) hKept₁ (by grind)
    obtain ⟨hLt, hType, hRef⟩ := hNew f rfl
    have hFile : Prog.Preserves State.file (fdalloc i f) := by
      refine .bind .get fun s => ?_
      split
      · exact .pure _
      · exact .bind (.modify fun _ => rfl) fun _ => .pure _
    rw [wp_bind]
    refine wp_post (wp_and (adds_fdalloc s₁ hKept₁) (hFile s₁)) ?_
    rintro (_ | fd) s₂ ⟨⟨hKept₂, hBooks₂⟩, hSame⟩
    · exact Adds.wp (hFail ip (some f)) hKept₂ (by grind)
    have hOpened : ∀ x d, (opened x ip d omode).holds = ref ip ∧ (opened x ip d omode).ref = x.ref := by
      intro x d
      unfold opened File.holds
      split
      · simp
      · simp
    rw [wp_bind, wp_get, wp_bind]
    refine wp_post (wp_setFile hKept₂ hLt (by grind)) ?_
    rintro _ s₃ ⟨hKept₃, hBooks₃, -⟩
    have hEnd : Books h (do fs (iunlock ip); fs endOp; pure (fd : Int)) fun _ => -lock ip - op :=
      call calls_iunlock fun _ => adds_done (by grind)
    exact Adds.wp (.ite (.skip (adds_fs (calls_onIp _)) fun _ => hEnd) hEnd) hKept₃ (by grind)

end

---- Processes

/- A process has a current directory while it runs. -/
def Good (h : Nat → Home) : Prop := ∀ p, (h p).1.isSome = true ↔ (h p).2 = .runnable

structure Sound (s : State) : Prop where
  kept : Kept s.home s
  good : Good s.home

abbrev Ends (h : Nat → Home) (x : SysM α) : Prop := Adds (Kept h) Sound State.books x fun _ => 0

theorem Good.update (hGood : Good h) {x : Home} (hx : x.1.isSome = true ↔ x.2 = .runnable) :
    Good (update h i x) :=
  (forall_update_iff h fun _ y => y.1.isSome = true ↔ y.2 = .runnable).mpr ⟨hx, fun p _ => hGood p⟩

theorem Good.none {p : Nat} {x : ProcState} (hGood : Good h) (hState : (h p).2 = x)
    (hx : x ≠ .runnable) : h p = (Option.none, x) := by
  have hNot : (h p).1.isSome ≠ true := by
    rw [ne_eq, hGood p, hState]
    exact hx
  exact Prod.ext (Option.not_isSome_iff_eq_none.mp hNot) hState

theorem sound {x : SysM α} {d : α → Tally} (hGood : Good h')
    (hx : Adds (Kept h) (Kept h') State.books x d) : Adds (Kept h) Sound State.books x d := by
  intro s hs
  refine wp_post (hx s hs) fun _ s' hs' => ⟨?_, hs'.2⟩
  have hHome := hs'.1.home
  exact ⟨hHome ▸ hs'.1, hHome ▸ hGood⟩

theorem ends_pure (hGood : Good h) (r : Int) : Ends h (pure r) := sound hGood (.pure rfl)

theorem adds_dupFiles {np : Nat} (fds : List Nat) : Balanced h (dupFiles i np fds) := by
  induction fds with
  | nil => exact .pure rfl
  | cons fd fds ih =>
    refine .get fun s => ?_
    split
    · exact ih
    · exact .skip adds_filedup fun _ => .skip adds_setOfile fun _ => ih

theorem adds_closeFiles (fds : List Nat) : Balanced h (closeFiles sb i fds) := by
  induction fds with
  | nil => exact .pure rfl
  | cons fd fds ih =>
    refine .get fun s => ?_
    split
    · exact ih
    · exact .skip adds_fileclose fun _ => .skip adds_setOfile fun _ => ih

section

variable {old : Nat} (hGood : Good h)
include hGood

theorem adds_wait {killed : Bool} : Ends h (wait i copied killed) := by
  intro s hs
  unfold wait
  rw [wp_bind, wp_get]
  split
  · rename_i j hFind
    have hLt : j < NPROC := List.mem_range.mp (List.mem_of_find?_eq_some hFind)
    have hState : (h j).2 = .zombie := by
      rw [← hs.home]
      exact (of_decide_eq_true (List.find?_some hFind :)).2
    have hj := hGood.none hState (by simp)
    split
    · exact ends_pure hGood _ s hs
    · refine Adds.seq (adds_setProc (x := (none, .unused)) hLt (by grind)) (fun _ => ?_) s hs
      exact sound (hGood.update (by simp)) (.pure (by grind))
  · split
    · exact ends_pure hGood _ s hs
    · rw [wp_throw]
      trivial

variable (hHome : h i = (some old, .runnable))
include hHome

theorem adds_fork {room : Bool} : Ends h (fork i room) := by
  intro s hs
  unfold fork
  rw [wp_bind, wp_get]
  split
  · exact ends_pure hGood _ s hs
  rename_i np hFind
  have hLt : np < NPROC := List.mem_range.mp (List.mem_of_find?_eq_some hFind)
  have hState : (h np).2 = .unused := by
    rw [← hs.home]
    exact of_decide_eq_true (List.find?_some hFind :)
  have hNp := hGood.none hState (by simp)
  have hOld : (update h np (none, .used) i).1 = some old := by grind [update_apply]
  split
  · exact ends_pure hGood _ s hs
  · refine Adds.seq (adds_setProc (x := (none, .used)) hLt (by grind)) (fun _ => ?_) s hs
    refine .skip (adds_dupFiles _) fun _ => adds_cwd hOld (call calls_idup fun ip => ?_)
    refine .seq (adds_setProc (x := (some ip, .runnable)) hLt (by grind)) fun _ => ?_
    rw [update_self]
    refine sound ?_ (.pure (by grind))
    rw [update_idem]
    exact hGood.update (by simp)

variable (hi : i < NPROC)
include hi

theorem adds_sysChdir {arg : Option (List UInt8)} : Ends h (sysChdir sb i arg) := by
  refine adds_cwd (congrArg Prod.fst hHome) (call calls_beginOp fun _ => ?_)
  cases arg with
  | none => exact sound hGood (adds_done (by grind))
  | some path =>
    refine call calls_findDir ?_
    rintro (_ | ip)
    · exact sound hGood (adds_done (by grind))
    · refine call calls_iput fun _ => call calls_endOp fun _ => ?_
      refine .seq (adds_setProc (x := (some ip, .runnable)) hi (by grind)) fun _ => ?_
      exact sound (hGood.update (by simp)) (.pure (by grind))

theorem adds_exit : Ends h (exit sb i) := by
  refine .get fun s => .ite .throw (.skip (adds_closeFiles _) fun _ => ?_)
  refine adds_cwd (congrArg Prod.fst hHome) (call calls_beginOp fun _ => ?_)
  refine call calls_iput fun _ => call calls_endOp fun _ => ?_
  refine .seq (adds_setProc (x := (none, .runnable)) hi (by grind)) fun _ => ?_
  refine .skip (adds_modify fun s => ⟨rfl, rfl, ?_⟩) fun _ => ?_
  · funext p
    simp only [State.home]
    split <;> rfl
  · refine .seq (adds_setProc (x := (none, .zombie)) hi (by grind [update_self])) fun _ => ?_
    rw [update_self]
    refine sound ?_ (.pure (by grind))
    rw [update_idem]
    exact hGood.update (by simp)

end

---- Runs

structure Settled (s : State) : Prop extends Sound s where
  books : s.books = 0

theorem Settled.syscall (hs : Settled s) (hLive : s.Live i) (c : Call) :
    wp (syscall sb i c) (fun _ s' => Settled s') (fun _ => True) s := by
  obtain ⟨old, hOld⟩ := Option.isSome_iff_exists.mp ((hs.good i).mpr hLive.2)
  have hHome : s.home i = (some old, .runnable) := Prod.ext hOld hLive.2
  have hCall : Ends s.home (Sysfile.syscall sb i c) := by
    cases c with
    | dup => exact sound hs.good adds_sysDup
    | read => exact sound hs.good (adds_argfd (.pure rfl) fun _ => adds_fileread)
    | write => exact sound hs.good (adds_argfd (.pure rfl) fun _ => adds_filewrite)
    | close => exact sound hs.good adds_sysClose
    | fstat => exact sound hs.good (adds_argfd (.pure rfl) fun _ => adds_filestat)
    | pipe => exact sound hs.good adds_sysPipe
    | link => exact sound hs.good (adds_sysLink hOld)
    | unlink => exact sound hs.good (adds_sysUnlink hOld)
    | «open» => exact sound hs.good (adds_sysOpen hOld)
    | mkdir => exact sound hs.good (adds_sysCreate hOld)
    | mknod => exact sound hs.good (adds_sysCreate hOld)
    | chdir => exact adds_sysChdir hs.good hHome hLive.1
    | exec => exact sound hs.good (adds_exec hOld)
    | fork => exact adds_fork hs.good hHome
    | exit => exact adds_exit hs.good hHome hLive.1
    | wait => exact adds_wait hs.good
  refine wp_post (hCall s hs.kept) fun _ s' hs' => ⟨hs'.1, ?_⟩
  rw [hs'.2, hs.books, add_zero]

theorem settled_boot (disk : Disk) : Settled (boot disk) := by
  refine ⟨⟨⟨fun _ _ => rfl, fun _ _ => Int.zero_lt_one, rfl⟩, ?_⟩, ?_⟩
  · intro p
    simp only [State.home, boot]
    split
    · simp
    · simp
  have hTally : (boot disk).fs.tally = ref 0 := by
    refine Prod.ext rfl (Prod.ext ?_ rfl)
    funext k
    simp [State.tally, boot, ref]
  have hHomes : ∀ p, ((boot disk).home p).holds = if p = 0 then ref 0 else 0 := by
    intro p
    simp only [State.home, boot, Home.holds]
    split
    · rfl
    · rfl
  have hFiles : ∀ f, ((boot disk).file f).holds = 0 := fun _ => rfl
  simp [State.books, State.holds, hTally, hHomes, hFiles, NPROC]

/- The file refers to the inode in slot `k`. -/
abbrev File.Opens (x : File) (k : Nat) : Prop := (x.type = .inode ∨ x.type = .device) ∧ x.ip = k

theorem File.holds_eq (x : File) :
    x.holds = (fun _ => 0, fun k => if x.Opens k then 1 else 0, 0) := by
  unfold File.holds File.Opens
  split
  · rename_i hType
    refine Prod.ext rfl (Prod.ext ?_ rfl)
    funext k
    simp [Tally.ref, hType, eq_comm (a := k)]
  · rename_i hType
    simp only [hType, false_and, if_false]
    rfl

theorem Home.holds_eq (x : Home) :
    x.holds = (fun _ => 0, fun k => if x.1 = some k then 1 else 0, 0) := by
  unfold Home.holds
  cases x.1 with
  | none => rfl
  | some c =>
    refine Prod.ext rfl (Prod.ext ?_ rfl)
    funext k
    simp [ref, eq_comm]

theorem inodes_accounted
    {disk : Disk}
    (hReach : Reachable sb (boot disk) s) :
    s.fs.outstanding = 0 ∧
    ∀ k,
      (s.fs.inode k).locked = false ∧
      (s.fs.inode k).ref =
        ((Finset.range NFILE).filter fun f => (s.file f).Opens k).card +
        ((Finset.range NPROC).filter fun p => (s.proc p).cwd = some k).card := by
  have hs : Settled s := by
    induction hReach with
    | init => exact settled_boot disk
    | call _ hLive hRun ih => exact Prog.wp_of_eq_ok (ih.syscall hLive _) hRun
  -- The books are clear in each of the three counts.
  have hSum (g : Tally →+ Int) : g s.fs.tally =
      ∑ f ∈ Finset.range NFILE, g (s.file f).holds + ∑ p ∈ Finset.range NPROC, g (s.home p).holds := by
    rw [sub_eq_zero.mp hs.books, State.holds, map_add, map_sum, map_sum]
  simp only [File.holds_eq, Home.holds_eq] at hSum
  refine ⟨(hSum Tally.ops).trans (by simp), fun k => ⟨?_, ?_⟩⟩
  · have hLock : (s.fs.inode k).held = 0 := (hSum (Tally.locks k)).trans (by simp)
    unfold Inode.held at hLock
    split at hLock
    · cases hLock
    · rename_i hFree
      exact Bool.eq_false_iff.mpr hFree
  · refine (hSum (Tally.refs k)).trans ?_
    simp only [Tally.refs_mk, Finset.sum_boole]
    rfl

theorem inodes_accounted_fork :
    ∃ s, Reachable ⟨0, 0, 0, 0, 0, 0, 0, 0⟩ (boot fun _ => Bytes.zero) s ∧
      (s.fs.inode 0).ref = 2 ∧ s.fs.outstanding = 0 := by
  have hFork : Reachable ⟨0, 0, 0, 0, 0, 0, 0, 0⟩ (boot fun _ => Bytes.zero) _ :=
    .call (i := 0) (c := .fork true) .init (by decide) rfl
  exact ⟨_, hFork, rfl, (inodes_accounted hFork).1⟩

end Xv6.Sysfile

import Xv6.Fs.Paths
import Xv6.Lib.Measure
import Mathlib.Algebra.Group.Pi.Lemmas

/-
  What the functions on inodes take and give back.

  Locks, references and transactions are counted in one
  measure. Each function has a fixed effect on it, on every
  path that returns.

  Main declarations:
    * `calls_iput`
    * `calls_dirlink`
    * `calls_namex`
-/

namespace Xv6.Fs

open Function (update)

open Prog

/- Locks and references of each slot, and transactions. -/
def Tally := (Nat → Int) × (Nat → Int) × Int
deriving AddCommGroup

namespace Tally

def lock (k : Nat) : Tally := (fun j => if j = k then 1 else 0, fun _ => 0, 0)

def ref (k : Nat) : Tally := (fun _ => 0, fun j => if j = k then 1 else 0, 0)

def op : Tally := (fun _ => 0, fun _ => 0, 1)

def locks (k : Nat) : Tally →+ Int := ⟨⟨fun t => t.1 k, rfl⟩, fun _ _ => rfl⟩

def refs (k : Nat) : Tally →+ Int := ⟨⟨fun t => t.2.1 k, rfl⟩, fun _ _ => rfl⟩

def ops : Tally →+ Int := ⟨⟨fun t => t.2.2, rfl⟩, fun _ _ => rfl⟩

variable (k : Nat) (l r : Nat → Int) (o : Int)

@[simp]
theorem locks_mk : locks k (l, r, o) = l k := rfl

@[simp]
theorem refs_mk : refs k (l, r, o) = r k := rfl

@[simp]
theorem ops_mk : ops (l, r, o) = o := rfl

end Tally

open Tally (lock ref op locks refs ops)

def Inode.held (ip : Inode) : Int := if ip.locked = true then 1 else 0

def State.tally (s : State) : Tally :=
  (fun k => (s.inode k).held, fun k => (s.inode k).ref, s.outstanding)

/- Every normal return of `x` adds `d` to the tally. -/
def Calls {α : Type} (x : FsM α) (d : α → Tally) : Prop :=
  Adds (fun _ => True) (fun _ => True) State.tally x d

/- The reference that comes with the result of a lookup. -/
@[grind =]
def found {α : Type} (r : Option (Nat × α)) : Tally := r.elim 0 fun x => ref x.1

variable {sb : Superblock} {k ip fuel off cwd : Nat} {path : List UInt8} {parent : Bool} {s : State}

---- The Inode Table

theorem tally_add {s' : State} {d : Tally}
    (hLocks : ∀ k, (s'.inode k).held = (s.inode k).held + locks k d)
    (hRefs : ∀ k, (s'.inode k).ref = (s.inode k).ref + refs k d)
    (hOps : s'.outstanding = s.outstanding + ops d) : s'.tally = s.tally + d :=
  Prod.ext (funext hLocks) (Prod.ext (funext hRefs) hOps)

theorem tally_update (s : State) (k : Nat) (ip : Inode) :
    { s with inode := update s.inode k ip }.tally =
      s.tally + ((ip.held - (s.inode k).held) • lock k + (ip.ref - (s.inode k).ref) • ref k) := by
  refine tally_add (fun j => ?_) (fun j => ?_) ?_
  all_goals rw [map_add, map_zsmul, map_zsmul]
  · by_cases hj : j = k
    · simp [hj, lock, ref]
    · simp [hj, lock, ref]
  · by_cases hj : j = k
    · simp [hj, lock, ref]
    · simp [hj, lock, ref]
  · simp [lock, ref]

theorem calls_setInode {change : Inode → Inode} (d : Int)
    (hChange : ∀ ip, (change ip).locked = ip.locked ∧ (change ip).ref = ip.ref + d) :
    Calls (setInode k change) fun _ => d • ref k := by
  refine .modify fun s _ => ⟨trivial, ?_⟩
  rw [tally_update, Inode.held, (hChange _).1, (hChange _).2]
  simp [Inode.held]

/- The disk and the copy of an inode are not counted. -/
theorem adds_onIp {I : State → Prop} {α : Type} (x : IpM α)
    (hI : ∀ s t, I s → I (s.putIp k t)) : Adds I I State.tally (onIp k x) fun _ => 0 := by
  intro s hs
  unfold onIp
  rw [wp_within]
  refine wp_post (wp_true x _) fun a t _ => ⟨hI s t hs, ?_⟩
  rw [State.putIp, add_zero]
  refine (tally_update { s with disk := t.disk } k _).trans ?_
  simp only [Inode.held, sub_self, zero_zsmul, add_zero]
  rfl

theorem calls_onIp {α : Type} (x : IpM α) : Calls (onIp k x) fun _ => 0 :=
  adds_onIp x fun _ _ h => h

theorem calls_beginOp : Calls beginOp fun _ => op :=
  .modify fun s _ => ⟨trivial, tally_add (by simp [op]) (by simp [op]) (by simp [op])⟩

theorem calls_endOp : Calls endOp fun _ => -op :=
  .modify fun s _ => ⟨trivial, eq_add_neg_of_add_eq
    (tally_add (by simp [op]) (by simp [op]) (by simp [op])).symm⟩

/- The lock of slot `k` is held. -/
def Held (k : Nat) (s : State) : Prop := (s.inode k).locked = true

theorem adds_acquiresleep :
    Adds (fun _ => True) (Held k) State.tally (acquiresleep k) fun _ => lock k := by
  intro s _
  unfold acquiresleep setInode
  rw [wp_bind, wp_get, wp_ite]
  refine ⟨fun _ => by rw [wp_throw]; trivial, fun hFree => ?_⟩
  rw [wp_modify, tally_update]
  simp [Held, Inode.held, hFree]

theorem adds_releasesleep :
    Adds (Held k) (fun _ => True) State.tally (releasesleep k) fun _ => -lock k := by
  refine .modify fun s hHeld => ⟨trivial, ?_⟩
  rw [tally_update]
  simp [Inode.held, show (s.inode k).locked = true from hHeld]

theorem calls_idup : Calls (idup k) ref :=
  .bind (calls_setInode 1 (by intro _; exact ⟨rfl, rfl⟩)) fun _ => .pure (by simp)

theorem calls_iget (inum : Nat) : Calls (iget inum) ref := by
  intro s hs
  unfold iget
  rw [wp_bind, wp_get]
  split
  · exact calls_idup s hs
  split
  · rw [wp_throw]
    trivial
  · rename_i k hFind
    have hZero : (s.inode k).ref = 0 := of_decide_eq_true (List.find?_some hFind :)
    unfold setInode
    rw [wp_bind, wp_modify, wp_pure, tally_update]
    simp [Inode.held, hZero]

theorem calls_ilock : Calls (ilock sb k) fun _ => lock k := by
  have hTake : Calls (acquiresleep k) fun _ => lock k :=
    fun s hs => wp_post (adds_acquiresleep s hs) fun _ _ h => ⟨trivial, h.2⟩
  refine .get fun s => .ite .throw (.bind hTake fun _ => .get fun s => .ite ?_ (.pure (sub_self _)))
  refine .bind (calls_setInode 0 (by intro _; exact ⟨rfl, (add_zero _).symm⟩)) fun _ => ?_
  exact .get fun s => .ite .throw (.pure (by simp))

theorem calls_iunlock : Calls (iunlock k) fun _ => -lock k := by
  intro s _
  unfold iunlock
  rw [wp_bind, wp_get, wp_ite]
  refine ⟨fun _ => by rw [wp_throw]; trivial, fun hHeld => ?_⟩
  rw [not_or, Bool.not_eq_false] at hHeld
  exact adds_releasesleep s hHeld.1

/- The lock taken first is still held when it is released. -/
theorem calls_ifree : Calls (ifree sb k) fun _ => 0 := by
  have hStable : ∀ (s : State) t, Held k s → Held k (s.putIp k t) :=
    fun s t h => by simpa [Held, State.putIp] using h
  refine .seq adds_acquiresleep fun _ => .skip (adds_onIp _ hStable) fun _ => ?_
  refine .skip (adds_onIp _ hStable) fun _ => .skip (adds_onIp _ hStable) fun _ => ?_
  refine .skip (.modify fun s hs => ⟨by simpa [Held] using hs, ?_⟩) fun _ => ?_
  · rw [tally_update]
    simp [Inode.held]
  · exact .of_eq adds_releasesleep (by simp)

theorem calls_iput : Calls (iput sb k) fun _ => -ref k := by
  have hDrop : Calls (setInode k fun ip => { ip with ref := ip.ref - 1 }) fun _ => -ref k := by
    refine .of_eq (calls_setInode (-1) fun _ => ⟨rfl, rfl⟩) fun _ => ?_
    simp
  exact .get fun s => .ite (.skip calls_ifree fun _ => hDrop) hDrop

theorem calls_iunlockput : Calls (iunlockput sb k) fun _ => -lock k - ref k :=
  .bind calls_iunlock fun _ => .of_eq calls_iput (by grind)

theorem calls_ialloc (type : UInt16) : Calls (ialloc sb type) fun r => r.elim 0 ref := by
  refine .get fun s => ?_
  split
  · exact .pure rfl
  · refine .skip (.modify fun _ h => ⟨h, (add_zero _).symm⟩) fun _ => ?_
    exact .bind (calls_iget _) fun _ => .pure (sub_self _)

---- Directories

theorem calls_scan {short : Fault} {wanted : Dirent → Bool} :
    Calls (scan sb k short wanted fuel off) fun _ => 0 := by
  induction fuel generalizing off with
  | zero => exact .pure rfl
  | succ fuel ih =>
    refine .get fun s => .ite (.skip ?_ ?_) (.pure rfl)
    · exact .skip (calls_onIp _) fun _ => .ite (.pure rfl) (.pure rfl)
    · rintro (_ | de)
      · exact .throw
      · exact .ite (.pure rfl) ih

theorem calls_dirlookup (name : List UInt8) : Calls (dirlookup sb k name) found := by
  refine .get fun s => .ite .throw (.skip calls_scan ?_)
  rintro (_ | ⟨off, de⟩)
  · exact .pure rfl
  · exact .bind (calls_iget _) fun _ => .pure (sub_self _)

theorem calls_dirlink {name : List UInt8} {inum : Nat} :
    Calls (dirlink sb k name inum) fun _ => 0 := by
  refine .bind (calls_dirlookup name) ?_
  rintro (_ | ⟨ip, off⟩)
  · refine .get fun s => .skip calls_scan fun r => .skip (calls_onIp _) fun _ => ?_
    exact .ite (.pure (sub_zero _)) (.pure (sub_zero _))
  · exact .bind calls_iput fun _ => .pure (by grind)

---- Paths

/- The rounds suffice, since every round shortens the path. -/
theorem calls_walk (h : path.length < fuel) :
    Calls (walk sb parent fuel ip path) fun r => found r - ref ip := by
  induction fuel generalizing ip path with
  | zero => exact absurd h (Nat.not_lt_zero _)
  | succ fuel ih =>
    unfold walk
    split
    · exact .ite (.bind calls_iput fun _ => .pure (by grind)) (.pure (by grind))
    rename_i name rest hElem
    have hShorter := (skipelem_elements hElem).2.1
    refine .bind calls_ilock fun _ => .get fun s => .ite ?_ (.ite ?_ ?_)
    · exact .bind calls_iunlockput fun _ => .pure (by grind)
    · exact .bind calls_iunlock fun _ => .pure (by grind)
    · refine .bind (calls_dirlookup name) ?_
      rintro (_ | ⟨next, off⟩)
      · exact .bind calls_iunlockput fun _ => .pure (by grind)
      · exact .bind calls_iunlockput fun _ => .of_eq (ih (by omega)) (by grind)

theorem calls_namex : Calls (namex sb cwd path parent) found := by
  have hWalk : ∀ ip, Calls (walk sb parent (path.length + 1) ip path) fun r => found r - ref ip :=
    fun _ => calls_walk (Nat.lt_succ_self _)
  exact .ite (.bind (calls_iget _) hWalk) (.bind calls_idup hWalk)

theorem calls_namei : Calls (namei sb cwd path) fun r => r.elim 0 ref := by
  refine .bind calls_namex ?_
  rintro (_ | r)
  · exact .pure (sub_self _)
  · exact .pure (sub_self _)

end Xv6.Fs

import Xv6.Kernel.Shape

/-
  What holds of the kernel between system calls.

  Every page in use belongs to one process, to one pipe or
  to the pages set aside. Each slot of the process table is
  blank or has an address space of the right shape, and the
  file table counts the descriptors that refer to it.

  The invariant takes the pages `B` that are set aside, and
  the reference counts `r` the file table should have: while
  a call runs, it holds pages and references of its own.

  Main declarations:
    * `Inv`
    * `Inv.updateSlot`
    * `Inv.updateTable`
-/

namespace Xv6.Kernel

open Function (update update_self update_of_ne update_eq_self)

open Vm

---- Pages Of Processes

/- The pages of one slot of the process table. -/
def procPages (m : Memory) (p : Proc) : Multiset Nat :=
  if p.state = .unused then
    0
  else
    p.trapframe ::ₘ (tree m p.pagetable + frames (leaf m p.pagetable) 0 (pageCount p.sz))

/- The pages of some slots. -/
def slotPages (m : Memory) (proc : Nat → Proc) (S : Finset Nat) : Multiset Nat :=
  ∑ i ∈ S, procPages m (proc i)

/- The pages of all slots, and of all slots but one. -/
def procsPages (m : Memory) (proc : Nat → Proc) : Multiset Nat :=
  slotPages m proc (Finset.range NPROC)

def othersPages (m : Memory) (proc : Nat → Proc) (i : Nat) : Multiset Nat :=
  slotPages m proc ((Finset.range NPROC).erase i)

/- A slot that is not in use. -/
structure Blank (p : Proc) : Prop where
  trapframe : p.trapframe = 0
  pagetable : p.pagetable = 0
  sz : p.sz = 0

/- The address space of a process. -/
structure Space (L : Layout) (m : Memory) (p : Proc) : Prop where
  plain : Plain Interior m p.pagetable
  shape : Shape L p.trapframe p.guard p.sz (leaf m p.pagetable)

/- A slot is blank or has an address space. -/
structure Slot (L : Layout) (m : Memory) (p : Proc) : Prop where
  blank : p.state = .unused → Blank p
  space : p.state ≠ .unused → Space L m p

/- Descriptors refer to files, and the dead have none. -/
structure Descriptors (p : Proc) : Prop where
  file : ∀ fd < NOFILE, ∀ f, p.ofile fd = some f → f < NFILE
  closed : p.state = .unused ∨ p.state = .zombie → ∀ fd < NOFILE, p.ofile fd = none

section

variable {L : Layout} {m m' : Memory} {proc : Nat → Proc} {p q : Proc} {i : Nat}

theorem procPages_unused (h : p.state = .unused) : procPages m p = 0 := if_pos h

theorem procPages_live (h : p.state ≠ .unused) :
    procPages m p =
      p.trapframe ::ₘ (tree m p.pagetable + frames (leaf m p.pagetable) 0 (pageCount p.sz)) :=
  if_neg h

theorem procsPages_split (m : Memory) (proc : Nat → Proc) (hi : i < NPROC) :
    procsPages m proc = procPages m (proc i) + othersPages m proc i :=
  (Finset.add_sum_erase _ _ (Finset.mem_range.mpr hi)).symm

theorem slotPages_congr {proc' : Nat → Proc} {S : Finset Nat}
    (h : ∀ j ∈ S, procPages m (proc j) = procPages m' (proc' j)) :
    slotPages m proc S = slotPages m' proc' S := Finset.sum_congr rfl h

theorem othersPages_update (m : Memory) (proc : Nat → Proc) (p : Proc) :
    othersPages m (update proc i p) i = othersPages m proc i := by
  refine slotPages_congr ?_
  intro j hj
  rw [update_of_ne (Finset.ne_of_mem_erase hj)]

theorem mem_slotPages {S : Finset Nat} {j a : Nat} (hj : j ∈ S) (ha : a ∈ procPages m (proc j)) :
    a ∈ slotPages m proc S := Multiset.mem_sum.mpr ⟨j, hj, ha⟩

/- A slot survives what keeps its pages. -/
theorem Slot.keeps (h : Slot L m p) (hPages : ∀ a ∈ procPages m p, IsPage a)
    (hKeeps : Keeps (procPages m p) m m') : Slot L m' p ∧ procPages m' p = procPages m p := by
  by_cases hState : p.state = .unused
  · refine ⟨⟨h.blank, fun hNot => absurd hState hNot⟩, ?_⟩
    rw [procPages_unused hState, procPages_unused hState]
  have hTree : ∀ a ∈ tree m p.pagetable, a ∈ procPages m p := by
    intro a ha
    rw [procPages_live hState]
    simp [ha]
  have hSame : SameEntries m m' p.pagetable :=
    hKeeps.sameEntries (fun a ha => (hPages a (hTree a ha)).aligned) hTree
  have hSpace := h.space hState
  refine ⟨⟨h.blank, fun _ => ⟨hSame.plain hSpace.plain, ?_⟩⟩, ?_⟩
  · rw [hSame.leaf]
    exact hSpace.shape
  · rw [procPages_live hState, procPages_live hState, hSame.tree, hSame.leaf]

theorem slots_keep {S : Finset Nat} (m' : Memory) (hSlots : ∀ j ∈ S, Slot L m (proc j))
    (hPages : ∀ a ∈ slotPages m proc S, IsPage a) (hKeeps : Keeps (slotPages m proc S) m m') :
    (∀ j ∈ S, Slot L m' (proc j)) ∧ slotPages m' proc S = slotPages m proc S := by
  have hEach : ∀ j ∈ S, Slot L m' (proc j) ∧ procPages m' (proc j) = procPages m (proc j) := by
    intro j hj
    refine (hSlots j hj).keeps ?_ (hKeeps.mono ?_)
    · exact fun a ha => hPages a (mem_slotPages hj ha)
    · exact fun a ha => mem_slotPages hj ha
  exact ⟨fun j hj => (hEach j hj).1, slotPages_congr fun j hj => (hEach j hj).2⟩

end

---- Files And Pipes

/- The descriptors that refer to a file. -/
def refs (proc : Nat → Proc) (f : Nat) : Nat :=
  ∑ i ∈ Finset.range NPROC, ∑ fd ∈ Finset.range NOFILE,
      if (proc i).ofile fd = some f then 1 else 0

/- The open files at one end of a pipe. -/
def pipeEnd (file : Nat → File) (pi : Nat) (writable : Bool) : Finset Nat :=
  (Finset.range NFILE).filter fun f =>
    (file f).type = .pipe ∧ (file f).pipe = pi ∧ (file f).writable = writable

/- The pages of the open pipes. -/
def pipePages (file : Nat → File) : Finset Nat :=
  ((Finset.range NFILE).filter fun f =>
    (file f).type = .pipe).image fun f => (file f).pipe

/- The flag of one end of a pipe. -/
def flagOffset (writable : Bool) : Nat := if writable = true then WRITEOPEN else READOPEN

def pipeFlag (m : Memory) (pi : Nat) (writable : Bool) : Nat := m.load (pi + flagOffset writable) 4

/- Each end of a pipe is open in one file at most. -/
structure Pipes (file : Nat → File) (m : Memory) : Prop where
  closed : ∀ f < NFILE, (file f).ref = 0 → (file f).type = .none
  flag : ∀ pi ∈ pipePages file, ∀ w, pipeFlag m pi w = (pipeEnd file pi w).card
  one : ∀ pi w, (pipeEnd file pi w).card ≤ 1

theorem Pipes.keeps {file : Nat → File} {m m' : Memory} (h : Pipes file m)
    (hPages : ∀ a ∈ pipePages file, IsPage a) (hKeeps : Keeps (pipePages file).val m m') :
    Pipes file m' := by
  refine ⟨h.closed, ?_, h.one⟩
  intro pi hpi w
  rw [← h.flag pi hpi w]
  refine hKeeps.load (hPages pi hpi).aligned hpi ?_
  cases w with
  | false => decide
  | true => decide

---- The Invariant

structure Inv (L : Layout) (B : Multiset Nat) (r : Nat → Nat) (s : State) : Prop where
  books : Books L s.kmem (procsPages s.kmem.mem s.proc + ((pipePages s.file).val + B))
  slots : ∀ i < NPROC, Slot L s.kmem.mem (s.proc i)
  descriptors : ∀ i < NPROC, Descriptors (s.proc i)
  counts : ∀ f < NFILE, (s.file f).ref = r f
  pipes : Pipes s.file s.kmem.mem

/- The pages in use, with those set aside. -/
def inUse (B : Multiset Nat) (s : State) : Multiset Nat :=
  procsPages s.kmem.mem s.proc + ((pipePages s.file).val + B)

/- The pages in use beside those of process `i`. -/
def rest (s : State) (i : Nat) : Multiset Nat :=
  othersPages s.kmem.mem s.proc i + (pipePages s.file).val

section

variable {L : Layout} {B B' : Multiset Nat} {r : Nat → Nat} {s : State} {i : Nat} {kmem : Kmem}

theorem inUse_split (B : Multiset Nat) (s : State) (hi : i < NPROC) :
    inUse B s = procPages s.kmem.mem (s.proc i) + (rest s i + B) := by
  unfold inUse rest
  rw [procsPages_split _ _ hi]
  abel

/- The books with the pages of one process in front. -/
theorem Inv.split (h : Inv L B r s) (hi : i < NPROC) :
    Books L s.kmem (procPages s.kmem.mem (s.proc i) + (rest s i + B)) := by
  exact h.books.own_eq (inUse_split B s hi)

theorem Inv.procsPages_keeps {m : Memory} (h : Inv L B r s)
    (hKeeps : Keeps (inUse B s) s.kmem.mem m) :
    procsPages m s.proc = procsPages s.kmem.mem s.proc := by
  refine (slots_keep m (S := Finset.range NPROC) (fun j hj => h.slots j (Finset.mem_range.mp hj))
    ?_ (hKeeps.mono fun a ha =>
      Multiset.mem_add.mpr (.inl ha))).2
  intro a ha
  exact (h.books.isRam (Multiset.mem_add.mpr (.inl ha))).isPage

theorem Inv.inUse_keeps (h : Inv L B r s) (C : Multiset Nat)
    (hKeeps : Keeps (inUse B s) s.kmem.mem kmem.mem) :
    inUse C { s with kmem := kmem } = inUse C s := by
  unfold inUse
  dsimp only
  rw [h.procsPages_keeps hKeeps]

/- An unused slot has no pages. -/
theorem inUse_unused (B : Multiset Nat) (hi : i < NPROC) (hUnused : (s.proc i).state = .unused) :
    inUse B s = rest s i + B := by
  rw [inUse_split B s hi, procPages_unused hUnused, zero_add]

section

variable (h : Inv L B r s)
include h

theorem Inv.rest_isPage {a : Nat} (hi : i < NPROC) (ha : a ∈ rest s i) :
    IsPage a := ((h.split hi).isRam (by simp [ha])).isPage

/- The address space of process `i`, and the other pages. -/
theorem Inv.table (hi : i < NPROC) (hLive : (s.proc i).state ≠ .unused) :
    Table L s.kmem (s.proc i).pagetable (leaf s.kmem.mem (s.proc i).pagetable)
      (frames (leaf s.kmem.mem (s.proc i).pagetable) 0 (pageCount (s.proc i).sz) +
        ((s.proc i).trapframe ::ₘ (rest s i + B))) := by
  refine ⟨?_, ((h.slots i hi).space hLive).plain, rfl⟩
  refine (h.split hi).own_eq ?_
  rw [procPages_live hLive, ← Multiset.singleton_add, ← Multiset.singleton_add]
  abel

theorem Inv.shape (hi : i < NPROC) (hLive : (s.proc i).state ≠ .unused) :
    Shape L (s.proc i).trapframe (s.proc i).guard (s.proc i).sz
      (leaf s.kmem.mem (s.proc i).pagetable) := ((h.slots i hi).space hLive).shape

/- A change of one slot and its pages. The pages set aside may change with it. -/
theorem Inv.updateSlot {p : Proc} (hi : i < NPROC)
    (hBooks : Books L kmem (procPages kmem.mem p + (rest s i + B')))
    (hKeeps : Keeps (rest s i) s.kmem.mem kmem.mem) (hSlot : Slot L kmem.mem p)
    (hDescriptors : Descriptors p) :
    Inv L B' r { s with
      kmem := kmem
      proc := update s.proc i p } := by
  have hOthers :=
    slots_keep kmem.mem (S := (Finset.range NPROC).erase i)
      (fun j hj => h.slots j (Finset.mem_range.mp (Finset.mem_of_mem_erase hj)))
      (fun a ha => h.rest_isPage hi (Multiset.mem_add.mpr (.inl ha)))
      (hKeeps.mono fun a ha =>
        Multiset.mem_add.mpr (.inl ha))
  have hSame : othersPages kmem.mem s.proc i = othersPages s.kmem.mem s.proc i := hOthers.2
  refine ⟨?_, ?_, ?_, h.counts, ?_⟩
  · refine hBooks.own_eq ?_
    dsimp only
    rw [procsPages_split _ _ hi, update_self, othersPages_update, hSame]
    unfold rest
    abel
  · intro j hj
    dsimp only
    by_cases hEq : j = i
    · rw [hEq, update_self]
      exact hSlot
    · rw [update_of_ne hEq]
      exact hOthers.1 j (Finset.mem_erase.mpr ⟨hEq, Finset.mem_range.mpr hj⟩)
  · intro j hj
    dsimp only
    by_cases hEq : j = i
    · rw [hEq, update_self]
      exact hDescriptors
    · rw [update_of_ne hEq]
      exact h.descriptors j hj
  · refine h.pipes.keeps ?_ (hKeeps.mono ?_)
    · intro a ha
      exact h.rest_isPage hi (Multiset.mem_add.mpr (.inr ha))
    · exact fun a ha => Multiset.mem_add.mpr (.inr ha)

theorem Inv.updateFiles {file : Nat → File} {r' : Nat → Nat}
    (hBooks : Books L kmem (procsPages s.kmem.mem s.proc + ((pipePages file).val + B')))
    (hKeeps : Keeps (procsPages s.kmem.mem s.proc) s.kmem.mem kmem.mem)
    (hCounts : ∀ f < NFILE, (file f).ref = r' f) (hPipes : Pipes file kmem.mem) :
    Inv L B' r' { s with kmem := kmem, file := file } := by
  have hSlots :=
    slots_keep kmem.mem (S := Finset.range NPROC)
      (fun j hj => h.slots j (Finset.mem_range.mp hj))
      (fun a ha => (h.books.isRam (Multiset.mem_add.mpr (.inl ha))).isPage) hKeeps
  have hSame : procsPages kmem.mem s.proc = procsPages s.kmem.mem s.proc := hSlots.2
  refine ⟨?_, ?_, h.descriptors, hCounts, hPipes⟩
  · rw [hSame]
    exact hBooks
  · exact fun j hj => hSlots.1 j (Finset.mem_range.mpr hj)

/- A change of the pages set aside. -/
theorem Inv.aside
    (hBooks : Books L kmem (procsPages s.kmem.mem s.proc + ((pipePages s.file).val + B')))
    (hKeeps : Keeps (procsPages s.kmem.mem s.proc + (pipePages s.file).val) s.kmem.mem kmem.mem) :
    Inv L B' r { s with kmem := kmem } := by
  refine h.updateFiles hBooks (hKeeps.mono ?_) h.counts (h.pipes.keeps ?_ (hKeeps.mono ?_))
  · exact fun a ha => Multiset.mem_add.mpr (.inl ha)
  · intro a ha
    exact (h.books.isRam (by simp [ha])).isPage
  · exact fun a ha => Multiset.mem_add.mpr (.inr ha)

theorem Inv.alloc {E : Panic → Prop} {Q : Nat → State → Prop} (hNone : Q 0 s)
    (hSome : ∀ p kmem, IsPage p → Inv L (p ::ₘ B) r { s with kmem := kmem } →
      Q p { s with kmem := kmem }) : Prog.wp (vm kalloc) Q E s := by
  rw [wp_vm]
  refine kalloc_books h.books hNone ?_
  intro p kmem hBooks hKeeps
  refine hSome p kmem (hBooks.isRam (by simp)).isPage (h.aside (hBooks.own_eq ?_) (hKeeps.mono ?_))
  · rw [Multiset.add_cons, Multiset.add_cons]
  · intro a ha
    rcases Multiset.mem_add.mp ha with hIn | hIn
    · simp [hIn]
    · simp [hIn]

end

/- A write to a page set aside. -/
theorem Inv.writeAside {m : Memory} {p : Nat} (h : Inv L (p ::ₘ B) r s)
    (hFrame : Frame {p} s.kmem.mem m) :
    Inv L (p ::ₘ B) r { s with kmem := { s.kmem with mem := m } } := by
  refine h.aside (h.books.write (by simp) hFrame) (hFrame.keeps ?_)
  intro q hq hEq
  rw [Multiset.mem_singleton.mp hEq] at hq
  have hNodup := h.books.nodup
  rw [← add_assoc] at hNodup
  have hDisjoint := (Multiset.nodup_add.mp hNodup).2.2
  exact Multiset.disjoint_left.mp hDisjoint hq (by simp)

section

variable (h : Inv L B r s) (hi : i < NPROC)
include h hi

/- A change of a process with an address space. -/
theorem Inv.updateTable {p : Proc} {f : Nat → Option Nat} (hTable :
      Table L kmem p.pagetable f (frames f 0 (pageCount p.sz) + (p.trapframe ::ₘ (rest s i + B'))))
    (hShape : Shape L p.trapframe p.guard p.sz f) (hKeeps : Keeps (rest s i) s.kmem.mem kmem.mem)
    (hLive : p.state ≠ .unused) (hDescriptors : Descriptors p) :
    Inv L B' r { s with
        kmem := kmem
        proc := update s.proc i p } := by
  refine h.updateSlot hi ?_ hKeeps ?_ hDescriptors
  · refine hTable.books.own_eq ?_
    rw [procPages_live hLive, hTable.map, ← Multiset.singleton_add, ← Multiset.singleton_add]
    abel
  · refine ⟨fun hNot => absurd hNot hLive, fun _ =>
      ⟨hTable.plain, ?_⟩⟩
    rw [hTable.map]
    exact hShape

/- A change of the memory of a process. -/
theorem Inv.memory {f : Nat → Option Nat} (hLive : (s.proc i).state ≠ .unused)
    (hTable : Table L kmem (s.proc i).pagetable f
      (frames f 0 (pageCount (s.proc i).sz) + ((s.proc i).trapframe ::ₘ (rest s i + B'))))
    (hShape : Shape L (s.proc i).trapframe (s.proc i).guard (s.proc i).sz f)
    (hKeeps : Keeps (rest s i) s.kmem.mem kmem.mem) : Inv L B' r { s with kmem := kmem } := by
  have hUpdate := h.updateTable hi hTable hShape hKeeps hLive (h.descriptors i hi)
  rw [update_eq_self] at hUpdate
  exact hUpdate

theorem Inv.writeTrapframe {m : Memory} (hLive : (s.proc i).state ≠ .unused)
    (hFrame : Frame {(s.proc i).trapframe} s.kmem.mem m) :
    Inv L B r { s with kmem := { s.kmem with mem := m } } := by
  have hTable := h.table hi hLive
  have hOut := (Multiset.nodup_add.mp hTable.rest_nodup).2.1
  refine h.memory hi hLive (hTable.write (by simp) hFrame) (h.shape hi hLive) ?_
  exact (hFrame.keeps_rest hOut).mono (by simp +contextual)

end

---- Changes Without Pages

/- A change that leaves the address space of a slot. -/
structure SameSpace (p q : Proc) : Prop where
  unused : q.state = .unused ↔ p.state = .unused
  trapframe : q.trapframe = p.trapframe
  pagetable : q.pagetable = p.pagetable
  sz : q.sz = p.sz
  guard : q.guard = p.guard

theorem SameSpace.refl (p : Proc) : SameSpace p p := ⟨Iff.rfl, rfl, rfl, rfl, rfl⟩

theorem SameSpace.procPages {m : Memory} {p q : Proc} (h : SameSpace p q) :
    procPages m q = procPages m p := by
  unfold Kernel.procPages
  rw [h.trapframe, h.pagetable, h.sz]
  simp only [h.unused]

theorem SameSpace.slot {m : Memory} {p q : Proc} (h : SameSpace p q) (hSlot : Slot L m p) :
    Slot L m q := by
  refine ⟨?_, ?_⟩
  · intro hState
    have hBlank := hSlot.blank (h.unused.mp hState)
    exact ⟨h.trapframe.trans hBlank.trapframe, h.pagetable.trans hBlank.pagetable,
      h.sz.trans hBlank.sz⟩
  · intro hState
    have hSpace := hSlot.space (fun hNot => hState (h.unused.mpr hNot))
    refine ⟨?_, ?_⟩
    · rw [h.pagetable]
      exact hSpace.plain
    · rw [h.trapframe, h.pagetable, h.sz, h.guard]
      exact hSpace.shape

variable (h : Inv L B r s)
include h

/- Changes of the process table that leave every space. -/
theorem Inv.relabel {proc : Nat → Proc} (hSame : ∀ j < NPROC, SameSpace (s.proc j) (proc j))
    (hDescriptors : ∀ j < NPROC, Descriptors (proc j)) : Inv L B r { s with proc := proc } := by
  have hPages : procsPages s.kmem.mem s.proc = procsPages s.kmem.mem proc := by
    refine slotPages_congr ?_
    intro j hj
    exact (hSame j (Finset.mem_range.mp hj)).procPages.symm
  refine ⟨?_, ?_, hDescriptors, h.counts, h.pipes⟩
  · rw [← hPages]
    exact h.books
  · intro j hj
    exact (hSame j hj).slot (h.slots j hj)

theorem Inv.touch {p : Proc} (hSame : SameSpace (s.proc i) p) (hDescriptors : Descriptors p) :
    Inv L B r { s with proc := update s.proc i p } := by
  refine h.relabel ?_ ?_
  · intro j hj
    by_cases hEq : j = i
    · rw [hEq, update_self]
      exact hSame
    · rw [update_of_ne hEq]
      exact SameSpace.refl _
  · intro j hj
    by_cases hEq : j = i
    · rw [hEq, update_self]
      exact hDescriptors
    · rw [update_of_ne hEq]
      exact h.descriptors j hj

theorem Inv.cast {s' : State} (hKmem : s'.kmem = s.kmem) (hProc : s'.proc = s.proc)
    (hFile : s'.file = s.file) : Inv L B r s' := by
  refine ⟨?_, ?_, ?_, ?_, ?_⟩
  · rw [hKmem, hProc, hFile]
    exact h.books
  · rw [hKmem, hProc]
    exact h.slots
  · rw [hProc]
    exact h.descriptors
  · rw [hFile]
    exact h.counts
  · rw [hKmem, hFile]
    exact h.pipes

theorem Inv.counts_eq {r' : Nat → Nat} (hEq : ∀ f < NFILE, r f = r' f) : Inv L B r' s :=
  ⟨h.books, h.slots, h.descriptors, fun f hf => (h.counts f hf).trans (hEq f hf), h.pipes⟩

end

end Xv6.Kernel

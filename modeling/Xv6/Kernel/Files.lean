import Xv6.Kernel.Invariant

/-
  The file table and the pages of pipes: what `filealloc`,
  `filedup`, `fileclose` and `pipealloc` do to the
  invariant.

  Main declarations:
    * `filedup_spec`
    * `fileclose_spec`
    * `pipealloc_spec`
-/

namespace Xv6.Kernel

open Function (update update_self update_of_ne update_idem)

open Prog

open Vm

---- Counting Descriptors

section

variable {proc proc' : Nat → Proc} {i fd f : Nat}

theorem refs_congr (h : ∀ j < NPROC, ∀ fd < NOFILE, (proc' j).ofile fd = (proc j).ofile fd)
    (f : Nat) : refs proc' f = refs proc f := by
  refine Finset.sum_congr rfl ?_
  intro j hj
  refine Finset.sum_congr rfl ?_
  intro fd hfd
  rw [h j (Finset.mem_range.mp hj) fd (Finset.mem_range.mp hfd)]

theorem sum_update {α : Type} {S : Finset Nat} {g : Nat → α} {k : Nat} (w : α → Nat) (hk : k ∈ S)
    (v : α) : (∑ x ∈ S, w (update g k v x)) + w (g k) = (∑ x ∈ S, w (g x)) + w v := by
  have hNew := Finset.add_sum_erase S (fun x => w (update g k v x)) hk
  have hOld := Finset.add_sum_erase S (fun x => w (g x)) hk
  have hSame : ∑ x ∈ S.erase k, w (update g k v x) = ∑ x ∈ S.erase k, w (g x) := by
    refine Finset.sum_congr rfl ?_
    intro x hx
    rw [update_of_ne (Finset.ne_of_mem_erase hx)]
  simp only [update_self] at hNew
  omega

/- The descriptors of one process that refer to a file. -/
def procRefs (f : Nat) (p : Proc) : Nat :=
  ∑ fd ∈ Finset.range NOFILE,
    if p.ofile fd = some f then 1 else 0

theorem refs_setOfile {p : Proc} {v : Option Nat} (hi : i < NPROC) (hfd : fd < NOFILE)
    (hp : p.ofile = update (proc i).ofile fd v) (f : Nat) :
    refs (update proc i p) f + (if (proc i).ofile fd = some f then 1 else 0) =
      refs proc f + (if v = some f then 1 else 0) := by
  have hProc := sum_update (g := proc) (procRefs f) (Finset.mem_range.mpr hi) p
  have hFile :=
    sum_update (g := (proc i).ofile) (fun x => if x = some f then 1 else 0)
      (Finset.mem_range.mpr hfd) v
  unfold refs
  unfold procRefs at hProc
  rw [hp] at hProc
  omega

theorem refs_pos (hi : i < NPROC) (hfd : fd < NOFILE) (hf : (proc i).ofile fd = some f) :
    0 < refs proc f := by
  have hSet :=
    refs_setOfile (v := none) (p := { proc i with ofile := update (proc i).ofile fd none })
      hi hfd rfl f
  rw [if_pos hf] at hSet
  simp only [reduceCtorEq, if_false] at hSet
  omega

end

---- Changes Of The File Table

section

variable {L : Layout} {B : Multiset Nat} {r : Nat → Nat} {s : State} {f : Nat} {E : Panic → Prop}
variable {file : Nat → File} {pi : Nat}

theorem mem_pipeEnd {g : Nat} {w : Bool} :
    g ∈ pipeEnd file pi w ↔
      g < NFILE ∧ (file g).type = .pipe ∧ (file g).pipe = pi ∧ (file g).writable = w := by
  simp [pipeEnd]

theorem mem_pipePages {pi : Nat} :
    pi ∈ pipePages file ↔ ∃ g < NFILE, (file g).type = .pipe ∧ (file g).pipe = pi := by
  simp [pipePages, and_assoc]

/- A page is a pipe's as long as one end is open. -/
theorem mem_pipePages_iff_end {pi : Nat} : pi ∈ pipePages file ↔ ∃ w, pipeEnd file pi w ≠ ∅ := by
  rw [mem_pipePages]
  constructor
  · rintro ⟨g, hg, hType, hPipe⟩
    refine ⟨(file g).writable, ?_⟩
    exact Finset.ne_empty_of_mem (mem_pipeEnd.mpr ⟨hg, hType, hPipe, rfl⟩)
  · rintro ⟨w, hEnd⟩
    rcases Finset.nonempty_iff_ne_empty.mpr hEnd with ⟨g, hg⟩
    rcases mem_pipeEnd.mp hg with ⟨hLt, hType, hPipe, _⟩
    exact ⟨g, hLt, hType, hPipe⟩

theorem pipes_of_same (file : Nat → File) {file' : Nat → File}
    (hSame : ∀ g < NFILE, (file' g).type = (file g).type ∧
      (file' g).pipe = (file g).pipe ∧ (file' g).writable = (file g).writable) :
    (∀ pi w, pipeEnd file' pi w = pipeEnd file pi w) ∧ pipePages file' = pipePages file := by
  have hEnd : ∀ pi w, pipeEnd file' pi w = pipeEnd file pi w := by
    intro pi w
    ext g
    simp only [mem_pipeEnd]
    refine and_congr_right ?_
    intro hg
    rcases hSame g hg with ⟨hType, hPipe, hWritable⟩
    rw [hType, hPipe, hWritable]
  refine ⟨hEnd, ?_⟩
  ext pi
  rw [mem_pipePages_iff_end, mem_pipePages_iff_end]
  simp only [hEnd]

theorem Inv.setRef {n : Nat} (h : Inv L B r s) (hOpen : n = 0 → (s.file f).type = .none) :
    Inv L B (update r f n) { s with
      file := update s.file f { s.file f with ref := n } } := by
  have hFields : ∀ g, (update s.file f
        { s.file f with ref := n } g).type = (s.file g).type ∧
      (update s.file f
        { s.file f with ref := n } g).pipe = (s.file g).pipe ∧ (update s.file f
          { s.file f with ref := n } g).writable = (s.file g).writable := by
    intro g
    by_cases hEq : g = f
    · rw [hEq, update_self]
      exact ⟨rfl, rfl, rfl⟩
    · rw [update_of_ne hEq]
      exact ⟨rfl, rfl, rfl⟩
  have hPipes := pipes_of_same s.file (fun g _ => hFields g)
  refine ⟨?_, h.slots, h.descriptors, ?_, ?_⟩
  · rw [hPipes.2]
    exact h.books
  · intro g hg
    dsimp only
    by_cases hEq : g = f
    · rw [hEq, update_self, update_self]
    · rw [update_of_ne hEq, update_of_ne hEq]
      exact h.counts g hg
  refine ⟨?_, ?_, ?_⟩
  · intro g hg hZero
    dsimp only at hZero ⊢
    rw [(hFields g).1]
    by_cases hEq : g = f
    · rw [hEq, update_self] at hZero
      rw [hEq]
      exact hOpen hZero
    · rw [update_of_ne hEq] at hZero
      exact h.pipes.closed g hg hZero
  · intro pi hpi w
    dsimp only at hpi ⊢
    rw [hPipes.2] at hpi
    rw [hPipes.1]
    exact h.pipes.flag pi hpi w
  · intro pi w
    dsimp only
    rw [hPipes.1]
    exact h.pipes.one pi w

/- `filealloc` takes a file that nothing refers to. -/
theorem filealloc_spec {Q : Option Nat → State → Prop} (h : Inv L B r s) (hNone : Q none s)
    (hSome : ∀ f, f < NFILE → r f = 0 → (s.file f).type = .none → Inv L B (update r f 1)
      { s with
        file := update s.file f { s.file f with ref := 1 } } → Q (some f)
      { s with file := update s.file f { s.file f with ref := 1 } }) :
    wp filealloc Q E s := by
  unfold filealloc
  rw [wp_bind, wp_get]
  cases hFind : (List.range NFILE).find? (fun f => decide ((s.file f).ref = 0)) with
  | none =>
    rw [wp_pure]
    exact hNone
  | some f =>
    have hf : f < NFILE := List.mem_range.mp (List.mem_of_find?_eq_some hFind)
    have hRef : (s.file f).ref = 0 := by
      have hFound := List.find?_some hFind
      exact of_decide_eq_true hFound
    rw [wp_bind, wp_setFile, wp_pure]
    refine hSome f hf ?_ (h.pipes.closed f hf hRef) ?_
    · rw [← h.counts f hf, hRef]
    · exact h.setRef (by rintro ⟨⟩)

theorem filedup_spec {Q : Nat → State → Prop} (h : Inv L B r s) (hf : f < NFILE) (hRef : 0 < r f)
    (hPost : Inv L B (update r f (r f + 1)) { s with
        file := update s.file f { s.file f with ref := (s.file f).ref + 1 } } → Q f
      { s with
        file := update s.file f { s.file f with
          ref := (s.file f).ref + 1 } }) : wp (filedup f) Q E s := by
  have hCount := h.counts f hf
  have hNot : ¬ (s.file f).ref < 1 := by omega
  unfold filedup
  rw [wp_bind, wp_get, if_neg hNot, wp_bind, wp_setFile, wp_pure]
  refine hPost ?_
  rw [← hCount]
  exact h.setRef (by rintro ⟨⟩)

---- Closing A Pipe

theorem flagOffset_fits (w : Bool) : flagOffset w + 4 ≤ PGSIZE := by
  cases w with
  | false => decide
  | true => decide

theorem pipeFlag_store (m : Memory) (pi : Nat) (w : Bool) {v : Nat} (hv : v < 2 ^ 32) :
    pipeFlag (m.store (pi + flagOffset w) 4 v) pi w = v ∧
      pipeFlag (m.store (pi + flagOffset w) 4 v) pi (!w) = pipeFlag m pi (!w) := by
  refine ⟨?_, Memory.load_store_other _ _ ?_⟩
  · unfold pipeFlag
    rw [Memory.load_store_same]
    exact Nat.mod_eq_of_lt hv
  cases w with
  | false =>
    simp only [flagOffset, READOPEN, WRITEOPEN]
    simp
  | true =>
    simp only [flagOffset, READOPEN, WRITEOPEN]
    simp

/- `pipeclose` clears one flag, and gives the page back if the other one is clear. -/
theorem pipeclose_spec {s : Kmem} {R : Multiset Nat} {w : Bool} {Q : Unit → Kmem → Prop}
    (h : Books L s (pi ::ₘ R))
    (hFree : ∀ s', pipeFlag s.mem pi (!w) = 0 → Books L s' R → Keeps R s.mem s'.mem → Q () s')
    (hOpen : ∀ s', pipeFlag s.mem pi (!w) ≠ 0 → Books L s' (pi ::ₘ R) → Keeps R s.mem s'.mem →
      pipeFlag s'.mem pi w = 0 → pipeFlag s'.mem pi (!w) = pipeFlag s.mem pi (!w) → Q () s') :
    wp (pipeclose L.kend pi w) Q E s := by
  have hPage := (h.isRam (p := pi) (by simp)).isPage
  have hFrame := frame_store s.mem 0 hPage.aligned (flagOffset_fits w)
  have hFlags := pipeFlag_store s.mem pi w (v := 0) (by decide)
  have hBooks := h.write (by simp) hFrame
  have hKeeps := hFrame.keeps_rest h.nodup
  generalize hm : s.mem.store (pi + flagOffset w) 4 0 = m at *
  -- Both branches store to the flag of the closed end.
  have hRest : wp (do
      let readopen ← ldw (pi + READOPEN)
      let writeopen ← ldw (pi + WRITEOPEN)
      if readopen = 0 ∧ writeopen = 0 then
        kfree L.kend pi) Q E { s with mem := m } := by
    simp only [ldw, wp_bind, wp_get, wp_pure, wp_ite]
    have hBoth : (m.load (pi + READOPEN) 4 = 0 ∧ m.load (pi + WRITEOPEN) 4 = 0) ↔
        pipeFlag s.mem pi (!w) = 0 := by
      rw [← hFlags.2]
      cases w with
      | false =>
        have hZero : m.load (pi + READOPEN) 4 = 0 := hFlags.1
        exact ⟨fun hc => hc.2, fun hc => ⟨hZero, hc⟩⟩
      | true =>
        have hZero : m.load (pi + WRITEOPEN) 4 = 0 := hFlags.1
        exact ⟨fun hc => hc.1, fun hc => ⟨hc, hZero⟩⟩
    rw [hBoth]
    refine ⟨fun hZero => ?_, fun hSet => ?_⟩
    · refine kfree_books hBooks ?_
      intro s' h' hKeeps'
      exact hFree s' hZero h' (hKeeps.trans hKeeps')
    · exact hOpen _ hSet hBooks hKeeps hFlags.1 hFlags.2
  unfold pipeclose
  cases w with
  | false =>
    rw [if_neg (by decide), wp_bind, stw, wp_modify]
    have hStore : s.mem.store (pi + READOPEN) 4 0 = m := hm
    rw [hStore]
    exact hRest
  | true =>
    rw [if_pos rfl, wp_bind, stw, wp_modify]
    have hStore : s.mem.store (pi + WRITEOPEN) 4 0 = m := hm
    rw [hStore]
    exact hRest

---- Closing A File

/- The file table after the last close of a file. -/
def closeFile (file : Nat → File) (f : Nat) : Nat → File :=
  update file f { file f with ref := 0, type := .none }

theorem pipeEnd_closeFile (file : Nat → File) (f pi : Nat) (w : Bool) :
    pipeEnd (closeFile file f) pi w = (pipeEnd file pi w).erase f := by
  ext g
  rw [Finset.mem_erase, mem_pipeEnd, mem_pipeEnd]
  unfold closeFile
  by_cases hEq : g = f
  · rw [hEq, update_self]
    simp
  · rw [update_of_ne hEq]
    simp [hEq]

/- A file is at the end it was opened for, and no other. -/
theorem not_mem_pipeEnd {w : Bool} (hOther : pi ≠ (file f).pipe ∨ w ≠ (file f).writable) :
    f ∉ pipeEnd file pi w := by
  intro hIn
  rcases mem_pipeEnd.mp hIn with ⟨_, _, hPipe, hWritable⟩
  rcases hOther with hNe | hNe
  · exact hNe hPipe.symm
  · exact hNe hWritable.symm

/- The end a file was opened for has no other file. -/
theorem pipeEnd_eq_singleton (hf : f < NFILE) (hType : (file f).type = .pipe)
    (hOne : (pipeEnd file (file f).pipe (file f).writable).card ≤ 1) :
    pipeEnd file (file f).pipe (file f).writable = {f} := by
  have hIn : f ∈ pipeEnd file (file f).pipe (file f).writable :=
    mem_pipeEnd.mpr ⟨hf, hType, rfl, rfl⟩
  refine Finset.eq_singleton_iff_unique_mem.mpr ⟨hIn, ?_⟩
  intro g hg
  exact Finset.card_le_one.mp hOne g hg f hIn

/- The page of a pipe is given up with its last end. -/
theorem mem_pipePages_closeFile (hf : f < NFILE) (hType : (file f).type = .pipe)
    (hOne : ∀ pi w, (pipeEnd file pi w).card ≤ 1) (pi : Nat) :
    pi ∈ pipePages (closeFile file f) ↔
      if pi = (file f).pipe then
        pipeEnd file pi (!(file f).writable) ≠ ∅
      else
        pi ∈ pipePages file := by
  rw [mem_pipePages_iff_end]
  simp only [pipeEnd_closeFile]
  by_cases hEq : pi = (file f).pipe
  · rw [if_pos hEq, hEq]
    have hSelf := pipeEnd_eq_singleton hf hType (hOne _ _)
    have hOther : f ∉ pipeEnd file (file f).pipe (!(file f).writable) :=
      not_mem_pipeEnd (.inr (by simp))
    constructor
    · rintro ⟨w, hw⟩
      by_cases hSame : w = (file f).writable
      · rw [hSame, hSelf] at hw
        simp at hw
      · have hNot : w = !(file f).writable :=
          Bool.eq_not.mpr hSame
        rw [hNot, Finset.erase_eq_of_notMem hOther] at hw
        exact hw
    · intro hEnd
      refine ⟨!(file f).writable, ?_⟩
      rw [Finset.erase_eq_of_notMem hOther]
      exact hEnd
  · rw [if_neg hEq, mem_pipePages_iff_end]
    have hOut : ∀ w, f ∉ pipeEnd file pi w := fun w => not_mem_pipeEnd (.inl hEq)
    simp only [Finset.erase_eq_of_notMem (hOut _)]

section

variable (h : Inv L B r s)
include h

theorem Inv.counts_closeFile :
    ∀ g < NFILE, (closeFile s.file f g).ref = update r f 0 g := by
  intro g hg
  unfold closeFile
  by_cases hEq : g = f
  · rw [hEq, update_self, update_self]
  · rw [update_of_ne hEq, update_of_ne hEq]
    exact h.counts g hg

theorem Inv.closed_closeFile :
    ∀ g < NFILE, (closeFile s.file f g).ref = 0 → (closeFile s.file f g).type = .none := by
  intro g hg hRef
  unfold closeFile at hRef ⊢
  by_cases hEq : g = f
  · rw [hEq, update_self]
  · rw [update_of_ne hEq] at hRef ⊢
    exact h.pipes.closed g hg hRef

theorem Inv.one_closeFile (pi : Nat) (w : Bool) : (pipeEnd (closeFile s.file f) pi w).card ≤ 1 := by
  rw [pipeEnd_closeFile]
  exact Nat.le_trans (Finset.card_erase_le) (h.pipes.one pi w)

/- A file that is not a pipe has no part in the pages. -/
theorem Inv.closePlain (hType : (s.file f).type ≠ .pipe) :
    Inv L B (update r f 0) { s with file := closeFile s.file f } := by
  have hEnd : ∀ pi w, pipeEnd (closeFile s.file f) pi w = pipeEnd s.file pi w := by
    intro pi w
    rw [pipeEnd_closeFile]
    refine Finset.erase_eq_of_notMem ?_
    exact fun hIn => hType (mem_pipeEnd.mp hIn).2.1
  have hPages : pipePages (closeFile s.file f) = pipePages s.file := by
    ext pi
    rw [mem_pipePages_iff_end, mem_pipePages_iff_end]
    simp only [hEnd]
  refine h.updateFiles ?_ (Keeps.refl _ _)
    h.counts_closeFile ⟨h.closed_closeFile, ?_, h.one_closeFile⟩
  · rw [hPages]
    exact h.books
  · intro pi hpi w
    rw [hPages] at hpi
    rw [hEnd]
    exact h.pipes.flag pi hpi w

theorem Inv.flag_closeFile {m : Memory} {w : Bool} (hpi : pi ∈ pipePages s.file)
    (hOther : pi ≠ (s.file f).pipe)
    (hKeeps : Keeps ((pipePages s.file).erase (s.file f).pipe).val s.kmem.mem m) :
    pipeFlag m pi w = (pipeEnd (closeFile s.file f) pi w).card := by
  have hPage := (h.books.isRam (p := pi) (by simp [hpi])).aligned
  have hLoad : pipeFlag m pi w = pipeFlag s.kmem.mem pi w :=
    hKeeps.load hPage (Finset.mem_erase.mpr ⟨hOther, hpi⟩) (flagOffset_fits w)
  rw [hLoad, h.pipes.flag pi hpi w, pipeEnd_closeFile,
    Finset.erase_eq_of_notMem (not_mem_pipeEnd (.inl hOther))]

theorem pipecloseFile_spec {Q : Unit → State → Prop} (hf : f < NFILE)
    (hType : (s.file f).type = .pipe) (hPost : ∀ kmem, Inv L B (update r f 0) { s with
        kmem := kmem
        file := closeFile s.file f } → Q () { s with
        kmem := kmem
        file := closeFile s.file f }) :
    wp (vm (pipeclose L.kend (s.file f).pipe (s.file f).writable)) Q E
      { s with file := closeFile s.file f } := by
  have hIn : (s.file f).pipe ∈ pipePages s.file := mem_pipePages.mpr ⟨f, hf, hType, rfl⟩
  have hSelf := pipeEnd_eq_singleton hf hType (h.pipes.one _ _)
  have hMem := mem_pipePages_closeFile hf hType h.pipes.one
  have hOther := h.pipes.flag _ hIn (!(s.file f).writable)
  have hBooks : Books L s.kmem ((s.file f).pipe ::ₘ (procsPages s.kmem.mem s.proc +
      (((pipePages s.file).erase (s.file f).pipe).val + B))) := by
    refine h.books.own_eq ?_
    rw [← Multiset.cons_erase (s := (pipePages s.file).val)
      hIn, Finset.erase_val, ← Multiset.singleton_add, ← Multiset.singleton_add]
    abel
  rw [wp_vm]
  refine pipeclose_spec hBooks ?_ ?_
  · -- The other end is closed: the page goes back.
    intro kmem hZero h' hKeeps'
    rw [hOther, Finset.card_eq_zero] at hZero
    have hPages : pipePages (closeFile s.file f) = (pipePages s.file).erase (s.file f).pipe := by
      ext pi
      rw [hMem, Finset.mem_erase]
      by_cases hEq : pi = (s.file f).pipe
      · rw [if_pos hEq, hEq, hZero]
        simp
      · rw [if_neg hEq]
        simp [hEq]
    refine hPost kmem (h.updateFiles ?_ ?_
      h.counts_closeFile ⟨h.closed_closeFile, ?_, h.one_closeFile⟩)
    · rw [hPages]
      exact h'
    · exact hKeeps'.mono (by simp +contextual)
    · intro pi hpi w
      rw [hPages] at hpi
      rcases Finset.mem_erase.mp hpi with ⟨hNe, hOld⟩
      exact h.flag_closeFile hOld hNe (hKeeps'.mono (by simp +contextual))
  · -- The other end is open: only the flag changes.
    intro kmem hSet h' hKeeps' hClear hStill
    rw [hOther] at hSet hStill
    have hPages : pipePages (closeFile s.file f) = pipePages s.file := by
      ext pi
      rw [hMem]
      by_cases hEq : pi = (s.file f).pipe
      · rw [if_pos hEq, hEq]
        refine iff_of_true ?_ hIn
        intro hEmpty
        rw [hEmpty] at hSet
        exact hSet rfl
      · rw [if_neg hEq]
    refine hPost kmem (h.updateFiles ?_ ?_
      h.counts_closeFile ⟨h.closed_closeFile, ?_, h.one_closeFile⟩)
    · rw [hPages]
      refine h'.own_eq ?_
      rw [← Multiset.cons_erase
        (s := (pipePages s.file).val) hIn, Finset.erase_val, ← Multiset.singleton_add,
        ← Multiset.singleton_add]
      abel
    · exact hKeeps'.mono (by simp +contextual)
    · intro pi hpi w
      rw [hPages] at hpi
      by_cases hEq : pi = (s.file f).pipe
      · rw [hEq, pipeEnd_closeFile]
        by_cases hSide : w = (s.file f).writable
        · rw [hSide, hClear, hSelf]
          simp
        · have hNot : w = !(s.file f).writable :=
            Bool.eq_not.mpr hSide
          rw [hNot, hStill, Finset.erase_eq_of_notMem (not_mem_pipeEnd (.inr (by simp)))]
      · exact h.flag_closeFile hpi hEq (hKeeps'.mono (by simp +contextual))

/- `fileclose` gives up one reference. -/
theorem fileclose_spec {k : Nat} {Q : Unit → State → Prop} (hf : f < NFILE) (hRef : r f = k + 1)
    (hPost : ∀ kmem file, Inv L B (update r f k) { s with kmem := kmem, file := file } →
      Q () { s with kmem := kmem, file := file }) : wp (fileclose L.kend f) Q E s := by
  have hCount := h.counts f hf
  have hNot : ¬ (s.file f).ref < 1 := by omega
  have hPred : (s.file f).ref - 1 = k := by omega
  unfold fileclose
  rw [wp_bind, wp_get]
  dsimp only
  rw [if_neg hNot, hPred]
  by_cases hMore : k > 0
  · rw [if_pos hMore, wp_setFile]
    exact hPost s.kmem _ (h.setRef (fun hZero => absurd hMore (by omega)))
  have hLast : k = 0 := by omega
  rw [hLast] at hPost
  rw [if_neg hMore, wp_bind, wp_setFile]
  by_cases hType : (s.file f).type = .pipe
  · rw [if_pos hType]
    exact pipecloseFile_spec h hf hType (fun kmem => hPost kmem _)
  · rw [if_neg hType, wp_pure]
    exact hPost s.kmem _ (h.closePlain hType)

end

---- Opening A Pipe

/- The file table with the two ends of a new pipe. -/
def openPipe (file : Nat → File) (f0 f1 pi : Nat) : Nat → File :=
  fun g =>
    if g = f1 then
      { file f1 with
        type := .pipe
        readable := false
        writable := true
        pipe := pi }
    else if g = f0 then
      { file f0 with
        type := .pipe
        readable := true
        writable := false
        pipe := pi }
    else
      file g

theorem update_openPipe (file : Nat → File) {f0 f1 : Nat} (pi : Nat) (hNe : f0 ≠ f1) :
    update (update file f0 { file f0 with
        type := .pipe
        readable := true
        writable := false
        pipe := pi }) f1 { update file f0 { file f0 with
          type := .pipe
          readable := true
          writable := false
          pipe := pi } f1 with
      type := .pipe
      readable := false
      writable := true
      pipe := pi } = openPipe file f0 f1 pi := by
  funext g
  unfold openPipe
  by_cases hg1 : g = f1
  · rw [hg1, update_self, if_pos rfl, update_of_ne hNe.symm]
  · rw [update_of_ne hg1, if_neg hg1]
    by_cases hg0 : g = f0
    · rw [hg0, update_self, if_pos rfl]
    · rw [update_of_ne hg0, if_neg hg0]

theorem pipeEnd_openPipe {f0 f1 : Nat} (hf0 : f0 < NFILE) (hf1 : f1 < NFILE) (hNe : f0 ≠ f1)
    (hType0 : (file f0).type = .none) (hType1 : (file f1).type = .none) (hNew : pi ∉ pipePages file)
    (q : Nat) (w : Bool) :
    pipeEnd (openPipe file f0 f1 pi) q w =
      if q = pi then
        {if w = true then f1 else f0}
      else
        pipeEnd file q w := by
  have hOld : ∀ w, pipeEnd file pi w = ∅ := by
    intro w
    by_contra hEnd
    exact hNew (mem_pipePages_iff_end.mpr ⟨w, hEnd⟩)
  ext g
  rw [mem_pipeEnd]
  unfold openPipe
  by_cases hg1 : g = f1
  · have hOut : f1 ∉ pipeEnd file q w := by
      intro hIn
      rw [(mem_pipeEnd.mp hIn).2.1] at hType1
      cases hType1
    rw [if_pos hg1, hg1]
    by_cases hq : q = pi
    · cases w with
      | false => simp [hq, hNe.symm]
      | true => simp [hq, hf1]
    · rw [if_neg hq]
      simp [hOut, Ne.symm hq]
  · by_cases hg0 : g = f0
    · have hOut : f0 ∉ pipeEnd file q w := by
        intro hIn
        rw [(mem_pipeEnd.mp hIn).2.1] at hType0
        cases hType0
      rw [if_neg hg1, if_pos hg0, hg0]
      by_cases hq : q = pi
      · cases w with
        | false => simp [hq, hf0]
        | true => simp [hq, hNe]
      · rw [if_neg hq]
        simp [hOut, Ne.symm hq]
    · rw [if_neg hg1, if_neg hg0]
      by_cases hq : q = pi
      · have hOut := mem_pipeEnd.not.mp (Finset.eq_empty_iff_forall_notMem.mp (hOld w) g)
        rw [if_pos hq, hq]
        refine iff_of_false hOut ?_
        cases w with
        | false => simp [hg0]
        | true => simp [hg1]
      · rw [if_neg hq, mem_pipeEnd]

/- A page set aside becomes a pipe. -/
theorem Inv.openPipe {f0 f1 : Nat} (h : Inv L (pi ::ₘ B) r s) (hf0 : f0 < NFILE) (hf1 : f1 < NFILE)
    (hNe : f0 ≠ f1) (hType0 : (s.file f0).type = .none) (hType1 : (s.file f1).type = .none)
    (hRef0 : r f0 ≠ 0) (hRef1 : r f1 ≠ 0) (hFlag : ∀ w, pipeFlag s.kmem.mem pi w = 1) :
    Inv L B r { s with file := openPipe s.file f0 f1 pi } := by
  have hNew : pi ∉ pipePages s.file := by
    have hNodup := h.books.nodup
    have hPart := (Multiset.nodup_add.mp hNodup).2.1
    have hDisjoint := (Multiset.nodup_add.mp hPart).2.2
    exact fun hIn =>
      Multiset.disjoint_left.mp hDisjoint hIn (by simp)
  have hEnd := pipeEnd_openPipe hf0 hf1 hNe hType0 hType1 hNew
  have hPages : pipePages (Kernel.openPipe s.file f0 f1 pi) = insert pi (pipePages s.file) := by
    ext q
    rw [mem_pipePages_iff_end, Finset.mem_insert]
    simp only [hEnd]
    by_cases hq : q = pi
    · simp [hq]
    · simp only [hq, false_or]
      exact mem_pipePages_iff_end.symm
  have hFields : ∀ g, (Kernel.openPipe s.file f0 f1 pi g).ref = (s.file g).ref := by
    intro g
    unfold Kernel.openPipe
    by_cases hg1 : g = f1
    · rw [if_pos hg1, hg1]
    · rw [if_neg hg1]
      by_cases hg0 : g = f0
      · rw [if_pos hg0, hg0]
      · rw [if_neg hg0]
  refine h.updateFiles ?_ (Keeps.refl _ _) ?_ ⟨?_, ?_, ?_⟩
  · refine h.books.own_eq ?_
    rw [hPages, Finset.insert_val_of_notMem hNew, Multiset.cons_add, Multiset.add_cons]
  · intro g hg
    rw [hFields]
    exact h.counts g hg
  · intro g hg hZero
    rw [hFields] at hZero
    have hg1 : g ≠ f1 := by
      intro hEq
      rw [hEq, h.counts f1 hf1] at hZero
      exact hRef1 hZero
    have hg0 : g ≠ f0 := by
      intro hEq
      rw [hEq, h.counts f0 hf0] at hZero
      exact hRef0 hZero
    unfold Kernel.openPipe
    rw [if_neg hg1, if_neg hg0]
    exact h.pipes.closed g hg hZero
  · intro q hq w
    rw [hEnd]
    by_cases hEq : q = pi
    · rw [if_pos hEq, hEq, hFlag w]
      simp
    · rw [hPages] at hq
      have hOld := Finset.mem_of_mem_insert_of_ne hq hEq
      rw [if_neg hEq]
      exact h.pipes.flag q hOld w
  · intro q w
    rw [hEnd]
    by_cases hEq : q = pi
    · rw [if_pos hEq]
      simp
    · rw [if_neg hEq]
      exact h.pipes.one q w

theorem stwAside_spec {o v : Nat} {Q : Unit → State → Prop} (h : Inv L (pi ::ₘ B) r s)
    (ho : o + 4 ≤ PGSIZE)
    (hPost : Inv L (pi ::ₘ B) r { s with
      kmem := { s.kmem with mem := s.kmem.mem.store (pi + o) 4 v } } → Q () { s with
      kmem := { s.kmem with
        mem := s.kmem.mem.store (pi + o) 4 v } }) : wp (vm (stw (pi + o) v)) Q E s := by
  have hPage : pi % PGSIZE = 0 := (h.books.isRam (by simp)).aligned
  rw [wp_vm, stw, wp_modify]
  exact hPost (h.writeAside (frame_store _ v hPage ho))

theorem pipeFlag_new (m : Memory) (pi : Nat) (w : Bool) :
    pipeFlag ((((m.store (pi + READOPEN) 4 1).store
      (pi + WRITEOPEN) 4 1).store (pi + NWRITE) 4 0).store (pi + NREAD) 4 0) pi w = 1 := by
  unfold pipeFlag READOPEN WRITEOPEN NWRITE NREAD flagOffset
  cases w with
  | false =>
    rw [Memory.load_store_other _ _ (by simp [READOPEN]),
      Memory.load_store_other _ _ (by simp [READOPEN]),
      Memory.load_store_other _ _ (by simp [READOPEN])]
    exact Memory.load_store_same _ _ _ _
  | true =>
    rw [Memory.load_store_other _ _ (by simp [WRITEOPEN]),
      Memory.load_store_other _ _ (by simp [WRITEOPEN])]
    exact Memory.load_store_same _ _ _ _

/- `pipealloc` makes a pipe with one file at each end. -/
theorem pipealloc_spec {Q : Option (Nat × Nat) → State → Prop} (h : Inv L B r s)
    (hNone : ∀ kmem file, Inv L B r { s with kmem := kmem, file := file } →
      Q none { s with kmem := kmem, file := file })
    (hSome : ∀ f0 f1 kmem file, f0 < NFILE → f1 < NFILE → f0 ≠ f1 → r f0 = 0 → r f1 = 0 → Inv L B
        (update (update r f0 1) f1 1) { s with
          kmem := kmem
          file := file } → Q (some (f0, f1)) { s with
          kmem := kmem
          file := file }) : wp (pipealloc L.kend) Q E s := by
  unfold pipealloc
  rw [wp_bind]
  refine filealloc_spec h ?_ ?_
  · rw [wp_pure]
    exact hNone s.kmem s.file h
  intro f0 hf0 hRef0 hType0 h₁
  rw [wp_bind]
  -- Giving up the first file leads back to the counts.
  have hBack : ∀ g < NFILE, update (update r f0 1) f0 0 g = r g := by
    intro g _
    rw [update_idem]
    by_cases hEq : g = f0
    · rw [hEq, update_self, hRef0]
    · rw [update_of_ne hEq]
  refine filealloc_spec h₁ ?_ ?_
  · rw [wp_bind]
    refine fileclose_spec h₁ hf0 (k := 0) (update_self _ _ _) ?_
    intro kmem file h₂
    rw [wp_pure]
    exact hNone kmem file (h₂.counts_eq hBack)
  intro f1 hf1 hRef1 hType1 h₂
  have hNe : f0 ≠ f1 := by
    intro hEq
    rw [← hEq, update_self] at hRef1
    cases hRef1
  dsimp only at hType1
  rw [update_of_ne hNe.symm] at hRef1 hType1
  rw [wp_bind]
  refine h₂.alloc ?_ ?_
  · -- No page: both files are given up.
    rw [if_pos rfl, wp_bind]
    refine fileclose_spec h₂ hf0 (k := 0) ?_ ?_
    · rw [update_of_ne hNe, update_self]
    intro kmem file h₃
    rw [wp_bind]
    refine fileclose_spec h₃ hf1 (k := 0) ?_ ?_
    · rw [update_of_ne hNe.symm, update_self]
    intro kmem' file' h₄
    rw [wp_pure]
    refine hNone kmem' file' (h₄.counts_eq ?_)
    intro g hg
    by_cases hg1 : g = f1
    · rw [hg1, update_self, hRef1]
    · rw [update_of_ne hg1]
      by_cases hg0 : g = f0
      · rw [hg0, update_self, hRef0]
      · rw [update_of_ne hg0, update_of_ne hg1, update_of_ne hg0]
  intro pi kmem hPage h₃
  rw [if_neg hPage.ne_zero, wp_bind]
  refine stwAside_spec h₃ (by decide) ?_
  intro h₄
  rw [wp_bind]
  refine stwAside_spec h₄ (by decide) ?_
  intro h₅
  rw [wp_bind]
  refine stwAside_spec h₅ (by decide) ?_
  intro h₆
  rw [wp_bind]
  refine stwAside_spec h₆ (by decide) ?_
  intro h₇
  simp only [wp_bind, wp_setFile, wp_pure]
  rw [update_openPipe _ _ hNe]
  refine hSome f0 f1 _ _ hf0 hf1 hNe hRef0 hRef1
    (h₇.openPipe hf0 hf1 hNe ?_ ?_ ?_ ?_ (pipeFlag_new _ pi))
  · dsimp only
    rw [update_of_ne hNe, update_self]
    exact hType0
  · dsimp only
    rw [update_self, update_of_ne hNe.symm]
    exact hType1
  · rw [update_of_ne hNe, update_self]
    decide
  · rw [update_self]
    decide

end

end Xv6.Kernel

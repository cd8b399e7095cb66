import Xv6.Kernel.Fork
import Xv6.Kernel.Image

/-
  `exec` replaces the address space of a process by a new
  one, or leaves everything in use as it was.

  While the new address space is built it stands beside the
  old one (`Two`). Nothing can fail from the first store to
  the trapframe on.

  Main declarations:
    * `execCommit_spec`
    * `exec_spec`
    * `sysExec_spec`
-/

namespace Xv6.Kernel

open Prog

open Vm

/- The part of `exec` that nothing can stop. -/
def execCommit (L : Layout) (i : Nat) (p : Proc) (entry : Nat) (image : Image) : KernelM Int := do
  vm (st (p.trapframe + A1) image.sp)
  setProc i fun p =>
    { p with
      pagetable := image.pagetable
      sz := image.sz
      guard := some (image.sz / PGSIZE - (USERSTACK + 1)) }
  vm (st (p.trapframe + EPC) entry)
  vm (st (p.trapframe + SP) image.sp)
  vm (procFreepagetable L.kend p.pagetable p.sz)
  pure image.argc

/- The trapframe after it. -/
def execFrame (m : Memory) (tf sp entry : Nat) : Memory :=
  ((m.store (tf + A1) 8 sp).store (tf + EPC) 8 entry).store (tf + SP) 8 sp

/- The process in slot `i` after it. -/
def execProc (image : Image) (p : Proc) : Proc :=
  { p with
    pagetable := image.pagetable
    sz := image.sz
    guard := some (image.sz / PGSIZE - (USERSTACK + 1)) }

section

variable {L : Layout} {B : Multiset Nat} {r : Nat → Nat} {s : State} {i : Nat} {E : Panic → Prop}

---- Two Address Spaces

/- Two page tables side by side, and the pages `R`. -/
structure Two (L : Layout) (s : Kmem) (pn : Nat) (f : Nat → Option Nat) (po : Nat)
    (g : Nat → Option Nat) (R : Multiset Nat) : Prop where
  new : Table L s pn f (tree s.mem po + R)
  old : Table L s po g (tree s.mem pn + R)

section

variable {k : Kmem} {new old p : Nat} {f g : Nat → Option Nat} {R : Multiset Nat}

theorem Two.write {m : Memory} (h : Two L k new f old g R) (hp : p ∈ R) (hFrame : Frame {p} k.mem m) :
    Two L { k with mem := m } new f old g R := by
  have hNew := h.new.write (Multiset.mem_add.mpr (.inr hp)) hFrame
  have hOld := h.old.write (Multiset.mem_add.mpr (.inr hp)) hFrame
  have hKeep : ∀ pt f' R', Table L k pt f' R' → p ∈ R' → tree m pt = tree k.mem pt := by
    intro pt f' R' hT hIn
    refine SameEntries.tree (hFrame.sameEntries ?_ ?_)
    · intro q hq
      exact (hT.books.isRam (Multiset.mem_add.mpr (.inl hq))).isPage.aligned
    · intro q hq hEq
      rw [Multiset.mem_singleton.mp hEq] at hq
      exact hT.not_mem_tree hIn hq
  have hTreeOld := hKeep _ _ _ h.old (Multiset.mem_add.mpr (.inr hp))
  have hTreeNew := hKeep _ _ _ h.new (Multiset.mem_add.mpr (.inr hp))
  refine ⟨?_, ?_⟩
  · dsimp only
    rw [hTreeOld]
    exact hNew
  · dsimp only
    rw [hTreeNew]
    exact hOld

theorem Two.rest_eq {R' : Multiset Nat} (h : Two L k new f old g R) (hEq : R = R') :
    Two L k new f old g R' := hEq ▸ h

theorem Two.free_spec {tf sz : Nat} {guard : Option Nat} {Q : Unit → Kmem → Prop}
    (h : Two L k new f old g (frames g 0 (pageCount sz) + R)) (hShape : Shape L tf guard sz g)
    (hPost : ∀ k', Table L k' new f R → Keeps R k.mem k'.mem → Q () k') :
    wp (procFreepagetable L.kend old sz) Q E k := by
  have hOld := h.old.rest_eq (add_left_comm (tree k.mem new) (frames g 0 (pageCount sz)) R)
  refine procFreepagetable_spec hOld hShape ?_
  intro k' hBooks hKeeps
  refine hPost k' (h.new.keeps hBooks ?_) ?_
  all_goals exact hKeeps.mono (by simp +contextual)

end

theorem Inv.two {kmem : Kmem} {new : Nat} {f : Nat → Option Nat} {F : Multiset Nat}
    (h : Inv L B r s) (hi : i < NPROC) (hLive : (s.proc i).state ≠ .unused)
    (hNew : Table L kmem new f (F + (procPages s.kmem.mem (s.proc i) + (rest s i + B))))
    (hKeeps : Keeps (procPages s.kmem.mem (s.proc i) + (rest s i + B)) s.kmem.mem kmem.mem) :
    Two L kmem new f (s.proc i).pagetable (leaf s.kmem.mem (s.proc i).pagetable)
      ((s.proc i).trapframe ::ₘ (frames (leaf s.kmem.mem (s.proc i).pagetable) 0
        (pageCount (s.proc i).sz) + (F + (rest s i + B)))) := by
  have hTable := h.table hi hLive
  have hTree : ∀ a ∈ tree s.kmem.mem (s.proc i).pagetable,
      a ∈ procPages s.kmem.mem (s.proc i) + (rest s i + B) := by
    intro a ha
    rw [procPages_live hLive]
    simp [ha]
  have hSame : SameEntries s.kmem.mem kmem.mem (s.proc i).pagetable := by
    refine hKeeps.sameEntries ?_ hTree
    intro a ha
    exact ((h.split hi).isRam (hTree a ha)).aligned
  have hOld := hSame.tree
  rw [procPages_live hLive] at hNew
  refine ⟨?_, ?_⟩
  · refine hNew.rest_eq ?_
    rw [hOld, ← Multiset.singleton_add, ← Multiset.singleton_add]
    abel
  · refine hTable.keeps ?_ (hKeeps.mono hTree)
    refine hNew.books.own_eq ?_
    rw [← Multiset.singleton_add, ← Multiset.singleton_add]
    abel

---- The Commit

theorem frame_execFrame (m : Memory) {tf : Nat} (sp entry : Nat) (hAligned : tf % PGSIZE = 0) :
    Frame {tf} m (execFrame m tf sp entry) := by
  have hFirst := frame_store (o := A1) (k := 8) m sp hAligned (by decide)
  have hSecond := frame_store (o := EPC) (k := 8)
    (m.store (tf + A1) 8 sp) entry hAligned (by decide)
  exact (hFirst.trans hSecond).trans (frame_store _ sp hAligned (by decide))

theorem execFrame_registers (m : Memory) (tf entry : Nat) {sp : Nat} (hSp : sp < UINT64) :
    (execFrame m tf sp entry).load (tf + SP) 8 = sp ∧
      (execFrame m tf sp entry).load (tf + A1) 8 = sp := by
  have hMod : sp % 256 ^ 8 = sp := Nat.mod_eq_of_lt hSp
  unfold execFrame
  refine ⟨?_, ?_⟩
  · rw [Memory.load_store_same, hMod]
  · rw [Memory.load_store_other _ _ (by unfold A1 SP; omega),
      Memory.load_store_other _ _ (by unfold A1 EPC; omega), Memory.load_store_same, hMod]

/- The state after the commit. -/
structure Committed (B : Multiset Nat) (i : Nat) (strs : List (List UInt8)) (base : Nat)
    (c : Memory) (image : Image) (s s' : State) : Prop where
  same : s' =
    { s with
      kmem := s'.kmem
      proc := Function.update s.proc i (execProc image (s.proc i)) }
  built : Built strs base c image s'.kmem.mem (leaf s'.kmem.mem image.pagetable)
  sp : s'.kmem.mem.load ((s.proc i).trapframe + SP) 8 = image.sp
  a1 : s'.kmem.mem.load ((s.proc i).trapframe + A1) 8 = image.sp
  pages : Keeps (rest s i + B) s.kmem.mem s'.kmem.mem

theorem Committed.proc_eq {base : Nat} {strs : List (List UInt8)} {c : Memory} {image : Image}
    {s' : State} (h : Committed B i strs base c image s s') :
    s'.proc i = execProc image (s.proc i) := by
  rw [h.same]
  exact Function.update_self _ _ _

theorem execCommit_spec {kmem : Kmem} {image : Image} {entry base : Nat} {f : Nat → Option Nat}
    {c : Memory} {strs : List (List UInt8)} {Q : Int → State → Prop} (h : Inv L B r s)
    (hi : i < NPROC) (hLive : (s.proc i).state ≠ .unused)
    (hNew : Table L kmem image.pagetable f
      (frames f 0 (pageCount image.sz) + (procPages s.kmem.mem (s.proc i) + (rest s i + B))))
    (hShape : Shape L (s.proc i).trapframe (some (image.sz / PGSIZE - (USERSTACK + 1))) image.sz f)
    (hKeeps : Keeps (procPages s.kmem.mem (s.proc i) + (rest s i + B)) s.kmem.mem kmem.mem)
    (hBuilt : Built strs base c image kmem.mem f)
    (hPost : ∀ s', Inv L B r s' → Committed B i strs base c image s s' → Q image.argc s') :
    wp (execCommit L i (s.proc i) entry image) Q E { s with kmem := kmem } := by
  have hPage := (h.table hi hLive).isPage_rest (p := (s.proc i).trapframe) (by simp)
  have hTwo := h.two hi hLive hNew hKeeps
  have hFrame := frame_execFrame kmem.mem image.sp entry hPage.aligned
  have hTwo₁ := hTwo.write (by simp) hFrame
  have hKeeps₁ := hFrame.keeps_rest (Multiset.nodup_add.mp hTwo.new.rest_nodup).2.1
  simp only [execCommit, wp_bind, wp_vm, st, wp_modify, wp_setProc]
  refine Two.free_spec (hTwo₁.rest_eq (Multiset.add_cons _ _ _).symm) (h.shape hi hLive) ?_
  intro kmem' hTable hKeeps₂
  dsimp only at hKeeps₂
  rw [wp_pure]
  have hFrames : Keeps (frames f 0 (pageCount image.sz) + (rest s i + B)) kmem.mem kmem'.mem := by
    refine (hKeeps₁.mono ?_).trans (hKeeps₂.mono ?_)
    all_goals simp +contextual
  have hRest : Keeps (rest s i + B) s.kmem.mem kmem'.mem :=
    (hKeeps.mono (by simp +contextual)).trans (hFrames.mono (by simp +contextual))
  have hTf : Keeps {(s.proc i).trapframe} (execFrame kmem.mem (s.proc i).trapframe image.sp
      entry) kmem'.mem :=
    hKeeps₂.mono (by simp)
  have hSp : image.sp < UINT64 := by
    rw [hBuilt.sp]
    exact stackPtr_lt _ _
  have hRegs := execFrame_registers kmem.mem (s.proc i).trapframe entry hSp
  have hLoad : ∀ o, o + 8 ≤ PGSIZE → kmem'.mem.load ((s.proc i).trapframe + o) 8 =
      (execFrame kmem.mem (s.proc i).trapframe image.sp
        entry).load ((s.proc i).trapframe + o) 8 :=
    fun o ho => hTf.load hPage.aligned (by simp) ho
  have hDesc := h.descriptors i hi
  refine hPost _ (h.updateTable (p := execProc image (s.proc i)) hi
      (hTable.rest_eq (Multiset.add_cons _ _ _).symm)
      hShape (hRest.mono (by simp +contextual)) hLive
      ⟨hDesc.file, hDesc.closed⟩) ⟨rfl, ?_, ?_, ?_, hRest⟩
  · dsimp only
    rw [hTable.map]
    refine ⟨hBuilt.sz, hBuilt.fits, hBuilt.sp, hBuilt.argc, hBuilt.guard, ?_⟩
    refine hBuilt.contents.keeps hFrames ?_ ?_
    · intro p hp
      refine hNew.isPage_rest ?_
      simp only [Multiset.mem_add] at hp ⊢
      rcases hp with hp | hp
      · exact .inl hp
      · exact .inr (.inr hp)
    · exact fun p hp => Multiset.mem_add.mpr (.inl hp)
  · exact (hLoad SP (by decide)).trans hRegs.1
  · exact (hLoad A1 (by decide)).trans hRegs.2

---- Exec

/- The file is a program, and memory lasts for its image. -/
def Builds (L : Layout) (s : State) (i : Nat) (ip : Option Inode) (argv : List Nat) : Prop :=
  ∃ node image kmem, ip = some node ∧ (readi node 0 ELFHDRSIZE).length = ELFHDRSIZE ∧
        field (readi node 0 ELFHDRSIZE) 0 4 = ELF_MAGIC ∧ buildImage L (s.proc i).trapframe node
              (readi node 0 ELFHDRSIZE) argv s.kmem =
            .ok (some image, kmem)

theorem exec_spec {ip : Option Inode} {argv : List Nat} {Q : Int → State → Prop} (h : Inv L B r s)
    (hi : i < NPROC) (hLive : (s.proc i).state ≠ .unused)
    (hArgs : ∀ a ∈ argv, ArgPage (inUse B s) s.kmem.mem a) (hArgc : argv.length < MAXARG)
    (hFail : ∀ kmem, Inv L B r { s with kmem := kmem } → Keeps (inUse B s) s.kmem.mem kmem.mem →
      ¬ Builds L s i ip argv → Q (-1) { s with kmem := kmem })
    (hDone : ∀ node image sz s', ip = some node → (readi node 0 ELFHDRSIZE).length = ELFHDRSIZE →
      pageCount sz ≤ 2 ^ 15 → Inv L B r s' → Loaded node sz
          (field (readi node 0 ELFHDRSIZE) 56 2)
          (field (readi node 0 ELFHDRSIZE) 32 8 % 2 ^ 32) →
        Committed B i (strsIn s.kmem.mem argv) (PGROUNDUP sz) (segments node
            (field (readi node 0 ELFHDRSIZE) 56 2)
            (field (readi node 0 ELFHDRSIZE) 32 8 % 2 ^ 32) (fun _ => 0)) image s s' →
          Q image.argc s') : wp (exec L i ip argv) Q E s := by
  have hStay : ¬ Builds L s i ip argv → Q (-1) s := hFail s.kmem h (Keeps.refl _ _)
  have hTf := (h.table hi hLive).isPage_rest (p := (s.proc i).trapframe) (by simp)
  unfold exec
  cases ip with
  | none =>
    rw [wp_pure]
    refine hStay ?_
    rintro ⟨_, _, _, hNone, _⟩
    cases hNone
  | some ip =>
    dsimp only
    rw [wp_ite, wp_pure, wp_ite, wp_pure, wp_bind, wp_getProc, wp_bind, wp_vm]
    refine ⟨fun hShort => hStay ?_, fun hFull =>
      ⟨fun hOther => hStay ?_, fun _ => ?_⟩⟩
    · rintro ⟨_, _, _, hNode, hLength, _⟩
      cases hNode
      exact hShort hLength
    · rintro ⟨_, _, _, hNode, _, hMagic, _⟩
      cases hNode
      exact hOther hMagic
    rw [inUse_split B s hi] at hArgs
    refine Prog.wp_eq (buildImage_spec (h.split hi) hTf.lt hArgs hArgc ?_ ?_)
    · intro kmem h₁ hKeeps₁ hRun
      rw [← inUse_split B s hi] at h₁ hKeeps₁
      rw [wp_pure]
      refine hFail kmem (h.aside h₁ (hKeeps₁.mono ?_)) hKeeps₁ ?_
      · intro a ha
        unfold inUse
        rw [← add_assoc]
        exact Multiset.mem_add.mpr (.inl ha)
      · rintro ⟨_, _, _, hNode, _, _, hRun'⟩
        cases hNode
        rw [hRun] at hRun'
        cases hRun'
    · intro image sz kmem f _ h₁ hShape hKeeps₁ hSz
        hLoaded hBuilt _
      refine execCommit_spec h hi hLive h₁ hShape hKeeps₁ hBuilt ?_
      intro s' h' hCommitted
      exact hDone ip image sz s' rfl (not_not.mp hFull) hSz h' hLoaded hCommitted

---- The System Call

theorem Inv.hold {kmem : Kmem} {C : Multiset Nat} (h : Inv L B r s)
    (hBooks : Books L kmem (C + (procsPages s.kmem.mem s.proc + ((pipePages s.file).val + B))))
    (hKeeps :
      Keeps (procsPages s.kmem.mem s.proc + ((pipePages s.file).val + B)) s.kmem.mem kmem.mem) :
    Inv L (C + B) r { s with kmem := kmem } := by
  refine h.aside (hBooks.own_eq ?_) (hKeeps.mono ?_)
  · abel
  · intro a ha
    rw [← add_assoc]
    exact Multiset.mem_add.mpr (.inl ha)

theorem inUse_add (C B : Multiset Nat) (s : State) : inUse (C + B) s = C + inUse B s := by
  unfold inUse
  abel

theorem freeArgsAside_spec {argv : List Nat} {Q : Unit → State → Prop} (h : Inv L (argv + B) r s)
    (hPost : ∀ kmem, Inv L B r { s with kmem := kmem } → Keeps (inUse B s) s.kmem.mem kmem.mem →
      Q () { s with kmem := kmem }) : wp (vm (freeArgs L.kend argv)) Q E s := by
  have hBooks : Books L s.kmem (argv + inUse B s) := by
    refine h.books.own_eq ?_
    unfold inUse
    abel
  rw [wp_vm]
  refine freeArgs_spec hBooks ?_
  intro kmem hBooks' hKeeps
  refine hPost kmem (h.aside hBooks' (hKeeps.mono ?_)) hKeeps
  intro a ha
  unfold inUse
  rw [← add_assoc]
  exact Multiset.mem_add.mpr (.inl ha)

/- The strings can be copied, and `exec` builds the image. -/
def Runs (L : Layout) (s : State) (i path uargv : Nat) (ip : Option Inode) : Prop :=
  ∃ str k argv kmem,
    copyinstr (s.proc i).pagetable path MAXPATH s.kmem = .ok (some str, k) ∧
    fetchArgs (s.proc i) uargv MAXARG [] s.kmem = .ok ((true, argv), kmem) ∧
    Builds L { s with kmem := kmem } i ip argv

/-
  A call that succeeds has fetched the vector `argv`, has
  replaced the address space (`s₂`) and has given the pages
  of the vector back.
-/
theorem sysExec_spec {path uargv : Nat} {ip : Option Inode} {Q : Int → State → Prop}
    (h : Inv L B r s) (hi : i < NPROC) (hLive : (s.proc i).state ≠ .unused)
    (hFail : ∀ kmem, Inv L B r { s with kmem := kmem } → Keeps (inUse B s) s.kmem.mem kmem.mem →
        ¬ Runs L s i path uargv ip → Q (-1) { s with kmem := kmem })
    (hDone : ∀ node image sz (argv : List Nat) kmem s₂ kmem₃, ip = some node →
      fetchArgs (s.proc i) uargv MAXARG [] s.kmem = .ok ((true, argv), kmem) →
        Fetched (inUse B s) MAXARG kmem.mem argv → Loaded node sz
          (field (readi node 0 ELFHDRSIZE) 56 2)
          (field (readi node 0 ELFHDRSIZE) 32 8 % 2 ^ 32) → Committed (argv + B) i
            (strsIn kmem.mem argv) (PGROUNDUP sz) (segments node
              (field (readi node 0 ELFHDRSIZE) 56 2)
              (field (readi node 0 ELFHDRSIZE) 32 8 % 2 ^ 32) (fun _ => 0))
            image { s with kmem := kmem } s₂ → Inv L (argv + B) r s₂ →
            Inv L B r { s₂ with kmem := kmem₃ } → Keeps (inUse B s₂) s₂.kmem.mem kmem₃.mem →
                Q image.argc { s₂ with kmem := kmem₃ }) :
    wp (sysExec L i path uargv ip) Q E s := by
  unfold sysExec
  rw [wp_bind, wp_getProc, wp_bind, wp_vm]
  refine Prog.wp_eq (copyinstr_spec ?_ ?_)
  · intro hCopy
    rw [wp_pure]
    refine hFail s.kmem h (Keeps.refl _ _) ?_
    rintro ⟨_, _, _, _, hCopy', _⟩
    cases hCopy.symm.trans hCopy'
  intro str _ _
  rw [wp_bind, wp_vm]
  have hNoArgs : Books L s.kmem ((([] : List Nat) : Multiset Nat) + inUse B s) :=
    h.books.own_eq (zero_add (M := Multiset Nat) _).symm
  refine Prog.wp_eq (fetchArgs_spec hNoArgs (by rintro a ⟨⟩) ?_)
  intro ok argv kmem hBooks hKeeps hFetched hRun
  have h₁ := Inv.hold h hBooks hKeeps
  dsimp only
  rw [wp_ite]
  refine ⟨fun hNot => ?_, fun hOk => ?_⟩
  · rw [wp_bind]
    refine freeArgsAside_spec h₁ ?_
    intro kmem₂ h₂ hKeeps₂
    rw [wp_pure]
    refine hFail kmem₂ h₂ (hKeeps.trans ?_) ?_
    · rw [h.inUse_keeps B hKeeps] at hKeeps₂
      exact hKeeps₂
    · rintro ⟨_, _, _, _, _, hRun', _⟩
      cases hRun.symm.trans hRun'
      cases hNot
  have hTrue : ok = true := by
    cases ok with
    | false => exact absurd rfl hOk
    | true => rfl
  subst hTrue
  have hAll := hFetched rfl
  rw [List.length_nil, Nat.zero_add] at hAll
  rw [wp_bind]
  refine exec_spec h₁ hi hLive ?_ hAll.1 ?_ ?_
  · intro a ha
    rw [h.inUse_keeps (argv + B) hKeeps, inUse_add]
    exact hAll.2 a ha
  · intro kmem₂ h₂ hKeeps₂ hNot
    rw [wp_bind]
    refine freeArgsAside_spec h₂ ?_
    intro kmem₃ h₃ hKeeps₃
    rw [wp_pure]
    rw [h.inUse_keeps (argv + B) hKeeps, inUse_add] at hKeeps₂
    have hMiddle : Keeps (inUse B s) s.kmem.mem kmem₂.mem :=
      hKeeps.trans (hKeeps₂.mono fun a ha =>
        Multiset.mem_add.mpr (.inr ha))
    rw [h.inUse_keeps B hMiddle] at hKeeps₃
    refine hFail kmem₃ h₃ (hMiddle.trans hKeeps₃) ?_
    rintro ⟨_, _, _, _, _, hRun', hBuilds⟩
    cases hRun.symm.trans hRun'
    exact hNot hBuilds
  · intro node image sz s₂ hNode _ _ h₂ hLoaded hCommitted
    rw [wp_bind]
    refine freeArgsAside_spec h₂ ?_
    intro kmem₃ h₃ hKeeps₃
    rw [wp_pure]
    exact hDone node image sz argv kmem s₂ kmem₃ hNode hRun hAll hLoaded hCommitted h₂ h₃ hKeeps₃

end

end Xv6.Kernel

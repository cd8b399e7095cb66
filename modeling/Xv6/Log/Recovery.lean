import Xv6.Log.Commit

/-
  Crash atomicity of the log.

  A disk is `Clean` for given home contents when its header
  is empty, and `Committed` for a transaction when the
  header lists the blocks, the log holds their new
  contents, and each home block is old or new. Commit moves
  from the clean old disk over the committed states to the
  clean new disk, and the header write is the only step
  between the two sides. Recovery stays on its side of that
  step wherever it is cut, so any number of interrupted
  recoveries ends with the disk the header write decided.

  Main declarations:
    * `wp_recoverFromLog_clean`
    * `wp_recoverFromLog_committed`
    * `commit_crash_atomic`
-/

namespace Xv6.Log

open Prog

---- Header Encoding

theorem headN_putHead (b : Block) (lh : List Nat) (hLen : lh.length ≤ LOGSIZE) :
    headN (putHead b lh) = lh.length := by
  simp only [LOGSIZE, MAXOPBLOCKS] at hLen
  have hFit : 0 + (Bytes.le 4 lh.length ++ lh.flatMap (Bytes.le 4)).length ≤ BSIZE := by
    simp only [List.length_append, Bytes.length_le, Bytes.length_flatMap_le, BSIZE]
    omega
  have hSlice := Bytes.slice_put_sub b 0 0 4 _ hFit (by simp)
  have hWord : (putHead b lh).getLe 0 4 = lh.length := by
    unfold Bytes.getLe putHead
    rw [hSlice, List.drop_zero, List.take_append_of_le_length (by simp),
      List.take_of_length_le (by simp), Bytes.ofLe_le]
    apply Nat.mod_eq_of_lt
    omega
  unfold headN toInt32
  rw [hWord, if_pos (by omega)]

theorem headBlock_putHead (b : Block) (lh : List Nat) (hLen : lh.length ≤ LOGSIZE)
    (hWord : ∀ c ∈ lh, c < 2 ^ 32) (i : Nat) (hi : i < lh.length) :
    headBlock (putHead b lh) i = lh[i] := by
  simp only [LOGSIZE, MAXOPBLOCKS] at hLen
  have hTotal : (Bytes.le 4 lh.length ++ lh.flatMap (Bytes.le 4)).length = 4 + 4 * lh.length := by
    rw [List.length_append, Bytes.length_flatMap_le, Bytes.length_le]
  have hSlice :=
    Bytes.slice_put_sub b 0 (4 + 4 * i) 4 (Bytes.le 4 lh.length ++ lh.flatMap (Bytes.le 4))
      (by rw [hTotal]; simp only [BSIZE]; omega)
      (by rw [hTotal]; omega)
  rw [Nat.zero_add] at hSlice
  unfold headBlock Bytes.getLe putHead
  rw [hSlice, List.drop_append, List.drop_of_length_le
    (by simp), List.nil_append, Bytes.length_le, Nat.add_sub_cancel_left,
    Bytes.take_drop_flatMap_le lh i hi, Bytes.ofLe_le]
  exact Nat.mod_eq_of_lt (hWord _ (List.getElem_mem hi))

---- Pending Transactions

/-
  A transaction waiting for commit: the home blocks listed
  in `log.lh` and the contents the cache holds for them.
-/
structure Pending (a : Area) where
  blocks : List Nat
  data : Nat → Block
  nodup : blocks.Nodup
  outside : ∀ b ∈ blocks, ¬ a.Mem b
  fits : blocks.length + 1 ≤ a.size
  le_LOGSIZE : blocks.length ≤ LOGSIZE
  word : ∀ b ∈ blocks, b < 2 ^ 32

namespace Pending

variable {a : Area}

/- The disk with all the transaction's blocks replaced. -/
def apply (t : Pending a) (d : Disk) : Disk := fun b => if b ∈ t.blocks then t.data b else d b

/- The machine holds the transaction, pinned in its cache. -/
structure Loaded (t : Pending a) (m : Machine) : Prop where
  lh : m.lh = t.blocks
  cached : ∀ b ∈ t.blocks, m.cache b = some (t.data b)
  fresh : m.written = []

theorem view_of_loaded {t : Pending a} {m : Machine} (h : t.Loaded m) {b : Nat} (hb : b ∈ t.blocks) :
    m.view b = t.data b := by
  simp [Machine.view, h.cached b hb]

end Pending

variable {b tail : Nat} {E : Crash → Prop} {m m' : Machine} {home d : Disk}

/- The header is empty and the home blocks are `home`'s. -/
structure Clean (a : Area) (home d : Disk) : Prop where
  head : headN (d a.start) = 0
  home : ∀ b, ¬ a.Mem b → d b = home b

/- The transaction is in the log, and its installation may have begun. -/
structure Committed {a : Area} (t : Pending a) (old d : Disk) : Prop where
  headN : headN (d a.start) = t.blocks.length
  headBlock : ∀ i, (hi : i < t.blocks.length) → headBlock (d a.start) i = t.blocks[i]
  log : ∀ i, (hi : i < t.blocks.length) → d (a.start + i + 1) = t.data t.blocks[i]
  untouched : ∀ b, ¬ a.Mem b → b ∉ t.blocks → d b = old b
  partly : ∀ b ∈ t.blocks, d b = old b ∨ d b = t.data b

---- Buffer Rules

/- Reading a block changes no view and no disk block. -/
theorem wp_bread {Q : Block → Machine → Prop}
    (h : ∀ m' : Machine, m'.disk = m.disk → m'.view = m.view → m'.lh = m.lh → m'.power = m.power →
      m'.written = m.written → Q (m.view b) m') : wp (bread b) Q E m := by
  simp only [bread, wp_bind, wp_get, wp_set, wp_pure]
  apply h <;> try rfl
  funext c
  by_cases hc : c = b
  · subst hc
    simp [Machine.view]
  · simp [Machine.view, hc]

/- A write reaches disk and cache, or the power is gone. -/
theorem wp_bwrite {v : Block} {Q : Unit → Machine → Prop}
    (hCrash : m.power = some 0 → E ⟨m.disk, m.written⟩)
    (hWrite : ∀ m' : Machine, m.power ≠ some 0 → m'.disk = m.disk.write b v → m'.view b = v →
      (∀ c, c ≠ b → m'.view c = m.view c) → m'.lh = m.lh →
      m'.written = m.written ++ [b] → Q () m') : wp (bwrite b v) Q E m := by
  simp only [bwrite, wp_bind, wp_get]
  split
  · rename_i hPower
    rw [wp_throw]
    exact hCrash hPower
  rename_i hPower
  rw [wp_set]
  apply hWrite _ hPower rfl
  · simp [Machine.view]
  · intro c hc
    simp [Machine.view, hc, Disk.write_other _ _ hc]
  · rfl
  · rfl

theorem wp_bunpin {Q : Unit → Machine → Prop}
    (h : ∀ m' : Machine, m'.disk = m.disk → m'.view = m.view →
      m'.lh = m.lh → m'.written = m.written → Q () m') : wp (bunpin b) Q E m := by
  simp only [bunpin, wp_modify]
  exact h _ rfl rfl rfl rfl

---- Writing The Log

/-
  The state of `write_log` at position `tail`: the log holds
  the first `tail` blocks, and nothing outside the log body
  has changed.
-/
structure Logging {a : Area} (t : Pending a) (old : Disk) (tail : Nat) (m : Machine) : Prop where
  lh : m.lh = t.blocks
  home : ∀ b ∈ t.blocks, m.view b = t.data b
  copied : ∀ i, (hi : i < t.blocks.length) → i < tail →
    m.disk (a.start + i + 1) = t.data t.blocks[i] ∧ m.view (a.start + i + 1) = t.data t.blocks[i]
  head : m.disk a.start = old a.start
  kept : ∀ b, ¬ a.Mem b → m.disk b = old b
  inArea : ∀ b ∈ m.written, a.Mem b ∧ b ≠ a.start

/- What a crash during `write_log` leaves. -/
structure LoggingCrash (a : Area) (old : Disk) (c : Crash) : Prop where
  head : c.disk a.start = old a.start
  kept : ∀ b, ¬ a.Mem b → c.disk b = old b
  inArea : ∀ b ∈ c.written, a.Mem b ∧ b ≠ a.start

variable {a : Area} {t : Pending a} {old : Disk}

theorem Pending.mem_body (t : Pending a) {i : Nat} (hi : i < t.blocks.length) :
    a.Mem (a.start + i + 1) := by
  have hFits := t.fits
  unfold Area.Mem
  omega

theorem Pending.ne_body (t : Pending a) {i : Nat} (hi : i < t.blocks.length) (hb : b ∈ t.blocks) :
    b ≠ a.start + i + 1 := by
  intro hEq
  apply t.outside b hb
  rw [hEq]
  exact t.mem_body hi

theorem Pending.mem_start (t : Pending a) : a.Mem a.start := by
  have hFits := t.fits
  unfold Area.Mem
  omega

/- Reading buffers keeps the state of `write_log`. -/
theorem Logging.of_read (h : Logging t old tail m) (hDisk : m'.disk = m.disk)
    (hView : m'.view = m.view) (hLh : m'.lh = m.lh) (hWritten : m'.written = m.written) :
    Logging t old tail m' := by
  constructor
  · rw [hLh]
    exact h.lh
  · rw [hView]
    exact h.home
  · rw [hDisk, hView]
    exact h.copied
  · rw [hDisk]
    exact h.head
  · rw [hDisk]
    exact h.kept
  · rw [hWritten]
    exact h.inArea

/- One copied block advances `write_log` by one position. -/
theorem Logging.of_write (h : Logging t old tail m) (hTail : tail < t.blocks.length)
    (hDisk : m'.disk = m.disk.write (a.start + tail + 1) (t.data t.blocks[tail]))
    (hSame : m'.view (a.start + tail + 1) = t.data t.blocks[tail])
    (hOther : ∀ c, c ≠ a.start + tail + 1 → m'.view c = m.view c) (hLh : m'.lh = m.lh)
    (hWritten : m'.written = m.written ++ [a.start + tail + 1]) : Logging t old (tail + 1) m' := by
  constructor
  · rw [hLh]
    exact h.lh
  · intro b hb
    rw [hOther b (t.ne_body hTail hb)]
    exact h.home b hb
  · intro i hi hLt
    by_cases hEq : i = tail
    · subst hEq
      rw [hDisk, hSame]
      simp
    · have hNe : a.start + i + 1 ≠ a.start + tail + 1 := by omega
      rw [hDisk, Disk.write_other _ _ hNe, hOther _ hNe]
      exact h.copied i hi (by omega)
  · rw [hDisk, Disk.write_other _ _ (by omega)]
    exact h.head
  · intro b hb
    rw [hDisk, Disk.write_other]
    · exact h.kept b hb
    · intro hEq
      apply hb
      rw [hEq]
      exact t.mem_body hTail
  · intro b hb
    rw [hWritten, List.mem_append, List.mem_singleton] at hb
    rcases hb with hOld | hNew
    · exact h.inArea b hOld
    · subst hNew
      exact ⟨t.mem_body hTail, by omega⟩

theorem Logging.start (hLoaded : t.Loaded m) : Logging t m.disk 0 m := by
  constructor
  · exact hLoaded.lh
  · intro b hb
    exact Pending.view_of_loaded hLoaded hb
  · intro i _ hLt
    omega
  · rfl
  · intro b _
    rfl
  · intro b hb
    simp [hLoaded.fresh] at hb

theorem Logging.crash (h : Logging t old tail m) : LoggingCrash a old ⟨m.disk, m.written⟩ :=
  ⟨h.head, h.kept, h.inArea⟩

/- The loop of `write_log`, by induction on what is left. -/
theorem wp_writeLogFrom (done rest : List Nat) (hBlocks : t.blocks = done ++ rest)
    (h : Logging t old done.length m) :
    wp (writeLogFrom a done.length rest) (fun _ m' => Logging t old t.blocks.length m')
      (LoggingCrash a old) m := by
  induction rest generalizing done m with
  | nil =>
    simp only [writeLogFrom, wp_pure]
    rw [hBlocks, List.append_nil]
    exact h
  | cons b rest ih =>
    have hTail : done.length < t.blocks.length := by simp [hBlocks]
    have hGet : t.blocks[done.length] = b := by simp [hBlocks]
    have hMem : b ∈ t.blocks := by simp [hBlocks]
    simp only [writeLogFrom, wp_bind]
    apply wp_bread
    intro m₁ hDisk₁ hView₁ hLh₁ _ hWritten₁
    have h₁ := h.of_read hDisk₁ hView₁ hLh₁ hWritten₁
    apply wp_bread
    intro m₂ hDisk₂ hView₂ hLh₂ _ hWritten₂
    have h₂ := h₁.of_read hDisk₂ hView₂ hLh₂ hWritten₂
    apply wp_bwrite
    · intro _
      exact h₂.crash
    · intro m₃ _ hDisk₃ hSame₃ hOther₃ hLh₃ hWritten₃
      have hData : m₁.view b = t.data t.blocks[done.length] := by rw [h₁.home b hMem, hGet]
      rw [hData] at hDisk₃ hSame₃
      have h₃ := h₂.of_write hTail hDisk₃ hSame₃ hOther₃ hLh₃ hWritten₃
      have hNext := ih (done ++ [b]) (by simp [hBlocks]) (m := m₃) (by simpa using h₃)
      simpa using hNext

theorem wp_writeLog (h : Logging t old 0 m) :
    wp (writeLog a) (fun _ m' => Logging t old t.blocks.length m') (LoggingCrash a old) m := by
  simp only [writeLog, wp_bind, wp_get]
  rw [h.lh]
  exact wp_writeLogFrom [] t.blocks rfl h

---- Header Writes

/- `write_head` stores the in-memory header in one write. -/
theorem wp_writeHead {Q : Unit → Machine → Prop} (hCrash : E ⟨m.disk, m.written⟩)
    (hWrite : ∀ m' : Machine, m'.disk = m.disk.write a.start (putHead (m.view a.start) m.lh) →
      (∀ c, c ≠ a.start → m'.view c = m.view c) → m'.lh = m.lh →
      m'.written = m.written ++ [a.start] → Q () m') : wp (writeHead a) Q E m := by
  simp only [writeHead, wp_bind, wp_get]
  apply wp_bread
  intro m₁ hDisk₁ hView₁ hLh₁ _ hWritten₁
  apply wp_bwrite
  · intro _
    rw [hDisk₁, hWritten₁]
    exact hCrash
  · intro m₂ _ hDisk₂ _ hOther₂ hLh₂ hWritten₂
    apply hWrite
    · rw [hDisk₂, hDisk₁, hLh₁]
    · intro c hc
      rw [hOther₂ c hc, hView₁]
    · rw [hLh₂, hLh₁]
    · rw [hWritten₂, hWritten₁]

/- Writing the empty header leaves a clean disk. -/
theorem clean_of_clear {hb : Block} (hStart : a.Mem a.start) (hHome : ∀ b, ¬ a.Mem b → d b = home b) :
    Clean a home (d.write a.start (putHead hb [])) := by
  constructor
  · rw [Disk.write_same]
    exact headN_putHead hb [] (by simp)
  · intro b hb
    rw [Disk.write_other]
    · exact hHome b hb
    · intro hEq
      apply hb
      rw [hEq]
      exact hStart

/- Writing the full header commits the transaction. -/
theorem committed_of_logging {hb : Block} (h : Logging t old t.blocks.length m) :
    Committed t old (m.disk.write a.start (putHead hb t.blocks)) := by
  constructor
  · rw [Disk.write_same]
    exact headN_putHead hb t.blocks t.le_LOGSIZE
  · intro i hi
    rw [Disk.write_same]
    exact headBlock_putHead hb t.blocks t.le_LOGSIZE t.word i hi
  · intro i hi
    rw [Disk.write_other _ _ (by omega)]
    exact (h.copied i hi hi).1
  · intro b hb _
    rw [Disk.write_other]
    · exact h.kept b hb
    · intro hEq
      apply hb
      rw [hEq]
      exact t.mem_start
  · intro b hb
    left
    have hOut := t.outside b hb
    rw [Disk.write_other]
    · exact h.kept b hOut
    · intro hEq
      apply hOut
      rw [hEq]
      exact t.mem_start

---- Installation

/-
  The state of `install_trans` at position `tail`. `P`
  records whether the header was written in this run.
-/
structure Installing {a : Area} (t : Pending a) (old : Disk) (P : Prop) (tail : Nat) (m : Machine) :
    Prop where
  committed : Committed t old m.disk
  log : ∀ i, (hi : i < t.blocks.length) → m.view (a.start + i + 1) = t.data t.blocks[i]
  installed : ∀ i, (hi : i < t.blocks.length) → i < tail → m.disk t.blocks[i] = t.data t.blocks[i]
  lh : m.lh = t.blocks
  mark : P → a.start ∈ m.written

/- What a crash during `install_trans` leaves. -/
structure InstallingCrash {a : Area} (t : Pending a) (old : Disk) (P : Prop) (c : Crash) :
    Prop where
  committed : Committed t old c.disk
  mark : P → a.start ∈ c.written

variable {P : Prop}

theorem Installing.of_read (h : Installing t old P tail m) (hDisk : m'.disk = m.disk)
    (hView : m'.view = m.view) (hLh : m'.lh = m.lh) (hWritten : m'.written = m.written) :
    Installing t old P tail m' := by
  constructor
  · rw [hDisk]
    exact h.committed
  · rw [hView]
    exact h.log
  · rw [hDisk]
    exact h.installed
  · rw [hLh]
    exact h.lh
  · rw [hWritten]
    exact h.mark

theorem Committed.of_write (h : Committed t old d) (hb : b ∈ t.blocks) :
    Committed t old (d.write b (t.data b)) := by
  have hOut := t.outside b hb
  have hStart : a.start ≠ b := by
    intro hEq
    apply hOut
    rw [← hEq]
    exact t.mem_start
  constructor
  · rw [Disk.write_other _ _ hStart]
    exact h.headN
  · intro i hi
    rw [Disk.write_other _ _ hStart]
    exact h.headBlock i hi
  · intro i hi
    rw [Disk.write_other _ _ (t.ne_body hi hb).symm]
    exact h.log i hi
  · intro c hc hNot
    rw [Disk.write_other]
    · exact h.untouched c hc hNot
    · intro hEq
      apply hNot
      rw [hEq]
      exact hb
  · intro c hc
    by_cases hEq : c = b
    · subst hEq
      right
      simp
    · rw [Disk.write_other _ _ hEq]
      exact h.partly c hc

theorem Installing.of_write (h : Installing t old P tail m) (hTail : tail < t.blocks.length)
    (hDisk : m'.disk = m.disk.write t.blocks[tail] (t.data t.blocks[tail]))
    (hOther : ∀ c, c ≠ t.blocks[tail] → m'.view c = m.view c) (hLh : m'.lh = m.lh)
    (hWritten : m'.written = m.written ++ [t.blocks[tail]]) : Installing t old P (tail + 1) m' := by
  have hMem := List.getElem_mem hTail
  constructor
  · rw [hDisk]
    exact h.committed.of_write hMem
  · intro i hi
    rw [hOther _ (t.ne_body hi hMem).symm]
    exact h.log i hi
  · intro i hi hLt
    by_cases hEq : t.blocks[i] = t.blocks[tail]
    · rw [hDisk, hEq, Disk.write_same]
    · rw [hDisk, Disk.write_other _ _ hEq]
      apply h.installed i hi
      have hNe : i ≠ tail := by
        intro hIdx
        subst hIdx
        exact hEq rfl
      omega
  · rw [hLh]
    exact h.lh
  · intro hP
    rw [hWritten]
    exact List.mem_append_left _ (h.mark hP)

/- The loop of `install_trans`, in commit and recovery. -/
theorem wp_installTransFrom (recovering : Bool) (done rest : List Nat)
    (hBlocks : t.blocks = done ++ rest) (h : Installing t old P done.length m) :
    wp (installTransFrom a recovering done.length rest) (fun _ m' =>
      Installing t old P t.blocks.length m') (InstallingCrash t old P) m := by
  induction rest generalizing done m with
  | nil =>
    simp only [installTransFrom, wp_pure]
    rw [hBlocks, List.append_nil]
    exact h
  | cons b rest ih =>
    have hTail : done.length < t.blocks.length := by simp [hBlocks]
    have hGet : t.blocks[done.length] = b := by simp [hBlocks]
    simp only [installTransFrom, wp_bind]
    apply wp_bread
    intro m₁ hDisk₁ hView₁ hLh₁ _ hWritten₁
    have h₁ := h.of_read hDisk₁ hView₁ hLh₁ hWritten₁
    apply wp_bread
    intro m₂ hDisk₂ hView₂ hLh₂ _ hWritten₂
    have h₂ := h₁.of_read hDisk₂ hView₂ hLh₂ hWritten₂
    apply wp_bwrite
    · intro _
      exact ⟨h₂.committed, h₂.mark⟩
    intro m₃ _ hDisk₃ _ hOther₃ hLh₃ hWritten₃
    rw [h.log _ hTail] at hDisk₃
    rw [← hGet] at hDisk₃ hOther₃ hWritten₃
    have h₃ := h₂.of_write hTail hDisk₃ hOther₃ hLh₃ hWritten₃
    have hRest : ∀ m₄ : Machine, Installing t old P (done.length + 1) m₄ →
        wp (installTransFrom a recovering (done.length + 1) rest) (fun _ m' =>
            Installing t old P t.blocks.length m')
          (InstallingCrash t old P) m₄ := by
      intro m₄ h₄
      have hNext := ih (done ++ [b]) (by simp [hBlocks]) (m := m₄) (by simpa using h₄)
      simpa using hNext
    cases recovering with
    | true => exact hRest m₃ h₃
    | false =>
      simp only [if_true, wp_bind]
      apply wp_bunpin
      intro m₄ hDisk₄ hView₄ hLh₄ hWritten₄
      exact hRest m₄ (h₃.of_read hDisk₄ hView₄ hLh₄ hWritten₄)

theorem wp_installTrans (recovering : Bool) (h : Installing t old P 0 m) :
    wp (installTrans a recovering) (fun _ m' => Installing t old P t.blocks.length m')
      (InstallingCrash t old P) m := by
  simp only [installTrans, wp_bind, wp_get]
  rw [h.lh]
  exact wp_installTransFrom recovering [] t.blocks rfl h

/- With every block installed the home disk is the new. -/
theorem Installing.home_eq_apply (h : Installing t old P t.blocks.length m) (hb : ¬ a.Mem b) :
    m.disk b = t.apply old b := by
  unfold Pending.apply
  split
  · rename_i hMem
    rcases List.mem_iff_getElem.mp hMem with ⟨i, hi, hEq⟩
    rw [← hEq]
    exact h.installed i hi hi
  · rename_i hNot
    exact h.committed.untouched b hb hNot

theorem wp_clear_installed (h : Installing t old P t.blocks.length m) :
    wp (do clearHead; writeHead a)
      (fun _ m' =>
        Clean a (t.apply old) m'.disk ∧ (P → a.start ∈ m'.written))
      (InstallingCrash t old P) m := by
  simp only [clearHead, wp_bind, wp_modify]
  apply wp_writeHead
  · exact ⟨h.committed, h.mark⟩
  · intro m' hDisk _ _ hWritten
    constructor
    · rw [hDisk]
      exact clean_of_clear t.mem_start (fun b hb => h.home_eq_apply hb)
    · intro hP
      rw [hWritten]
      exact List.mem_append_left _ (h.mark hP)

---- Commit

/-
  The two sides of a commit. Before the header write the
  disk is clean and old. From the header write on it is
  committed, or clean and new.
-/
def Outcome {a : Area} (t : Pending a) (old : Disk) (c : Crash) : Prop :=
  (a.start ∉ c.written ∧ Clean a old c.disk) ∨
    (a.start ∈ c.written ∧ (Committed t old c.disk ∨ Clean a (t.apply old) c.disk))

theorem LoggingCrash.outcome {c : Crash} (hHead : headN (old a.start) = 0)
    (h : LoggingCrash a old c) : Outcome t old c := by
  left
  constructor
  · intro hMem
    exact (h.inArea _ hMem).2 rfl
  · constructor
    · rw [h.head]
      exact hHead
    · exact h.kept

theorem InstallingCrash.outcome {c : Crash} (h : InstallingCrash t old True c) : Outcome t old c :=
  Or.inr ⟨h.mark trivial, Or.inl h.committed⟩

/- Every run of `commit`, cut off or not, ends on a side. -/
theorem wp_commit (hLoaded : t.Loaded m) (hHead : headN (m.disk a.start) = 0) :
    wp (commit a) (fun _ m' => Outcome t m.disk ⟨m'.disk, m'.written⟩) (Outcome t m.disk) m := by
  simp only [commit, wp_bind, wp_get]
  have hStart : Logging t m.disk 0 m := Logging.start hLoaded
  split
  · -- the transaction is not empty
    simp only [wp_bind]
    refine wp_mono (wp_writeLog hStart) ?_ (fun c hc => hc.outcome hHead)
    intro _ m₁ h₁
    apply wp_writeHead
    · exact h₁.crash.outcome hHead
    intro m₂ hDisk₂ hOther₂ hLh₂ hWritten₂
    have hInstall : Installing t m.disk True 0 m₂ := by
      constructor
      · rw [hDisk₂, h₁.lh]
        exact committed_of_logging h₁
      · intro i hi
        rw [hOther₂ _ (by omega)]
        exact (h₁.copied i hi hi).2
      · intro i _ hLt
        omega
      · rw [hLh₂]
        exact h₁.lh
      · intro _
        simp [hWritten₂]
    refine wp_mono (wp_installTrans false hInstall) ?_ (fun c hc => hc.outcome)
    intro _ m₃ h₃
    have hClear := wp_clear_installed h₃
    rw [wp_bind] at hClear
    refine wp_mono hClear ?_ (fun c hc => ?_)
    · intro _ m₄ h₄
      refine wp_mono h₄ ?_ (fun c hc => hc.outcome)
      intro _ m₅ h₅
      exact Or.inr ⟨h₅.2 trivial, Or.inr h₅.1⟩
    · exact hc.outcome
  · -- an empty transaction writes nothing
    simp only [wp_pure]
    exact hStart.crash.outcome hHead

---- Recovery

theorem wp_recoverFromLog_clean (hStart : a.Mem a.start) (hCache : m.view = m.disk)
    (h : Clean a home m.disk) :
    wp (recoverFromLog a) (fun _ m' => Clean a home m'.disk) (fun c => Clean a home c.disk) m := by
  simp only [recoverFromLog, readHead, installTrans, clearHead, wp_bind, wp_get, wp_modify]
  apply wp_bread
  intro m₁ hDisk₁ _ _ _ _
  rw [hCache, h.head]
  simp only [Int.toNat_zero, List.range_zero, List.map_nil, installTransFrom, wp_pure]
  have hClean : Clean a home m₁.disk := by
    rw [hDisk₁]
    exact h
  apply wp_writeHead
  · exact hClean
  · intro m₂ hDisk₂ _ _ _
    rw [hDisk₂]
    exact clean_of_clear hStart hClean.home

/-
  Recovering a committed disk installs the transaction, and
  a crash on the way leaves the disk committed.
-/
theorem wp_recoverFromLog_committed (hCache : m.view = m.disk) (h : Committed t old m.disk) :
    wp (recoverFromLog a) (fun _ m' => Clean a (t.apply old) m'.disk)
      (fun c => Committed t old c.disk) m := by
  simp only [recoverFromLog, readHead, wp_bind, wp_modify]
  apply wp_bread
  intro m₁ hDisk₁ hView₁ _ _ _
  have hRead :
      (List.range (headN (m.view a.start)).toNat).map (headBlock (m.view a.start)) = t.blocks := by
    rw [hCache, h.headN, Int.toNat_natCast]
    apply List.ext_getElem
    · simp
    · intro i hi hi'
      simp only [List.getElem_map, List.getElem_range]
      exact h.headBlock i hi'
  rw [hRead]
  have hInstall : Installing t old False 0 { m₁ with lh := t.blocks } := by
    constructor
    · show Committed t old m₁.disk
      rw [hDisk₁]
      exact h
    · intro i hi
      show m₁.view _ = _
      rw [hView₁, hCache]
      exact h.log i hi
    · intro i _ hLt
      omega
    · rfl
    · exact False.elim
  refine wp_mono (wp_installTrans true hInstall) ?_ (fun c hc => hc.committed)
  intro _ m₂ h₂
  have hClear := wp_clear_installed h₂
  rw [wp_bind] at hClear
  refine wp_mono hClear ?_ (fun c hc => hc.committed)
  intro _ m₃ h₃
  exact wp_mono h₃ (fun _ _ h₄ => h₄.1) (fun c hc => hc.committed)

---- Runs With Power

/- With unlimited power the program returns. -/
def Steady {α : Type} (x : LogM α) : Prop :=
  ∀ m : Machine, m.power = none → wp x (fun _ m' => m'.power = none) (fun _ => False) m

theorem Steady.bind {α β : Type} {x : LogM α} {f : α → LogM β} (hx : Steady x)
    (hf : ∀ v, Steady (f v)) : Steady (x >>= f) := by
  intro m hPower
  rw [wp_bind]
  exact wp_post (hx m hPower) (fun v m' hPower' => hf v m' hPower')

theorem steady_pure {α : Type} (v : α) : Steady (pure v) := by
  intro m hPower
  rw [wp_pure]
  exact hPower

theorem steady_get : Steady (get : LogM Machine) := by
  intro m hPower
  rw [wp_get]
  exact hPower

theorem steady_bread (b : Nat) : Steady (bread b) := by
  intro m hPower
  apply wp_bread
  intro m' _ _ _ hPower' _
  rw [hPower', hPower]

theorem steady_bwrite (b : Nat) (v : Block) : Steady (bwrite b v) := by
  intro m hPower
  simp [bwrite, hPower]

theorem steady_writeHead : Steady (writeHead a) :=
  (steady_bread _).bind fun _ =>
    steady_get.bind fun _ => steady_bwrite _ _

theorem steady_installTransFrom (recovering : Bool) (tail : Nat) (bs : List Nat) :
    Steady (installTransFrom a recovering tail bs) := by
  induction bs generalizing tail with
  | nil => exact steady_pure ()
  | cons b bs ih =>
    refine (steady_bread _).bind fun _ =>
      (steady_bread _).bind fun _ =>
        (steady_bwrite _ _).bind fun _ => ?_
    cases recovering with
    | true => exact ih (tail + 1)
    | false =>
      intro m hPower
      simp only [if_true, wp_bind, bunpin, wp_modify]
      exact ih (tail + 1) _ hPower

/- An uninterrupted recovery completes. -/
theorem steady_recoverFromLog : Steady (recoverFromLog a) := by
  intro m hPower
  simp only [recoverFromLog, readHead, installTrans, clearHead, wp_bind, wp_get, wp_modify]
  refine wp_post (steady_bread _ m hPower) ?_
  intro _ m₁ hPower₁
  refine wp_post (steady_installTransFrom true 0 _ _ hPower₁) ?_
  intro _ m₂ hPower₂
  exact steady_writeHead _ hPower₂

---- Crash Atomicity

theorem wp_reboot_clean (power : Option Nat) (hStart : a.Mem a.start) (h : Clean a home d) :
    wp (recoverFromLog a) (fun _ m' => Clean a home m'.disk)
      (fun c => Clean a home c.disk) (boot d power) := wp_recoverFromLog_clean hStart rfl h

theorem wp_reboot_committed (power : Option Nat) (h : Committed t old d) :
    wp (recoverFromLog a) (fun _ m' => Clean a (t.apply old) m'.disk)
      (fun c => Committed t old c.disk) (boot d power) := wp_recoverFromLog_committed rfl h

theorem crashState_of_wp {x : LogM Unit} {R : Crash → Prop}
    (h : wp x (fun _ m' => R ⟨m'.disk, m'.written⟩) R m) : R (crashState x m) := by
  unfold crashState
  cases hRun : x m with
  | error c => exact wp_of_eq_error h hRun
  | ok r => exact wp_of_eq_ok h hRun

/- Interrupted recoveries keep a clean disk clean. -/
theorem interruptedRecoveries_clean (hStart : a.Mem a.start) (ks : List Nat) (h : Clean a home d) :
    Clean a home (interruptedRecoveries a ks d) := by
  induction ks generalizing d with
  | nil => exact h
  | cons k ks ih =>
    apply ih
    exact crashState_of_wp (R := fun c => Clean a home c.disk) (wp_reboot_clean (some k) hStart h)

/- Interrupted recoveries stay past the header write. -/
theorem interruptedRecoveries_committed (ks : List Nat)
    (h : Committed t old d ∨ Clean a (t.apply old) d) :
    Committed t old (interruptedRecoveries a ks d) ∨
      Clean a (t.apply old) (interruptedRecoveries a ks d) := by
  induction ks generalizing d with
  | nil => exact h
  | cons k ks ih =>
    rcases h with hCommitted | hClean
    · apply ih
      apply crashState_of_wp (R := fun c =>
            Committed t old c.disk ∨ Clean a (t.apply old) c.disk)
      exact wp_mono (wp_reboot_committed (some k) hCommitted) (fun _ _ h' => Or.inr h')
          (fun _ h' => Or.inl h')
    · right
      exact interruptedRecoveries_clean t.mem_start (k :: ks) hClean

/- The completing recovery ends on the clean disk of the side the crash left. -/
theorem recovery_completes {c : Crash} (h : Outcome t old c) (ks : List Nat) :
    ∃ m', recoverFromLog a (boot (interruptedRecoveries a ks c.disk) none) = .ok ((), m') ∧ Clean a
      (if a.start ∈ c.written then t.apply old
        else old) m'.disk := by
  have hReturns :=
    exists_ok_of_wp
      (steady_recoverFromLog (a := a) (boot (interruptedRecoveries a ks c.disk) none) rfl)
  rcases hReturns with ⟨_, m', hRun, _⟩
  refine ⟨m', hRun, ?_⟩
  rcases h with ⟨hNot, hClean⟩ | ⟨hMem, hAfter⟩
  · rw [if_neg hNot]
    have hLast := interruptedRecoveries_clean t.mem_start ks hClean
    have hEnd := wp_of_eq_ok (wp_reboot_clean none t.mem_start hLast) hRun
    exact hEnd
  rw [if_pos hMem]
  rcases interruptedRecoveries_committed ks hAfter with
    hCommitted | hClean
  · have hEnd :=
      wp_of_eq_ok (wp_reboot_committed none hCommitted) hRun
    exact hEnd
  · have hEnd :=
      wp_of_eq_ok (wp_reboot_clean none t.mem_start hClean) hRun
    exact hEnd

theorem writeLog_written (hLoaded : t.Loaded m) :
    ∀ b ∈ (crashState (writeLog a) m).written, a.Mem b := by
  have hStart : Logging t m.disk 0 m := Logging.start hLoaded
  have hCrash : LoggingCrash a m.disk (crashState (writeLog a) m) :=
    crashState_of_wp (wp_post (wp_writeLog hStart) (fun _ _ h => h.crash))
  intro b hb
  exact (hCrash.inArea b hb).1

/-
  Crash atomicity. Commit is cut after any number of block
  writes, recovery after any numbers of block writes, and
  one recovery completes. The header is then empty, and
  outside the log the disk is the new one if the header
  write reached it and the old one if not. `write_log`
  writes inside the log area only.
-/
theorem commit_crash_atomic
    (a : Area)
    (t : Pending a)
    (m : Machine)
    (hLoaded : t.Loaded m)
    (hHead : headN (m.disk a.start) = 0)
    (ks : List Nat) :
    (∃ m',
      recoverFromLog a
        (boot (interruptedRecoveries a ks (crashState (commit a) m).disk) none) = .ok ((), m') ∧
      headN (m'.disk a.start) = 0 ∧
      ∀ b,
        ¬ a.Mem b →
        m'.disk b =
          if a.start ∈ (crashState (commit a) m).written then t.apply m.disk b
          else m.disk b) ∧
    ∀ b ∈ (crashState (writeLog a) m).written, a.Mem b := by
  refine ⟨?_, writeLog_written hLoaded⟩
  have hOutcome : Outcome t m.disk (crashState (commit a) m) :=
    crashState_of_wp (wp_commit hLoaded hHead)
  rcases recovery_completes hOutcome ks with ⟨m', hRun, hClean⟩
  refine ⟨m', hRun, hClean.head, ?_⟩
  intro b hb
  rw [hClean.home b hb]
  split <;> rfl

/- A one-block transaction on an empty disk. -/
def samplePending : Pending ⟨2, LOGSIZE⟩ where
  blocks := [46]
  data := fun _ _ => 7
  nodup := by decide
  outside := by decide
  fits := by decide
  le_LOGSIZE := by decide
  word := by decide

/- Its machine, with power for the log and the header. -/
def sampleMachine : Machine where
  disk := fun _ => Bytes.zero
  cache := fun b =>
    if b = 46 then some (fun _ => 7) else none
  pins := fun b => if b = 46 then 1 else 0
  lh := [46]
  power := some 2
  written := []

/-
  Power fails right after the header write and again before
  the first write of recovery: block 46 ends up new.
-/
theorem commit_crash_atomic_sample :
    samplePending.Loaded sampleMachine ∧ headN (sampleMachine.disk 2) = 0 ∧
      2 ∈ (crashState (commit ⟨2, LOGSIZE⟩) sampleMachine).written ∧ ∃ m',
        recoverFromLog ⟨2, LOGSIZE⟩ (boot (interruptedRecoveries ⟨2, LOGSIZE⟩ [0]
            (crashState (commit ⟨2, LOGSIZE⟩) sampleMachine).disk) none) = .ok ((), m') ∧
          m'.disk 46 = fun _ => 7 := by
  have hLoaded : samplePending.Loaded sampleMachine := by
    constructor
    · rfl
    · intro b hb
      rcases List.mem_singleton.mp hb
      rfl
    · rfl
  have hHead : headN (sampleMachine.disk 2) = 0 := by decide
  have hReached : 2 ∈ (crashState (commit ⟨2, LOGSIZE⟩) sampleMachine).written := by decide
  refine ⟨hLoaded, hHead, hReached, ?_⟩
  rcases (commit_crash_atomic ⟨2, LOGSIZE⟩ samplePending sampleMachine hLoaded hHead [0]).1 with
    ⟨m', hRun, _, hHome⟩
  refine ⟨m', hRun, ?_⟩
  rw [hHome 46 (by decide), if_pos hReached]
  rfl

end Xv6.Log

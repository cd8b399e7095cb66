import Xv6.Fs.Writing

/-
  Processes that share one `struct file` of a regular file
  (`fileread` and `filewrite` of `file.c`).

  A step is one section under the lock of the inode: a part
  of a `filewrite`, or the whole of a `fileread`. The offset
  is read and moved inside the section, so the transfers of
  all calls stand one after the other, whatever the order of
  the sections.

  Main declarations:
    * `Ordered.step`
    * `transfers_consecutive`
-/

namespace Xv6.Fs.Sharing

---- States

/- The bytes of a part: what `filewrite` calls `max`. -/
def maxPart : Nat := (MAXOPBLOCKS - 1 - 1 - 2) / 2 * BSIZE

inductive Call where
  | write (src : Src) (n : Int)
  | read (dst : Dst) (n : Int)

/- Where a process is, with the number of its call. -/
inductive Pc where
  | idle
  | write (call : Nat) (src : Src) (n : Int) (i : Nat)
  | read (call : Nat) (dst : Dst) (n : Int)

/- One section: its call, its place and its bytes. -/
structure Transfer where
  call : Nat
  writes : Bool
  start : Nat
  bytes : List UInt8

/-
  The disk, the inode in memory, `f->off` and the processes.
  The rest is history: the calls in order, the transfers,
  the return values, and whether a transfer has failed.
-/
structure State where
  disk : Disk
  ip : Dinode
  off : UInt32
  pc : Nat → Pc
  calls : List Call
  transfers : List Transfer
  returned : List (Nat × Int)
  failed : Bool

def State.init (disk : Disk) (ip : Dinode) (off : UInt32) : State where
  disk := disk
  ip := ip
  off := off
  pc := fun _ => .idle
  calls := []
  transfers := []
  returned := []
  failed := false

def State.goto (s : State) (p : Nat) (pc : Pc) : State := { s with pc := Function.update s.pc p pc }

def State.ret (s : State) (p c : Nat) (r : Int) : State :=
  { s.goto p .idle with returned := s.returned ++ [(c, r)] }

---- Sections

/- The source at `addr + i`. -/
def shifted (src : Src) (i : Nat) : Src where
  byte k := src.byte (i + k)
  fails tot m := src.fails (i + tot) m

/- `if(r > 0) f->off += r`. -/
def moveOff (off : UInt32) (r : Int) : UInt32 := if r > 0 then off + UInt32.ofNat r.toNat else off

/- The end of a section, still inside the call. -/
def State.transfer (s : State) (t : Ip) (r : Int) (x : Transfer) : State :=
  { s with
    disk := t.disk
    ip := t.ip
    off := moveOff s.off r
    transfers := s.transfers ++ [x] }

/- The bytes of the next part: what `filewrite` calls `n1`. -/
def partLen (n : Int) (i : Nat) : Nat := min (n.toNat - i) maxPart

/- One round of the loop of `filewrite`. A transaction is open around the section. -/
def writeSection (sb : Superblock) (inum : Nat) (s : State) (p c : Nat) (src : Src) (n : Int)
    (i : Nat) : Option State :=
  let n1 := partLen n i
  match writei sb (shifted src i) s.off (UInt32.ofNat n1) ⟨s.disk, inum, s.ip⟩ with
  | .error _ => none
  | .ok (r, t) =>
    let s' := s.transfer t r ⟨c, true, s.off.toNat, (shifted src i).bytes 0 r.toNat⟩
    if r ≠ n1 then
      some { s'.ret p c (-1) with failed := true }
    else
      some (s'.goto p (.write c src n (i + r.toNat)))

/- The section of `fileread`, after the test of `readable`. -/
def readSection (sb : Superblock) (inum : Nat) (s : State) (p c : Nat) (dst : Dst) (n : Int) :
    Option State :=
  match readi sb dst s.off (UInt32.ofInt n) ⟨s.disk, inum, s.ip⟩ with
  | .error _ => none
  | .ok ((r, bytes), t) =>
    let s' := (s.transfer t r ⟨c, false, s.off.toNat, bytes⟩).ret p c r
    some { s' with failed := s.failed || decide (r < 0) }

inductive Action where
  | call (p : Nat) (c : Call)
  | run (p : Nat)

/- The entry of a call, as call number `c`. -/
def Call.entry (c : Nat) : Call → Pc
  | .write src n => .write c src n 0
  | .read dst n => .read c dst n

def step (sb : Superblock) (inum : Nat) (s : State) : Action → Option State
  | .call p c =>
    match s.pc p with
    | .idle =>
      some { s.goto p (c.entry s.calls.length) with calls := s.calls ++ [c] }
    | _ => none
  | .run p =>
    match s.pc p with
    | .idle => none
    | .write c src n i =>
      if (i : Int) < n then
        writeSection sb inum s p c src n i
      else
        some (s.ret p c (if (i : Int) = n then n else -1))
    | .read c dst n => readSection sb inum s p c dst n

/- The states that some interleaving reaches. -/
inductive Reachable (sb : Superblock) (inum : Nat) (init : State) : State → Prop where
  | init : Reachable sb inum init init
  | step {s s' : State}
      (a : Action) (hReach : Reachable sb inum init s) (hStep : step sb inum s a = some s') :
      Reachable sb inum init s'

---- The Transfers As A Whole

/- The file after a transfer. -/
def Transfer.apply (content : List UInt8) (t : Transfer) : List UInt8 :=
  if t.writes = true then replaced content t.start t.bytes else content

/- A byte string overwritten by the writes in order. -/
def applied (content : List UInt8) (ts : List Transfer) : List UInt8 :=
  ts.foldl Transfer.apply content

/- The number of bytes transferred. -/
def moved (ts : List Transfer) : Nat := (ts.map (fun t => t.bytes.length)).sum

/- The bytes that a call has transferred, in order. -/
def sent (ts : List Transfer) (c : Nat) : List UInt8 :=
  (ts.filter (fun t => t.call = c)).flatMap (fun t => t.bytes)

/- Every transfer starts where the one before it ended. -/
def Consecutive : Nat → List Transfer → Prop
  | _, [] => True
  | off, t :: ts => t.start = off ∧ Consecutive (off + t.bytes.length) ts

/- Every read has the bytes that its range has at the time. -/
def Faithful : List UInt8 → List Transfer → Prop
  | _, [] => True
  | content, t :: ts =>
    (t.writes = false → t.bytes = (content.drop t.start).take t.bytes.length) ∧
      Faithful (t.apply content) ts

theorem moved_snoc (ts : List Transfer) (t : Transfer) :
    moved (ts ++ [t]) = moved ts + t.bytes.length := by
  unfold moved
  rw [List.map_append, List.sum_append]
  simp

theorem applied_snoc (content : List UInt8) (ts : List Transfer) (t : Transfer) :
    applied content (ts ++ [t]) = t.apply (applied content ts) := List.foldl_append

theorem sent_snoc (ts : List Transfer) (t : Transfer) (c : Nat) :
    sent (ts ++ [t]) c = sent ts c ++ if t.call = c then t.bytes else [] := by
  unfold sent
  rw [List.filter_append, List.flatMap_append]
  split
  · rename_i hCall
    simp [hCall]
  · rename_i hCall
    simp [hCall]

theorem Consecutive.snoc {off : Nat} {ts : List Transfer} {t : Transfer} (h : Consecutive off ts)
    (hStart : t.start = off + moved ts) : Consecutive off (ts ++ [t]) := by
  induction ts generalizing off with
  | nil => exact ⟨hStart, trivial⟩
  | cons u us ih =>
    refine ⟨h.1, ih h.2 ?_⟩
    rw [hStart]
    unfold moved
    rw [List.map_cons, List.sum_cons, Nat.add_assoc]

theorem Faithful.snoc {content : List UInt8} {ts : List Transfer} {t : Transfer}
    (h : Faithful content ts)
    (hRead : t.writes = false → t.bytes = ((applied content ts).drop t.start).take t.bytes.length) :
    Faithful content (ts ++ [t]) := by
  induction ts generalizing content with
  | nil => exact ⟨hRead, trivial⟩
  | cons u us ih => exact ⟨h.1, ih h.2 hRead⟩

---- The File

/-
  The transfers stand one after the other from `off` on, and
  the file is the old one overwritten by them.
-/
structure Ordered (sb : Superblock) (f : Nat → Dinode) (inum : Nat) (content : List UInt8)
    (off : Nat) (s : State) : Prop where
  locked : Locked sb f ⟨s.disk, inum, s.ip⟩
  holeFree : HoleFree s.disk s.ip
  overwritten : contents s.disk s.ip = applied content s.transfers
  offset : s.off.toNat = off + moved s.transfers
  starts : Consecutive off s.transfers
  reads : Faithful content s.transfers

variable {f : Nat → Dinode} {inum off : Nat} {content : List UInt8} {s s' : State}

section

variable {sb : Superblock}

theorem toNat_moveOff {o : UInt32} {tot : Nat} (h : o.toNat + tot < 2 ^ 32) :
    (moveOff o (tot : Int)).toNat = o.toNat + tot := by
  unfold moveOff
  split
  · rw [Int.toNat_natCast, UInt32.toNat_add,
      UInt32.toNat_ofNat', Nat.mod_eq_of_lt (a := tot), Nat.mod_eq_of_lt h]
    omega
  · omega

/- A section that moved `x` and left the file as `x` says. -/
theorem Ordered.transfer (h : Ordered sb f inum content off s) {t : Ip} {x : Transfer}
    (hLocked : Locked sb f ⟨t.disk, inum, t.ip⟩) (hFree : HoleFree t.disk t.ip)
    (hContent : contents t.disk t.ip = x.apply (contents s.disk s.ip))
    (hStart : x.start = s.off.toNat) (hSmall : s.off.toNat + x.bytes.length < 2 ^ 32)
    (hRead : x.writes = false → x.bytes = ((contents s.disk s.ip).drop x.start).take x.bytes.length) :
    Ordered sb f inum content off (s.transfer t x.bytes.length x) := by
  refine ⟨hLocked, hFree, ?_, ?_, ?_, ?_⟩
  · change contents t.disk t.ip = applied content (s.transfers ++ [x])
    rw [hContent, applied_snoc, h.overwritten]
  · change (moveOff s.off (x.bytes.length : Int)).toNat = off + moved (s.transfers ++ [x])
    rw [toNat_moveOff hSmall, moved_snoc, h.offset, Nat.add_assoc]
  · exact h.starts.snoc (by rw [hStart, h.offset])
  · exact h.reads.snoc (by rw [← h.overwritten]; exact hRead)

/- The processes and the history of calls do not matter. -/
theorem Ordered.congr (h : Ordered sb f inum content off s) (hDisk : s'.disk = s.disk)
    (hIp : s'.ip = s.ip) (hOff : s'.off = s.off) (hTransfers : s'.transfers = s.transfers) :
    Ordered sb f inum content off s' := by
  refine ⟨?_, ?_, ?_, ?_, ?_, ?_⟩
  · rw [hDisk, hIp]
    exact h.locked
  · rw [hDisk, hIp]
    exact h.holeFree
  · rw [hDisk, hIp, hTransfers]
    exact h.overwritten
  · rw [hOff, hTransfers]
    exact h.offset
  · rw [hTransfers]
    exact h.starts
  · rw [hTransfers]
    exact h.reads

theorem toNat_partLen (n : Int) (i : Nat) : (UInt32.ofNat (partLen n i)).toNat = partLen n i := by
  have hMax : maxPart = 3072 := by decide
  have hLe : partLen n i ≤ maxPart := Nat.min_le_right _ _
  rw [UInt32.toNat_ofNat']
  exact Nat.mod_eq_of_lt (by omega)

/- What a round of `filewrite` that writes its part does. -/
def State.written (s : State) (t : Ip) (p c : Nat) (src : Src) (n : Int) (i : Nat) : State :=
  (s.transfer t (partLen n i)
    ⟨c, true, s.off.toNat, (shifted src i).bytes 0 (partLen n i)⟩).goto p
    (.write c src n (i + partLen n i))

theorem Ordered.written (h : Ordered sb f inum content off s) {t : Ip} {p c : Nat} {src : Src}
    {n : Int} {i : Nat}
    (hWrote :
      Wrote sb f (shifted src i) s.off.toNat (partLen n i) (partLen n i) ⟨s.disk, inum, s.ip⟩ t)
    (hOff : s.off.toNat ≤ s.ip.size.toNat) :
    Ordered sb f inum content off (s.written t p c src n i) := by
  rcases t with ⟨disk', inum', ip'⟩
  have hInum : inum' = inum := hWrote.inum
  subst hInum
  have hLen := (shifted src i).length_bytes 0 (partLen n i)
  have hSize : ip'.size.toNat = max s.ip.size.toNat (s.off.toNat + partLen n i) := hWrote.size
  have hLt : ip'.size.toNat < 2 ^ 32 := ip'.size.toNat_lt
  have hNext :=
    h.transfer (t := ⟨disk', inum', ip'⟩)
      (x := ⟨c, true, s.off.toNat, (shifted src i).bytes 0 (partLen n i)⟩)
      hWrote.locked (hWrote.holeFree h.holeFree)
      (hWrote.contents (.inl rfl) hOff h.holeFree) rfl
      (by rw [hLen]; omega)
      (fun hRead => Bool.noConfusion hRead)
  rw [hLen] at hNext
  exact hNext.congr rfl rfl rfl rfl

/- A round of `filewrite` ends, with a failure or with the whole part written. -/
theorem Ordered.writeSection (hLayout : Layout sb) (h : Ordered sb f inum content off s) (p c : Nat)
    (src : Src) (n : Int) (i : Nat) :
    ∃ s', writeSection sb inum s p c src n i = some s' ∧ (s'.failed = true ∨
      Ordered sb f inum content off s' ∧ ∃ t, s' = s.written t p c src n i) := by
  rcases Prog.exists_ok_of_wp (wp_writei hLayout h.locked s.off (UInt32.ofNat (partLen n i)))
    with ⟨r, t, hRun, hPost⟩
  unfold Sharing.writeSection
  dsimp only
  rw [hRun]
  dsimp only
  by_cases hFull : r = partLen n i
  · rw [if_neg (not_not_intro hFull)]
    refine ⟨_, rfl, Or.inr ?_⟩
    subst hFull
    rw [toNat_partLen] at hPost
    rcases hPost with ⟨hNeg, _⟩ | ⟨hOff, tot, hTot, hWrote⟩
    · exact absurd hNeg (by omega)
    · have hEq : tot = partLen n i := by omega
      subst hEq
      exact ⟨h.written hWrote hOff, t, rfl⟩
  · rw [if_pos hFull]
    exact ⟨_, rfl, Or.inl rfl⟩

/- What a `fileread` that succeeds does. -/
def State.delivered (s : State) (p c : Nat) (bytes : List UInt8) : State :=
  (s.transfer ⟨s.disk, 0, s.ip⟩ bytes.length ⟨c, false, s.off.toNat, bytes⟩).ret p c bytes.length

theorem readData_eq (disk : Disk) (d : Dinode) (o n : UInt32) :
    readData disk d o n = ((contents disk d).drop o.toNat).take (readData disk d o n).length ∧
      o.toNat + (readData disk d o n).length < 2 ^ 32 := by
  have hSize := d.size.toNat_lt
  have hOff := o.toNat_lt
  unfold readData
  split
  · exact ⟨List.take_zero.symm, by simpa using hOff⟩
  · rw [List.length_take, List.length_drop, length_contents]
    refine ⟨?_, by omega⟩
    rw [← length_contents disk d, ← List.length_drop, ← List.take_eq_take_min]

theorem Ordered.readSection (hLayout : Layout sb) (h : Ordered sb f inum content off s) (p c : Nat)
    (dst : Dst) (n : Int) :
    ∃ s', readSection sb inum s p c dst n = some s' ∧ (s'.failed = true ∨
      Ordered sb f inum content off s' ∧ ∃ bytes, s' = s.delivered p c bytes) := by
  rcases Prog.exists_ok_of_wp (wp_readi hLayout h.locked dst (n := UInt32.ofInt n)
        (MappedTo.mono h.holeFree (Nat.min_le_right _ _)))
    with ⟨r, t, hRun, hSame, hResult, _⟩
  unfold Sharing.readSection
  rw [hRun]
  subst hSame
  rcases hResult with hFail | hOk
  · subst hFail
    exact ⟨_, rfl, Or.inl (by simp)⟩
  subst hOk
  rcases readData_eq s.disk s.ip s.off (UInt32.ofInt n) with ⟨hData, hSmall⟩
  unfold readResult
  generalize readData s.disk s.ip s.off (UInt32.ofInt n) = bytes at hData hSmall ⊢
  have hNonneg : ¬ (bytes.length : Int) < 0 := by omega
  refine ⟨s.delivered p c bytes, ?_, Or.inr ⟨?_, bytes, rfl⟩⟩
  · dsimp only
    rw [decide_eq_false hNonneg, Bool.or_false]
    rfl
  · have hNext :=
      h.transfer (t := ⟨s.disk, 0, s.ip⟩) (x := ⟨c, false, s.off.toNat, bytes⟩)
        h.locked h.holeFree rfl rfl hSmall
        (fun _ => hData)
    exact hNext.congr rfl rfl rfl rfl

end

---- The Calls

/- The call that a process is in, with its number. -/
def Pc.issued : Pc → Option (Nat × Call)
  | .idle => none
  | .write c src n _ => some (c, .write src n)
  | .read c dst n => some (c, .read dst n)

theorem Pc.eq_write_of_issued {pc : Pc} {c : Nat} {src : Src} {n : Int}
    (h : pc.issued = some (c, .write src n)) : ∃ i, pc = .write c src n i := by
  cases pc with
  | idle => cases h
  | write c' src' n' i =>
    cases h
    exact ⟨i, rfl⟩
  | read c' dst n' => cases h

/-
  Every call of `filewrite` has sent its data from the start
  on: as much as the process in it has counted, and all of it
  when the call has returned.
-/
structure Counted (s : State) : Prop where
  issued : ∀ p c k, (s.pc p).issued = some (c, k) → s.calls[c]? = some k ∧ ∀ r, (c, r) ∉ s.returned
  single : ∀ p q c k l, (s.pc p).issued = some (c, k) → (s.pc q).issued = some (c, l) → p = q
  active :
    ∀ p c src n i, s.pc p = .write c src n i → i ≤ n.toNat ∧ sent s.transfers c = src.bytes 0 i
  finished : ∀ c r src n, (c, r) ∈ s.returned → s.calls[c]? = some (.write src n) →
    r = (if 0 ≤ n then n else -1) ∧ sent s.transfers c = src.bytes 0 n.toNat
  known :
    ∀ c k, s.calls[c]? = some k → (∃ p, (s.pc p).issued = some (c, k)) ∨ ∃ r, (c, r) ∈ s.returned
  numbered : ∀ t ∈ s.transfers, t.call < s.calls.length
  ended : ∀ c r, (c, r) ∈ s.returned → c < s.calls.length

theorem sent_eq_nil {ts : List Transfer} {c : Nat} (h : ∀ t ∈ ts, t.call < c) : sent ts c = [] := by
  unfold sent
  rw [List.filter_eq_nil_iff.mpr, List.flatMap_nil]
  intro t ht
  have hLt := h t ht
  rw [decide_eq_true_eq]
  omega

theorem bytes_shifted (src : Src) (i m : Nat) :
    src.bytes 0 i ++ (shifted src i).bytes 0 m = src.bytes 0 (i + m) := by
  unfold Src.bytes shifted
  rw [map_range_add]
  simp only [Nat.zero_add]

variable {p c : Nat}

theorem State.pc_goto (s : State) (p q : Nat) (pc : Pc) :
    (s.goto p pc).pc q = if q = p then pc else s.pc q := Function.update_apply s.pc p pc q

theorem getElem?_snoc {ks : List Call} {k l : Call} (h : (ks ++ [k])[c]? = some l) :
    ks[c]? = some l ∨ c = ks.length ∧ l = k := by
  rw [List.getElem?_append] at h
  split at h
  · exact Or.inl h
  · rcases List.getElem?_eq_some_iff.mp h with ⟨hLt, hEq⟩
    rw [List.length_singleton] at hLt
    rw [List.getElem_singleton] at hEq
    exact Or.inr ⟨by omega, hEq.symm⟩

theorem Counted.call (h : Counted s) (hIdle : s.pc p = .idle) (k : Call) :
    Counted { s.goto p (k.entry s.calls.length) with calls := s.calls ++ [k] } := by
  have hEntry : (k.entry s.calls.length).issued = some (s.calls.length, k) := by
    cases k with
    | write src n => rfl
    | read dst n => rfl
  have hOld : ∀ (d : Nat) l, s.calls[d]? = some l → d < s.calls.length :=
    fun d l hd => (List.getElem?_eq_some_iff.mp hd).1
  have hMono : ∀ (d : Nat) l, s.calls[d]? = some l → (s.calls ++ [k])[d]? = some l := by
    intro d l hd
    rw [List.getElem?_append_left (hOld d l hd)]
    exact hd
  have hSent : sent s.transfers s.calls.length = [] := sent_eq_nil h.numbered
  refine ⟨?_, ?_, ?_, ?_, ?_, ?_, ?_⟩
  · intro q d l hq
    dsimp only at hq ⊢
    rw [State.pc_goto] at hq
    split at hq
    · rw [hEntry] at hq
      cases hq
      refine ⟨List.getElem?_concat_length, ?_⟩
      exact fun r hr => Nat.lt_irrefl _ (h.ended _ r hr)
    · rcases h.issued q d l hq with ⟨hCall, hOpen⟩
      exact ⟨hMono d l hCall, hOpen⟩
  · intro q q' d l l' hq hq'
    dsimp only at hq hq'
    rw [State.pc_goto] at hq hq'
    split at hq
    · rename_i hEq
      split at hq'
      · rename_i hEq'
        rw [hEq, hEq']
      · rw [hEntry] at hq
        cases hq
        exact absurd (hOld _ _ (h.issued q' _ l' hq').1) (Nat.lt_irrefl _)
    · split at hq'
      · rw [hEntry] at hq'
        cases hq'
        exact absurd (hOld _ _ (h.issued q _ l hq).1) (Nat.lt_irrefl _)
      · exact h.single q q' d l l' hq hq'
  · intro q d src n i hq
    dsimp only at hq ⊢
    rw [State.pc_goto] at hq
    split at hq
    · cases k with
      | read dst m => cases hq
      | write src' m =>
        cases hq
        exact ⟨Nat.zero_le _, hSent⟩
    · exact h.active q d src n i hq
  · intro d r src n hd hCall
    rcases getElem?_snoc hCall with hCall | ⟨hEq, _⟩
    · exact h.finished d r src n hd hCall
    · exact absurd (h.ended d r hd) (by omega)
  · intro d l hd
    rcases getElem?_snoc hd with hd | ⟨hEq, hk⟩
    · rcases h.known d l hd with ⟨q, hq⟩ | hRet
      · refine Or.inl ⟨q, ?_⟩
        dsimp only
        rw [State.pc_goto, if_neg]
        · exact hq
        · intro hEq
          rw [hEq, hIdle] at hq
          cases hq
      · exact Or.inr hRet
    · refine Or.inl ⟨p, ?_⟩
      dsimp only
      rw [State.pc_goto, if_pos rfl, hEntry, hEq, hk]
  · intro t ht
    have hLt := h.numbered t ht
    dsimp only
    rw [List.length_append]
    omega
  · intro d r hd
    have hLt := h.ended d r hd
    dsimp only
    rw [List.length_append]
    omega

theorem Counted.ret (h : Counted s) {k : Call} {r : Int} (hPc : (s.pc p).issued = some (c, k))
    (hDone : ∀ src n, k = .write src n →
      r = (if 0 ≤ n then n else -1) ∧ sent s.transfers c = src.bytes 0 n.toNat) :
    Counted (s.ret p c r) := by
  have hReturned : (s.ret p c r).returned = s.returned ++ [(c, r)] := rfl
  have hAt : ∀ q d l,
      ((s.ret p c r).pc q).issued = some (d, l) → q ≠ p ∧ (s.pc q).issued = some (d, l) := by
    intro q d l hq
    change ((s.goto p .idle).pc q).issued = _ at hq
    rw [State.pc_goto] at hq
    split at hq
    · cases hq
    · rename_i hNe
      exact ⟨hNe, hq⟩
  rcases h.issued p c k hPc with ⟨hCall, hOpen⟩
  refine ⟨?_, ?_, ?_, ?_, ?_, h.numbered, ?_⟩
  · intro q d l hq
    rcases hAt q d l hq with ⟨hNe, hq⟩
    rcases h.issued q d l hq with ⟨hd, hNot⟩
    refine ⟨hd, ?_⟩
    intro r' hr'
    rw [hReturned, List.mem_append, List.mem_singleton] at hr'
    rcases hr' with hr' | hr'
    · exact hNot r' hr'
    · cases hr'
      exact hNe (h.single q p c l k hq hPc)
  · intro q q' d l l' hq hq'
    exact h.single q q' d l l' (hAt q d l hq).2 (hAt q' d l' hq').2
  · intro q d src n i hq
    have hIssued : ((s.ret p c r).pc q).issued = some (d, .write src n) := by
      rw [hq]
      rfl
    have hNe := (hAt q d _ hIssued).1
    change (s.goto p .idle).pc q = _ at hq
    rw [State.pc_goto, if_neg hNe] at hq
    exact h.active q d src n i hq
  · intro d r' src n hd hWrite
    rw [hReturned, List.mem_append, List.mem_singleton] at hd
    rcases hd with hd | hd
    · exact h.finished d r' src n hd hWrite
    · cases hd
      change s.calls[c]? = _ at hWrite
      rw [hCall, Option.some.injEq] at hWrite
      exact hDone src n hWrite
  · intro d l hd
    rcases h.known d l hd with ⟨q, hq⟩ | ⟨r', hr'⟩
    · by_cases hEq : q = p
      · subst hEq
        rw [hPc] at hq
        cases hq
        refine Or.inr ⟨r, ?_⟩
        rw [hReturned]
        exact List.mem_append_right _ (List.mem_singleton.mpr rfl)
      · refine Or.inl ⟨q, ?_⟩
        change ((s.goto p .idle).pc q).issued = _
        rw [State.pc_goto, if_neg hEq]
        exact hq
    · refine Or.inr ⟨r', ?_⟩
      rw [hReturned]
      exact List.mem_append_left _ hr'
  · intro d r' hd
    rw [hReturned, List.mem_append, List.mem_singleton] at hd
    rcases hd with hd | hd
    · exact h.ended d r' hd
    · cases hd
      exact (List.getElem?_eq_some_iff.mp hCall).1

theorem sent_snoc_of_ne {ts : List Transfer} {x : Transfer} (h : x.call ≠ c) :
    sent (ts ++ [x]) c = sent ts c := by
  rw [sent_snoc, if_neg h, List.append_nil]

theorem numbered_snoc (h : Counted s) {k : Call} (hPc : (s.pc p).issued = some (c, k))
    {x : Transfer} (hx : x.call = c) : ∀ t ∈ s.transfers ++ [x], t.call < s.calls.length := by
  intro t ht
  rw [List.mem_append, List.mem_singleton] at ht
  rcases ht with ht | ht
  · exact h.numbered t ht
  · rw [ht, hx]
    exact (List.getElem?_eq_some_iff.mp (h.issued p c k hPc).1).1

theorem Counted.heard (h : Counted s) {dst : Dst} {n : Int} (hPc : s.pc p = .read c dst n) (t : Ip)
    (r : Int) {x : Transfer} (hx : x.call = c) : Counted (s.transfer t r x) := by
  have hIssued : (s.pc p).issued = some (c, .read dst n) := by
    rw [hPc]
    rfl
  have hOther : ∀ d src m, s.calls[d]? = some (.write src m) → x.call ≠ d := by
    intro d src m hd hEq
    rw [← hEq, hx, (h.issued p c _ hIssued).1] at hd
    cases hd
  refine ⟨h.issued, h.single, ?_, ?_, h.known, ?_, h.ended⟩
  · intro q d src m i hq
    change s.pc q = _ at hq
    have hCall := (h.issued q d (.write src m) (by rw [hq]; rfl)).1
    change i ≤ m.toNat ∧ sent (s.transfers ++ [x]) d = _
    rw [sent_snoc_of_ne (hOther d src m hCall)]
    exact h.active q d src m i hq
  · intro d r' src m hd hCall
    change _ ∧ sent (s.transfers ++ [x]) d = _
    rw [sent_snoc_of_ne (hOther d src m hCall)]
    exact h.finished d r' src m hd hCall
  · exact numbered_snoc h hIssued hx

theorem Counted.written (h : Counted s) {src : Src} {n : Int} {i : Nat}
    (hPc : s.pc p = .write c src n i) (t : Ip) : Counted (s.written t p c src n i) := by
  have hIssued : (s.pc p).issued = some (c, .write src n) := by
    rw [hPc]
    rfl
  have hSame : ∀ q, ((s.written t p c src n i).pc q).issued = (s.pc q).issued := by
    intro q
    change ((s.goto p _).pc q).issued = _
    rw [State.pc_goto]
    split
    · rename_i hEq
      rw [hEq, hPc]
      rfl
    · rfl
  rcases h.active p c src n i hPc with ⟨hLe, hSent⟩
  have hLen : partLen n i ≤ n.toNat - i := Nat.min_le_left _ _
  refine ⟨?_, ?_, ?_, ?_, ?_, ?_, h.ended⟩
  · intro q d k hq
    rw [hSame] at hq
    exact h.issued q d k hq
  · intro q q' d k l hq hq'
    rw [hSame] at hq hq'
    exact h.single q q' d k l hq hq'
  · intro q d src' n' j hq
    change (s.goto p _).pc q = _ at hq
    rw [State.pc_goto] at hq
    change _ ∧ sent (s.transfers ++ [_]) d = _
    split at hq
    · cases hq
      rw [sent_snoc, if_pos rfl, hSent, bytes_shifted]
      exact ⟨by omega, rfl⟩
    · rename_i hNe
      rw [sent_snoc_of_ne]
      · exact h.active q d src' n' j hq
      · intro hEq
        subst hEq
        exact hNe (h.single q p c (.write src' n') _ (by rw [hq]; rfl) hIssued)
  · intro d r src' n' hd hCall
    change _ ∧ sent (s.transfers ++ [_]) d = _
    rw [sent_snoc_of_ne]
    · exact h.finished d r src' n' hd hCall
    · intro hEq
      subst hEq
      exact (h.issued p c _ hIssued).2 r hd
  · intro d k hd
    rcases h.known d k hd with ⟨q, hq⟩ | hRet
    · exact Or.inl ⟨q, by rw [hSame]; exact hq⟩
    · exact Or.inr hRet
  · exact numbered_snoc h hIssued rfl

---- Runs

section

variable {sb : Superblock}

/- What holds as long as no transfer has failed. -/
structure Clean (sb : Superblock) (f : Nat → Dinode) (inum : Nat) (content : List UInt8) (off : Nat)
    (s : State) : Prop where
  ordered : Ordered sb f inum content off s
  counted : Counted s

theorem Clean.run (hLayout : Layout sb) (h : Clean sb f inum content off s) {p : Nat}
    (hBusy : s.pc p ≠ .idle) :
    ∃ s',
      step sb inum s (.run p) = some s' ∧ (s'.failed = true ∨ Clean sb f inum content off s') := by
  dsimp only [step]
  cases hPc : s.pc p with
  | idle => exact absurd hPc hBusy
  | write c src n i =>
    dsimp only
    by_cases hLt : (i : Int) < n
    · rw [if_pos hLt]
      rcases h.ordered.writeSection hLayout p c src n i with ⟨s', hStep, hFail | ⟨hOrd, t, hEq⟩⟩
      · exact ⟨s', hStep, Or.inl hFail⟩
      · refine ⟨s', hStep, Or.inr ⟨hOrd, ?_⟩⟩
        rw [hEq]
        exact h.counted.written hPc t
    rw [if_neg hLt]
    refine ⟨_, rfl, Or.inr ⟨?_, ?_⟩⟩
    · exact h.ordered.congr rfl rfl rfl rfl
    rcases h.counted.active p c src n i hPc
      with ⟨hLe, hSent⟩
    refine h.counted.ret (k := .write src n) (by rw [hPc]; rfl) ?_
    intro src' n' hEq
    cases hEq
    have hAll : i = n.toNat := by omega
    refine ⟨?_, by rw [hSent, hAll]⟩
    split
    · rw [if_pos (by omega)]
    · rw [if_neg (by omega)]
  | read c dst n =>
    dsimp only
    rcases h.ordered.readSection hLayout p c dst n with ⟨s', hStep, hFail | ⟨hOrd, bytes, hEq⟩⟩
    · exact ⟨s', hStep, Or.inl hFail⟩
    refine ⟨s', hStep, Or.inr ⟨hOrd, ?_⟩⟩
    rw [hEq]
    refine (h.counted.heard hPc _ _ rfl).ret (k := .read dst n) ?_ ?_
    · change (s.pc p).issued = _
      rw [hPc]
      rfl
    · intro src m hNot
      cases hNot

theorem Clean.step (hLayout : Layout sb) (h : Clean sb f inum content off s) {a : Action}
    (hStep : step sb inum s a = some s') (hOk : s'.failed = false) :
    Clean sb f inum content off s' := by
  cases a with
  | call p k =>
    dsimp only [Sharing.step] at hStep
    cases hPc : s.pc p with
    | idle =>
      rw [hPc] at hStep
      cases hStep
      exact ⟨h.ordered.congr rfl rfl rfl rfl, h.counted.call hPc k⟩
    | write c src n i =>
      rw [hPc] at hStep
      cases hStep
    | read c dst n =>
      rw [hPc] at hStep
      cases hStep
  | run p =>
    have hBusy : s.pc p ≠ .idle := by
      intro hPc
      dsimp only [Sharing.step] at hStep
      rw [hPc] at hStep
      cases hStep
    rcases h.run hLayout hBusy with ⟨s₁, hRun, hFail | hNext⟩
    · rw [hStep] at hRun
      cases hRun
      rw [hOk] at hFail
      cases hFail
    · rw [hStep] at hRun
      cases hRun
      exact hNext

theorem failed_of_step {a : Action} (hStep : step sb inum s a = some s') (hFailed : s.failed = true) :
    s'.failed = true := by
  cases a with
  | call p k =>
    dsimp only [step] at hStep
    split at hStep
    · cases hStep
      exact hFailed
    · cases hStep
  | run p =>
    dsimp only [step] at hStep
    split at hStep
    · cases hStep
    · split at hStep
      · dsimp only [writeSection] at hStep
        split at hStep
        · cases hStep
        · split at hStep
          · cases hStep
            rfl
          · cases hStep
            exact hFailed
      · cases hStep
        exact hFailed
    · dsimp only [readSection] at hStep
      split at hStep
      · cases hStep
      · cases hStep
        dsimp only
        rw [hFailed, Bool.true_or]

variable {disk : Disk}

theorem Clean.init (h : Consistent sb disk f) (hi : Alive sb f inum) (off : UInt32) :
    Clean sb f inum (contents disk (f inum)) off.toNat (State.init disk (f inum) off) := by
  refine ⟨⟨h.locked hi, h.holeFree inum hi, rfl, rfl, ?_, ?_⟩, ?_⟩
  · exact trivial
  · exact trivial
  refine ⟨?_, ?_, ?_, ?_, ?_, ?_, ?_⟩
  · intro p c k hp
    cases hp
  · intro p q c k l hp
    cases hp
  · intro p c src n i hp
    cases hp
  · intro c r src n hr
    cases hr
  · intro c k hk
    cases hk
  · intro t ht
    cases ht
  · intro c r hr
    cases hr

theorem Reachable.clean (hLayout : Layout sb) (h : Consistent sb disk f) (hi : Alive sb f inum)
    {off : UInt32} (hReach : Reachable sb inum (State.init disk (f inum) off) s)
    (hOk : s.failed = false) : Clean sb f inum (contents disk (f inum)) off.toNat s := by
  induction hReach with
  | init => exact Clean.init h hi off
  | step a _ hStep ih =>
    refine (ih ?_).step hLayout hStep hOk
    by_contra hFailed
    rw [Bool.not_eq_false] at hFailed
    rw [failed_of_step hStep hFailed] at hOk
    cases hOk

/-
  Processes that share an open file, in any interleaving of
  their sections: the transfers stand one after the other,
  the offset has moved by all bytes transferred, the file is
  the old one overwritten by the writes in their ranges, each
  read has the bytes of its range, and each `filewrite` has
  sent its data in order, all of it once it has returned.
  No section is stuck.
-/
theorem transfers_consecutive
    (hLayout : Layout sb)
    (h : Consistent sb disk f)
    (hi : Alive sb f inum)
    {off : UInt32}
    (hReach : Reachable sb inum (State.init disk (f inum) off) s)
    (hOk : s.failed = false) :
    Consecutive off.toNat s.transfers ∧
    s.off.toNat = off.toNat + moved s.transfers ∧
    contents s.disk s.ip = applied (contents disk (f inum)) s.transfers ∧
    Faithful (contents disk (f inum)) s.transfers ∧
    (∀ c src n,
      s.calls[c]? = some (.write src n) →
      ∃ i,
        i ≤ n.toNat ∧
        sent s.transfers c = src.bytes 0 i ∧
        ∀ r, (c, r) ∈ s.returned → i = n.toNat ∧ r = if 0 ≤ n then n else -1) ∧
    ∀ p, s.pc p ≠ .idle → ∃ s', step sb inum s (.run p) = some s' := by
  have hClean := hReach.clean hLayout h hi hOk
  have hOrd := hClean.ordered
  refine ⟨hOrd.starts, hOrd.offset, hOrd.overwritten, hOrd.reads, ?_, ?_⟩
  · intro c src n hCall
    rcases hClean.counted.known c _ hCall with ⟨p, hp⟩ | ⟨r, hr⟩
    · rcases Pc.eq_write_of_issued hp with ⟨i, hPc⟩
      rcases hClean.counted.active p c src n i hPc with ⟨hLe, hSent⟩
      refine ⟨i, hLe, hSent, ?_⟩
      intro r hr
      exact absurd hr ((hClean.counted.issued p c _ hp).2 r)
    · rcases hClean.counted.finished c r src n hr hCall
        with ⟨_, hSent⟩
      refine ⟨n.toNat, Nat.le_refl _, hSent, ?_⟩
      intro r' hr'
      exact ⟨rfl, (hClean.counted.finished c r' src n hr' hCall).1⟩
  · intro p hBusy
    rcases hClean.run hLayout hBusy with ⟨s', hStep, _⟩
    exact ⟨s', hStep⟩

end

/- A sequence of actions. -/
def run (sb : Superblock) (inum : Nat) (s : State) : List Action → Option State
  | [] => some s
  | a :: as => (step sb inum s a).bind (run sb inum · as)

theorem Reachable.run {sb : Superblock} {inum : Nat} {init s s' : State} {as : List Action}
    (h : Reachable sb inum init s) (hRun : run sb inum s as = some s') :
    Reachable sb inum init s' := by
  induction as generalizing s with
  | nil =>
    cases hRun
    exact h
  | cons a as ih =>
    rcases Option.bind_eq_some_iff.mp hRun with ⟨t, hStep, hRest⟩
    exact ih (h.step a hStep) hRest

/- Two writers of one byte each and a reader after them. -/
def twoWriters : Option State :=
  run smallSuperblock 1 (State.init smallDisk (smallInodes 1) 0)
    [.call 0 (.write (Src.kernel [7]) 1), .call 1 (.write (Src.kernel [8]) 1),
      .run 1, .run 0, .call 2 (.read Dst.kernel 1), .run 2, .run 0]

theorem transfers_consecutive_twoWriters :
    ∃ s, twoWriters = some s ∧ s.failed = false ∧ s.off.toNat = 2 ∧ Consecutive 0 s.transfers ∧
      contents s.disk s.ip = applied (contents smallDisk (smallInodes 1)) s.transfers := by
  have hRun : twoWriters.map (fun s => (s.failed, s.off.toNat)) = some (false, 2) := by
    decide +kernel
  rcases Option.map_eq_some_iff.mp hRun with ⟨s, hs, hEq⟩
  rw [Prod.mk.injEq] at hEq
  have hAll :=
    transfers_consecutive small_layout small_consistent (by decide) (Reachable.init.run hs) hEq.1
  exact ⟨s, hs, hEq.1, hEq.2, hAll.1, hAll.2.2.1⟩

end Xv6.Fs.Sharing

import Xv6.Fs.Itable
import Xv6.Fs.Writing

/-
  A directory as a finite map (`fs.c`).

  The contents of a directory are read as entries of 16
  bytes. The live ones give a partial map from names, cut to
  `DIRSIZ` bytes, to inode numbers. Writing one entry changes
  the map at one name, whether the entry is new, reused or
  cleared.

  Main declarations:
    * `dirlookup_eq`
    * `wp_dirlink`
    * `directory_is_map`
-/

namespace Xv6.Fs

open Function (update update_self update_of_ne update_eq_self)

open Prog

---- Entries

/- Entry `j` of a directory with contents `c`. -/
def direntAt (c : List UInt8) (j : Nat) : Dirent := .ofBytes ((c.drop (DIRENT * j)).take DIRENT)

/- Entry `j` is live and names inode `a`. -/
@[mk_iff]
structure Binds (c key : List UInt8) (j : Nat) (a : UInt16) : Prop where
  lt : DIRENT * j < c.length
  inum : (direntAt c j).inum = a
  live : a ≠ 0
  key : (direntAt c j).key = key

/- Whole entries, and no two live ones with one name. -/
structure WellFormed (c : List UInt8) : Prop where
  whole : c.length % DIRENT = 0
  once : ∀ key i j a b, Binds c key i a → Binds c key j b → i = j

/- The first live entry of a name. -/
def entryOf (c key : List UInt8) : Option Dirent :=
  ((List.range (c.length / DIRENT)).map (direntAt c)).find? (fun de =>
    decide (de.inum ≠ 0 ∧ de.key = key))

/- The partial map of a directory. -/
def dirmap (c key : List UInt8) : Option UInt16 := (entryOf c key).map Dirent.inum

theorem DIRENT_eq : DIRENT = 16 := rfl

section

variable {c key : List UInt8} {i j : Nat} {a b : UInt16} {de : Dirent}

theorem WellFormed.dirmap_eq_some_iff (h : WellFormed c) :
    dirmap c key = some a ↔ ∃ j, Binds c key j a := by
  unfold dirmap
  have hFound : ∀ de, entryOf c key = some de → ∃ i, Binds c key i de.inum := by
    intro de hFind
    have hTest := List.find?_some hFind
    rw [decide_eq_true_iff] at hTest
    rcases List.mem_map.mp (List.mem_of_find?_eq_some hFind) with ⟨i, hi, rfl⟩
    rw [List.mem_range] at hi
    refine ⟨i, ?_, rfl, hTest.1, hTest.2⟩
    rw [DIRENT_eq] at *
    omega
  constructor
  · intro hMap
    rcases Option.map_eq_some_iff.mp hMap with ⟨de, hFind, rfl⟩
    exact hFound de hFind
  rintro ⟨j, hBinds⟩
  cases hFind : entryOf c key with
  | none =>
    have hMem : direntAt c j ∈ (List.range (c.length / DIRENT)).map (direntAt c) := by
      refine List.mem_map_of_mem (List.mem_range.mpr ?_)
      have hLt := hBinds.lt
      have hWhole := h.whole
      rw [DIRENT_eq] at *
      omega
    refine absurd ?_ (List.find?_eq_none.mp hFind _ hMem)
    exact decide_eq_true ⟨by rw [hBinds.inum]; exact hBinds.live, hBinds.key⟩
  | some de =>
    rcases hFound de hFind with ⟨i, hi⟩
    have hSame := h.once key i j _ _ hi hBinds
    rw [Option.map_some, ← hi.inum, hSame, hBinds.inum]

theorem direntAt_replaced (hi : DIRENT * i ≤ c.length) (de : Dirent) (j : Nat) :
    direntAt (replaced c (DIRENT * i) de.bytes) j = if j = i then de else direntAt c j := by
  unfold direntAt
  split
  · rename_i hEq
    have hTake : (c.take (DIRENT * i)).length = DIRENT * i := List.length_take_of_le hi
    rw [hEq, replaced, List.append_assoc, List.drop_left' hTake,
      List.take_left' (Dirent.length_bytes de), Dirent.ofBytes_bytes]
  rename_i hNe
  congr 1
  apply List.ext_getElem?
  intro o
  rw [List.getElem?_take, List.getElem?_take, List.getElem?_drop, List.getElem?_drop,
    getElem?_replaced hi, Dirent.length_bytes]
  rw [DIRENT_eq] at *
  split
  · rw [if_neg (by omega)]
  · rfl

theorem binds_replaced (hi : DIRENT * i ≤ c.length) :
    Binds (replaced c (DIRENT * i) de.bytes) key j b ↔
      (j = i ∧ de.inum = b ∧ b ≠ 0 ∧ de.key = key) ∨ j ≠ i ∧ Binds c key j b := by
  rw [binds_iff, binds_iff, direntAt_replaced hi, length_replaced hi, Dirent.length_bytes]
  by_cases hj : j = i
  · have hIn : DIRENT * i < max c.length (DIRENT * i + DIRENT) := by
      rw [DIRENT_eq]
      omega
    simp [hj, hIn]
  · have hOld : DIRENT * j < max c.length (DIRENT * i + DIRENT) ↔ DIRENT * j < c.length := by
      rw [DIRENT_eq] at *
      omega
    simp [hj, hOld]

/-
  An entry is written that is dead or the only one of the
  name `key`, with a new value for this name.
-/
theorem WellFormed.replaced (h : WellFormed c) (hi : DIRENT * i ≤ c.length)
    (hMine : ∀ key' b, Binds c key' i b → key' = key) (hOnly : ∀ j b, Binds c key j b → j = i)
    (hKey : de.inum ≠ 0 → de.key = key) :
    WellFormed (replaced c (DIRENT * i) de.bytes) ∧
      dirmap (Fs.replaced c (DIRENT * i) de.bytes) =
        update (dirmap c) key (if de.inum = 0 then none else some de.inum) := by
  have hNew : ∀ key' j b, Binds (Fs.replaced c (DIRENT * i) de.bytes) key' j b ↔
      key' = key ∧ j = i ∧ de.inum = b ∧ b ≠ 0 ∨ key' ≠ key ∧ Binds c key' j b := by
    intro key' j b
    rw [binds_replaced hi]
    constructor
    · rintro (⟨hj, hInum, hLive, hName⟩ | ⟨hj, hOld⟩)
      · exact .inl ⟨hName.symm.trans (hKey (hInum ▸ hLive)), hj, hInum, hLive⟩
      · exact .inr ⟨fun hk => hj (hOnly j b (hk ▸ hOld)), hOld⟩
    · rintro (⟨hk, hj, hInum, hLive⟩ | ⟨hk, hOld⟩)
      · exact .inl ⟨hj, hInum, hLive, hk ▸ hKey (hInum ▸ hLive)⟩
      · exact .inr ⟨fun hj => hk (hMine key' b (hj ▸ hOld)), hOld⟩
  have hFormed : WellFormed (Fs.replaced c (DIRENT * i) de.bytes) := by
    refine ⟨?_, ?_⟩
    · have hWhole := h.whole
      rw [length_replaced hi, Dirent.length_bytes]
      rw [DIRENT_eq] at *
      omega
    intro key' j l a b hj hl
    rw [hNew] at hj hl
    rcases hj with ⟨hk, hj, _⟩ | ⟨hk, hj⟩
    · rcases hl with ⟨_, hl, _⟩ | ⟨hNe, _⟩
      · rw [hj, hl]
      · exact absurd hk hNe
    · rcases hl with ⟨hEq, _⟩ | ⟨_, hl⟩
      · exact absurd hEq hk
      · exact h.once key' j l a b hj hl
  refine ⟨hFormed, ?_⟩
  funext key'
  apply Option.ext
  intro b
  rw [hFormed.dirmap_eq_some_iff]
  by_cases hk : key' = key
  · rw [hk, update_self]
    split
    · rename_i hDead
      simp [hNew, hDead, eq_comm]
    · rename_i hLive
      simp only [hNew, true_and, ne_eq, not_true_eq_false, false_and, or_false, exists_eq_left,
        Option.some.injEq]
      exact ⟨And.left, fun hEq => ⟨hEq, hEq ▸ hLive⟩⟩
  · rw [update_of_ne hk, h.dirmap_eq_some_iff]
    simp [hNew, hk]

end

---- Reading

/- The bytes of the directory in slot `k`. -/
def State.bytes (s : State) (k : Nat) : List UInt8 := contents s.disk (s.inode k).copy

/- Slot `k` has a directory of a consistent file system. -/
structure Opened (sb : Superblock) (f : Nat → Dinode) (s : State) (k : Nat) : Prop where
  consistent : Consistent sb s.disk f
  alive : Alive sb f (s.inode k).inum
  copy : (s.inode k).copy = f (s.inode k).inum
  dir : (s.inode k).copy.type = T_DIR
  formed : WellFormed (s.bytes k)

/- What a loop over the entries from `j` on finds. -/
def Scanned (c : List UInt8) (wanted : Dirent → Bool) (j : Nat) : Option (Nat × Dirent) → Prop
  | none => ∀ i, j ≤ i → DIRENT * i < c.length → wanted (direntAt c i) = false
  | some (off, de) =>
    ∃ i, off = DIRENT * i ∧ DIRENT * i < c.length ∧ de = direntAt c i ∧ wanted de = true

/-
  What `dirlink` does to the contents `c`: nothing is bound,
  or a name that was not bound is bound to `a`.
-/
def Linked (c key : List UInt8) (a : UInt16) (r : Int) (c' : List UInt8) : Prop :=
  WellFormed c' ∧
    (r = -1 ∧ dirmap c' = dirmap c ∨
      r = 0 ∧ dirmap c key = none ∧ dirmap c' = update (dirmap c) key (some a))

section

variable {sb : Superblock} {f : Nat → Dinode} {s : State} {k i j : Nat} {name : List UInt8}

theorem Opened.locked (h : Opened sb f s k) : Locked sb f (s.ip k) := by
  have hLocked := h.consistent.locked h.alive
  rw [← h.copy] at hLocked
  exact hLocked

theorem Opened.holeFree (h : Opened sb f s k) : HoleFree s.disk (s.inode k).copy := by
  rw [h.copy]
  exact h.consistent.holeFree _ h.alive

theorem State.length_bytes (s : State) (k : Nat) :
    (s.bytes k).length = (s.inode k).copy.size.toNat := length_contents ..

theorem Opened.length_lt (h : Opened sb f s k) : (s.bytes k).length ≤ MAXFILE * BSIZE := by
  rw [s.length_bytes]
  exact MappedTo.le h.holeFree

theorem toNat_offset (h : Opened sb f s k) (hi : DIRENT * i ≤ (s.bytes k).length) :
    (UInt32.ofNat (DIRENT * i)).toNat = DIRENT * i := by
  have hMax : MAXFILE * BSIZE < 2 ^ 32 := by decide
  have hLength := h.length_lt
  rw [UInt32.toNat_ofNat']
  exact Nat.mod_eq_of_lt (by omega)

theorem wp_readDirent (hLayout : Layout sb) (h : Opened sb f s k)
    (hj : DIRENT * j < (s.bytes k).length) :
    wp (readDirent sb k (DIRENT * j)) (fun r s' => r = some (direntAt (s.bytes k) j) ∧ s' = s)
      (fun _ => False) s := by
  have hMapped := h.holeFree
  have hOff := toNat_offset h (Nat.le_of_lt hj)
  have hLength := h.length_lt
  have hWhole := h.formed.whole
  have hData : readData s.disk (s.inode k).copy (UInt32.ofNat (DIRENT * j)) (UInt32.ofNat DIRENT) =
      ((s.bytes k).drop (DIRENT * j)).take DIRENT := by
    unfold readData
    rw [if_neg, hOff]
    · rfl
    · rw [add_lt_iff_wrap, gt_iff_lt, UInt32.lt_iff_toNat_lt, hOff, ← s.length_bytes]
      have hMax : MAXFILE * BSIZE < 2 ^ 31 := by decide
      have hSize : (UInt32.ofNat DIRENT).toNat = 16 := rfl
      omega
  have hFull : (((s.bytes k).drop (DIRENT * j)).take DIRENT).length = DIRENT := by
    rw [List.length_take, List.length_drop]
    rw [DIRENT_eq] at *
    omega
  unfold readDirent onIp
  rw [wp_bind, Prog.wp_within]
  refine wp_post (wp_readi hLayout h.locked .kernel (MappedTo.mono hMapped (Nat.min_le_right _ _))) ?_
  rintro r t ⟨rfl, _, hAll⟩
  have hSame : State.putIp k s (s.ip k) = s := by
    unfold State.putIp State.ip
    rw [update_eq_self]
  rw [hAll (fun _ _ => rfl), hSame]
  unfold readResult State.ip
  dsimp only
  rw [hData, hFull, if_neg (not_not_intro rfl), wp_pure]
  exact ⟨rfl, rfl⟩

theorem wp_scan (hLayout : Layout sb) (h : Opened sb f s k) (short : Fault) (wanted : Dirent → Bool)
    {fuel : Nat} (hFuel : (s.bytes k).length < DIRENT * (fuel + j)) :
    wp (scan sb k short wanted fuel (DIRENT * j))
      (fun r s' => s' = s ∧ Scanned (s.bytes k) wanted j r) (fun _ => False) s := by
  induction fuel generalizing j with
  | zero =>
    unfold scan
    rw [wp_pure]
    refine ⟨rfl, ?_⟩
    intro i hLe hLt
    rw [DIRENT_eq] at *
    omega
  | succ fuel ih =>
    unfold scan
    rw [wp_bind, wp_get, wp_ite, ← s.length_bytes]
    refine ⟨?_, ?_⟩
    · intro hLt
      rw [wp_bind]
      refine wp_post (wp_readDirent hLayout h hLt) ?_
      rintro _ _ ⟨rfl, rfl⟩
      dsimp only
      rw [wp_ite, wp_pure]
      refine ⟨fun hWanted => ⟨rfl, j, rfl, hLt, rfl, hWanted⟩, ?_⟩
      intro hNot
      have hRest := ih (j := j + 1) (by rw [DIRENT_eq] at *; omega)
      refine wp_post hRest ?_
      rintro r _ ⟨rfl, hScanned⟩
      refine ⟨rfl, ?_⟩
      cases r with
      | some x => exact hScanned
      | none =>
        intro i hLe hIn
        by_cases hEq : i = j
        · rw [hEq]
          exact Bool.not_eq_true _ ▸ hNot
        · exact hScanned i (by omega) hIn
    · intro hEnd
      rw [wp_pure]
      refine ⟨rfl, ?_⟩
      intro i hLe hLt
      rw [DIRENT_eq] at *
      omega

theorem State.rounds_lt (s : State) (k : Nat) : (s.bytes k).length < DIRENT * (s.rounds k + 0) := by
  unfold State.rounds
  rw [← s.length_bytes, DIRENT_eq]
  omega

/- `dirlookup` finds the entry of the name, if there is one. -/
theorem dirlookup_eq (hLayout : Layout sb) (h : Opened sb f s k) (name : List UInt8) :
    (∃ j a, Binds (s.bytes k) (cstr DIRSIZ name) j a ∧
      dirlookup sb k name s = (do let ip ← iget a.toNat; pure (some (ip, DIRENT * j)) : FsM _) s) ∨
    dirmap (s.bytes k) (cstr DIRSIZ name) = none ∧ dirlookup sb k name s = .ok (none, s) := by
  rcases Prog.exists_ok_of_wp (wp_scan hLayout h .dirlookupRead
    (fun de => decide (de.inum ≠ 0 ∧ namecmp name (de.name.slice 0 DIRSIZ) = 0))
    (s.rounds_lt k)) with ⟨r, s', hRun, hSame, hScanned⟩
  rw [hSame, Nat.mul_zero] at hRun
  cases r with
  | none =>
    refine .inr ⟨Option.eq_none_iff_forall_ne_some.mpr ?_, ?_⟩
    · intro a hMap
      rcases h.formed.dirmap_eq_some_iff.mp hMap with ⟨j, hBinds⟩
      refine absurd (hScanned j (Nat.zero_le j) hBinds.lt) (Bool.not_eq_false _ ▸ decide_eq_true ?_)
      rw [hBinds.inum, namecmp_name_eq_zero_iff, hBinds.key]
      exact ⟨hBinds.live, rfl⟩
    · change (if (s.inode k).copy.type ≠ T_DIR then _ else _ : FsM _) s = _
      rw [if_neg (not_not_intro h.dir), Prog.bind_of_ok hRun]
      rfl
  | some x =>
    rcases hScanned with ⟨j, hOff, hLt, hEntry, hWanted⟩
    have hTest := of_decide_eq_true hWanted
    rw [namecmp_name_eq_zero_iff] at hTest
    refine .inl ⟨j, x.2.inum, ⟨hLt, by rw [hEntry], hTest.1, by rw [← hEntry, hTest.2]⟩, ?_⟩
    change (if (s.inode k).copy.type ≠ T_DIR then _ else _ : FsM _) s = _
    rw [if_neg (not_not_intro h.dir), Prog.bind_of_ok hRun, ← hOff]

---- Writing

theorem State.bytes_putIp (s : State) (k : Nat) (t : Ip) :
    (State.putIp k s t).bytes k = contents t.disk t.ip := by
  unfold State.bytes State.putIp
  dsimp only
  rw [update_self]

/- An entry is written or not, and in any case if it is there. -/
theorem wp_writeDirent (hLayout : Layout sb) (h : Opened sb f s k) (de : Dirent)
    (hi : DIRENT * i ≤ (s.bytes k).length) :
    wp (onIp k (writei sb (.kernel de.bytes) (UInt32.ofNat (DIRENT * i)) (UInt32.ofNat DIRENT)))
      (fun r s' => r = DIRENT ∧ s'.bytes k = replaced (s.bytes k) (DIRENT * i) de.bytes ∨
        r ≠ DIRENT ∧ s'.bytes k = s.bytes k ∧ DIRENT * i = (s.bytes k).length)
      (fun _ => False) s := by
  have hOff := toNat_offset h hi
  have hCount : (UInt32.ofNat DIRENT).toNat = DIRENT := rfl
  have hFree := h.holeFree
  have hMax := h.length_lt
  have hWhole := h.formed.whole
  have hNext : DIRENT * i ≠ (s.bytes k).length → DIRENT * i + DIRENT ≤ (s.bytes k).length := by
    rw [DIRENT_eq] at *
    omega
  have hTotal : (Src.kernel de.bytes).Total := fun _ _ => rfl
  unfold onIp
  rw [Prog.wp_within]
  refine wp_post (wp_writei hLayout h.locked _ _) ?_
  intro r t hPost
  rw [State.bytes_putIp]
  rw [hOff, hCount] at hPost
  rcases hPost with ⟨rfl, rfl, hOut⟩ | ⟨hLe, tot, rfl, hWrote⟩
  · refine .inr ⟨by decide, rfl, ?_⟩
    by_contra hNe
    have hRoom := hNext hNe
    rcases hOut with hPast | hLarge
    · rw [gt_iff_lt, UInt32.lt_iff_toNat_lt, hOff] at hPast
      exact absurd (s.length_bytes k ▸ hi) (Nat.not_le_of_lt hPast)
    · omega
  have hBytes := hWrote.contents (.inr hTotal) hLe hFree
  have hSingle : DIRENT ≤ BSIZE - DIRENT * i % BSIZE := by
    rw [DIRENT_eq]
    unfold BSIZE
    omega
  rcases hWrote.single hSingle with rfl | rfl
  · refine .inr ⟨by decide, ?_, ?_⟩
    · rw [hBytes]
      simp [replaced, Src.bytes, State.bytes, State.ip]
    · by_contra hNe
      have hMapped : MappedTo s.disk (s.inode k).copy (DIRENT * i + DIRENT) :=
        MappedTo.mono hFree (s.length_bytes k ▸ hNext hNe)
      exact absurd (hWrote.full hTotal hMapped) (by decide)
  · refine .inl ⟨rfl, ?_⟩
    rw [hBytes, bytes_kernel List.drop_zero.symm (by rw [Dirent.length_bytes]),
      List.take_of_length_le (by rw [Dirent.length_bytes])]
    rfl

theorem State.bytes_update {ip : Nat} {x : Inode} (hCopy : x.copy = (s.inode ip).copy) (k : Nat) :
    State.bytes { s with inode := update s.inode ip x } k = s.bytes k := by
  unfold State.bytes
  dsimp only
  by_cases hk : k = ip
  · rw [hk, update_self, hCopy]
  · rw [update_of_ne hk]

/- A reference that was just taken is not the last one to a valid copy. -/
theorem wp_iget (inum : Nat) :
    wp (iget inum) (fun ip s' => ∃ x, s' = { s with inode := update s.inode ip x } ∧
        x.copy = (s.inode ip).copy ∧ (x.ref = 1 → x.valid = false))
      (fun e => e = .igetNoInodes) s := by
  unfold iget setInode
  rw [wp_bind, wp_get]
  cases hFind : (List.range NINODE).find? (fun k =>
      decide (0 < (s.inode k).ref ∧ (s.inode k).inum = inum)) with
  | some ip =>
    have hTest := List.find?_some hFind
    rw [decide_eq_true_iff] at hTest
    dsimp only
    rw [wp_bind, wp_modify, wp_pure]
    refine ⟨_, rfl, rfl, ?_⟩
    intro hOne
    dsimp only at hOne
    omega
  | none =>
    dsimp only
    cases (List.range NINODE).find? (fun k => decide ((s.inode k).ref = 0)) with
    | none =>
      dsimp only
      rw [Prog.wp_throw]
    | some ip =>
      dsimp only
      rw [wp_bind, wp_modify, wp_pure]
      exact ⟨_, rfl, rfl, fun _ => rfl⟩

theorem wp_iput {E : Fault → Prop} (ip : Nat)
    (hHeld : (s.inode ip).ref = 1 → (s.inode ip).valid = false) :
    wp (iput sb ip) (fun _ s' => ∀ k, s'.bytes k = s.bytes k) E s := by
  unfold iput setInode
  rw [wp_bind, wp_get, if_neg]
  · dsimp only
    rw [wp_modify]
    exact State.bytes_update rfl
  · rintro ⟨hOne, hValid, _⟩
    rw [hHeld hOne] at hValid
    cases hValid

theorem wp_enterName (hLayout : Layout sb) (h : Opened sb f s k) {a : UInt16} (hLive : a ≠ 0)
    (hNone : dirmap (s.bytes k) (cstr DIRSIZ name) = none) (hi : DIRENT * i ≤ (s.bytes k).length)
    (hDead : DIRENT * i < (s.bytes k).length → (direntAt (s.bytes k) i).inum = 0) :
    wp (do
        let r ← onIp k (writei sb (.kernel (Dirent.make a name).bytes) (UInt32.ofNat (DIRENT * i))
          (UInt32.ofNat DIRENT))
        if r ≠ DIRENT then pure (-1) else pure 0)
      (fun r s' => Linked (s.bytes k) (cstr DIRSIZ name) a r (s'.bytes k))
      (fun e => e = .igetNoInodes) s := by
  rw [wp_bind]
  refine wp_mono (wp_writeDirent hLayout h _ hi) ?_ (fun e he => he.elim)
  rintro r s' (⟨rfl, hBytes⟩ | ⟨hShort, hBytes, _⟩)
  · have hFree : ∀ key b, ¬ Binds (s.bytes k) key i b := by
      intro key b hBinds
      exact hBinds.live (hBinds.inum.symm.trans (hDead hBinds.lt))
    have hNew := @WellFormed.replaced _ (cstr DIRSIZ name) i (.make a name) h.formed hi
      (fun _ b hBinds => absurd hBinds (hFree _ b))
      (fun j b hBinds => absurd (h.formed.dirmap_eq_some_iff.mpr ⟨j, hBinds⟩) (by simp [hNone]))
      (fun _ => Dirent.key_make ..)
    have hSome : (if (Dirent.make a name).inum = 0 then none else some (Dirent.make a name).inum) =
        some a := if_neg hLive
    rw [if_neg (not_not_intro rfl), wp_pure, hBytes]
    exact ⟨hNew.1, .inr ⟨rfl, hNone, hSome ▸ hNew.2⟩⟩
  · rw [if_pos hShort, wp_pure, hBytes]
    exact ⟨h.formed, .inl ⟨rfl, rfl⟩⟩

theorem wp_dirlink (hLayout : Layout sb) (h : Opened sb f s k) {inum : Nat} (hPos : 0 < inum)
    (hWord : inum < 2 ^ 16) :
    wp (dirlink sb k name inum)
      (fun r s' => Linked (s.bytes k) (cstr DIRSIZ name) (UInt16.ofNat inum) r (s'.bytes k))
      (fun e => e = .igetNoInodes) s := by
  unfold dirlink
  rw [wp_bind]
  rcases dirlookup_eq hLayout h name with ⟨j, a, _, hRun⟩ | ⟨hNone, hRun⟩
  · rw [wp_congr hRun, wp_bind]
    refine wp_post (wp_iget _) ?_
    rintro ip _ ⟨x, rfl, hCopy, hHeld⟩
    rw [wp_pure, wp_bind]
    refine wp_post (wp_iput ip (by dsimp only; rw [update_self]; exact hHeld)) ?_
    intro _ s' hBytes
    rw [wp_pure, hBytes, State.bytes_update hCopy]
    exact ⟨h.formed, .inl ⟨rfl, rfl⟩⟩
  have hLive : UInt16.ofNat inum ≠ 0 := by
    intro hZero
    have hNat := congrArg UInt16.toNat hZero
    rw [UInt16.toNat_ofNat', Nat.mod_eq_of_lt hWord] at hNat
    exact absurd hNat (Nat.ne_of_gt hPos)
  rw [wp_congr (y := pure none) hRun, wp_pure, wp_bind, wp_get, wp_bind]
  refine wp_mono (wp_scan hLayout h _ _ (s.rounds_lt k)) ?_ (fun e he => he.elim)
  rintro r t ⟨hSame, hScanned⟩
  rw [hSame]
  cases r with
  | none =>
    have hWhole := h.formed.whole
    have hEnd : ((s.inode k).copy.size.toNat + (DIRENT - 1)) / DIRENT * DIRENT =
        DIRENT * ((s.bytes k).length / DIRENT) ∧
        DIRENT * ((s.bytes k).length / DIRENT) = (s.bytes k).length := by
      rw [← s.length_bytes]
      rw [DIRENT_eq] at *
      omega
    dsimp only
    rw [hEnd.1]
    exact wp_enterName hLayout h hLive hNone (Nat.le_of_eq hEnd.2)
      (fun hLt => absurd hEnd.2 (Nat.ne_of_lt hLt))
  | some x =>
    rcases hScanned with ⟨i, hOff, hLt, hEntry, hWanted⟩
    dsimp only
    rw [hOff]
    exact wp_enterName hLayout h hLive hNone (Nat.le_of_lt hLt)
      (fun _ => hEntry ▸ of_decide_eq_true hWanted)

/-
  A directory behaves as a finite map. `dirlookup` returns
  what the name, cut to `DIRSIZ` bytes, is mapped to, with
  the offset of its entry; `dirlink` adds one binding for a
  name without one, or changes none; clearing the entry of a
  name removes its binding.
-/
theorem directory_is_map
    (hLayout : Layout sb)
    (h : Opened sb f s k)
    (name : List UInt8) :
    (∀ a,
      dirmap (s.bytes k) (cstr DIRSIZ name) = some a →
      ∃ j,
        Binds (s.bytes k) (cstr DIRSIZ name) j a ∧
        dirlookup sb k name s =
          (do let ip ← iget a.toNat; pure (some (ip, DIRENT * j)) : FsM _) s) ∧
    (dirmap (s.bytes k) (cstr DIRSIZ name) = none →
      dirlookup sb k name s = .ok (none, s)) ∧
    (∀ inum,
      0 < inum →
      inum < 2 ^ 16 →
      wp (dirlink sb k name inum)
        (fun r s' => Linked (s.bytes k) (cstr DIRSIZ name) (UInt16.ofNat inum) r (s'.bytes k))
        (fun e => e = .igetNoInodes) s) ∧
    ∀ j a,
      Binds (s.bytes k) (cstr DIRSIZ name) j a →
      wp (onIp k (writei sb (.kernel Dirent.zero.bytes) (UInt32.ofNat (DIRENT * j))
          (UInt32.ofNat DIRENT)))
        (fun r s' =>
          r = DIRENT ∧
          WellFormed (s'.bytes k) ∧
          dirmap (s'.bytes k) = update (dirmap (s.bytes k)) (cstr DIRSIZ name) none)
        (fun _ => False) s := by
  have hBound : ∀ j a, Binds (s.bytes k) (cstr DIRSIZ name) j a →
      dirmap (s.bytes k) (cstr DIRSIZ name) = some a :=
    fun j a hBinds => h.formed.dirmap_eq_some_iff.mpr ⟨j, hBinds⟩
  refine ⟨?_, ?_, fun inum hPos hWord => wp_dirlink hLayout h hPos hWord, ?_⟩
  · intro a hMap
    rcases dirlookup_eq hLayout h name with ⟨j, b, hBinds, hRun⟩ | ⟨hNone, _⟩
    · rw [hBound j b hBinds, Option.some.injEq] at hMap
      exact ⟨j, hMap ▸ hBinds, hMap ▸ hRun⟩
    · rw [hNone] at hMap
      cases hMap
  · intro hNone
    rcases dirlookup_eq hLayout h name with ⟨j, b, hBinds, _⟩ | ⟨_, hRun⟩
    · rw [hBound j b hBinds] at hNone
      cases hNone
    · exact hRun
  · intro j a hBinds
    refine wp_post (wp_writeDirent hLayout h .zero (Nat.le_of_lt hBinds.lt)) ?_
    rintro r s' (⟨hAll, hBytes⟩ | ⟨_, _, hEnd⟩)
    · have hNew := @WellFormed.replaced _ (cstr DIRSIZ name) j .zero h.formed (Nat.le_of_lt hBinds.lt)
        (fun _ _ hOther => hOther.key.symm.trans hBinds.key)
        (fun l b hOther => h.formed.once _ l j b a hOther hBinds) (fun hNe => absurd rfl hNe)
      rw [hBytes]
      exact ⟨hAll, hNew⟩
    · exact absurd hEnd (Nat.ne_of_lt hBinds.lt)

end

/- A directory in the free inode of the small disk. -/
def smallDir : Dinode := { Dinode.zero with type := T_DIR }

/- Its one entry has the name "a" for inode 1. -/
def smallEntry : Ip :=
  written (Dirent.make 1 [97]).bytes ⟨putDinode smallSuperblock smallDisk 0 smallDir, 0, smallDir⟩

def smallDirectory : State where
  disk := smallEntry.disk
  inode k := if k = 0 then ⟨0, 1, true, true, smallEntry.ip⟩ else ⟨0, 0, false, false, .zero⟩
  outstanding := 1

theorem smallDirectory_opened :
    Opened smallSuperblock (update (update smallInodes 0 smallDir) 0 smallEntry.ip)
      smallDirectory 0 := by
  have hClaimed := (small_consistent.claim (i := 0) (d := smallDir) small_layout (by decide) rfl
    (by simp [Dinode.addr, smallDir, Dinode.zero]) rfl).2
  have hRun := writei_written (Dirent.make 1 [97]).bytes
    ⟨putDinode smallSuperblock smallDisk 0 smallDir, 0, smallDir⟩ (by decide +kernel)
  have hWritten := wp_of_eq_ok
    (writei_refines small_layout hClaimed (i := 0) (by decide) _ _ _) hRun
  have hLength : (smallDirectory.bytes 0).length = 16 := by decide +kernel
  refine ⟨hWritten.refined.consistent, ⟨by decide, by decide +kernel⟩,
    (update_self 0 smallEntry.ip (update smallInodes 0 smallDir)).symm, by decide +kernel,
    ⟨by rw [hLength]; rfl, ?_⟩⟩
  intro key i j a b hi hj
  have hi' := hi.lt
  have hj' := hj.lt
  rw [hLength, DIRENT_eq] at hi' hj'
  omega

/- The name is found: the entry is the first one. -/
theorem directory_is_map_small :
    ∃ s', dirlookup smallSuperblock 0 [97] smallDirectory = .ok (some (1, 0), s') := by
  have hMap : dirmap (smallDirectory.bytes 0) (cstr DIRSIZ [97]) = some 1 := by decide +kernel
  have hLength : (smallDirectory.bytes 0).length = 16 := by decide +kernel
  rcases (directory_is_map small_layout smallDirectory_opened [97]).1 1 hMap with
    ⟨j, hBinds, hRun⟩
  have hFirst : j = 0 := by
    have hLt := hBinds.lt
    rw [hLength, DIRENT_eq] at hLt
    omega
  rw [hRun, hFirst]
  exact ⟨_, rfl⟩

end Xv6.Fs

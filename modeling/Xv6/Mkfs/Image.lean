import Xv6.Mkfs.Append

/-
  The image that `mkfs` writes.

  While files are added, inode `i + 1` holds the bytes that
  were appended to it (`Built`), and the counter of blocks
  gives the blocks that these bytes need. In the end the size
  of the root directory is rounded up, which leaves a hole if
  the entries fill their last block.

  Main declarations:
    * `wp_main`
-/

namespace Xv6.Mkfs

open Prog

open Fs

---- Files Of The Image

/- The type of inode `i`: the root directory is the first. -/
def stamp (i : Nat) : UInt16 := if i = ROOTINO then T_DIR else T_FILE

/- Inode `i` holds the bytes `c`. -/
structure Holds (disk : Disk) (i : Nat) (c : List UInt8) : Prop where
  type : (dinode sb disk i).type = stamp i
  nlink : (dinode sb disk i).nlink = 1
  contents : contents disk (dinode sb disk i) = c
  filled : Filled disk (dinode sb disk i) c.length

/- The blocks of some files. -/
def total (cs : List (List UInt8)) : Nat := (cs.map fun c => blocksFor c.length).sum

/- The files of the image so far, the root directory first. -/
structure Built (img : Img) (cs : List (List UInt8)) : Prop where
  sound : Sound img
  consistent : Fs.Consistent sb (shadow img) (dinode sb (shadow img))
  freeinode : img.freeinode = cs.length + 1
  freeblock : img.freeblock = nmeta + total cs
  holds : ∀ i c, cs[i]? = some c → Holds (shadow img) (i + 1) c
  free : ∀ i, i < NINODES → i = 0 ∨ cs.length < i → dinode sb (shadow img) i = Dinode.zero

theorem stamp_ne_zero (i : Nat) : stamp i ≠ 0 := by
  unfold stamp
  split
  · decide
  · decide

theorem total_append (cs ds : List (List UInt8)) : total (cs ++ ds) = total cs + total ds := by
  unfold total
  rw [List.map_append, List.sum_append]

theorem total_cons (c : List UInt8) (cs : List (List UInt8)) :
    total (c :: cs) = blocksFor c.length + total cs := by
  unfold total
  rw [List.map_cons, List.sum_cons]

theorem total_set {cs : List (List UInt8)} {i : Nat} {c : List UInt8} (h : cs[i]? = some c)
    (d : List UInt8) : total (cs.set i d) + blocksFor c.length = total cs + blocksFor d.length := by
  induction cs generalizing i with
  | nil => simp at h
  | cons e cs ih =>
    cases i with
    | zero =>
      rw [List.getElem?_cons_zero] at h
      cases h
      rw [List.set_cons_zero, total_cons, total_cons]
      omega
    | succ i =>
      rw [List.getElem?_cons_succ] at h
      have hRest := ih h
      rw [List.set_cons_succ, total_cons, total_cons]
      omega

theorem Holds.size {disk : Disk} {i : Nat} {c : List UInt8} (h : Holds disk i c) :
    (dinode sb disk i).size.toNat = c.length := by
  rw [← length_contents disk, h.contents]

theorem Holds.of_others {disk disk' : Disk} {i j : Nat} {c : List UInt8}
    (hConsistent : Fs.Consistent sb disk (dinode sb disk))
    (hOthers : Others sb (dinode sb disk) i disk disk') (hj : j < NINODES) (hNe : j ≠ i)
    (h : Holds disk j c) : Holds disk' j c := by
  have hAlive : Alive sb (dinode sb disk) j := by
    refine ⟨hj, ?_⟩
    rw [h.type]
    exact stamp_ne_zero j
  have hSame := hOthers.dinodes j hj hNe
  refine ⟨?_, ?_, ?_, ?_⟩
  · rw [hSame]
    exact h.type
  · rw [hSame]
    exact h.nlink
  · rw [hSame, hOthers.contents hAlive hNe (hConsistent.holeFree j hAlive)]
    exact h.contents
  · rw [hSame]
    exact h.filled.congr fun k => hOthers.slot hAlive hNe k

variable {img : Img} {cs : List (List UInt8)}

theorem inum_lt (hBound : cs.length < NINODES) {i : Nat} {c : List UInt8} (hc : cs[i]? = some c) :
    i + 1 < NINODES := by
  have hLt := (List.getElem?_eq_some_iff.mp hc).1
  omega

theorem Built.alive (h : Built img cs) (hBound : cs.length < NINODES) {i : Nat} {c : List UInt8}
    (hc : cs[i]? = some c) : Alive sb (dinode sb (shadow img)) (i + 1) := by
  refine ⟨inum_lt hBound hc, ?_⟩
  rw [(h.holds i c hc).type]
  exact stamp_ne_zero _

theorem replaced_length (c p : List UInt8) : replaced c c.length p = c ++ p := by
  unfold replaced
  rw [List.take_length, List.drop_eq_nil_of_le (by omega), List.append_nil]

/- Bytes are appended to a file of the image. -/
theorem Built.iappend (h : Built img cs) (hBound : cs.length < NINODES) {i : Nat} {c : List UInt8}
    (hc : cs[i]? = some c) (p : List UInt8) :
    wp (iappend (i + 1) p) (fun _ img' => Built img' (cs.set i (c ++ p))) (fun _ =>
        (c ++ p).length ≤ MAXFILE * BSIZE → FSSIZE < nmeta + total (cs.set i (c ++ p)))
      img := by
  have hHolds := h.holds i c hc
  have hSize := hHolds.size
  have hAlive := h.alive hBound hc
  have hFree := h.consistent.holeFree _ hAlive
  have hTotal := total_set hc (c ++ p)
  have hCount := h.freeblock
  rw [List.length_append] at hTotal ⊢
  apply wp_mono
    (wp_iappend (h.consistent.locked hAlive) rfl h.sound (by rw [hSize]; exact hHolds.filled) p)
  · rintro _ img' ⟨din', hAppended⟩
    have hWrote := hAppended.wrote
    have hOthers : Others sb (dinode sb (shadow img)) (i + 1) (shadow img) (shadow img') :=
      hWrote.others
    have hUpdated := hWrote.updated
    have hIp : dinode sb (shadow img') (i + 1) = din' := hUpdated
    have hFree' := hWrote.holeFree hFree
    have hFreeblock := hAppended.freeblock
    rw [hSize] at hFreeblock
    refine ⟨hAppended.sound,
      h.consistent.settle rfl hWrote.locked hOthers hFree' hUpdated, ?_, by omega, ?_, ?_⟩
    · rw [hAppended.freeinode, h.freeinode, List.length_set]
    · intro j d hd
      rw [List.getElem?_set] at hd
      split at hd
      · rename_i hEq
        split at hd
        · cases hd
          rw [← hEq]
          rcases hWrote.fields with ⟨addrs, size, hFields⟩
          have hFields' : din' = { dinode sb (shadow img) (i + 1) with
              size := size
              addrs := addrs } :=
            hFields
          refine ⟨?_, ?_, ?_, ?_⟩
          · rw [hIp, hFields']
            exact hHolds.type
          · rw [hIp, hFields']
            exact hHolds.nlink
          · have hContents :=
              hWrote.contents (.inl rfl) (Nat.le_refl _) hFree
            have hOld : contents (ipOf img (i + 1) (dinode sb (shadow img) (i + 1))).disk
                (ipOf img (i + 1) (dinode sb (shadow img) (i + 1))).ip =
                c :=
              hHolds.contents
            rw [hOld, hSize, replaced_length,
              bytes_kernel (List.drop_zero).symm (Nat.le_refl _), List.take_length] at hContents
            rw [hIp]
            exact hContents
          · rw [hIp, List.length_append, ← hSize]
            exact hAppended.filled
        · cases hd
      · rename_i hEq
        exact (h.holds j d hd).of_others h.consistent hOthers (inum_lt hBound hd) (by omega)
    · intro j hj hOut
      rw [List.length_set] at hOut
      have hLt := (List.getElem?_eq_some_iff.mp hc).1
      rw [hOthers.dinodes j hj (by omega)]
      exact h.free j hj hOut
  · intro _ hOver hFit
    rw [hSize] at hOver
    have hMore := hOver hFit
    omega

/- An inode that `ialloc` makes. -/
def newInode (type : UInt16) : Dinode := { Dinode.zero with type := type, nlink := 1 }

theorem addr_newInode (type : UInt16) (k : Nat) : (newInode type).addr k = 0 := by
  unfold Dinode.addr
  split
  · rfl
  · rfl

theorem filled_newInode (disk : Disk) (type : UInt16) : Filled disk (newInode type) 0 := by
  refine ⟨?_, ?_⟩
  · intro bn _
    rw [slot_of_addr_zero (addr_newInode type)]
    simp
  · rw [addr_newInode]
    simp

/- A new inode with no contents. -/
theorem Built.ialloc {E : Fail → Prop} (h : Built img cs) (hBound : cs.length + 1 < NINODES) :
    wp (ialloc (stamp (cs.length + 1))) (fun inum img' =>
      inum = cs.length + 1 ∧ Built img' (cs ++ [[]])) E img := by
  have hFree := h.free (cs.length + 1) hBound (Or.inr (Nat.lt_succ_self _))
  unfold Mkfs.ialloc
  rw [wp_bind, wp_get, wp_bind, wp_set, wp_bind, h.freeinode]
  have hSound : Sound { img with freeinode := cs.length + 1 + 1 } :=
    ⟨h.sound.len, h.sound.low, h.sound.high, h.sound.zeros⟩
  apply wp_winode hSound
  · have hNinodes : NINODES = 200 := rfl
    omega
  intro img' hSound' hShadow hFreeinode hFreeblock
  have hShadow' : shadow img' =
      putDinode sb (shadow img) (cs.length + 1) (newInode (stamp (cs.length + 1))) :=
    hShadow
  have hNone : (dinode sb (shadow img) (cs.length + 1)).type = 0 := by
    rw [hFree]
    rfl
  rcases h.consistent.claim layout hBound hNone (addr_newInode (stamp (cs.length + 1))) rfl with
    ⟨hOthers, hConsistent⟩
  rw [← hShadow'] at hOthers hConsistent
  have hNew : dinode sb (shadow img') (cs.length + 1) = newInode (stamp (cs.length + 1)) := by
    rw [hShadow']
    exact dinode_putDinode_same ..
  rw [wp_pure]
  refine ⟨rfl, hSound', ?_, ?_, ?_, ?_, ?_⟩
  · apply hConsistent.congr
    intro j hj
    by_cases hNe : j = cs.length + 1
    · rw [hNe, Function.update_self, hNew]
    · rw [Function.update_of_ne hNe, hOthers.dinodes j hj hNe]
  · rw [hFreeinode, List.length_append]
    rfl
  · rw [hFreeblock, total_append]
    exact h.freeblock
  · intro j c hc
    rw [List.getElem?_append] at hc
    split at hc
    · rename_i hLt
      exact (h.holds j c hc).of_others h.consistent hOthers (by omega) (by omega)
    rename_i hGe
    have hLast : j - cs.length = 0 := by
      have hLt := (List.getElem?_eq_some_iff.mp hc).1
      simp only [List.length_singleton] at hLt
      omega
    have hEq : j = cs.length := by omega
    rw [hLast] at hc
    cases hc
    rw [hEq]
    refine ⟨?_, ?_, ?_, ?_⟩
    · rw [hNew]
      rfl
    · rw [hNew]
      rfl
    · rw [hNew]
      rfl
    · rw [hNew]
      exact filled_newInode _ _
  · intro j hj hOut
    rw [List.length_append, List.length_singleton] at hOut
    rw [hOthers.dinodes j hj (by omega)]
    exact h.free j hj (by omega)

---- An Empty Image

theorem write_zero (b : Nat) :
    Disk.write (fun _ => Bytes.zero) b Bytes.zero = fun _ => Bytes.zero := by
  funext c
  unfold Disk.write
  split
  · rfl
  · rfl

theorem wp_zeroSectors {E : Fail → Prop} {img : Img} (h : img.disk = fun _ => Bytes.zero) (n : Nat) :
    wp (zeroSectors n) (fun _ img' => img' = { img with len := max img.len n }) E img := by
  induction n with
  | zero =>
    unfold zeroSectors
    rw [wp_pure, Nat.max_zero]
  | succ n ih =>
    unfold zeroSectors
    rw [wp_bind]
    refine wp_post ih ?_
    intro _ img' hEq
    rw [wp_wsect, hEq]
    have hMax : max (max img.len n) (n + 1) = max img.len (n + 1) := by omega
    rw [h, write_zero, ← h]
    dsimp only
    rw [hMax]

theorem getSlot_zero (j : Nat) : getSlot Bytes.zero j = Dinode.zero := by
  have hWord : ∀ o k, Bytes.word ((Bytes.zero : Block).slice (64 * j) 64) o k = 0 := by
    intro o k
    have hSlice : (Bytes.zero : Block).slice (64 * j) 64 = List.replicate 64 0 := by
      apply List.ext_getElem
      · simp
      · intro i hi hi'
        simp [Bytes.slice]
    rw [hSlice]
    unfold Bytes.word
    rw [List.drop_replicate, List.take_replicate]
    generalize min k (64 - o) = n
    induction n with
    | zero => rfl
    | succ n ih =>
      rw [List.replicate_succ, Bytes.ofLe, ih]
      rfl
  unfold getSlot Dinode.ofBytes
  simp only [hWord]
  rfl

/- The image with a superblock and no inode. -/
def emptyImage : Img where
  disk := Disk.write (fun _ => Bytes.zero) 1 (Bytes.zero.put 0 sb.bytes)
  len := FSSIZE
  freeinode := 1
  freeblock := nmeta

theorem dinode_emptyImage {i : Nat} (hi : i < NINODES) :
    dinode sb (shadow emptyImage) i = Dinode.zero := by
  have hNinodes : NINODES = 200 := rfl
  rcases IBLOCK_ne_bmapstart (show i < 208 by omega) with ⟨hNe, _⟩
  unfold dinode
  rw [shadow_other _ hNe]
  unfold emptyImage
  dsimp only
  rw [Disk.write_other]
  · exact getSlot_zero _
  · rw [IBLOCK_eq]
    omega

theorem built_emptyImage : Built emptyImage [] := by
  have hDead : ∀ i, ¬ Alive sb (dinode sb (shadow emptyImage)) i := by
    rintro i ⟨hi, hType⟩
    rw [dinode_emptyImage hi] at hType
    exact hType rfl
  have hOwns : ∀ x, owns sb (shadow emptyImage) (dinode sb (shadow emptyImage)) x = 0 :=
    fun x => if_neg fun hAnd => hDead _ hAnd.1
  have hMeta : nmeta = 46 := by decide
  refine ⟨⟨rfl, Nat.le_refl _, by decide, ?_⟩, ⟨⟨?_, ?_, ?_⟩, ?_⟩, rfl, rfl, ?_, ?_⟩
  · intro b hb
    have hLe : nmeta ≤ b := hb
    unfold emptyImage
    dsimp only
    rw [Disk.write_other _ _ (show b ≠ 1 by omega)]
  · exact fun x hx => absurd (hOwns x) hx
  · exact fun x _ hx => absurd (hOwns x) hx
  · intro b hb
    rw [bit_shadow _ hb]
    simp only [hOwns, ne_eq, not_true_eq_false, false_and,
      exists_false, or_false, decide_eq_true_eq]
    exact Iff.rfl
  · exact fun i hi => absurd hi (hDead i)
  · intro i c hc
    cases hc
  · exact fun i hi _ => dinode_emptyImage hi

---- Adding Files

def flatten (ps : List Piece) : List UInt8 := (ps.map Subtype.val).flatten

/- The bytes of a file of the host. -/
def HostFile.bytes (h : HostFile) : List UInt8 :=
  match h.pieces with
  | none => []
  | some ps => flatten ps

/- What the program asks of a file. -/
structure HostFile.Ok (h : HostFile) : Prop where
  slash : slash ∉ h.shortname
  pieces : h.pieces ≠ none
  name : h.name.length ≤ DIRSIZ
  size : h.bytes.length ≤ MAXFILE * BSIZE

/- The entries of files with inodes from `inum` on. -/
def entriesFrom : Nat → List HostFile → List UInt8
  | _, [] => []
  | inum, h :: hs => (Dirent.make (UInt16.ofNat inum) h.name).bytes ++ entriesFrom (inum + 1) hs

theorem length_entriesFrom (inum : Nat) (hs : List HostFile) :
    (entriesFrom inum hs).length = DIRENT * hs.length := by
  induction hs generalizing inum with
  | nil => rfl
  | cons h hs ih =>
    rw [entriesFrom, List.length_append, ih, Dirent.length_bytes, List.length_cons, Nat.mul_succ]
    omega

theorem blocksFor_mono {m n : Nat} (h : m ≤ n) : blocksFor m ≤ blocksFor n := by
  unfold blocksFor BSIZE NDIRECT
  split <;> split <;> omega

variable {r : List UInt8} {ds : List (List UInt8)}

theorem Built.appendPieces (h : Built img cs) (hBound : cs.length < NINODES) {i : Nat}
    {c : List UInt8} (hc : cs[i]? = some c) (ps : List Piece) :
    wp (appendPieces (i + 1) ps) (fun _ img' => Built img' (cs.set i (c ++ flatten ps))) (fun _ =>
        (c ++ flatten ps).length ≤ MAXFILE * BSIZE →
          FSSIZE < nmeta + total (cs.set i (c ++ flatten ps)))
      img := by
  induction ps generalizing img cs c with
  | nil =>
    unfold Mkfs.appendPieces
    have hSame : cs.set i (c ++ flatten []) = cs := by
      unfold flatten
      rw [List.map_nil, List.flatten_nil, List.append_nil]
      rcases List.getElem?_eq_some_iff.mp hc with ⟨_, hGet⟩
      rw [← hGet]
      exact List.set_getElem_self _
    rw [wp_pure, hSame]
    exact h
  | cons p ps ih =>
    have hFlat : c ++ flatten (p :: ps) = c ++ p.1 ++ flatten ps := by
      unfold flatten
      rw [List.map_cons, List.flatten_cons, List.append_assoc]
    have hLt := (List.getElem?_eq_some_iff.mp hc).1
    have hNext : (cs.set i (c ++ p.1))[i]? = some (c ++ p.1) := by rw [List.getElem?_set_self hLt]
    unfold Mkfs.appendPieces
    rw [wp_bind, hFlat]
    apply wp_mono (h.iappend hBound hc p.1)
    · intro _ img' hBuilt
      have hRest := ih hBuilt (by rw [List.length_set]; exact hBound) hNext
      rw [List.set_set] at hRest
      exact hRest
    intro _ hOver hFit
    have hLen : (c ++ p.1).length ≤ (c ++ p.1 ++ flatten ps).length := by
      simp only [List.length_append]
      omega
    have hMono := blocksFor_mono hLen
    have hFirst := total_set hc (c ++ p.1)
    have hLast := total_set hc (c ++ p.1 ++ flatten ps)
    have hMore := hOver (by omega)
    omega

/- The rest of the files fits beside what is there. -/
structure FitsFrom (r : List UInt8) (ds : List (List UInt8)) (hs : List HostFile) : Prop where
  files : ∀ h ∈ hs, h.Ok
  root : r.length + DIRENT * hs.length ≤ MAXFILE * BSIZE
  blocks : nmeta + blocksFor (r.length + DIRENT * hs.length) +
      total ds + total (hs.map HostFile.bytes) ≤
    FSSIZE

theorem Built.addFile (h : Built img (r :: ds)) (hBound : ds.length + 2 < NINODES) (file : HostFile) :
    wp (addFile ROOTINO file) (fun _ img' => Built img'
        ((r ++ (Dirent.make (UInt16.ofNat (ds.length + 2)) file.name).bytes) ::
          (ds ++ [file.bytes]))) (fun _ => ¬ FitsFrom r ds [file])
      img := by
  unfold Mkfs.addFile
  rw [wp_ite]
  constructor
  · intro hSlash
    rw [wp_throw]
    intro hFits
    exact (hFits.files file List.mem_cons_self).slash hSlash
  intro _
  cases hPieces : file.pieces with
  | none =>
    dsimp only
    rw [wp_throw]
    intro hFits
    exact (hFits.files file List.mem_cons_self).pieces hPieces
  | some pieces =>
    have hBytes : file.bytes = flatten pieces := by
      unfold HostFile.bytes
      rw [hPieces]
    dsimp only
    rw [wp_ite]
    constructor
    · intro _
      rw [wp_bind]
      refine wp_post (h.ialloc hBound) ?_
      rintro inum img₁ ⟨hInum, hBuilt⟩
      rw [hInum, List.length_cons, wp_bind]
      have hDe := (Dirent.make (UInt16.ofNat (ds.length + 2)) file.name).length_bytes
      generalize (Dirent.make (UInt16.ofNat (ds.length + 2)) file.name).bytes = de at hDe ⊢
      have hLen : (r :: ds ++ [[]]).length = ds.length + 2 := by simp
      apply wp_mono (hBuilt.iappend (i := 0) (by omega) rfl de)
      · intro _ img₂ hBuilt₂
        have hRoot : Built img₂ ((r ++ de) :: (ds ++ [[]])) := hBuilt₂
        have hLast : ((r ++ de) :: (ds ++ [[]]))[ds.length + 1]? = some [] := by simp
        have hSet : ((r ++ de) :: (ds ++ [[]])).set (ds.length + 1) ([] ++ flatten pieces) =
            (r ++ de) :: (ds ++ [file.bytes]) := by
          rw [hBytes]
          simp
        have hAll := hRoot.appendPieces (by simp; omega) hLast pieces
        rw [hSet] at hAll
        apply wp_mono hAll
        · exact fun _ _ hDone => hDone
        intro _ hOver hFits
        have hBlocks := hFits.blocks
        have hOk := hFits.files file List.mem_cons_self
        rw [List.nil_append, ← hBytes] at hOver
        have hMore := hOver hOk.size
        rw [total_cons, total_append, List.length_append, hDe] at hMore
        simp only [List.length_singleton, List.map_cons, List.map_nil, Nat.mul_one] at hBlocks
        omega
      · intro _ hOver hFits
        have hBlocks := hFits.blocks
        have hRoot := hFits.root
        rw [List.length_append, hDe] at hOver
        simp only [List.length_singleton, List.map_cons, List.map_nil, Nat.mul_one]
          at hBlocks hRoot
        have hMore : FSSIZE < nmeta + total ((r ++ de) :: (ds ++ [[]])) := hOver hRoot
        have hEmpty : total [[]] = 0 := rfl
        rw [total_cons, total_append, List.length_append, hDe] at hMore
        omega
    · intro hLong
      rw [wp_throw]
      intro hFits
      exact hLong (hFits.files file List.mem_cons_self).name

theorem FitsFrom.head {file : HostFile} {hs : List HostFile} (h : FitsFrom r ds (file :: hs)) :
    FitsFrom r ds [file] := by
  have hRoot := h.root
  have hBlocks := h.blocks
  rw [List.map_cons, total_cons] at hBlocks
  have hLe : r.length + DIRENT * [file].length ≤ r.length + DIRENT * (file :: hs).length := by
    apply Nat.add_le_add_left
    apply Nat.mul_le_mul_left
    rw [List.length_singleton, List.length_cons]
    omega
  have hMono := blocksFor_mono hLe
  refine ⟨?_, by omega, ?_⟩
  · intro k hk
    rw [List.mem_singleton] at hk
    rw [hk]
    exact h.files file List.mem_cons_self
  · rw [List.map_cons, total_cons, List.map_nil]
    have hNil : total [] = 0 := rfl
    omega

theorem FitsFrom.tail {file : HostFile} {hs : List HostFile} {de : List UInt8}
    (hDe : de.length = DIRENT) (h : FitsFrom r ds (file :: hs)) :
    FitsFrom (r ++ de) (ds ++ [file.bytes]) hs := by
  have hRoot := h.root
  have hBlocks := h.blocks
  have hLen : (r ++ de).length + DIRENT * hs.length = r.length + DIRENT * (file :: hs).length := by
    rw [List.length_append, hDe, List.length_cons, Nat.mul_succ]
    omega
  rw [List.map_cons, total_cons] at hBlocks
  refine ⟨?_, ?_, ?_⟩
  · exact fun k hk => h.files k (List.mem_cons_of_mem file hk)
  · rw [hLen]
    exact hRoot
  · rw [hLen, total_append, total_cons]
    have hNil : total [] = 0 := rfl
    omega

theorem Built.addFiles (h : Built img (r :: ds)) (hs : List HostFile)
    (hBound : ds.length + 1 + hs.length < NINODES) :
    wp (addFiles ROOTINO hs) (fun _ img' =>
        Built img' ((r ++ entriesFrom (ds.length + 2) hs) :: (ds ++ hs.map HostFile.bytes)))
      (fun _ => ¬ FitsFrom r ds hs)
      img := by
  induction hs generalizing img r ds with
  | nil =>
    unfold Mkfs.addFiles entriesFrom
    rw [wp_pure, List.append_nil, List.map_nil, List.append_nil]
    exact h
  | cons file hs ih =>
    rw [List.length_cons] at hBound
    unfold Mkfs.addFiles
    rw [wp_bind]
    apply wp_mono (h.addFile (by omega) file)
    · intro _ img' hBuilt
      have hDs : (ds ++ [file.bytes]).length = ds.length + 1 := by
        rw [List.length_append, List.length_singleton]
      have hRest := ih hBuilt (by omega)
      rw [hDs, List.append_assoc, List.append_assoc] at hRest
      apply wp_mono hRest
      · exact fun _ _ hDone => hDone
      · intro _ hNot hFits
        exact hNot (hFits.tail (Dirent.length_bytes _))
    · intro _ hNot hFits
      exact hNot hFits.head

---- The Whole Image

/- The entries of the root directory. -/
def rootEntries (files : List HostFile) : List UInt8 :=
  (Dirent.make 1 dot).bytes ++ ((Dirent.make 1 dotdot).bytes ++ entriesFrom 2 files)

theorem length_rootEntries (files : List HostFile) :
    (rootEntries files).length = 16 * (files.length + 2) := by
  unfold rootEntries
  rw [List.length_append, List.length_append, Dirent.length_bytes, Dirent.length_bytes,
    length_entriesFrom]
  unfold DIRENT DIRSIZ
  omega

/- The size of the root directory is rounded up. -/
def rounded (d : Dinode) : Dinode :=
  { d with size := (d.size / UInt32.ofNat BSIZE + 1) * UInt32.ofNat BSIZE }

/- The image holds the root directory and the files. -/
structure Written (files : List HostFile) (img : Img) : Prop where
  built : ∃ img₀, Built img₀
      (rootEntries files :: files.map HostFile.bytes) ∧
    img.disk = putDinode sb (shadow img₀) ROOTINO (rounded (dinode sb (shadow img₀) ROOTINO))

/- The files fit in the image. -/
def Fits (files : List HostFile) : Prop :=
  FitsFrom ((Dirent.make 1 dot).bytes ++ (Dirent.make 1 dotdot).bytes) [] files

theorem wp_main {files : List HostFile} (hBound : files.length + 1 < NINODES) :
    wp (main files) (fun _ img => Written files img) (fun _ => ¬ Fits files) start := by
  unfold main
  rw [wp_bind]
  refine wp_post (wp_zeroSectors rfl FSSIZE) ?_
  intro _ img hEq
  rw [wp_bind, wp_wsect, hEq]
  change wp _ _ _ emptyImage
  rw [wp_bind]
  refine wp_post (built_emptyImage.ialloc (by decide)) ?_
  rintro inum img₁ ⟨hInum, hBuilt⟩
  rw [hInum, wp_ite]
  constructor
  · intro _
    rw [wp_bind]
    apply wp_mono (hBuilt.iappend (i := 0) (by decide) rfl (Dirent.make 1 dot).bytes)
    · intro _ img₂ hBuilt₂
      rw [wp_bind]
      apply wp_mono (hBuilt₂.iappend (i := 0) (by decide) rfl (Dirent.make 1 dotdot).bytes)
      · intro _ img₃ hBuilt₃
        have hStart : Built img₃ [(Dirent.make 1 dot).bytes ++ (Dirent.make 1 dotdot).bytes] :=
          hBuilt₃
        rw [wp_bind]
        refine wp_post (hStart.addFiles files (by
            rw [List.length_nil]
            omega)) ?_
        intro _ img₄ hBuilt₄
        rw [List.append_assoc, List.nil_append] at hBuilt₄
        have hSound := hBuilt₄.sound
        unfold fixRoot
        rw [wp_bind, wp_bind]
        apply wp_rinode hSound (by decide)
        apply wp_winode hSound (by decide)
        intro img₅ hSound₅ hShadow hFreeinode hFreeblock
        rw [wp_bind, wp_get]
        unfold balloc
        have hHigh := hSound₅.high
        rw [if_pos (Nat.lt_of_le_of_lt hHigh (by decide)), wp_wsect]
        exact ⟨img₄, hBuilt₄, hShadow⟩
      · intro _ hOver _
        have hMore :
            FSSIZE < nmeta + total [(Dirent.make 1 dot).bytes ++ (Dirent.make 1 dotdot).bytes] := by
          apply hOver
          rw [List.nil_append, List.length_append, Dirent.length_bytes, Dirent.length_bytes]
          decide
        rw [total_cons, List.length_append, Dirent.length_bytes, Dirent.length_bytes] at hMore
        exact absurd hMore (by decide)
    · intro _ hOver _
      have hMore : FSSIZE < nmeta + total [(Dirent.make 1 dot).bytes] := by
        apply hOver
        rw [List.nil_append, Dirent.length_bytes]
        decide
      rw [total_cons, Dirent.length_bytes] at hMore
      exact absurd hMore (by decide)
  · intro hNe
    exact absurd rfl hNe

---- The Counter Of Inodes

theorem preserves_wsect (sec : Nat) (buf : Block) : Preserves Img.freeinode (wsect sec buf) :=
  Preserves.modify fun _ => rfl

theorem preserves_rsect (sec : Nat) : Preserves Img.freeinode (rsect sec) := by
  unfold rsect
  apply Preserves.bind Preserves.get
  intro img
  exact (Preserves.pure _).ite (Preserves.throw _)

theorem preserves_winode (inum : Nat) (d : Dinode) : Preserves Img.freeinode (winode inum d) := by
  unfold winode
  apply (preserves_rsect _).bind
  exact fun _ => preserves_wsect _ _

theorem preserves_rinode (inum : Nat) : Preserves Img.freeinode (rinode inum) := by
  unfold rinode
  apply (preserves_rsect _).bind
  exact fun _ => Preserves.pure _

theorem preserves_takeBlock : Preserves Img.freeinode takeBlock := by
  intro img
  rw [wp_takeBlock]

theorem preserves_mapAddr (k : Nat) (din : Dinode) : Preserves Img.freeinode (mapAddr k din) := by
  unfold mapAddr
  apply Preserves.ite
  · apply preserves_takeBlock.bind
    exact fun _ => Preserves.pure _
  · exact Preserves.pure _

theorem preserves_mapBlock (bn : Nat) (din : Dinode) :
    Preserves Img.freeinode (mapBlock bn din) := by
  unfold mapBlock
  apply Preserves.ite
  · apply (preserves_mapAddr _ _).bind
    exact fun _ => Preserves.pure _
  apply (preserves_mapAddr _ _).bind
  intro din₁
  apply (preserves_rsect _).bind
  intro indirect
  apply Preserves.ite
  · apply preserves_takeBlock.bind
    intro b
    apply (preserves_wsect _ _).bind
    exact fun _ => Preserves.pure _
  · exact Preserves.pure _

theorem preserves_iappendLoop (fuel off : Nat) (p : List UInt8) (din : Dinode) :
    Preserves Img.freeinode (iappendLoop fuel off p din) := by
  induction fuel generalizing off p din with
  | zero => exact Preserves.pure _
  | succ fuel ih =>
    unfold iappendLoop
    apply Preserves.ite
    · apply Preserves.ite
      · apply (preserves_mapBlock _ _).bind
        intro r
        apply (preserves_rsect _).bind
        intro buf
        apply (preserves_wsect _ _).bind
        exact fun _ => ih _ _ _
      · exact Preserves.throw _
    · exact Preserves.pure _

theorem preserves_iappend (inum : Nat) (p : List UInt8) :
    Preserves Img.freeinode (iappend inum p) := by
  unfold iappend
  apply (preserves_rinode _).bind
  intro din
  apply (preserves_iappendLoop _ _ _ _).bind
  exact fun _ => preserves_winode _ _

theorem preserves_appendPieces (inum : Nat) (ps : List Piece) :
    Preserves Img.freeinode (appendPieces inum ps) := by
  induction ps with
  | nil => exact Preserves.pure _
  | cons p ps ih =>
    apply (preserves_iappend _ _).bind
    exact fun _ => ih

theorem preserves_zeroSectors (n : Nat) : Preserves Img.freeinode (zeroSectors n) := by
  induction n with
  | zero => exact Preserves.pure _
  | succ n ih =>
    apply ih.bind
    exact fun _ => preserves_wsect _ _

theorem wp_ialloc_freeinode (type : UInt16) (img : Img) :
    wp (ialloc type) (fun _ img' => img'.freeinode = img.freeinode + 1) (fun _ => True) img := by
  unfold ialloc
  rw [wp_bind, wp_get, wp_bind, wp_set, wp_bind]
  apply (preserves_winode _ _).wp
  intro _ img' hSame
  rw [wp_pure]
  exact hSame

theorem wp_addFile_freeinode (rootino : Nat) (file : HostFile) (img : Img) :
    wp (addFile rootino file) (fun _ img' => img'.freeinode = img.freeinode + 1)
      (fun _ => True) img := by
  unfold addFile
  rw [wp_ite]
  constructor
  · intro _
    rw [wp_throw]
    trivial
  intro _
  cases file.pieces with
  | none =>
    dsimp only
    rw [wp_throw]
    trivial
  | some pieces =>
    dsimp only
    rw [wp_ite]
    constructor
    · intro _
      rw [wp_bind]
      refine wp_post (wp_ialloc_freeinode _ _) ?_
      intro inum img₁ hOne
      rw [wp_bind]
      apply (preserves_iappend _ _).wp
      intro _ img₂ hTwo
      apply (preserves_appendPieces _ _).wp
      intro _ img₃ hThree
      rw [hThree, hTwo, hOne]
    · intro _
      rw [wp_throw]
      trivial

theorem wp_addFiles_freeinode (rootino : Nat) (files : List HostFile) (img : Img) :
    wp (addFiles rootino files) (fun _ img' => img'.freeinode = img.freeinode + files.length)
      (fun _ => True) img := by
  induction files generalizing img with
  | nil =>
    unfold addFiles
    rw [wp_pure]
    rfl
  | cons file files ih =>
    unfold addFiles
    rw [wp_bind]
    refine wp_post (wp_addFile_freeinode _ _ _) ?_
    intro _ img₁ hOne
    refine wp_post (ih img₁) ?_
    intro _ img₂ hRest
    rw [hRest, hOne, List.length_cons]
    omega

/- Every file takes an inode, whatever their number. -/
theorem wp_main_freeinode (files : List HostFile) :
    wp (main files) (fun _ img => img.freeinode = files.length + 2) (fun _ => True) start := by
  unfold main
  rw [wp_bind]
  apply (preserves_zeroSectors _).wp
  intro _ img₀ hZero
  rw [wp_bind]
  apply (preserves_wsect _ _).wp
  intro _ img₁ hSuper
  rw [wp_bind]
  refine wp_post (wp_ialloc_freeinode _ _) ?_
  intro rootino img₂ hRoot
  rw [wp_ite]
  constructor
  · intro _
    rw [wp_bind]
    apply (preserves_iappend _ _).wp
    intro _ img₃ hDot
    rw [wp_bind]
    apply (preserves_iappend _ _).wp
    intro _ img₄ hDotdot
    rw [wp_bind]
    refine wp_post (wp_addFiles_freeinode _ _ _) ?_
    intro _ img₅ hFiles
    unfold fixRoot
    rw [wp_bind, wp_bind]
    apply (preserves_rinode _).wp
    intro din img₆ hRead
    apply (preserves_winode _ _).wp
    intro _ img₇ hWrite
    rw [wp_bind, wp_get]
    unfold balloc
    rw [wp_ite]
    constructor
    · intro _
      apply (preserves_wsect _ _).wp
      intro _ img₈ hBitmap
      have hStart : start.freeinode = 1 := rfl
      omega
    · intro _
      rw [wp_throw]
      trivial
  · intro _
    rw [wp_throw]
    trivial

end Xv6.Mkfs

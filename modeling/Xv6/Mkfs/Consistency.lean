import Xv6.Mkfs.Image

/-
  When the image is a consistent file system.

  The counter of inodes has no limit, and the size of the root
  directory is rounded up to one block more than it has if
  its entries fill their last block. Short of that the image
  keeps the invariants of the kernel.

  Main declarations:
    * `Written.consistent_iff`
    * `image_consistent_iff`
    * `full_root_has_hole`
-/

namespace Xv6.Mkfs

open Fs

---- The Root Directory

section

variable {img : Img} {r : List UInt8} {ds : List (List UInt8)}

section

variable (h : Built img (r :: ds))
include h

theorem Built.root : Holds (shadow img) ROOTINO r := h.holds 0 r rfl

theorem Built.root_alive : Alive sb (dinode sb (shadow img)) ROOTINO := by
  refine ⟨by decide, ?_⟩
  rw [h.root.type]
  exact stamp_ne_zero _

theorem Built.root_updates :
    Updates sb (dinode sb (shadow img)) (ipOf img ROOTINO (dinode sb (shadow img) ROOTINO))
      ((ipOf img ROOTINO (dinode sb (shadow img) ROOTINO)).update sb
        (rounded (dinode sb (shadow img) ROOTINO))) := by
  apply (h.consistent.locked h.root_alive).update layout
  · exact h.root_alive.2
  · exact fun _ => rfl

end

theorem toNat_rounded {d : Dinode} {n : Nat} (hSize : d.size.toNat = n) (hSmall : n < 2 ^ 31) :
    (rounded d).size.toNat = (n / 1024 + 1) * 1024 := by
  unfold rounded
  dsimp only
  rw [UInt32.toNat_mul, UInt32.toNat_add, UInt32.toNat_div, hSize]
  have hBsize : (UInt32.ofNat BSIZE).toNat = 1024 := by decide
  have hOne : (1 : UInt32).toNat = 1 := by decide
  rw [hBsize, hOne]
  omega

end

variable {files : List HostFile}

---- Consistency

/- The inodes in use are there, and the kernel's invariants. -/
structure ImageOk (img : Img) : Prop where
  inodes : ∀ i, 1 ≤ i → i < img.freeinode → i < sb.ninodes.toNat
  blocks : ∀ i k,
    1 ≤ i → i < img.freeinode → k < SLOTS → slot img.disk (dinode sb img.disk i) k < sb.size.toNat
  consistent : Fs.Consistent sb img.disk (dinode sb img.disk)

theorem Written.consistent_iff {img : Img} (h : Written files img)
    (hBound : files.length + 1 < NINODES) :
    Fs.Consistent sb img.disk (dinode sb img.disk) ↔ (files.length + 2) % 64 ≠ 0 := by
  rcases h.built with ⟨img₀, hBuilt, hDisk⟩
  have hUpdates := hBuilt.root_updates
  have hRoot := hBuilt.root
  have hNinodes : NINODES = 200 := rfl
  have hLen := length_rootEntries files
  have hSize := toNat_rounded (hRoot.size.trans hLen) (by omega)
  generalize hd : dinode sb (shadow img₀) ROOTINO = d at hUpdates hSize
  have hState : (ipOf img₀ ROOTINO d).update sb (rounded d) = ⟨img.disk, ROOTINO, rounded d⟩ := by
    unfold Ip.update ipOf
    rw [hDisk, hd]
  rw [hState] at hUpdates
  have hFilled : Filled img.disk (rounded d) (16 * (files.length + 2)) := by
    rw [← hLen]
    have hOld := hRoot.filled
    rw [hd] at hOld
    exact hOld.congr hUpdates.slots
  have hOwn : dinode sb img.disk ROOTINO = rounded d := by
    rw [hDisk, hd]
    exact dinode_putDinode_same ..
  have hFree : HoleFree img.disk (rounded d) ↔ (files.length + 2) % 64 ≠ 0 := by
    have hMax : MAXFILE = 268 := rfl
    unfold HoleFree MappedTo
    rw [hSize]
    unfold BSIZE
    constructor
    · intro hMapped hMod
      have hLast := hMapped (16 * (files.length + 2) / 1024) (by omega)
      have hBlocks := (hFilled.blocks _ hLast.1).mp hLast.2
      unfold BSIZE at hBlocks
      omega
    · intro hMod bn hbn
      have hLt : bn < MAXFILE := by omega
      refine ⟨hLt, (hFilled.blocks bn hLt).mpr ?_⟩
      unfold BSIZE
      omega
  rw [← hFree]
  constructor
  · intro hConsistent
    have hHoleFree := hConsistent.holeFree ROOTINO
    rw [hOwn] at hHoleFree
    apply hHoleFree
    refine ⟨by decide, ?_⟩
    rw [hOwn]
    exact hUpdates.locked.type
  · intro hHoleFree
    exact hBuilt.consistent.settle
      (show (Ip.mk img.disk ROOTINO (rounded d)).inum = ROOTINO from rfl)
      hUpdates.locked hUpdates.others hHoleFree hOwn

theorem Written.alive {img : Img} (h : Written files img) (hBound : files.length + 1 < NINODES)
    {i : Nat} (hPos : 1 ≤ i) (hi : i < files.length + 2) : Alive sb (dinode sb img.disk) i := by
  rcases h.built with ⟨img₀, hBuilt, hDisk⟩
  refine ⟨show i < NINODES by omega, ?_⟩
  by_cases hRoot : i = ROOTINO
  · rw [hRoot, hDisk, dinode_putDinode_same]
    exact hBuilt.root_alive.2
  rw [hDisk, dinode_putDinode_ne _ _ hRoot]
  rcases Nat.exists_eq_add_of_le hPos with ⟨j, hj⟩
  have hLt : j < (rootEntries files :: files.map HostFile.bytes).length := by
    rw [List.length_cons, List.length_map]
    omega
  have hHolds := hBuilt.holds j _ (List.getElem?_eq_getElem hLt)
  rw [hj, Nat.add_comm, hHolds.type]
  exact stamp_ne_zero _

theorem written_of_main {img : Img} (hBound : files.length + 1 < NINODES)
    (hRun : main files start = .ok ((), img)) : Written files img :=
  Prog.wp_of_eq_ok (x := main files) (wp_main hBound) hRun

theorem main_of_fits (hBound : files.length + 1 < NINODES) (hFits : Fits files) :
    ∃ img, main files start = .ok ((), img) ∧ Written files img := by
  have hWp : Prog.wp (main files) (fun _ img => Written files img) (fun _ => False) start := by
    apply Prog.wp_mono (wp_main hBound)
    · exact fun _ _ hWritten => hWritten
    · exact fun _ hNot => hNot hFits
  rcases Prog.exists_ok_of_wp (x := main files) hWp with ⟨_, img, hRun, hWritten⟩
  exact ⟨img, hRun, hWritten⟩

/-
  The image of a successful run keeps the invariants of the
  kernel exactly if there are at most 198 files and the
  entries of the root directory do not fill their last block.
-/
theorem image_consistent_iff {files : List HostFile} {img : Img}
    (hRun : main files start = .ok ((), img)) :
    ImageOk img ↔ files.length ≤ 198 ∧ (files.length + 2) % 64 ≠ 0 := by
  have hCount : img.freeinode = files.length + 2 :=
    Prog.wp_of_eq_ok (x := main files) (wp_main_freeinode files) hRun
  have hNinodes : NINODES = 200 := rfl
  have hTable : sb.ninodes.toNat = 200 := by decide
  constructor
  · intro hOk
    have hLast := hOk.inodes (files.length + 1) (by omega) (by omega)
    have hBound : files.length + 1 < NINODES := by omega
    have hWritten := written_of_main hBound hRun
    exact ⟨by omega, (hWritten.consistent_iff hBound).mp hOk.consistent⟩
  rintro ⟨hFew, hMod⟩
  have hBound : files.length + 1 < NINODES := by omega
  have hWritten := written_of_main hBound hRun
  have hConsistent := (hWritten.consistent_iff hBound).mpr hMod
  refine ⟨?_, ?_, hConsistent⟩
  · intro i _ hLt
    omega
  · intro i k hLe hLt hk
    by_cases hZero : slot img.disk (dinode sb img.disk i) k = 0
    · rw [hZero]
      decide
    · have hAlive := hWritten.alive hBound hLe (by omega)
      exact (hConsistent.owned.range hAlive hk hZero).2

/- An empty file whose name is one byte from 100 on. -/
def blank (i : Fin 62) : HostFile where
  path := [UInt8.ofNat (100 + i.1)]
  pieces := some []
  path_ne := by
    intro c hc
    rw [List.mem_singleton.mp hc, ne_eq, ← UInt8.toNat_inj, UInt8.toNat_ofNat']
    have hi := i.2
    change ¬ (100 + i.1) % 256 = 0
    omega

def sixtyTwo : List HostFile := (List.finRange 62).map blank

theorem blank_ok (i : Fin 62) : (blank i).Ok := by
  refine ⟨?_, ?_, ?_, ?_⟩
  · revert i
    decide
  · exact Option.some_ne_none _
  · revert i
    decide
  · exact Nat.zero_le _

/- Two files, one of three bytes and one of two blocks. -/
def twoFiles : List HostFile :=
  [{ blank 0 with pieces := some [⟨[1, 2, 3], by decide⟩] },
    { blank 1 with
      pieces := some [⟨List.replicate 1024 4, by decide +kernel⟩, ⟨[5], by decide⟩] }]

theorem fits_twoFiles : Fits twoFiles := by
  refine ⟨?_, by decide +kernel, by decide +kernel⟩
  intro h hMem
  rcases List.mem_pair.mp hMem with rfl | rfl
  all_goals exact ⟨by decide, Option.some_ne_none _, by decide, by decide +kernel⟩

theorem image_consistent_iff_twoFiles :
    ∃ img, main twoFiles start = .ok ((), img) ∧ ImageOk img := by
  rcases main_of_fits (by decide) fits_twoFiles with ⟨img, hRun, _⟩
  exact ⟨img, hRun, (image_consistent_iff hRun).mpr (by decide)⟩

theorem fits_sixtyTwo : Fits sixtyTwo := by
  refine ⟨?_, by decide, ?_⟩
  · intro h hMem
    rcases List.mem_map.mp hMem with ⟨i, _, hEq⟩
    rw [← hEq]
    exact blank_ok i
  · decide

/-
  With 62 files the entries of the root directory fill one
  block, and the size says there are two.
-/
theorem full_root_has_hole :
    (sixtyTwo.map HostFile.name).Nodup ∧
      ∃ img, main sixtyTwo start = .ok ((), img) ∧ ¬ ImageOk img := by
  refine ⟨by decide, ?_⟩
  have hBound : sixtyTwo.length + 1 < NINODES := by decide
  rcases main_of_fits hBound fits_sixtyTwo with ⟨img, hRun, hWritten⟩
  refine ⟨img, hRun, ?_⟩
  intro hOk
  have hMod := (hWritten.consistent_iff hBound).mp hOk.consistent
  exact hMod (by decide)

end Xv6.Mkfs

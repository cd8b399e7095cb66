import Mathlib.Data.List.OfFn
import Xv6.Params

/-
  The on-disk format of the file system (`fs.h`).

  A structure on disk is a run of bytes: its fields stand one
  after another, low byte first. What was stored reads back,
  and a structure elsewhere keeps its value. Inodes are found
  through their block and slot; an indirect block is an array
  of block addresses.

  Key definitions include:
    * `Superblock`
    * `Dinode`
-/

namespace Xv6.Fs

open Bytes (le word)

---- Constants

def ROOTINO : Nat := 1

def FSMAGIC : Nat := 0x10203040

def NDIRECT : Nat := 12

/- The addresses in one indirect block. -/
def NINDIRECT : Nat := BSIZE / 4

def MAXFILE : Nat := NDIRECT + NINDIRECT

/- Inodes per block; an inode takes 64 bytes. -/
def IPB : Nat := BSIZE / 64

/- Bitmap bits per block. -/
def BPB : Nat := BSIZE * 8

def DIRSIZ : Nat := 14

/- The size of a directory entry. -/
def DIRENT : Nat := 2 + DIRSIZ

def T_DIR : UInt16 := 1

def T_FILE : UInt16 := 2

def T_DEVICE : UInt16 := 3

---- Superblock

structure Superblock where
  magic : UInt32
  size : UInt32
  nblocks : UInt32
  ninodes : UInt32
  nlog : UInt32
  logstart : UInt32
  inodestart : UInt32
  bmapstart : UInt32
deriving DecidableEq

namespace Superblock

def words (sb : Superblock) : List Nat :=
  [sb.magic.toNat, sb.size.toNat, sb.nblocks.toNat,
    sb.ninodes.toNat, sb.nlog.toNat, sb.logstart.toNat, sb.inodestart.toNat, sb.bmapstart.toNat]

def bytes (sb : Superblock) : List UInt8 := sb.words.flatMap (le 4)

def ofBytes (xs : List UInt8) : Superblock where
  magic := UInt32.ofNat (word xs 0 4)
  size := UInt32.ofNat (word xs 4 4)
  nblocks := UInt32.ofNat (word xs 8 4)
  ninodes := UInt32.ofNat (word xs 12 4)
  nlog := UInt32.ofNat (word xs 16 4)
  logstart := UInt32.ofNat (word xs 20 4)
  inodestart := UInt32.ofNat (word xs 24 4)
  bmapstart := UInt32.ofNat (word xs 28 4)

end Superblock

---- Inodes On Disk

structure Dinode where
  type : UInt16
  major : UInt16
  minor : UInt16
  nlink : UInt16
  size : UInt32
  addrs : Fin (NDIRECT + 1) → UInt32

namespace Dinode

/- An inode of zero bytes. -/
def zero : Dinode := ⟨0, 0, 0, 0, 0, fun _ => 0⟩

/- The address `addrs[k]` as a block number. -/
def addr (d : Dinode) (k : Nat) : Nat := if h : k < NDIRECT + 1 then (d.addrs ⟨k, h⟩).toNat else 0

def setAddr (d : Dinode) (k b : Nat) : Dinode :=
  { d with
    addrs := fun j =>
      if j.1 = k then UInt32.ofNat b else d.addrs j }

def bytes (d : Dinode) : List UInt8 :=
  le 2 d.type.toNat ++ (le 2 d.major.toNat ++
    (le 2 d.minor.toNat ++ (le 2 d.nlink.toNat ++
      (le 4 d.size.toNat ++ ((List.ofFn d.addrs).map UInt32.toNat).flatMap (le 4)))))

def ofBytes (xs : List UInt8) : Dinode where
  type := UInt16.ofNat (word xs 0 2)
  major := UInt16.ofNat (word xs 2 2)
  minor := UInt16.ofNat (word xs 4 2)
  nlink := UInt16.ofNat (word xs 6 2)
  size := UInt32.ofNat (word xs 8 4)
  addrs := fun k => UInt32.ofNat (word xs (12 + 4 * k.1) 4)

@[simp] theorem length_bytes (d : Dinode) : d.bytes.length = 64 := by
  have hAddrs : (List.ofFn d.addrs).length = 13 := List.length_ofFn
  simp only [bytes, List.length_append, Bytes.length_le,
    Bytes.length_flatMap_le, List.length_map, hAddrs]

theorem word_addrs (d : Dinode) (k : Fin (NDIRECT + 1)) :
    word d.bytes (12 + 4 * k.1) 4 = (d.addrs k).toNat := by
  have hLt := UInt32.toNat_lt (d.addrs k)
  unfold bytes
  rw [Bytes.word_append_of_le (by simp; omega), Bytes.word_append_of_le (by simp; omega),
    Bytes.word_append_of_le (by simp; omega), Bytes.word_append_of_le (by simp; omega),
    Bytes.word_append_of_le (by simp; omega)]
  simp only [Bytes.length_le]
  rw [show 12 + 4 * k.1 - 2 - 2 - 2 - 2 - 4 = 4 * k.1 by omega, Bytes.word_flatMap_le _ _ (by
      have hk := k.2
      rw [List.length_map, List.length_ofFn]
      exact hk), List.getElem_map,
    List.getElem_ofFn]
  exact Nat.mod_eq_of_lt hLt

theorem ofBytes_bytes (d : Dinode) : ofBytes d.bytes = d := by
  have hType : word d.bytes 0 2 = d.type.toNat := by
    unfold bytes
    rw [Bytes.word_le_append]
    exact Nat.mod_eq_of_lt d.type.toNat_lt
  have hMajor : word d.bytes 2 2 = d.major.toNat := by
    unfold bytes
    rw [Bytes.word_append_of_le (by simp)]
    simp only [Bytes.length_le]
    rw [Bytes.word_le_append]
    exact Nat.mod_eq_of_lt d.major.toNat_lt
  have hMinor : word d.bytes 4 2 = d.minor.toNat := by
    unfold bytes
    rw [Bytes.word_append_of_le (by simp), Bytes.word_append_of_le (by simp)]
    simp only [Bytes.length_le]
    rw [Bytes.word_le_append]
    exact Nat.mod_eq_of_lt d.minor.toNat_lt
  have hNlink : word d.bytes 6 2 = d.nlink.toNat := by
    unfold bytes
    rw [Bytes.word_append_of_le (by simp), Bytes.word_append_of_le (by simp),
      Bytes.word_append_of_le (by simp)]
    simp only [Bytes.length_le]
    rw [Bytes.word_le_append]
    exact Nat.mod_eq_of_lt d.nlink.toNat_lt
  have hSize : word d.bytes 8 4 = d.size.toNat := by
    unfold bytes
    rw [Bytes.word_append_of_le (by simp), Bytes.word_append_of_le (by simp),
      Bytes.word_append_of_le (by simp), Bytes.word_append_of_le (by simp)]
    simp only [Bytes.length_le]
    rw [Bytes.word_le_append]
    exact Nat.mod_eq_of_lt d.size.toNat_lt
  unfold ofBytes
  simp only [hType, hMajor, hMinor, hNlink, hSize, word_addrs,
    UInt16.ofNat_toNat, UInt32.ofNat_toNat]

theorem addr_setAddr_same (d : Dinode) {k b : Nat} (hk : k < NDIRECT + 1) (hb : b < 2 ^ 32) :
    (d.setAddr k b).addr k = b := by
  unfold addr setAddr
  dsimp only
  rw [dif_pos hk, if_pos rfl]
  exact UInt32.toNat_ofNat_of_lt' hb

theorem addr_setAddr_ne (d : Dinode) {j k b : Nat} (h : j ≠ k) :
    (d.setAddr k b).addr j = d.addr j := by
  unfold addr setAddr
  dsimp only
  by_cases hj : j < NDIRECT + 1
  · rw [dif_pos hj, dif_pos hj, if_neg h]
  · rw [dif_neg hj, dif_neg hj]

theorem ext_addr {d e : Dinode} (hType : d.type = e.type) (hMajor : d.major = e.major)
    (hMinor : d.minor = e.minor) (hNlink : d.nlink = e.nlink) (hSize : d.size = e.size)
    (hAddrs : ∀ k, d.addr k = e.addr k) : d = e := by
  rcases d with ⟨type, major, minor, nlink, size, addrs⟩
  rcases e with ⟨type', major', minor', nlink', size', addrs'⟩
  cases hType
  cases hMajor
  cases hMinor
  cases hNlink
  cases hSize
  have hFn : addrs = addrs' := by
    funext k
    have hk := hAddrs k.1
    unfold addr at hk
    rw [dif_pos k.2, dif_pos k.2] at hk
    exact UInt32.toNat_inj.mp hk
  rw [hFn]

end Dinode

---- Inode Blocks

/- The block that contains inode `i`. -/
def IBLOCK (i : Nat) (sb : Superblock) : Nat := i / IPB + sb.inodestart.toNat

/- The inode of slot `j` of a block. -/
def getSlot (b : Block) (j : Nat) : Dinode := Dinode.ofBytes (b.slice (64 * j) 64)

def putSlot (b : Block) (j : Nat) (d : Dinode) : Block := b.put (64 * j) d.bytes

theorem getSlot_putSlot_same (b : Block) {j : Nat} (hj : j < IPB) (d : Dinode) :
    getSlot (putSlot b j d) j = d := by
  have hFit : 64 * j + d.bytes.length ≤ BSIZE := by
    rw [Dinode.length_bytes]
    simp only [IPB, BSIZE] at *
    omega
  have hSlice := Bytes.slice_put_same b (64 * j) d.bytes hFit
  rw [Dinode.length_bytes] at hSlice
  unfold getSlot putSlot
  rw [hSlice, Dinode.ofBytes_bytes]

theorem getSlot_putSlot_ne (b : Block) {j k : Nat} (h : k ≠ j) (d : Dinode) :
    getSlot (putSlot b j d) k = getSlot b k := by
  unfold getSlot putSlot
  rw [Bytes.slice_put_disjoint]
  rw [Dinode.length_bytes]
  omega

/- Inode `i` as it is on disk. -/
def dinode (sb : Superblock) (disk : Disk) (i : Nat) : Dinode :=
  getSlot (disk (IBLOCK i sb)) (i % IPB)

def putDinode (sb : Superblock) (disk : Disk) (i : Nat) (d : Dinode) : Disk :=
  disk.write (IBLOCK i sb) (putSlot (disk (IBLOCK i sb)) (i % IPB) d)

section

variable (sb : Superblock) (disk : Disk)

@[simp] theorem dinode_putDinode_same (i : Nat) (d : Dinode) :
    dinode sb (putDinode sb disk i d) i = d := by
  unfold dinode putDinode
  rw [Disk.write_same]
  exact getSlot_putSlot_same _ (Nat.mod_lt _ (by decide)) d

theorem dinode_putDinode_ne {i j : Nat} (h : j ≠ i) (d : Dinode) :
    dinode sb (putDinode sb disk i d) j = dinode sb disk j := by
  unfold dinode putDinode
  by_cases hBlock : IBLOCK j sb = IBLOCK i sb
  · have hSlot : j % IPB ≠ i % IPB := by
      unfold IBLOCK at hBlock
      simp only [IPB, BSIZE] at *
      omega
    rw [hBlock, Disk.write_same, getSlot_putSlot_ne _ hSlot]
  · rw [Disk.write_other _ _ hBlock]

theorem putDinode_other {i b : Nat} (h : b ≠ IBLOCK i sb) (d : Dinode) :
    putDinode sb disk i d b = disk b := Disk.write_other _ _ h

theorem dinode_write_other {i b : Nat} (h : b ≠ IBLOCK i sb) (v : Block) :
    dinode sb (disk.write b v) i = dinode sb disk i := by
  unfold dinode
  rw [Disk.write_other _ _ (Ne.symm h)]

end

---- Indirect Blocks

/- Address `j` of an indirect block. -/
def entry (b : Block) (j : Nat) : Nat := b.getLe (4 * j) 4

def putEntry (b : Block) (j v : Nat) : Block := b.put (4 * j) (le 4 v)

theorem entry_putEntry_same (b : Block) {j v : Nat} (hj : j < NINDIRECT) (hv : v < 2 ^ 32) :
    entry (putEntry b j v) j = v := by
  unfold entry putEntry
  rw [Bytes.getLe_put_le]
  · exact Nat.mod_eq_of_lt hv
  · simp only [NINDIRECT, BSIZE] at *
    omega

theorem entry_putEntry_ne (b : Block) {j k : Nat} (h : k ≠ j) (v : Nat) :
    entry (putEntry b j v) k = entry b k := by
  unfold entry putEntry
  rw [Bytes.getLe_put_disjoint]
  rw [Bytes.length_le]
  omega

theorem entry_zero (j : Nat) : entry Bytes.zero j = 0 := by
  unfold entry Bytes.getLe Bytes.slice
  simp [Bytes.ofLe]

end Xv6.Fs

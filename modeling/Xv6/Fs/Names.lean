import Xv6.Fs.Format

/-
  Names (`string.c`, `fs.h`, `fs.c`).

  A string is a list of bytes that ends at its first zero
  byte or at the end of the list. Names in directories have
  at most `DIRSIZ` bytes and are compared up to that length.

  Main declarations:
    * `strncmp_eq_zero_iff`
    * `Dirent.ofBytes_bytes`
-/

namespace Xv6.Fs

open Bytes (le word)

---- Strings

/- Compare at most `n` bytes of two strings. -/
def strncmp : Nat → List UInt8 → List UInt8 → Int
  | 0, _, _ => 0
  | n + 1, p, q =>
    if p.headD 0 ≠ 0 ∧ p.headD 0 = q.headD 0 then
      strncmp n p.tail q.tail
    else
      (p.headD 0).toNat - (q.headD 0).toNat

/- The `n` bytes that a copy of a string writes. -/
def strncpy : Nat → List UInt8 → List UInt8
  | 0, _ => []
  | n + 1, t =>
    if t.headD 0 = 0 then List.replicate (n + 1) 0 else t.headD 0 :: strncpy n t.tail

/- The string of at most `n` bytes. -/
def cstr : Nat → List UInt8 → List UInt8
  | 0, _ => []
  | n + 1, t =>
    if t.headD 0 = 0 then [] else t.headD 0 :: cstr n t.tail

theorem strncmp_eq_zero_iff (n : Nat) (p q : List UInt8) :
    strncmp n p q = 0 ↔ cstr n p = cstr n q := by
  induction n generalizing p q with
  | zero => exact ⟨fun _ => rfl, fun _ => rfl⟩
  | succ n ih =>
    unfold strncmp cstr
    by_cases hEq : p.headD 0 = q.headD 0
    · rw [hEq]
      by_cases hZero : q.headD 0 = 0
      · rw [if_neg (fun h => h.1 hZero), if_pos hZero, if_pos hZero]
        simp
      · rw [if_pos ⟨hZero, rfl⟩, if_neg hZero, if_neg hZero, ih]
        simp
    rw [if_neg (fun h => hEq h.2)]
    constructor
    · intro hSub
      have hNat : (p.headD 0).toNat = (q.headD 0).toNat := by omega
      exact absurd (UInt8.toNat_inj.mp hNat) hEq
    intro hStr
    split at hStr
    · rename_i hp
      split at hStr
      · rename_i hq
        exact absurd (hp.trans hq.symm) hEq
      · cases hStr
    · split at hStr
      · cases hStr
      · exact absurd (List.cons.inj hStr).1 hEq

@[simp] theorem length_strncpy (n : Nat) (t : List UInt8) : (strncpy n t).length = n := by
  induction n generalizing t with
  | zero => rfl
  | succ n ih =>
    unfold strncpy
    split
    · rw [List.length_replicate]
    · rw [List.length_cons, ih]

theorem cstr_strncpy (n : Nat) (t : List UInt8) : cstr n (strncpy n t) = cstr n t := by
  induction n generalizing t with
  | zero => rfl
  | succ n ih =>
    by_cases h : t.headD 0 = 0
    · simp only [strncpy, cstr, h, if_true, List.replicate_succ, List.headD_cons]
    · simp only [strncpy, cstr, h, if_false, List.headD_cons, List.tail_cons, ih]

---- Directory Entries

structure Dirent where
  inum : UInt16
  name : Bytes DIRSIZ

namespace Dirent

/- An entry for a name. -/
def make (inum : UInt16) (name : List UInt8) : Dirent where
  inum := inum
  name := fun i => (strncpy DIRSIZ name).getD i.1 0

/- An entry of zero bytes. -/
def zero : Dirent := ⟨0, Bytes.zero⟩

def bytes (de : Dirent) : List UInt8 := le 2 de.inum.toNat ++ de.name.slice 0 DIRSIZ

def ofBytes (xs : List UInt8) : Dirent where
  inum := UInt16.ofNat (word xs 0 2)
  name := fun i => xs.getD (2 + i.1) 0

/- The name as a string. -/
def key (de : Dirent) : List UInt8 := cstr DIRSIZ (de.name.slice 0 DIRSIZ)

@[simp] theorem length_bytes (de : Dirent) : de.bytes.length = DIRENT := by
  unfold bytes
  rw [List.length_append, Bytes.length_le, Bytes.length_slice]
  rfl

theorem ofBytes_bytes (de : Dirent) : ofBytes de.bytes = de := by
  have hInum : word de.bytes 0 2 = de.inum.toNat := by
    unfold bytes
    rw [Bytes.word_le_append]
    exact Nat.mod_eq_of_lt de.inum.toNat_lt
  have hName : (fun i : Fin DIRSIZ => de.bytes.getD (2 + i.1) 0) = de.name := by
    funext i
    unfold bytes
    simp [List.getD_eq_getElem?_getD, Bytes.slice, Bytes.get]
  unfold ofBytes
  rw [hInum, hName, UInt16.ofNat_toNat]

theorem slice_make (inum : UInt16) (name : List UInt8) :
    (make inum name).name.slice 0 DIRSIZ = strncpy DIRSIZ name := by
  apply List.ext_getElem
  · simp
  · intro i hi hi'
    simp only [Bytes.length_slice] at hi
    simp [Bytes.slice, Bytes.get, make, hi]

theorem key_make (inum : UInt16) (name : List UInt8) : (make inum name).key = cstr DIRSIZ name := by
  unfold key
  rw [slice_make, cstr_strncpy]

end Dirent

/- The comparison of names. -/
def namecmp (s t : List UInt8) : Int := strncmp DIRSIZ s t

theorem namecmp_name_eq_zero_iff (name : List UInt8) (de : Dirent) :
    namecmp name (de.name.slice 0 DIRSIZ) = 0 ↔ cstr DIRSIZ name = de.key := strncmp_eq_zero_iff ..

---- Paths

def slash : UInt8 := 47

/- The names `"."` and `".."`. -/
def dot : List UInt8 := [46]

def dotdot : List UInt8 := [46, 46]

/-
  The first element of a path, cut to `DIRSIZ` bytes, and the
  rest of the path without leading slashes.
-/
def skipelem (path : List UInt8) : Option (List UInt8 × List UInt8) :=
  let s := path.dropWhile (· = slash)
  if s = [] then
    none
  else
    some ((s.takeWhile (· ≠ slash)).take DIRSIZ, (s.dropWhile (· ≠ slash)).dropWhile (· = slash))

end Xv6.Fs

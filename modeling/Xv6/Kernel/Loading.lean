import Xv6.Fs.Format
import Xv6.Kernel.Isolation

/-
  What `exec` loads from a file.

  The headers of the file say which bytes go where, with
  64-bit offsets into the file. `exec` keeps the offset of
  the header table in an `int` and the offset of a segment
  in a 32-bit number. A file that uses the upper half is
  loaded from somewhere else.

  Main declarations:
    * `FromHeaders`
    * `Narrow`
    * `exec_loads_iff`
-/

namespace Xv6.Kernel

open Vm

---- The Headers Of A File

/- `readi` of a file with these bytes. -/
def fileInode (content : List UInt8) : Inode :=
  fun off n =>
    if off > content.length ∨ (off + n) % 2 ^ 32 < off then [] else (content.drop off).take n

/- The `n` program headers from an offset on. -/
def headersAt (content : List UInt8) : Nat → Nat → List Proghdr
| 0, _ => []
| n + 1, off =>
  Proghdr.ofBytes ((content.drop off).take PROGHDRSIZE) :: headersAt content n (off + PROGHDRSIZE)

def phoff (content : List UInt8) : Nat := field (content.take ELFHDRSIZE) 32 8

def phnum (content : List UInt8) : Nat := field (content.take ELFHDRSIZE) 56 2

/- All program headers, at their full offset. -/
def headers (content : List UInt8) : List Proghdr :=
  headersAt content (phnum content) (phoff content)

/- The header is loaded, and its segment covers `va`. -/
def Proghdr.covers (va : Nat) (ph : Proghdr) : Bool :=
  ph.type = ELF_PROG_LOAD ∧ ph.vaddr ≤ va ∧ va < ph.vaddr + ph.filesz

/- The byte at `va`: that of the last segment which covers it, and `x` if there is none. -/
def coveredByte (content : List UInt8) (phs : List Proghdr) (va : Nat) (x : UInt8) : UInt8 :=
  match (phs.filter (Proghdr.covers va)).getLast? with
  | some ph => content.getD (ph.off + (va - ph.vaddr)) 0
  | none => x

def imageByte (content : List UInt8) (va : Nat) : UInt8 :=
  coveredByte content (headers content) va 0

/- Where the image ends, below guard page and stack. -/
def imageEnd (s : State) (i : Nat) : Nat := (s.proc i).sz - (USERSTACK + 1) * PGSIZE

/- The address space is what the headers say. -/
structure FromHeaders (content : List UInt8) (s : State) (i : Nat) : Prop where
  table : phnum content = 0 ∨ phoff content + phnum content * PROGHDRSIZE ≤ content.length
  inside : ∀ ph ∈ headers content,
    ph.type = ELF_PROG_LOAD → ph.filesz = 0 ∨ ph.off + ph.filesz ≤ content.length
  fits : ∀ ph ∈ headers content,
    ph.type = ELF_PROG_LOAD → ph.filesz ≤ ph.memsz ∧ ph.vaddr + ph.memsz ≤ imageEnd s i
  bytes : ∀ va < imageEnd s i, s.byteOf i va = some (imageByte content va)

/- The offsets fit into 32 bits, where they are used. -/
structure Narrow (content : List UInt8) : Prop where
  table : phnum content = 0 ∨ phoff content < 2 ^ 32
  segments : ∀ ph ∈ headers content, ph.type = ELF_PROG_LOAD → ph.filesz = 0 ∨ ph.off < 2 ^ 32

---- Reading A File

section

variable {content : List UInt8} {off n sz : Nat}

theorem readi_whole (hn : 0 < n) (h : (readi (fileInode content) off n).length = n) :
    off + n ≤ content.length ∧ readi (fileInode content) off n = (content.drop off).take n := by
  unfold readi fileInode at *
  by_cases hOut : off > content.length ∨ (off + n) % 2 ^ 32 < off
  · rw [if_pos hOut, List.take_nil, List.length_nil] at h
    omega
  · rw [if_neg hOut, List.take_take, Nat.min_self] at h ⊢
    rw [List.length_take, List.length_drop] at h
    exact ⟨by omega, rfl⟩

theorem covers_iff {ph : Proghdr} (hType : ph.type = ELF_PROG_LOAD) (va : Nat) :
    ph.covers va = true ↔ ph.vaddr ≤ va ∧ va < ph.vaddr + ph.filesz := by
  rw [Proghdr.covers, decide_eq_true_eq]
  exact and_iff_right hType

theorem coveredByte_cons (ph : Proghdr) (phs : List Proghdr) (va : Nat) (x : UInt8) :
    coveredByte content (ph :: phs) va x = coveredByte content phs va (if ph.covers va then
        content.getD (ph.off + (va - ph.vaddr)) 0
      else
        x) := by
  unfold coveredByte
  by_cases hCovers : ph.covers va = true
  · rw [List.filter_cons_of_pos hCovers, List.getLast?_cons, if_pos hCovers]
    cases (phs.filter (Proghdr.covers va)).getLast? with
    | none => rfl
    | some last => rfl
  · rw [List.filter_cons_of_neg hCovers, if_neg hCovers]

section

variable (hLen : content.length ≤ Fs.MAXFILE * BSIZE)
include hLen

theorem offset_small {offset size j : Nat} (hSize : size ≤ 2 ^ 28)
    (hOffset : offset ≤ content.length) (hj : j * PGSIZE < size) :
    (offset + j * PGSIZE) % 2 ^ 32 = offset + j * PGSIZE := by
  have hMax : Fs.MAXFILE * BSIZE ≤ 2 ^ 20 := by decide
  exact Nat.mod_eq_of_lt (by omega)

theorem chunk_whole {offset size x : Nat} (hSize : size ≤ 2 ^ 28) (hOffset : offset < 2 ^ 32)
    (h : Whole (fileInode content) offset size 0) (hx : x < size) :
    offset + x / PGSIZE * PGSIZE + min (size - x / PGSIZE * PGSIZE) PGSIZE ≤ content.length ∧
      chunk (fileInode content) offset size x = (content.drop (offset + x / PGSIZE * PGSIZE)).take
        (min (size - x / PGSIZE * PGSIZE) PGSIZE) := by
  have hPos : 0 < PGSIZE := by decide
  have hDown := Nat.div_mul_le_self x PGSIZE
  have hFirst := h 0 (Nat.le_refl 0) (by omega)
  have hHere := h x (Nat.zero_le x) hx
  unfold chunk at hFirst hHere ⊢
  rw [Nat.zero_div, Nat.zero_mul, Nat.sub_zero, Nat.add_zero, Nat.mod_eq_of_lt hOffset] at hFirst
  have hStart := (readi_whole (by omega) hFirst).1
  rw [offset_small hLen hSize (by omega) (by omega)] at hHere ⊢
  exact readi_whole (by omega) hHere

theorem Whole.inside {offset size : Nat} (hSize : size ≤ 2 ^ 28) (hOffset : offset < 2 ^ 32)
    (h : Whole (fileInode content) offset size 0) : size = 0 ∨ offset + size ≤ content.length := by
  by_cases hZero : size = 0
  · exact .inl hZero
  · have hLast := (chunk_whole hLen hSize hOffset h (x := size - 1) (by omega)).1
    have hPos : 0 < PGSIZE := by decide
    have hMod := Nat.mod_lt (size - 1) hPos
    have hSplit := Nat.div_add_mod' (size - 1) PGSIZE
    refine .inr ?_
    omega

end

theorem segment_byte {offset size va y : Nat} (c : Memory)
    (hLen : content.length ≤ Fs.MAXFILE * BSIZE) (hSize : size ≤ 2 ^ 28) (hOffset : offset < 2 ^ 32)
    (h : Whole (fileInode content) offset size 0) :
    segment (fileInode content) va offset size 0 c y =
      if va ≤ y ∧ y < va + size then
        content.getD (offset + (y - va)) 0
      else
        c y := by
  unfold segment
  rw [Nat.add_zero]
  by_cases hIn : va ≤ y ∧ y < va + size
  · rw [if_pos hIn, if_pos hIn, (chunk_whole hLen hSize hOffset h (by omega)).2]
    have hPos : 0 < PGSIZE := by decide
    have hMod := Nat.mod_lt (y - va) hPos
    have hSplit := Nat.div_add_mod' (y - va) PGSIZE
    rw [List.getD_eq_getElem?_getD, List.getElem?_take,
      if_pos (by omega), List.getElem?_drop, Nat.add_assoc, hSplit, ← List.getD_eq_getElem?_getD]
  · rw [if_neg hIn, if_neg hIn]

---- Reading The Headers

/- What a header that was loaded says. -/
structure Proghdr.Loads (content : List UInt8) (sz : Nat) (ph : Proghdr) : Prop where
  inside : ph.filesz = 0 ∨ ph.off + ph.filesz ≤ content.length
  filesz : ph.filesz ≤ ph.memsz
  fits : ph.vaddr + ph.memsz ≤ sz

variable (hLen : content.length ≤ Fs.MAXFILE * BSIZE) (hSz : sz ≤ 2 ^ 28)
include hLen hSz

theorem Passed.loads {ph : Proghdr} (h : Passed (fileInode content) sz ph)
    (hNarrow : ph.filesz = 0 ∨ ph.off < 2 ^ 32) :
    ph.Loads content sz ∧ ∀ (c : Memory) y, segment (fileInode content) ph.vaddr
        (ph.off % 2 ^ 32) (ph.filesz % 2 ^ 32) 0 c y =
      if ph.vaddr ≤ y ∧ y < ph.vaddr + ph.filesz then
        content.getD (ph.off + (y - ph.vaddr)) 0
      else
        c y := by
  have hFilesz := h.filesz
  have hFits := h.fits
  have hWhole := h.whole
  have hSize : ph.filesz % 2 ^ 32 = ph.filesz := Nat.mod_eq_of_lt (by omega)
  rw [hSize] at hWhole ⊢
  rcases hNarrow with hZero | hOff
  · refine ⟨⟨.inl hZero, hFilesz, hFits⟩, ?_⟩
    intro c y
    rw [hZero, segment_end _ c (Nat.le_refl 0), if_neg (by omega)]
  · rw [Nat.mod_eq_of_lt hOff] at hWhole ⊢
    refine ⟨⟨hWhole.inside hLen (by omega) hOff, hFilesz, hFits⟩, ?_⟩
    intro c y
    exact segment_byte c hLen (by omega) hOff hWhole

theorem Loaded.headersAt (h : Loaded (fileInode content) sz n off)
    (hNarrow : ∀ ph ∈ Kernel.headersAt content n off,
      ph.type = ELF_PROG_LOAD → ph.filesz = 0 ∨ ph.off < 2 ^ 32) :
    (n = 0 ∨ off + n * PROGHDRSIZE ≤ content.length) ∧ (∀ ph ∈ Kernel.headersAt content n off,
      ph.type = ELF_PROG_LOAD → ph.Loads content sz) ∧ ∀ (c : Memory) y,
        segments (fileInode content) n off c y =
          coveredByte content (Kernel.headersAt content n off) y (c y) := by
  induction n generalizing off with
  | zero =>
    refine ⟨.inl rfl, ?_, fun _ _ => rfl⟩
    intro ph hIn
    cases hIn
  | succ n ih =>
    rcases h with ⟨hRead, hPassed, hRest⟩
    rcases readi_whole (by decide) hRead with ⟨hInside, hBytes⟩
    have hMax : Fs.MAXFILE * BSIZE ≤ 2 ^ 20 := by decide
    rw [hBytes] at hPassed
    rw [Nat.mod_eq_of_lt (by omega)] at hRest
    rw [Kernel.headersAt, List.forall_mem_cons] at hNarrow
    rcases ih hRest hNarrow.2 with ⟨hTable, hLoads, hSegments⟩
    rw [Kernel.headersAt]
    refine ⟨.inr ?_, ?_, ?_⟩
    · rcases hTable with hZero | hTable
      · rw [hZero]
        omega
      · rw [Nat.add_mul, Nat.one_mul]
        omega
    · rw [List.forall_mem_cons]
      exact ⟨fun hType => (Passed.loads hLen hSz (hPassed hType) (hNarrow.1 hType)).1, hLoads⟩
    · intro c y
      rw [segments, hBytes, Nat.mod_eq_of_lt (by omega), hSegments, coveredByte_cons]
      generalize Proghdr.ofBytes ((content.drop off).take PROGHDRSIZE) = ph at *
      by_cases hType : ph.type = ELF_PROG_LOAD
      · have hIff := covers_iff hType y
        rw [if_pos hType, (Passed.loads hLen hSz (hPassed hType) (hNarrow.1 hType)).2]
        simp only [hIff]
      · have hNot : ¬ ph.covers y = true :=
          fun hCovers => hType (of_decide_eq_true hCovers).1
        rw [if_neg hType, if_neg hNot]

end

---- The Image Of A Process

section

variable {L : Layout} {B : Multiset Nat} {r : Nat → Nat} {s s' : State} {i sz : Nat} {image : Image}
variable {strs : List (List UInt8)} {c : Memory} {content : List UInt8}

section

variable (h : Committed B i strs (PGROUNDUP sz) c image s s')
include h

theorem Committed.imageEnd_eq : imageEnd s' i = PGROUNDUP sz := by
  unfold imageEnd
  rw [h.proc_eq, execProc, h.built.sz, Nat.add_sub_cancel]

theorem Committed.image_bytes {va : Nat} (h' : Inv L B r s') (hLive : Live s' i)
    (hShort : ∀ str ∈ strs, str.length < PGSIZE) (hva : va < imageEnd s' i) :
    s'.byteOf i va = some (c va) := by
  have hSmall := h'.small hLive.1 hLive.2
  rw [h.proc_eq, execProc] at hSmall
  have hRoomy := (h.built.roomy hSmall hShort).1
  have hSz := h.built.sz
  rw [h.imageEnd_eq] at hva
  have hLeaf : s'.leafOf i = leaf s'.kmem.mem image.pagetable := by
    funext v
    rw [State.leafOf, h.proc_eq, execProc]
  have hBelow : va < image.sz - USERSTACK * PGSIZE := by
    rw [hSz, USERSTACK]
    omega
  rw [State.byteOf, hLeaf, h.built.contents.bytes va (div_lt_pageCount (by omega)),
    stackMem_below hRoomy h.built.fits hBelow]

end

section

variable (hNarrow : Narrow content) (hLen : content.length ≤ Fs.MAXFILE * BSIZE)
include hNarrow hLen

/- All headers that were read, where offsets are narrow. -/
theorem headers_of_narrow (hSz : sz ≤ 2 ^ 28)
    (h : Loaded (fileInode content) sz (phnum content) (phoff content % 2 ^ 32)) :
    (phnum content = 0 ∨ phoff content + phnum content * PROGHDRSIZE ≤ content.length) ∧
      (∀ ph ∈ headers content, ph.type = ELF_PROG_LOAD → ph.Loads content sz) ∧ ∀ (c : Memory) y,
        segments (fileInode content) (phnum content) (phoff content % 2 ^ 32) c y =
          coveredByte content (headers content) y (c y) := by
  rcases hNarrow.table with hZero | hTable
  · unfold headers
    rw [hZero]
    refine ⟨.inl rfl, ?_, fun _ _ => rfl⟩
    intro ph hIn
    cases hIn
  · rw [Nat.mod_eq_of_lt hTable] at h ⊢
    exact h.headersAt hLen hSz hNarrow.segments

theorem fromHeaders_of_narrow (hSz : pageCount sz ≤ 2 ^ 15)
    (hLoaded : Loaded (fileInode content) sz (phnum content) (phoff content % 2 ^ 32))
    (h : Committed B i strs (PGROUNDUP sz) (segments (fileInode content) (phnum content)
      (phoff content % 2 ^ 32) (fun _ => 0)) image s s') (h' : Inv L B r s') (hLive : Live s' i)
    (hShort : ∀ str ∈ strs, str.length < PGSIZE) : FromHeaders content s' i := by
  have hUp : sz ≤ PGROUNDUP sz ∧ sz ≤ 2 ^ 28 := by
    unfold pageCount PGSIZE at hSz
    unfold PGROUNDUP UINT64 PGSIZE
    omega
  have hEnd := h.imageEnd_eq
  rcases headers_of_narrow hNarrow hLen hUp.2 hLoaded with ⟨hInside, hLoads, hBytes⟩
  refine ⟨hInside, ?_, ?_, ?_⟩
  · exact fun ph hIn hType => (hLoads ph hIn hType).inside
  · intro ph hIn hType
    have hFits := (hLoads ph hIn hType).fits
    refine ⟨(hLoads ph hIn hType).filesz, ?_⟩
    rw [hEnd]
    omega
  · intro va hva
    rw [h.image_bytes h' hLive hShort hva, hBytes]
    rfl

end

theorem FromHeaders.narrow (h : FromHeaders content s i)
    (hLen : content.length ≤ Fs.MAXFILE * BSIZE) : Narrow content := by
  have hMax : Fs.MAXFILE * BSIZE ≤ 2 ^ 20 := by decide
  refine ⟨?_, ?_⟩
  · rcases h.table with hZero | hInside
    · exact .inl hZero
    · exact .inr (by omega)
  · intro ph hIn hType
    rcases h.inside ph hIn hType with hZero | hInside
    · exact .inl hZero
    · exact .inr (by omega)

/-
  A call of `exec` that succeeds has loaded what the headers
  say if and only if the offsets in the headers fit into 32
  bits.
-/
theorem exec_loads_iff
    (content : List UInt8)
    (argv : List Nat)
    (h : Inv L B r s)
    (hLive : Live s i)
    (hLen : content.length ≤ Fs.MAXFILE * BSIZE)
    (hArgs : ∀ a ∈ argv, ArgPage (inUse B s) s.kmem.mem a)
    (hArgc : argv.length < MAXARG) :
    ∃ k s',
      exec L i (some (fileInode content)) argv s = .ok (k, s') ∧
      (k ≠ -1 → (FromHeaders content s' i ↔ Narrow content)) := by
  refine Prog.exists_ok_of_wp (exec_spec h hLive.1 hLive.2 hArgs hArgc ?_ ?_)
  · intro kmem _ _ _ hNot
    exact absurd rfl hNot
  intro node image sz s' hNode hFull hSz h' hLoaded hCommitted _
  cases hNode
  have hHeader := (readi_whole (by decide) hFull).2
  rw [List.drop_zero] at hHeader
  rw [hHeader] at hLoaded hCommitted
  have hLive' : Live s' i := by
    refine ⟨hLive.1, ?_⟩
    rw [hCommitted.proc_eq, execProc]
    exact hLive.2
  refine ⟨fun hFrom => hFrom.narrow hLen, fun hNarrow => ?_⟩
  refine fromHeaders_of_narrow hNarrow hLen hSz hLoaded hCommitted h' hLive' ?_
  intro str hStr
  rcases List.mem_map.mp hStr with ⟨a, ha, rfl⟩
  exact (hArgs a ha).short

end

/- A program with one segment of four bytes, which are at `off` in the file. -/
def program (off : Nat) : List UInt8 :=
  [0x7f, 0x45, 0x4c, 0x46] ++ List.replicate 28 0 ++
    Bytes.le 8 64 ++ List.replicate 16 0 ++ Bytes.le 2 1 ++
    List.replicate 6 0 ++
    (Bytes.le 4 1 ++ Bytes.le 4 0 ++ Bytes.le 8 off ++
      Bytes.le 8 0 ++ Bytes.le 8 0 ++ Bytes.le 8 4 ++
      Bytes.le 8 4 ++ Bytes.le 8 0)

/- The first process has memory for this program. -/
def smallBuilds (off : Nat) : Bool :=
  match buildImage smallLayout (smallBooted.proc 0).trapframe
      (fileInode (program off))
      (readi (fileInode (program off)) 0 ELFHDRSIZE) []
      smallBooted.kmem with
  | .ok (some _, _) => true
  | _ => false

theorem exec_program (off : Nat)
    (hLength : (readi (fileInode (program off)) 0 ELFHDRSIZE).length = ELFHDRSIZE)
    (hMagic : field (readi (fileInode (program off)) 0 ELFHDRSIZE) 0 4 = ELF_MAGIC)
    (hBuilds : smallBuilds off = true) :
    ∃ s', exec smallLayout 0 (some (fileInode (program off))) [] smallBooted = .ok (0, s') := by
  have hImage : Builds smallLayout smallBooted 0 (some (fileInode (program off))) [] := by
    unfold smallBuilds at hBuilds
    split at hBuilds
    · next image kmem hRun =>
        exact ⟨_, image, kmem, rfl, hLength, hMagic, hRun⟩
    · cases hBuilds
  have hSpec : Prog.wp (exec smallLayout 0 (some (fileInode (program off))) [])
      (fun k _ => k = 0) (fun _ => False) smallBooted := by
    refine exec_spec (Reachable.boot smallBooted_booted).good smallBooted_live.1 smallBooted_live.2
      (by rintro a ⟨⟩) (by decide) ?_ ?_
    · intro kmem _ _ hNot
      exact absurd hImage hNot
    · intro node image sz s' _ _ _ _ _ hCommitted
      rw [hCommitted.built.argc]
      rfl
  rcases Prog.exists_ok_of_wp hSpec with ⟨k, s', hRun, hk⟩
  rw [hk] at hRun
  exact ⟨s', hRun⟩

/-
  The segment at offset `2^32` lies far behind the end of
  the file, but `exec` starts the program, with the first
  bytes of the file in its place.
-/
theorem exec_loads_wide :
    Inv smallLayout {0x87fe0000} (refs smallBooted.proc) smallBooted ∧
      (program (2 ^ 32)).length = 120 ∧ ∃ s', exec smallLayout 0
          (some (fileInode (program (2 ^ 32)))) [] smallBooted = .ok (0, s') ∧
        ¬ FromHeaders (program (2 ^ 32)) s' 0 := by
  have hLength : (program (2 ^ 32)).length = 120 := by decide +kernel
  have hHeaders : (headers (program (2 ^ 32))).map (fun ph => (ph.type, ph.filesz, ph.off)) =
      [(ELF_PROG_LOAD, 4, 2 ^ 32)] := by
    decide +kernel
  rcases exec_program (2 ^ 32) (by decide +kernel)
    (by decide +kernel) (by decide +kernel) with ⟨s', hRun⟩
  refine ⟨(Reachable.boot smallBooted_booted).good, hLength, s', hRun, ?_⟩
  intro hFrom
  have hNarrow := hFrom.narrow (by rw [hLength]; decide)
  have hIn : (ELF_PROG_LOAD, 4, 2 ^ 32) ∈
      (headers (program (2 ^ 32))).map (fun ph => (ph.type, ph.filesz, ph.off)) := by
    rw [hHeaders]
    exact List.mem_singleton_self _
  rcases List.mem_map.mp hIn with ⟨ph, hph, hEq⟩
  rcases Prod.mk.inj hEq with ⟨hType, hRest⟩
  rcases Prod.mk.inj hRest with ⟨hSize, hOff⟩
  rcases hNarrow.segments ph hph hType with hZero | hSmall
  · omega
  · omega

/- With its segment in the file the program is loaded. -/
theorem exec_loads_narrow :
    ∃ s', exec smallLayout 0 (some (fileInode (program 0))) [] smallBooted = .ok (0, s') ∧
      FromHeaders (program 0) s' 0 := by
  have hLength : (program 0).length = 120 := by decide +kernel
  have hNarrow : Narrow (program 0) := by
    have hAll : (headers (program 0)).all (fun ph => ph.off < 2 ^ 32) = true := by decide +kernel
    refine ⟨.inr (by decide +kernel), ?_⟩
    intro ph hph _
    exact .inr (of_decide_eq_true (List.all_eq_true.mp hAll ph hph))
  rcases exec_program 0 (by decide +kernel) (by decide +kernel) (by decide +kernel) with ⟨s', hRun⟩
  rcases exec_loads_iff (program 0) [] (Reachable.boot smallBooted_booted).good
    smallBooted_live (by rw [hLength]; decide) (by rintro a ⟨⟩) (by decide) with
    ⟨k, t, hRun', hIff⟩
  rw [hRun] at hRun'
  cases hRun'
  exact ⟨s', hRun, (hIff (by decide)).mpr hNarrow⟩

end Xv6.Kernel

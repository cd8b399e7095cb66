import Xv6.Kernel.Segments

/-
  The stack that `exec` builds: argument strings from the
  top of the stack page down, and below them the vector of
  their addresses.

  The first part is about addresses and bytes alone. It says
  where strings and vector stand and that none overwrites
  another. The second part is about the code, which writes
  to the stack page only.

  Main declarations:
    * `stackMem`
    * `Fits`
    * `pushStack_spec`
-/

namespace Xv6.Kernel

open Prog

open Vm

---- Addresses

/- The addresses of the strings that are pushed from `sp`. -/
def addrs : List (List UInt8) → Nat → List Nat
| [], _ => []
| str :: strs, sp => pushed sp (str.length + 1) :: addrs strs (pushed sp (str.length + 1))

/- The stack pointer below the strings. -/
def spAfter (strs : List (List UInt8)) (sp : Nat) : Nat :=
  strs.foldl (fun sp str => pushed sp (str.length + 1)) sp

/- User memory with the strings, each with its final zero. -/
def pushStrings (strs : List (List UInt8)) (sp : Nat) (c : Memory) : Memory :=
  ((addrs strs sp).zip strs).foldl (fun c p => c.write p.1 (p.2 ++ [0])) c

/- The vector of the addresses, which ends with zero. -/
def vector (strs : List (List UInt8)) (sp : Nat) : List UInt8 :=
  (addrs strs sp ++ [0]).flatMap (Bytes.le 8)

/- The stack pointer that the program starts with. -/
def stackPtr (strs : List (List UInt8)) (sp : Nat) : Nat :=
  pushed (spAfter strs sp) (vector strs sp).length

def stackMem (strs : List (List UInt8)) (sp : Nat) (c : Memory) : Memory :=
  (pushStrings strs sp c).write (stackPtr strs sp) (vector strs sp)

/- The strings stay above the base of the stack. -/
def StringsFit (base : Nat) (strs : List (List UInt8)) (sp : Nat) : Prop :=
  ∀ a ∈ addrs strs sp, base ≤ a

/- So does the vector. -/
def Fits (base : Nat) (strs : List (List UInt8)) (sp : Nat) : Prop :=
  StringsFit base strs sp ∧ base ≤ stackPtr strs sp

section

variable {strs : List (List UInt8)} {str : List UInt8} {base sp n : Nat} {c : Memory}

theorem pushed_le (hn : n ≤ sp) (hSp : sp < UINT64) : pushed sp n + n ≤ sp := by
  unfold pushed UINT64 at *
  omega

theorem pushed_aligned (sp n : Nat) : pushed sp n % 16 = 0 := by
  unfold pushed
  omega

theorem stackPtr_lt (strs : List (List UInt8)) (sp : Nat) : stackPtr strs sp < UINT64 := by
  have hMod := Nat.mod_lt (spAfter strs sp + UINT64 - (vector strs sp).length)
    (show 0 < UINT64 by decide)
  unfold stackPtr pushed
  omega

theorem stringsFit_cons :
    StringsFit base (str :: strs) sp ↔
      base ≤ pushed sp (str.length + 1) ∧ StringsFit base strs (pushed sp (str.length + 1)) :=
  List.forall_mem_cons

theorem spAfter_cons (str : List UInt8) (strs : List (List UInt8)) (sp : Nat) :
    spAfter (str :: strs) sp = spAfter strs (pushed sp (str.length + 1)) := List.foldl_cons

theorem pushStrings_cons (str : List UInt8) (strs : List (List UInt8)) (sp : Nat) (c : Memory) :
    pushStrings (str :: strs) sp c = pushStrings strs (pushed sp (str.length + 1))
      (c.write (pushed sp (str.length + 1)) (str ++ [0])) := by
  unfold pushStrings
  rw [addrs, List.zip_cons_cons, List.foldl_cons]

theorem length_addrs (strs : List (List UInt8)) (sp : Nat) :
    (addrs strs sp).length = strs.length := by
  induction strs generalizing sp with
  | nil => rfl
  | cons str strs ih => rw [addrs, List.length_cons, List.length_cons, ih]

theorem length_vector (strs : List (List UInt8)) (sp : Nat) :
    (vector strs sp).length = 8 * (strs.length + 1) := by
  unfold vector
  rw [List.length_flatMap]
  simp [length_addrs]
  omega

/-
  Each string is shorter than a page, and the stack starts
  above the first page, so no push wraps around.
-/
structure Roomy (base : Nat) (strs : List (List UInt8)) (sp : Nat) : Prop where
  page : PGSIZE ≤ base
  low : base ≤ sp
  high : sp < UINT64
  short : ∀ str ∈ strs, str.length < PGSIZE

/- One push, and the room that is left. -/
theorem Roomy.cons (h : Roomy base (str :: strs) sp) (hFits : base ≤ pushed sp (str.length + 1)) :
    pushed sp (str.length + 1) + (str.length + 1) ≤ sp ∧
      Roomy base strs (pushed sp (str.length + 1)) := by
  have hShort := h.short str (by simp)
  have hPage := h.page
  have hLow := h.low
  have hHigh := h.high
  have hLe := pushed_le (n := str.length + 1) (by omega) hHigh
  refine ⟨hLe, hPage, hFits, by omega, ?_⟩
  exact fun t ht => h.short t (by simp [ht])

section

variable (h : Roomy base strs sp) (hFits : StringsFit base strs sp)
include h hFits

/- Strings are pushed below the stack pointer. -/
theorem spAfter_le : spAfter strs sp ≤ sp ∧ base ≤ spAfter strs sp := by
  induction strs generalizing sp with
  | nil => exact ⟨Nat.le_refl sp, h.low⟩
  | cons str strs ih =>
    rw [stringsFit_cons] at hFits
    rcases h.cons hFits.1 with ⟨hLe, hRoomy⟩
    have hRest := ih hRoomy hFits.2
    rw [spAfter_cons]
    generalize pushed sp (str.length + 1) = sp₁ at *
    omega

theorem pushStrings_above {y : Nat} (hy : sp ≤ y) : pushStrings strs sp c y = c y := by
  induction strs generalizing sp c with
  | nil => rfl
  | cons str strs ih =>
    rw [stringsFit_cons] at hFits
    rcases h.cons hFits.1 with ⟨hLe, hRoomy⟩
    rw [pushStrings_cons]
    generalize pushed sp (str.length + 1) = sp₁ at *
    have hBelow : sp₁ + (str ++ [0]).length ≤ y := by
      rw [List.length_append, List.length_singleton]
      exact Nat.le_trans hLe hy
    have hAbove : sp₁ ≤ y := by omega
    rw [ih hRoomy hFits.2 hAbove]
    exact Memory.write_other c _ (.inr hBelow)

theorem pushStrings_below {y : Nat} (hy : y < spAfter strs sp) : pushStrings strs sp c y = c y := by
  induction strs generalizing sp c with
  | nil => rfl
  | cons str strs ih =>
    rw [stringsFit_cons] at hFits
    rcases h.cons hFits.1 with ⟨hLe, hRoomy⟩
    have hAfter := spAfter_le hRoomy hFits.2
    rw [spAfter_cons] at hy
    rw [pushStrings_cons]
    generalize pushed sp (str.length + 1) = sp₁ at *
    rw [ih hRoomy hFits.2 hy]
    exact Memory.write_other c _ (.inl (Nat.lt_of_lt_of_le hy hAfter.1))

/- Where string `k` stands, between the top and the rest. -/
theorem addrs_range {k : Nat} (hk : k < strs.length) :
    spAfter strs sp ≤ (addrs strs sp).getD k 0 ∧ (addrs strs sp).getD k 0 +
      ((strs.getD k []).length + 1) ≤ sp ∧ (addrs strs sp).getD k 0 % 16 = 0 := by
  induction strs generalizing sp k with
  | nil => exact absurd hk (Nat.not_lt_zero k)
  | cons str strs ih =>
    rw [stringsFit_cons] at hFits
    rcases h.cons hFits.1 with ⟨hLe, hRoomy⟩
    have hAfter := spAfter_le hRoomy hFits.2
    have hAligned := pushed_aligned sp (str.length + 1)
    rw [addrs, spAfter_cons]
    generalize pushed sp (str.length + 1) = sp₁ at *
    cases k with
    | zero =>
      rw [List.getD_cons_zero, List.getD_cons_zero]
      exact ⟨hAfter.1, hLe, hAligned⟩
    | succ k =>
      have hRest := ih hRoomy hFits.2 (k := k) (Nat.lt_of_succ_lt_succ hk)
      rw [List.getD_cons_succ, List.getD_cons_succ]
      have hBelow : sp₁ ≤ sp := Nat.le_trans (Nat.le_add_right _ _) hLe
      exact ⟨hRest.1, Nat.le_trans hRest.2.1 hBelow, hRest.2.2⟩

/- Later strings stand below earlier ones. -/
theorem addrs_apart {j k : Nat} (hjk : j < k) (hk : k < strs.length) :
    (addrs strs sp).getD k 0 + ((strs.getD k []).length + 1) ≤ (addrs strs sp).getD j 0 := by
  induction strs generalizing sp j k with
  | nil => exact absurd hk (Nat.not_lt_zero k)
  | cons str strs ih =>
    rw [stringsFit_cons] at hFits
    rcases h.cons hFits.1 with ⟨hLe, hRoomy⟩
    cases k with
    | zero => exact absurd hjk (Nat.not_lt_zero j)
    | succ k =>
      have hLess := Nat.lt_of_succ_lt_succ hk
      rw [addrs, List.getD_cons_succ, List.getD_cons_succ]
      generalize pushed sp (str.length + 1) = sp₁ at *
      cases j with
      | zero =>
        rw [List.getD_cons_zero]
        exact (addrs_range hRoomy hFits.2 hLess).2.1
      | succ j =>
        rw [List.getD_cons_succ]
        exact ih hRoomy hFits.2 (Nat.lt_of_succ_lt_succ hjk) hLess

end

theorem stackMem_below {y : Nat} (h : Roomy base strs sp) (hFits : Fits base strs sp)
    (hy : y < base) : stackMem strs sp c y = c y := by
  have hAfter := spAfter_le h hFits.1
  have hPtr : y < stackPtr strs sp := Nat.lt_of_lt_of_le hy hFits.2
  rw [stackMem, Memory.write_other _ _ (.inl hPtr)]
  exact pushStrings_below h hFits.1 (Nat.lt_of_lt_of_le hy hAfter.2)

theorem pushStrings_string {k x : Nat} (h : Roomy base strs sp) (hFits : StringsFit base strs sp)
    (hk : k < strs.length) (hx : x ≤ (strs.getD k []).length) :
    pushStrings strs sp c ((addrs strs sp).getD k 0 + x) = (strs.getD k [] ++ [0]).getD x 0 := by
  induction strs generalizing sp c k with
  | nil => exact absurd hk (Nat.not_lt_zero k)
  | cons str strs ih =>
    rw [stringsFit_cons] at hFits
    rcases h.cons hFits.1 with ⟨hLe, hRoomy⟩
    rw [addrs, pushStrings_cons]
    generalize pushed sp (str.length + 1) = sp₁ at *
    cases k with
    | zero =>
      rw [List.getD_cons_zero] at hx
      rw [List.getD_cons_zero, List.getD_cons_zero,
        pushStrings_above hRoomy hFits.2 (Nat.le_add_right sp₁ x)]
      have hIn : sp₁ ≤ sp₁ + x ∧ sp₁ + x < sp₁ + (str ++ [0]).length := by
        rw [List.length_append, List.length_singleton]
        omega
      unfold Memory.write
      rw [if_pos hIn, Nat.add_sub_cancel_left]
    | succ k =>
      rw [List.getD_cons_succ] at hx
      rw [List.getD_cons_succ, List.getD_cons_succ]
      exact ih hRoomy hFits.2 (Nat.lt_of_succ_lt_succ hk) hx

end

---- Writing The Stack

/- The string in a page the kernel holds. -/
def strIn (m : Memory) (a : Nat) : List UInt8 := (m.read a PGSIZE).takeWhile (· ≠ 0)

/- A page among the kept ones with a string that ends. -/
structure ArgPage (R : Multiset Nat) (m : Memory) (a : Nat) : Prop where
  isPage : IsPage a
  kept : a ∈ R
  short : (strIn m a).length < PGSIZE

/- The page `v` is a stack page with entry `w`. -/
structure StackPage (f : Nat → Option Nat) (v w : Nat) : Prop where
  entry : f v = some w
  user : w &&& PTE_U ≠ 0
  write : w &&& PTE_W ≠ 0
  pos : 1 ≤ v
  below : v * PGSIZE < MAXVA

section

variable {L : Layout} {s : Kmem} {pt v w sp : Nat} {f : Nat → Option Nat} {R : Multiset Nat}
variable {E : Panic → Prop} {c : Memory}

theorem strAt_spec {a : Nat} {Q : List UInt8 → Kmem → Prop} (hPost : Q (strIn s.mem a) s) :
    wp (strAt a) Q E s := by
  unfold strAt
  rw [wp_bind, wp_get, wp_pure]
  exact hPost

theorem Keeps.strIn {m m' : Memory} {a : Nat} (h : Keeps R m m') (hPage : IsPage a) (hIn : a ∈ R) :
    Kernel.strIn m' a = Kernel.strIn m a := by
  have hRead : m'.read a PGSIZE = m.read a PGSIZE := by
    refine List.map_congr_left ?_
    intro o ho
    exact h.page hPage hIn (List.mem_range.mp ho)
  unfold Kernel.strIn
  rw [hRead]

theorem ArgPage.keeps {m m' : Memory} {a : Nat} (h : ArgPage R m a) (hKeeps : Keeps R m m') :
    ArgPage R m' a := by
  refine ⟨h.isPage, h.kept, ?_⟩
  rw [Keeps.strIn hKeeps h.isPage h.kept]
  exact h.short

theorem StackPage.bounds (h : StackPage f v w) :
    PGSIZE ≤ v * PGSIZE ∧ (v + 1) * PGSIZE < UINT64 := by
  have hPos := h.pos
  have hBelow := h.below
  unfold MAXVA PGSIZE UINT64 at *
  omega

theorem StackPage.pushed_le {n : Nat} (h : StackPage f v w) (hLow : v * PGSIZE ≤ sp)
    (hHigh : sp ≤ (v + 1) * PGSIZE) (hn : n ≤ PGSIZE) : pushed sp n + n ≤ sp := by
  have hBounds := h.bounds
  exact Kernel.pushed_le (by omega) (by omega)

/- A push writes to the stack page, if it fits there. -/
theorem push_spec (bytes : List UInt8) {Q : Option Nat → Kmem → Prop}
    (h : Table L s pt f (frames f 0 (v + 1) + R)) (hStack : StackPage f v w)
    (hc : Contents s.mem f (v + 1) c) (hLen : bytes.length ≠ 0) (hShort : bytes.length ≤ PGSIZE)
    (hLow : v * PGSIZE ≤ sp) (hHigh : sp ≤ (v + 1) * PGSIZE)
    (hNone : pushed sp bytes.length < v * PGSIZE → Q none s)
    (hSome : ∀ s', v * PGSIZE ≤ pushed sp bytes.length → Table L s' pt f (frames f 0 (v + 1) + R) →
      Keeps (frames f 0 v + R) s.mem s'.mem → Contents s'.mem f (v + 1)
        (c.write (pushed sp bytes.length) bytes) → Q (some (pushed sp bytes.length)) s') :
    wp (push pt (v * PGSIZE) sp bytes) Q E s := by
  unfold push
  by_cases hOut : pushed sp bytes.length < v * PGSIZE
  · rw [if_pos hOut, wp_pure]
    exact hNone hOut
  rw [if_neg hOut, wp_bind]
  have hLe := hStack.pushed_le hLow hHigh hShort
  generalize hTop : pushed sp bytes.length = top at *
  have hOffset : top = v * PGSIZE + (top - v * PGSIZE) := by omega
  have hInPage : top - v * PGSIZE + bytes.length ≤ PGSIZE := by
    rw [Nat.add_mul, Nat.one_mul] at hHigh
    omega
  have hFrame : PTE2PA w ∈ frames f 0 (v + 1) := mem_frames (Nat.lt_succ_self v) hStack.entry
  have hTable := (h.writeFrame hFrame hInPage).1
  have hWrite := hc.write h (Nat.lt_succ_self v) hStack.entry hInPage
  have hKeeps :
      Keeps (frames f 0 v + R) s.mem (s.mem.write (PTE2PA w + (top - v * PGSIZE)) bytes) := by
    have hPage := h.isPage_rest (p := PTE2PA w) (Multiset.mem_add.mpr (.inl hFrame))
    refine (frame_write s.mem bytes hPage.aligned hInPage).keeps_rest ?_
    have hNodup := h.rest_nodup
    rw [frames_last, Nat.zero_add, frameAt, hStack.entry,
      Option.elim_some, add_assoc, add_left_comm, Multiset.singleton_add] at hNodup
    exact hNodup
  rw [← hOffset] at hWrite
  rw [hOffset]
  refine copyout_page h hStack.entry hStack.user hStack.write hStack.below hLen hInPage ?_
  rw [if_neg (by decide), wp_pure, ← hOffset]
  refine hSome _ (by omega) hTable ?_ ?_
  · dsimp only
    exact hKeeps
  · dsimp only
    exact hWrite

/- The strings that the pages of a vector hold. -/
def strsIn (m : Memory) (argv : List Nat) : List (List UInt8) := argv.map (strIn m)

theorem strsIn_keeps {m m' : Memory} {argv : List Nat} (hArgs : ∀ a ∈ argv, ArgPage R m a)
    (hKeeps : Keeps R m m') : strsIn m' argv = strsIn m argv := by
  refine List.map_congr_left ?_
  intro a ha
  exact Keeps.strIn hKeeps (hArgs a ha).isPage (hArgs a ha).kept

theorem StackPage.roomy {argv : List Nat} {m : Memory} (h : StackPage f v w)
    (hArgs : ∀ a ∈ argv, ArgPage R m a) :
    Roomy (v * PGSIZE) (strsIn m argv) ((v + 1) * PGSIZE) := by
  have hLow : v * PGSIZE ≤ (v + 1) * PGSIZE := by
    rw [Nat.add_mul]
    omega
  refine ⟨h.bounds.1, hLow, h.bounds.2, ?_⟩
  intro str hStr
  rcases List.mem_map.mp hStr with ⟨a, ha, rfl⟩
  exact (hArgs a ha).short

variable (h : Table L s pt f (frames f 0 (v + 1) + R)) (hStack : StackPage f v w)
  (hc : Contents s.mem f (v + 1) c)
include h hStack hc

/- All strings are pushed, or one does not fit. -/
theorem pushArgs_spec {argv ustack : List Nat} {Q : Option (Nat × List Nat) → Kmem → Prop}
    (hArgs : ∀ a ∈ argv, ArgPage R s.mem a) (hCount : ustack.length + argv.length ≤ MAXARG)
    (hLow : v * PGSIZE ≤ sp) (hHigh : sp ≤ (v + 1) * PGSIZE) (hNone :
      ∀ s', Table L s' pt f (frames f 0 (v + 1) + R) → Keeps (frames f 0 v + R) s.mem s'.mem →
        ¬ StringsFit (v * PGSIZE) (strsIn s.mem argv) sp → Q none s') (hSome :
      ∀ s', Table L s' pt f (frames f 0 (v + 1) + R) → Keeps (frames f 0 v + R) s.mem s'.mem →
        StringsFit (v * PGSIZE) (strsIn s.mem argv) sp → Contents s'.mem f (v + 1)
          (pushStrings (strsIn s.mem argv) sp c) → Q
          (some (spAfter (strsIn s.mem argv) sp, ustack ++ addrs (strsIn s.mem argv) sp))
          s') : wp (pushArgs pt (v * PGSIZE) argv sp ustack) Q E s := by
  induction argv generalizing s sp ustack c with
  | nil =>
    simp only [pushArgs, wp_pure]
    have hDone := hSome s h (Keeps.refl _ _) (by rintro a ⟨⟩) hc
    rw [strsIn, List.map_nil, addrs, List.append_nil] at hDone
    exact hDone
  | cons arg argv ih =>
    have hArg := hArgs arg (by simp)
    have hRoom : ¬ ustack.length ≥ MAXARG := by
      rw [List.length_cons] at hCount
      omega
    have hCons : strsIn s.mem (arg :: argv) = strIn s.mem arg :: strsIn s.mem argv := rfl
    have hLength : (strIn s.mem arg ++ [0]).length = (strIn s.mem arg).length + 1 := by
      rw [List.length_append, List.length_singleton]
    have hShort := hArg.short
    rw [pushArgs, if_neg hRoom, wp_bind]
    refine strAt_spec ?_
    rw [wp_bind]
    refine push_spec _ h hStack hc (by omega) (by omega) hLow hHigh ?_ ?_
    · intro hOut
      rw [hLength] at hOut
      rw [wp_pure]
      refine hNone s h (Keeps.refl _ _) ?_
      rw [hCons, stringsFit_cons]
      omega
    intro s₁ hIn h₁ hKeeps₁ hc₁
    rw [hLength] at hIn hc₁ ⊢
    have hRest : Keeps R s.mem s₁.mem := hKeeps₁.mono (by simp +contextual)
    have hArgs₁ : ∀ a ∈ argv, ArgPage R s₁.mem a := fun a ha => (hArgs a (by simp [ha])).keeps hRest
    have hSame : strsIn s₁.mem argv = strsIn s.mem argv :=
      strsIn_keeps (fun a ha => hArgs a (by simp [ha])) hRest
    have hSp : pushed sp ((strIn s.mem arg).length + 1) ≤ sp := by
      have hLe := hStack.pushed_le hLow hHigh (Nat.succ_le_of_lt hShort)
      exact Nat.le_trans (Nat.le_add_right _ _) hLe
    refine ih h₁ hc₁ hArgs₁ ?_ hIn (Nat.le_trans hSp hHigh) ?_ ?_
    · rw [List.length_append, List.length_singleton]
      rw [List.length_cons] at hCount
      omega
    · intro s' h' hKeeps' hNot
      refine hNone s' h' (hKeeps₁.trans hKeeps') ?_
      rw [hSame] at hNot
      rw [hCons, stringsFit_cons]
      exact fun hFit => hNot hFit.2
    · intro s' h' hKeeps' hFit hc'
      rw [hSame] at hFit hc' ⊢
      have hDone := hSome s' h' (hKeeps₁.trans hKeeps')
      rw [hCons, stringsFit_cons, pushStrings_cons, spAfter_cons, addrs] at hDone
      rw [List.append_assoc]
      exact hDone ⟨hIn, hFit⟩ hc'

/- The whole stack is written, or it does not fit. -/
theorem pushStack_spec {argv : List Nat} {Q : Option (Nat × Nat) → Kmem → Prop}
    (hArgs : ∀ a ∈ argv, ArgPage R s.mem a) (hCount : argv.length < MAXARG) (hNone :
      ∀ s', Table L s' pt f (frames f 0 (v + 1) + R) → Keeps (frames f 0 v + R) s.mem s'.mem →
        ¬ Fits (v * PGSIZE) (strsIn s.mem argv) ((v + 1) * PGSIZE) → Q none s') (hSome :
      ∀ s', Table L s' pt f (frames f 0 (v + 1) + R) → Keeps (frames f 0 v + R) s.mem s'.mem →
        Fits (v * PGSIZE) (strsIn s.mem argv) ((v + 1) * PGSIZE) → Contents s'.mem f (v + 1)
            (stackMem (strsIn s.mem argv) ((v + 1) * PGSIZE) c) →
          Q (some (stackPtr (strsIn s.mem argv) ((v + 1) * PGSIZE), argv.length)) s') :
    wp (pushStack pt (v * PGSIZE) ((v + 1) * PGSIZE) argv) Q E s := by
  have hRoomy := hStack.roomy hArgs
  have hLow := hRoomy.low
  unfold pushStack
  rw [wp_bind]
  refine pushArgs_spec h hStack hc hArgs (by rw [List.length_nil]; omega) hLow (Nat.le_refl _) ?_ ?_
  · intro s' h' hKeeps' hNot
    rw [wp_pure]
    exact hNone s' h' hKeeps' (fun hFit => hNot hFit.1)
  intro s₁ h₁ hKeeps₁ hFit hc₁
  rw [List.nil_append]
  dsimp only
  generalize hStrs : strsIn s.mem argv = strs at *
  have hLength : strs.length = argv.length := by rw [← hStrs, strsIn, List.length_map]
  have hBytes := length_vector strs ((v + 1) * PGSIZE)
  have hAfter := spAfter_le hRoomy hFit
  rw [wp_bind]
  refine push_spec (vector strs ((v + 1) * PGSIZE)) h₁
    hStack hc₁ (by omega) ?_ hAfter.2 hAfter.1 ?_ ?_
  · rw [hBytes, hLength]
    unfold MAXARG at hCount
    unfold PGSIZE
    omega
  · intro hOut
    rw [wp_pure]
    exact hNone s₁ h₁ hKeeps₁ (fun hAll => Nat.not_le_of_lt hOut hAll.2)
  · intro s₂ hIn h₂ hKeeps₂ hc₂
    rw [wp_pure, length_addrs, hLength]
    exact hSome s₂ h₂ (hKeeps₁.trans hKeeps₂) ⟨hFit, hIn⟩ hc₂

end

end Xv6.Kernel

import Mathlib.Data.Nat.Digits.Lemmas

/-
  Formatted output of the kernel and of the user library
  (`kernel/printf.c`, `user/printf.c`).

  The two copies share the reading of the format and the
  loop of `printint`. They differ in the width of the number
  that `printint` works on and in the letters of the digits,
  so both are instances of one function.

  An argument is a register of 64 bits. The result of
  `printint` is `none` if it stores outside of its buffer.

  Main declarations:
    * `printint_some_iff`
    * `kernel_printint_iff`
    * `vprintf_numerals_iff`
-/

namespace Xv6.Printf

---- Numbers

/- `digits` of the kernel. -/
def lower : List Char := "0123456789abcdef".toList

/- `digits` of the user library. -/
def upper : List Char := "0123456789ABCDEF".toList

def digit (table : List Char) (d : Nat) : Char := table.getD d '0'

/- The digits as the loop stores them, the last one first. -/
def digitLoop (table : List Char) (base : Nat) : Nat → Nat → List Char
  | 0, _ => []
  | fuel + 1, x =>
    digit table (x % base) ::
      if x / base = 0 then [] else digitLoop table base fuel (x / base)

/- `sizeof(buf)`. -/
def BUFSIZE : Nat := 16

/- The characters of the buffer, which are put backwards. -/
def put (buf : List Char) : Option (List Char) :=
  if buf.length ≤ BUFSIZE then some buf.reverse else none

/-
  Print a number of `w` bits. The loop runs once for each
  digit, and a digit is at least one bit.
-/
def printint (w : Nat) (table : List Char) (xx : Int) (base : Nat) (sign : Bool) :
    Option (List Char) :=
  if sign = true ∧ xx < 0 then
    put (digitLoop table base w (-xx % 2 ^ w).toNat ++ ['-'])
  else
    put (digitLoop table base w (xx % 2 ^ w).toNat)

/- The canonical numeral. -/
def numeral (table : List Char) (base : Nat) (v : Int) : List Char :=
  let ds := if v = 0 then [0] else Nat.digits base v.natAbs
  (if v < 0 then ['-'] else []) ++ (ds.map (digit table)).reverse

/- The digits below the base are told apart. -/
def Table (table : List Char) : Prop :=
  ∀ d < 16, table.idxOf (digit table d) = d ∧ digit table d ≠ '-'

theorem table_lower : Table lower := by
  unfold Table
  decide

theorem table_upper : Table upper := by
  unfold Table
  decide

section

variable {w base : Nat} {table : List Char} {xx v : Int}

theorem digitLoop_eq {x : Nat} (hBase : 1 < base) (hw : 0 < w) (hx : x < 2 ^ w) :
    digitLoop table base w x = (if x = 0 then [0] else Nat.digits base x).map (digit table) := by
  induction w generalizing x with
  | zero => omega
  | succ w ih =>
    rw [digitLoop]
    by_cases hLast : x / base = 0
    · have hLt := (Nat.div_eq_zero_iff_lt (by omega)).mp hLast
      rw [if_pos hLast, Nat.mod_eq_of_lt hLt]
      split
      · rename_i hZero
        rw [hZero]
        rfl
      · rename_i hZero
        rw [Nat.digits_of_lt base x hZero hLt]
        rfl
    · have hZero : x ≠ 0 := by
        rintro rfl
        exact hLast (Nat.zero_div base)
      have hHalf : x / base < 2 ^ w := by
        rw [Nat.div_lt_iff_lt_mul (by omega)]
        calc x < 2 ^ w * 2 := hx
          _ ≤ 2 ^ w * base := Nat.mul_le_mul_left _ hBase
      have hMore : 0 < w := by
        refine Nat.pos_of_ne_zero ?_
        rintro rfl
        exact hLast (Nat.lt_one_iff.mp hHalf)
      rw [if_neg hLast, if_neg hZero, ih hMore hHalf, if_neg hLast,
        Nat.digits_def' hBase (Nat.pos_of_ne_zero hZero)]
      rfl

theorem numeral_length_le_iff (hBase : 1 < base) :
    (numeral table base v).length ≤ BUFSIZE ↔ -(base ^ 15 : Int) < v ∧ v < base ^ 16 := by
  have hPow : ∀ n : Nat, (0 : Int) < (base : Int) ^ n := by
    intro n
    exact_mod_cast Nat.pow_pos (by omega)
  have h15 := hPow 15
  have h16 := hPow 16
  have hAbs :
      ∀ k : Nat, (Nat.digits base v.natAbs).length ≤ k ↔ (v.natAbs : Int) < (base : Int) ^ k := by
    intro k
    rw [Nat.digits_length_le_iff hBase]
    exact_mod_cast Iff.rfl
  unfold numeral BUFSIZE
  rw [List.length_append, List.length_reverse, List.length_map]
  by_cases hZero : v = 0
  · subst hZero
    simp [h15, h16]
  · by_cases hNeg : v < 0
    · have hLen := hAbs 15
      rw [if_neg hZero, if_pos hNeg, List.length_singleton]
      omega
    · have hLen := hAbs 16
      rw [if_neg hZero, if_neg hNeg, List.length_nil]
      omega

section

variable (hTable : Table table) (hBase : 1 < base) (hSmall : base ≤ 16)
include hTable hBase hSmall

theorem minus_mem_numeral : '-' ∈ numeral table base v ↔ v < 0 := by
  have hDigits : '-' ∉ (if v = 0 then [0]
      else Nat.digits base v.natAbs).map (digit table) := by
    intro hMem
    rcases List.mem_map.mp hMem with ⟨d, hd, hMinus⟩
    refine (hTable d ?_).2 hMinus
    split at hd
    · rw [List.mem_singleton.mp hd]
      omega
    · exact (Nat.digits_lt_base hBase hd).trans_le hSmall
  unfold numeral
  rw [List.mem_append, List.mem_reverse]
  constructor
  · rintro (h | h)
    · by_contra hNot
      rw [if_neg hNot] at h
      cases h
    · exact (hDigits h).elim
  · intro h
    rw [if_pos h]
    exact .inl List.mem_cons_self

theorem digits_inj {n m : Nat} (h : (if n = 0 then [0] else Nat.digits base n).map (digit table) =
    (if m = 0 then [0] else Nat.digits base m).map (digit table)) : n = m := by
  have hRead : ∀ n : Nat, Nat.ofDigits base
      (((if n = 0 then [0] else Nat.digits base n).map (digit table)).map table.idxOf) = n := by
    intro n
    rw [List.map_map, List.map_congr_left (g := id), List.map_id]
    · split
      · rename_i hZero
        rw [hZero]
        rfl
      · exact Nat.ofDigits_digits base n
    · intro d hd
      refine (hTable d ?_).1
      split at hd
      · rw [List.mem_singleton.mp hd]
        omega
      · exact (Nat.digits_lt_base hBase hd).trans_le hSmall
  rw [← hRead n, h, hRead m]

theorem numeral_inj {v' : Int} : numeral table base v = numeral table base v' ↔ v = v' := by
  refine ⟨?_, fun h => h ▸ rfl⟩
  intro h
  have hSign : v < 0 ↔ v' < 0 := by
    rw [← minus_mem_numeral hTable hBase hSmall, h, minus_mem_numeral hTable hBase hSmall]
  have hAbs : v.natAbs = v'.natAbs := by
    refine digits_inj hTable hBase hSmall ?_
    unfold numeral at h
    simp only [Int.natAbs_eq_zero]
    by_cases hNeg : v < 0
    · rw [if_pos hNeg, if_pos (hSign.mp hNeg)] at h
      exact List.reverse_injective (List.append_cancel_left h)
    · rw [if_neg hNeg, if_neg (fun h => hNeg (hSign.mpr h))] at h
      exact List.reverse_injective (List.append_cancel_left h)
  omega

end

/- What `printint` takes the number for. -/
def printed (w : Nat) (xx : Int) (sign : Bool) : Int :=
  if sign = true ∧ xx < 0 then xx else xx % 2 ^ w

theorem printint_eq {sign : Bool} (hBase : 1 < base) (hw : 0 < w) (hxx : -2 ^ w < xx) :
    printint w table xx base sign =
      if (numeral table base (printed w xx sign)).length ≤ BUFSIZE
        then some (numeral table base (printed w xx sign))
        else none := by
  have hBuf : ∀ n : Int, 0 ≤ n → n < 2 ^ w → digitLoop table base w n.toNat = (if n = 0 then [0]
      else Nat.digits base n.natAbs).map (digit table) := by
    intro n hPos hLt
    obtain ⟨k, rfl⟩ := Int.eq_ofNat_of_zero_le hPos
    rw [Int.toNat_natCast, Int.natAbs_natCast, digitLoop_eq hBase hw (by exact_mod_cast hLt)]
    simp only [Int.natCast_eq_zero]
  have hPow : (0 : Int) < 2 ^ w := by positivity
  have hPut : ∀ xs : List Char, put xs.reverse =
      if xs.length ≤ BUFSIZE then some xs else none := by
    intro xs
    unfold put
    rw [List.length_reverse, List.reverse_reverse]
  unfold printint printed
  by_cases hNeg : sign = true ∧ xx < 0
  · have hMod : -xx % 2 ^ w = -xx :=
      Int.emod_eq_of_lt (by omega) (by omega)
    rw [if_pos hNeg, if_pos hNeg, ← hPut, hMod, hBuf _ (by omega) (by omega)]
    unfold numeral
    rw [if_pos hNeg.2, List.reverse_append, List.reverse_reverse, Int.natAbs_neg]
    simp only [Int.neg_eq_zero]
    rfl
  · have hLo := Int.emod_nonneg xx (ne_of_gt hPow)
    have hHi := Int.emod_lt_of_pos xx hPow
    rw [if_neg hNeg, if_neg hNeg, ← hPut, hBuf _ hLo hHi]
    unfold numeral
    rw [if_neg (Int.not_lt.mpr hLo), List.nil_append, List.reverse_reverse]

theorem printint_some_iff {sign : Bool} (hTable : Table table) (hBase : 1 < base)
    (hSmall : base ≤ 16) (hw : 0 < w) (hxx : -2 ^ w < xx) :
    printint w table xx base sign = some (numeral table base v) ↔
      printed w xx sign = v ∧ -(base ^ 15 : Int) < v ∧ v < base ^ 16 := by
  rw [printint_eq hBase hw hxx, ← numeral_length_le_iff hBase]
  constructor
  · intro h
    split at h
    · rename_i hLen
      have hEq := (numeral_inj hTable hBase hSmall).mp (Option.some.inj h)
      rw [hEq] at hLen
      exact ⟨hEq, hLen⟩
    · cases h
  · rintro ⟨rfl, hLen⟩
    rw [if_pos hLen]

end

---- Conversions

inductive Kind where
  | d
  | u
  | x
  deriving DecidableEq

/- The letter before the conversion: none, `l` or `ll`. -/
inductive Width where
  | plain
  | l
  | ll
  deriving DecidableEq

structure Conv where
  kind : Kind
  width : Width

def Conv.base (c : Conv) : Nat := if c.kind = .x then 16 else 10

def Conv.sign (c : Conv) : Bool := c.kind = .d

/- The signed number in `w` bits. -/
def signed (w n : Nat) : Int := if n < 2 ^ (w - 1) then n else n - 2 ^ w

/- `va_arg(ap, int)`. -/
def vaInt (a : UInt64) : Int := signed 32 (a.toNat % 2 ^ 32)

/- `va_arg(ap, uint64)`, as a `long long`. -/
def vaLong (a : UInt64) : Int := signed 64 a.toNat

/- The argument as the conversion means it. -/
def Conv.value (c : Conv) (a : UInt64) : Int :=
  if c.width = .plain then
    if c.kind = .d then vaInt a else a.toNat % 2 ^ 32
  else
    if c.kind = .d then vaLong a else a.toNat

/- An integer conversion of the kernel's `printf`. -/
def kernelInt (c : Conv) (a : UInt64) : Option (List Char) :=
  let xx := if c.width = .plain then vaInt a else vaLong a
  printint 64 lower xx c.base c.sign

/- An integer conversion of `vprintf`. The parameter of `printint` is an `int` for all widths. -/
def userInt (c : Conv) (a : UInt64) : Option (List Char) :=
  printint 32 upper (vaInt a) c.base c.sign

/- The arguments that the kernel prints correctly. -/
def Conv.KernelFits (c : Conv) (a : UInt64) : Prop :=
  match c.width, c.kind with
  | .plain, .d => True
  | .plain, _ => a.toNat % 2 ^ 32 < 2 ^ 31
  | _, .d => -10 ^ 15 < vaLong a ∧ vaLong a < 10 ^ 16
  | _, .u => a.toNat < 10 ^ 16
  | _, .x => True

/- The arguments that the user library prints correctly. -/
def Conv.UserFits (c : Conv) (a : UInt64) : Prop :=
  match c.width, c.kind with
  | .plain, .u => a.toNat % 2 ^ 32 < 2 ^ 31
  | .plain, _ => True
  | _, .d => -2 ^ 31 ≤ vaLong a ∧ vaLong a < 2 ^ 31
  | _, _ => a.toNat < 2 ^ 32

theorem Conv.base_bounds (c : Conv) : 1 < c.base ∧ c.base ≤ 16 := by
  unfold Conv.base
  split
  · decide
  · decide

theorem vaInt_gt (a : UInt64) : -2 ^ 32 < vaInt a := by
  unfold vaInt signed
  omega

theorem vaLong_gt (a : UInt64) : -2 ^ 64 < vaLong a := by
  unfold vaLong signed
  omega

/- The kernel stays in its buffer and prints the canonical numeral of the argument. -/
theorem kernel_printint_iff (c : Conv) (a : UInt64) :
    kernelInt c a = some (numeral lower c.base (c.value a)) ↔ c.KernelFits a := by
  have hInt := vaInt_gt a
  have hLong := vaLong_gt a
  have hLt := a.toNat_lt
  rcases c.base_bounds with ⟨hBase, hSmall⟩
  unfold kernelInt
  rw [printint_some_iff table_lower hBase hSmall (by decide)]
  · rcases c with ⟨kind, width⟩
    cases kind <;> cases width <;>
      simp [Conv.value, Conv.base, Conv.sign, Conv.KernelFits, printed, vaInt, vaLong, signed]
    all_goals omega
  · split
    · omega
    · exact hLong

/- The twenty digits of a sign-extended `%u`. -/
theorem kernel_printint_overflows :
    kernelInt ⟨.u, .plain⟩ 4294967295 ≠ some (numeral lower 10 4294967295) := by
  decide +kernel

theorem numeral_upper (v : Int) : numeral upper 10 v = numeral lower 10 v := by
  unfold numeral
  dsimp only
  rw [List.map_congr_left]
  intro d hd
  have hLt : d < 10 := by
    split at hd
    · rw [List.mem_singleton.mp hd]
      omega
    · exact Nat.digits_lt_base (by decide) hd
  have hAll : ∀ d < 10, digit upper d = digit lower d := by decide
  exact hAll d hLt

/-
  `vprintf` prints the numeral of the argument, and for a
  decimal one the characters of the kernel.
-/
theorem userInt_iff (c : Conv) (a : UInt64) :
    (userInt c a = some (numeral upper c.base (c.value a)) ∧
      (c.base = 10 → userInt c a = kernelInt c a)) ↔ c.UserFits a := by
  have hInt := vaInt_gt a
  have hLt := a.toNat_lt
  rcases c.base_bounds with ⟨hBase, hSmall⟩
  have hUser : userInt c a = some (numeral upper c.base (c.value a)) ↔
      printed 32 (vaInt a) c.sign = c.value a ∧ -(c.base ^ 15 : Int) < c.value a ∧
        c.value a < c.base ^ 16 :=
    printint_some_iff table_upper hBase hSmall (by decide) hInt
  have hBoth : (userInt c a = some (numeral upper c.base (c.value a)) ∧
        (c.base = 10 → userInt c a = kernelInt c a)) ↔
      (userInt c a = some (numeral upper c.base (c.value a)) ∧ (c.base = 10 → c.KernelFits a)) := by
    refine and_congr_right ?_
    intro hEq
    refine imp_congr_right ?_
    intro hTen
    rw [← kernel_printint_iff, hEq, hTen, numeral_upper, eq_comm]
  rw [hBoth, hUser]
  rcases c with ⟨kind, width⟩
  cases kind <;> cases width <;>
    simp [Conv.value, Conv.base, Conv.sign, Conv.KernelFits,
      Conv.UserFits, printed, vaInt, vaLong, signed]
  all_goals omega

---- Formats

/- What a format asks for, one after another. -/
inductive Directive where
  | char (c : Char)
  | int (c : Conv)
  | ptr
  | str
  | unknown (c : Char)

/- The reading of a format, which both copies share. -/
def directives : List Char → List Directive
  | [] => []
  | '%' :: 'l' :: 'l' :: 'd' :: fmt => .int ⟨.d, .ll⟩ :: directives fmt
  | '%' :: 'l' :: 'l' :: 'u' :: fmt => .int ⟨.u, .ll⟩ :: directives fmt
  | '%' :: 'l' :: 'l' :: 'x' :: fmt => .int ⟨.x, .ll⟩ :: directives fmt
  | '%' :: 'l' :: 'd' :: fmt => .int ⟨.d, .l⟩ :: directives fmt
  | '%' :: 'l' :: 'u' :: fmt => .int ⟨.u, .l⟩ :: directives fmt
  | '%' :: 'l' :: 'x' :: fmt => .int ⟨.x, .l⟩ :: directives fmt
  | '%' :: 'd' :: fmt => .int ⟨.d, .plain⟩ :: directives fmt
  | '%' :: 'u' :: fmt => .int ⟨.u, .plain⟩ :: directives fmt
  | '%' :: 'x' :: fmt => .int ⟨.x, .plain⟩ :: directives fmt
  | '%' :: 'p' :: fmt => .ptr :: directives fmt
  | '%' :: 's' :: fmt => .str :: directives fmt
  | '%' :: '%' :: fmt => .char '%' :: directives fmt
  | '%' :: c :: fmt => .unknown c :: directives fmt
  | ['%'] => []
  | c :: fmt => .char c :: directives fmt

/- The loop of `printptr`. -/
def ptrLoop (table : List Char) : Nat → Nat → List Char
  | 0, _ => []
  | n + 1, x => digit table (x / 2 ^ 60) :: ptrLoop table n (x * 2 ^ 4 % 2 ^ 64)

def printptr (table : List Char) (x : UInt64) : List Char := '0' :: 'x' :: ptrLoop table 16 x.toNat

/-
  The output, a piece for each directive. The k-th call of
  `va_arg` gives `args k`, and `str` reads a string.
-/
def pieces (int : Conv → UInt64 → Option (List Char))
    (ptr str : UInt64 → List Char) (args : Nat → UInt64) :
    Nat → List Directive → List (Option (List Char))
  | _, [] => []
  | k, .char c :: ds => some [c] :: pieces int ptr str args k ds
  | k, .int c :: ds => int c (args k) :: pieces int ptr str args (k + 1) ds
  | k, .ptr :: ds => some (ptr (args k)) :: pieces int ptr str args (k + 1) ds
  | k, .str :: ds => some (str (args k)) :: pieces int ptr str args (k + 1) ds
  | k, .unknown c :: ds => some ['%', c] :: pieces int ptr str args k ds

def vprintf (str : UInt64 → List Char) (fmt : List Char) (args : Nat → UInt64) :
    List (Option (List Char)) := pieces userInt (printptr upper) str args 0 (directives fmt)

/- All sixteen digits of a pointer, from the top. -/
def paddedHex (x : UInt64) : List Char :=
  '0' :: 'x' ::
    (List.range' 0 16).map (fun i =>
      digit upper (x.toNat / 16 ^ (15 - i) % 16))

/- What the format means, with decimals from `decimal`. -/
def meant (decimal : Conv → UInt64 → Option (List Char)) (str : UInt64 → List Char)
    (fmt : List Char) (args : Nat → UInt64) : List (Option (List Char)) :=
  pieces
    (fun c a =>
      if c.base = 10 then decimal c a
      else some (numeral upper c.base (c.value a)))
    paddedHex str args 0 (directives fmt)

/- The conversions of a format with their arguments. -/
def conversions (args : Nat → UInt64) : Nat → List Directive → List (Conv × UInt64)
  | _, [] => []
  | k, .int c :: ds => (c, args k) :: conversions args (k + 1) ds
  | k, .ptr :: ds => conversions args (k + 1) ds
  | k, .str :: ds => conversions args (k + 1) ds
  | k, .char _ :: ds => conversions args k ds
  | k, .unknown _ :: ds => conversions args k ds

theorem pieces_eq_iff {f g : Conv → UInt64 → Option (List Char)} {ptr str : UInt64 → List Char}
    {args : Nat → UInt64} {k : Nat} {ds : List Directive} :
    pieces f ptr str args k ds = pieces g ptr str args k ds ↔
      ∀ x ∈ conversions args k ds, f x.1 x.2 = g x.1 x.2 := by
  induction ds generalizing k with
  | nil => simp [pieces, conversions]
  | cons d ds ih =>
    cases d <;> simp [pieces, conversions, ih]

theorem top_digit {x j : Nat} (hj : j < 16) :
    x * 16 ^ j % 2 ^ 64 / 2 ^ 60 = x / 16 ^ (15 - j) % 16 := by
  have hAll : 2 ^ 64 = 16 ^ (15 - j) * 16 * 16 ^ j := by
    have hSum : 15 - j + 1 + j = 16 := by omega
    rw [← Nat.pow_succ, ← Nat.pow_add, Nat.succ_eq_add_one, hSum]
    decide
  have hTop : 2 ^ 60 = 16 ^ (15 - j) * 16 ^ j := by
    rw [← Nat.pow_add, Nat.sub_add_cancel (by omega)]
    decide
  rw [hAll, hTop, Nat.mul_mod_mul_right, Nat.mul_div_mul_right _ _ (Nat.pow_pos (by decide)),
    Nat.mod_mul_right_div_self]

theorem ptrLoop_eq {table : List Char} {n x j : Nat} (hj : j + n ≤ 16) :
    ptrLoop table n (x * 16 ^ j % 2 ^ 64) = (List.range' j n).map (fun i =>
      digit table (x / 16 ^ (15 - i) % 16)) := by
  induction n generalizing j with
  | zero => rfl
  | succ n ih =>
    have hShift : x * 16 ^ j % 2 ^ 64 * 2 ^ 4 % 2 ^ 64 = x * 16 ^ (j + 1) % 2 ^ 64 := by
      rw [Nat.mod_mul_mod, Nat.mul_assoc]
      rfl
    rw [ptrLoop, top_digit (by omega), hShift, ih (by omega), List.range'_succ]
    rfl

theorem printptr_eq (x : UInt64) : printptr upper x = paddedHex x := by
  have hLoop := @ptrLoop_eq upper 16 x.toNat 0 (by decide)
  rw [Nat.pow_zero, Nat.mul_one, Nat.mod_eq_of_lt x.toNat_lt] at hLoop
  unfold printptr paddedHex
  rw [hLoop]

/-
  Every conversion of a format prints the numeral of its
  argument, and the decimal ones agree with the kernel.
-/
theorem vprintf_numerals_iff
    (str : UInt64 → List Char)
    (fmt : List Char)
    (args : Nat → UInt64) :
    (vprintf str fmt args =
        meant (fun c a => some (numeral upper c.base (c.value a))) str fmt args ∧
      vprintf str fmt args = meant kernelInt str fmt args) ↔
    ∀ x ∈ conversions args 0 (directives fmt), x.1.UserFits x.2 := by
  have hPtr : printptr upper = paddedHex := funext printptr_eq
  unfold vprintf meant
  rw [hPtr, pieces_eq_iff, pieces_eq_iff, ← forall₂_and]
  refine forall₂_congr ?_
  intro x _
  rw [← userInt_iff]
  simp only [ite_self]
  refine and_congr_right ?_
  intro hEq
  split
  · rename_i hTen
    simp [hTen]
  · rename_i hTen
    simp [hTen, hEq]

/- `%ld` prints the low half of its argument. -/
theorem vprintf_truncates :
    vprintf (fun _ => []) ['%', 'l', 'd'] (fun _ => 4294967296) ≠
      meant (fun c a => some (numeral upper c.base (c.value a)))
        (fun _ => []) ['%', 'l', 'd'] (fun _ => 4294967296) := by
  decide +kernel

end Xv6.Printf

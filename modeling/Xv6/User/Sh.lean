import Mathlib.Data.List.GetD
import Mathlib.Tactic.Common
import Xv6.Lib.Prog

/-
  The parser of the shell (`sh.c`).

  The line is a list of bytes; pointers into it are positions,
  and the state of the parser is the position `*ps`. A
  command node holds the positions of its strings. The
  functions take the number of nested calls and rounds they
  may use, and stop with `.fuel` if they need more. A store
  beyond the arrays of an `execcmd` is `.overflow`.

  The rules used by name are:
    * `wp_gettoken_bind`
    * `wp_peek_bind`
-/

namespace Xv6.User.Sh

open Prog

---- Tokens

/- The results of `gettoken`; `gtgt` is the source's '+'. -/
inductive Tok where
  | eof
  | bar
  | lparen
  | rparen
  | semi
  | amp
  | lt
  | gt
  | gtgt
  | word
  deriving DecidableEq

/- A token and the range of its text. -/
structure Token where
  tok : Tok
  q : Nat
  eq : Nat
  deriving DecidableEq

/- " \t\r\n\v" -/
def whitespace : List UInt8 := [32, 9, 13, 10, 11]

/- "<|>&;()" -/
def symbols : List UInt8 := [60, 124, 62, 38, 59, 40, 41]

def strchr (s : List UInt8) (c : UInt8) : Bool := s.contains c

/- `while(s < es && p(*s)) s++`. -/
def advance (p : UInt8 → Bool) (text : List UInt8) (s : Nat) : Nat :=
  s + ((text.drop s).takeWhile p).length

section

variable (text : List UInt8)

/- `*s`; the line ends with a zero byte. -/
def charAt (s : Nat) : UInt8 := text.getD s 0

def skipSpace (s : Nat) : Nat := advance (strchr whitespace) text s

/- The bytes of words. -/
def wordByte (c : UInt8) : Bool := !strchr whitespace c && !strchr symbols c

/- The `switch` of `gettoken`: the token at `s` and its end. -/
def tokenAt (s : Nat) : Tok × Nat :=
  if charAt text s = 0 then (.eof, s)
  else if charAt text s = 124 then (.bar, s + 1)
  else if charAt text s = 40 then (.lparen, s + 1)
  else if charAt text s = 41 then (.rparen, s + 1)
  else if charAt text s = 59 then (.semi, s + 1)
  else if charAt text s = 38 then (.amp, s + 1)
  else if charAt text s = 60 then (.lt, s + 1)
  else if charAt text s = 62 then
    if charAt text (s + 1) = 62 then (.gtgt, s + 2)
    else (.gt, s + 1)
  else (.word, advance wordByte text s)

---- Commands

def MAXARGS : Nat := 10

def O_RDONLY : Nat := 0x000
def O_WRONLY : Nat := 0x001
def O_CREATE : Nat := 0x200
def O_TRUNC : Nat := 0x400

/- The fields of a `redircmd` other than its command. -/
structure Redir where
  file : Nat
  efile : Nat
  mode : Nat
  fd : Nat
  deriving DecidableEq

/-
  The nodes. An `exec` has the ranges of its arguments; in
  the source a null pointer follows the last one.
-/
inductive Cmd where
  | exec (argv : List (Nat × Nat))
  | redir (cmd : Cmd) (target : Redir)
  | pipe (left right : Cmd)
  | list (left right : Cmd)
  | back (cmd : Cmd)
  deriving DecidableEq

inductive Stop where
  | fuel
  | panic (message : String)
  | overflow
  deriving DecidableEq

abbrev ParseM (α : Type) := Prog Nat Stop α

---- Parsing

def gettoken : ParseM Token := do
  let s ← get
  let q := skipSpace text s
  let t := tokenAt text q
  set (skipSpace text t.2)
  pure ⟨t.1, q, t.2⟩

def peek (toks : List UInt8) : ParseM Bool := do
  let s ← get
  let q := skipSpace text s
  set q
  pure (charAt text q ≠ 0 && strchr toks (charAt text q))

/- The redirection for a token and the file after it. -/
def redirect (tok : Tok) (file : Token) : List Redir :=
  match tok with
  | .lt => [⟨file.q, file.eq, O_RDONLY, 0⟩]
  | .gt => [⟨file.q, file.eq, O_WRONLY ||| O_CREATE ||| O_TRUNC, 1⟩]
  | .gtgt => [⟨file.q, file.eq, O_WRONLY ||| O_CREATE, 1⟩]
  | _ => []

/- Redirections around a command, the first one innermost. -/
def wrap (cmd : Cmd) (rs : List Redir) : Cmd := rs.foldl .redir cmd

/-
  The loop of `parseredirs`. The source wraps the command at
  once; here the redirections are collected in order.
-/
def parseredirs : Nat → List Redir → ParseM (List Redir)
  | 0, _ => throw .fuel
  | fuel + 1, rs => do
    let more ← peek text [60, 62]
    if more = true then do
      let t ← gettoken text
      let file ← gettoken text
      if file.tok ≠ .word then
        throw (.panic "missing file for redirection")
      else
        parseredirs fuel (rs ++ redirect t.tok file)
    else
      pure rs

/-
  The loop of `parseexec`: the arguments and redirections.
  The node is filled in while redirections already point to
  it, so they end up around all arguments.
-/
def parseargs :
    Nat → List (Nat × Nat) → List Redir → ParseM (List (Nat × Nat) × List Redir)
  | 0, _, _ => throw .fuel
  | fuel + 1, argv, rs => do
    let done ← peek text [124, 41, 38, 59]
    if done = true then
      pure (argv, rs)
    else do
      let t ← gettoken text
      if t.tok = .eof then
        pure (argv, rs)
      else if t.tok ≠ .word then
        throw (.panic "syntax")
      else if argv.length ≥ MAXARGS then
        -- The stores to `argv[argc]` and `eargv[argc]`.
        throw .overflow
      else if argv.length + 1 ≥ MAXARGS then
        throw (.panic "too many args")
      else do
        let rs ← parseredirs text fuel rs
        parseargs fuel (argv ++ [(t.q, t.eq)]) rs

/- The loop of `parseline` over '&'. -/
def parseamps : Nat → Cmd → ParseM Cmd
  | 0, _ => throw .fuel
  | fuel + 1, cmd => do
    let more ← peek text [38]
    if more = true then do
      let _ ← gettoken text
      parseamps fuel (.back cmd)
    else
      pure cmd

mutual

def parseline : Nat → ParseM Cmd
  | 0 => throw .fuel
  | fuel + 1 => do
    let cmd ← parsepipe fuel
    let cmd ← parseamps text fuel cmd
    let more ← peek text [59]
    if more = true then do
      let _ ← gettoken text
      let next ← parseline fuel
      pure (.list cmd next)
    else
      pure cmd

def parsepipe : Nat → ParseM Cmd
  | 0 => throw .fuel
  | fuel + 1 => do
    let cmd ← parseexec fuel
    let more ← peek text [124]
    if more = true then do
      let _ ← gettoken text
      let next ← parsepipe fuel
      pure (.pipe cmd next)
    else
      pure cmd

def parseblock : Nat → ParseM Cmd
  | 0 => throw .fuel
  | fuel + 1 => do
    let opened ← peek text [40]
    if opened = false then
      throw (.panic "parseblock")
    else do
      let _ ← gettoken text
      let cmd ← parseline fuel
      let closed ← peek text [41]
      if closed = false then
        throw (.panic "syntax - missing )")
      else do
        let _ ← gettoken text
        let rs ← parseredirs text fuel []
        pure (wrap cmd rs)

def parseexec : Nat → ParseM Cmd
  | 0 => throw .fuel
  | fuel + 1 => do
    let block ← peek text [40]
    if block = true then
      parseblock fuel
    else do
      let rs ← parseredirs text fuel []
      let (argv, rs) ← parseargs text fuel [] rs
      if argv.length ≥ MAXARGS then
        -- The stores of null to `argv[argc]`, `eargv[argc]`.
        throw .overflow
      else
        pure (wrap (.exec argv) rs)

end

/- Zero bytes after all strings. -/
def nulterminate : Cmd → List UInt8 → List UInt8
  | .exec argv, buf => argv.foldl (fun buf arg => buf.set arg.2 0) buf
  | .redir cmd target, buf => (nulterminate cmd buf).set target.efile 0
  | .pipe left right, buf => nulterminate right (nulterminate left buf)
  | .list left right, buf => nulterminate right (nulterminate left buf)
  | .back cmd, buf => nulterminate cmd buf

/- The bytes before the zero byte. -/
def line (buf : List UInt8) : List UInt8 := buf.takeWhile (· ≠ 0)

/- The command, and the line with its strings terminated. -/
def parse (fuel : Nat) (buf : List UInt8) : ParseM (Cmd × List UInt8) := do
  let cmd ← parseline (line buf) fuel
  let _ ← peek (line buf) []
  let s ← get
  if s ≠ (line buf).length then throw (.panic "syntax") else pure (cmd, nulterminate cmd buf)

def parsecmd (fuel : Nat) (buf : List UInt8) : Except Stop (Cmd × List UInt8) :=
  (parse fuel buf).run' 0

---- The Tokens Of A Line

def tokensFrom : Nat → Nat → List Token
  | 0, _ => []
  | fuel + 1, s =>
    let q := skipSpace text s
    let t := tokenAt text q
    if t.1 = .eof then []
    else
      ⟨t.1, q, t.2⟩ :: tokensFrom fuel (skipSpace text t.2)

/- The tokens from a position on. -/
def toks (s : Nat) : List Token := tokensFrom text (text.length + 1 - s) s

/- The tokens of a line. -/
def tokens : List Token := toks text 0

end

section

variable {text : List UInt8} {p : UInt8 → Bool} {s : Nat}

theorem le_advance : s ≤ advance p text s := Nat.le_add_right _ _

theorem advance_le (h : s ≤ text.length) : advance p text s ≤ text.length := by
  unfold advance
  have hLe := (List.takeWhile_sublist p (l := text.drop s)).length_le
  rw [List.length_drop] at hLe
  omega

/- The byte after the run, or the end of the line. -/
theorem charAt_advance :
    charAt text (advance p text s) = 0 ∨ p (charAt text (advance p text s)) = false := by
  unfold charAt advance
  rw [List.getD_eq_getElem?_getD, ← List.getElem?_drop]
  generalize text.drop s = rest
  induction rest with
  | nil => exact Or.inl rfl
  | cons b bs ih =>
    by_cases hb : p b = true
    · rw [List.takeWhile_cons_of_pos hb, List.length_cons, List.getElem?_cons_succ]
      exact ih
    · rw [List.takeWhile_cons_of_neg hb]
      exact Or.inr (by simpa using hb)

theorem advance_advance : advance p text (advance p text s) = advance p text s := by
  unfold advance
  rw [← List.drop_drop]
  generalize text.drop s = rest
  rw [Nat.add_eq_left, List.length_eq_zero_iff]
  induction rest with
  | nil => rfl
  | cons b bs ih =>
    by_cases hb : p b = true
    · rw [List.takeWhile_cons_of_pos hb, List.length_cons, List.drop_succ_cons]
      exact ih
    · rw [List.takeWhile_cons_of_neg hb]
      exact List.takeWhile_cons_of_neg hb

theorem lt_advance (hChar : charAt text s ≠ 0) (hp : p (charAt text s) = true) :
    s < advance p text s := by
  unfold charAt at hChar hp
  unfold advance
  rw [List.getD_eq_getElem?_getD] at hChar hp
  have hDrop : (text.drop s)[0]? = text[s]? := by rw [List.getElem?_drop, Nat.add_zero]
  rw [← hDrop] at hChar hp
  cases hRest : text.drop s with
  | nil =>
    rw [hRest] at hChar
    exact absurd rfl hChar
  | cons b bs =>
    rw [hRest] at hp
    have hb : p b = true := hp
    rw [List.takeWhile_cons_of_pos hb, List.length_cons]
    omega

theorem lt_length_of_charAt (h : charAt text s ≠ 0) : s < text.length := by
  by_contra hGe
  apply h
  unfold charAt
  rw [List.getD_eq_getElem?_getD, List.getElem?_eq_none (Nat.le_of_not_lt hGe)]
  rfl

/- A token other than the end has a text. -/
theorem tokenAt_bounds (hSpace : strchr whitespace (charAt text s) = false)
    (hTok : (tokenAt text s).1 ≠ .eof) :
    s < (tokenAt text s).2 ∧ (tokenAt text s).2 ≤ text.length := by
  have hChar : charAt text s ≠ 0 := by
    intro hZero
    apply hTok
    unfold tokenAt
    rw [if_pos hZero]
  have hLt := lt_length_of_charAt hChar
  unfold tokenAt
  rw [if_neg hChar]
  repeat' split
  all_goals try exact ⟨Nat.lt_succ_self s, hLt⟩
  · rename_i hNext
    have hIn : s + 1 < text.length := lt_length_of_charAt (by rw [hNext]; decide)
    dsimp only
    omega
  · refine ⟨lt_advance hChar ?_, advance_le (by omega)⟩
    rename_i h₁ h₂ h₃ h₄ h₅ h₆ h₇
    unfold wordByte
    rw [hSpace]
    simp only [strchr, symbols]
    simp [*]

theorem le_skipSpace : s ≤ skipSpace text s := le_advance

theorem skipSpace_le (h : s ≤ text.length) : skipSpace text s ≤ text.length := advance_le h

theorem skipSpace_skipSpace : skipSpace text (skipSpace text s) = skipSpace text s :=
  advance_advance

theorem charAt_skipSpace : strchr whitespace (charAt text (skipSpace text s)) = false := by
  rcases @charAt_advance text (strchr whitespace) s with hEnd | hOther
  · unfold skipSpace
    rw [hEnd]
    rfl
  · exact hOther

/- The token after the spaces at a position. -/
def next (text : List UInt8) (s : Nat) : Token :=
  ⟨(tokenAt text (skipSpace text s)).1, skipSpace text s, (tokenAt text (skipSpace text s)).2⟩

theorem next_bounds (h : (next text s).tok ≠ .eof) :
    s < (next text s).eq ∧ (next text s).eq ≤ text.length := by
  have hBounds := tokenAt_bounds charAt_skipSpace h
  exact ⟨Nat.lt_of_le_of_lt le_skipSpace hBounds.1, hBounds.2⟩

theorem tokensFrom_succ (fuel : Nat) :
    tokensFrom text (fuel + 1) s =
      if (next text s).tok = .eof then []
      else
        next text s :: tokensFrom text fuel (skipSpace text (next text s).eq) := rfl

/- Any fuel that is enough gives the same tokens. -/
theorem tokensFrom_congr {fuel fuel' : Nat} (h : text.length < s + fuel)
    (h' : text.length < s + fuel') (hs : s ≤ text.length) :
    tokensFrom text fuel s = tokensFrom text fuel' s := by
  induction fuel generalizing s fuel' with
  | zero => omega
  | succ fuel ih =>
    cases fuel' with
    | zero => omega
    | succ fuel' =>
      rw [tokensFrom_succ, tokensFrom_succ]
      split
      · rfl
      · rename_i hTok
        rcases next_bounds hTok with ⟨hLt, hLe⟩
        have hSkip : (next text s).eq ≤ skipSpace text (next text s).eq := le_skipSpace
        exact congrArg (next text s :: ·) (ih (by omega) (by omega) (skipSpace_le hLe))

theorem toks_eq (hs : s ≤ text.length) :
    toks text s =
      if (next text s).tok = .eof then []
      else
        next text s :: toks text (skipSpace text (next text s).eq) := by
  have hFuel : text.length + 1 - s = (text.length - s) + 1 := by omega
  unfold toks
  rw [hFuel, tokensFrom_succ]
  split
  · rfl
  · rename_i hTok
    rcases next_bounds hTok with ⟨hLt, hLe⟩
    have hSkip : (next text s).eq ≤ skipSpace text (next text s).eq := le_skipSpace
    have hIn := skipSpace_le hLe
    exact congrArg (next text s :: ·) (tokensFrom_congr (by omega) (by omega) hIn)

theorem next_skipSpace : next text (skipSpace text s) = next text s := by
  unfold next
  rw [skipSpace_skipSpace]

theorem toks_skipSpace (hs : s ≤ text.length) : toks text (skipSpace text s) = toks text s := by
  rw [toks_eq (skipSpace_le hs), toks_eq hs, next_skipSpace]

---- Reading Tokens

/- The position stands before the tokens `ts`. -/
def At (text : List UInt8) (s : Nat) (ts : List Token) : Prop := s ≤ text.length ∧ toks text s = ts

/- The byte that a symbol starts with. -/
def Tok.lead : Tok → UInt8
  | .bar => 124
  | .lparen => 40
  | .rparen => 41
  | .semi => 59
  | .amp => 38
  | .lt => 60
  | .gt => 62
  | .gtgt => 62
  | _ => 0

/- The tokens start with one of the symbols. -/
def opens (cs : List UInt8) : List Token → Bool
  | [] => false
  | t :: _ => cs.contains t.tok.lead

theorem wp_gettoken {t : Token} {ts : List Token} (h : At text s (t :: ts)) (E : Stop → Prop) :
    wp (gettoken text) (fun t' s' => t' = t ∧ At text s' ts) E s := by
  rcases h with ⟨hs, hToks⟩
  rw [toks_eq hs] at hToks
  split at hToks
  · cases hToks
  · rename_i hTok
    cases hToks
    unfold gettoken
    rw [wp_bind, wp_get]
    dsimp only
    rw [wp_bind, wp_set, wp_pure]
    exact ⟨rfl, skipSpace_le (next_bounds hTok).2, rfl⟩

theorem tokenAt_of_zero (h : charAt text s = 0) : tokenAt text s = (.eof, s) := if_pos h

theorem tokenAt_lead (h : (tokenAt text s).1 ≠ .eof) :
    charAt text s ≠ 0 ∧ ((tokenAt text s).1.lead = charAt text s ∨
      (tokenAt text s).1.lead = 0 ∧ charAt text s ∉ symbols) := by
  have hChar : charAt text s ≠ 0 := by
    intro hZero
    exact h (by rw [tokenAt_of_zero hZero])
  refine ⟨hChar, ?_⟩
  unfold tokenAt
  rw [if_neg hChar]
  repeat' split
  all_goals try exact Or.inl (Eq.symm ‹_›)
  refine Or.inr ⟨rfl, ?_⟩
  unfold symbols
  simp [*]

theorem charAt_of_eof (h : (tokenAt text s).1 = .eof) : charAt text s = 0 := by
  by_contra hChar
  unfold tokenAt at h
  rw [if_neg hChar] at h
  repeat' split at h
  all_goals cases h

theorem wp_gettoken_nil (h : At text s []) (E : Stop → Prop) :
    wp (gettoken text) (fun t s' => t.tok = .eof ∧ At text s' []) E s := by
  rcases h with ⟨hs, hToks⟩
  have hEof : (next text s).tok = .eof := by
    by_contra hTok
    rw [toks_eq hs, if_neg hTok] at hToks
    cases hToks
  have hEnd : (next text s).eq = skipSpace text s := by
    unfold next at hEof ⊢
    rw [tokenAt_of_zero (charAt_of_eof hEof)]
  unfold gettoken
  rw [wp_bind, wp_get]
  dsimp only
  rw [wp_bind, wp_set, wp_pure]
  refine ⟨hEof, ?_⟩
  change At text (skipSpace text (next text s).eq) []
  rw [hEnd, skipSpace_skipSpace]
  exact ⟨skipSpace_le hs, by rw [toks_skipSpace hs, hToks]⟩

/- Symbols are told from other tokens by their first byte. -/
theorem wp_peek {ts : List Token} (h : At text s ts) {cs : List UInt8} (hcs : ∀ c ∈ cs, c ∈ symbols)
    (E : Stop → Prop) : wp (peek text cs) (fun b s' => b = opens cs ts ∧ At text s' ts) E s := by
  rcases h with ⟨hs, hToks⟩
  unfold peek
  rw [wp_bind, wp_get]
  dsimp only
  rw [wp_bind, wp_set, wp_pure]
  refine ⟨?_, skipSpace_le hs, by rw [toks_skipSpace hs, hToks]⟩
  rw [toks_eq hs] at hToks
  split at hToks
  · rename_i hEof
    rw [← hToks, charAt_of_eof hEof]
    rfl
  rename_i hTok
  rw [← hToks]
  rcases tokenAt_lead hTok with ⟨hChar, hLead⟩
  change _ = cs.contains (tokenAt text _).1.lead
  rw [decide_eq_true hChar, Bool.true_and]
  rcases hLead with hSame | ⟨hWord, hNot⟩
  · rw [hSame]
    rfl
  · have hZero : (0 : UInt8) ∉ cs := by
      intro hIn
      exact absurd (hcs 0 hIn) (by decide)
    have hOut : charAt text (skipSpace text s) ∉ cs := fun hIn => hNot (hcs _ hIn)
    rw [hWord]
    unfold strchr
    simp [hZero, hOut]

/- The same as rules for what comes after. -/
section

variable {β : Type} {Q : β → Nat → Prop} {E : Stop → Prop}

theorem wp_gettoken_bind {t : Token} {ts : List Token} {f : Token → ParseM β}
    (h : At text s (t :: ts)) (hNext : ∀ s', At text s' ts → wp (f t) Q E s') :
    wp (gettoken text >>= f) Q E s := by
  rw [wp_bind]
  refine wp_post (wp_gettoken h E) ?_
  rintro t' s' ⟨hEq, hAt⟩
  rw [hEq]
  exact hNext s' hAt

theorem wp_gettoken_nil_bind {f : Token → ParseM β} (h : At text s [])
    (hNext : ∀ t s', t.tok = .eof → At text s' [] → wp (f t) Q E s') :
    wp (gettoken text >>= f) Q E s := by
  rw [wp_bind]
  refine wp_post (wp_gettoken_nil h E) ?_
  rintro t s' ⟨hEof, hAt⟩
  exact hNext t s' hEof hAt

theorem wp_peek_bind {ts : List Token} {f : Bool → ParseM β} {cs : List UInt8} (h : At text s ts)
    (hcs : cs.all (· ∈ symbols) = true) (hNext : ∀ s', At text s' ts → wp (f (opens cs ts)) Q E s') :
    wp (peek text cs >>= f) Q E s := by
  have hAll : ∀ c ∈ cs, c ∈ symbols := fun c hc => of_decide_eq_true (List.all_eq_true.mp hcs c hc)
  rw [wp_bind]
  refine wp_post (wp_peek h hAll E) ?_
  rintro b s' ⟨hEq, hAt⟩
  rw [hEq]
  exact hNext s' hAt

end

theorem At.tok_ne {t : Token} {ts : List Token} (h : At text s (t :: ts)) : t.tok ≠ .eof := by
  have hToks := h.2
  rw [toks_eq h.1] at hToks
  split at hToks
  · cases hToks
  · rename_i hTok
    cases hToks
    exact hTok

end

end Xv6.User.Sh

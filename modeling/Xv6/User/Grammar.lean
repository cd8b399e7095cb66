import Mathlib.Data.List.TakeWhile
import Mathlib.Logic.Function.Iterate
import Xv6.User.Sh

/-
  The grammar of the shell, and the parser.

    line  ::= pipe '&'* [';' line]
    pipe  ::= exec ['|' pipe]
    exec  ::= '(' line ')' redir* | redir* (word redir*)*
    redir ::= ('<' | '>' | '>>') word

  Every call of the parser ends: it has consumed a phrase of
  the grammar and built its command, or it panics. A phrase
  is parsed in full if the token after it ends it.
  The rules used by name are:
    * `parses`
    * `Derives.parsed`

  Main declarations:
    * `parsecmd_grammar`
-/

namespace Xv6.User.Sh

open Prog

---- The Grammar

/- The tokens of redirections. -/
def Tok.Redirects (t : Tok) : Prop := t = .lt ∨ t = .gt ∨ t = .gtgt

inductive Redirs : List Token → List Redir → Prop where
  | nil : Redirs [] []
  | cons {t file : Token}
      {ts : List Token} {rs : List Redir} (hTok : t.tok.Redirects) (hFile : file.tok = .word)
      (hRest : Redirs ts rs) :
      Redirs (t :: file :: ts) (redirect t.tok file ++ rs)

/- Words, each with redirections after it. -/
inductive Words : List Token → List (Nat × Nat) → List Redir → Prop where
  | nil : Words [] [] []
  | cons {t : Token}
      {us ts : List Token} {argv : List (Nat × Nat)} {rs rs' : List Redir} (hTok : t.tok = .word)
      (hRedirs : Redirs us rs) (hRest : Words ts argv rs') :
      Words (t :: us ++ ts) ((t.q, t.eq) :: argv) (rs ++ rs')

inductive Sym where
  | line
  | pipe
  | exec

/- A command in the background, as often as said. -/
def backs (n : Nat) (cmd : Cmd) : Cmd := Nat.iterate .back n cmd

/- The phrases of a symbol, with their commands. -/
inductive Derives : Sym → List Token → Cmd → Prop where
  | line {ts as : List Token}
      {cmd : Cmd} (hPipe : Derives .pipe ts cmd) (hAmps : ∀ a ∈ as, a.tok = .amp) :
      Derives .line (ts ++ as) (backs as.length cmd)
  | list {ts as us : List Token}
      {t : Token} {cmd rest : Cmd} (hPipe : Derives .pipe ts cmd) (hAmps : ∀ a ∈ as, a.tok = .amp)
      (hTok : t.tok = .semi) (hLine : Derives .line us rest) :
      Derives .line (ts ++ as ++ t :: us) (.list (backs as.length cmd) rest)
  | pipe {ts : List Token} {cmd : Cmd} (hExec : Derives .exec ts cmd) : Derives .pipe ts cmd
  | bar {ts us : List Token}
      {t : Token} {cmd rest : Cmd} (hExec : Derives .exec ts cmd) (hTok : t.tok = .bar)
      (hPipe : Derives .pipe us rest) :
      Derives .pipe (ts ++ t :: us) (.pipe cmd rest)
  | block {ts us : List Token}
      {t t' : Token} {cmd : Cmd} {rs : List Redir} (hTok : t.tok = .lparen)
      (hLine : Derives .line ts cmd) (hTok' : t'.tok = .rparen) (hRedirs : Redirs us rs) :
      Derives .exec (t :: ts ++ t' :: us) (wrap cmd rs)
  | exec {us ts : List Token}
      {argv : List (Nat × Nat)} {rs rs' : List Redir} (hRedirs : Redirs us rs)
      (hWords : Words ts argv rs') (hArgs : argv.length ≤ MAXARGS - 1) :
      Derives .exec (us ++ ts) (wrap (.exec argv) (rs ++ rs'))

---- What The Parser Accepts

def Panics (e : Stop) : Prop := ∃ message, e = .panic message

section

variable {text : List UInt8} {s : Nat} {ts : List Token}

theorem opens_redirs (k : Tok) : [60, 62].contains k.lead = true ↔ k.Redirects := by
  unfold Tok.Redirects
  cases k <;> decide

theorem wp_parseredirs (h : At text s ts) {fuel : Nat} (hFuel : ts.length < fuel) (rs : List Redir) :
    wp (parseredirs text fuel rs) (fun rs' s' =>
      ∃ us vs ws, ts = us ++ vs ∧ rs' = rs ++ ws ∧ Redirs us ws ∧ At text s' vs) Panics s := by
  induction fuel generalizing s ts rs with
  | zero => omega
  | succ fuel ih =>
    unfold parseredirs
    refine wp_peek_bind h (by decide) ?_
    intro s₁ h₁
    rw [wp_ite, wp_pure]
    refine ⟨fun hMore => ?_, fun _ => ?_⟩
    · cases ts with
      | nil => cases hMore
      | cons t ts =>
        have hTok := (opens_redirs t.tok).mp hMore
        refine wp_gettoken_bind h₁ ?_
        intro s₂ h₂
        cases ts with
        | nil =>
          refine wp_gettoken_nil_bind h₂ ?_
          intro file s₃ hEof _
          rw [if_pos (by rw [hEof]; decide), wp_throw]
          exact ⟨_, rfl⟩
        | cons file ts =>
          refine wp_gettoken_bind h₂ ?_
          intro s₃ h₃
          rw [wp_ite, wp_throw]
          refine ⟨fun _ => ⟨_, rfl⟩, fun hWord => ?_⟩
          simp only [List.length_cons] at hFuel
          refine wp_post (ih h₃ (by omega) _) ?_
          rintro rs' s₄ ⟨us, vs, ws, hEq, hRs, hUs, hEnd⟩
          refine
            ⟨t :: file :: us, vs, _, by rw [hEq]; rfl, ?_, .cons hTok (not_not.mp hWord) hUs, hEnd⟩
          rw [hRs, List.append_assoc]
    · exact ⟨[], ts, [], rfl, (List.append_nil rs).symm, .nil, h₁⟩

/- The call ends after words and redirections, or panics. -/
theorem wp_parseargs (h : At text s ts) {fuel : Nat} (hFuel : ts.length < fuel)
    {argv : List (Nat × Nat)} (hArgs : argv.length < MAXARGS) (rs : List Redir) :
    wp (parseargs text fuel argv rs) (fun r s' =>
      ∃ us vs args ws, ts = us ++ vs ∧ r = (argv ++ args, rs ++ ws) ∧ Words us args ws ∧
        (argv ++ args).length < MAXARGS ∧ At text s' vs) Panics s := by
  induction fuel generalizing s ts argv rs with
  | zero => omega
  | succ fuel ih =>
    have hDone : ∀ s', At text s' ts → ∃ us vs args ws, ts = us ++ vs ∧
        (argv, rs) = (argv ++ args, rs ++ ws) ∧ Words us args ws ∧
        (argv ++ args).length < MAXARGS ∧ At text s' vs := by
      intro s' hEnd
      refine ⟨[], ts, [], [], rfl, ?_, .nil, ?_, hEnd⟩
      · rw [List.append_nil, List.append_nil]
      · rw [List.append_nil]
        exact hArgs
    unfold parseargs
    refine wp_peek_bind h (by decide) ?_
    intro s₁ h₁
    rw [wp_ite, wp_pure]
    refine ⟨fun _ => hDone s₁ h₁, fun _ => ?_⟩
    cases ts with
    | nil =>
      refine wp_gettoken_nil_bind h₁ ?_
      intro t s₂ hEof h₂
      rw [if_pos hEof, wp_pure]
      exact hDone s₂ h₂
    | cons t ts =>
      refine wp_gettoken_bind h₁ ?_
      intro s₂ h₂
      rw [if_neg h₁.tok_ne, wp_ite, wp_throw]
      refine ⟨fun _ => ⟨_, rfl⟩, fun hWord => ?_⟩
      rw [if_neg (Nat.not_le_of_lt hArgs), wp_ite, wp_throw]
      refine ⟨fun _ => ⟨_, rfl⟩, fun hRoom => ?_⟩
      rw [wp_bind]
      simp only [List.length_cons] at hFuel
      refine wp_post (wp_parseredirs h₂ (by omega) rs) ?_
      rintro rs' s₃ ⟨us, vs, ws, hEq, hRs, hUs, h₃⟩
      subst hEq
      simp only [List.length_append] at hFuel
      refine wp_post (ih h₃ (by omega) (by simp; omega) rs') ?_
      rintro r s₄ ⟨us', vs', args, ws', hEq, hr, hWords, hFew, h₄⟩
      refine ⟨t :: us ++ us', vs', (t.q, t.eq) :: args, ws ++ ws', ?_, ?_,
          .cons (not_not.mp hWord) hUs hWords, ?_, h₄⟩
      · rw [hEq]
        simp
      · rw [hr, hRs]
        simp
      · rw [List.append_cons]
        exact hFew

/- The other symbols have a byte of their own. -/
theorem opens_symbol (c : Tok) (hSymbol : c.lead ∉ [0, 60, 62]) (hOpens : opens [c.lead] ts = true) :
    ∃ t us, ts = t :: us ∧ t.tok = c := by
  cases ts with
  | nil => cases hOpens
  | cons t us =>
    refine ⟨t, us, rfl, ?_⟩
    change [c.lead].contains t.tok.lead = true at hOpens
    cases c <;> cases hTok : t.tok <;> rw [hTok] at hOpens <;> revert hSymbol hOpens <;> decide

theorem opens_cons {t : Token} {k : Tok} {cs : List UInt8} {b : Bool} (hTok : t.tok = k)
    (hLead : cs.contains k.lead = b) : opens cs (t :: ts) = b := by
  subst hTok
  exact hLead

theorem wp_parseamps (h : At text s ts) {fuel : Nat} (hFuel : ts.length < fuel) (cmd : Cmd) :
    wp (parseamps text fuel cmd) (fun cmd' s' => ∃ as vs,
        ts = as ++ vs ∧ (∀ a ∈ as, a.tok = .amp) ∧ cmd' = backs as.length cmd ∧ At text s' vs)
      Panics s := by
  induction fuel generalizing s ts cmd with
  | zero => omega
  | succ fuel ih =>
    unfold parseamps
    refine wp_peek_bind h (by decide) ?_
    intro s₁ h₁
    rw [wp_ite, wp_pure]
    refine ⟨fun hMore => ?_, fun _ => ?_⟩
    · rcases opens_symbol .amp (by decide) hMore with ⟨t, us, rfl, hTok⟩
      refine wp_gettoken_bind h₁ ?_
      intro s₂ h₂
      simp only [List.length_cons] at hFuel
      refine wp_post (ih h₂ (by omega) _) ?_
      rintro cmd' s₃ ⟨as, vs, rfl, hAmps, hCmd, h₃⟩
      refine ⟨t :: as, vs, rfl, ?_, hCmd, h₃⟩
      exact List.forall_mem_cons.mpr ⟨hTok, hAmps⟩
    · refine ⟨[], ts, rfl, ?_, rfl, h₁⟩
      intro a ha
      cases ha

/- The call has consumed a phrase and built its command. -/
def Phrase (text : List UInt8) (sym : Sym) (ts : List Token) (cmd : Cmd) (s : Nat) : Prop :=
  ∃ us vs, ts = us ++ vs ∧ Derives sym us cmd ∧ At text s vs

/- What the calls with some fuel do. -/
structure Parses (text : List UInt8) (fuel : Nat) : Prop where
  line : ∀ s ts, At text s ts → 4 * ts.length + 4 ≤ fuel →
    wp (parseline text fuel) (Phrase text .line ts) Panics s
  pipe : ∀ s ts, At text s ts → 4 * ts.length + 3 ≤ fuel →
    wp (parsepipe text fuel) (Phrase text .pipe ts) Panics s
  exec : ∀ s ts, At text s ts → 4 * ts.length + 2 ≤ fuel →
    wp (parseexec text fuel) (Phrase text .exec ts) Panics s
  block : ∀ s ts, At text s ts → 4 * ts.length + 1 ≤ fuel →
    wp (parseblock text fuel) (Phrase text .exec ts) Panics s

theorem Parses.line_succ {fuel : Nat} (ih : Parses text fuel) (h : At text s ts)
    (hFuel : 4 * ts.length + 4 ≤ fuel + 1) :
    wp (parseline text (fuel + 1)) (Phrase text .line ts) Panics s := by
  unfold parseline
  rw [wp_bind]
  refine wp_post (ih.pipe s ts h (by omega)) ?_
  rintro cmd s₁ ⟨us, vs, rfl, hPipe, h₁⟩
  rw [List.length_append] at hFuel
  rw [wp_bind]
  refine wp_post (wp_parseamps h₁ (by omega) cmd) ?_
  rintro _ s₂ ⟨as, vs, rfl, hAmps, rfl, h₂⟩
  rw [List.length_append] at hFuel
  refine wp_peek_bind h₂ (by decide) ?_
  intro s₃ h₃
  rw [wp_ite, wp_pure]
  refine ⟨fun hMore => ?_, fun _ => ?_⟩
  · rcases opens_symbol .semi (by decide) hMore with ⟨t, vs, rfl, hTok⟩
    rw [List.length_cons] at hFuel
    refine wp_gettoken_bind h₃ ?_
    intro s₄ h₄
    rw [wp_bind]
    refine wp_post (ih.line s₄ vs h₄ (by omega)) ?_
    rintro rest s₅ ⟨ws, vs, rfl, hLine, h₅⟩
    rw [wp_pure]
    refine ⟨us ++ as ++ t :: ws, vs, ?_, .list hPipe hAmps hTok hLine, h₅⟩
    simp
  · refine ⟨us ++ as, vs, ?_, .line hPipe hAmps, h₃⟩
    rw [List.append_assoc]

theorem Parses.pipe_succ {fuel : Nat} (ih : Parses text fuel) (h : At text s ts)
    (hFuel : 4 * ts.length + 3 ≤ fuel + 1) :
    wp (parsepipe text (fuel + 1)) (Phrase text .pipe ts) Panics s := by
  unfold parsepipe
  rw [wp_bind]
  refine wp_post (ih.exec s ts h (by omega)) ?_
  rintro cmd s₁ ⟨us, vs, rfl, hExec, h₁⟩
  rw [List.length_append] at hFuel
  refine wp_peek_bind h₁ (by decide) ?_
  intro s₂ h₂
  rw [wp_ite, wp_pure]
  refine ⟨fun hMore => ?_, fun _ => ?_⟩
  · rcases opens_symbol .bar (by decide) hMore with ⟨t, vs, rfl, hTok⟩
    rw [List.length_cons] at hFuel
    refine wp_gettoken_bind h₂ ?_
    intro s₃ h₃
    rw [wp_bind]
    refine wp_post (ih.pipe s₃ vs h₃ (by omega)) ?_
    rintro rest s₄ ⟨ws, vs, rfl, hPipe, h₄⟩
    rw [wp_pure]
    refine ⟨us ++ t :: ws, vs, ?_, .bar hExec hTok hPipe, h₄⟩
    simp
  · exact ⟨us, vs, rfl, .pipe hExec, h₂⟩

theorem Parses.block_succ {fuel : Nat} (ih : Parses text fuel) (h : At text s ts)
    (hFuel : 4 * ts.length + 1 ≤ fuel + 1) :
    wp (parseblock text (fuel + 1)) (Phrase text .exec ts) Panics s := by
  unfold parseblock
  refine wp_peek_bind h (by decide) ?_
  intro s₁ h₁
  rw [wp_ite, wp_throw]
  refine ⟨fun _ => ⟨_, rfl⟩, fun hOpen => ?_⟩
  rw [Bool.not_eq_false] at hOpen
  rcases opens_symbol .lparen (by decide) hOpen with ⟨t, ts, rfl, hTok⟩
  rw [List.length_cons] at hFuel
  refine wp_gettoken_bind h₁ ?_
  intro s₂ h₂
  rw [wp_bind]
  refine wp_post (ih.line s₂ ts h₂ (by omega)) ?_
  rintro cmd s₃ ⟨us, vs, rfl, hLine, h₃⟩
  refine wp_peek_bind h₃ (by decide) ?_
  intro s₄ h₄
  rw [wp_ite, wp_throw]
  refine ⟨fun _ => ⟨_, rfl⟩, fun hClosed => ?_⟩
  rw [Bool.not_eq_false] at hClosed
  rcases opens_symbol .rparen (by decide) hClosed with ⟨t', vs, rfl, hTok'⟩
  rw [List.length_append, List.length_cons] at hFuel
  refine wp_gettoken_bind h₄ ?_
  intro s₅ h₅
  rw [wp_bind]
  refine wp_post (wp_parseredirs h₅ (by omega) []) ?_
  rintro rs s₆ ⟨ws, vs, rs', rfl, hRs, hRedirs, h₆⟩
  rw [List.nil_append] at hRs
  subst hRs
  rw [wp_pure]
  refine ⟨t :: us ++ t' :: ws, vs, ?_, .block hTok hLine hTok' hRedirs, h₆⟩
  simp

theorem Parses.exec_succ {fuel : Nat} (ih : Parses text fuel) (h : At text s ts)
    (hFuel : 4 * ts.length + 2 ≤ fuel + 1) :
    wp (parseexec text (fuel + 1)) (Phrase text .exec ts) Panics s := by
  unfold parseexec
  refine wp_peek_bind h (by decide) ?_
  intro s₁ h₁
  rw [wp_ite]
  refine ⟨fun _ => ih.block s₁ ts h₁ (by omega), fun _ => ?_⟩
  rw [wp_bind]
  refine wp_post (wp_parseredirs h₁ (by omega) []) ?_
  rintro rs s₂ ⟨us, vs, rs', rfl, hRs, hRedirs, h₂⟩
  rw [List.nil_append] at hRs
  subst hRs
  rw [List.length_append] at hFuel
  rw [wp_bind]
  refine wp_post (wp_parseargs h₂ (by omega) (by decide) rs) ?_
  rintro _ s₃ ⟨ws, vs, argv, rs', rfl, rfl, hWords, hFew, h₃⟩
  rw [List.nil_append] at hFew
  dsimp only [List.nil_append]
  rw [if_neg (Nat.not_le_of_lt hFew), wp_pure]
  refine ⟨us ++ ws, vs, ?_, .exec hRedirs hWords ?_, h₃⟩
  · rw [List.append_assoc]
  · exact Nat.le_sub_one_of_lt hFew

/- Every call with enough fuel consumes a phrase and builds its command, or panics. -/
theorem parses (text : List UInt8) (fuel : Nat) : Parses text fuel := by
  induction fuel with
  | zero =>
    refine ⟨?_, ?_, ?_, ?_⟩
    all_goals
      intro s ts _ hFuel
      omega
  | succ fuel ih =>
    refine ⟨?_, ?_, ?_, ?_⟩
    · exact fun s ts h hFuel => ih.line_succ h hFuel
    · exact fun s ts h hFuel => ih.pipe_succ h hFuel
    · exact fun s ts h hFuel => ih.exec_succ h hFuel
    · exact fun s ts h hFuel => ih.block_succ h hFuel

---- What The Parser Must Accept

/- The symbols that end a phrase. -/
def Sym.enders : Sym → List UInt8
  | .line => [41]
  | .pipe => [41, 38, 59]
  | .exec => [124, 41, 38, 59]

/- The rest of the tokens ends a phrase. -/
def Follow (sym : Sym) (vs : List Token) : Prop := vs = [] ∨ opens sym.enders vs = true

/- The call returns this, and stands before the rest. -/
def Accepts {α : Type} (text : List UInt8) (x : ParseM α) (s : Nat) (a : α) (vs : List Token) :
    Prop := wp x (fun a' s' => a' = a ∧ At text s' vs) (fun _ => False) s

theorem Accepts.bind {α β : Type} {x : ParseM α} {f : α → ParseM β} {Q : β → Nat → Prop} {a : α}
    {vs : List Token} (h : Accepts text x s a vs)
    (hNext : ∀ s', At text s' vs → wp (f a) Q (fun _ => False) s') :
    wp (x >>= f) Q (fun _ => False) s := by
  rw [wp_bind]
  refine wp_post h ?_
  rintro a' s' ⟨hEq, hAt⟩
  rw [hEq]
  exact hNext s' hAt

theorem Redirs.parsed {us vs : List Token} {ws : List Redir} (hRedirs : Redirs us ws)
    (h : At text s (us ++ vs)) (hEnd : opens [60, 62] vs = false) {fuel : Nat}
    (hFuel : us.length < fuel) (rs : List Redir) :
    Accepts text (parseredirs text fuel rs) s (rs ++ ws) vs := by
  induction hRedirs generalizing s fuel rs with
  | nil =>
    cases fuel with
    | zero => omega
    | succ fuel =>
      unfold parseredirs
      refine wp_peek_bind h (by decide) ?_
      intro s₁ h₁
      rw [List.nil_append] at h₁
      rw [List.nil_append, hEnd, if_neg (by decide), wp_pure]
      exact ⟨(List.append_nil rs).symm, h₁⟩
  | @cons t file ts ws hTok hFile _ ih =>
    cases fuel with
    | zero => omega
    | succ fuel =>
      unfold parseredirs
      refine wp_peek_bind h (by decide) ?_
      intro s₁ h₁
      have hMore : opens [60, 62] (t :: file :: ts ++ vs) = true := (opens_redirs t.tok).mpr hTok
      rw [hMore, if_pos rfl]
      refine wp_gettoken_bind h₁ ?_
      intro s₂ h₂
      refine wp_gettoken_bind h₂ ?_
      intro s₃ h₃
      rw [if_neg (not_not_intro hFile), ← List.append_assoc]
      simp only [List.length_cons] at hFuel
      exact ih h₃ (by omega) _

theorem amps_parsed {as vs : List Token} (hAmps : ∀ a ∈ as, a.tok = .amp) (h : At text s (as ++ vs))
    (hEnd : opens [38] vs = false) {fuel : Nat} (hFuel : as.length < fuel) (cmd : Cmd) :
    Accepts text (parseamps text fuel cmd) s (backs as.length cmd) vs := by
  induction as generalizing s fuel cmd with
  | nil =>
    cases fuel with
    | zero => omega
    | succ fuel =>
      unfold parseamps
      refine wp_peek_bind h (by decide) ?_
      intro s₁ h₁
      rw [List.nil_append] at h₁
      rw [List.nil_append, hEnd, if_neg (by decide), wp_pure]
      exact ⟨rfl, h₁⟩
  | cons a as ih =>
    cases fuel with
    | zero => omega
    | succ fuel =>
      unfold parseamps
      refine wp_peek_bind h (by decide) ?_
      intro s₁ h₁
      have hMore : opens [38] (a :: as ++ vs) = true :=
        opens_cons (hAmps a List.mem_cons_self) (by decide)
      rw [hMore, if_pos rfl]
      refine wp_gettoken_bind h₁ ?_
      intro s₂ h₂
      simp only [List.length_cons] at hFuel
      exact ih (fun b hb => hAmps b (List.mem_cons_of_mem a hb)) h₂ (by omega) _

theorem Follow.opens_eq_false {sym : Sym} {vs : List Token} {cs : List UInt8} (h : Follow sym vs)
    (hcs : ∀ k : Tok, sym.enders.contains k.lead = true → cs.contains k.lead = false) :
    opens cs vs = false := by
  rcases h with hNil | hOpens
  · rw [hNil]
    rfl
  · cases vs with
    | nil => rfl
    | cons t vs => exact hcs t.tok hOpens

theorem Words.opens_eq_false {ts vs : List Token} {argv : List (Nat × Nat)} {rs : List Redir}
    {cs : List UInt8} (hWords : Words ts argv rs) (hWord : cs.contains (Tok.lead .word) = false)
    (hEnd : opens cs vs = false) : opens cs (ts ++ vs) = false := by
  cases hWords with
  | nil => exact hEnd
  | cons hTok _ _ => exact opens_cons hTok hWord

theorem Words.parsed {us vs : List Token} {args : List (Nat × Nat)} {ws : List Redir}
    (hWords : Words us args ws) (h : At text s (us ++ vs)) (hEnd : Follow .exec vs) {fuel : Nat}
    (hFuel : us.length < fuel) {argv : List (Nat × Nat)}
    (hArgs : argv.length + args.length < MAXARGS) (rs : List Redir) :
    Accepts text (parseargs text fuel argv rs) s (argv ++ args, rs ++ ws) vs := by
  induction hWords generalizing s fuel argv rs with
  | nil =>
    cases fuel with
    | zero => omega
    | succ fuel =>
      unfold parseargs
      refine wp_peek_bind h (by decide) ?_
      intro s₁ h₁
      rw [List.append_nil, List.append_nil, List.nil_append]
      rw [List.nil_append] at h₁
      rcases hEnd with hNil | hOpens
      · subst hNil
        rw [if_neg (by decide)]
        refine wp_gettoken_nil_bind h₁ ?_
        intro t s₂ hEof h₂
        rw [if_pos hEof, wp_pure]
        exact ⟨rfl, h₂⟩
      · have hDone : opens [124, 41, 38, 59] vs = true := hOpens
        rw [hDone, if_pos rfl, wp_pure]
        exact ⟨rfl, h₁⟩
  | @cons t us ts args ws ws' hTok hRedirs hRest ih =>
    cases fuel with
    | zero => omega
    | succ fuel =>
      unfold parseargs
      refine wp_peek_bind h (by decide) ?_
      intro s₁ h₁
      have hMore : opens [124, 41, 38, 59] (t :: us ++ ts ++ vs) = false :=
        opens_cons hTok (by decide)
      rw [hMore, if_neg (by decide)]
      simp only [List.length_cons, List.length_append] at hFuel hArgs
      refine wp_gettoken_bind h₁ ?_
      intro s₂ h₂
      rw [if_neg h₁.tok_ne, if_neg (not_not_intro hTok), if_neg (by omega), if_neg (by omega)]
      have h₂' : At text s₂ (us ++ (ts ++ vs)) := by
        rw [← List.append_assoc]
        exact h₂
      have hNone : opens [60, 62] (ts ++ vs) = false :=
        hRest.opens_eq_false (by decide) (hEnd.opens_eq_false (by intro k; cases k <;> decide))
      refine (hRedirs.parsed h₂' hNone (by omega) rs).bind ?_
      intro s₃ h₃
      have hRoom : ts.length < fuel := by omega
      have hFew : (argv ++ [(t.q, t.eq)]).length + args.length < MAXARGS := by
        rw [List.length_append, List.length_singleton]
        omega
      have hNext := ih h₃ hRoom hFew (rs ++ ws)
      rw [List.append_assoc, List.append_assoc] at hNext
      exact hNext

/- The function that parses a symbol, and its own cost. -/
def Sym.parser (text : List UInt8) (fuel : Nat) : Sym → ParseM Cmd
  | .line => parseline text fuel
  | .pipe => parsepipe text fuel
  | .exec => parseexec text fuel

def Sym.cost : Sym → Nat
  | .line => 4
  | .pipe => 3
  | .exec => 2

theorem Follow.amps {as vs : List Token} (hAmps : ∀ a ∈ as, a.tok = .amp) (hEnd : Follow .pipe vs) :
    Follow .pipe (as ++ vs) := by
  cases as with
  | nil => exact hEnd
  | cons a as => exact Or.inr (opens_cons (hAmps a List.mem_cons_self) (by decide))

theorem Follow.widen {sym sym' : Sym} {vs : List Token} (h : Follow sym vs)
    (hEnders : ∀ k : Tok, sym.enders.contains k.lead = true → sym'.enders.contains k.lead = true) :
    Follow sym' vs := by
  rcases h with hNil | hOpens
  · exact Or.inl hNil
  · cases vs with
    | nil => exact Or.inl rfl
    | cons t vs => exact Or.inr (hEnders t.tok hOpens)

theorem Redirs.opens_eq_false {us vs : List Token} {rs : List Redir} {cs : List UInt8}
    (hRedirs : Redirs us rs) (hcs : ∀ k : Tok, k.Redirects → cs.contains k.lead = false)
    (hEnd : opens cs vs = false) : opens cs (us ++ vs) = false := by
  cases hRedirs with
  | nil => exact hEnd
  | @cons t file ts rs hTok _ _ => exact hcs t.tok hTok

section

variable {us vs ts as : List Token} {t t' : Token} {cmd rest : Cmd} {fuel : Nat}

/- What the parts of a phrase give, for the calls on them. -/
def Parsed (text : List UInt8) (sym : Sym) (us : List Token) (cmd : Cmd) : Prop :=
  ∀ s vs fuel, At text s (us ++ vs) → Follow sym vs →
      4 * (us ++ vs).length + sym.cost ≤ fuel → Accepts text (sym.parser text fuel) s cmd vs

/- The call itself takes one unit of fuel. -/
theorem Parsed.of_succ {sym : Sym}
    (h : ∀ s vs fuel, At text s (us ++ vs) → Follow sym vs →
      4 * (us ++ vs).length + sym.cost ≤ fuel + 1 →
        Accepts text (sym.parser text (fuel + 1)) s cmd vs) :
    Parsed text sym us cmd := by
  intro s vs fuel hAt hEnd hFuel
  cases fuel with
  | zero =>
    have hCost : 0 < sym.cost := by cases sym <;> decide
    omega
  | succ fuel => exact h s vs fuel hAt hEnd hFuel

section

variable (hPipe : Parsed text .pipe ts cmd) (hAmps : ∀ a ∈ as, a.tok = .amp)
include hPipe hAmps

theorem Parsed.amps {Q : Cmd → Nat → Prop} {f : Cmd → ParseM Cmd} (h : At text s (ts ++ (as ++ vs)))
    (hEnd : Follow .pipe vs) (hNone : opens [38] vs = false)
    (hFuel : 4 * (ts ++ (as ++ vs)).length + 3 ≤ fuel)
    (hNext : ∀ s', At text s' vs → wp (f (backs as.length cmd)) Q (fun _ => False) s') :
    wp (parsepipe text fuel >>= fun cmd => parseamps text fuel cmd >>= f) Q (fun _ => False) s := by
  refine (hPipe s (as ++ vs) fuel h (hEnd.amps hAmps) hFuel).bind ?_
  intro s₁ h₁
  simp only [List.length_append] at hFuel
  exact (amps_parsed hAmps h₁ hNone (by omega) cmd).bind hNext

theorem Parsed.line : Parsed text .line (ts ++ as) (backs as.length cmd) := by
  refine .of_succ ?_
  intro s vs fuel h hEnd hFuel
  rw [List.append_assoc] at h hFuel
  dsimp only [Sym.cost] at hFuel
  change Accepts text (parseline text (fuel + 1)) _ _ _
  unfold parseline
  have hWide : Follow .pipe vs := hEnd.widen (by intro k; cases k <;> decide)
  have hAmp : opens [38] vs = false := hEnd.opens_eq_false (by intro k; cases k <;> decide)
  have hSemi : opens [59] vs = false := hEnd.opens_eq_false (by intro k; cases k <;> decide)
  refine hPipe.amps hAmps h hWide hAmp (by omega) ?_
  intro s₁ h₁
  refine wp_peek_bind h₁ (by decide) ?_
  intro s₂ h₂
  rw [hSemi, if_neg (by decide), wp_pure]
  exact ⟨rfl, h₂⟩

theorem Parsed.list (hTok : t.tok = .semi) (hLine : Parsed text .line us rest) :
    Parsed text .line (ts ++ as ++ t :: us) (.list (backs as.length cmd) rest) := by
  refine .of_succ ?_
  intro s vs fuel h hEnd hFuel
  rw [List.append_assoc, List.append_assoc] at h hFuel
  dsimp only [Sym.cost] at hFuel
  change Accepts text (parseline text (fuel + 1)) _ _ _
  unfold parseline
  have hWide : Follow .pipe (t :: us ++ vs) := Or.inr (opens_cons hTok (by decide))
  have hAmp : opens [38] (t :: us ++ vs) = false := opens_cons hTok (by decide)
  have hSemi : opens [59] (t :: us ++ vs) = true := opens_cons hTok (by decide)
  refine hPipe.amps hAmps h hWide hAmp (by omega) ?_
  intro s₁ h₁
  refine wp_peek_bind h₁ (by decide) ?_
  intro s₂ h₂
  rw [hSemi, if_pos rfl]
  refine wp_gettoken_bind h₂ ?_
  intro s₃ h₃
  have hLess : 4 * (us ++ vs).length + 4 ≤ fuel := by
    simp only [List.length_append, List.length_cons] at hFuel ⊢
    omega
  refine (hLine s₃ vs fuel h₃ hEnd hLess).bind ?_
  intro s₄ h₄
  rw [wp_pure]
  exact ⟨rfl, h₄⟩

end

theorem Parsed.pipe (hExec : Parsed text .exec ts cmd) : Parsed text .pipe ts cmd := by
  refine .of_succ ?_
  intro s vs fuel h hEnd hFuel
  dsimp only [Sym.cost] at hFuel
  change Accepts text (parsepipe text (fuel + 1)) _ _ _
  unfold parsepipe
  have hWide : Follow .exec vs := hEnd.widen (by intro k; cases k <;> decide)
  have hBar : opens [124] vs = false := hEnd.opens_eq_false (by intro k; cases k <;> decide)
  have hLess : 4 * (ts ++ vs).length + 2 ≤ fuel := by omega
  refine (hExec s vs fuel h hWide hLess).bind ?_
  intro s₁ h₁
  refine wp_peek_bind h₁ (by decide) ?_
  intro s₂ h₂
  rw [hBar, if_neg (by decide), wp_pure]
  exact ⟨rfl, h₂⟩

theorem Parsed.bar (hExec : Parsed text .exec ts cmd) (hTok : t.tok = .bar)
    (hPipe : Parsed text .pipe us rest) : Parsed text .pipe (ts ++ t :: us) (.pipe cmd rest) := by
  refine .of_succ ?_
  intro s vs fuel h hEnd hFuel
  rw [List.append_assoc] at h hFuel
  dsimp only [Sym.cost] at hFuel
  change Accepts text (parsepipe text (fuel + 1)) _ _ _
  unfold parsepipe
  have hWide : Follow .exec (t :: us ++ vs) := Or.inr (opens_cons hTok (by decide))
  have hBar : opens [124] (t :: us ++ vs) = true := opens_cons hTok (by decide)
  have hLess : 4 * (ts ++ (t :: us ++ vs)).length + 2 ≤ fuel := by omega
  refine (hExec s _ fuel h hWide hLess).bind ?_
  intro s₁ h₁
  refine wp_peek_bind h₁ (by decide) ?_
  intro s₂ h₂
  rw [hBar, if_pos rfl]
  refine wp_gettoken_bind h₂ ?_
  intro s₃ h₃
  have hRest : 4 * (us ++ vs).length + 3 ≤ fuel := by
    simp only [List.length_append, List.length_cons] at hFuel ⊢
    omega
  refine (hPipe s₃ vs fuel h₃ hEnd hRest).bind ?_
  intro s₄ h₄
  rw [wp_pure]
  exact ⟨rfl, h₄⟩

theorem Parsed.block {rs : List Redir} (hTok : t.tok = .lparen) (hLine : Parsed text .line ts cmd)
    (hTok' : t'.tok = .rparen) (hRedirs : Redirs us rs) :
    Parsed text .exec (t :: ts ++ t' :: us) (wrap cmd rs) := by
  refine .of_succ ?_
  intro s vs fuel h hEnd hFuel
  rw [List.append_assoc] at h hFuel
  dsimp only [Sym.cost] at hFuel
  change Accepts text (parseexec text (fuel + 1)) _ _ _
  unfold parseexec
  have hOpen : opens [40] (t :: ts ++ (t' :: us ++ vs)) = true := opens_cons hTok (by decide)
  refine wp_peek_bind h (by decide) ?_
  intro s₁ h₁
  rw [hOpen, if_pos rfl]
  simp only [List.length_append, List.length_cons] at hFuel
  cases fuel with
  | zero => omega
  | succ fuel =>
    unfold parseblock
    refine wp_peek_bind h₁ (by decide) ?_
    intro s₂ h₂
    rw [hOpen, if_neg (by decide)]
    refine wp_gettoken_bind h₂ ?_
    intro s₃ h₃
    have hClosed : opens [41] (t' :: us ++ vs) = true := opens_cons hTok' (by decide)
    have hLess : 4 * (ts ++ (t' :: us ++ vs)).length + 4 ≤ fuel := by
      simp only [List.length_append, List.length_cons]
      omega
    refine (hLine s₃ _ fuel h₃ (Or.inr hClosed) hLess).bind ?_
    intro s₄ h₄
    refine wp_peek_bind h₄ (by decide) ?_
    intro s₅ h₅
    rw [hClosed, if_neg (by decide)]
    refine wp_gettoken_bind h₅ ?_
    intro s₆ h₆
    have hNone : opens [60, 62] vs = false := hEnd.opens_eq_false (by intro k; cases k <;> decide)
    refine (hRedirs.parsed h₆ hNone (by omega) []).bind ?_
    intro s₇ h₇
    rw [wp_pure]
    exact ⟨rfl, h₇⟩

theorem Parsed.exec {argv : List (Nat × Nat)} {rs rs' : List Redir} (hRedirs : Redirs us rs)
    (hWords : Words ts argv rs') (hArgs : argv.length ≤ MAXARGS - 1) :
    Parsed text .exec (us ++ ts) (wrap (.exec argv) (rs ++ rs')) := by
  refine .of_succ ?_
  intro s vs fuel h hEnd hFuel
  rw [List.append_assoc] at h hFuel
  dsimp only [Sym.cost] at hFuel
  change Accepts text (parseexec text (fuel + 1)) _ _ _
  unfold parseexec
  have hNone : opens [60, 62] (ts ++ vs) = false :=
    hWords.opens_eq_false (by decide) (hEnd.opens_eq_false (by intro k; cases k <;> decide))
  have hBlock : opens [40] (us ++ (ts ++ vs)) = false := by
    refine hRedirs.opens_eq_false ?_ ?_
    · rintro k (hk | hk | hk)
      all_goals
        rw [hk]
        decide
    · exact
        hWords.opens_eq_false (by decide) (hEnd.opens_eq_false (by intro k; cases k <;> decide))
  have hFew : argv.length < MAXARGS := by
    unfold MAXARGS at hArgs ⊢
    omega
  simp only [List.length_append] at hFuel
  refine wp_peek_bind h (by decide) ?_
  intro s₁ h₁
  rw [hBlock, if_neg (by decide)]
  refine (hRedirs.parsed h₁ hNone (by omega) []).bind ?_
  intro s₂ h₂
  refine (hWords.parsed h₂ hEnd (by omega) (by rw [List.length_nil]; omega) _).bind ?_
  intro s₃ h₃
  dsimp only [List.nil_append]
  rw [if_neg (Nat.not_le_of_lt hFew), wp_pure]
  exact ⟨rfl, h₃⟩

end

variable {buf : List UInt8}

theorem Derives.parsed {sym : Sym} {us : List Token} {cmd : Cmd} (h : Derives sym us cmd) :
    Parsed text sym us cmd := by
  induction h with
  | line _ hAmps ih => exact ih.line hAmps
  | list _ hAmps hTok _ ih ih' => exact ih.list hAmps hTok ih'
  | pipe _ ih => exact ih.pipe
  | bar _ hTok _ ih ih' => exact ih.bar hTok ih'
  | block hTok _ hTok' hRedirs ih => exact ih.block hTok hTok' hRedirs
  | exec hRedirs hWords hArgs => exact .exec hRedirs hWords hArgs

---- Whole Lines

theorem charAt_line_ne (h : s < (line buf).length) : charAt (line buf) s ≠ 0 := by
  have hMem : charAt (line buf) s ∈ line buf := by
    unfold charAt
    rw [List.getD_eq_getElem _ _ h]
    exact List.getElem_mem h
  simpa using List.mem_takeWhile_imp hMem

theorem At.skipSpace_eq_iff (h : At (line buf) s ts) :
    skipSpace (line buf) s = (line buf).length ↔ ts = [] := by
  rcases h with ⟨hs, hToks⟩
  have hLe := skipSpace_le hs
  rw [toks_eq hs] at hToks
  split at hToks
  · rename_i hEof
    refine ⟨fun _ => hToks.symm, fun _ => ?_⟩
    by_contra hNe
    exact charAt_line_ne (by omega) (charAt_of_eof hEof)
  · rename_i hTok
    have hLt := lt_length_of_charAt (tokenAt_lead hTok).1
    refine ⟨fun hEnd => ?_, fun hNil => ?_⟩
    · omega
    · rw [hNil] at hToks
      cases hToks

theorem wp_leftovers {cmd : Cmd} {Q : Cmd × List UInt8 → Nat → Prop}
    {E : Stop → Prop} (h : At (line buf) s ts)
    (hDone : ts = [] → ∀ s', Q (cmd, nulterminate cmd buf) s')
    (hLeft : ts ≠ [] → E (.panic "syntax")) :
    wp
      (do
        let _ ← peek (line buf) []
        let s ← get
        if s ≠ (line buf).length then throw (.panic "syntax") else pure (cmd, nulterminate cmd buf))
      Q E s := by
  unfold peek
  simp only [wp_bind, wp_get, wp_set, wp_pure, wp_ite, wp_throw]
  rw [Ne, h.skipSpace_eq_iff]
  exact ⟨hLeft, fun hNil => hDone (not_not.mp hNil) _⟩

theorem wp_parse {fuel : Nat} (hFuel : 4 * (tokens (line buf)).length + 4 ≤ fuel) :
    wp (parse fuel buf) (fun r _ =>
        ∃ cmd, r = (cmd, nulterminate cmd buf) ∧ Derives .line (tokens (line buf)) cmd)
      Panics 0 := by
  have hAt : At (line buf) 0 (tokens (line buf)) := ⟨Nat.zero_le _, rfl⟩
  unfold parse
  rw [wp_bind]
  refine wp_post ((parses (line buf) fuel).line 0 _ hAt hFuel) ?_
  rintro cmd s ⟨us, vs, hEq, hLine, hEnd⟩
  refine wp_leftovers hEnd ?_ ?_
  · intro hNil _
    rw [hNil, List.append_nil] at hEq
    exact ⟨cmd, rfl, hEq ▸ hLine⟩
  · exact fun _ => ⟨_, rfl⟩

theorem derives_parse {cmd : Cmd} {fuel : Nat} (hLine : Derives .line (tokens (line buf)) cmd)
    (hFuel : 4 * (tokens (line buf)).length + 4 ≤ fuel) :
    wp (parse fuel buf) (fun r _ => r = (cmd, nulterminate cmd buf)) (fun _ => False) 0 := by
  have hAt : At (line buf) 0 (tokens (line buf) ++ []) := by
    rw [List.append_nil]
    exact ⟨Nat.zero_le _, rfl⟩
  have hAll : 4 * (tokens (line buf) ++ []).length + 4 ≤ fuel := by
    rw [List.append_nil]
    exact hFuel
  unfold parse
  refine (hLine.parsed 0 [] fuel hAt (Or.inl rfl) hAll).bind ?_
  intro s hEnd
  exact wp_leftovers hEnd (fun _ _ => rfl) (absurd rfl)

theorem parsecmd_of_wp {fuel : Nat} {Q : Cmd × List UInt8 → Prop} {E : Stop → Prop}
    (h : wp (parse fuel buf) (fun r _ => Q r) E 0) :
    (∃ r, parsecmd fuel buf = .ok r ∧ Q r) ∨ ∃ e, parsecmd fuel buf = .error e ∧ E e := by
  unfold wp at h
  unfold parsecmd StateT.run'
  cases hRun : parse fuel buf 0 with
  | ok r =>
    rw [hRun] at h
    exact Or.inl ⟨r.1, rfl, h⟩
  | error e =>
    rw [hRun] at h
    exact Or.inr ⟨e, rfl, h⟩

/-
  With as many calls as its tokens allow, the parser returns
  a command exactly for the lines of the grammar: the one of
  the derivation, which is the only one. On other lines it
  panics. It never runs out of calls, and never stores
  beyond the arrays of arguments.
-/
theorem parsecmd_grammar
    (buf : List UInt8)
    (fuel : Nat)
    (hFuel : 4 * (tokens (line buf)).length + 4 ≤ fuel) :
    (∀ cmd,
      Derives .line (tokens (line buf)) cmd ↔
        ∃ buf', parsecmd fuel buf = .ok (cmd, buf')) ∧
    (∀ cmd cmd',
      Derives .line (tokens (line buf)) cmd →
      Derives .line (tokens (line buf)) cmd' →
      cmd = cmd') ∧
    ((∀ cmd, ¬ Derives .line (tokens (line buf)) cmd) →
      ∃ message, parsecmd fuel buf = .error (.panic message)) ∧
    parsecmd fuel buf ≠ .error .fuel ∧
    parsecmd fuel buf ≠ .error .overflow := by
  have hAccepts : ∀ cmd, Derives .line (tokens (line buf)) cmd →
      parsecmd fuel buf = .ok (cmd, nulterminate cmd buf) := by
    intro cmd hLine
    rcases parsecmd_of_wp (derives_parse hLine hFuel) with ⟨r, hRun, hr⟩ | ⟨_, _, hFalse⟩
    · rw [hRun, hr]
    · exact hFalse.elim
  rcases parsecmd_of_wp (wp_parse hFuel) with ⟨r, hRun, cmd, hr, hLine⟩ | ⟨e, hRun, message, he⟩
  · subst hr
    have hOnly : ∀ cmd', Derives .line (tokens (line buf)) cmd' → cmd' = cmd := by
      intro cmd' hLine'
      have hSame := (hAccepts cmd' hLine').symm.trans hRun
      cases hSame
      rfl
    refine ⟨fun cmd' => ⟨?_, ?_⟩, ?_, ?_, ?_, ?_⟩
    · intro hLine'
      exact ⟨_, hAccepts cmd' hLine'⟩
    · rintro ⟨buf', hOk⟩
      rw [hRun] at hOk
      cases hOk
      exact hLine
    · intro cmd₁ cmd₂ h₁ h₂
      rw [hOnly cmd₁ h₁, hOnly cmd₂ h₂]
    · intro hNone
      exact absurd hLine (hNone cmd)
    · rw [hRun]
      exact nofun
    · rw [hRun]
      exact nofun
  · subst he
    have hNone : ∀ cmd, ¬ Derives .line (tokens (line buf)) cmd := by
      intro cmd hLine
      have hOk := hAccepts cmd hLine
      rw [hRun] at hOk
      cases hOk
    refine ⟨fun cmd => ⟨?_, ?_⟩, ?_, ?_, ?_, ?_⟩
    · intro hLine
      exact absurd hLine (hNone cmd)
    · rintro ⟨buf', hOk⟩
      rw [hRun] at hOk
      cases hOk
    · intro cmd _ hLine _
      exact absurd hLine (hNone cmd)
    · exact fun _ => ⟨message, hRun⟩
    · rw [hRun]
      exact nofun
    · rw [hRun]
      exact nofun

end

/- The line "(a>b)|c &". -/
def pipelineLine : List UInt8 := [40, 97, 62, 98, 41, 124, 99, 32, 38, 0]

theorem parsecmd_grammar_pipeline :
    4 * (tokens (line pipelineLine)).length + 4 ≤ 36 ∧ (∃ buf', parsecmd 36 pipelineLine =
        .ok (.back (.pipe (.redir (.exec [(1, 2)]) ⟨3, 4, 0x601, 1⟩) (.exec [(6, 7)])), buf')) ∧
      parsecmd 36 pipelineLine ≠ .error .overflow :=
  ⟨by decide +kernel, ⟨_, rfl⟩, (parsecmd_grammar _ 36 (by decide +kernel)).2.2.2.2⟩

end Xv6.User.Sh

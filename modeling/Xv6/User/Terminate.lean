import Xv6.User.Grammar

/-
  The strings of a parsed line, as `nulterminate` leaves them.

  All strings are ranges of the one buffer that holds the
  line. The byte after a word is not a byte of any word, so a
  terminator never falls into another string.

  Main declarations:
    * `nulterminate_recovers`
-/

namespace Xv6.User.Sh

/- The range of the file name. -/
def Redir.range (r : Redir) : Nat × Nat := (r.file, r.efile)

/- The strings of a tree, as `nulterminate` visits them. -/
def Cmd.words : Cmd → List (Nat × Nat)
  | .exec argv => argv
  | .redir cmd target => cmd.words ++ [target.range]
  | .pipe left right => left.words ++ right.words
  | .list left right => left.words ++ right.words
  | .back cmd => cmd.words

/- The words among tokens. -/
def wordsOf (ts : List Token) : List (Nat × Nat) :=
  (ts.filter (·.tok = .word)).map (fun t => (t.q, t.eq))

---- The Strings Are The Words

section

variable {ts us : List Token} {t : Token} {rs : List Redir}

@[simp] theorem wordsOf_append : wordsOf (ts ++ us) = wordsOf ts ++ wordsOf us := by
  simp [wordsOf]

theorem wordsOf_cons_word (h : t.tok = .word) : wordsOf (t :: ts) = (t.q, t.eq) :: wordsOf ts := by
  simp [wordsOf, h]

theorem wordsOf_cons_other (h : t.tok ≠ .word) : wordsOf (t :: ts) = wordsOf ts := by
  simp [wordsOf, h]

theorem wordsOf_amps (h : ∀ a ∈ ts, a.tok = .amp) : wordsOf ts = [] := by
  induction ts with
  | nil => rfl
  | cons a ts ih =>
    have hAmp := h a List.mem_cons_self
    rw [wordsOf_cons_other (by simp [hAmp])]
    exact ih (fun b hb => h b (List.mem_cons_of_mem a hb))

theorem words_wrap (cmd : Cmd) (rs : List Redir) :
    (wrap cmd rs).words = cmd.words ++ rs.map Redir.range := by
  unfold wrap
  induction rs generalizing cmd with
  | nil => simp
  | cons r rs ih => simp [ih, Cmd.words]

theorem words_backs (n : Nat) (cmd : Cmd) : (backs n cmd).words = cmd.words := by
  unfold backs
  induction n generalizing cmd with
  | zero => rfl
  | succ n ih => exact ih (.back cmd)

theorem Redirs.words (h : Redirs ts rs) : rs.map Redir.range = wordsOf ts := by
  induction h with
  | nil => rfl
  | @cons t file ts rs hTok hFile hRest ih =>
    have hOther : t.tok ≠ .word := by
      rcases hTok with h | h | h <;> simp [h]
    rw [wordsOf_cons_other hOther, wordsOf_cons_word hFile, List.map_append, ih]
    rcases hTok with h | h | h <;> rw [h] <;> rfl

theorem Words.words {argv : List (Nat × Nat)} (h : Words ts argv rs) :
    (argv ++ rs.map Redir.range).Perm (wordsOf ts) := by
  induction h with
  | nil => exact .refl _
  | @cons t us ts argv rs rs' hTok hRedirs hRest ih =>
    rw [List.cons_append, List.cons_append, wordsOf_cons_word hTok, wordsOf_append,
      List.map_append, hRedirs.words, ← List.append_assoc]
    -- The redirections move in front of the later arguments.
    refine .cons _ (.trans (.append_right _ List.perm_append_comm) ?_)
    rw [List.append_assoc]
    exact ih.append_left _

theorem Derives.words {sym : Sym} {cmd : Cmd} (h : Derives sym ts cmd) :
    cmd.words.Perm (wordsOf ts) := by
  induction h with
  | line hPipe hAmps ih => simpa [words_backs, wordsOf_amps hAmps] using ih
  | list hPipe hAmps hTok hLine ihPipe ihLine =>
    rw [wordsOf_append, wordsOf_append, wordsOf_cons_other (by simp [hTok]), wordsOf_amps hAmps,
      List.append_nil]
    simpa [Cmd.words, words_backs] using ihPipe.append ihLine
  | pipe hExec ih => exact ih
  | bar hExec hTok hPipe ihExec ihPipe =>
    rw [wordsOf_append, wordsOf_cons_other (by simp [hTok])]
    exact ihExec.append ihPipe
  | block hTok hLine hTok' hRedirs ih =>
    rw [words_wrap, List.cons_append, wordsOf_cons_other (by simp [hTok]), wordsOf_append,
      wordsOf_cons_other (by simp [hTok']), hRedirs.words]
    exact ih.append_right _
  | exec hRedirs hWords hArgs =>
    rw [words_wrap, wordsOf_append, List.map_append, hRedirs.words, ← List.append_assoc]
    refine .trans (.append_right _ List.perm_append_comm) ?_
    rw [List.append_assoc]
    exact hWords.words.append_left _

end

---- Words Of The Line

structure IsWord (text : List UInt8) (w : Nat × Nat) : Prop where
  le : w.1 ≤ w.2
  inside : w.2 ≤ text.length
  bytes : ∀ i, w.1 ≤ i → i < w.2 → wordByte (charAt text i) = true
  stop : charAt text w.2 = 0 ∨ wordByte (charAt text w.2) = false

section

variable {text buf : List UInt8} {s i : Nat}

theorem charAt_run {p : UInt8 → Bool} (hLe : s ≤ i) (hLt : i < advance p text s) :
    p (charAt text i) = true := by
  unfold advance at hLt
  have hIn : i - s < ((text.drop s).takeWhile p).length := by omega
  have hLen := (List.takeWhile_prefix p (l := text.drop s)).length_le
  rw [List.length_drop] at hLen
  have hEq := (List.takeWhile_prefix p).getElem hIn
  rw [List.getElem_drop] at hEq
  have hPos : s + (i - s) = i := by omega
  simp only [hPos] at hEq
  unfold charAt
  rw [List.getD_eq_getElem _ _ (by omega), ← hEq]
  exact List.mem_takeWhile_imp (List.getElem_mem hIn)

theorem tokenAt_word (h : (tokenAt text s).1 = .word) :
    (tokenAt text s).2 = advance wordByte text s := by
  unfold tokenAt at h ⊢
  repeat' split at h
  all_goals first | (cases h; done) | simp [*]

theorem mem_tokensFrom {t : Token} {fuel : Nat} (h : t ∈ tokensFrom text fuel s) :
    ∃ s', t = next text s' ∧ t.tok ≠ .eof := by
  induction fuel generalizing s with
  | zero => cases h
  | succ fuel ih =>
    rw [tokensFrom_succ] at h
    split at h
    · cases h
    · rename_i hTok
      rcases List.mem_cons.mp h with hEq | hRest
      · exact ⟨s, hEq, hEq ▸ hTok⟩
      · exact ih hRest

theorem isWord_of_mem {w : Nat × Nat} (h : w ∈ wordsOf (tokens text)) : IsWord text w := by
  rcases List.mem_map.mp h with ⟨t, hMem, rfl⟩
  rcases List.mem_filter.mp hMem with ⟨hIn, hTok⟩
  have hWord : t.tok = .word := of_decide_eq_true hTok
  rcases mem_tokensFrom hIn with ⟨s, rfl, hNe⟩
  have hEnd : (next text s).eq = advance wordByte text (next text s).q := tokenAt_word hWord
  refine ⟨?_, (next_bounds hNe).2, ?_, ?_⟩
  · dsimp only
    rw [hEnd]
    exact le_advance
  · intro i hLe hLt
    dsimp only at hLt
    rw [hEnd] at hLt
    exact charAt_run hLe hLt
  · dsimp only
    rw [hEnd]
    exact charAt_advance

theorem IsWord.apart {w w' : Nat × Nat} (h : IsWord (line buf) w) (h' : IsWord (line buf) w')
    (hLe : w.1 ≤ i) (hLt : i < w.2) : w'.2 ≠ i := by
  rintro rfl
  have hByte := h.bytes _ hLe hLt
  have hIn := Nat.lt_of_lt_of_le hLt h.inside
  rcases h'.stop with hZero | hOther
  · exact charAt_line_ne hIn hZero
  · simp [hByte] at hOther

---- The Terminators

/- Zero bytes after the ranges. -/
def terminated (ws : List (Nat × Nat)) (buf : List UInt8) : List UInt8 :=
  ws.foldl (fun buf w => buf.set w.2 0) buf

theorem nulterminate_eq (cmd : Cmd) (buf : List UInt8) :
    nulterminate cmd buf = terminated cmd.words buf := by
  unfold terminated
  induction cmd generalizing buf with
  | exec argv => rfl
  | redir cmd target ih => simp [nulterminate, Cmd.words, ih, Redir.range]
  | pipe left right ihLeft ihRight => simp [nulterminate, Cmd.words, ihLeft, ihRight]
  | list left right ihLeft ihRight => simp [nulterminate, Cmd.words, ihLeft, ihRight]
  | back cmd ih => exact ih buf

theorem terminated_getElem? (ws : List (Nat × Nat)) (buf : List UInt8) (i : Nat) :
    (terminated ws buf)[i]? = if ∃ w ∈ ws, w.2 = i then buf[i]?.map (fun _ => 0) else buf[i]? := by
  unfold terminated
  induction ws generalizing buf with
  | nil => simp
  | cons w ws ih =>
    rw [List.foldl_cons, ih, List.getElem?_set]
    by_cases hHere : w.2 = i
    · have hAny : ∃ w' ∈ w :: ws, w'.2 = i := ⟨w, List.mem_cons_self, hHere⟩
      rw [if_pos hHere, if_pos hAny]
      by_cases hIn : w.2 < buf.length
      · simp [hIn, ← hHere]
      · simp [← hHere, hIn]
    · have hAny : (∃ w' ∈ w :: ws, w'.2 = i) ↔ ∃ w' ∈ ws, w'.2 = i := by simp [hHere]
      rw [if_neg hHere]
      exact if_congr hAny.symm rfl rfl

theorem length_line_lt (hNul : 0 ∈ buf) : (line buf).length < buf.length := by
  have hPrefix : line buf <+: buf := List.takeWhile_prefix _
  by_contra hGe
  have hAll := hPrefix.eq_of_length_le (Nat.le_of_not_lt hGe)
  have hMem : (0 : UInt8) ∈ line buf := by rwa [hAll]
  simpa using List.mem_takeWhile_imp hMem

theorem line_drop_terminated {ws : List (Nat × Nat)} {w : Nat × Nat} (hNul : 0 ∈ buf)
    (hAll : ∀ w ∈ ws, IsWord (line buf) w) (hw : w ∈ ws) :
    line ((terminated ws buf).drop w.1) = ((line buf).take w.2).drop w.1 := by
  have h := hAll w hw
  have hLe := h.le
  have hInside := h.inside
  have hLen := length_line_lt hNul
  have hPrefix : line buf <+: buf := List.takeWhile_prefix _
  have hEnd : (terminated ws buf)[w.2]? = some 0 := by
    have hIn : w.2 < buf.length := by omega
    rw [terminated_getElem?, if_pos ⟨w, hw, rfl⟩, List.getElem?_eq_getElem hIn]
    rfl
  have hText : ((terminated ws buf).take w.2).drop w.1 = ((line buf).take w.2).drop w.1 := by
    apply List.ext_getElem?
    intro k
    rw [List.getElem?_drop, List.getElem?_drop, List.getElem?_take, List.getElem?_take]
    split
    · rename_i hk
      have hNone : ¬ ∃ w' ∈ ws, w'.2 = w.1 + k := by
        rintro ⟨w', hw', hEq⟩
        exact h.apart (hAll w' hw') (Nat.le_add_right _ k) hk hEq
      have hIn : w.1 + k < (line buf).length := by omega
      rw [terminated_getElem?, if_neg hNone, List.getElem?_eq_getElem hIn,
        List.getElem?_eq_getElem (by omega), hPrefix.getElem hIn]
    · rfl
  have hSplit : (terminated ws buf).drop w.1 =
      ((line buf).take w.2).drop w.1 ++ 0 :: (terminated ws buf).drop (w.2 + 1) := by
    rcases List.getElem?_eq_some_iff.mp hEnd with ⟨hIn, hZero⟩
    have hTake : w.1 ≤ ((terminated ws buf).take w.2).length := by
      rw [List.length_take]
      omega
    rw [← hText, ← hZero, ← List.drop_eq_getElem_cons hIn, ← List.drop_append_of_le_length hTake,
      List.take_append_drop]
  have hInner : ∀ b ∈ ((line buf).take w.2).drop w.1, decide (b ≠ 0) = true := by
    intro b hb
    have hMem : b ∈ line buf := List.mem_of_mem_take (List.mem_of_mem_drop hb)
    exact List.mem_takeWhile_imp (p := fun b => decide (b ≠ 0)) hMem
  rw [hSplit]
  unfold line at hInner ⊢
  rw [List.takeWhile_append_of_pos hInner]
  simp

/-
  After an accepted line is terminated, every string of the
  tree reads as the text of its word, and the strings are
  exactly the words of the line. All terminators are stored
  in the buffer.
-/
theorem nulterminate_recovers
    (buf : List UInt8)
    (fuel : Nat)
    (cmd : Cmd)
    (buf' : List UInt8)
    (hNul : 0 ∈ buf)
    (hFuel : 4 * (tokens (line buf)).length + 4 ≤ fuel)
    (hParse : parsecmd fuel buf = .ok (cmd, buf')) :
    cmd.words.Perm (wordsOf (tokens (line buf))) ∧
    ∀ w ∈ cmd.words,
      w.2 < buf.length ∧
      line (buf'.drop w.1) = ((line buf).take w.2).drop w.1 := by
  rcases parsecmd_of_wp (wp_parse hFuel) with ⟨r, hRun, cmd', rfl, hLine⟩ | ⟨e, hRun, -⟩
  · rw [hRun] at hParse
    cases hParse
    have hPerm := hLine.words
    have hAll : ∀ w ∈ cmd.words, IsWord (line buf) w :=
      fun w hw => isWord_of_mem (hPerm.mem_iff.mp hw)
    refine ⟨hPerm, fun w hw => ⟨?_, ?_⟩⟩
    · exact Nat.lt_of_le_of_lt (hAll w hw).inside (length_line_lt hNul)
    · rw [nulterminate_eq]
      exact line_drop_terminated hNul hAll hw
  · rw [hRun] at hParse
    cases hParse

end

/- The strings "a", "b" and "c" of "(a>b)|c &". -/
theorem nulterminate_recovers_pipeline :
    ∃ cmd buf', parsecmd 36 pipelineLine = .ok (cmd, buf') ∧
      cmd.words = [(1, 2), (3, 4), (6, 7)] ∧ line (buf'.drop 3) = [98] :=
  ⟨_, _, rfl, rfl,
    ((nulterminate_recovers pipelineLine 36 _ _ (by decide) (by decide +kernel) rfl).2
      (3, 4) (by decide)).2⟩

end Xv6.User.Sh

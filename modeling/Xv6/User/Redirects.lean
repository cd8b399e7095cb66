import Mathlib.Data.List.Induction
import Mathlib.Logic.Function.Basic
import Xv6.Params
import Xv6.User.Grammar

/-
  The redirections of a command, and how `runcmd` of the
  shell performs them.

  A redirection closes its descriptor and opens its file,
  which takes the lowest free descriptor. The parser puts the
  first redirection innermost and `runcmd` starts with the
  outermost node, so they are performed from right to left.

  Main declarations:
    * `redirections_in_order_iff`
-/

namespace Xv6.User.Sh

open Function (update update_self update_of_ne update_idem)

---- Descriptors

def O_RDWR : Nat := 0x002

/-
  What a descriptor is for: one from before, or a file that
  `open` gave, with the two flags that `sys_open` sets.
-/
inductive Handle (F : Type) where
  | given (k : Nat)
  | opened (file : F) (readable writable : Bool)
  deriving DecidableEq

abbrev Table (F : Type) := Nat → Option (Handle F)

/- The kernel's `fdalloc`: the lowest free descriptor. -/
def fdalloc {F : Type} (table : Table F) : Option Nat :=
  (List.range NOFILE).find? (fun fd => (table fd).isNone)

/-
  `main` opens the console until three descriptors are open.
  Redirections are for the first two of them.
-/
def Table.Std {F : Type} (table : Table F) : Prop :=
  ∀ fd ≤ 1, (table fd).isSome = true

section

-- The terminated line, and the file that a name leads to.
variable {F : Type} (buf : List UInt8) (file : List UInt8 → F)

/- What `open(rcmd->file, rcmd->mode)` gives. -/
def Redir.handle (r : Redir) : Handle F :=
  .opened (file (line (buf.drop r.file)))
    (r.mode &&& O_WRONLY == 0)
    (r.mode &&& O_WRONLY != 0 || r.mode &&& O_RDWR != 0)

/- `close(fd)`, then `open` of a file that can be opened. -/
def redirOpen (table : Table F) (r : Redir) : Option (Table F) :=
  let closed := update table r.fd none
  (fdalloc closed).map (fun fd => update closed fd (some (r.handle buf file)))

/- The first calls of `runcmd`, each for a `REDIR` node. -/
def runRedirs : Nat → Cmd → Table F → Option (Cmd × Table F)
  | 0, cmd, table => some (cmd, table)
  | n + 1, .redir cmd r, table => (redirOpen buf file table r).bind (runRedirs n cmd)
  | _ + 1, _, _ => none

/- What a descriptor is for if the last of `rs` wins. -/
def override (table : Table F) (rs : List Redir) : Table F :=
  fun fd =>
    (rs.reverse.find? (·.fd = fd)).elim (table fd) (some ∘ Redir.handle buf file)

variable {buf file} {table : Table F} {rs : List Redir} {r : Redir}

/- The file gets the descriptor that was closed for it. -/
theorem redirOpen_eq
    (hStd : table.Std)
    (hfd : r.fd ≤ 1) :
    redirOpen buf file table r =
      some (update table r.fd (some (r.handle buf file))) := by
  have hFree : fdalloc (update table r.fd none) = some r.fd := by
    have hZero := hStd 0 (Nat.zero_le 1)
    unfold fdalloc NOFILE
    rw [List.range_succ_eq_map]
    rcases Nat.le_one_iff_eq_zero_or_eq_one.mp hfd with h | h
    · rw [h]
      rfl
    · rw [h, List.find?_cons_of_neg]
      · rfl
      · rw [update_of_ne Nat.zero_ne_one, Option.isNone_iff_eq_none]
        exact Option.isSome_iff_ne_none.mp hZero
  unfold redirOpen
  dsimp only
  rw [hFree, Option.map_some, update_idem]

theorem Table.Std.opened
    (hStd : table.Std) :
    Table.Std (update table r.fd (some (r.handle buf file))) := by
  intro fd hfd
  by_cases h : fd = r.fd
  · rw [h, update_self]
    rfl
  · rw [update_of_ne h]
    exact hStd fd hfd

/- Redirections performed in order: the last one wins. -/
theorem foldlM_redirOpen
    (hStd : table.Std)
    (hfds : ∀ r ∈ rs, r.fd ≤ 1) :
    rs.foldlM (redirOpen buf file) table = some (override buf file table rs) := by
  induction rs generalizing table with
  | nil => rfl
  | cons r rs ih =>
    rw [List.foldlM_cons, redirOpen_eq hStd (hfds r List.mem_cons_self)]
    refine
      (ih hStd.opened (fun r' hr' => hfds r' (List.mem_cons_of_mem r hr'))).trans (congrArg some ?_)
    funext fd
    unfold override
    rw [List.reverse_cons, List.find?_append]
    cases rs.reverse.find? (·.fd = fd) with
    | some r' => rfl
    | none =>
      rw [Option.none_or]
      by_cases h : fd = r.fd
      · rw [List.find?_cons_of_pos, h]
        · exact update_self _ _ _
        · exact decide_eq_true h.symm
      · rw [List.find?_cons_of_neg]
        · exact update_of_ne h _ _
        · exact fun hEq => h (of_decide_eq_true hEq).symm

/- `runcmd` performs the outermost redirection first. -/
theorem runRedirs_wrap
    (cmd : Cmd)
    (table : Table F)
    (rs : List Redir) :
    runRedirs buf file rs.length (wrap cmd rs) table =
      (rs.reverse.foldlM (redirOpen buf file) table).map (cmd, ·) := by
  induction rs using List.reverseRecOn generalizing table with
  | nil => rfl
  | append_singleton rs r ih =>
    rw [List.length_append, List.reverse_append]
    unfold wrap
    rw [List.foldl_append]
    change (redirOpen buf file table r).bind (runRedirs buf file rs.length (wrap cmd rs)) = _
    change _ = ((redirOpen buf file table r).bind _).map _
    cases redirOpen buf file table r with
    | none => rfl
    | some table' => exact ih table'

/-
  Both orders give the same table if and only if the first
  and the last redirection of a descriptor open the same.
-/
theorem override_reverse_eq_iff :
    override buf file table rs.reverse = override buf file table rs ↔
      ∀ fd,
        (rs.find? (·.fd = fd)).map (Redir.handle buf file) =
          (rs.reverse.find? (·.fd = fd)).map (Redir.handle buf file) := by
  unfold override
  rw [List.reverse_reverse, funext_iff]
  refine forall_congr' fun fd => ?_
  have hNone : rs.find? (·.fd = fd) = none ↔ rs.reverse.find? (·.fd = fd) = none := by
    simp only [List.find?_eq_none, List.mem_reverse]
  cases hFirst : rs.find? (·.fd = fd) with
  | none => rw [hNone.mp hFirst, eq_self, eq_self]
  | some r =>
    cases hLast : rs.reverse.find? (·.fd = fd) with
    | none =>
      rw [hNone.mpr hLast] at hFirst
      cases hFirst
    | some r' => rfl

---- The Order On The Line

theorem Redirs.fd_le {ts : List Token} (h : Redirs ts rs) : ∀ r ∈ rs, r.fd ≤ 1 := by
  induction h with
  | nil => exact nofun
  | cons hTok hFile hRest ih =>
    intro r hr
    rcases List.mem_append.mp hr with hr | hr
    · rcases hTok with h | h | h <;> rw [h] at hr <;>
        cases List.mem_singleton.mp hr
      · exact Nat.zero_le 1
      · exact Nat.le_refl 1
      · exact Nat.le_refl 1
    · exact ih r hr

theorem Words.fd_le {ts : List Token} {argv : List (Nat × Nat)} (h : Words ts argv rs) :
    ∀ r ∈ rs, r.fd ≤ 1 := by
  induction h with
  | nil => exact nofun
  | cons hTok hRedirs hRest ih =>
    intro r hr
    rcases List.mem_append.mp hr with hr | hr
    · exact hRedirs.fd_le r hr
    · exact ih r hr

end

/-
  A block or a simple command without its redirections, and
  the redirections as they stand on the line.
-/
inductive Redirected : List Token → Cmd → List Redir → Prop where
  | block {ts us : List Token}
      {t t' : Token} {cmd : Cmd} {rs : List Redir} (hTok : t.tok = .lparen)
      (hLine : Derives .line ts cmd) (hTok' : t'.tok = .rparen) (hRedirs : Redirs us rs) :
      Redirected (t :: ts ++ t' :: us) cmd rs
  | exec {us ts : List Token}
      {argv : List (Nat × Nat)} {rs rs' : List Redir} (hRedirs : Redirs us rs)
      (hWords : Words ts argv rs') (hArgs : argv.length ≤ MAXARGS - 1) :
      Redirected (us ++ ts) (.exec argv) (rs ++ rs')

theorem Redirected.fd_le {ts : List Token} {cmd : Cmd} {rs : List Redir} (h : Redirected ts cmd rs) :
    ∀ r ∈ rs, r.fd ≤ 1 := by
  cases h with
  | block _ _ _ hRedirs => exact hRedirs.fd_le
  | exec hRedirs hWords _ =>
    intro r hr
    rcases List.mem_append.mp hr with hr | hr
    · exact hRedirs.fd_le r hr
    · exact hWords.fd_le r hr

theorem Redirected.derives {ts : List Token} {cmd : Cmd} {rs : List Redir}
    (h : Redirected ts cmd rs) : Derives .exec ts (wrap cmd rs) := by
  cases h with
  | block hTok hLine hTok' hRedirs => exact .block hTok hLine hTok' hRedirs
  | exec hRedirs hWords hArgs => exact .exec hRedirs hWords hArgs

/-
  Performing the redirections from left to right succeeds,
  and the last one of a descriptor wins. The parsed command
  runs with that table if and only if the first redirection
  of every descriptor opens the file that the last one
  opens, with the same access.
-/
theorem redirections_in_order_iff
    {F : Type}
    (buf : List UInt8)
    (file : List UInt8 → F)
    (ts : List Token)
    (cmd : Cmd)
    (rs : List Redir)
    (table : Table F)
    (hPhrase : Redirected ts cmd rs)
    (hStd : table.Std) :
    Derives .exec ts (wrap cmd rs) ∧
      rs.foldlM (redirOpen buf file) table = some (override buf file table rs) ∧
      (runRedirs buf file rs.length (wrap cmd rs) table =
          (rs.foldlM (redirOpen buf file) table).map (cmd, ·) ↔
        ∀ fd,
          (rs.find? (·.fd = fd)).map (Redir.handle buf file) =
            (rs.reverse.find? (·.fd = fd)).map (Redir.handle buf file)) := by
  have hInOrder := @foldlM_redirOpen F buf file table rs hStd hPhrase.fd_le
  have hReversed := @foldlM_redirOpen F buf file table rs.reverse hStd
    (fun r hr => hPhrase.fd_le r (List.mem_reverse.mp hr))
  refine ⟨hPhrase.derives, hInOrder, ?_⟩
  rw [runRedirs_wrap, hInOrder, hReversed, ← @override_reverse_eq_iff F buf file table]
  refine ⟨fun h => ?_, fun h => by rw [h]⟩
  exact congrArg Prod.snd (Option.some.inj h)

/- The table before a command, where a file is its name. -/
def Table.initial : Table (List UInt8) := fun fd => some (.given fd)

/- The redirections of "cat<a>b>b". -/
def catRedirs : List Redir :=
  [⟨4, 5, 0, 0⟩, ⟨6, 7, 0x601, 1⟩, ⟨8, 9, 0x601, 1⟩]

/- That line after `parsecmd`. -/
def catLine : List UInt8 := [99, 97, 116, 0, 97, 0, 98, 0, 98, 0]

theorem redirections_in_order_cat :
    runRedirs catLine id 3 (wrap (.exec [(0, 3)]) catRedirs) Table.initial =
      (catRedirs.foldlM (redirOpen catLine id) Table.initial).map (.exec [(0, 3)], ·) := by
  have hRedirs : Redirs
      [⟨.lt, 3, 4⟩, ⟨.word, 4, 5⟩, ⟨.gt, 5, 6⟩, ⟨.word, 6, 7⟩, ⟨.gt, 7, 8⟩, ⟨.word, 8, 9⟩]
      catRedirs :=
    .cons (Or.inl rfl) rfl
      (.cons (Or.inr (Or.inl rfl)) rfl (.cons (Or.inr (Or.inl rfl)) rfl .nil))
  have hPhrase := Redirected.exec .nil (.cons (t := ⟨.word, 0, 3⟩) rfl hRedirs .nil) (by decide)
  refine (redirections_in_order_iff catLine id _ _ _ _ hPhrase (fun _ _ => rfl)).2.2.mpr ?_
  intro fd
  match fd with
  | 0 => rfl
  | 1 => rfl
  | _ + 2 => rfl

/- The redirections of "echo>a>b". -/
def echoRedirs : List Redir := [⟨5, 6, 0x601, 1⟩, ⟨7, 8, 0x601, 1⟩]

/- The output of that line goes to "a". -/
theorem first_redirection_wins :
    ∃ buf,
      parsecmd 64 [101, 99, 104, 111, 62, 97, 62, 98, 0] =
        .ok (wrap (.exec [(0, 4)]) echoRedirs, buf) ∧
      (runRedirs buf id 2 (wrap (.exec [(0, 4)]) echoRedirs) Table.initial).map
          (fun r => r.2 1) =
        some (some (.opened [97] false true)) ∧
      (echoRedirs.foldlM (redirOpen buf id) Table.initial).map (fun t => t 1) =
        some (some (.opened [98] false true)) :=
  ⟨_, rfl, by decide +kernel, by decide +kernel⟩

end Xv6.User.Sh

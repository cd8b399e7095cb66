import Mathlib.Algebra.GroupWithZero.Nat
import Mathlib.Logic.Function.Basic
import Mathlib.Tactic.Common

/-
  Console input (`console.c`).

  The interrupt handler and the readers run under
  `cons.lock`, so a call of `consoleintr` is one step, and
  so is what a call of `consoleread` does until it sleeps or
  returns. A reader asleep on `cons.r` may run again at any
  time, since it looks at the indices itself. The echo of
  typed characters and the process list of control-p leave
  the input alone.

  The history is not in the source: the characters committed
  so far, how many of them were consumed, the bytes copied
  to readers, and the calls that have returned.

  Key definitions include:
    * `Cons`
    * `consoleintr`
    * `consoleread`
-/

namespace Xv6.Console

open Function (update)

---- The Input Buffer

def INPUT_BUF_SIZE : UInt32 := 128

/- `C('D')`, `C('H')`, `C('P')` and `C('U')`. -/
def CTRL_D : UInt8 := 4
def CTRL_H : UInt8 := 8
def CTRL_P : UInt8 := 16
def CTRL_U : UInt8 := 21
def DELETE : UInt8 := 127
def NEWLINE : UInt8 := 10
def RETURN : UInt8 := 13

/- The ring with its read, write and edit indices. -/
structure Cons where
  buf : Nat → UInt8
  r : UInt32
  w : UInt32
  e : UInt32

/- The cell of an index. -/
def cell (i : UInt32) : Nat := (i % INPUT_BUF_SIZE).toNat

---- State

/-
  A call of `consoleread` that has not returned: its
  argument, what is left of it, and the bytes copied so far,
  each with its place among the committed characters.
-/
structure Read where
  target : Nat
  n : Nat
  got : List (Nat × UInt8)

/- A call that has returned, and its result. -/
structure Done where
  proc : Nat
  got : List (Nat × UInt8)
  result : Int
deriving DecidableEq

structure State where
  cons : Cons
  reads : Nat → Option Read
  committed : List UInt8
  taken : Nat
  delivered : List UInt8
  finished : List Done

---- The Interrupt Handler

/- Kill the line: at most the characters since `w`. -/
def killLine : Nat → Cons → Cons
  | 0, cons => cons
  | fuel + 1, cons =>
    if cons.e ≠ cons.w ∧ cons.buf (cell (cons.e - 1)) ≠ NEWLINE then
      killLine fuel { cons with e := cons.e - 1 }
    else
      cons

/- The characters between the write and the edit index. -/
def Cons.line (cons : Cons) : List UInt8 :=
  (List.range (cons.e - cons.w).toNat).map (fun i => cons.buf (cell (cons.w + UInt32.ofNat i)))

/- `cons.w = cons.e`. -/
def State.commit (s : State) : State :=
  { s with
    cons := { s.cons with w := s.cons.e }
    committed := s.committed ++ s.cons.line }

/- `cons.buf[cons.e++ % INPUT_BUF_SIZE] = c`. -/
def Cons.store (cons : Cons) (c : UInt8) : Cons :=
  { cons with
    buf := update cons.buf (cell cons.e) c
    e := cons.e + 1 }

def consoleintr (c : UInt8) (s : State) : State :=
  if c = CTRL_P then
    s
  else if c = CTRL_U then
    { s with
      cons := killLine (s.cons.e - s.cons.w).toNat s.cons }
  else if c = CTRL_H ∨ c = DELETE then
    if s.cons.e ≠ s.cons.w then { s with cons := { s.cons with e := s.cons.e - 1 } } else s
  else if c ≠ 0 ∧ s.cons.e - s.cons.r < INPUT_BUF_SIZE then
    let c := if c = RETURN then NEWLINE else c
    let s := { s with cons := s.cons.store c }
    if c = NEWLINE ∨ c = CTRL_D ∨ s.cons.e - s.cons.r = INPUT_BUF_SIZE then s.commit else s
  else
    s

---- Readers

/- How a reader leaves the lock, with what is left of `n`. -/
inductive Outcome where
  | sleep (n : Nat) (got : List (Nat × UInt8))
  | done (n : Nat) (got : List (Nat × UInt8))

/- `cons.r++` and `cons.r--`. -/
def State.advance (s : State) : State :=
  { s with
    cons := { s.cons with r := s.cons.r + 1 }
    taken := s.taken + 1 }

def State.back (s : State) : State :=
  { s with
    cons := { s.cons with r := s.cons.r - 1 }
    taken := s.taken - 1 }

/- The byte goes to the reader's buffer. -/
def State.deliver (s : State) (c : UInt8) : State := { s with delivered := s.delivered ++ [c] }

/- The loop of `consoleread` while characters are there. -/
def readLoop (target : Nat) : Nat → List (Nat × UInt8) → State → Outcome × State
  | 0, got, s => (.done 0 got, s)
  | n + 1, got, s =>
    if s.cons.r = s.cons.w then
      (.sleep (n + 1) got, s)
    else
      let c := s.cons.buf (cell s.cons.r)
      let place := s.taken
      let s := s.advance
      if c = CTRL_D then
        if n + 1 < target then (.done (n + 1) got, s.back) else (.done (n + 1) got, s)
      else
        let s := s.deliver c
        if c = NEWLINE then
          (.done n (got ++ [(place, c)]), s)
        else
          readLoop target n (got ++ [(place, c)]) s

def State.finish (s : State) (p : Nat) (got : List (Nat × UInt8)) (result : Int) : State :=
  { s with
    reads := update s.reads p none
    finished := s.finished ++ [⟨p, got, result⟩] }

/-
  `consoleread` from where it holds the lock. A reader with
  nothing to read looks whether it was killed before it
  sleeps.
-/
def consoleread (p : Nat) (killed : Bool) (rd : Read) (s : State) : State :=
  match readLoop rd.target rd.n rd.got s with
  | (.done n got, s) => s.finish p got (rd.target - n)
  | (.sleep n got, s) =>
    if killed = true then
      s.finish p got (-1)
    else
      { s with reads := update s.reads p (some ⟨rd.target, n, got⟩) }

---- Runs

/-
  A typed character, a call of `read` with a positive `int`
  as its length, or a sleeping reader that runs again.
-/
inductive Event where
  | intr (c : UInt8)
  | read (p n : Nat) (killed : Bool)
  | resume (p : Nat) (killed : Bool)

def step (s : State) : Event → Option State
  | .intr c => some (consoleintr c s)
  | .read p n killed =>
    if (s.reads p).isNone ∧ 0 < n ∧ n < 2 ^ 31 then
      some (consoleread p killed ⟨n, n, []⟩ s)
    else
      none
  | .resume p killed => (s.reads p).map (fun rd => consoleread p killed rd s)

def run : State → List Event → Option State
  | s, [] => some s
  | s, ev :: evs =>
    match step s ev with
    | none => none
    | some s' => run s' evs

/- The console after `consoleinit`. -/
def boot : State where
  cons := ⟨fun _ => 0, 0, 0, 0⟩
  reads := fun _ => none
  committed := []
  taken := 0
  delivered := []
  finished := []

end Xv6.Console

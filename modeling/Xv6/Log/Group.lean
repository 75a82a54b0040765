import Xv6.Log.Commit
import Xv6.Machinery.Runs
import Mathlib.Data.Fintype.Card

/-!
# Log/Group — many processes share one transaction

`begin_op`, `log_write` and `end_op` as they interleave.  A process is a program point; between two
points it holds `log.lock`, or touches nothing shared.  `commit` runs without the lock: its reading
of `log.lh` and its clearing of `log.lh.n` are steps.  `hist` and `Thread.used` are ghosts.
-/

namespace Xv6

open Machinery Function

/-- Where a process is in the code of the log. -/
inductive Pc
  | outside
  | beginTest
  | asleep
  | woken
  | beginRelease
  | inside
  | writeBody (b : ℕ)
  | writeRelease
  | endBody
  | endRelease (doCommit : Bool)
  | commit
  | commitClear
  | commitDone
  | doneBody
  | doneRelease
  | panicked (e : LogPanic)
  deriving DecidableEq, Repr

namespace Pc

/-- The points at which a process holds `log.lock`; a panicking process never lets it go. -/
def holds : Pc → Bool
  | beginTest | beginRelease | writeBody _ | writeRelease | endBody | endRelease _ | doneBody
  | doneRelease | panicked _ => true
  | _ => false

/-- The points between the `log.outstanding += 1` of `begin_op` and the `log.outstanding -= 1` of
`end_op`. -/
def inOp : Pc → Bool
  | beginRelease | inside | writeBody _ | writeRelease | endBody => true
  | panicked e => e ≠ .committing
  | _ => false

/-- The points between `log.committing = 1` and `log.committing = 0`. -/
def commits : Pc → Bool
  | endRelease true | commit | commitClear | commitDone | doneBody => true
  | _ => false

/-- The points inside `commit()`. -/
def inCommit : Pc → Bool
  | commit | commitClear => true
  | _ => false

end Pc

/-- What an observer of the log sees happen. -/
inductive Event (ι : Type)
  | began (p : ι)
  | wrote (p : ι) (b : ℕ)
  | ended (p : ι)
  | committed (bs : List ℕ)
  deriving DecidableEq, Repr

/-- A process: its program point and the distinct blocks its current operation has logged. -/
structure Thread where
  pc : Pc
  used : Finset ℕ

/-- `struct log` with the processes that use it. -/
structure Group (ι : Type) where
  lock : Option ι
  outstanding : ℤ
  committing : Bool
  lh : List ℕ
  thread : ι → Thread
  hist : List (Event ι)

/-- A process calls one of the three functions, goes on, or is woken from `sleep` by `kill`. -/
inductive Act
  | beginOp
  | logWrite (b : ℕ)
  | endOp
  | continue
  | killed
  deriving DecidableEq, Repr

namespace Group

variable {ι : Type} [DecidableEq ι]

/-- The log after `initlog`: nobody uses it. -/
def start : Group ι := ⟨none, 0, false, [], fun _ => ⟨.outside, ∅⟩, []⟩

/-- Process `p` moves to the point `c`. -/
def goto (s : Group ι) (p : ι) (c : Pc) : Group ι :=
  { s with thread := update s.thread p { s.thread p with pc := c } }

/-- `acquire(&log.lock)`, which spins while the lock is held, then on to `c`. -/
def acquire (s : Group ι) (p : ι) (c : Pc) : Option (Group ι) :=
  if s.lock = none then some { s.goto p c with lock := some p } else none

/-- `release(&log.lock)`, then on to `c`. -/
def release (s : Group ι) (p : ι) (c : Pc) : Group ι := { s.goto p c with lock := none }

/-- `wakeup(&log)`. -/
def wakeup (s : Group ι) : Group ι :=
  { s with thread := fun q =>
      if (s.thread q).pc = .asleep then { s.thread q with pc := .woken } else s.thread q }

def record (s : Group ι) (e : Event ι) : Group ι := { s with hist := s.hist ++ [e] }

/-- One turn of the loop of `begin_op`, with the lock held. -/
def beginBody (s : Group ι) (p : ι) : Group ι :=
  if s.committing then s.release p .asleep
  else if (s.lh.length : ℤ) + (s.outstanding + 1) * MAXOPBLOCKS > LOGSIZE then s.release p .asleep
  else { s.record (.began p) with
    outstanding := s.outstanding + 1
    thread := update s.thread p ⟨.beginRelease, ∅⟩ }

/-- `log_write` with the lock held. -/
def writeBody (size : ℕ) (s : Group ι) (p : ι) (b : ℕ) : Group ι :=
  if LOGSIZE ≤ s.lh.length ∨ (size : ℤ) - 1 ≤ s.lh.length then s.goto p (.panicked .tooBig)
  else if s.outstanding < 1 then s.goto p (.panicked .outsideOfTrans)
  else { s.record (.wrote p b) with
    lh := if b ∈ s.lh then s.lh else s.lh ++ [b]
    thread := update s.thread p ⟨.writeRelease, insert b (s.thread p).used⟩ }

/-- `log.outstanding -= 1` at the start of `end_op`. -/
def decrement (s : Group ι) (p : ι) : Group ι :=
  { s.record (.ended p) with outstanding := s.outstanding - 1 }

/-- `end_op` with the lock held. -/
def endBody (s : Group ι) (p : ι) : Group ι :=
  if s.committing then (s.decrement p).goto p (.panicked .committing)
  else if s.outstanding - 1 = 0 then
    { (s.decrement p).goto p (.endRelease true) with committing := true }
  else (s.decrement p).wakeup.goto p (.endRelease false)

/-- One step of process `p`, in a log of `size` blocks. -/
def next (size : ℕ) (s : Group ι) (p : ι) : Act → Option (Group ι)
  | .beginOp => if (s.thread p).pc = .outside then s.acquire p .beginTest else none
  | .logWrite b => if (s.thread p).pc = .inside then s.acquire p (.writeBody b) else none
  | .endOp => if (s.thread p).pc = .inside then s.acquire p .endBody else none
  | .killed => if (s.thread p).pc = .asleep then some (s.goto p .woken) else none
  | .continue =>
    match (s.thread p).pc with
    | .beginTest => some (s.beginBody p)
    | .woken => s.acquire p .beginTest
    | .beginRelease => some (s.release p .inside)
    | .writeBody b => some (s.writeBody size p b)
    | .writeRelease => some (s.release p .inside)
    | .endBody => some (s.endBody p)
    | .endRelease true => some (s.release p .commit)
    | .endRelease false => some (s.release p .outside)
    | .commit => some ((s.record (.committed s.lh)).goto p .commitClear)
    | .commitClear => some { s.goto p .commitDone with lh := [] }
    | .commitDone => s.acquire p .doneBody
    | .doneBody => some ({ s with committing := false }.wakeup.goto p .doneRelease)
    | .doneRelease => some (s.release p .outside)
    | .outside | .asleep | .inside | .panicked _ => none

/-- The processes `ι` on a log of `size` blocks, in any interleaving. -/
def system (ι : Type) [DecidableEq ι] (size : ℕ) : System (Group ι) (ι × Act) :=
  .ofNext (· = start) fun s l => s.next size l.1 l.2

def after (size : ℕ) (ls : List (ι × Act)) : Option (Group ι) :=
  System.execute (fun s l => s.next size l.1 l.2) start ls

theorem reachable_after {size : ℕ} {ls : List (ι × Act)} {s : Group ι} (h : after size ls = some s) :
    (system ι size).Reachable s :=
  System.Reachable.run (System.Run.of_execute h) (.init rfl)

end Group

end Xv6

import Xv6.Sched.Table
import Xv6.Machinery.Runs

/-!
# Sched/Family — `fork`, `exit` and `wait` around `wait_lock`

`n` entries of the process table, each a thread of control.  A step ends where a spinlock is
acquired or released; the loops of `reparent`, `wakeup` and `wait` are walked entry by entry.
`wait` never frees what it finds, so a `ZOMBIE` stays one.  `rel` tells whether `scheduler` releases
the lock of a process that was switched out.
-/

namespace Xv6

open Machinery Function Relation Option

/-- Where a process is. -/
inductive FamilyPc (n : ℕ)
  /-- Nowhere: the entry is free, or `fork` has not yet made it runnable. -/
  | none
  /-- Runnable for the first time; its context is at `forkret`. -/
  | born
  /-- In `forkret`, with `p->lock` held. -/
  | forkret
  /-- Anywhere outside of the functions below, with no lock held. -/
  | running
  /-- In `fork`, with `np` allocated and `np->lock` held. -/
  | forkCopy (np : Fin n)
  /-- In `fork`, about to `acquire(&wait_lock)`. -/
  | forkUsed (np : Fin n)
  /-- In `fork`, with `np->parent` set, about to `acquire(&np->lock)`. -/
  | forkParent (np : Fin n)
  /-- In `reparent`, with these entries still to come. -/
  | reparent (rest : List (Fin n))
  /-- In the `wakeup(initproc)` of `reparent`. -/
  | reparentWakeup (scan rest : List (Fin n))
  /-- In the `wakeup(p->parent)` of `exit`. -/
  | parentWakeup (chan : Option (Fin n)) (scan : List (Fin n))
  /-- In `exit`, about to `acquire(&p->lock)`. -/
  | exitLock
  /-- A `ZOMBIE` about to `release(&wait_lock)`. -/
  | exitRelease
  /-- A `ZOMBIE` switched out for good. -/
  | dead
  /-- In the loop of `wait`. -/
  | waitScan (havekids : Bool) (rest : List (Fin n))
  /-- In `wait`, about to `release(&wait_lock)` and return. -/
  | waitReturn
  /-- In `wait`, about to `acquire(&p->lock)` in `sleep`. -/
  | sleepLock
  /-- Holds both locks, about to `release(&wait_lock)` in `sleep`. -/
  | sleepRelease
  /-- Holds `p->lock`, about to set `p->chan` and `p->state` and to call `sched`. -/
  | dozing
  /-- Switched out in the `sched` of `sleep`. -/
  | asleep
  /-- Back from `sched` with `p->lock` held, about to clear `p->chan`. -/
  | resumed
  /-- About to `acquire(&wait_lock)` at the end of `sleep`. -/
  | woken
  /-- `panic("init exiting")`. -/
  | panicked
  deriving DecidableEq, Repr

/-- Who holds the lock of an entry between two steps. -/
inductive EntryLock (n : ℕ)
  | free
  | proc (p : Fin n)
  /-- The CPU that the process was switched out on. -/
  | cpu
  deriving DecidableEq, Repr

/-- The process table and `wait_lock`. -/
structure Family (n : ℕ) where
  waitLock : Option (Fin n)
  pc : Fin n → FamilyPc n
  lock : Fin n → EntryLock n
  state : Fin n → ProcState
  parent : Fin n → Option (Fin n)
  chan : Fin n → Option (Fin n)
  killed : Fin n → Bool

/-- What a process does next, where it has a choice. -/
inductive FamilyOp (n : ℕ)
  /-- The next statement, up to the next lock operation. -/
  | go (p : Fin n)
  /-- `fork` finds the free entry `np`. -/
  | fork (p np : Fin n)
  /-- There is no memory for the child, in `allocproc` or `uvmcopy`. -/
  | forkFail (p : Fin n)
  | exit (p : Fin n)
  | wait (p : Fin n)
  /-- The scheduler releases the lock of the process it switched back from. -/
  | handOver (p : Fin n)
  /-- A scheduler acquires `p->lock` and switches to `p`. -/
  | dispatch (p : Fin n)
  /-- The iteration of `kill` that finds its process. -/
  | kill (p : Fin n)
  deriving DecidableEq, Repr

namespace Family

variable {n : ℕ} [NeZero n]

/-- `userinit` has made entry 0 the first process. -/
def boot : Family n where
  waitLock := none
  pc := update (fun _ => .none) 0 .born
  lock _ := .free
  state := update (fun _ => .unused) 0 .runnable
  parent _ := none
  chan _ := none
  killed _ := false

/-- The body of `wakeup(chan)` at entry `q`, under its lock. -/
def wakeupBody (s : Family n) (chan : Option (Fin n)) (q : Fin n) : Fin n → ProcState :=
  if s.state q = .sleeping ∧ s.chan q = chan then update s.state q .runnable else s.state

/-- An iteration of `wakeup(chan)` by `p` at entry `q`, after which `p` is at `pc`. -/
def wakeupStep (s : Family n) (p : Fin n) (chan : Option (Fin n)) (q : Fin n) (pc : FamilyPc n) :
    Option (Family n) :=
  if q = p then some { s with pc := update s.pc p pc }
  else if s.lock q = .free then
    some { s with state := s.wakeupBody chan q, pc := update s.pc p pc }
  else none

/-- An iteration of the loop in `wait` of `p`. -/
def waitStep (s : Family n) (p q : Fin n) (havekids : Bool) (rest : List (Fin n)) :
    Option (Family n) :=
  if s.parent q = some p then
    -- both results of `copyout` lead to the same place
    if s.lock q = .free then
      some { s with pc := update s.pc p (if s.state q = .zombie then .waitReturn else .waitScan true rest) }
    else none
  else some { s with pc := update s.pc p (.waitScan havekids rest) }

/-- The next statement of `p`. -/
def go (s : Family n) (p : Fin n) : Option (Family n) :=
  match s.pc p with
  | .none | .born | .running | .asleep | .dead | .panicked => none
  | .forkret => some { s with lock := update s.lock p .free, pc := update s.pc p .running }
  | .forkCopy np =>
    some { s with lock := update s.lock np .free, pc := update s.pc p (.forkUsed np) }
  | .forkUsed np =>
    if s.waitLock = none then
      some { s with parent := update s.parent np (some p), pc := update s.pc p (.forkParent np) }
    else none
  | .forkParent np =>
    if s.lock np = .free then
      some { s with
        state := update s.state np .runnable
        pc := update (update s.pc p .running) np .born }
    else none
  | .reparent (q :: rest) =>
    if s.parent q = some p then
      some { s with
        parent := update s.parent q (some 0)
        pc := update s.pc p (.reparentWakeup (List.finRange n) rest) }
    else some { s with pc := update s.pc p (.reparent rest) }
  | .reparentWakeup (q :: scan) rest =>
    s.wakeupStep p (some 0) q (.reparentWakeup scan rest)
  | .reparentWakeup [] rest => some { s with pc := update s.pc p (.reparent rest) }
  | .reparent [] =>
    some { s with pc := update s.pc p (.parentWakeup (s.parent p) (List.finRange n)) }
  | .parentWakeup chan (q :: scan) => s.wakeupStep p chan q (.parentWakeup chan scan)
  | .parentWakeup _ [] => some { s with pc := update s.pc p .exitLock }
  | .exitLock =>
    if s.lock p = .free then
      some { s with
        lock := update s.lock p (.proc p)
        state := update s.state p .zombie
        pc := update s.pc p .exitRelease }
    else none
  | .exitRelease =>
    some { s with waitLock := none, lock := update s.lock p .cpu, pc := update s.pc p .dead }
  | .waitScan havekids (q :: rest) => s.waitStep p q havekids rest
  | .waitScan false [] => some { s with pc := update s.pc p .waitReturn }
  | .waitScan true [] =>
    -- `killed(p)` takes `p->lock`
    if s.lock p = .free then
      some { s with pc := update s.pc p (if s.killed p then .waitReturn else .sleepLock) }
    else none
  | .waitReturn => some { s with waitLock := none, pc := update s.pc p .running }
  | .sleepLock =>
    if s.lock p = .free then
      some { s with lock := update s.lock p (.proc p), pc := update s.pc p .sleepRelease }
    else none
  | .sleepRelease => some { s with waitLock := none, pc := update s.pc p .dozing }
  | .dozing =>
    some { s with
      chan := update s.chan p (some p)
      state := update s.state p .sleeping
      lock := update s.lock p .cpu
      pc := update s.pc p .asleep }
  | .resumed =>
    some { s with
      chan := update s.chan p none
      lock := update s.lock p .free
      pc := update s.pc p .woken }
  | .woken =>
    if s.waitLock = none then
      some { s with waitLock := some p, pc := update s.pc p (.waitScan false (List.finRange n)) }
    else none

/-- One step; `rel` tells whether schedulers release the lock of a process that was switched out. -/
def next (rel : Bool) (s : Family n) : FamilyOp n → Option (Family n)
  | .go p => s.go p
  | .fork p np =>
    if s.pc p = .running ∧ s.lock np = .free ∧ s.state np = .unused then
      some { s with
        lock := update s.lock np (.proc p)
        state := update s.state np .used
        pc := update s.pc p (.forkCopy np) }
    else none
  | .forkFail p =>
    match s.pc p with
    | .forkCopy np =>
      -- `freeproc(np)`
      some { s with
        lock := update s.lock np .free
        state := update s.state np .unused
        parent := update s.parent np none
        chan := update s.chan np none
        killed := update s.killed np false
        pc := update s.pc p .running }
    | _ => none
  | .exit p =>
    if s.pc p = .running then
      if p = 0 then some { s with pc := update s.pc p .panicked }
      else if s.waitLock = none then
        some { s with waitLock := some p, pc := update s.pc p (.reparent (List.finRange n)) }
      else none
    else none
  | .wait p =>
    if s.pc p = .running ∧ s.waitLock = none then
      some { s with waitLock := some p, pc := update s.pc p (.waitScan false (List.finRange n)) }
    else none
  | .handOver p =>
    if rel = true ∧ s.lock p = .cpu then some { s with lock := update s.lock p .free } else none
  | .dispatch p =>
    -- `scheduler` does not look at `p->state` again once it has the lock
    if s.lock p = .free then
      match s.pc p with
      | .born => some { s with lock := update s.lock p (.proc p), pc := update s.pc p .forkret }
      | .asleep => some { s with lock := update s.lock p (.proc p), pc := update s.pc p .resumed }
      | _ => none
    else none
  | .kill p =>
    if s.lock p = .free then
      some { s with
        killed := update s.killed p true
        state := if s.state p = .sleeping then update s.state p .runnable else s.state }
    else none

/-- Any processes that fork, exit, wait and are killed, in any interleaving. -/
def system (n : ℕ) [NeZero n] (rel : Bool) : System (Family n) (FamilyOp n) :=
  .ofNext (· = boot) (next rel)

end Family

end Xv6

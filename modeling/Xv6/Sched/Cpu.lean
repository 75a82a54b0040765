import Xv6.Sched.Table
import Xv6.Machinery.Runs

/-!
# Sched/Cpu — CPUs that share the process table

Every CPU runs `scheduler`, or the process its scheduler switched to.  Each iteration of the scan is
a step, a section between `acquire(&p->lock)` and its `release` (or `sched`) is one, and in
`scheduler` every statement. After its scan `p == &proc[NPROC]`: the store `p->state = RUNNING` goes
to `past`, and a step `release ok` takes it as it comes whether the release there finds a lock that
this CPU holds.
-/

namespace Xv6

open Machinery Function

/-- Where a CPU is. -/
inductive CpuPc
  /-- In the scan, about to look at `proc[j]`. -/
  | scan (j : ℕ) (minAcc : ℤ) (toRun : Option Slot)
  /-- About to `acquire(&toRun->lock)`. -/
  | chosen (t : Slot)
  /-- About to store `p->state = RUNNING`. -/
  | store (t : Slot)
  /-- About to set `c->proc = toRun`. -/
  | setProc (t : Slot)
  /-- About to `swtch(&c->context, &toRun->context)`. -/
  | swtch (t : Slot)
  /-- In process `t`, about to release the lock its scheduler acquired. -/
  | resumed (t : Slot)
  /-- In process `t`, outside of the sections below. -/
  | running (t : Slot)
  /-- In `fork` of process `t`, with the child `np` allocated but not yet runnable. -/
  | forking (t np : Slot)
  /-- Back in the scheduler, about to set `c->proc = 0`. -/
  | switched (t : Slot)
  /-- About to `release(&p->lock)`. -/
  | releasing
  | panicked
  deriving DecidableEq, Repr

/-- `struct cpu`; `found` is a ghost, the state of the process when its lock was acquired. -/
structure Cpu where
  pc : CpuPc
  proc : Option Slot
  found : ProcState
  deriving DecidableEq, Repr

/-- The CPUs `κ` and what they share. -/
structure Machine (κ : Type) where
  table : SchedTable
  lock : Slot → Option κ
  cpu : κ → Cpu
  past : ProcState
  nextpid : ℤ

/-- What a CPU does next. -/
inductive CpuOp
  /-- The next statement of `scheduler`, or of the process it switched to. -/
  | go
  /-- `release(&p->lock)` behind the table, which passes or panics. -/
  | release (ok : Bool)
  | yield
  | sleep (chan : ℕ)
  | exit
  /-- An iteration of the loop of `wakeup(chan)`, also from an interrupt. -/
  | wakeup (chan : ℕ) (i : Slot)
  /-- An iteration of the loop of `kill(pid)`. -/
  | kill (pid : ℤ) (i : Slot)
  /-- `wait`, `killed` or `allocproc` locks an entry and leaves it as it is. -/
  | touch (i : Slot)
  /-- `fork` takes an unused entry; `mem` tells whether there is memory for the child. -/
  | alloc (i : Slot) (mem : Bool)
  /-- `fork` makes the child runnable. -/
  | start
  deriving DecidableEq, Repr

namespace Machine

variable {κ : Type} [DecidableEq κ]

def scanStart : CpuPc := .scan 0 INT_MAX none

/-- Every CPU enters `scheduler`. -/
def boot : Machine κ :=
  ⟨bootTable, fun _ => none, fun _ => ⟨scanStart, none, .unused⟩, .unused, 2⟩

/-- CPU `c` moves to `pc`. -/
def goto (s : Machine κ) (c : κ) (pc : CpuPc) : Machine κ :=
  { s with cpu := update s.cpu c { s.cpu c with pc := pc } }

/-- Entry `i` becomes `p`. -/
def put (s : Machine κ) (i : Slot) (p : SchedProc) : Machine κ :=
  { s with table := update s.table i p }

/-- `acquire(&proc[i].lock)`, then `k`: spins while another CPU holds it, panics if this one does. -/
def acquire (s : Machine κ) (c : κ) (i : Slot) (k : Machine κ → Machine κ) : Option (Machine κ) :=
  match s.lock i with
  | none => some (k { s with lock := update s.lock i (some c) })
  | some d => if d = c then some (s.goto c .panicked) else none

/-- `release(&proc[i].lock)` by its holder. -/
def release (s : Machine κ) (i : Slot) : Machine κ := { s with lock := update s.lock i none }

/-- The body of `wakeup(chan)` at entry `i`. -/
def wakeupBody (s : Machine κ) (chan : ℕ) (i : Slot) : Machine κ :=
  if (s.table i).state = .sleeping ∧ (s.table i).chan = chan then
    let s := s.put i { s.table i with state := .runnable }
    { s with table := setAccumulator s.table i }
  else s

/-- The body of `kill(pid)` at entry `i`. -/
def killBody (s : Machine κ) (pid : ℤ) (i : Slot) : Machine κ :=
  let p := s.table i
  if p.pid = pid then
    if p.state = .sleeping then s.put i { p with killed := true, state := .runnable }.addPriority
    else s.put i { p with killed := true }
  else s

/-- `fork` of `t` at entry `i`: `allocproc`, and `freeproc` again if there is no memory. -/
def allocBody (s : Machine κ) (c : κ) (t i : Slot) (mem : Bool) : Machine κ :=
  if (s.table i).state = .unused then
    let pid := s.nextpid
    -- `nextpid` is an `int`
    let s := { s with nextpid := (pid + 1).bmod (2 ^ 32) }
    if mem then (s.put i { s.table i with state := .used, pid := pid }).goto c (.forking t i)
    else s.put i freedProc
  else s

/-- The end of `fork`: `np->ps_priority = 5`, `set_accumulator(np)`, `np->state = RUNNABLE`. -/
def startBody (s : Machine κ) (np : Slot) : Machine κ :=
  let s := s.put np { s.table np with psPriority := 5 }
  let tb := setAccumulator s.table np
  { s with table := update tb np { tb np with state := .runnable } }

/-- The next statement of `scheduler`, or of the process it switched to. -/
def go (s : Machine κ) (c : κ) : Option (Machine κ) :=
  match (s.cpu c).pc with
  | .scan j minAcc toRun =>
    if h : j < NPROC then
      let r := scanStep (s.table ⟨j, h⟩) ⟨j, h⟩ minAcc toRun
      some (s.goto c (.scan (j + 1) r.1 r.2))
    else
      match toRun with
      | none => some (s.goto c scanStart)
      | some t => some (s.goto c (.chosen t))
  | .chosen t => s.acquire c t fun u =>
      { u with cpu := update u.cpu c ⟨.store t, (u.cpu c).proc, (u.table t).state⟩ }
  | .store t => some { s.goto c (.setProc t) with past := .running }
  | .setProc t => some { s with cpu := update s.cpu c ⟨.swtch t, some t, (s.cpu c).found⟩ }
  | .swtch t => some (s.goto c (.resumed t))
  | .resumed t =>
    -- `sleep` clears `p->chan` here; in `yield` and `forkret` it is 0 already
    if s.lock t = some c then
      some (((s.put t { s.table t with chan := 0 }).release t).goto c (.running t))
    else some (s.goto c .panicked)
  | .switched _ => some { s with cpu := update s.cpu c ⟨.releasing, none, (s.cpu c).found⟩ }
  | .running _ | .forking _ _ | .releasing | .panicked => none

/-- A process with interrupts on, or the scheduler before it takes a lock. -/
def interruptible : CpuPc → Bool
  | .scan _ _ _ | .chosen _ | .running _ | .forking _ _ => true
  | _ => false

/-- Process `t`, on CPU `c`, calls a function of `proc.c`. -/
def call (s : Machine κ) (c : κ) (t : Slot) : CpuOp → Option (Machine κ)
  | .yield => s.acquire c t fun u =>
      (u.put t { u.table t with state := .runnable }.addPriority).goto c (.switched t)
  | .sleep chan => s.acquire c t fun u =>
      (u.put t { u.table t with chan := chan, state := .sleeping }).goto c (.switched t)
  | .exit =>
    if t = initproc then some (s.goto c .panicked)
    else s.acquire c t fun u => (u.put t { u.table t with state := .zombie }).goto c (.switched t)
  | .kill pid i => s.acquire c i fun u => (u.killBody pid i).release i
  | .touch i => s.acquire c i fun u => u.release i
  | .alloc i mem => s.acquire c i fun u => (u.allocBody c t i mem).release i
  | .go | .release _ | .wakeup _ _ | .start => none

/-- One step of CPU `c`. -/
def next (s : Machine κ) (c : κ) (op : CpuOp) : Option (Machine κ) :=
  match op with
  | .go => s.go c
  | .release ok =>
    if (s.cpu c).pc = .releasing then some (s.goto c (if ok then scanStart else .panicked)) else none
  | .wakeup chan i =>
    if interruptible (s.cpu c).pc ∧ (s.cpu c).proc ≠ some i then
      s.acquire c i fun u => (u.wakeupBody chan i).release i
    else none
  | op =>
    match (s.cpu c).pc with
    | .running t => s.call c t op
    | .forking t np =>
      if op = .start then s.acquire c np fun u => ((u.startBody np).release np).goto c (.running t)
      else none
    | _ => none

/-- The CPUs `κ`, in any interleaving. -/
def system (κ : Type) [DecidableEq κ] : System (Machine κ) (κ × CpuOp) :=
  .ofNext (· = boot) fun s l => s.next l.1 l.2

end Machine

end Xv6

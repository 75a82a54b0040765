import Xv6.Param

/-!
# Sched/Table — the process table as the scheduler sees it

The fields of `struct proc` that `kernel/proc.c` reads and writes to schedule, the scan that picks
the process with the smallest accumulator, and `set_accumulator`.
-/

namespace Xv6

open Function

/-- `enum procstate`. -/
inductive ProcState
  | unused
  | used
  | sleeping
  | runnable
  | running
  | zombie
  deriving DecidableEq, Repr

/-- An entry of `proc[NPROC]`. -/
abbrev Slot := Fin NPROC

/-- The scheduling part of `struct proc`. -/
structure SchedProc where
  state : ProcState
  chan : ℕ
  killed : Bool
  pid : ℤ
  accumulator : ℤ
  psPriority : ℤ
  deriving DecidableEq, Repr

abbrev SchedTable := Slot → SchedProc

def INT_MAX : ℤ := 2 ^ 31 - 1

namespace SchedProc

/-- `(p->state == RUNNABLE) | (p->state == RUNNING)`. -/
def candidate (p : SchedProc) : Bool := p.state = .runnable || p.state = .running

/-- `p->accumulator += p->ps_priority`, on `long long`. -/
def addPriority (p : SchedProc) : SchedProc :=
  { p with accumulator := (p.accumulator + p.psPriority).bmod (2 ^ 64) }

end SchedProc

/-- One iteration of the scan in `scheduler`: `minAcc` is an `int`. -/
def scanStep (p : SchedProc) (j : Slot) (minAcc : ℤ) (toRun : Option Slot) : ℤ × Option Slot :=
  if p.candidate ∧ p.accumulator < minAcc then (p.accumulator.bmod (2 ^ 32), some j)
  else (minAcc, toRun)

/-- The loop of `set_accumulator(np)` over `js`; at `np` it compares the new accumulator with
itself. -/
def minAccumulator (tb : SchedTable) (np : Slot) (acc : ℤ) : List Slot → ℤ
  | [] => acc
  | j :: js =>
    let old := if j = np then acc else (tb j).accumulator
    minAccumulator tb np (if (tb j).candidate ∧ old < acc then old else acc) js

/-- `set_accumulator(np)`. -/
def setAccumulator (tb : SchedTable) (np : Slot) : SchedTable :=
  let acc := minAccumulator tb np INT_MAX (List.finRange NPROC)
  update tb np { tb np with accumulator := if acc = INT_MAX then 0 else acc }

theorem setAccumulator_state (tb : SchedTable) (np t : Slot) :
    (setAccumulator tb np t).state = (tb t).state := by
  by_cases h : t = np
  · subst h; simp [setAccumulator]
  · simp [setAccumulator, h]

/-- The first process, which `userinit` allocates. -/
def initproc : Slot := ⟨0, by decide⟩

/-- What `freeproc` leaves of an entry. -/
def freedProc : SchedProc := ⟨.unused, 0, false, 0, -1, 0⟩

/-- The table when `main` calls `scheduler`: `procinit`, then `userinit` starts the first process. -/
def bootTable : SchedTable :=
  update (fun _ => freedProc) initproc { freedProc with state := .runnable, pid := 1 }

end Xv6

import Xv6.Machinery.Ring
import Xv6.Sched.Wakeup

/-!
# Ipc/Pipe — the ring buffer of a pipe and the processes around it

Any number of processes call `pipewrite`, `piperead` and `pipeclose` on one pipe and may be killed
at any time. A step ends where a spinlock is acquired or released; `wakeup` is walked entry by
entry.  `rel` tells whether the scheduler releases the lock of a sleeper.  Ghosts: the bytes that
ever entered the pipe and left it.
-/

namespace Xv6

open Machinery Function Option

def PIPESIZE : ℕ := 512

/-- `&pi->nread` and `&pi->nwrite` as channels. -/
inductive PipeChan
  | nread
  | nwrite
  deriving DecidableEq, Repr

/-- The loop that a sleeping process returns to. -/
inductive PipeLoop
  /-- `pipewrite` of `len` bytes, `i` of them accepted. -/
  | write (i : ℕ) (len : ℤ)
  /-- The first loop of `piperead`. -/
  | read (len : ℤ)
  deriving DecidableEq, Repr

/-- What follows a `wakeup`. -/
inductive PipeNext
  /-- `release(&pi->lock)`. -/
  | leave
  /-- `sleep(&pi->nwrite, &pi->lock)` in `pipewrite`. -/
  | sleep (i : ℕ) (len : ℤ)
  deriving DecidableEq, Repr

/-- Where a process is. -/
inductive PipePc (n : ℕ)
  | outside
  /-- At the test of the loop in `pipewrite`; the ghost `fresh`: a byte was accepted since
  `pi->lock` was acquired. -/
  | write (i : ℕ) (len : ℤ) (fresh : Bool)
  /-- In `pipewrite`, past the test of `readopen` and `killed`. -/
  | writeTest (i : ℕ) (len : ℤ) (fresh : Bool)
  /-- In `pipewrite`, about to `release(&pi->lock)` and return -1. -/
  | writeFail (fresh : Bool)
  /-- At the test of the first loop in `piperead`. -/
  | read (len : ℤ)
  /-- In the second loop of `piperead`. -/
  | copy (i : ℕ) (len : ℤ)
  /-- In `wakeup(c)`, with the entries of `scan` still to come. -/
  | wakeup (c : PipeChan) (scan : List (Fin n)) (next : PipeNext)
  /-- About to `release(&pi->lock)` and return. -/
  | leave
  /-- About to `acquire(&p->lock)` in `sleep(c, &pi->lock)`. -/
  | sleepLock (c : PipeChan) (loop : PipeLoop)
  /-- About to `release(&pi->lock)` in `sleep`. -/
  | sleepRelease (c : PipeChan) (loop : PipeLoop)
  /-- Holds `p->lock`, about to set `p->chan` and `p->state` and to call `sched`. -/
  | dozing (c : PipeChan) (loop : PipeLoop)
  /-- Switched out in `sched`. -/
  | asleep (loop : PipeLoop)
  /-- Back from `sched` with `p->lock` held. -/
  | resumed (loop : PipeLoop)
  /-- About to `acquire(&pi->lock)` at the end of `sleep`. -/
  | woken (loop : PipeLoop)
  deriving DecidableEq, Repr

/-- A pipe and the processes around it. -/
structure PipeSys (n : ℕ) where
  /-- Who holds `pi->lock`. -/
  lk : Option (Fin n)
  data : ℕ → Byte
  nread : ℕ
  nwrite : ℕ
  readopen : Bool
  writeopen : Bool
  pc : Fin n → PipePc n
  state : Fin n → ProcState
  chan : Fin n → Option PipeChan
  killed : Fin n → Bool
  lock : Fin n → PLock
  accepted : List Byte
  taken : List Byte

/-- What can happen next. -/
inductive PipeOp (n : ℕ)
  /-- `pipewrite(pi, addr, len)`. -/
  | write (p : Fin n) (len : ℤ)
  /-- `piperead(pi, addr, len)`. -/
  | read (p : Fin n) (len : ℤ)
  /-- `pipeclose(pi, writable)`. -/
  | close (p : Fin n) (writable : Bool)
  /-- The next statements of `p`; `user` is the byte that `copyin` gets, none if a copy fails. -/
  | go (p : Fin n) (user : Option Byte)
  /-- The scheduler releases the lock of the process it switched back from. -/
  | handOver (p : Fin n)
  /-- A scheduler acquires `p->lock` and switches to `p`. -/
  | dispatch (p : Fin n)
  /-- The iteration of `kill` that finds its process. -/
  | kill (p : Fin n)
  deriving DecidableEq, Repr

/-- Where a process goes on after `sleep`. -/
def PipeLoop.pc {n : ℕ} : PipeLoop → PipePc n
  | .write i len => .write i len false
  | .read len => .read len

namespace PipeSys

variable {n : ℕ}

/-- After `pipealloc`; the buffer is a page from `kalloc`. -/
def start (data : ℕ → Byte) : PipeSys n where
  lk := none
  data := data
  nread := 0
  nwrite := 0
  readopen := true
  writeopen := true
  pc _ := .outside
  state _ := .runnable
  chan _ := none
  killed _ := false
  lock _ := .free
  accepted := []
  taken := []

/-- `p` goes to `pc`. -/
def goto (s : PipeSys n) (p : Fin n) (pc : PipePc n) : PipeSys n :=
  { s with pc := update s.pc p pc }

/-- `pi->nwrite == pi->nread + PIPESIZE`, on `uint`. -/
def full (s : PipeSys n) : Bool := s.nwrite = (s.nread + PIPESIZE) % 2 ^ 32

/-- `pi->data[pi->nwrite++ % PIPESIZE] = ch`. -/
def put (s : PipeSys n) (ch : Byte) : PipeSys n :=
  { s with
    data := update s.data (s.nwrite % PIPESIZE) ch
    nwrite := (s.nwrite + 1) % 2 ^ 32
    accepted := s.accepted ++ [ch] }

/-- `ch = pi->data[pi->nread++ % PIPESIZE]`. -/
def take (s : PipeSys n) : PipeSys n :=
  { s with
    nread := (s.nread + 1) % 2 ^ 32
    taken := s.taken ++ [s.data (s.nread % PIPESIZE)] }

/-- `p->state == SLEEPING && p->chan == c`. -/
def sleepsOn (s : PipeSys n) (c : PipeChan) (p : Fin n) : Bool :=
  s.state p = .sleeping && s.chan p = some c

/-- `p->state = RUNNABLE`. -/
def makeRunnable (s : PipeSys n) (p : Fin n) : PipeSys n :=
  { s with state := update s.state p .runnable }

/-- The body of `wakeup(c)` at entry `q`, under its lock. -/
def wakeupBody (s : PipeSys n) (c : PipeChan) (q : Fin n) : PipeSys n :=
  if s.sleepsOn c q then s.makeRunnable q else s

/-- `wakeup(c)` is called by `p`. -/
def wakeup (s : PipeSys n) (p : Fin n) (c : PipeChan) (next : PipeNext) : PipeSys n :=
  s.goto p (.wakeup c (List.finRange n) next)

/-- An iteration of the loop in `pipewrite` after its first test. -/
def writeBody (s : PipeSys n) (p : Fin n) (i : ℕ) (len : ℤ) (user : Option Byte) : PipeSys n :=
  if s.full then s.wakeup p .nread (.sleep i len)
  else
    match user with
    | none => s.wakeup p .nread .leave
    | some ch => (s.put ch).goto p (.write (i + 1) len true)

/-- An iteration of the second loop in `piperead`. -/
def copyBody (s : PipeSys n) (p : Fin n) (i : ℕ) (len : ℤ) (user : Option Byte) : PipeSys n :=
  if i < len ∧ s.nread ≠ s.nwrite then
    match user with
    | none => s.take.wakeup p .nwrite .leave
    | some _ => s.take.goto p (.copy (i + 1) len)
  else s.wakeup p .nwrite .leave

/-- The next statements of `p`. -/
def go (s : PipeSys n) (p : Fin n) (user : Option Byte) : Option (PipeSys n) :=
  match s.pc p with
  | .outside | .asleep _ => none
  | .write i len fresh =>
    if i < len then
      if s.readopen then
        -- `killed(pr)` takes `p->lock`
        if s.lock p = .free then
          some (s.goto p (if s.killed p then .writeFail fresh else .writeTest i len fresh))
        else none
      else some (s.goto p (.writeFail fresh))
    else some (s.wakeup p .nread .leave)
  | .writeTest i len _ => some (s.writeBody p i len user)
  | .writeFail _ => some { s.goto p .outside with lk := none }
  | .read len =>
    if s.nread = s.nwrite ∧ s.writeopen then
      if s.lock p = .free then
        some (s.goto p (if s.killed p then .leave else .sleepLock .nread (.read len)))
      else none
    else some (s.goto p (.copy 0 len))
  | .copy i len => some (s.copyBody p i len user)
  | .wakeup c (q :: scan) next =>
    if q = p then some (s.goto p (.wakeup c scan next))
    else if s.lock q = .free then some ((s.wakeupBody c q).goto p (.wakeup c scan next))
    else none
  | .wakeup _ [] .leave => some (s.goto p .leave)
  | .wakeup _ [] (.sleep i len) => some (s.goto p (.sleepLock .nwrite (.write i len)))
  | .leave => some { s.goto p .outside with lk := none }
  | .sleepLock c loop =>
    if s.lock p = .free then
      some { s.goto p (.sleepRelease c loop) with lock := update s.lock p .self }
    else none
  | .sleepRelease c loop => some { s.goto p (.dozing c loop) with lk := none }
  | .dozing c loop =>
    some { s.goto p (.asleep loop) with
      chan := update s.chan p (some c)
      state := update s.state p .sleeping
      lock := update s.lock p .cpu }
  | .resumed loop =>
    some { s.goto p (.woken loop) with
      chan := update s.chan p none
      lock := update s.lock p .free }
  | .woken loop => if s.lk = none then some { s.goto p loop.pc with lk := some p } else none

/-- `pipeclose`, up to its `wakeup`. -/
def closeBody (s : PipeSys n) (p : Fin n) (writable : Bool) : PipeSys n :=
  if writable then { s with writeopen := false }.wakeup p .nread .leave
  else { s with readopen := false }.wakeup p .nwrite .leave

def next (rel : Bool) (s : PipeSys n) : PipeOp n → Option (PipeSys n)
  | .write p len =>
    if s.pc p = .outside ∧ s.lk = none then
      some { s.goto p (.write 0 len false) with lk := some p }
    else none
  | .read p len =>
    if s.pc p = .outside ∧ s.lk = none then some { s.goto p (.read len) with lk := some p } else none
  | .close p writable =>
    if s.pc p = .outside ∧ s.lk = none then
      some (({ s with lk := some p } : PipeSys n).closeBody p writable)
    else none
  | .go p user => s.go p user
  | .handOver p =>
    if rel = true ∧ s.lock p = .cpu then some { s with lock := update s.lock p .free } else none
  | .dispatch p =>
    match s.pc p with
    | .asleep loop =>
      -- `scheduler` does not look at `p->state` again once it has the lock
      if s.lock p = .free then
        some { s.goto p (.resumed loop) with lock := update s.lock p .self }
      else none
    | _ => none
  | .kill p =>
    if s.lock p = .free then
      some (if s.state p = .sleeping then
        { s.makeRunnable p with killed := update s.killed p true }
      else { s with killed := update s.killed p true })
    else none

/-- Any processes around one pipe, in any interleaving. -/
def system (n : ℕ) (rel : Bool) : System (PipeSys n) (PipeOp n) :=
  .ofNext (fun s => ∃ data, s = start data) (next rel)

/-! ## The ring

`nread` and `nwrite` count modulo `2 ^ 32` and are never more than `PIPESIZE` apart. -/

def bytes (s : PipeSys n) : List Byte := Ring.contents (2 ^ 32) PIPESIZE s.data s.nread s.nwrite

def level (s : PipeSys n) : ℕ := Ring.count (2 ^ 32) s.nread s.nwrite

/-- The counters are not too far apart, and what has entered has left or is between them. -/
structure RingInv (s : PipeSys n) : Prop where
  nread_lt : s.nread < 2 ^ 32
  nwrite_lt : s.nwrite < 2 ^ 32
  level_le : s.level ≤ PIPESIZE
  fifo : s.accepted = s.taken ++ s.bytes

namespace RingInv

variable {s t : PipeSys n}

theorem start (data : ℕ → Byte) : RingInv (PipeSys.start data : PipeSys n) :=
  ⟨by norm_num [PipeSys.start], by norm_num [PipeSys.start], by
    norm_num [level, Ring.count, PipeSys.start], by
    norm_num [bytes, Ring.contents, Ring.count, PipeSys.start]⟩

variable (h : RingInv s)
include h

theorem congr (h1 : t.data = s.data) (h2 : t.nread = s.nread)
    (h3 : t.nwrite = s.nwrite) (h4 : t.accepted = s.accepted) (h5 : t.taken = s.taken) :
    RingInv t := by
  obtain ⟨hr, hw, hl, hf⟩ := h
  exact ⟨h2 ▸ hr, h3 ▸ hw, by rw [level, h2, h3]; exact hl, by
    rw [h4, h5, bytes, h1, h2, h3]; exact hf⟩

theorem level_lt (hf : s.full = false) : s.level < PIPESIZE := by
  refine lt_of_le_of_ne h.level_le fun heq => ?_
  have := (Ring.count_eq_iff h.nread_lt h.nwrite_lt (by norm_num [PIPESIZE])).1 heq
  simp [full, this] at hf

theorem put (hf : s.full = false) (ch : Byte) : RingInv (s.put ch) := by
  have hlt := h.level_lt hf
  have hsize : PIPESIZE < 2 ^ 32 := by norm_num [PIPESIZE]
  refine ⟨h.nread_lt, Nat.mod_lt _ (by norm_num), ?_, ?_⟩
  · change Ring.count (2 ^ 32) s.nread ((s.nwrite + 1) % 2 ^ 32) ≤ PIPESIZE
    rw [Ring.count_push h.nread_lt h.nwrite_lt (by change s.level + 1 < _; omega)]
    exact hlt
  · have hpush : (s.put ch).bytes = s.bytes ++ [ch] :=
      Ring.contents_push s.data (by norm_num [PIPESIZE]) h.nread_lt h.nwrite_lt hlt hsize ch
    change s.accepted ++ [ch] = s.taken ++ (s.put ch).bytes
    rw [hpush, ← List.append_assoc, ← h.fifo]

/-- A pipe that has just taken a byte is not empty. -/
theorem put_ne (hf : s.full = false) (ch : Byte) : (s.put ch).nread ≠ (s.put ch).nwrite := by
  have hlt : s.level + 1 < 2 ^ 32 :=
    lt_of_le_of_lt (h.level_lt hf) (by norm_num [PIPESIZE])
  have hlevel : (s.put ch).level = s.level + 1 := Ring.count_push h.nread_lt h.nwrite_lt hlt
  intro heq
  have hzero := (Ring.count_eq_zero (h.put hf ch).nread_lt (h.put hf ch).nwrite_lt).2 heq
  exact absurd (hlevel.symm.trans hzero) (Nat.succ_ne_zero _)

theorem take (hne : s.nread ≠ s.nwrite) : RingInv s.take := by
  obtain ⟨c, hc⟩ := Nat.exists_eq_succ_of_ne_zero
    (mt (Ring.count_eq_zero h.nread_lt h.nwrite_lt).1 hne)
  refine ⟨Nat.mod_lt _ (by norm_num), h.nwrite_lt, ?_, ?_⟩
  · change Ring.count (2 ^ 32) ((s.nread + 1) % 2 ^ 32) s.nwrite ≤ PIPESIZE
    rw [Ring.count_pop h.nread_lt h.nwrite_lt hc]
    have := h.level_le
    rw [level, hc] at this
    omega
  · have hpop : s.bytes = s.data (s.nread % PIPESIZE) :: s.take.bytes :=
      Ring.contents_pop s.data (by norm_num [PIPESIZE]) h.nread_lt h.nwrite_lt hne
    change s.accepted = s.taken ++ [s.data (s.nread % PIPESIZE)] ++ s.take.bytes
    rw [h.fifo, hpop, List.append_assoc, List.singleton_append]

theorem goto (p : Fin n) (pc : PipePc n) : RingInv (s.goto p pc) :=
  h.congr rfl rfl rfl rfl rfl

theorem wakeupBody (c : PipeChan) (q : Fin n) : RingInv (s.wakeupBody c q) := by
  unfold PipeSys.wakeupBody
  split_ifs
  · exact h.congr rfl rfl rfl rfl rfl
  · exact h

theorem writeBody (p : Fin n) (i : ℕ) (len : ℤ) (user : Option Byte) :
    RingInv (s.writeBody p i len user) := by
  unfold PipeSys.writeBody
  split_ifs with hfull
  · exact h.goto _ _
  · cases user with
    | none => exact h.goto _ _
    | some ch => exact (h.put (Bool.not_eq_true _ ▸ hfull) ch).goto _ _

theorem copyBody (p : Fin n) (i : ℕ) (len : ℤ) (user : Option Byte) :
    RingInv (s.copyBody p i len user) := by
  unfold PipeSys.copyBody
  split_ifs with hmore
  · cases user with
    | none => exact (h.take hmore.2).goto _ _
    | some ch => exact (h.take hmore.2).goto _ _
  · exact h.goto _ _

theorem go {p : Fin n} {user : Option Byte} (hst : s.go p user = some t) : RingInv t := by
  unfold PipeSys.go at hst
  split at hst
  case h_4 => exact some.inj hst ▸ h.writeBody _ _ _ _
  case h_7 => exact some.inj hst ▸ h.copyBody _ _ _ _
  case h_8 =>
    split_ifs at hst
    · exact some.inj hst ▸ h.goto _ _
    · exact some.inj hst ▸ (h.wakeupBody _ _).goto _ _
  -- the other branches leave the buffer alone
  all_goals
    try split_ifs at hst
    all_goals cases hst <;> exact h.congr rfl rfl rfl rfl rfl

theorem next {rel : Bool} {op : PipeOp n} (hst : s.next rel op = some t) : RingInv t := by
  cases op with
  | go p user => exact h.go hst
  | close p writable =>
    obtain ⟨-, rfl⟩ := of_guard hst
    unfold closeBody
    split_ifs <;> exact h.congr rfl rfl rfl rfl rfl
  | dispatch p =>
    unfold PipeSys.next at hst
    dsimp only at hst
    split at hst
    · obtain ⟨-, rfl⟩ := of_guard hst
      exact h.congr rfl rfl rfl rfl rfl
    · cases hst
  | kill p =>
    obtain ⟨-, rfl⟩ := of_guard hst
    split_ifs <;> exact h.congr rfl rfl rfl rfl rfl
  | write p len | read p len | handOver p =>
    obtain ⟨-, rfl⟩ := of_guard hst
    exact h.congr rfl rfl rfl rfl rfl

end RingInv

theorem ring_reachable {rel : Bool} {s : PipeSys n} (hs : (system n rel).Reachable s) : RingInv s :=
  hs.invariant (fun _ ⟨data, hd⟩ => hd ▸ RingInv.start data) fun _ _ _ _ h hst => h.next hst

/-- **A pipe is a queue of at most `PIPESIZE` bytes**, however often its counters have wrapped: the
bytes between the counters are those that were accepted and not yet taken, in order. -/
theorem pipe_fifo {rel : Bool} {s : PipeSys n} (hs : (system n rel).Reachable s) :
    (s.nwrite + 2 ^ 32 - s.nread) % 2 ^ 32 ≤ PIPESIZE ∧
    s.accepted = s.taken ++ (List.range ((s.nwrite + 2 ^ 32 - s.nread) % 2 ^ 32)).map
      fun k => s.data ((s.nread + k) % PIPESIZE) :=
  ⟨(ring_reachable hs).level_le, (ring_reachable hs).fifo⟩

/-- Two bytes have been accepted, one has been taken. -/
theorem pipe_fifo_two : ∃ s : PipeSys 2, (system 2 false).Reachable s ∧ s.lk = none ∧ s.taken = [7] ∧
    (s.nwrite + 2 ^ 32 - s.nread) % 2 ^ 32 ≤ PIPESIZE := by
  let ls : List (PipeOp 2) := [.write 0 2, .go 0 none, .go 0 (some 7), .go 0 none, .go 0 (some 8),
    .go 0 none, .go 0 none, .go 0 none, .go 0 none, .go 0 none, .read 1 1, .go 1 none, .go 1 (some 0),
    .go 1 none, .go 1 none, .go 1 none, .go 1 none, .go 1 none]
  obtain ⟨s, hs⟩ : ∃ s, System.execute (next false) (start fun _ => 0) ls = some s := ⟨_, rfl⟩
  have hr : (system 2 false).Reachable s := .run (.of_execute hs) (.init ⟨_, rfl⟩)
  cases hs
  exact ⟨_, hr, rfl, rfl, (pipe_fifo hr).1⟩

end PipeSys

end Xv6

import Xv6.Sched.Table
import Xv6.Machinery.Runs

/-!
# Sched/Wakeup — `sleep` and `wakeup` on one channel

A sleeper tests a condition with the spinlock `lk` held and calls `sleep(chan, lk)` when it is false
(`acquiresleep`); a waker, a process or an interrupt handler, makes it true with `lk` held and calls
`wakeup(chan)` before it releases `lk` (`releasesleep`).  A step ends where a spinlock is acquired
or released.  The lock of a process that sleeps is for the scheduler of its CPU to release, which it
does not (`system n false`).
-/

namespace Xv6

open Machinery Function Option

/-- Where a process is in the loop of a sleeper. -/
inductive SleepPc
  /-- Outside; a waker is here, too, before it takes `lk`. -/
  | outside
  /-- Holds `lk`. -/
  | locked
  /-- Has found the condition false, about to `acquire(&p->lock)` in `sleep`. -/
  | found
  /-- Holds both locks, about to `release(lk)`. -/
  | armed
  /-- Holds `p->lock`, about to set `p->chan` and `p->state` and to call `sched`. -/
  | dozing
  /-- Switched out in `sched`. -/
  | asleep
  /-- Back from `sched` with `p->lock` held, about to clear `p->chan`. -/
  | resumed
  /-- About to `acquire(lk)` at the end of `sleep`. -/
  | woken
  deriving DecidableEq, Repr

namespace SleepPc

def interruptible : SleepPc → Bool
  | .outside | .woken => true
  | _ => false

def foundFalse : SleepPc → Bool
  | .outside | .locked => false
  | _ => true

end SleepPc

/-- Who holds a `p->lock` between two steps. -/
inductive PLock
  | free
  | self
  /-- The CPU that the process was switched out on. -/
  | cpu
  deriving DecidableEq, Repr

/-- Who holds `lk`: a process, or an interrupt handler on a CPU with this `myproc()`. -/
inductive LkOwner (n : ℕ)
  | proc (p : Fin n)
  | intr (me : Option (Fin n))
  deriving DecidableEq, Repr

/-- `myproc()` of the holder of `lk`. -/
def LkOwner.myproc {n : ℕ} : LkOwner n → Option (Fin n)
  | .proc p => some p
  | .intr me => me

/-- How far the holder of `lk` is in its duties as a waker. -/
inductive WakerPhase (n : ℕ)
  | none
  /-- The condition has been made true, `wakeup` not yet called. -/
  | made
  /-- In the loop of `wakeup`, with these entries still to come. -/
  | scanning (rest : List (Fin n))
  deriving DecidableEq, Repr

/-- `p` has a turn in `wakeup` ahead of it. -/
def WakerPhase.Pending {n : ℕ} (p : Fin n) : WakerPhase n → Prop
  | .none => False
  | .made => True
  | .scanning rest => p ∈ rest

/-- The processes around one channel.  The ghosts `stored` and `early`: the condition was not
consumed since `wakeup` last completed; the process slept, or had found the condition false, when it
last began. -/
structure Sleepers (n : ℕ) where
  lk : Option (LkOwner n)
  cond : Bool
  phase : WakerPhase n
  pc : Fin n → SleepPc
  state : Fin n → ProcState
  /-- Whether `p->chan` is the channel. -/
  chan : Fin n → Bool
  lock : Fin n → PLock
  stored : Bool
  early : Fin n → Bool

/-- The steps between two lock operations. -/
inductive SleepOp (n : ℕ)
  /-- `acquire(lk)` by a process. -/
  | acquire (p : Fin n)
  /-- `acquire(lk)` by an interrupt handler. -/
  | interrupt (me : Option (Fin n))
  /-- `release(lk)` at the end of a sleeper's or waker's section. -/
  | release
  /-- A sleeper finds the condition false and calls `sleep`. -/
  | test (p : Fin n)
  | consume (p : Fin n)
  /-- A waker makes the condition true. -/
  | make
  /-- A waker calls `wakeup`. -/
  | wakeup
  /-- An iteration of the loop in `wakeup`. -/
  | scan
  /-- `wakeup` returns. -/
  | wakeupDone
  /-- `acquire(&p->lock)` in `sleep`. -/
  | sleepLock (p : Fin n)
  /-- `release(lk)` in `sleep`. -/
  | sleepRelease (p : Fin n)
  /-- `p->chan = chan; p->state = SLEEPING; sched()`. -/
  | sched (p : Fin n)
  /-- The scheduler releases the lock of the process it switched back from. -/
  | handOver (p : Fin n)
  /-- A scheduler acquires `p->lock` and switches to `p`. -/
  | dispatch (p : Fin n)
  /-- `p->chan = 0; release(&p->lock)`. -/
  | tidyUp (p : Fin n)
  /-- The iteration of `kill` that finds its process. -/
  | kill (p : Fin n)
  deriving DecidableEq, Repr

namespace Sleepers

variable {n : ℕ}

/-- Every process outside, the condition false or true. -/
def start (cond : Bool) : Sleepers n :=
  ⟨none, cond, .none, fun _ => .outside, fun _ => .runnable, fun _ => false, fun _ => .free, false,
    fun _ => false⟩

/-- `p->state == SLEEPING && p->chan == chan`. -/
def sleepsOn (s : Sleepers n) (p : Fin n) : Bool := s.state p = .sleeping && s.chan p

/-- The holder of `lk` is between its calls. -/
def mayAct (s : Sleepers n) : Bool :=
  match s.lk with
  | none => false
  | some (.proc p) => s.pc p = .locked
  | some (.intr _) => true

/-- `p` goes to `pc`. -/
def goto (s : Sleepers n) (p : Fin n) (pc : SleepPc) : Sleepers n :=
  { s with pc := update s.pc p pc }

/-- `p->state = RUNNABLE`. -/
def makeRunnable (s : Sleepers n) (p : Fin n) : Sleepers n :=
  { s with state := update s.state p .runnable }

/-- The body of `wakeup(chan)` at entry `p`, under `p->lock`. -/
def wakeupBody (s : Sleepers n) (p : Fin n) : Sleepers n :=
  if s.sleepsOn p then s.makeRunnable p else s

/-- The body of `kill` at the entry of its process. -/
def killBody (s : Sleepers n) (p : Fin n) : Sleepers n :=
  if s.state p = .sleeping then s.makeRunnable p else s

/-- A round of the loop in `wakeup`: it spins while `p->lock` is held, and leaves out `myproc()`. -/
def scanBody (s : Sleepers n) : Option (Sleepers n) :=
  match s.lk, s.phase with
  | some o, .scanning (p :: rest) =>
    if o.myproc = some p then some { s with phase := .scanning rest }
    else if s.lock p = .free then some { s.wakeupBody p with phase := .scanning rest }
    else none
  | _, _ => none

/-- `release(lk)` by its holder. -/
def releaseLk (s : Sleepers n) : Sleepers n :=
  match s.lk with
  | some (.proc p) => { s.goto p .outside with lk := none }
  | _ => { s with lk := none }

/-- One step; `rel` tells whether schedulers release the lock of a process that went to sleep. -/
def next (rel : Bool) (s : Sleepers n) : SleepOp n → Option (Sleepers n)
  | .acquire p =>
    if s.lk = none ∧ (s.pc p).interruptible then
      some { s.goto p .locked with lk := some (.proc p) }
    else none
  | .interrupt me =>
    if s.lk = none ∧ ∀ p, me = some p → (s.pc p).interruptible then
      some { s with lk := some (.intr me) }
    else none
  | .release => if s.mayAct ∧ s.phase = .none then some s.releaseLk else none
  | .test p =>
    if s.pc p = .locked ∧ s.phase = .none ∧ s.cond = false then some (s.goto p .found) else none
  | .consume p =>
    if s.pc p = .locked ∧ s.phase = .none ∧ s.cond = true then
      some { s with cond := false, stored := false }
    else none
  | .make =>
    if s.mayAct ∧ s.phase = .none then some { s with cond := true, phase := .made } else none
  | .wakeup =>
    if s.phase = .made then
      some { s with
        phase := .scanning (List.finRange n)
        stored := false
        early := fun p => s.sleepsOn p || (s.pc p).foundFalse }
    else none
  | .scan => s.scanBody
  | .wakeupDone =>
    if s.phase = .scanning [] then some { s with phase := .none, stored := true } else none
  | .sleepLock p =>
    if s.pc p = .found ∧ s.lock p = .free then
      some { s.goto p .armed with lock := update s.lock p .self }
    else none
  | .sleepRelease p =>
    if s.pc p = .armed then some { s.goto p .dozing with lk := none } else none
  | .sched p =>
    if s.pc p = .dozing then
      some { s.goto p .asleep with
        chan := update s.chan p true
        state := update s.state p .sleeping
        lock := update s.lock p .cpu }
    else none
  | .handOver p =>
    if rel = true ∧ s.lock p = .cpu then some { s with lock := update s.lock p .free } else none
  | .dispatch p =>
    -- `scheduler` chose `p` without a lock and does not look at `p->state` again; what it stores
    -- there goes behind the table
    if s.pc p = .asleep ∧ s.lock p = .free then
      some { s.goto p .resumed with lock := update s.lock p .self }
    else none
  | .tidyUp p =>
    if s.pc p = .resumed then
      some { s.goto p .woken with
        chan := update s.chan p false
        lock := update s.lock p .free }
    else none
  | .kill p => if s.lock p = .free then some (s.killBody p) else none

/-- Any number of sleepers, wakers and kills, in any interleaving. -/
def system (n : ℕ) (rel : Bool) : System (Sleepers n) (SleepOp n) :=
  .ofNext (fun s => ∃ cond, s = start cond) (next rel)

/-- A wakeup has been lost: `lk` is free, the condition true and not consumed since `wakeup` last
completed, and a process that it should have woken sleeps. -/
def Lost (s : Sleepers n) : Prop :=
  s.lk = none ∧ s.cond = true ∧ s.stored = true ∧ ∃ p, s.sleepsOn p = true ∧ s.early p = true

/-! ## The invariant

The locks say where a process can be: `wakeup` cannot pass a process between its `release(lk)` and
its `sched`, since that process holds its own lock.  So while the condition is true, every process on
its way to sleep, or asleep, has its turn in `wakeup` still to come. -/

/-- `p` does not run on the CPU that holds `lk`. -/
def Away (lk : Option (LkOwner n)) (p : Fin n) : Prop := ∀ o, lk = some o → o.myproc ≠ some p

/-- What holds of `p` at `pc`, given who holds its lock and whether it sleeps. -/
def Proper (lk : Option (LkOwner n)) (cond : Bool) (phase : WakerPhase n) (p : Fin n) (lock : PLock)
    (sleeps : Bool) : SleepPc → Prop
  | .outside | .woken => lk ≠ some (.proc p) ∧ lock = .free ∧ sleeps = false
  | .locked => lk = some (.proc p) ∧ lock = .free ∧ sleeps = false
  | .found => lk = some (.proc p) ∧ phase = .none ∧ cond = false ∧ lock = .free ∧ sleeps = false
  | .armed => lk = some (.proc p) ∧ phase = .none ∧ cond = false ∧ lock = .self ∧ sleeps = false
  | .dozing => Away lk p ∧ lock = .self ∧ sleeps = false ∧ (cond = true → phase.Pending p)
  | .asleep => Away lk p ∧ lock ≠ .self ∧ (cond = true → sleeps = true → phase.Pending p)
  | .resumed => Away lk p ∧ lock = .self ∧ (cond = true → sleeps = true → phase.Pending p)

theorem sleepsOn_congr {s t : Sleepers n} {p : Fin n} (hstate : t.state p = s.state p)
    (hchan : t.chan p = s.chan p) : t.sleepsOn p = s.sleepsOn p := by
  rw [sleepsOn, sleepsOn, hstate, hchan]

theorem wakeupBody_frame (s : Sleepers n) (p : Fin n) :
    (s.wakeupBody p).cond = s.cond ∧ (s.wakeupBody p).phase = s.phase ∧
      (s.wakeupBody p).lk = s.lk ∧ (s.wakeupBody p).pc = s.pc := by
  unfold wakeupBody
  split_ifs <;> exact ⟨rfl, rfl, rfl, rfl⟩

theorem sleepsOn_wakeupBody (s : Sleepers n) (p : Fin n) : (s.wakeupBody p).sleepsOn p = false := by
  unfold wakeupBody
  split_ifs with hs
  · simp [sleepsOn, makeRunnable]
  · exact Bool.not_eq_true _ ▸ hs

theorem sleepsOn_wakeupBody_of_ne {s : Sleepers n} {p q : Fin n} (hq : q ≠ p) :
    (s.wakeupBody p).sleepsOn q = s.sleepsOn q := by
  unfold wakeupBody
  split_ifs
  · exact sleepsOn_congr (update_of_ne hq _ _) rfl
  · rfl

/-- Whoever holds `lk` in `wakeup` has made the condition true; every process is where its locks
allow. -/
structure Inv (s : Sleepers n) : Prop where
  waker : s.phase ≠ .none → s.lk ≠ none ∧ s.cond = true
  proper : ∀ p, Proper s.lk s.cond s.phase p (s.lock p) (s.sleepsOn p) (s.pc p)

namespace Proper

variable {lk : Option (LkOwner n)} {cond cond' : Bool} {phase phase' : WakerPhase n} {p : Fin n}
  {lock : PLock} {sleeps : Bool} {pc : SleepPc} {o : LkOwner n}

theorem pending (h : Proper lk cond phase p lock sleeps pc) (hc : cond = true)
    (hs : pc = .dozing ∨ sleeps = true) : phase.Pending p := by
  cases pc <;> simp_all [Proper]

theorem idle (h : Proper lk cond phase p lock sleeps pc) (hi : pc.interruptible = true) :
    lock = .free ∧ sleeps = false := by
  cases pc <;> simp_all [Proper, SleepPc.interruptible]

theorem take (h : Proper none cond phase p lock sleeps pc) (ho : o ≠ .proc p)
    (hi : o.myproc = some p → pc.interruptible = true) : Proper (some o) cond phase p lock sleeps pc := by
  have haway : pc.interruptible = false → Away (some o) p := fun hf _ heq hp => by
    rw [← some.inj heq] at hp
    exact Bool.false_ne_true (hf.symm.trans (hi hp))
  cases pc <;> simp_all [Proper, SleepPc.interruptible]

theorem drop (h : Proper lk cond phase p lock sleeps pc) (hp : lk ≠ some (.proc p)) :
    Proper none cond phase p lock sleeps pc := by
  cases pc <;> simp_all [Proper, Away]

theorem change (h : Proper lk cond phase p lock sleeps pc) (hf : pc ≠ .found ∧ pc ≠ .armed)
    (hs : cond' = true → pc = .dozing ∨ sleeps = true → phase'.Pending p) :
    Proper lk cond' phase' p lock sleeps pc := by
  cases pc <;> simp_all [Proper]

/-- Between its calls the holder of `lk` is not on the way to sleep. -/
theorem not_found (h : Proper lk cond phase p lock sleeps pc)
    (hp : phase ≠ .none ∨ (lk = some (.proc p) → pc = .locked)) : pc ≠ .found ∧ pc ≠ .armed := by
  cases pc <;> simp_all [Proper]

theorem asleep_of_cpu (h : Proper lk cond phase p .cpu sleeps pc) : pc = .asleep := by
  cases pc <;> simp_all [Proper]

/-- A process whose lock is free is not about to sleep, and may be made runnable. -/
theorem wake (h : Proper lk cond phase p .free sleeps pc) :
    pc ≠ .dozing ∧ Proper lk cond phase p .free false pc := by
  cases pc <;> simp_all [Proper]

theorem not_dozing (h : Proper (some o) cond phase p lock sleeps pc) (hp : o.myproc = some p) :
    ¬ (pc = .dozing ∨ sleeps = true) := by
  cases pc <;> simp_all [Proper, Away]

end Proper

namespace Inv

variable {s t : Sleepers n}

theorem start (cond : Bool) : Inv (Sleepers.start cond : Sleepers n) :=
  ⟨fun h => absurd rfl h, fun _ => ⟨nofun, rfl, rfl⟩⟩

/-- A step of `p`, which goes to `pc`; nothing else is seen of the others than who holds `lk`. -/
theorem step (h : Inv s) (p : Fin n) {lock : PLock} {sleeps : Bool} {pc : SleepPc}
    (hcond : t.cond = s.cond) (hphase : t.phase = s.phase)
    (hw : s.phase ≠ .none → t.lk ≠ none)
    (hq : ∀ q, q ≠ p → t.lock q = s.lock q ∧ t.sleepsOn q = s.sleepsOn q ∧ t.pc q = s.pc q)
    (hlk : ∀ q, q ≠ p → Proper s.lk s.cond s.phase q (s.lock q) (s.sleepsOn q) (s.pc q) →
      Proper t.lk s.cond s.phase q (s.lock q) (s.sleepsOn q) (s.pc q))
    (hp : t.lock p = lock ∧ t.sleepsOn p = sleeps ∧ t.pc p = pc)
    (hproper : Proper t.lk s.cond s.phase p lock sleeps pc) : Inv t := by
  constructor
  · rw [hcond, hphase]
    exact fun hne => ⟨hw hne, (h.waker hne).2⟩
  · intro q
    rw [hcond, hphase]
    by_cases hqp : q = p
    · obtain ⟨h1, h2, h3⟩ := hp
      rw [hqp, h1, h2, h3]
      exact hproper
    · obtain ⟨h1, h2, h3⟩ := hq q hqp
      rw [h1, h2, h3]
      exact hlk q hqp (h.proper q)

theorem inner (h : Inv s) (p : Fin n) {lock : PLock} {sleeps : Bool} {pc : SleepPc}
    (hlk : t.lk = s.lk) (hcond : t.cond = s.cond) (hphase : t.phase = s.phase)
    (hq : ∀ q, q ≠ p → t.lock q = s.lock q ∧ t.sleepsOn q = s.sleepsOn q ∧ t.pc q = s.pc q)
    (hp : t.lock p = lock ∧ t.sleepsOn p = sleeps ∧ t.pc p = pc)
    (hproper : Proper s.lk s.cond s.phase p lock sleeps pc) : Inv t :=
  h.step p hcond hphase (fun hne => hlk ▸ (h.waker hne).1) hq (fun _ _ hq => hlk ▸ hq) hp
    (hlk ▸ hproper)

theorem change (h : Inv s) {cond : Bool} {phase : WakerPhase n} {b : Bool} {e : Fin n → Bool}
    (hw : phase ≠ .none → s.lk ≠ none ∧ cond = true)
    (hf : ∀ p, s.phase ≠ .none ∨ (s.lk = some (.proc p) → s.pc p = .locked))
    (hs : cond = true → ∀ p, s.pc p = .dozing ∨ s.sleepsOn p = true → phase.Pending p) :
    Inv { s with cond := cond, phase := phase, stored := b, early := e } :=
  ⟨hw, fun p => (h.proper p).change ((h.proper p).not_found (hf p)) fun hc => hs hc p⟩

theorem phase_none (h : Inv s) (hlk : s.lk = none) : s.phase = .none :=
  not_not.1 fun hp => (h.waker hp).1 hlk

theorem locked_of_mayAct (hm : s.mayAct = true) (p : Fin n) (hp : s.lk = some (.proc p)) :
    s.pc p = .locked := by
  simpa [mayAct, hp] using hm

theorem lk_of_mayAct (hm : s.mayAct = true) : s.lk ≠ none := fun hn => by
  simp [mayAct, hn] at hm

theorem proper_at (h : Inv s) {p : Fin n} {pc : SleepPc} (hpc : s.pc p = pc) :
    Proper s.lk s.cond s.phase p (s.lock p) (s.sleepsOn p) pc := hpc ▸ h.proper p

theorem acquire (h : Inv s) (p : Fin n) (hlk : s.lk = none) (hpc : (s.pc p).interruptible = true) :
    Inv { s.goto p .locked with lk := some (.proc p) } := by
  refine h.step p rfl rfl (fun _ => nofun) (fun q hq => ⟨rfl, rfl, update_of_ne hq _ _⟩)
    (fun q hq hproper => ?_) ⟨rfl, rfl, update_self ..⟩ ?_
  · rw [hlk] at hproper
    exact hproper.take (fun h => hq (LkOwner.proc.inj h).symm) fun h => absurd (some.inj h).symm hq
  · have hp := (h.proper p).idle hpc
    exact ⟨rfl, hp.1, hp.2⟩

theorem release (h : Inv s) (hm : s.mayAct = true) (hphase : s.phase = .none) : Inv s.releaseLk := by
  have hdrop : ∀ q, s.lk ≠ some (.proc q) →
      Proper s.lk s.cond s.phase q (s.lock q) (s.sleepsOn q) (s.pc q) →
      Proper none s.cond s.phase q (s.lock q) (s.sleepsOn q) (s.pc q) := fun q hne hq => hq.drop hne
  match hlk : s.lk with
  | none => exact absurd hlk (lk_of_mayAct hm)
  | some (.intr me) =>
    simp only [releaseLk, hlk]
    exact ⟨fun hne => absurd hphase hne, fun q => hdrop q (by rw [hlk]; nofun) (h.proper q)⟩
  | some (.proc p) =>
    simp only [releaseLk, hlk]
    have hp := h.proper_at (locked_of_mayAct hm p hlk)
    refine h.step p rfl rfl (fun hne => absurd hphase hne)
      (fun q hq => ⟨rfl, rfl, update_of_ne hq _ _⟩) (fun q hq => hdrop q ?_)
      ⟨rfl, rfl, update_self ..⟩ ⟨nofun, hp.2⟩
    rw [hlk]
    exact fun heq => hq (LkOwner.proc.inj (some.inj heq)).symm

theorem makeRunnable (h : Inv s) (p : Fin n) (hfree : s.lock p = .free) : Inv (s.makeRunnable p) := by
  have hp := h.proper p
  rw [hfree] at hp
  exact h.inner p rfl rfl rfl (fun q hq => ⟨rfl, sleepsOn_congr (update_of_ne hq _ _) rfl, rfl⟩)
    ⟨hfree, by simp [sleepsOn, Sleepers.makeRunnable], rfl⟩ hp.wake.2

theorem wakeupBody (h : Inv s) (p : Fin n) (hfree : s.lock p = .free) : Inv (s.wakeupBody p) := by
  unfold Sleepers.wakeupBody
  split_ifs
  · exact h.makeRunnable p hfree
  · exact h

/-- **An iteration of `wakeup` passes over no process that sleeps or is about to.** -/
theorem scan (h : Inv s) (hst : s.scanBody = some t) : Inv t := by
  unfold scanBody at hst
  split at hst
  next o p rest hlk hphase =>
    have hne : s.phase ≠ .none := by rw [hphase]; nofun
    have hrest : ∀ q, q ≠ p → s.cond = true → s.pc q = .dozing ∨ s.sleepsOn q = true →
        (WakerPhase.scanning rest).Pending q := fun q hq hc hs => by
      have hmem := (h.proper q).pending hc hs
      rw [hphase] at hmem
      exact List.mem_of_ne_of_mem hq hmem
    split_ifs at hst with hme hfree
    · cases hst
      refine h.change (fun _ => h.waker hne) (fun _ => .inl hne) fun hc q hs => ?_
      by_cases hq : q = p
      · have hproper := h.proper q
        rw [hlk] at hproper
        exact absurd hs (hproper.not_dozing (hq ▸ hme))
      · exact hrest q hq hc hs
    · cases hst
      obtain ⟨h1, h2, h3, h4⟩ := s.wakeupBody_frame p
      refine (h.wakeupBody p hfree).change (fun _ => ?_) (fun _ => .inl (h2 ▸ hne)) fun hc q hs => ?_
      · rw [h1, h3]
        exact h.waker hne
      · by_cases hq : q = p
        · have hp := h.proper p
          rw [hfree] at hp
          rw [hq, h4, sleepsOn_wakeupBody] at hs
          exact absurd hs (not_or.2 ⟨hp.wake.1, nofun⟩)
        · rw [h4, sleepsOn_wakeupBody_of_ne hq] at hs
          exact hrest q hq (h1 ▸ hc) hs
  next => cases hst

theorem next {rel : Bool} {op : SleepOp n} (h : Inv s) (hst : s.next rel op = some t) : Inv t := by
  cases op with
  | acquire p =>
    obtain ⟨⟨hlk, hpc⟩, rfl⟩ := of_guard hst
    exact h.acquire p hlk hpc
  | interrupt me =>
    obtain ⟨⟨hlk, hpc⟩, rfl⟩ := of_guard hst
    refine ⟨fun hp => absurd (h.phase_none hlk) hp, fun q => ?_⟩
    have hq := h.proper q
    rw [hlk] at hq
    exact hq.take nofun (hpc q)
  | release =>
    obtain ⟨⟨hm, hphase⟩, rfl⟩ := of_guard hst
    exact h.release hm hphase
  | test p =>
    obtain ⟨⟨hpc, hphase, hcond⟩, rfl⟩ :=
      of_guard hst
    have hp := h.proper_at hpc
    exact h.inner p rfl rfl rfl (fun q hq => ⟨rfl, rfl, update_of_ne hq _ _⟩)
      ⟨rfl, rfl, update_self ..⟩ ⟨hp.1, hphase, hcond, hp.2⟩
  | consume p =>
    obtain ⟨⟨hpc, hphase, hcond⟩, rfl⟩ :=
      of_guard hst
    have hp := h.proper_at hpc
    refine h.change (fun hne => absurd hphase hne) (fun q => .inr fun hq => ?_) nofun
    cases hp.1.symm.trans hq
    exact hpc
  | make =>
    obtain ⟨⟨hm, hphase⟩, rfl⟩ := of_guard hst
    exact h.change (fun _ => ⟨lk_of_mayAct hm, rfl⟩) (fun p => .inr (locked_of_mayAct hm p))
      fun _ _ _ => trivial
  | wakeup =>
    obtain ⟨hphase, rfl⟩ := of_guard hst
    have hne : s.phase ≠ .none := by rw [hphase]; nofun
    exact h.change (fun _ => h.waker hne) (fun _ => .inl hne) fun _ p _ => List.mem_finRange p
  | scan => exact h.scan hst
  | wakeupDone =>
    obtain ⟨hphase, rfl⟩ := of_guard hst
    have hne : s.phase ≠ .none := by rw [hphase]; nofun
    refine h.change (fun h => absurd rfl h) (fun _ => .inl hne) fun hc p hp => ?_
    have := (h.proper p).pending hc hp
    rw [hphase] at this
    exact List.not_mem_nil this
  | sleepLock p =>
    obtain ⟨⟨hpc, hfree⟩, rfl⟩ := of_guard hst
    obtain ⟨hlk, hphase, hcond, -, hs⟩ := h.proper_at hpc
    exact h.inner p rfl rfl rfl (fun q hq => ⟨update_of_ne hq _ _, rfl, update_of_ne hq _ _⟩)
      ⟨update_self .., rfl, update_self ..⟩ ⟨hlk, hphase, hcond, rfl, hs⟩
  | sleepRelease p =>
    obtain ⟨hpc, rfl⟩ := of_guard hst
    obtain ⟨hlk, hphase, hcond, hself, hs⟩ := h.proper_at hpc
    refine h.step p rfl rfl (fun hne => absurd hphase hne)
      (fun q hq => ⟨rfl, rfl, update_of_ne hq _ _⟩) (fun q hq hproper => hproper.drop ?_)
      ⟨rfl, rfl, update_self ..⟩ ⟨nofun, hself, hs, fun hc => absurd (hcond.symm.trans hc) nofun⟩
    rw [hlk]
    exact fun heq => hq (LkOwner.proc.inj (some.inj heq)).symm
  | sched p =>
    obtain ⟨hpc, rfl⟩ := of_guard hst
    obtain ⟨haway, -, -, hpending⟩ := h.proper_at hpc
    refine h.inner p rfl rfl rfl (fun q hq => ⟨update_of_ne hq _ _, ?_, update_of_ne hq _ _⟩)
      ⟨update_self .., rfl, update_self ..⟩ ⟨haway, nofun, fun hc _ => hpending hc⟩
    exact sleepsOn_congr (update_of_ne hq _ _) (update_of_ne hq _ _)
  | handOver p =>
    obtain ⟨⟨-, hcpu⟩, rfl⟩ := of_guard hst
    have hp := h.proper p
    rw [hcpu] at hp
    have hpc := hp.asleep_of_cpu
    obtain ⟨haway, -, hpending⟩ := h.proper_at hpc
    exact h.inner p rfl rfl rfl (fun q hq => ⟨update_of_ne hq _ _, rfl, rfl⟩)
      ⟨update_self .., rfl, hpc⟩ ⟨haway, nofun, hpending⟩
  | dispatch p =>
    obtain ⟨⟨hpc, -⟩, rfl⟩ := of_guard hst
    obtain ⟨haway, -, hpending⟩ := h.proper_at hpc
    exact h.inner p rfl rfl rfl (fun q hq => ⟨update_of_ne hq _ _, rfl, update_of_ne hq _ _⟩)
      ⟨update_self .., rfl, update_self ..⟩ ⟨haway, rfl, hpending⟩
  | tidyUp p =>
    obtain ⟨hpc, rfl⟩ := of_guard hst
    obtain ⟨haway, -, -⟩ := h.proper_at hpc
    refine h.inner p rfl rfl rfl (fun q hq => ⟨update_of_ne hq _ _, ?_, update_of_ne hq _ _⟩)
      ⟨update_self .., ?_, update_self ..⟩ ⟨fun hlk => haway _ hlk rfl, rfl, rfl⟩
    · exact sleepsOn_congr rfl (update_of_ne hq _ _)
    · simp [sleepsOn]
  | kill p =>
    obtain ⟨hfree, rfl⟩ := of_guard hst
    unfold killBody
    split_ifs
    · exact h.makeRunnable p hfree
    · exact h

end Inv

theorem inv_reachable {rel : Bool} {s : Sleepers n} (hs : (system n rel).Reachable s) : Inv s :=
  hs.invariant (fun _ ⟨cond, hc⟩ => hc ▸ Inv.start cond) fun _ _ _ _ h hst => h.next hst

/-- **No wakeup is lost between `sleep` and `wakeup`**, whether or not schedulers release the locks
of the processes that went to sleep. -/
theorem not_lost {rel : Bool} {s : Sleepers n} (hs : (system n rel).Reachable s) : ¬ s.Lost := by
  rintro ⟨hlk, hcond, -, p, hp, -⟩
  have h := inv_reachable hs
  have hpending := (h.proper p).pending hcond (.inr hp)
  rw [h.phase_none hlk] at hpending
  exact hpending

/-- Process 0 has gone to sleep and process 1 has woken it. -/
theorem not_lost_two : ∃ s : Sleepers 2, (system 2 true).Reachable s ∧ s.lk = none ∧ s.cond = true ∧
    s.stored = true ∧ s.early 0 = true ∧ s.pc 0 = .asleep ∧ ¬ s.Lost := by
  let ls : List (SleepOp 2) := [.acquire 0, .test 0, .sleepLock 0, .sleepRelease 0, .acquire 1, .make,
    .sched 0, .wakeup, .handOver 0, .scan, .scan, .wakeupDone, .release]
  obtain ⟨s, hs⟩ : ∃ s, System.execute (next true) (Sleepers.start false) ls = some s := ⟨_, rfl⟩
  have hr : (system 2 true).Reachable s := .run (.of_execute hs) (.init ⟨false, rfl⟩)
  cases hs
  exact ⟨_, hr, rfl, rfl, rfl, rfl, rfl, not_lost hr⟩

end Sleepers

end Xv6

import Xv6.Sched.Cpu

/-!
# Sched/Exclusion — can two CPUs run the same process?

They can: the process a scheduler switches to stays `RUNNABLE` in the table, because `p->state =
RUNNING` goes to `proc[NPROC]`, and once it has released its lock the next scheduler finds it
(`shared_reachable`).
-/

namespace Xv6

open Machinery Function Option

namespace Machine

variable {κ : Type} [DecidableEq κ]

/-! ## What a step can do -/

/-- The points at which a CPU holds the lock of `t` and is going to release it. -/
def holdsFor : CpuPc → Slot → Prop
  | .store u, t | .setProc u, t | .swtch u, t | .resumed u, t => u = t
  | _, _ => False

/-- The points at which the scheduler has picked `t`. -/
def selects : CpuPc → Slot → Prop
  | .scan _ _ u, t => u = some t
  | .chosen u, t => u = t
  | _, _ => False

/-- The points between the locking of `t` and `c->proc = t`. -/
def early : CpuPc → Slot → Prop
  | .store u, t | .setProc u, t => u = t
  | _, _ => False

theorem holdsFor_of_early {pc : CpuPc} {t : Slot} (h : early pc t) : holdsFor pc t := by
  cases pc <;> first | exact h | exact h.elim

/-- A process has been locked to be switched to, and its CPU has not come back since. -/
def dispatched : CpuPc → Prop
  | .store _ | .setProc _ | .swtch _ | .resumed _ | .running _ | .forking _ _ | .switched _ => True
  | _ => False

/-- The points at which a CPU runs `t`, from the locking of `t` on. -/
def runs : CpuPc → Slot → Prop
  | .store u, t | .setProc u, t | .swtch u, t | .resumed u, t | .running u, t | .forking u _, t => u = t
  | _, _ => False

/-- CPU `c` becomes `x` without taking or giving a lock. -/
structure Moves (s : Machine κ) (c : κ) (x : Cpu) : Prop where
  holds : ∀ t, holdsFor x.pc t → holdsFor (s.cpu c).pc t
  selects : ∀ t, selects x.pc t → selects (s.cpu c).pc t ∨ (s.table t).candidate = true
  early : ∀ t, early x.pc t → early (s.cpu c).pc t
  dispatched : dispatched x.pc → dispatched (s.cpu c).pc
  runs : x.pc = .panicked ∨ ∀ t, runs x.pc t ↔ runs (s.cpu c).pc t
  found : x.found = (s.cpu c).found
  proc : ∀ t, x.proc = some t → (s.cpu c).proc = some t ∨ (s.cpu c).pc = .setProc t

/-- Entries only become `RUNNABLE`, or pass between `UNUSED` and `USED`. -/
def Benign (tb tb' : SchedTable) : Prop :=
  ∀ t, (tb' t).state = (tb t).state ∨ (tb' t).state = .runnable ∨
    (tb t).state = .unused ∧ (tb' t).state ≠ .running

/-- What becomes of the table when CPU `c` comes to `pc`: nothing, or what a section does under a
lock that was free. -/
inductive Edit (s : Machine κ) (c : κ) : SchedTable → CpuPc → Prop
  | none {pc : CpuPc} (hpc : ∀ t np, pc = .forking t np → (s.cpu c).pc = .forking t np) :
      Edit s c s.table pc
  | wakeup (chan : ℕ) (i : Slot) (hl : s.lock i = none) :
      Edit s c (s.wakeupBody chan i).table (s.cpu c).pc
  | kill (pid : ℤ) (i : Slot) (hl : s.lock i = none) : Edit s c (s.killBody pid i).table (s.cpu c).pc
  | free (i : Slot) (hu : (s.table i).state = .unused) :
      Edit s c (update s.table i freedProc) (s.cpu c).pc
  | alloc (t i : Slot) (pid : ℤ) (hu : (s.table i).state = .unused) (hc : (s.cpu c).pc = .running t) :
      Edit s c (update s.table i { s.table i with state := .used, pid := pid }) (.forking t i)
  | start (t np : Slot) (hc : (s.cpu c).pc = .forking t np) :
      Edit s c (s.startBody np).table (.running t)

/-- What a process is that leaves its CPU by `yield`, `sleep` or `exit`. -/
def Leaves (p q : SchedProc) : Prop :=
  q = { p with state := .runnable }.addPriority ∨
    (∃ chan, q = { p with chan := chan, state := .sleeping }) ∨ q = { p with state := .zombie }

theorem Leaves.still {p q : SchedProc} (h : Leaves p q) : q.state ≠ .running := by
  obtain rfl | ⟨chan, rfl⟩ | rfl := h <;> nofun

/-- **What a step of CPU `c` can do.** -/
inductive Trans (s : Machine κ) (c : κ) (op : CpuOp) : Machine κ → Prop
  | quiet (tb : SchedTable) (x : Cpu) (past : ProcState) (pid : ℤ) (hx : Moves s c x)
      (ht : Benign s.table tb) (he : Edit s c tb x.pc) : Trans s c op ⟨tb, s.lock, update s.cpu c x, past, pid⟩
  | take (t : Slot) (ho : op = .go) (hc : (s.cpu c).pc = .chosen t) (hl : s.lock t = none) :
      Trans s c op { s with
        lock := update s.lock t (some c)
        cpu := update s.cpu c ⟨.store t, (s.cpu c).proc, (s.table t).state⟩ }
  | resume (t : Slot) (hc : (s.cpu c).pc = .resumed t) (hl : s.lock t = some c) :
      Trans s c op (((s.put t { s.table t with chan := 0 }).release t).goto c (.running t))
  | leave (t : Slot) (p : SchedProc) (hc : (s.cpu c).pc = .running t) (hl : s.lock t = none)
      (hp : Leaves (s.table t) p) :
      Trans s c op ({ s.put t p with lock := update s.lock t (some c) }.goto c (.switched t))

variable {c : κ} {i u : Slot} {k : Machine κ → Machine κ} {s t : Machine κ} {op : CpuOp}

theorem acquire_eq_some (h : s.acquire c i k = some t) :
    (s.lock i = none ∧ t = k { s with lock := update s.lock i (some c) }) ∨
      t = s.goto c .panicked := by
  unfold acquire at h
  split at h
  next hl => exact .inl ⟨hl, (some.inj h).symm⟩
  next d hl =>
    split at h
    next => exact .inr (some.inj h).symm
    next => cases h

theorem acquire_congr {k' : Machine κ → Machine κ}
    (h : ∀ u : Machine κ, u.table = s.table → k u = k' u) : s.acquire c i k = s.acquire c i k' := by
  unfold acquire
  split
  · exact congrArg some (h _ rfl)
  · rfl

omit [DecidableEq κ] in
theorem benign_refl (tb : SchedTable) : Benign tb tb := fun _ => .inl rfl

omit [DecidableEq κ] in
theorem benign_update {tb : SchedTable} {p : SchedProc}
    (h : p.state = (tb i).state ∨ p.state = .runnable ∨
      (tb i).state = .unused ∧ p.state ≠ .running) : Benign tb (update tb i p) := by
  intro t
  by_cases ht : t = i
  · subst ht; rwa [update_self]
  · rw [update_of_ne ht]; exact .inl rfl

omit [DecidableEq κ] in
theorem Benign.setAccumulator {tb tb' : SchedTable} (h : Benign tb tb') (i : Slot) :
    Benign tb (setAccumulator tb' i) := by
  intro t
  rw [setAccumulator_state]
  exact h t

omit [DecidableEq κ] in
theorem moves_goto {pc : CpuPc} (h : ∀ t, holdsFor pc t → holdsFor (s.cpu c).pc t)
    (hs : ∀ t, selects pc t → selects (s.cpu c).pc t ∨ (s.table t).candidate = true)
    (he : ∀ t, early pc t → early (s.cpu c).pc t)
    (hd : dispatched pc → dispatched (s.cpu c).pc) (hr : pc = .panicked ∨ ∀ t, runs pc t ↔ runs (s.cpu c).pc t) :
    Moves s c { s.cpu c with pc := pc } :=
  ⟨h, hs, he, hd, hr, rfl, fun _ => .inl⟩

theorem trans_goto {pc : CpuPc}
    (h : Moves s c { s.cpu c with pc := pc }) (hpc : ∀ t np, pc ≠ .forking t np) :
    Trans s c op (s.goto c pc) :=
  .quiet s.table _ s.past s.nextpid h (benign_refl _) (.none fun t np he => absurd he (hpc t np))

theorem trans_panicked (s : Machine κ) (c : κ) : Trans s c op (s.goto c .panicked) :=
  trans_goto (moves_goto (fun _ => False.elim) (fun _ => False.elim) (fun _ => False.elim)
    False.elim (.inl rfl)) nofun

theorem trans_section (tb : SchedTable) (x : Cpu) (pid : ℤ) (hx : Moves s c x) (ht : Benign s.table tb)
    (he : s.lock i = none → Edit s c tb x.pc)
    (hk : s.lock i = none → k { s with lock := update s.lock i (some c) } =
      ⟨tb, update (update s.lock i (some c)) i none, update s.cpu c x, s.past, pid⟩)
    (h : s.acquire c i k = some t) : Trans s c op t := by
  rcases acquire_eq_some h with ⟨hl, rfl⟩ | rfl
  · rw [hk hl, update_idem, ← hl, update_eq_self]
    exact .quiet tb x s.past pid hx ht (he hl)
  · exact trans_panicked s c

omit [DecidableEq κ] in
theorem moves_self (s : Machine κ) (c : κ) : Moves s c (s.cpu c) :=
  ⟨fun _ h => h, fun _ h => .inl h, fun _ h => h, fun h => h, .inr fun _ => Iff.rfl, rfl,
    fun _ h => .inl h⟩

theorem trans_wakeup {chan : ℕ}
    (h : s.acquire c i (fun u => (u.wakeupBody chan i).release i) = some t) : Trans s c op t := by
  refine trans_section (s.wakeupBody chan i).table (s.cpu c) s.nextpid (moves_self s c) ?_
    (.wakeup chan i) (fun _ => ?_) h
  · unfold wakeupBody
    split
    next => exact (benign_update (.inr (.inl rfl))).setAccumulator i
    next => exact benign_refl _
  · rw [update_eq_self]
    unfold wakeupBody
    dsimp only
    split <;> rfl

theorem trans_kill {pid : ℤ}
    (h : s.acquire c i (fun u => (u.killBody pid i).release i) = some t) : Trans s c op t := by
  refine trans_section (s.killBody pid i).table (s.cpu c) s.nextpid (moves_self s c) ?_
    (.kill pid i) (fun _ => ?_) h
  · unfold killBody
    dsimp only
    split
    next =>
      split
      next => exact benign_update (.inr (.inl rfl))
      next => exact benign_update (.inl rfl)
    next => exact benign_refl _
  · rw [update_eq_self]
    unfold killBody
    dsimp only
    split
    · split <;> rfl
    · rfl

theorem trans_touch (h : s.acquire c i (fun u => u.release i) = some t) : Trans s c op t :=
  trans_section s.table (s.cpu c) s.nextpid (moves_self s c) (benign_refl _)
    (fun _ => .none fun _ _ h => h) (fun _ => by rw [update_eq_self]; rfl) h

theorem trans_alloc {mem : Bool} (hc : (s.cpu c).pc = .running u)
    (h : s.acquire c i (fun v => (v.allocBody c u i mem).release i) = some t) : Trans s c op t := by
  by_cases hu : (s.table i).state = .unused
  · cases mem
    · refine trans_section (update s.table i freedProc) (s.cpu c) ((s.nextpid + 1).bmod (2 ^ 32))
        (moves_self s c) (benign_update (.inr (.inr ⟨hu, nofun⟩))) (fun _ => .free i hu)
        (fun _ => ?_) h
      rw [update_eq_self]
      simp only [allocBody, hu, if_true]
      rfl
    · refine trans_section (update s.table i { s.table i with state := .used, pid := s.nextpid })
        { s.cpu c with pc := .forking u i } ((s.nextpid + 1).bmod (2 ^ 32))
        (moves_goto (fun _ => False.elim) (fun _ => False.elim) (fun _ => False.elim)
          (fun _ => by rw [hc]; trivial) (.inr fun _ => by rw [hc]; rfl))
        (benign_update (.inr (.inr ⟨hu, nofun⟩))) (fun _ => .alloc u i _ hu hc) (fun _ => ?_) h
      simp only [allocBody, hu, if_true]
      rfl
  · refine trans_touch (i := i) ((acquire_congr fun v hv => ?_).trans h)
    simp [allocBody, hv, hu]

theorem trans_start {np : Slot} (hc : (s.cpu c).pc = .forking u np)
    (h : s.acquire c np (fun v => ((v.startBody np).release np).goto c (.running u)) = some t) :
    Trans s c op t := by
  refine trans_section (s.startBody np).table { s.cpu c with pc := .running u } s.nextpid
    (moves_goto (fun _ => False.elim) (fun _ => False.elim) (fun _ => False.elim)
      (fun _ => by rw [hc]; trivial) (.inr fun _ => by rw [hc]; rfl)) ?_ (fun _ => .start u np hc)
    (fun _ => rfl) h
  intro t
  by_cases ht : t = np
  · subst ht
    exact .inr (.inl (by simp [startBody]))
  · refine .inl ?_
    simp [startBody, put, ht, setAccumulator_state]

theorem trans_leave {f : SchedProc → SchedProc}
    (hc : (s.cpu c).pc = .running u) (hf : ∀ p, Leaves p (f p))
    (h : s.acquire c u (fun v => (v.put u (f (v.table u))).goto c (.switched u)) = some t) :
    Trans s c op t := by
  rcases acquire_eq_some h with ⟨hl, rfl⟩ | rfl
  · exact .leave u (f (s.table u)) hc hl (hf _)
  · exact trans_panicked s c

theorem scanStep_snd {p : SchedProc} {j t : Slot} {minAcc : ℤ} {toRun : Option Slot}
    (h : (scanStep p j minAcc toRun).2 = some t) : toRun = some t ∨ j = t ∧ p.candidate = true := by
  unfold scanStep at h
  split at h
  next hp => exact .inr ⟨some.inj h, hp.1⟩
  next => exact .inl h

theorem trans_go (h : s.go c = some t) : Trans s c .go t := by
  unfold go at h
  split at h
  next j minAcc toRun hc =>
    split at h
    next hj =>
      obtain rfl := some.inj h
      refine trans_goto (moves_goto (fun _ => False.elim) (fun u hu => ?_) (fun _ => False.elim)
        False.elim (.inr fun _ => by rw [hc]; rfl)) nofun
      rw [hc]
      rcases scanStep_snd hu with hu | ⟨rfl, hp⟩
      · exact .inl hu
      · exact .inr hp
    next =>
      split at h
      next => exact some.inj h ▸ trans_goto (moves_goto (fun _ => False.elim)
        (fun _ => nofun) (fun _ => False.elim) False.elim (.inr fun _ => by rw [hc]; rfl)) nofun
      next u =>
        obtain rfl := some.inj h
        refine trans_goto (moves_goto (fun _ => False.elim) (fun v hv => .inl ?_)
          (fun _ => False.elim) False.elim (.inr fun _ => by rw [hc]; rfl)) nofun
        rw [hc]
        exact congrArg some hv
  next u hc =>
    rcases acquire_eq_some h with ⟨hl, rfl⟩ | rfl
    · exact .take u rfl hc hl
    · exact trans_panicked s c
  next u hc =>
    obtain rfl := some.inj h
    refine .quiet s.table { s.cpu c with pc := .setProc u } .running s.nextpid
      (moves_goto ?_ (fun _ => False.elim) ?_ ?_ (.inr fun _ => ?_)) (benign_refl _) (.none nofun) <;>
      rw [hc]
    · exact fun _ h => h
    · exact fun _ h => h
    · exact fun h => h
    · rfl
  next u hc =>
    obtain rfl := some.inj h
    refine .quiet s.table _ s.past s.nextpid ⟨?_, fun _ => False.elim, fun _ => False.elim, ?_,
      .inr fun _ => ?_, rfl, fun v hv => .inr ?_⟩ (benign_refl _) (.none nofun) <;> rw [hc]
    · exact fun _ h => h
    · exact fun h => h
    · rfl
    · exact congrArg _ (some.inj hv)
  next u hc =>
    obtain rfl := some.inj h
    refine trans_goto (moves_goto ?_ (fun _ => False.elim) (fun _ => False.elim) ?_ (.inr fun _ => ?_))
      nofun <;> rw [hc]
    · exact fun _ h => h
    · exact fun h => h
    · rfl
  next u hc =>
    split at h
    next hl => exact some.inj h ▸ .resume u hc hl
    next => exact some.inj h ▸ trans_panicked s c
  next u hc =>
    obtain rfl := some.inj h
    exact .quiet s.table _ s.past s.nextpid ⟨fun _ => False.elim, fun _ => False.elim,
      fun _ => False.elim, False.elim, .inr fun _ => by rw [hc]; rfl, rfl, nofun⟩ (benign_refl _)
      (.none nofun)
  all_goals cases h

theorem trans_call (hc : (s.cpu c).pc = .running u) (h : s.call c u op = some t) : Trans s c op t := by
  unfold call at h
  split at h
  next =>
    exact trans_leave hc (f := fun p => { p with state := .runnable }.addPriority)
      (fun _ => .inl rfl) h
  next chan =>
    exact trans_leave hc (f := fun p => { p with chan := chan, state := .sleeping })
      (fun _ => .inr (.inl ⟨chan, rfl⟩)) h
  next =>
    split at h
    next => exact some.inj h ▸ trans_panicked s c
    next =>
      exact trans_leave hc (f := fun p => { p with state := .zombie }) (fun _ => .inr (.inr rfl)) h
  next => exact trans_kill h
  next => exact trans_touch h
  next => exact trans_alloc hc h
  all_goals cases h

/-- **Every step is one of the transitions.** -/
theorem trans_of_next (h : s.next c op = some t) : Trans s c op t := by
  unfold next at h
  split at h
  · exact trans_go h
  · split at h
    next ok hrel =>
      obtain rfl := some.inj h
      cases ok
      · exact trans_panicked s c
      · exact trans_goto (moves_goto (fun _ => False.elim) (fun _ => nofun) (fun _ => False.elim)
          False.elim (.inr fun _ => by rw [hrel]; rfl)) nofun
    next => cases h
  · split at h
    next => exact trans_wakeup h
    next => cases h
  · split at h
    next u hc => exact trans_call hc h
    next u np hc =>
      split at h
      next => exact trans_start hc h
      next => cases h
    next => cases h

/-! ## The process a scheduler locks is `RUNNABLE` -/

/-- `t` is `RUNNABLE`, or its lock is held by a CPU that will not release it. -/
def Settled (s : Machine κ) (t : Slot) : Prop :=
  (s.table t).state = .runnable ∨ s.lock t ≠ none ∧ ∀ c, ¬ holdsFor (s.cpu c).pc t

/-- What every step keeps, on any number of CPUs. -/
structure Invariant (s : Machine κ) : Prop where
  held : ∀ c t, holdsFor (s.cpu c).pc t → s.lock t = some c
  still : ∀ t, (s.table t).state ≠ .running
  picked : ∀ c t, selects (s.cpu c).pc t → Settled s t
  found : ∀ c, dispatched (s.cpu c).pc → (s.cpu c).found = .runnable

omit [DecidableEq κ] in
theorem candidate_iff (h : ∀ t, (s.table t).state ≠ .running) (t : Slot) :
    (s.table t).candidate = true ↔ (s.table t).state = .runnable := by
  simp [SchedProc.candidate, h t]

omit [DecidableEq κ] in
theorem boot_invariant : Invariant (boot : Machine κ) where
  held _ _ := False.elim
  still t := by
    by_cases ht : t = initproc
    · subst ht; simp [boot, bootTable]
    · simp [boot, bootTable, ht, freedProc]
  picked _ _ := nofun
  found _ := False.elim

namespace Invariant

variable {s : Machine κ} (hi : Invariant s) {c : κ}
include hi

theorem quiet {tb : SchedTable} {x : Cpu} {past : ProcState} {pid : ℤ} (hx : Moves s c x)
    (ht : Benign s.table tb) : Invariant ⟨tb, s.lock, update s.cpu c x, past, pid⟩ := by
  have hholds : ∀ d t, holdsFor (update s.cpu c x d).pc t → holdsFor (s.cpu d).pc t := by
    intro d t h
    by_cases hd : d = c
    · subst hd; rw [update_self] at h; exact hx.holds t h
    · rwa [update_of_ne hd] at h
  have hsettled : ∀ t, Settled s t → Settled ⟨tb, s.lock, update s.cpu c x, past, pid⟩ t := by
    rintro t (h | ⟨hl, h⟩)
    · refine .inl ?_
      rcases ht t with h' | h' | ⟨h', -⟩
      · exact h'.trans h
      · exact h'
      · rw [h] at h'; cases h'
    · exact .inr ⟨hl, fun d hd => h d (hholds d t hd)⟩
  constructor
  case held => exact fun d t h => hi.held d t (hholds d t h)
  case still =>
    intro t
    rcases ht t with h | h | ⟨-, h⟩
    · exact h ▸ hi.still t
    · exact h ▸ nofun
    · exact h
  case picked =>
    intro d t h
    refine hsettled t ?_
    by_cases hd : d = c
    · subst hd
      simp only [update_self] at h
      rcases hx.selects t h with h | h
      · exact hi.picked d t h
      · exact .inl ((candidate_iff hi.still t).1 h)
    · simp only [update_of_ne hd] at h
      exact hi.picked d t h
  case found =>
    intro d h
    by_cases hd : d = c
    · subst hd
      simp only [update_self] at h ⊢
      exact hx.found.trans (hi.found d (hx.dispatched h))
    · simp only [update_of_ne hd] at h ⊢
      exact hi.found d h

theorem take {t : Slot} (hc : (s.cpu c).pc = .chosen t) (hl : s.lock t = none) :
    Invariant { s with
      lock := update s.lock t (some c)
      cpu := update s.cpu c ⟨.store t, (s.cpu c).proc, (s.table t).state⟩ } := by
  constructor
  case held =>
    intro d u h
    by_cases hd : d = c
    · subst hd
      simp only [update_self] at h
      obtain rfl : t = u := h
      exact update_self ..
    · simp only [update_of_ne hd] at h
      have hu := hi.held d u h
      exact (update_of_ne (fun e => by rw [e, hl] at hu; cases hu) _ _).trans hu
  case still => exact hi.still
  case picked =>
    intro d u h
    by_cases hd : d = c
    · subst hd; simp only [update_self] at h; exact h.elim
    · simp only [update_of_ne hd] at h
      rcases hi.picked d u h with hr | ⟨hu, hn⟩
      · exact .inl hr
      · have hut : u ≠ t := fun e => hu (e ▸ hl)
        refine .inr ⟨by simpa [hut] using hu, fun e he => ?_⟩
        by_cases hec : e = c
        · subst hec; simp only [update_self] at he; exact hut (Eq.symm he)
        · simp only [update_of_ne hec] at he; exact hn e he
  case found =>
    intro d h
    by_cases hd : d = c
    · subst hd
      simp only [update_self]
      rcases hi.picked d t (by rw [hc]; rfl) with hr | ⟨hu, -⟩
      · exact hr
      · exact absurd hl hu
    · simp only [update_of_ne hd] at h ⊢
      exact hi.found d h

theorem resume {t : Slot} (hc : (s.cpu c).pc = .resumed t) (hl : s.lock t = some c) :
    Invariant (((s.put t { s.table t with chan := 0 }).release t).goto c (.running t)) := by
  have hstate : ∀ u, (update s.table t { s.table t with chan := 0 } u).state =
      (s.table u).state := by
    intro u
    by_cases hu : u = t
    · subst hu; rw [update_self]
    · rw [update_of_ne hu]
  constructor
  case held =>
    intro d u h
    by_cases hd : d = c
    · subst hd; simp only [goto, update_self] at h; exact h.elim
    · simp only [goto, update_of_ne hd] at h
      have hu := hi.held d u h
      refine (update_of_ne (fun e => ?_) _ _).trans hu
      rw [e, hl] at hu
      exact hd (some.inj hu).symm
  case still => exact fun u => hstate u ▸ hi.still u
  case picked =>
    intro d u h
    by_cases hd : d = c
    · subst hd; simp only [goto, update_self] at h; exact h.elim
    · simp only [goto, update_of_ne hd] at h
      rcases hi.picked d u h with hr | ⟨hu, hn⟩
      · exact .inl ((hstate u).trans hr)
      · have hut : u ≠ t := fun e => hn c (by rw [hc]; exact e.symm)
        refine .inr ⟨by simpa [goto, release, put, hut] using hu, fun e he => ?_⟩
        by_cases hec : e = c
        · subst hec; simp only [goto, update_self] at he; exact he.elim
        · simp only [goto, update_of_ne hec] at he; exact hn e he
  case found =>
    intro d h
    by_cases hd : d = c
    · subst hd
      simp only [goto, update_self]
      exact hi.found d (by rw [hc]; trivial)
    · simp only [goto, update_of_ne hd] at h ⊢
      exact hi.found d h

theorem leave {t : Slot} {p : SchedProc} (hc : (s.cpu c).pc = .running t) (hl : s.lock t = none)
    (hp : p.state ≠ .running) :
    Invariant ({ s.put t p with lock := update s.lock t (some c) }.goto c (.switched t)) := by
  have hfree : ∀ d, ¬ holdsFor (s.cpu d).pc t := by
    intro d hd
    have hu := hi.held d t hd
    rw [hl] at hu
    cases hu
  have hback : ∀ d u, holdsFor (update s.cpu c { s.cpu c with pc := .switched t } d).pc u →
      holdsFor (s.cpu d).pc u := by
    intro d u h
    by_cases hd : d = c
    · subst hd; rw [update_self] at h; exact h.elim
    · rwa [update_of_ne hd] at h
  constructor
  case held =>
    intro d u h
    have h := hback d u h
    exact (update_of_ne (fun e : u = t => hfree d (e ▸ h)) _ _).trans (hi.held d u h)
  case still =>
    intro u
    change (update s.table t p u).state ≠ .running
    by_cases hu : u = t
    · subst hu; rwa [update_self]
    · rw [update_of_ne hu]; exact hi.still u
  case picked =>
    intro d u h
    by_cases hu : u = t
    · subst hu
      exact .inr ⟨by simp [goto, put], fun e he => hfree e (hback e u he)⟩
    · by_cases hd : d = c
      · subst hd; simp only [goto, update_self] at h; exact h.elim
      · simp only [goto, put, update_of_ne hd] at h
        rcases hi.picked d u h with hr | ⟨hlu, hn⟩
        · exact .inl (by simpa [goto, put, hu] using hr)
        · exact .inr ⟨by simpa [goto, put, hu] using hlu, fun e he => hn e (hback e u he)⟩
  case found =>
    intro d h
    by_cases hd : d = c
    · subst hd
      simp only [goto, put, update_self]
      exact hi.found d (by rw [hc]; trivial)
    · simp only [goto, put, update_of_ne hd] at h ⊢
      exact hi.found d h

theorem trans {op : CpuOp} {t : Machine κ} (h : Trans s c op t) : Invariant t := by
  cases h with
  | quiet tb x past pid hx ht _ => exact hi.quiet hx ht
  | take t _ hc hl => exact hi.take hc hl
  | resume t hc hl => exact hi.resume hc hl
  | leave t p hc hl hp => exact hi.leave hc hl hp.still

end Invariant

theorem invariant_reachable (h : (system κ).Reachable s) : Invariant s := by
  refine h.invariant (I := Invariant) ?_ fun _ _ _ _ hi hst => hi.trans (trans_of_next hst)
  rintro _ rfl
  exact boot_invariant

/-! ## One process, one CPU -/

/-- No two CPUs run the same process. -/
def Exclusive (s : Machine κ) : Prop :=
  ∀ c d t, (s.cpu c).proc = some t → (s.cpu d).proc = some t → c = d

/-- What a scheduler switches to was `RUNNABLE` when its lock was acquired. -/
def FoundRunnable (s : Machine κ) : Prop :=
  ∀ c, dispatched (s.cpu c).pc → (s.cpu c).found = .runnable

/-- A scheduler goes on to lock the process it has picked only while no other CPU runs it. -/
def Apart (s : Machine κ) (l : κ × CpuOp) : Prop :=
  ∀ t, l.2 = .go → (s.cpu l.1).pc = .chosen t → ∀ d, d ≠ l.1 → (s.cpu d).proc ≠ some t

/-- What `Apart` steps keep. -/
structure Separate (s : Machine κ) : Prop where
  exclusive : Exclusive s
  reserved : ∀ c t, early (s.cpu c).pc t → ∀ d, d ≠ c → (s.cpu d).proc ≠ some t

namespace Separate

omit [DecidableEq κ] in
theorem boot : Separate (boot : Machine κ) := ⟨fun _ _ _ => nofun, fun _ _ => False.elim⟩

variable {s t : Machine κ}

/-- The CPUs' view after one of them has moved without coming to run a process it had not locked. -/
theorem move (hs : Separate s) (hi : Invariant s) {c : κ} {x : Cpu} (ht : t.cpu = update s.cpu c x)
    (hp : ∀ u, x.proc = some u → (s.cpu c).proc = some u ∨ (s.cpu c).pc = .setProc u)
    (he : ∀ u, early x.pc u → ∀ d, d ≠ c → (s.cpu d).proc ≠ some u) : Separate t := by
  -- what `c` runs now, no other CPU runs
  have hmine : ∀ d u, d ≠ c → x.proc = some u → (s.cpu d).proc ≠ some u := by
    intro d u hd hu hdu
    rcases hp u hu with h | h
    · exact hd (hs.exclusive d c u hdu h)
    · exact hs.reserved c u (by rw [h]; rfl) d hd hdu
  constructor
  case exclusive =>
    intro d e u
    rw [ht]
    by_cases hd : d = c <;> by_cases he : e = c
    · exact fun _ _ => hd.trans he.symm
    · subst hd
      rw [update_self, update_of_ne he]
      exact fun h h' => absurd h' (hmine e u he h)
    · subst he
      rw [update_self, update_of_ne hd]
      exact fun h h' => absurd h (hmine d u hd h')
    · rw [update_of_ne hd, update_of_ne he]
      exact hs.exclusive d e u
  case reserved =>
    intro d u hdu e hed
    rw [ht] at hdu ⊢
    by_cases hd : d = c
    · subst hd
      rw [update_self] at hdu
      rw [update_of_ne hed]
      exact he u hdu e hed
    · rw [update_of_ne hd] at hdu
      by_cases hec : e = c
      · subst hec
        rw [update_self]
        intro hu
        rcases hp u hu with h | h
        · exact hs.reserved d u hdu e hed h
        · -- both hold the lock of `u`
          have h1 := hi.held e u (by rw [h]; rfl)
          have h2 := hi.held d u (holdsFor_of_early hdu)
          rw [h1] at h2
          exact hed (some.inj h2)
      · rw [update_of_ne hec]
        exact hs.reserved d u hdu e hed

theorem trans (hs : Separate s) (hi : Invariant s) {c : κ} {op : CpuOp}
    (ha : Apart s (c, op)) (h : Trans s c op t) : Separate t := by
  cases h with
  | quiet tb x past pid hx _ _ =>
    exact hs.move hi rfl hx.proc fun u hu => hs.reserved c u (hx.early u hu)
  | take u ho hc _ =>
    refine hs.move hi rfl (fun _ => .inl) fun v hv => ?_
    obtain rfl : u = v := hv
    exact ha u ho hc
  | resume u _ _ => exact hs.move hi rfl (fun _ => .inl) fun _ => False.elim
  | leave u p _ _ _ => exact hs.move hi rfl (fun _ => .inl) fun _ => False.elim

end Separate

theorem separate_reachable (h : ((system κ).restrict Apart).Reachable s) : Separate s := by
  refine h.invariant (I := Separate) ?_ fun s l t hr hs hst => ?_
  · rintro _ rfl
    exact .boot
  · exact hs.trans (invariant_reachable hr.of_restrict) hst.1 (trans_of_next hst.2)

/-! ## Any two CPUs can run the same process

Two schedulers dispatch one after the other, and nothing else happens. -/

/-- The scan of the first `k` entries. -/
def scanUpTo (tb : SchedTable) : ℕ → ℤ × Option Slot
  | 0 => (INT_MAX, none)
  | k + 1 =>
    let r := scanUpTo tb k
    if h : k < NPROC then scanStep (tb ⟨k, h⟩) ⟨k, h⟩ r.1 r.2 else r

theorem scan_run {k : ℕ} (hs : (system κ).Reachable (s.goto c scanStart)) (hk : k ≤ NPROC) :
    (system κ).Reachable (s.goto c (.scan k (scanUpTo s.table k).1 (scanUpTo s.table k).2)) := by
  induction k with
  | zero => exact hs
  | succ k ih =>
    refine (ih (by omega)).step (l := (c, .go)) ?_
    change next _ _ _ = _
    have hlt : k < NPROC := hk
    simp [next, go, scanUpTo, hlt, goto]

theorem dispatch_reachable {t : Slot} {m : ℤ}
    (hs : (system κ).Reachable s) (hpc : (s.cpu c).pc = scanStart)
    (hscan : scanUpTo s.table NPROC = (m, some t)) (hl : s.lock t = none)
    (hchan : (s.table t).chan = 0) : (system κ).Reachable { s with
      cpu := update s.cpu c ⟨.running t, some t, (s.table t).state⟩
      past := .running } := by
  have hself : s.goto c scanStart = s := by rw [goto, ← hpc, update_eq_self]
  have h0 := scan_run (c := c) (s := s) (hself.symm ▸ hs) le_rfl
  rw [hscan] at h0
  have hput : { s.table t with chan := 0 } = s.table t := by rw [← hchan]
  have h1 : (system κ).Reachable (s.goto c (.chosen t)) := by
    refine h0.step (l := (c, .go)) ?_
    change next _ _ _ = _
    simp [next, go, goto]
  have h2 : (system κ).Reachable { s with
      lock := update s.lock t (some c)
      cpu := update s.cpu c ⟨.store t, (s.cpu c).proc, (s.table t).state⟩ } := by
    refine h1.step (l := (c, .go)) ?_
    change next _ _ _ = _
    simp [next, go, goto, acquire, hl]
  have h3 : (system κ).Reachable { s with
      lock := update s.lock t (some c)
      cpu := update s.cpu c ⟨.setProc t, (s.cpu c).proc, (s.table t).state⟩
      past := .running } := by
    refine h2.step (l := (c, .go)) ?_
    change next _ _ _ = _
    simp [next, go, goto]
  have h4 : (system κ).Reachable { s with
      lock := update s.lock t (some c)
      cpu := update s.cpu c ⟨.swtch t, some t, (s.table t).state⟩
      past := .running } := by
    refine h3.step (l := (c, .go)) ?_
    change next _ _ _ = _
    simp [next, go]
  have h5 : (system κ).Reachable { s with
      lock := update s.lock t (some c)
      cpu := update s.cpu c ⟨.resumed t, some t, (s.table t).state⟩
      past := .running } := by
    refine h4.step (l := (c, .go)) ?_
    change next _ _ _ = _
    simp [next, go, goto]
  refine h5.step (l := (c, .go)) ?_
  change next _ _ _ = _
  have hlock : update s.lock t none = s.lock := by rw [← hl, update_eq_self]
  simp [next, go, goto, put, release, hput, hlock]

theorem scan_bootTable : scanUpTo bootTable NPROC = (-1, some initproc) := by decide +kernel

theorem shared_reachable {d : κ} (h : c ≠ d) :
    ∃ s : Machine κ, (system κ).Reachable s ∧ (s.cpu c).proc = some initproc ∧
      (s.cpu d).proc = some initproc := by
  have h1 := dispatch_reachable (s := boot) (c := c) (.init rfl) rfl scan_bootTable rfl
    (by simp [boot, bootTable, freedProc])
  have h2 := dispatch_reachable (c := d) h1
    (by simp only [update_of_ne h.symm]; rfl) scan_bootTable rfl
    (by simp [boot, bootTable, freedProc])
  exact ⟨_, h2, by simp [update_of_ne h], by simp⟩

/-- Two CPUs run the first process. -/
theorem not_exclusive_two : ¬ ∀ s, (system (Fin 2)).Reachable s → Exclusive s := by
  obtain ⟨s, hs, h0, h1⟩ := shared_reachable (c := (0 : Fin 2)) (d := 1) (by decide)
  intro h
  exact absurd (h s hs 0 1 initproc h0 h1) (by decide)

/-- **No process is dispatched twice exactly on one CPU.**  On `n` CPUs every reachable state is
exclusive, and every dispatched process was found `RUNNABLE`, iff `n ≤ 1`; and on any number of CPUs
both hold along every run in which a scheduler locks the process it has picked only while no other
CPU runs it. -/
theorem exclusive_iff (n : ℕ) :
    ((∀ s, (system (Fin n)).Reachable s → Exclusive s ∧ FoundRunnable s) ↔ n ≤ 1) ∧
      ∀ s, ((system (Fin n)).restrict Apart).Reachable s → Exclusive s ∧ FoundRunnable s := by
  refine ⟨⟨fun h => ?_, fun hn s hs => ⟨fun c d _ _ _ => ?_, (invariant_reachable hs).found⟩⟩,
    fun s hs => ⟨(separate_reachable hs).exclusive, (invariant_reachable hs.of_restrict).found⟩⟩
  · by_contra hn
    have h01 : (⟨0, by omega⟩ : Fin n) ≠ ⟨1, by omega⟩ := by simp
    obtain ⟨s, hs, h0, h1⟩ := shared_reachable h01
    exact h01 ((h s hs).1 _ _ _ h0 h1)
  · exact Fin.ext (by omega)

end Machine

end Xv6

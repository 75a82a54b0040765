import Xv6.Proc.Clone

/-!
# Proc/Pids — the pids of the processes there are

`allocpid` increments an `int` and compares it with nothing.  The pids in use are distinct and
positive as long as the next one is whenever a process is made; after 2³² calls of `fork` they are
not.
-/

namespace Xv6

open Machinery Function

namespace Kernel

variable {im : Image} {k k' : Kernel} {p q np : Slot} {op : Op} {r : Option ℤ}

/-- The entry `q` is not `UNUSED`. -/
def InUse (k : Kernel) (q : Slot) : Prop := (k.proc q).state ≠ .unused

/-- A pid is positive and designates one process. -/
structure DistinctPids (k : Kernel) : Prop where
  pos : ∀ q, k.InUse q → 0 < (k.proc q).pid
  inj : ∀ p q, k.InUse p → k.InUse q → (k.proc p).pid = (k.proc q).pid → p = q

/-- The next pid is positive, and no process has it. -/
def FreshPid (k : Kernel) : Prop := 0 < k.nextpid ∧ ∀ q, k.InUse q → (k.proc q).pid ≠ k.nextpid

def Bears (k : Kernel) : Op → Prop
  | .userinit => True
  | .fork p => k.ForkFits p
  | _ => False

/-- The entry `q` has the process that it had. -/
def SameProcess (k k' : Kernel) (q : Slot) : Prop :=
  (k'.InUse q ↔ k.InUse q) ∧ (k.InUse q → (k'.proc q).pid = (k.proc q).pid)

theorem SameProcess.of_eq (h : k'.proc q = k.proc q) : SameProcess k k' q :=
  ⟨by rw [InUse, h, InUse], fun _ => by rw [h]⟩

theorem SameProcess.of_touch (h : AllTouch k.Acts k k') (q : Slot) : SameProcess k k' q := by
  refine ⟨?_, fun _ => (h q).pid⟩
  rcases (h q).state with he | ⟨ha, hb⟩
  · rw [InUse, he, InUse]
  · refine iff_of_true (fun hu => ?_) fun hu => ?_
    · rw [hu] at hb
      exact hb.elim nofun (·.elim nofun nofun)
    · exact ha.elim (·.elim (nomatch hu.symm.trans ·) (nomatch hu.symm.trans ·)) (nomatch hu.symm.trans ·)

theorem SameProcess.of_exit {n : ℤ} {va : ℕ} {junk : Bytes 32}
    (hst : (system im).step k (.exit p n va junk, r) k') (q : Slot) : SameProcess k k' q := by
  have hp : k.InUse p := fun hu => nomatch hu.symm.trans hst.1.1
  obtain ⟨k1, buf, htouch, rfl⟩ := exit_step_eq hst
  by_cases hq : q = p
  · subst hq
    rw [SameProcess, InUse, become_proc_self]
    exact ⟨iff_of_true nofun hp, fun _ => (htouch q).pid⟩
  · have hsame := SameProcess.of_touch (fun q => ⟨(htouch q).pid, (htouch q).msg, (htouch q).xstate,
      (htouch q).state.imp_right fun h => ⟨h.1.elim False.elim .inr, h.2⟩, (htouch q).frame⟩) q
    rw [SameProcess, InUse, become_proc_of_ne hq]
    exact hsame

/-- A process is made in the entry `np`. -/
structure Birth (k : Kernel) (np : Slot) (k' : Kernel) : Prop where
  fresh : ¬ k.InUse np
  inUse : k'.InUse np
  pid : (k'.proc np).pid = k.nextpid
  rest : ∀ q ≠ np, SameProcess k k' q

theorem Child.birth {old ptf : ℕ} {c : ℤ} (h : Child k p np old ptf c k') : Birth k np k' := by
  have hun := unused_of_firstUnused h.first
  have hstate := h.state
  obtain ⟨σ, tf, root, hk', -⟩ := h.made
  refine ⟨not_not.2 hun, fun hu => (nomatch hstate.symm.trans hu), ?_, fun q hq => .of_eq ?_⟩
  · rw [hk']
    simp only [dupped, forked, update_self]
  · rw [hk']
    simp only [dupped, forked, update_of_ne hq]

theorem birth_started (hnp : k.firstUnused = some np) (σ : Phys) (tf root : ℕ) :
    Birth k np (k.started σ np tf root) := by
  refine ⟨not_not.2 (unused_of_firstUnused hnp), ?_, ?_, fun q hq => .of_eq (update_of_ne hq _ _)⟩
  · rw [InUse, started_proc_self]
    nofun
  · rw [started_proc_self]
    rfl

theorem Released.sameProcess (h : Released k k') (q : Slot) : SameProcess k k' q := by
  obtain ⟨np, σ, hnp, -, rfl⟩ := h.eq
  have hun := unused_of_firstUnused hnp
  by_cases hq : q = np
  · subst hq
    simp only [SameProcess, InUse, update_self]
    exact ⟨iff_of_false (absurd rfl) (absurd hun), fun hu => absurd hun hu⟩
  · exact .of_eq (update_of_ne hq _ _)

/-- **A step makes a process with the next pid, or leaves all processes what they are.** -/
theorem birth_or_same (hk : (live im).Reachable k) (hst : (live im).step k (op, r) k') :
    (k.Bears op → ∃ np, Birth k np k') ∧ (¬ k.Bears op → ∀ q, SameProcess k k' q) := by
  obtain ⟨hcode, hst⟩ := hst
  by_cases hop : op.Marks
  · cases op with
    | userinit =>
      have hI : Inv im k := (inv_or_stuck hk).elim (·.1) fun hs => absurd hst.1.2 hs.booted.2.2
      obtain ⟨σ, np, tf, root, hnp, rfl, -⟩ := userinit_step hI hst
      exact ⟨fun _ => ⟨np, birth_started hnp σ tf root⟩, fun hb => absurd trivial hb⟩
    | fork p =>
      have hI := inv_of_usesFiles hk hst.1 hcode trivial
      have hp : k.InUse p := fun hu => nomatch hu.symm.trans hst.1.1
      obtain ⟨old, va, hold, -⟩ := hcode p rfl
      obtain ⟨ptf, hptf, -⟩ := (hI.procs p).space old hold
      obtain ⟨c, -, hfits, hnot, -⟩ := ((fork_spec hI hp hold hptf).map some).of_ok hst.2
      refine ⟨fun hb => ?_, fun hb q => ?_⟩
      · obtain ⟨np, hchild⟩ := hfits hb
        exact ⟨np, hchild.birth⟩
      · rcases (hnot hb).2 with ⟨-, rfl⟩ | hrel
        · exact .of_eq rfl
        · exact hrel.sameProcess q
    | exit p n va junk => exact ⟨False.elim, fun _ => .of_exit hst⟩
    | _ => exact absurd hop id
  · refine ⟨fun hb => ?_, fun _ => .of_touch (step_touches hst hop)⟩
    cases op with
    | userinit | fork => exact absurd trivial hop
    | _ => exact False.elim hb

theorem DistinctPids.same (h : DistinctPids k) (hs : ∀ q, SameProcess k k' q) : DistinctPids k' where
  pos q hq := by
    have hu := (hs q).1.1 hq
    rw [(hs q).2 hu]
    exact h.pos q hu
  inj p q hp hq he := by
    have hup := (hs p).1.1 hp
    have huq := (hs q).1.1 hq
    rw [(hs p).2 hup, (hs q).2 huq] at he
    exact h.inj p q hup huq he

theorem Birth.distinctPids_iff (hb : Birth k np k') (h : DistinctPids k) : DistinctPids k' ↔ k.FreshPid := by
  have hold : ∀ {q}, q ≠ np → k'.InUse q → k.InUse q ∧ (k'.proc q).pid = (k.proc q).pid := fun hq hu =>
    have hu' := (hb.rest _ hq).1.1 hu
    ⟨hu', (hb.rest _ hq).2 hu'⟩
  constructor
  · refine fun h' => ⟨hb.pid ▸ h'.pos np hb.inUse, fun q hq he => ?_⟩
    have hne : q ≠ np := fun he => hb.fresh (he ▸ hq)
    have hpid := (hb.rest q hne).2 hq
    exact hne (h'.inj q np ((hb.rest q hne).1.2 hq) hb.inUse (by rw [hpid, hb.pid, he]))
  · rintro ⟨hpos, hfresh⟩
    refine ⟨fun q hq => ?_, fun p q hp hq he => ?_⟩
    · by_cases hne : q = np
      · rw [hne, hb.pid]
        exact hpos
      · obtain ⟨hu, hpid⟩ := hold hne hq
        rw [hpid]
        exact h.pos q hu
    · by_cases hpn : p = np
      · by_cases hqn : q = np
        · rw [hpn, hqn]
        · obtain ⟨hu, hpid⟩ := hold hqn hq
          rw [hpn, hb.pid, hpid] at he
          exact absurd he.symm (hfresh q hu)
      · obtain ⟨hu, hpid⟩ := hold hpn hp
        by_cases hqn : q = np
        · rw [hqn, hb.pid, hpid] at he
          exact absurd he (hfresh p hu)
        · obtain ⟨hu', hpid'⟩ := hold hqn hq
          rw [hpid, hpid'] at he
          exact h.inj p q hu hu' he

theorem distinctPids_step_iff (hk : (live im).Reachable k) (h : DistinctPids k)
    (hst : (live im).step k (op, r) k') : DistinctPids k' ↔ (k.Bears op → k.FreshPid) := by
  obtain ⟨hbirth, hsame⟩ := birth_or_same hk hst
  by_cases hb : k.Bears op
  · obtain ⟨np, hnp⟩ := hbirth hb
    rw [hnp.distinctPids_iff h]
    exact ⟨fun hf _ => hf, fun hf => hf hb⟩
  · exact iff_of_true (h.same (hsame hb)) fun hb' => absurd hb' hb

/-- **The processes have distinct positive pids in every run in which each process that is made finds the
next pid positive and not in use**, and only in those. -/
theorem pids_distinct (im : Image) :
    (∀ k, ((live im).restrict fun k l => k.Bears l.1 → k.FreshPid).Reachable k → DistinctPids k) ∧
    ∀ k, (live im).Reachable k → DistinctPids k → ∀ l k', (live im).step k l k' →
      (DistinctPids k' ↔ (k.Bears l.1 → k.FreshPid)) := by
  refine ⟨fun k hk => ?_, fun k hk h l k' hst => distinctPids_step_iff hk h hst⟩
  refine hk.invariant (fun k ⟨mem, hmem⟩ => ?_) fun k l k' hk h hst =>
    (distinctPids_step_iff hk.of_restrict h hst.2).2 hst.1
  subst hmem
  exact ⟨fun q hq => absurd rfl hq, fun p q hp => absurd rfl hp⟩

/-! ## The first process forks -/

section Alone

variable {pid : ℤ} {tf root : ℕ}

theorem Alone.eq_initSlot (h : Alone 1 pid tf root k) (hq : k.InUse q) : q = initSlot := by
  by_contra hne
  rw [InUse, h.proc, update_of_ne hne] at hq
  exact hq rfl

theorem Alone.distinctPids (h : Alone 1 pid tf root k) : DistinctPids k := by
  refine ⟨fun q hq => ?_, fun p q hp hq _ => (h.eq_initSlot hp).trans (h.eq_initSlot hq).symm⟩
  rw [h.eq_initSlot hq, h.proc_init]
  exact one_pos

theorem Alone.inUse (h : Alone 1 pid tf root k) : k.InUse initSlot := by
  rw [InUse, h.proc_init]
  nofun

theorem Alone.forks (h : Alone 1 pid tf root k) : ∃ r k', (live roomyImage).step k (.fork initSlot, r) k' := by
  have htf : (k.proc initSlot).trapframe = some tf := by
    rw [h.proc_init]
    rfl
  have hfiles : ∀ fd f, (k.proc initSlot).ofile fd ≠ some f := fun fd f => by
    rw [h.proc_init]
    nofun
  obtain ⟨r, k', hrun, -⟩ := (fork_spec h.inv h.inUse h.pagetable htf).exists_ok
    fun e ⟨_, fd, f, hf, _⟩ => hfiles fd f hf
  exact ⟨some r, k', fun p hp => Option.some.inj hp ▸ h.hasCode, h.inUser, Exec.bind_ok hrun⟩

end Alone

/-- The pids have come round when the first process, whose pid is 1, forks: the child has pid 1. -/
theorem pids_not_distinct : ∃ k r k' np, (live roomyImage).Reachable k ∧ DistinctPids k ∧
    (live roomyImage).step k (.fork initSlot, r) k' ∧ np ≠ initSlot ∧ k'.InUse initSlot ∧ k'.InUse np ∧
    (k'.proc initSlot).pid = 1 ∧ (k'.proc np).pid = 1 ∧ ¬ DistinctPids k' := by
  obtain ⟨k, tf, root, hk, ha⟩ := exists_alone (2 ^ 32 - 1)
  have hpid : k.nextpid = 1 := ha.nextpid
  obtain ⟨r, k', hst⟩ := ha.forks
  obtain ⟨np, hb⟩ := (birth_or_same hk hst).1 (Sys.forkFits_of_alone ha)
  have hne : np ≠ initSlot := fun he => hb.fresh (he ▸ ha.inUse)
  obtain ⟨hsame, hkeep⟩ := hb.rest initSlot hne.symm
  have hinit : (k'.proc initSlot).pid = 1 := by
    rw [hkeep ha.inUse, ha.proc_init]
    rfl
  have hchild : (k'.proc np).pid = 1 := hb.pid.trans hpid
  refine ⟨k, r, k', np, hk, ha.distinctPids, hst, hne, hsame.2 ha.inUse, hb.inUse, hinit, hchild, fun h => ?_⟩
  exact hne (h.inj np initSlot hb.inUse (hsame.2 ha.inUse) (hchild.trans hinit.symm))

/-- The first process forks for the first time. -/
theorem pids_distinct_two : ∃ k r k', (live roomyImage).Reachable k ∧ DistinctPids k ∧
    (live roomyImage).step k (.fork initSlot, r) k' ∧ k.Bears (.fork initSlot) ∧ DistinctPids k' := by
  obtain ⟨k, tf, root, hk, hi⟩ := exists_initRuns lenient_live
  have ha := hi.alone
  obtain ⟨r, k', hst⟩ := ha.forks
  refine ⟨k, r, k', hk, ha.distinctPids, hst, Sys.forkFits_of_alone ha,
    ((pids_distinct roomyImage).2 k hk ha.distinctPids _ k' hst).2 fun _ => ?_⟩
  refine ⟨by rw [ha.nextpid]; norm_num, fun q hq he => ?_⟩
  rw [ha.eq_initSlot hq, ha.proc_init, ha.nextpid] at he
  have hone : (1 : ℤ) = 2 := he
  omega

end Kernel

end Xv6

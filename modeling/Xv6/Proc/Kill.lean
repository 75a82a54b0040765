import Xv6.Proc.Run

/-!
# Proc/Kill — `kill` and the unused entries of the process table

An unused entry has pid 0, so `kill(0)` finds one and marks it: it returns 0 though no process has
this pid, and the next process that gets the entry starts out killed.
-/

namespace Xv6

open Machinery Function

namespace Kernel

variable {im : Image} {k k' : Kernel} {p : Slot} {pid : ℤ}

theorem target_eq_none (h : k.target pid = none) (q : Slot) : (k.proc q).pid ≠ pid := fun hq => by
  have := List.find?_eq_none.1 h q (List.mem_finRange q)
  exact this (decide_eq_true hq)

theorem pid_of_target {q : Slot} (h : k.target pid = some q) : (k.proc q).pid = pid :=
  of_decide_eq_true (List.find?_some h :)

/-- `kill(0)` finds an unused entry first. -/
def HitsUnused (k : Kernel) : Op → Prop
  | .kill _ pid => pid = 0 ∧ ∃ q, k.target 0 = some q ∧ (k.proc q).state = .unused
  | _ => False

theorem Tidy.sparesUnused {b : Prop} (h : Tidy b k) {op : Op} (ho : ¬ k.HitsUnused op) :
    k.SparesUnused op := by
  cases op with
  | kill p pid =>
    intro q hq hu
    have hpid : pid = 0 := (pid_of_target hq).symm.trans ((h q).unused hu).1.pid
    subst hpid
    exact ho ⟨rfl, q, hq, hu⟩
  | _ => trivial

/-- The runs in which `kill(0)` finds no unused entry. -/
def careful (im : Image) : System Kernel (Op × Option ℤ) :=
  (system im).restrict fun k l => ¬ k.HitsUnused l.1

theorem tidy_of_careful (h : (careful im).Reachable k) : Tidy True k := by
  refine h.invariant (fun k hk => ?_) fun k l k' _ hI hst => ?_
  · obtain ⟨mem, rfl⟩ := hk
    exact tidy_kinit True im mem
  · exact (perform_tidies hI hst.2.1 fun _ => hI.sparesUnused hst.1).of_ok hst.2.2

/-- Every unused entry is clean, and not killed. -/
def UnusedClean (k : Kernel) : Prop :=
  ∀ p, (k.proc p).state = .unused → Clean (k.proc p) ∧ (k.proc p).killed = false

/-- `kill(pid)` has returned `r`: it marks a process with this pid, or changes nothing. -/
structure KillExact (k : Kernel) (pid : ℤ) (r : Option ℤ) (k' : Kernel) : Prop where
  found : r = some 0 ↔ ∃ p, (k.proc p).state ≠ .unused ∧ (k.proc p).pid = pid
  marks : r = some 0 → ∃ p, (k.proc p).state ≠ .unused ∧ (k.proc p).pid = pid ∧
    k' = { k with proc := update k.proc p (marked (k.proc p)) }
  fails : r ≠ some 0 → r = some (-1) ∧ k' = k

theorem Tidy.unusedClean (h : Tidy True k) : UnusedClean k := fun p hu =>
  ⟨((h p).unused hu).1, ((h p).unused hu).2 trivial⟩

theorem kill_step {r : Option ℤ} (hst : (system im).step k (.kill p pid, r) k') :
    (k.target pid = none ∧ r = some (-1) ∧ k' = k) ∨ ∃ q, k.target pid = some q ∧ r = some 0 ∧
      k' = { k with proc := update k.proc q (marked (k.proc q)) } := by
  have hrun : perform im (.kill p pid) k = .ok (r, k') := hst.2
  rw [perform, Exec.bind_ok (kill_run k pid)] at hrun
  cases ht : k.target pid with
  | none =>
    rw [ht] at hrun
    obtain ⟨rfl, rfl⟩ := Prod.mk.inj (Except.ok.inj hrun)
    exact .inl ⟨rfl, rfl, rfl⟩
  | some q =>
    rw [ht] at hrun
    obtain ⟨rfl, rfl⟩ := Prod.mk.inj (Except.ok.inj hrun)
    exact .inr ⟨q, rfl, rfl, rfl⟩

theorem kill_step_of_target {q : Slot} (hp : k.InUser p) (ht : k.target pid = some q) :
    (system im).step k (.kill p pid, some 0)
      { k with proc := update k.proc q (marked (k.proc q)) } := by
  refine ⟨hp, ?_⟩
  change perform im (.kill p pid) k = _
  rw [perform, Exec.bind_ok (kill_run k pid), ht]
  rfl

theorem killExact_of_spares {r : Option ℤ} (hst : (system im).step k (.kill p pid, r) k')
    (hs : k.SparesUnused (.kill p pid)) (hc : UnusedClean k) : KillExact k pid r k' := by
  rcases kill_step hst with ⟨ht, rfl, rfl⟩ | ⟨q, ht, rfl, rfl⟩
  · refine ⟨iff_of_false nofun ?_, nofun, fun _ => ⟨rfl, rfl⟩⟩
    rintro ⟨q, -, hq⟩
    exact target_eq_none ht q hq
  · exact ⟨iff_of_true rfl ⟨q, hs q ht, pid_of_target ht⟩,
      fun _ => ⟨q, hs q ht, pid_of_target ht, rfl⟩, fun hne => absurd rfl hne⟩

/-- **Unused entries are clean, no process starts out killed, and `kill` hits processes only, in every run
in which `kill(0)` finds no unused entry**, and only in those. -/
theorem unused_clean (im : Image) :
    (∀ k, (careful im).Reachable k → UnusedClean k ∧
      Ensures (allocproc im) k (fun r k' => ∀ np, r = some np → (k'.proc np).killed = false)
        fun _ => True) ∧
    ∀ k, (careful im).Reachable k → ∀ p pid r k', (system im).step k (.kill p pid, r) k' →
      (UnusedClean k' ∧ KillExact k pid r k' ↔
        ¬ (pid = 0 ∧ ∃ q, k.target 0 = some q ∧ (k.proc q).state = .unused)) := by
  refine ⟨fun k hk => ⟨(tidy_of_careful hk).unusedClean, ?_⟩, fun k hk p pid r k' hst => ⟨?_, ?_⟩⟩
  · exact (allocproc_tidies (tidy_of_careful hk)).imp
      fun r k' hr np hnp => (hr.2 np hnp).2.killed trivial
  · rintro ⟨hc, -⟩ ⟨rfl, q, hq, hu⟩
    rcases kill_step hst with ⟨ht, -⟩ | ⟨q', ht, -, rfl⟩
    · exact absurd (hq.symm.trans ht) nofun
    · obtain rfl := Option.some.inj (hq.symm.trans ht)
      have hc' := hc q
      simp only [update_self] at hc'
      -- the entry is still unused, and marked
      exact absurd (hc' (by simp [marked, hu])).2 nofun
  · intro ho
    have ht := tidy_of_careful hk
    have hk' : (careful im).Reachable k' := hk.step (l := (.kill p pid, r)) ⟨ho, hst⟩
    exact ⟨(tidy_of_careful hk').unusedClean, killExact_of_spares hst (ht.sparesUnused ho) ht.unusedClean⟩

/-- The first process calls `kill(0)`: the second entry, which no process has, is marked. -/
theorem kill_zero_marks_unused : ∃ k k', (system roomyImage).Reachable k ∧
    (system roomyImage).step k (.kill initSlot 0, some 0) k' ∧
    (∀ p, (k.proc p).state ≠ .unused → (k.proc p).pid ≠ 0) ∧
    (k'.proc secondSlot).state = .unused ∧ (k'.proc secondSlot).killed = true := by
  obtain ⟨k, tf, root, hk, hi⟩ := exists_initRuns lenient_affords
  have hq : k.proc secondSlot = procinit := by rw [hi.proc, update_of_ne (by decide)]
  have htarget : k.target 0 = some secondSlot := by
    rw [target, hi.proc]
    rfl
  refine ⟨k, _, hk.of_restrict, kill_step_of_target hi.inUser htarget, fun p hp => ?_, ?_, ?_⟩
  · by_cases hpi : p = initSlot
    · rw [hpi, hi.proc_init]
      exact one_ne_zero
    · rw [hi.proc, update_of_ne hpi] at hp
      exact absurd rfl hp
  · simp only [update_self, hq]
    rfl
  · simp only [update_self]
    rfl

/-- The first process calls `kill(1)`, on itself. -/
theorem unused_clean_init : ∃ k k', (careful roomyImage).Reachable k ∧ UnusedClean k ∧
    (system roomyImage).step k (.kill initSlot 1, some 0) k' ∧
    UnusedClean k' ∧ KillExact k 1 (some 0) k' := by
  have hC : Lenient fun k l => ¬ k.HitsUnused l.1 := ⟨fun _ => id, fun _ => id, fun _ _ => id, fun _ _ => id⟩
  obtain ⟨k, tf, root, hk, hi⟩ := exists_initRuns hC
  have htarget : k.target 1 = some initSlot := by
    rw [target, hi.proc]
    rfl
  have hst : (system roomyImage).step k _ _ := kill_step_of_target hi.inUser htarget
  exact ⟨k, _, hk, ((unused_clean roomyImage).1 k hk).1, hst,
    ((unused_clean roomyImage).2 k hk _ _ _ _ hst).2 fun h => absurd h.1 (by norm_num)⟩

end Kernel

end Xv6

import Xv6.Sched.Exclusion
import Xv6.Sched.Pick
import Mathlib.Data.Fintype.Card

/-!
# Sched/Fair — the accumulators on one CPU

`scheduler` does not release the lock of the process that has left its CPU.  On one CPU that process
never runs again: it cannot be woken or killed, and to choose it is a panic.  So a process adds its
priority to its accumulator once at most, after it was dispatched with the accumulator `-1`.
-/

namespace Xv6

open Machinery Function Finset Bool

/-! ## `set_accumulator` -/

theorem minAccumulator_eq {tb : SchedTable} {np : Slot} {m : ℤ} (hnp : (tb np).candidate = false)
    (hge : ∀ j, (tb j).candidate = true → m ≤ (tb j).accumulator) {js : List Slot} {acc : ℤ}
    (hacc : m ≤ acc)
    (hm : acc = m ∨ ∃ j ∈ js, (tb j).candidate = true ∧ (tb j).accumulator = m) :
    minAccumulator tb np acc js = m := by
  have hne : ∀ {j : Slot}, (tb j).candidate = true → j ≠ np := fun hj he => by
    rw [he, hnp] at hj
    exact false_ne_true hj
  refine (minAccumulator_spec tb np acc js).unique ⟨hm.imp Eq.symm ?_, ?_⟩
  · rintro ⟨j, hj, hc, ha⟩
    exact ⟨j, hj, hne hc, hc, ha⟩
  · rintro a (rfl | ⟨j, -, -, hc, rfl⟩)
    · exact hacc
    · exact hge j hc

namespace Machine

/-! ## One CPU -/

/-- What every step keeps on one CPU, of the table, the locks and the point of the CPU. -/
structure Fair (tb : SchedTable) (lock : Slot → Option Unit) (pc : CpuPc) : Prop where
  asleep : ∀ t, (tb t).state = .sleeping → lock t ≠ none
  acc : ∀ t, (tb t).state = .runnable →
    (tb t).accumulator = -1 ∨ (tb t).accumulator = 4 ∧ lock t ≠ none
  prio : ∀ t, (tb t).psPriority = 0 ∨ (tb t).psPriority = 5
  current : ∀ t, runs pc t → (tb t).state = .runnable ∧ (tb t).accumulator = -1
  child : ∀ t np, pc = .forking t np → (tb np).state = .used

namespace Fair

variable {tb : SchedTable} {lock : Slot → Option Unit} {pc : CpuPc} {t : Slot} {p : SchedProc}

theorem boot : Fair bootTable (fun _ => none) scanStart := by
  have hentry : ∀ t, bootTable t = freedProc ∨
      bootTable t = { freedProc with state := .runnable, pid := 1 } := fun t => by
    by_cases ht : t = initproc
    · exact .inr (by rw [ht, bootTable, update_self])
    · exact .inl (by rw [bootTable, update_of_ne ht])
  refine ⟨fun t => ?_, fun t => ?_, fun t => ?_, fun _ => False.elim, by rintro _ _ ⟨⟩⟩
  all_goals obtain h | h := hentry t <;> rw [h]
  · rintro ⟨⟩
  · rintro ⟨⟩
  · rintro ⟨⟩
  · exact fun _ => .inl rfl
  · exact .inl rfl
  · exact .inl rfl

/-- An entry changes that is not the one of the CPU's process. -/
theorem setEntry (h : Fair tb lock pc) (ha : p.state = .sleeping → lock t ≠ none)
    (hr : p.state = .runnable → p.accumulator = -1 ∨ p.accumulator = 4 ∧ lock t ≠ none)
    (hp : p.psPriority = 0 ∨ p.psPriority = 5)
    (hc : runs pc t → p.state = .runnable ∧ p.accumulator = -1)
    (hf : ∀ u, pc = .forking u t → p.state = .used) : Fair (update tb t p) lock pc where
  asleep u := by
    by_cases hu : u = t
    · subst hu
      rwa [update_self]
    · rw [update_of_ne hu]
      exact h.asleep u
  acc u := by
    by_cases hu : u = t
    · subst hu
      rwa [update_self]
    · rw [update_of_ne hu]
      exact h.acc u
  prio u := by
    by_cases hu : u = t
    · subst hu
      rwa [update_self]
    · rw [update_of_ne hu]
      exact h.prio u
  current u hu' := by
    by_cases hu : u = t
    · subst hu
      rw [update_self]
      exact hc hu'
    · rw [update_of_ne hu]
      exact h.current u hu'
  child u np hu := by
    by_cases hn : np = t
    · subst hn
      rw [update_self]
      exact hf u hu
    · rw [update_of_ne hn]
      exact h.child u np hu

theorem move {pc' : CpuPc} (h : Fair tb lock pc)
    (hc : ∀ t, runs pc' t → (tb t).state = .runnable ∧ (tb t).accumulator = -1)
    (hf : ∀ t np, pc' = .forking t np → (tb np).state = .used) : Fair tb lock pc' :=
  ⟨h.asleep, h.acc, h.prio, hc, hf⟩

theorem lock_some (h : Fair tb lock pc) (t : Slot) : Fair tb (update lock t (some ())) pc := by
  have hsome : ∀ u, lock u ≠ none → update lock t (some ()) u ≠ none := fun u hu => by
    by_cases hut : u = t
    · rw [hut, update_self]
      nofun
    · rwa [update_of_ne hut]
  exact ⟨fun u hu => hsome u (h.asleep u hu), fun u hu => (h.acc u hu).imp_right (.imp_right (hsome u)),
    h.prio, h.current, h.child⟩

end Fair

/-- A process that is not asleep is not woken. -/
theorem wakeupBody_of_awake {s : Machine Unit} {chan : ℕ} {i : Slot} (h : (s.table i).state ≠ .sleeping) :
    s.wakeupBody chan i = s := by
  rw [wakeupBody, if_neg fun hs => h hs.1]

variable {s : Machine Unit} {tb : SchedTable} {pc : CpuPc} (h : Fair s.table s.lock (s.cpu ()).pc)

include h

variable {np t : Slot}

theorem Fair.start (hc : (s.cpu ()).pc = .forking t np)
    (hi : ∀ t, (s.table t).state ≠ .running) : Fair (s.startBody np).table s.lock (.running t) := by
  have hused := h.child t np hc
  obtain ⟨hrun, hacc⟩ := h.current t (by rw [hc]; rfl)
  have hne : t ≠ np := fun he => by
    rw [he, hused] at hrun
    cases hrun
  set tb1 : SchedTable := update s.table np { s.table np with psPriority := 5 } with htb1
  have hother : ∀ j, j ≠ np → tb1 j = s.table j := fun j hj => update_of_ne hj _ _
  have hself : (tb1 np).candidate = false := by
    rw [htb1, update_self]
    simp [SchedProc.candidate, hused]
  have hmin : minAccumulator tb1 np INT_MAX (List.finRange NPROC) = -1 := by
    refine minAccumulator_eq hself (fun j hj => ?_) (by decide) (.inr ⟨t, List.mem_finRange t, ?_, ?_⟩)
    · have hj' : j ≠ np := fun he => by
        rw [he, hself] at hj
        exact false_ne_true hj
      rw [hother j hj'] at hj ⊢
      obtain ha | ⟨ha, -⟩ := h.acc j ((candidate_iff hi j).1 hj) <;> omega
    · rw [hother t hne]
      exact (candidate_iff hi t).2 hrun
    · rw [hother t hne, hacc]
  have htable : (s.startBody np).table = update s.table np
      { s.table np with psPriority := 5, accumulator := -1, state := .runnable } := by
    rw [startBody]
    simp only [put, setAccumulator, ← htb1, hmin]
    rw [htb1]
    simp only [update_self, update_idem]
    rfl
  rw [htable]
  have hmove : Fair s.table s.lock (.running t) := by
    refine h.move ?_ (by simp)
    rintro _ rfl
    exact ⟨hrun, hacc⟩
  exact hmove.setEntry (by simp) (fun _ => .inl rfl) (.inr rfl) (fun _ => ⟨rfl, rfl⟩) (by simp)

/-- A process that sleeps keeps its own entry locked, and is neither woken nor killed. -/
theorem Fair.edit (he : Edit s () tb pc) (hr : ∀ t, runs pc t → runs (s.cpu ()).pc t)
    (hi : ∀ t, (s.table t).state ≠ .running) : Fair tb s.lock pc := by
  have hawake : ∀ {i}, s.lock i = none → (s.table i).state ≠ .sleeping := fun hl hs => h.asleep _ hs hl
  cases he with
  | none hpc => exact h.move (fun t ht => h.current t (hr t ht)) fun t np he => h.child t np (hpc t np he)
  | wakeup chan i hl =>
    rw [wakeupBody_of_awake (hawake hl)]
    exact h
  | kill pid i hl =>
    have hkill : (s.killBody pid i).table = s.table ∨
        (s.killBody pid i).table = update s.table i { s.table i with killed := true } := by
      rw [killBody]
      simp only [if_neg (hawake hl)]
      split_ifs
      · exact .inr rfl
      · exact .inl rfl
    obtain hk | hk := hkill <;> rw [hk]
    · exact h
    · exact h.setEntry (h.asleep i) (h.acc i) (h.prio i) (h.current i) fun u => h.child u i
  | free i hu =>
    refine h.setEntry nofun nofun (.inl rfl) (fun hc => ?_) fun u hf => ?_
    · exact absurd (hu.symm.trans (h.current i hc).1) nofun
    · exact absurd (hu.symm.trans (h.child u i hf)) nofun
  | alloc t i pid hu hc =>
    have hmove : Fair (update s.table i { s.table i with state := .used, pid := pid }) s.lock
        (s.cpu ()).pc := by
      refine h.setEntry nofun nofun (h.prio i) (fun hc => ?_) fun u _ => rfl
      exact absurd (hu.symm.trans (h.current i hc).1) nofun
    refine hmove.move (fun u hu => hmove.current u (hr u hu)) fun u np he => ?_
    obtain ⟨-, rfl⟩ := CpuPc.forking.inj he
    rw [update_self]
  | start t np hc => exact h.start hc hi

theorem Fair.take (hl : s.lock t = none) (hrun : (s.table t).state = .runnable) :
    Fair s.table (update s.lock t (some ())) (.store t) := by
  refine (h.lock_some t).move ?_ nofun
  rintro _ rfl
  exact ⟨hrun, (h.acc t hrun).resolve_right fun ha => ha.2 hl⟩

theorem Fair.resume (hc : (s.cpu ()).pc = .resumed t) :
    Fair (update s.table t { s.table t with chan := 0 }) (update s.lock t none) (.running t) := by
  obtain ⟨hrun, hacc⟩ := h.current t (by rw [hc]; rfl)
  have hkeep : ∀ u, u ≠ t → s.lock u ≠ none → update s.lock t none u ≠ none := fun u hu hl => by
    rwa [update_of_ne hu]
  have hfree : Fair s.table (update s.lock t none) (.running t) := by
    refine ⟨fun u hu => ?_, fun u hu => ?_, h.prio, ?_, nofun⟩
    · refine hkeep u ?_ (h.asleep u hu)
      rintro rfl
      exact absurd (hrun.symm.trans hu) nofun
    · by_cases hut : u = t
      · exact .inl (hut ▸ hacc)
      · exact (h.acc u hu).imp_right (.imp_right (hkeep u hut))
    · rintro _ rfl
      exact ⟨hrun, hacc⟩
  exact hfree.setEntry (hfree.asleep t) (hfree.acc t) (h.prio t) (hfree.current t) nofun

theorem Fair.leave {p : SchedProc} (hc : (s.cpu ()).pc = .running t) (hp : Leaves (s.table t) p) :
    Fair (update s.table t p) (update s.lock t (some ())) (.switched t) := by
  obtain ⟨hrun, hacc⟩ := h.current t (by rw [hc]; rfl)
  have hlock : update s.lock t (some ()) t ≠ none := by
    rw [update_self]
    rintro ⟨⟩
  have hmove : Fair s.table (update s.lock t (some ())) (.switched t) :=
    (h.lock_some t).move (fun _ => False.elim) (by simp)
  obtain rfl | ⟨chan, rfl⟩ | rfl := hp
  · refine hmove.setEntry (by simp) (fun _ => ?_) (h.prio t) False.elim (by simp)
    simp only [SchedProc.addPriority, hacc]
    obtain hp | hp := h.prio t <;> rw [hp]
    · exact .inl rfl
    · exact .inr ⟨rfl, hlock⟩
  · exact hmove.setEntry (fun _ => hlock) (by simp) (h.prio t) False.elim (by simp)
  · exact hmove.setEntry (by simp) (by simp) (h.prio t) False.elim (by simp)

theorem Fair.trans {op : CpuOp} {s' : Machine Unit} (hi : Invariant s) (ht : Trans s () op s') :
    Fair s'.table s'.lock (s'.cpu ()).pc := by
  cases ht with
  | quiet tb x past pid hx _ he =>
    have hfair : Fair tb s.lock x.pc := by
      refine h.edit he (fun t ht => ?_) hi.still
      obtain hp | hp := hx.runs
      · rw [hp] at ht
        exact ht.elim
      · exact (hp t).1 ht
    simpa only [update_self] using hfair
  | take t _ hc hl =>
    have hrun : (s.table t).state = .runnable :=
      (hi.picked () t (by rw [hc]; rfl)).resolve_right fun hs => hs.1 hl
    simpa only [update_self] using h.take hl hrun
  | resume t hc _ => simpa only [goto, put, release, update_self] using h.resume hc
  | leave t p hc _ hp => simpa only [goto, put, update_self] using h.leave hc hp

omit h

theorem fair_reachable (hs : (system Unit).Reachable s) : Fair s.table s.lock (s.cpu ()).pc := by
  refine hs.invariant (I := fun s => Fair s.table s.lock (s.cpu ()).pc) ?_ fun s l t hr hi hst => ?_
  · rintro _ rfl
    exact .boot
  · exact hi.trans (invariant_reachable hr) (trans_of_next hst)

/-! ## How often the scheduler switches -/

def dispatches : CpuPc → CpuPc → Bool
  | .chosen _, .store _ => true
  | _, _ => false

theorem exists_of_dispatches {pc pc' : CpuPc} (h : dispatches pc pc' = true) :
    ∃ t u, pc = .chosen t ∧ pc' = .store u := by
  unfold dispatches at h
  split at h
  next t u => exact ⟨t, u, rfl, rfl⟩
  next => exact absurd h false_ne_true

def dispatchCount {κ : Type} [DecidableEq κ] (s : Machine κ) : List (κ × CpuOp) → ℕ
  | [] => 0
  | l :: ls =>
    match s.next l.1 l.2 with
    | none => 0
    | some t => (if dispatches (s.cpu l.1).pc (t.cpu l.1).pc then 1 else 0) + dispatchCount t ls

open Classical in
/-- The entries that have not been switched to; none if the CPU has stopped. -/
noncomputable def budget (lock : Slot → Option Unit) (pc : CpuPc) : ℕ :=
  if pc = .panicked then 0 else (Finset.univ.filter fun t => lock t = none ∧ ¬ runs pc t).card

theorem budget_le {lock lock' : Slot → Option Unit} {pc pc' : CpuPc} (hpc : pc ≠ .panicked)
    (h : ∀ t, lock' t = none → ¬ runs pc' t → lock t = none ∧ ¬ runs pc t) :
    budget lock' pc' ≤ budget lock pc := by
  classical
  rw [budget, budget, if_neg hpc]
  split_ifs
  · exact zero_le
  · exact card_le_card fun t ht => by
      have ht := (mem_filter.1 ht).2
      exact mem_filter.2 ⟨mem_univ t, h t ht.1 ht.2⟩

theorem budget_take {lock : Slot → Option Unit} (hl : lock t = none) :
    budget (update lock t (some ())) (.store t) + 1 ≤ budget lock (.chosen t) := by
  classical
  rw [budget, budget, if_neg nofun, if_neg nofun, Nat.add_one_le_iff]
  refine card_lt_card ((ssubset_iff_of_subset fun u hu => ?_).2 ⟨t, ?_, ?_⟩)
  · obtain ⟨-, hu, hut⟩ := mem_filter.1 hu
    rw [update_of_ne (Ne.symm hut)] at hu
    exact mem_filter.2 ⟨mem_univ u, hu, id⟩
  · exact mem_filter.2 ⟨mem_univ t, hl, id⟩
  · intro ht
    exact (mem_filter.1 ht).2.2 rfl

theorem next_panicked {κ : Type} [DecidableEq κ] {s : Machine κ} {c : κ} (h : (s.cpu c).pc = .panicked)
    (op : CpuOp) : s.next c op = none := by
  cases op <;> simp [next, go, interruptible, h]

theorem dispatch_step {op : CpuOp} {s' : Machine Unit} (hn : (s.cpu ()).pc ≠ .panicked)
    (ht : Trans s () op s') :
    (if dispatches (s.cpu ()).pc (s'.cpu ()).pc then 1 else 0) + budget s'.lock (s'.cpu ()).pc ≤
      budget s.lock (s.cpu ()).pc := by
  cases ht with
  | quiet tb x past pid hx _ _ =>
    have hno : dispatches (s.cpu ()).pc x.pc = false := by
      rw [eq_false_iff]
      intro hd
      obtain ⟨t, u, hpc, hx'⟩ := exists_of_dispatches hd
      obtain hp | hp := hx.runs
      · exact absurd (hx'.symm.trans hp) (by simp)
      · have hruns := (hp u).1 (by rw [hx']; rfl)
        rw [hpc] at hruns
        exact hruns
    simp only [update_self, hno, false_eq_true, if_false, zero_add]
    obtain hp | hp := hx.runs
    · rw [hp, budget, if_pos rfl]
      exact zero_le
    · exact budget_le hn fun t hl hr => ⟨hl, (hp t).not.1 hr⟩
  | take t _ hc hl =>
    simp only [update_self, hc, dispatches, if_true]
    rw [add_comm]
    exact budget_take hl
  | resume t hc hl =>
    simp only [goto, put, release, update_self, hc, dispatches, false_eq_true, if_false, zero_add]
    refine budget_le (by simp) fun u hu hr => ⟨?_, hr⟩
    rwa [update_of_ne (Ne.symm hr)] at hu
  | leave t p hc hl _ =>
    simp only [goto, put, update_self, hc, dispatches, false_eq_true, if_false, zero_add]
    refine budget_le (by simp) fun u hu _ => ?_
    have hut : u ≠ t := by
      rintro rfl
      rw [update_self] at hu
      exact Option.some_ne_none _ hu
    rw [update_of_ne hut] at hu
    exact ⟨hu, Ne.symm hut⟩

theorem dispatchCount_le {ls : List (Unit × CpuOp)} {s' : Machine Unit} (h : (system Unit).Run s ls s') :
    dispatchCount s ls ≤ budget s.lock (s.cpu ()).pc := by
  induction h with
  | nil => exact zero_le
  | @cons s t u l ls hst _ ih =>
    obtain ⟨⟨⟩, op⟩ := l
    have hnext : s.next () op = some t := hst
    rw [dispatchCount, hnext]
    have hn : (s.cpu ()).pc ≠ .panicked := fun hp => by
      rw [next_panicked hp] at hnext
      cases hnext
    exact (Nat.add_le_add_left ih _).trans (dispatch_step hn (trans_of_next hnext))

/-- **On one CPU the accumulators of processes that can run differ by at most 10, in every run, and the
scheduler switches to a process at most once for each entry of the table.** -/
theorem accumulator_spread :
    (∀ s, (system Unit).Reachable s → ∀ t u, (s.table t).candidate = true → (s.table u).candidate = true →
      |(s.table t).accumulator - (s.table u).accumulator| ≤ 10) ∧
    ∀ ls s, (system Unit).Run boot ls s → dispatchCount boot ls ≤ NPROC := by
  refine ⟨fun s hs t u ht hu => ?_, fun ls s hrun => (dispatchCount_le hrun).trans ?_⟩
  · have hfair := fair_reachable hs
    have hstill := (invariant_reachable hs).still
    have hvalue : ∀ t, (s.table t).candidate = true →
        (s.table t).accumulator = -1 ∨ (s.table t).accumulator = 4 := fun t ht =>
      (hfair.acc t ((candidate_iff hstill t).1 ht)).imp_right And.left
    obtain ht | ht := hvalue t ht <;> obtain hu | hu := hvalue u hu <;> rw [ht, hu] <;> decide
  · classical
    rw [budget]
    split_ifs
    · exact Nat.zero_le _
    · exact (Finset.card_le_univ _).trans_eq (Fintype.card_fin NPROC)

theorem fork_reachable {κ : Type} [DecidableEq κ] {s : Machine κ} {c : κ}
    (hs : (system κ).Reachable s) (hpc : (s.cpu c).pc = .running t) (hl : s.lock np = none)
    (hu : (s.table np).state = .unused) : ∃ s', (system κ).Reachable s' ∧
      (s'.table np).state = .runnable ∧ ∀ u, u ≠ np → (s'.table u).state = (s.table u).state := by
  set s1 := ({ s with lock := update s.lock np (some c) }.allocBody c t np true).release np with hs1
  have h1 : (system κ).step s (c, .alloc np true) s1 := by
    change next _ _ _ = _
    simp [next, hpc, call, acquire, hl, hs1]
  have hpc1 : (s1.cpu c).pc = .forking t np := by simp [hs1, allocBody, hu, release, goto, put]
  have hl1 : s1.lock np = none := by simp [hs1, release]
  have htable : s1.table = update s.table np { s.table np with state := .used, pid := s.nextpid } := by
    simp [hs1, allocBody, hu, release, goto, put]
  have h2 : (system κ).step s1 (c, .start) ((({ s1 with
      lock := update s1.lock np (some c) }.startBody np).release np).goto c (.running t)) := by
    change next _ _ _ = _
    simp [next, hpc1, acquire, hl1]
  refine ⟨_, (hs.step h1).step h2, ?_, fun u hu => ?_⟩
  · simp [startBody, goto, release, put]
  · simp [startBody, goto, release, put, hu, setAccumulator_state, htable]

/-- The first process has forked. -/
theorem accumulator_spread_fork : ∃ s, (system Unit).Reachable s ∧ ∃ t u, t ≠ u ∧
    (s.table t).candidate = true ∧ (s.table u).candidate = true ∧
    |(s.table t).accumulator - (s.table u).accumulator| ≤ 10 := by
  have h1 := dispatch_reachable (s := (boot : Machine Unit)) (c := ()) (.init rfl) rfl scan_bootTable rfl
    (by simp [boot, bootTable, freedProc])
  have hne : initproc ≠ (⟨1, by decide⟩ : Slot) := by decide
  obtain ⟨s, hs, hrun, hother⟩ := fork_reachable (c := ()) (t := initproc) h1 (by simp) rfl
    (congrArg SchedProc.state (update_of_ne hne.symm _ _) : (bootTable _).state = _)
  have hstill := (invariant_reachable hs).still
  have hinit : (s.table initproc).candidate = true :=
    (candidate_iff hstill _).2 ((hother _ hne).trans (by simp [boot, bootTable]))
  have hchild := (candidate_iff hstill _).2 hrun
  exact ⟨s, hs, _, _, hne, hinit, hchild, accumulator_spread.1 s hs _ _ hinit hchild⟩

end Machine

end Xv6

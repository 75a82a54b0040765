import Xv6.Sched.Places

/-!
# Sched/Tree — the process tree, and `exit` against `wait`

Every step is a run of the machines of `Sched/Kinship` (`next_refines`), so that what these keep holds
in every interleaving: parents outlive their children (`parent_lives`), and no parent sleeps in `wait`
over a child that has exited (`not_zombie_of_waiting`).
-/

namespace Xv6

open Machinery Function Relation Option

namespace Family

variable {n : ℕ} [NeZero n]

/-! ## The steps -/

section

variable {s t : Family n} {p q np : Fin n}

theorem wake_refines (killed : Fin n → Bool) (hs : Placed s)
    (hstate : s.state q = .sleeping) :
    Refines s { s with state := update s.state q .runnable, killed := killed } := by
  obtain ⟨h1, h2, h3, h4, h5⟩ := hs q
  have hnone : s.pc q ≠ .none := fun hn => by simpa [hstate] using h3.2 hn
  have hz : (s.pc q).isZombie = false := by
    rw [hstate] at h4
    exact Bool.eq_false_iff.2 fun h => absurd (h4.2 h) (by simp)
  refine Local.refines (p := q)
    (fun r hr => ⟨rfl, fun _ => rfl, update_of_ne hr _ _, rfl, Iff.rfl⟩) hs rfl (update_self ..)
    ⟨h1, h2, ?_, ?_, h5⟩ rfl (kin_refl rfl ?_) ?_
  · exact ⟨fun hu => absurd hu (by simp), fun hn => absurd hn hnone⟩
  · exact ⟨fun h => absurd h (by simp), fun h => absurd (hz.symm.trans h) (by simp)⟩
  · revert hnone
    cases s.pc q <;> simp
  · obtain hsame | ⟨hidle, hwait⟩ := (s.pc q).role_runnable
    · exact vigil_refl rfl (by rw [hsame, hstate])
    · rw [hidle]
      exact vigil_settle (by rw [hstate, hwait]; simp)

/-- An iteration of `wakeup(chan)` by `p` at `q`, after which `q` does not wait over a child. -/
theorem wakeupStep_refines {chan : Option (Fin n)} {x : FamilyPc n}
    (hs : Placed s) (hp : (s.pc p).role (s.state p) ≠ .waiting)
    (hst : s.wakeupStep p chan q x = some t)
    (hx : ∀ u : Family n, Placed u → u.pc p = s.pc p → (chan = some q → u.vigil.role q ≠ .waiting) →
      Refines u { u with pc := update u.pc p x }) : Refines s t := by
  unfold wakeupStep at hst
  split_ifs at hst with hqp hlock
  · cases hst
    exact hx s hs rfl fun _ => hqp ▸ hp
  · cases hst
    unfold wakeupBody
    split_ifs with hsleep
    · have hwake := wake_refines s.killed hs hsleep.1
      refine hwake.trans (hx _ hwake.placed rfl fun _ => ?_)
      simp only [vigil, update_self]
      exact FamilyPc.role_runnable_ne (hs.not_holdsSelf hlock)
    · refine hx s hs rfl fun hc hw => ?_
      obtain ⟨hon, hstate⟩ := FamilyPc.sleeping_of_waiting (hs.not_holdsSelf hlock) hw
      have hchan := (hs q).chan
      rw [if_pos hon, ← hc] at hchan
      exact hsleep ⟨hstate, hchan⟩

theorem exit_refines (hs : Placed s) (hpc : s.pc p = .exitLock) :
    Refines s { s with
      lock := update s.lock p (.proc p)
      state := update s.state p .zombie
      pc := update s.pc p .exitRelease } := by
  have hp := hs p
  rw [hpc] at hp
  refine Local.refines_of_dead (p := p) (x := .exitRelease)
    (fun q hq => ⟨update_of_ne hq _ _, fun _ => update_of_ne hq _ _, update_of_ne hq _ _, rfl, Iff.rfl⟩)
    hs (update_self ..) (update_self ..)
    ⟨hp.wait, by simp, ⟨fun h => h.elim (by simp) (by simp), by simp⟩, by simp, hp.chan⟩ (kin_refl hpc rfl) ?_
  rw [eq_self ProcState.zombie]
  exact .single (.die (role_eq hpc))

theorem forkStart_refines (hs : Placed s) (hk : Kin.Inv 0 s.kin)
    (hpc : s.pc p = .forkParent np) :
    Refines s { s with
      state := update s.state np .runnable
      pc := update (update s.pc p .running) np .born } := by
  have hnp := FamilyPc.none_of_used (hk.child p np (by simp [kin, hpc, Stage.child]))
  have hn := hs np
  rw [hnp.1] at hn
  refine pair_refines (x := .running) hs hpc hnp.1 rfl rfl rfl rfl rfl (fun q hq =>
    ⟨update_of_ne hq _ _, rfl, update_of_ne hq _ _, rfl⟩) ?_ ?_ ?_ ?_ .refl <;>
    simp only [update_self]
  · exact ⟨hn.wait, by simp, ⟨fun h => h.elim (by simp) (by simp), by simp⟩, by simp, hn.chan⟩
  · simp
  · simp
  · exact .start (stage_eq hpc)

theorem fork_refines (hs : Placed s) (hpc : s.pc p = .running) (hu : s.state np = .unused) :
    Refines s { s with
      lock := update s.lock np (.proc p)
      state := update s.state np .used
      pc := update s.pc p (.forkCopy np) } := by
  have hn := hs np
  have hnone : s.pc np = .none := hn.unused.1 (.inl hu)
  have hne : np ≠ p := fun h => by
    rw [h, hpc] at hnone
    cases hnone
  rw [hnone] at hn
  refine pair_refines (x := .forkCopy np) hs hpc hnone rfl rfl rfl rfl rfl (fun q hq =>
    ⟨rfl, update_of_ne hq _ _, update_of_ne hq _ _, rfl⟩) ?_ ?_ ?_ ?_ .refl <;>
    simp only [update_of_ne hne, update_self, hnone]
  · exact ⟨hn.wait, by simp, ⟨fun _ => rfl, fun _ => .inr rfl⟩, by simp, hn.chan⟩
  · simp
  · simp
  · exact .fork (stage_eq hpc) (by simp [kin, hnone, hu])

theorem forkFail_refines {killed : Fin n → Bool} (hs : Placed s)
    (hk : Kin.Inv 0 s.kin) (hpc : s.pc p = .forkCopy np) :
    Refines s { s with
      lock := update s.lock np .free
      state := update s.state np .unused
      parent := update s.parent np none
      chan := update s.chan np none
      killed := killed
      pc := update s.pc p .running } := by
  have hnp := FamilyPc.none_of_used (hk.child p np (by simp [kin, hpc, Stage.child]))
  have hn := hs np
  have hne : np ≠ p := fun h => by
    rw [← h, hnp.1] at hpc
    cases hpc
  rw [hnp.1] at hn
  refine pair_refines (x := .running) hs hpc hnp.1 rfl rfl rfl rfl rfl (fun q hq =>
    ⟨rfl, update_of_ne hq _ _, update_of_ne hq _ _, update_of_ne hq _ _⟩) ?_ ?_ ?_ ?_
    (.single (.disown (by simp [vigil, hnp.1]))) <;>
    simp only [update_of_ne hne, update_self, hnp.1]
  · exact ⟨hn.wait, by simp, ⟨fun _ => rfl, fun _ => .inl rfl⟩, by simp, rfl⟩
  · simp
  · simp
  · exact .fail (stage_eq hpc)

theorem go_refines (hs : Placed s) (hk : Kin.Inv 0 s.kin)
    (hst : s.go p = some t) : Refines s t := by
  have hp := hs p
  have hself : ∀ (l : EntryLock n) q, q ≠ p → (s.pc q).holdsSelf = true → update s.lock p l q = s.lock q :=
    fun _ _ hq _ => update_of_ne hq _ _
  have hchild : ∀ np, (s.kin.stage p).child = some np → s.pc np = .none ∧ s.state np = .used :=
    fun np h => FamilyPc.none_of_used (hk.child p np h)
  unfold go at hst
  split at hst
  case h_1 | h_2 | h_3 | h_4 | h_5 | h_6 => cases hst
  case h_7 hpc =>
    cases hst
    exact (hs.shift (x := .running) hpc rfl rfl (hself _) (by simp)).refines hs
      (kin_refl hpc rfl) (vigil_refl hpc rfl)
  case h_8 np hpc =>
    cases hst
    have hnp := hchild np (by simp [kin, hpc, Stage.child])
    refine (hs.shift (x := .forkUsed np) hpc rfl rfl (fun q _ hq => ?_) (by simp)).refines hs
      (kin_refl hpc rfl) (vigil_refl hpc rfl)
    exact update_of_ne (fun he => by rw [he, hnp.1] at hq; cases hq) _ _
  case h_9 np hpc =>
    obtain ⟨hfree, rfl⟩ := of_guard hst
    have hnp := hchild np (by simp [kin, hpc, Stage.child])
    have hidle : update s.vigil.role p .idle = s.vigil.role :=
      update_eq_iff.2 ⟨(role_eq hpc).symm, fun _ _ => rfl⟩
    refine hs.walk hpc rfl rfl rfl (.single (.adopt (stage_eq hpc))) ?_
    rw [show (FamilyPc.forkParent np).role (s.state p) = .idle from rfl, hidle]
    exact .single (.adopt (hs.inactive hfree) (by simp [vigil, hnp.2]))
  case h_10 np hpc =>
    obtain ⟨hfree, rfl⟩ := of_guard hst
    exact forkStart_refines hs hk hpc
  case h_11 q rest hpc =>
    rw [hpc] at hp
    split_ifs at hst with hq
    · cases hst
      exact hs.walk hpc rfl rfl rfl (.single (.hand (stage_eq hpc) hq))
        (.single (.hand (role_eq hpc) (hs.alone (.inr (hp.wait.2 rfl))) List.mem_finRange))
    · cases hst
      exact hs.walk hpc rfl rfl rfl (.single (.pass (stage_eq hpc) hq)) (vigil_refl hpc rfl)
  case h_12 q scan rest hpc =>
    refine wakeupStep_refines hs (by simp [hpc]) hst fun u hu hupc hq => ?_
    have hpc' : u.pc p = .reparentWakeup (q :: scan) rest := hupc.trans hpc
    exact hu.walk hpc' rfl rfl rfl (kin_refl hpc' rfl)
      (.single (.handed (q := q) (role_eq hpc') fun hroot => hq (congrArg some hroot.symm)))
  case h_13 rest hpc =>
    cases hst
    exact hs.walk hpc rfl rfl rfl (kin_refl hpc rfl) (vigil_settle (by rw [hpc]; rintro _ ⟨⟩; rfl))
  case h_14 hpc =>
    cases hst
    rw [hpc] at hp
    exact hs.walk hpc rfl rfl rfl (.single (.left (stage_eq hpc)))
      (.single (.tell (role_eq hpc) (hs.alone (.inr (hp.wait.2 rfl))) List.mem_finRange))
  case h_15 c q scan hpc =>
    refine wakeupStep_refines hs (by simp [hpc]) hst fun u hu hupc hq => ?_
    have hpc' : u.pc p = .parentWakeup c (q :: scan) := hupc.trans hpc
    exact hu.walk hpc' rfl rfl rfl (kin_refl hpc' rfl) (.single (.telling (q := q) (role_eq hpc') hq))
  case h_16 c hpc =>
    cases hst
    exact hs.walk hpc rfl rfl rfl (kin_refl hpc rfl) (.single (.told (c := c) (role_eq hpc)))
  case h_17 hpc =>
    obtain ⟨hfree, rfl⟩ := of_guard hst
    exact exit_refines hs hpc
  case h_18 hpc =>
    cases hst
    exact (hs.drop (x := .dead) hpc rfl rfl rfl (hself _) (by simp)).refines hs
      (kin_refl hpc rfl) (vigil_refl hpc rfl)
  case h_19 havekids q rest hpc =>
    unfold waitStep at hst
    split_ifs at hst with hq hfree hz
    · cases hst
      exact hs.walk hpc rfl rfl rfl (kin_refl hpc rfl) (vigil_settle (by rw [hpc]; rintro _ ⟨⟩))
    · cases hst
      exact hs.walk hpc rfl rfl rfl (kin_refl hpc rfl) (.single (.pass (role_eq hpc) fun _ => hz))
    · cases hst
      exact hs.walk hpc rfl rfl rfl (kin_refl hpc rfl)
        (.single (.pass (role_eq hpc) fun h => absurd h hq))
  case h_20 hpc =>
    cases hst
    exact hs.walk hpc rfl rfl rfl (kin_refl hpc rfl) (vigil_settle (by rw [hpc]; rintro _ ⟨⟩))
  case h_21 hpc =>
    split_ifs at hst with hfree hkilled
    · cases hst
      exact hs.walk hpc rfl rfl rfl (kin_refl hpc rfl) (vigil_settle (by rw [hpc]; rintro _ ⟨⟩))
    · cases hst
      exact hs.walk hpc rfl rfl rfl (kin_refl hpc rfl) (.single (.clear (role_eq hpc)))
  case h_22 hpc =>
    cases hst
    exact (hs.drop (x := .running) hpc rfl rfl rfl (fun _ _ _ => rfl) (by simp)).refines hs
      (kin_refl hpc rfl) (vigil_refl hpc rfl)
  case h_23 hpc =>
    obtain ⟨hfree, rfl⟩ := of_guard hst
    exact (hs.shift (x := .sleepRelease) hpc rfl rfl (hself _) fun _ => update_self ..).refines hs
      (kin_refl hpc rfl) (vigil_refl hpc rfl)
  case h_24 hpc =>
    cases hst
    rw [hpc] at hp
    exact (hs.drop (x := .dozing) hpc rfl rfl rfl (fun _ _ _ => rfl) fun _ => hp.self rfl).refines hs
      (kin_refl hpc rfl) (.single (.wait (role_eq hpc)))
  case h_25 hpc =>
    cases hst
    rw [hpc] at hp
    refine Local.refines (p := p) (x := .asleep)
      (fun q hq => ⟨update_of_ne hq _ _, hself _ q hq, update_of_ne hq _ _, update_of_ne hq _ _, Iff.rfl⟩)
      hs (update_self ..) (update_self ..) ⟨hp.wait, by simp, ?_, ?_, update_self ..⟩ (by rw [hpc]; rfl)
      (kin_refl hpc rfl) (vigil_refl hpc rfl)
    · exact ⟨fun h => h.elim (by simp) (by simp), by simp⟩
    · exact ⟨by simp, by simp⟩
  case h_26 hpc =>
    cases hst
    rw [hpc] at hp
    refine Local.refines (p := p) (x := .woken)
      (fun q hq => ⟨update_of_ne hq _ _, hself _ q hq, rfl, update_of_ne hq _ _, Iff.rfl⟩)
      hs (update_self ..) rfl ⟨hp.wait, by simp, ?_, hp.zombie, update_self ..⟩ (by rw [hpc]; rfl)
      (kin_refl hpc rfl) (vigil_settle fun scan hscan => ?_)
    · exact ⟨fun h => absurd (hp.unused.1 h) (by simp), by simp⟩
    · rw [hpc] at hscan
      revert hscan
      cases s.state p <;> rintro ⟨⟩
  case h_27 hpc =>
    obtain ⟨hfree, rfl⟩ := of_guard hst
    exact (Shift.take (x := .waitScan false (List.finRange n)) hfree hpc rfl rfl rfl).refines hs
      (kin_refl hpc rfl)
      (.single (.look (role_eq hpc) (hs.alone (.inl hfree)) List.mem_finRange))

/-- **Every step keeps the processes in their places and is a run of the abstract machines.** -/
theorem next_refines {rel : Bool} {op : FamilyOp n} (hs : Placed s)
    (hk : Kin.Inv 0 s.kin) (hst : s.next rel op = some t) : Refines s t := by
  cases op with
  | go p => exact go_refines hs hk hst
  | fork p np =>
    obtain ⟨⟨hpc, -, hu⟩, rfl⟩ := of_guard hst
    exact fork_refines hs hpc hu
  | forkFail p =>
    unfold next at hst
    dsimp only at hst
    split at hst
    next np hpc =>
      cases hst
      exact forkFail_refines hs hk hpc
    next => cases hst
  | exit p =>
    unfold next at hst
    dsimp only at hst
    split_ifs at hst with hpc hroot hfree
    · cases hst
      exact hs.walk hpc rfl rfl rfl (kin_refl hpc rfl) (vigil_refl hpc rfl)
    · cases hst
      exact (Shift.take (x := .reparent (List.finRange n)) hfree hpc rfl rfl
        rfl).refines hs
        (.single (.leave (stage_eq hpc) hroot List.mem_finRange))
        (vigil_refl hpc rfl)
  | wait p =>
    obtain ⟨⟨hpc, hfree⟩, rfl⟩ := of_guard hst
    exact (Shift.take (x := .waitScan false (List.finRange n)) hfree hpc rfl rfl rfl).refines hs (kin_refl hpc rfl)
      (.single (.look (role_eq hpc) (hs.alone (.inl hfree)) List.mem_finRange))
  | handOver p =>
    obtain ⟨⟨-, hcpu⟩, rfl⟩ := of_guard hst
    refine ⟨fun q => ?_, .refl, .refl⟩
    obtain ⟨h1, h2, h3, h4, h5⟩ := hs q
    refine ⟨h1, fun hself => ?_, h3, h4, h5⟩
    have hq : q ≠ p := fun h => by
      rw [h] at h2 hself
      cases hcpu.symm.trans (h2 hself)
    exact (update_of_ne hq _ _).trans (h2 hself)
  | dispatch p =>
    unfold next at hst
    dsimp only at hst
    split_ifs at hst with hfree
    split at hst
    next hpc =>
      cases hst
      exact (hs.shift (x := .forkret) hpc rfl rfl
        (fun _ hq _ => update_of_ne hq _ _) nofun).refines hs (kin_refl hpc rfl)
        (vigil_refl hpc rfl)
    next hpc =>
      cases hst
      refine (hs.shift (x := .resumed) hpc rfl rfl
        (fun _ hq _ => update_of_ne hq _ _) nofun).refines hs (kin_refl hpc rfl)
        (vigil_refl hpc ?_)
      cases s.state p <;> rfl
    next => cases hst
  | kill p =>
    unfold next at hst
    dsimp only at hst
    split_ifs at hst with hfree hsleep
    · cases hst
      exact wake_refines _ hs hsleep
    · cases hst
      exact ⟨hs, .refl, .refl⟩

end

/-! ## Every reachable family -/

/-- What every reachable state keeps. -/
structure Sound (s : Family n) : Prop where
  placed : Placed s
  kin : Kin.Inv 0 s.kin
  vigil : Vigil.Inv 0 s.vigil

theorem placed_boot : Placed (boot : Family n) := by
  intro p
  by_cases hp : p = 0
  · simp only [boot, hp, update_self]
    exact ⟨⟨nofun, nofun⟩, nofun, ⟨fun h => h.elim nofun nofun, nofun⟩, ⟨nofun, nofun⟩, rfl⟩
  · simp only [boot, update_of_ne hp]
    exact ⟨⟨nofun, nofun⟩, nofun, ⟨fun _ => rfl, fun _ => .inl rfl⟩, ⟨nofun, nofun⟩, rfl⟩

theorem kin_boot : Kin.Inv 0 (boot : Family n).kin := by
  have hstage : ∀ p : Fin n, (boot : Family n).kin.stage p = if p = 0 then .normal else .free :=
    fun p => by
      by_cases hp : p = 0 <;> simp [kin, boot, hp]
  have hchild : ∀ p : Fin n, ((boot : Family n).kin.stage p).child = none := fun p => by
    rw [hstage]
    split_ifs <;> rfl
  refine ⟨fun p np h => ?_, fun p r np h => ?_, nofun, nofun, fun p np h => ?_, fun q hq hne => ?_,
    ⟨rfl, ?_⟩, fun q hq => absurd rfl hq⟩
  · cases (hchild p).symm.trans h
  · cases (hchild p).symm.trans h
  · have := hchild p
    rw [h] at this
    cases this
  · rw [hstage, if_neg hne] at hq
    exact hq.elim
  · rw [hstage, if_pos rfl]
    trivial

theorem vigil_boot : Vigil.Inv 0 (boot : Family n).vigil := by
  have hrole : ∀ p : Fin n, (boot : Family n).vigil.role p = .idle := fun p => by
    by_cases hp : p = 0 <;> simp [vigil, boot, hp]
  have hno : ∀ (p : Fin n) {a : Role (Fin n)}, (boot : Family n).vigil.role p = a → a = .idle :=
    fun p _ h => h.symm.trans (hrole p)
  exact ⟨fun p h => (by rw [hrole] at h; exact h.elim), fun p _ h => (nomatch hno p h),
    fun p h => (nomatch hno p h), fun p h => (nomatch hno p h), fun p _ _ h => (nomatch hno p h),
    fun p h => (nomatch hno p h)⟩

theorem sound_reachable {rel : Bool} {s : Family n} (hs : (system n rel).Reachable s) : Sound s := by
  refine hs.invariant (I := Sound) ?_ fun s op t _ h hst => ?_
  · rintro s rfl
    exact ⟨placed_boot, kin_boot, vigil_boot⟩
  · have hr := next_refines h.placed h.kin hst
    exact ⟨hr.placed, h.kin.run hr.kin, h.vigil.run hr.vigil⟩

/-- **`exit` and `wait` do not miss each other**: with `wait_lock` free nobody sleeps in `wait` while
one of its children is a `ZOMBIE`. -/
theorem not_zombie_of_waiting {rel : Bool} {s : Family n} (hs : (system n rel).Reachable s)
    (hfree : s.waitLock = none) {p q : Fin n} (hsleep : s.state p = .sleeping)
    (hchan : s.chan p = some p) (hparent : s.parent q = some p) : s.state q ≠ .zombie := by
  intro hdead
  obtain ⟨hplaced, -, hvigil⟩ := sound_reachable hs
  have hwait : s.vigil.role p = .waiting := by
    have hon : (s.pc p).onChan = true := by
      have := (hplaced p).chan
      rw [hchan] at this
      exact not_not.1 fun hn => by rw [if_neg hn] at this; cases this
    revert hon
    simp only [vigil, hsleep]
    cases s.pc p <;> simp
  obtain ⟨-, e, scan, he, -⟩ := hvigil.waiting p hwait q hparent hdead
  exact hplaced.inactive hfree e (by rw [he]; trivial)

/-- The first process sleeps in `wait` and has a child. -/
theorem not_zombie_of_waiting_two : ∃ s : Family 2, (system 2 false).Reachable s ∧ s.waitLock = none ∧
    s.state 0 = .sleeping ∧ s.chan 0 = some 0 ∧ s.parent 1 = some 0 ∧ s.state 1 ≠ .zombie := by
  let ls : List (FamilyOp 2) := [.dispatch 0, .go 0, .fork 0 1, .go 0, .go 0, .go 0, .wait 0, .go 0, .go 0,
    .go 0, .go 0, .go 0, .go 0]
  obtain ⟨s, hs⟩ : ∃ s, System.execute (next false) boot ls = some s := ⟨_, rfl⟩
  have hr : (system 2 false).Reachable s := .run (.of_execute hs) (.init rfl)
  cases hs
  exact ⟨_, hr, rfl, rfl, rfl, rfl, not_zombie_of_waiting hr rfl rfl rfl rfl⟩

/-- **The process tree**: whatever runs, sleeps or is a `ZOMBIE`, the first process apart, has a parent
that is neither free nor a `ZOMBIE`, and parent pointers lead to the first process without a cycle. -/
theorem parent_lives {rel : Bool} {s : Family n} (hs : (system n rel).Reachable s) :
    (∀ q, q ≠ 0 → s.state q ≠ .unused → s.state q ≠ .used →
      ∃ p, s.parent q = some p ∧ s.state p ≠ .unused ∧ s.state p ≠ .zombie) ∧
    ∀ q, s.state q ≠ .unused ∧ s.state q ≠ .used ∨ s.parent q ≠ none →
      (∃ k, ancestor s.parent k q = some 0) ∧ ∀ k, ancestor s.parent (k + 1) q ≠ some q := by
  obtain ⟨hplaced, hkin, -⟩ := sound_reachable hs
  have horphan : ∀ q, q ≠ 0 → s.state q ≠ .unused → s.state q ≠ .used → s.parent q ≠ none :=
    fun q hq hu hu' => hkin.orphan q (hplaced.started hu hu') hq
  refine ⟨fun q hq hu hu' => ?_, fun q hq => ?_⟩
  · obtain ⟨p, hp⟩ := Option.ne_none_iff_exists'.1 (horphan q hq hu hu')
    have hkeeps : ((s.pc p).stage (s.state p)).Keeps q := hkin.keeps p q hp
    refine ⟨p, hp, fun h => ?_, fun h => ?_⟩
    · rw [(hplaced p).unused.1 (.inl h), h] at hkeeps
      exact hkeeps
    · have hz := (hplaced p).zombie.1 h
      revert hz hkeeps
      cases s.pc p <;> simp [Stage.Keeps]
  · have hdesc : Descends s.parent 0 q := by
      by_cases hq0 : q = 0
      · exact hq0 ▸ .root
      · exact hkin.descends q (hq.elim (fun h => horphan q hq0 h.1 h.2) id)
    exact ⟨hdesc.exists_ancestor, hdesc.ancestor_ne hkin.first.1⟩

/-- A child has exited; its child has been given to the first process. -/
theorem parent_lives_three : ∃ s : Family 3, (system 3 true).Reachable s ∧ s.state 1 = .zombie ∧
    s.state 2 = .runnable ∧ s.parent 2 = some 0 ∧ ∃ k, ancestor s.parent k 2 = some 0 := by
  let ls : List (FamilyOp 3) := [.dispatch 0, .go 0, .fork 0 1, .go 0, .go 0, .go 0, .dispatch 1, .go 1,
    .fork 1 2, .go 1, .go 1, .go 1, .exit 1, .go 1, .go 1, .go 1, .go 1, .go 1, .go 1, .go 1, .go 1,
    .go 1, .go 1, .go 1, .go 1, .go 1, .go 1]
  obtain ⟨s, hs⟩ : ∃ s, System.execute (next true) boot ls = some s := ⟨_, rfl⟩
  have hr : (system 3 true).Reachable s := .run (.of_execute hs) (.init rfl)
  cases hs
  exact ⟨_, hr, rfl, rfl, rfl, ((parent_lives hr).2 2 (.inl ⟨nofun, nofun⟩)).1⟩

end Family

end Xv6

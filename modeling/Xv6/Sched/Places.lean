import Xv6.Sched.Family
import Xv6.Sched.Kinship

/-!
# Sched/Places — where a process is tells what it holds

`Placed` reads the locks, the state and the channel of an entry off the place of its process.  A step
moves one process (`Shift`), or a parent with the child it is making (`pair_refines`), and leaves the
other entries alone: it is then a run of the two machines of `Sched/Kinship` (`Refines`).
-/

namespace Xv6

open Machinery Function Relation Option

/-! ## Where a process is and what it holds -/

namespace FamilyPc

variable {n : ℕ}

/-- The process holds `wait_lock`. -/
@[simp]
def holdsWait : FamilyPc n → Bool
  | .reparent _ | .reparentWakeup _ _ | .parentWakeup _ _ | .exitLock | .exitRelease | .waitScan _ _
  | .waitReturn | .sleepLock | .sleepRelease => true
  | _ => false

/-- The process holds its own lock on the way to sleep. -/
@[simp]
def holdsSelf : FamilyPc n → Bool
  | .sleepRelease | .dozing => true
  | _ => false

@[simp]
def isZombie : FamilyPc n → Bool
  | .exitRelease | .dead => true
  | _ => false

/-- `p->chan` is set. -/
@[simp]
def onChan : FamilyPc n → Bool
  | .asleep | .resumed => true
  | _ => false

/-- A process can go from `a` to `x` without being born, dying, or touching `p->chan`. -/
def kindred (a x : FamilyPc n) : Bool :=
  a ≠ .none ∧ x ≠ .none ∧ x.isZombie = a.isZombie ∧ x.onChan = a.onChan

@[simp]
def stage : FamilyPc n → ProcState → Stage (Fin n)
  | .none, .used => .used
  | .none, _ => .free
  | .forkCopy np, _ | .forkUsed np, _ => .forking np
  | .forkParent np, _ => .adopting np
  | .reparent rest, _ | .reparentWakeup _ rest, _ => .leaving rest
  | .parentWakeup _ _, _ | .exitLock, _ | .exitRelease, _ | .dead, _ => .childless
  | _, _ => .normal

/-- What a process at this place has to do with waiting. -/
@[simp]
def role : FamilyPc n → ProcState → Role (Fin n)
  | .waitScan _ rest, _ => .looking rest
  | .sleepLock, _ | .sleepRelease, _ => .clear
  | .dozing, _ | .asleep, .sleeping | .resumed, .sleeping => .waiting
  | .reparentWakeup scan _, _ => .handing scan
  | .parentWakeup c scan, _ => .telling c scan
  | .exitLock, _ => .told
  | _, _ => .idle

theorem holdsWait_of_active {pc : FamilyPc n} {state : ProcState} (h : (pc.role state).active) :
    pc.holdsWait = true := by
  revert h
  unfold role
  split <;> simp [Role.active]

theorem role_runnable (pc : FamilyPc n) : pc.role .runnable = pc.role .sleeping ∨
    pc.role .runnable = .idle ∧ pc.role .sleeping = .waiting := by
  cases pc <;> simp

theorem role_runnable_ne {pc : FamilyPc n} (h : pc.holdsSelf = false) :
    pc.role .runnable ≠ .waiting := by
  cases pc <;> simp_all

theorem sleeping_of_waiting {pc : FamilyPc n} {state : ProcState} (h : pc.holdsSelf = false)
    (hw : pc.role state = .waiting) : pc.onChan = true ∧ state = .sleeping := by
  cases pc <;> cases state <;> simp_all

theorem none_of_used {pc : FamilyPc n} {state : ProcState} (h : pc.stage state = .used) :
    pc = .none ∧ state = .used := by
  revert h
  unfold stage
  split <;> simp

end FamilyPc

namespace Family

variable {n : ℕ}

/-! ## Entries in their places -/

/-- What the place of `p` says about the rest of its entry. -/
structure Proper (p : Fin n) (holds : Prop) (lock : EntryLock n) (state : ProcState)
    (chan : Option (Fin n)) (pc : FamilyPc n) : Prop where
  wait : holds ↔ pc.holdsWait = true
  self : pc.holdsSelf = true → lock = .proc p
  unused : state = .unused ∨ state = .used ↔ pc = .none
  zombie : state = .zombie ↔ pc.isZombie = true
  chan : chan = if pc.onChan then some p else none

theorem Proper.move {p : Fin n} {holds holds' : Prop} {lock lock' : EntryLock n} {state : ProcState}
    {chan : Option (Fin n)} {a x : FamilyPc n} (h : Proper p holds lock state chan a)
    (hk : a.kindred x = true) (hwait : holds' ↔ x.holdsWait = true)
    (hself : x.holdsSelf = true → lock' = .proc p) : Proper p holds' lock' state chan x := by
  obtain ⟨ha, hx, hz, hc⟩ := of_decide_eq_true hk
  exact ⟨hwait, hself, ⟨fun hu => absurd (h.unused.1 hu) ha, fun h => absurd h hx⟩, by rw [h.zombie, hz],
    by rw [h.chan, hc]⟩

/-- Every entry is in its place. -/
def Placed (s : Family n) : Prop :=
  ∀ p, Proper p (s.waitLock = some p) (s.lock p) (s.state p) (s.chan p) (s.pc p)

def kin (s : Family n) : Kin (Fin n) := ⟨fun p => (s.pc p).stage (s.state p), s.parent⟩

def vigil (s : Family n) : Vigil (Fin n) :=
  ⟨fun p => (s.pc p).role (s.state p), s.parent, fun p => s.state p = .zombie⟩

section

variable {s t : Family n} {p q : Fin n} {a x : FamilyPc n} {lock : Fin n → EntryLock n}

/-- Entry `q` is as it was. -/
structure Same (s t : Family n) (q : Fin n) : Prop where
  pc : t.pc q = s.pc q
  lock : (s.pc q).holdsSelf = true → t.lock q = s.lock q
  state : t.state q = s.state q
  chan : t.chan q = s.chan q
  waitLock : t.waitLock = some q ↔ s.waitLock = some q

theorem Same.proper (h : Same s t q) (hs : Placed s) :
    Proper q (t.waitLock = some q) (t.lock q) (t.state q) (t.chan q) (t.pc q) := by
  obtain ⟨h1, h2, h3, h4, h5⟩ := hs q
  rw [h.pc, h.state, h.chan, propext h.waitLock]
  exact ⟨h1, fun hself => (h.lock hself).trans (h2 hself), h3, h4, h5⟩

/-- No entry but that of `p` changes, parents apart. -/
def Local (p : Fin n) (s t : Family n) : Prop := ∀ q, q ≠ p → Same s t q

theorem stage_eq (h : s.pc p = a) : s.kin.stage p = a.stage (s.state p) :=
  congrArg (FamilyPc.stage · _) h

theorem role_eq (h : s.pc p = a) : s.vigil.role p = a.role (s.state p) :=
  congrArg (FamilyPc.role · _) h

theorem Local.placed (hl : Local p s t) (hs : Placed s)
    (hp : Proper p (t.waitLock = some p) (t.lock p) (t.state p) (t.chan p) (t.pc p)) : Placed t := by
  intro q
  by_cases hq : q = p
  · exact hq ▸ hp
  · exact (hl q hq).proper hs

theorem Local.kin_eq (hl : Local p s t) :
    t.kin = ⟨update s.kin.stage p ((t.pc p).stage (t.state p)), t.parent⟩ :=
  Kin.ext (eq_update_iff.2 ⟨rfl, fun q hq => by simp only [kin, (hl q hq).pc, (hl q hq).state]⟩) rfl

theorem Local.vigil_eq (hl : Local p s t) :
    t.vigil = ⟨update s.vigil.role p ((t.pc p).role (t.state p)), t.parent,
      update s.vigil.dead p (t.state p = .zombie)⟩ :=
  Vigil.ext (eq_update_iff.2 ⟨rfl, fun q hq => by simp only [vigil, (hl q hq).pc, (hl q hq).state]⟩) rfl
    (eq_update_iff.2 ⟨rfl, fun q hq => by simp only [vigil, (hl q hq).state]⟩)

/-- `p` may go to `x`, with `wait_lock` and the locks of the entries as given. -/
structure Shift (s : Family n) (p : Fin n) (x : FamilyPc n) (wl : Option (Fin n))
    (lock : Fin n → EntryLock n) : Prop where
  waitLock : ∀ q, q ≠ p → (wl = some q ↔ s.waitLock = some q)
  wait : wl = some p ↔ x.holdsWait = true
  frame : ∀ q, q ≠ p → (s.pc q).holdsSelf = true → lock q = s.lock q
  self : x.holdsSelf = true → lock p = .proc p
  kindred : (s.pc p).kindred x = true

theorem Placed.alone (hs : Placed s) (h : s.waitLock = none ∨ s.waitLock = some p) :
    s.vigil.Alone p := fun r hr ha => by
  have hwait := (hs r).wait.2 (FamilyPc.holdsWait_of_active ha)
  obtain hnone | hp := h
  · cases hnone.symm.trans hwait
  · exact hr (some.inj (hwait.symm.trans hp))

theorem Placed.inactive (hs : Placed s) (h : s.waitLock = none) (r : Fin n) :
    ¬ (s.vigil.role r).active := fun ha => by
  cases h.symm.trans ((hs r).wait.2 (FamilyPc.holdsWait_of_active ha))

theorem Placed.not_holdsSelf (hs : Placed s) (hlock : s.lock q = .free) :
    (s.pc q).holdsSelf = false := Bool.eq_false_iff.2 fun h => by
  have := (hs q).self h
  rw [hlock] at this
  cases this

/-- `p` keeps `wait_lock`, or does not hold it. -/
theorem Placed.shift (hs : Placed s) (hpc : s.pc p = a) (hx : x.holdsWait = a.holdsWait)
    (hk : a.kindred x = true) (hframe : ∀ q, q ≠ p → (s.pc q).holdsSelf = true → lock q = s.lock q)
    (hself : x.holdsSelf = true → lock p = .proc p) : Shift s p x s.waitLock lock := by
  subst hpc
  exact ⟨fun _ _ => Iff.rfl, by rw [(hs p).wait, hx], hframe, hself, hk⟩

theorem Shift.take (hfree : s.waitLock = Option.none) (hpc : s.pc p = a) (hx : x.holdsWait = true)
    (hk : a.kindred x = true) (hself : x.holdsSelf = false) : Shift s p x (some p) s.lock := by
  subst hpc
  refine ⟨fun q hq => ?_, ⟨fun _ => hx, fun _ => rfl⟩, fun _ _ _ => rfl, fun h => ?_, hk⟩
  · rw [hfree]
    exact ⟨fun h => absurd (some.inj h).symm hq, nofun⟩
  · cases hself.symm.trans h

theorem Placed.drop (hs : Placed s) (hpc : s.pc p = a) (ha : a.holdsWait = true)
    (hx : x.holdsWait = false) (hk : a.kindred x = true)
    (hframe : ∀ q, q ≠ p → (s.pc q).holdsSelf = true → lock q = s.lock q)
    (hself : x.holdsSelf = true → lock p = .proc p) : Shift s p x Option.none lock := by
  subst hpc
  have hheld := (hs p).wait.2 ha
  refine ⟨fun q hq => ?_, ⟨nofun, fun h => ?_⟩, hframe, hself, hk⟩
  · rw [hheld]
    exact ⟨nofun, fun h => absurd (some.inj h).symm hq⟩
  · cases hx.symm.trans h

theorem Placed.started (hs : Placed s) (hu : s.state q ≠ .unused)
    (hu' : s.state q ≠ .used) : (s.kin.stage q).started := by
  have hnone : s.pc q ≠ .none := fun h => ((hs q).unused.2 h).elim hu hu'
  revert hnone
  simp only [kin]
  cases s.pc q <;> simp [Stage.started]

end

/-! ## A step is a run of the abstract machines -/

variable [NeZero n] {s t : Family n} {p : Fin n}

/-- A step keeps every process in its place and is a run of the abstract machines. -/
structure Refines (s t : Family n) : Prop where
  placed : Placed t
  kin : ReflTransGen (Kin.Step 0) s.kin t.kin
  vigil : ReflTransGen (Vigil.Step 0) s.vigil t.vigil

theorem Refines.trans {s t u : Family n} (h : Refines s t) (h' : Refines t u) : Refines s u :=
  ⟨h'.placed, h.kin.trans h'.kin, h.vigil.trans h'.vigil⟩

/-- The lives after `p` has come to stage `a`. -/
abbrev KinRun (s : Family n) (p : Fin n) (a : Stage (Fin n)) : Prop :=
  ReflTransGen (Kin.Step 0) s.kin ⟨update s.kin.stage p a, s.kin.parent⟩

/-- The vigils after `p` has taken the role `a`. -/
abbrev VigilRun (s : Family n) (p : Fin n) (a : Role (Fin n)) : Prop :=
  ReflTransGen (Vigil.Step 0) s.vigil { s.vigil with role := update s.vigil.role p a }

theorem kin_refl {a : FamilyPc n} {b : Stage (Fin n)} (hpc : s.pc p = a) (h : b = a.stage (s.state p)) :
    s.KinRun p b := by
  have hself : update s.kin.stage p b = s.kin.stage := by
    rw [h, ← stage_eq hpc, update_eq_self]
  rw [KinRun, hself]

theorem vigil_refl {a : FamilyPc n} {b : Role (Fin n)} (hpc : s.pc p = a) (h : b = a.role (s.state p)) :
    s.VigilRun p b := by
  have hself : update s.vigil.role p b = s.vigil.role := by
    rw [h, ← role_eq hpc, update_eq_self]
  rw [VigilRun, hself]

theorem vigil_settle (hscan : ∀ scan, (s.pc p).role (s.state p) = .handing scan → scan = []) :
    s.VigilRun p .idle := .single (.settle hscan)

theorem Local.refines_of_dead {x : FamilyPc n} {state : ProcState} (hl : Local p s t) (hs : Placed s)
    (hx : t.pc p = x) (hstate : t.state p = state)
    (hp : Proper p (t.waitLock = some p) (t.lock p) state (t.chan p) x)
    (hk : ReflTransGen (Kin.Step 0) s.kin ⟨update s.kin.stage p (x.stage state), t.parent⟩)
    (hv : ReflTransGen (Vigil.Step 0) s.vigil ⟨update s.vigil.role p (x.role state), t.parent,
      update s.vigil.dead p (state = .zombie)⟩) : Refines s t := by
  subst hx hstate
  exact ⟨hl.placed hs hp, hl.kin_eq ▸ hk, hl.vigil_eq ▸ hv⟩

/-- Nobody dies in the step. -/
theorem Local.refines {x : FamilyPc n} {state : ProcState} (hl : Local p s t) (hs : Placed s)
    (hx : t.pc p = x) (hstate : t.state p = state)
    (hp : Proper p (t.waitLock = some p) (t.lock p) state (t.chan p) x)
    (hz : x.isZombie = (s.pc p).isZombie)
    (hk : ReflTransGen (Kin.Step 0) s.kin ⟨update s.kin.stage p (x.stage state), t.parent⟩)
    (hv : ReflTransGen (Vigil.Step 0) s.vigil
      ⟨update s.vigil.role p (x.role state), t.parent, s.vigil.dead⟩) : Refines s t := by
  have hdead : update s.vigil.dead p (state = .zombie) = s.vigil.dead :=
    update_eq_iff.2 ⟨propext (by rw [hp.zombie, hz]; exact (hs p).zombie.symm), fun _ _ => rfl⟩
  exact hl.refines_of_dead hs hx hstate hp hk (hdead.symm ▸ hv)

theorem Shift.refines {x : FamilyPc n} {wl : Option (Fin n)} {lock : Fin n → EntryLock n}
    {parent : Fin n → Option (Fin n)} (h : Shift s p x wl lock) (hs : Placed s)
    (hk : ReflTransGen (Kin.Step 0) s.kin ⟨update s.kin.stage p (x.stage (s.state p)), parent⟩)
    (hv : ReflTransGen (Vigil.Step 0) s.vigil
      ⟨update s.vigil.role p (x.role (s.state p)), parent, s.vigil.dead⟩) :
    Refines s { s with waitLock := wl, lock := lock, pc := update s.pc p x, parent := parent } := by
  refine Local.refines (fun q hq => ⟨update_of_ne hq _ _, h.frame q hq, rfl, rfl, h.waitLock q hq⟩)
    hs (update_self ..) rfl ((hs p).move h.kindred h.wait h.self) ?_ hk hv
  exact (of_decide_eq_true h.kindred).2.2.1

theorem Placed.walk {parent : Fin n → Option (Fin n)} (hs : Placed s) (hpc : s.pc p = a)
    (hx : x.holdsWait = a.holdsWait) (hkin : a.kindred x = true) (hself : x.holdsSelf = false)
    (hk : ReflTransGen (Kin.Step 0) s.kin ⟨update s.kin.stage p (x.stage (s.state p)), parent⟩)
    (hv : ReflTransGen (Vigil.Step 0) s.vigil
      ⟨update s.vigil.role p (x.role (s.state p)), parent, s.vigil.dead⟩) :
    Refines s { s with pc := update s.pc p x, parent := parent } :=
  (hs.shift hpc hx hkin (fun _ _ _ => rfl) fun h => absurd (hself.symm.trans h) (by simp)).refines hs hk hv

/-- A parent `p` goes to `x` while the entry `np` of the child it is making changes; neither waits or
wakes. -/
theorem pair_refines {np : Fin n} {a x : FamilyPc n} (hs : Placed s) (hpc : s.pc p = a)
    (hnone : s.pc np = .none) (hkin : a.kindred x = true) (hx : x.holdsWait = a.holdsWait)
    (hself : x.holdsSelf = false) (hrole : x.role (s.state p) = a.role (s.state p))
    (hwait : t.waitLock = s.waitLock)
    (hframe : ∀ q, q ≠ np → t.pc q = update s.pc p x q ∧ t.lock q = s.lock q ∧ t.state q = s.state q ∧
      t.chan q = s.chan q)
    (hnp : Proper np (s.waitLock = some np) (t.lock np) (t.state np) (t.chan np) (t.pc np))
    (hidle : (t.pc np).role (t.state np) = .idle) (hz : t.state np ≠ .zombie)
    (hk : Kin.Step 0 s.kin ⟨update (update s.kin.stage p (x.stage (s.state p))) np
      ((t.pc np).stage (t.state np)), t.parent⟩)
    (hv : ReflTransGen (Vigil.Step 0) s.vigil { s.vigil with parent := t.parent }) : Refines s t := by
  subst hpc
  have hne : p ≠ np := fun h => (of_decide_eq_true hkin).1 (h ▸ hnone)
  have hp : t.pc p = x := by rw [(hframe p hne).1, update_self]
  have hq : ∀ q, q ≠ p → q ≠ np → Same s t q := fun q hqp hqn =>
    ⟨by rw [(hframe q hqn).1, update_of_ne hqp], fun _ => (hframe q hqn).2.1, (hframe q hqn).2.2.1,
      (hframe q hqn).2.2.2, by rw [hwait]⟩
  refine ⟨fun q => ?_, .single ?_, ?_⟩
  · by_cases hqn : q = np
    · rw [hqn, hwait]
      exact hnp
    by_cases hqp : q = p
    · rw [hqp, hwait, hp, (hframe p hne).2.2.1, (hframe p hne).2.2.2]
      exact (hs p).move hkin (by rw [(hs p).wait, hx]) fun h => absurd (hself.symm.trans h) (by simp)
    · exact (hq q hqp hqn).proper hs
  · convert hk using 1
    refine Kin.ext (eq_update_iff.2 ⟨rfl, fun q hqn => ?_⟩) rfl
    by_cases hqp : q = p
    · simp only [kin, hqp, hp, (hframe p hne).2.2.1, update_self]
    · rw [update_of_ne hqp]
      simp only [kin, (hq q hqp hqn).pc, (hq q hqp hqn).state]
  · convert hv using 1
    refine Vigil.ext (funext fun q => ?_) rfl (funext fun q => ?_)
    · by_cases hqn : q = np
      · rw [hqn]
        exact hidle.trans (by simp [vigil, hnone])
      by_cases hqp : q = p
      · simp only [vigil, hqp, hp, (hframe p hne).2.2.1, hrole]
      · simp only [vigil, (hq q hqp hqn).pc, (hq q hqp hqn).state]
    · by_cases hqn : q = np
      · have := (hs np).zombie
        simp only [hnone, FamilyPc.isZombie] at this
        simp [vigil, hqn, hz, this]
      · simp only [vigil, (hframe q hqn).2.2.1]

end Family

end Xv6

import Xv6.Log.Group
import Xv6.Machinery.Tally

/-!
# Log/Isolation — an operation commits with its group, and with no other

`Trans` says what a step can do, `Inv` what every step keeps.  `current h` is the group still open
after the history `h`, and `opsOf p g` follows process `p` through a group.
-/

namespace Xv6

open Machinery Function List Option Bool

namespace Group

variable {ι : Type}

/-! ## Groups of a history

A commit ends the group of the events since the last one, and `Grouped` asks each to be complete. -/

/-- The events since the last commit. -/
def current (h : List (Event ι)) : List (Event ι) :=
  h.foldl (fun g e => match e with
    | .committed _ => []
    | e => g ++ [e]) []

@[simp] theorem current_nil : current ([] : List (Event ι)) = [] := rfl

@[simp] theorem current_committed (h : List (Event ι)) (bs : List ℕ) :
    current (h ++ [.committed bs]) = [] := by
  simp [current, foldl_append]

theorem current_append (h : List (Event ι)) {e : Event ι} (he : ∀ bs, e ≠ .committed bs) :
    current (h ++ [e]) = current h ++ [e] := by
  cases e with
  | committed bs => exact absurd rfl (he bs)
  | _ => simp [current, foldl_append]

variable [DecidableEq ι]

/-- Process `p` goes through one event: `some true` while it is inside an operation. -/
def opStep (p : ι) (inOp : Option Bool) : Event ι → Option Bool
  | .began q => if q = p then (if inOp = some false then some true else none) else inOp
  | .wrote q _ => if q = p then (if inOp = some true then some true else none) else inOp
  | .ended q => if q = p then (if inOp = some true then some false else none) else inOp
  | .committed _ => inOp

/-- Process `p` through a group it enters outside of any operation. -/
def opsOf (p : ι) (g : List (Event ι)) : Option Bool := g.foldl (opStep p) (some false)

@[simp] theorem opsOf_nil (p : ι) : opsOf p ([] : List (Event ι)) = some false := rfl

@[simp] theorem opsOf_append (p : ι) (g : List (Event ι)) (e : Event ι) :
    opsOf p (g ++ [e]) = opStep p (opsOf p g) e := by
  simp [opsOf, foldl_append]

/-- A commit of `bs` ends the group `g`: it has the blocks the group logged, and its operations are
whole. -/
structure Complete (g : List (Event ι)) (bs : List ℕ) : Prop where
  blocks : ∀ b, b ∈ bs ↔ ∃ p, Event.wrote p b ∈ g
  ops : ∀ p, opsOf p g = some false

/-- Every group that was committed is complete. -/
def Grouped (h : List (Event ι)) : Prop :=
  ∀ h₁ bs h₂, h = h₁ ++ .committed bs :: h₂ → Complete (current h₁) bs

theorem Grouped.append {h : List (Event ι)} (hg : Grouped h) {e : Event ι}
    (he : ∀ bs, e = .committed bs → Complete (current h) bs) : Grouped (h ++ [e]) := by
  intro h₁ bs h₂ heq
  rcases eq_nil_or_concat h₂ with rfl | ⟨h3, e', rfl⟩
  · obtain ⟨rfl, hl⟩ := append_inj' heq rfl
    exact he bs (singleton_injective hl)
  · rw [concat_eq_append, ← cons_append, ← append_assoc] at heq
    exact hg h₁ bs h3 (append_inj' heq rfl).1

/-! ## What a step can do

Most steps move one process and nothing else; the others are the bodies of `begin_op`, `log_write`,
`end_op` and `commit`. -/

/-- A move that leaves the standing of the process in the protocol as it is. -/
structure Silent (c c' : Pc) : Prop where
  inOp : c'.inOp = c.inOp
  commits : c'.commits = c.commits
  clear : c' ≠ .commitClear
  clear_from : c ≠ .commitClear
  emptied : c' = .doneBody → c = .commitDone
  done : c' ≠ .commitDone

/-- A silent move that neither sleeps nor panics. -/
structure Smooth (c c' : Pc) : Prop extends Silent c c' where
  awake : c' ≠ .asleep
  calm : ∀ e, c' ≠ .panicked e

/-- The points that are not asleep, at a panic or behind the reading of `log.lh` by `commit`. -/
def plain : Pc → Bool
  | .asleep | .commitClear | .commitDone | .doneBody | .panicked _ => false
  | _ => true

variable {c c' d : Pc} {a : Act} {p q : ι} {s t : Group ι} {size : ℕ}

theorem Smooth.of_plain (hi : c'.inOp = c.inOp) (hc : c'.commits = c.commits)
    (hf : c ≠ .commitClear) (hp : plain c' = true) : Smooth c c' := by
  constructor
  · constructor
    · exact hi
    · exact hc
    · rintro rfl; cases hp
    · exact hf
    · rintro rfl; cases hp
    · rintro rfl; cases hp
  · rintro rfl; cases hp
  · rintro e rfl; cases hp

/-- The tests on which `begin_op` sleeps. -/
def Waits (s : Group ι) : Prop :=
  s.committing = true ∨ (s.lh.length : ℤ) + (s.outstanding + 1) * MAXOPBLOCKS > LOGSIZE

/-- How `log.lock` and the points at which a process holds it change together. -/
def LockStep (p : ι) (c c' : Pc) (l l' : Option ι) : Prop :=
  (l' = l ∧ c'.holds = c.holds) ∨ (l = none ∧ l' = some p ∧ c'.holds = true) ∨
    (c.holds = true ∧ l' = none ∧ c'.holds = false)

/-- **What a step of process `p` can do**, by what it changes. -/
inductive Trans (size : ℕ) (s : Group ι) (p : ι) (a : Act) : Group ι → Prop
  | silent (c : Pc) (l : Option ι) (hc : Smooth (s.thread p).pc c)
      (hl : LockStep p (s.thread p).pc c s.lock l) (hb : ∀ b, c = .writeBody b → a = .logWrite b) :
      Trans size s p a { s.goto p c with lock := l }
  | sleep (hc : (s.thread p).pc = .beginTest) (hw : s.Waits) :
      Trans size s p a (s.release p .asleep)
  | enter (hc : (s.thread p).pc = .beginTest) (hw : s.committing = false)
      (hn : (s.lh.length : ℤ) + (s.outstanding + 1) * MAXOPBLOCKS ≤ LOGSIZE) :
      Trans size s p a { s.record (.began p) with
        outstanding := s.outstanding + 1
        thread := update s.thread p ⟨.beginRelease, ∅⟩ }
  | write (b : ℕ) (hc : (s.thread p).pc = .writeBody b)
      (hn : s.lh.length < LOGSIZE ∧ (s.lh.length : ℤ) < size - 1) :
      Trans size s p a { s.record (.wrote p b) with
        lh := if b ∈ s.lh then s.lh else s.lh ++ [b]
        thread := update s.thread p ⟨.writeRelease, insert b (s.thread p).used⟩ }
  | tooBig (b : ℕ) (hc : (s.thread p).pc = .writeBody b)
      (hn : LOGSIZE ≤ s.lh.length ∨ (size : ℤ) - 1 ≤ s.lh.length) :
      Trans size s p a (s.goto p (.panicked .tooBig))
  | outsideOfTrans (b : ℕ) (hc : (s.thread p).pc = .writeBody b) (ho : s.outstanding < 1) :
      Trans size s p a (s.goto p (.panicked .outsideOfTrans))
  | committing (hc : (s.thread p).pc = .endBody) (hw : s.committing = true) :
      Trans size s p a ((s.decrement p).goto p (.panicked .committing))
  | last (hc : (s.thread p).pc = .endBody) (hw : s.committing = false) (ho : s.outstanding = 1) :
      Trans size s p a { (s.decrement p).goto p (.endRelease true) with committing := true }
  | leave (hc : (s.thread p).pc = .endBody) (hw : s.committing = false) (ho : s.outstanding ≠ 1) :
      Trans size s p a ((s.decrement p).wakeup.goto p (.endRelease false))
  | commit (hc : (s.thread p).pc = .commit) :
      Trans size s p a ((s.record (.committed s.lh)).goto p .commitClear)
  | clear (hc : (s.thread p).pc = .commitClear) :
      Trans size s p a { s.goto p .commitDone with lh := [] }
  | done (hc : (s.thread p).pc = .doneBody) :
      Trans size s p a ({ s with committing := false }.wakeup.goto p .doneRelease)

theorem trans_acquire (hc : (s.thread p).pc = c) (h : s.acquire p c' = some t) (hs : Smooth c c')
    (hh : c'.holds = true) (hb : ∀ b, c' = .writeBody b → a = .logWrite b) : Trans size s p a t := by
  unfold acquire at h
  split at h
  next hl =>
    obtain rfl := some.inj h
    exact .silent c' (some p) (hc ▸ hs) (.inr (.inl ⟨hl, rfl, hh⟩)) hb
  next => cases h

theorem trans_release
    (hc : (s.thread p).pc = c) (hs : Smooth c c') (hp : c.holds = true) (hh : c'.holds = false) :
    Trans size s p a (s.release p c') := by
  refine .silent c' none (hc ▸ hs) (.inr (.inr ⟨hc ▸ hp, rfl, hh⟩)) ?_
  rintro b rfl
  cases hh

theorem trans_beginBody (hc : (s.thread p).pc = .beginTest) : Trans size s p a (s.beginBody p) := by
  unfold beginBody
  split
  next hw => exact .sleep hc (.inl hw)
  next hw =>
    split
    next hn => exact .sleep hc (.inr hn)
    next hn => exact .enter hc (not_eq_true _ ▸ hw) (not_lt.1 hn)

theorem trans_writeBody {b : ℕ}
    (hc : (s.thread p).pc = .writeBody b) : Trans size s p a (s.writeBody size p b) := by
  unfold writeBody
  split
  next hn => exact .tooBig b hc hn
  next hn =>
    split
    next ho => exact .outsideOfTrans b hc ho
    next => exact .write b hc (by omega)

theorem trans_endBody (hc : (s.thread p).pc = .endBody) : Trans size s p a (s.endBody p) := by
  unfold endBody
  split
  next hw => exact .committing hc hw
  next hw =>
    have hw : s.committing = false := not_eq_true _ ▸ hw
    split
    next ho => exact .last hc hw (by omega)
    next ho => exact .leave hc hw (by omega)

/-- **Every step is one of the transitions.** -/
theorem trans_of_next (h : s.next size p a = some t) : Trans size s p a t := by
  unfold next at h
  split at h
  · split at h
    next hc => exact trans_acquire hc h (.of_plain rfl rfl nofun rfl) rfl nofun
    next => cases h
  · split at h
    next hc =>
      exact trans_acquire hc h (.of_plain rfl rfl nofun rfl) rfl fun _ hb => by cases hb; rfl
    next => cases h
  · split at h
    next hc => exact trans_acquire hc h (.of_plain rfl rfl nofun rfl) rfl nofun
    next => cases h
  · split at h
    next hc =>
      exact some.inj h ▸ .silent .woken s.lock (hc ▸ .of_plain rfl rfl nofun rfl)
        (.inl ⟨rfl, by rw [hc]; rfl⟩) nofun
    next => cases h
  · split at h
    next hc => exact some.inj h ▸ trans_beginBody hc
    next hc => exact trans_acquire hc h (.of_plain rfl rfl nofun rfl) rfl nofun
    next hc => exact some.inj h ▸ trans_release hc (.of_plain rfl rfl nofun rfl) rfl rfl
    next hc => exact some.inj h ▸ trans_writeBody hc
    next hc => exact some.inj h ▸ trans_release hc (.of_plain rfl rfl nofun rfl) rfl rfl
    next hc => exact some.inj h ▸ trans_endBody hc
    next hc => exact some.inj h ▸ trans_release hc (.of_plain rfl rfl nofun rfl) rfl rfl
    next hc => exact some.inj h ▸ trans_release hc (.of_plain rfl rfl nofun rfl) rfl rfl
    next hc => exact some.inj h ▸ .commit hc
    next hc => exact some.inj h ▸ .clear hc
    next hc =>
      exact trans_acquire hc h ⟨⟨rfl, rfl, nofun, nofun, fun _ => rfl, nofun⟩, nofun, nofun⟩ rfl nofun
    next hc => exact some.inj h ▸ .done hc
    next hc => exact some.inj h ▸ trans_release hc (.of_plain rfl rfl nofun rfl) rfl rfl
    all_goals cases h

/-! ## The invariant

`outstanding` counts the processes inside an operation and `committing` those in a commit; what the
protocol promises follows from the two counts. -/

def pc (s : Group ι) (q : ι) : Pc := (s.thread q).pc

theorem pc_update (th : ι → Thread) (p : ι) (x : Thread) :
    (fun q => (update th p x q).pc) = update (fun q => (th q).pc) p x.pc := by
  funext q
  by_cases h : q = p
  · subst h; simp
  · simp [h]

/-- The point `wakeup(&log)` leaves a process at. -/
def woke (c : Pc) : Pc := if c = .asleep then .woken else c

theorem eq_of_woke_eq (h : woke c = d) (hw : d ≠ .woken) : c = d := by
  unfold woke at h
  split at h
  next => exact absurd h.symm hw
  next => exact h

theorem woke_ne_asleep (c : Pc) : woke c ≠ .asleep := by
  unfold woke
  split
  next => nofun
  next h => exact h

@[simp] theorem woke_holds (c : Pc) : (woke c).holds = c.holds := by cases c <;> rfl
@[simp] theorem woke_inOp (c : Pc) : (woke c).inOp = c.inOp := by cases c <;> rfl
@[simp] theorem woke_commits (c : Pc) : (woke c).commits = c.commits := by cases c <;> rfl

@[simp] theorem pc_goto (s : Group ι) (p : ι) (c : Pc) : (s.goto p c).pc = update s.pc p c :=
  pc_update s.thread p _

omit [DecidableEq ι] in
@[simp] theorem pc_wakeup (s : Group ι) : s.wakeup.pc = fun q => woke (s.pc q) := by
  funext q
  simp only [pc, wakeup, woke]
  split <;> simp [*]

theorem LockStep.holds_iff {c : ι → Pc} {l l' : Option ι}
    (h : LockStep p (c p) c' l l') (hl : ∀ q, (c q).holds = true ↔ l = some q) (q : ι) :
    (update c p c' q).holds = true ↔ l' = some q := by
  have hp := hl p
  have hq := hl q
  by_cases hqp : q = p
  · subst hqp
    rw [update_self]
    rcases h with ⟨rfl, h⟩ | ⟨-, rfl, h⟩ | ⟨-, rfl, h⟩
    · rw [h, hq]
    · simp [h]
    · simp [h]
  · rw [update_of_ne hqp]
    rcases h with ⟨rfl, -⟩ | ⟨rfl, rfl, -⟩ | ⟨h, rfl, -⟩
    · exact hq
    · rw [hq]
      simp [Ne.symm hqp]
    · rw [hq, hp.1 h]
      simp [Ne.symm hqp]

/-- A process found at a point the step does not lead to was there before. -/
theorem eq_of_update_eq {c : ι → Pc} (h : update c p c' q = d) (hd : c' ≠ d) : c q = d := by
  by_cases hqp : q = p
  · subst hqp
    rw [update_self] at h
    exact absurd h hd
  · rwa [update_of_ne hqp] at h

theorem eq_of_update_woke_eq {c : ι → Pc}
    (h : update (fun q => woke (c q)) p c' q = d) (hd : c' ≠ d) (hw : d ≠ .woken) : c q = d :=
  eq_of_woke_eq (eq_of_update_eq (c := fun q => woke (c q)) h hd) hw

section Fintype

variable [Fintype ι]

def inOps (c : ι → Pc) : ℕ := tally (fun c => c.inOp.toNat) c

/-- The number of processes between `log.committing = 1` and `log.committing = 0`. -/
def committers (c : ι → Pc) : ℕ := tally (fun c => c.commits.toNat) c

/-- The program points agree with the lock, `log.outstanding` and `log.committing`. -/
structure Standing (c : ι → Pc) (l : Option ι) (o : ℤ) (w : Bool) : Prop where
  lock : ∀ q, (c q).holds = true ↔ l = some q
  count : o = inOps c
  comm : committers c = w.toNat
  calm : ∀ q, c q ≠ .panicked .committing ∧ c q ≠ .panicked .outsideOfTrans

/-- **What every step keeps.** -/
structure Inv (s : Group ι) : Prop where
  standing : Standing s.pc s.lock s.outstanding s.committing
  excl : s.committing = true → s.outstanding = 0
  empty : s.outstanding = 0 → s.committing = false → s.lh = []
  cleared : ∀ q, s.pc q = .commitDone ∨ s.pc q = .doneBody → s.lh = []
  clearing : ∀ q, s.pc q = .commitClear → current s.hist = []
  blocks : (∀ q, s.pc q ≠ .commitClear) → ∀ b, b ∈ s.lh ↔ ∃ q, Event.wrote q b ∈ current s.hist
  ops : ∀ q, opsOf q (current s.hist) = some (s.pc q).inOp
  grouped : Grouped s.hist
  sleepers : ∀ q, s.pc q = .asleep → s.Waits

theorem inv_start : Inv (start : Group ι) where
  standing :=
    { lock := by simp [start, pc, Pc.holds]
      count := by simp [start, pc, inOps, tally, Pc.inOp]
      comm := by simp [start, pc, committers, tally, Pc.commits]
      calm := by simp [start, pc] }
  excl := by simp [start]
  empty := by simp [start]
  cleared := by simp [start]
  clearing := by simp [start]
  blocks := by simp [start]
  ops := by simp [start, pc, Pc.inOp]
  grouped := by simp [start, Grouped]
  sleepers := by simp [start, pc]

theorem inOps_update (c : ι → Pc) (p : ι) (d : Pc) :
    inOps (update c p d) + (c p).inOp.toNat = inOps c + d.inOp.toNat :=
  tally_update _ c p d

theorem committers_update (c : ι → Pc) (p : ι) (d : Pc) :
    committers (update c p d) + (c p).commits.toNat = committers c + d.commits.toNat :=
  tally_update _ c p d

omit [DecidableEq ι] in
@[simp] theorem inOps_woke (c : ι → Pc) : inOps (fun q => woke (c q)) = inOps c :=
  tally_congr fun q => by simp

omit [DecidableEq ι] in
@[simp] theorem committers_woke (c : ι → Pc) : committers (fun q => woke (c q)) = committers c :=
  tally_congr fun q => by simp

namespace Standing

/-- **One process moves**, and the counters with it. -/
theorem update {c : ι → Pc} {l l' : Option ι} {o o' : ℤ} {w w' : Bool} (h : Standing c l o w)
    {p : ι} {d : Pc} (hl : LockStep p (c p) d l l')
    (ho : o' + (c p).inOp.toNat = o + d.inOp.toNat)
    (hw : w'.toNat + (c p).commits.toNat = w.toNat + d.commits.toNat)
    (hd : d ≠ .panicked .committing ∧ d ≠ .panicked .outsideOfTrans) :
    Standing (update c p d) l' o' w' where
  lock := hl.holds_iff h.lock
  count := by
    have hu := inOps_update c p d
    have hc := h.count
    omega
  comm := by
    have hu := committers_update c p d
    have hc := h.comm
    omega
  calm q := ⟨fun hq => (h.calm q).1 (eq_of_update_eq hq hd.1),
    fun hq => (h.calm q).2 (eq_of_update_eq hq hd.2)⟩

omit [DecidableEq ι] in
theorem wakeup {c : ι → Pc} {l : Option ι} {o : ℤ} {w : Bool} (h : Standing c l o w) :
    Standing (fun q => woke (c q)) l o w where
  lock q := by rw [woke_holds]; exact h.lock q
  count := by rw [inOps_woke]; exact h.count
  comm := by rw [committers_woke]; exact h.comm
  calm q := ⟨fun hq => (h.calm q).1 (eq_of_woke_eq hq nofun),
    fun hq => (h.calm q).2 (eq_of_woke_eq hq nofun)⟩

end Standing

namespace Inv

variable {s : Group ι} (hi : Inv s)
include hi

theorem inOp_false (hw : s.committing = true) (q : ι) : (s.pc q).inOp = false := by
  have hle : (s.pc q).inOp.toNat ≤ inOps s.pc :=
    le_tally (fun c : Pc => c.inOp.toNat) s.pc q
  have hz := hi.excl hw
  have hc := hi.standing.count
  cases h : (s.pc q).inOp
  · rfl
  · rw [h, toNat_true] at hle
    omega

variable {q p : ι}

theorem committing_of (hq : (s.pc q).commits = true) : s.committing = true := by
  have hle : (s.pc q).commits.toNat ≤ committers s.pc :=
    le_tally (fun c : Pc => c.commits.toNat) s.pc q
  have hc := hi.standing.comm
  cases h : s.committing
  · rw [hq, toNat_true] at hle
    rw [h, toNat_false] at hc
    omega
  · rfl

theorem commits_unique {r : ι} (hq : (s.pc q).commits = true) (hr : (s.pc r).commits = true) :
    q = r := by
  by_contra hne
  have hle : (s.pc q).commits.toNat + (s.pc r).commits.toNat ≤ committers s.pc :=
    add_le_tally (fun c : Pc => c.commits.toNat) s.pc hne
  have hb : s.committing.toNat ≤ 1 := toNat_le _
  have hc := hi.standing.comm
  rw [hq, hr, toNat_true] at hle
  omega

theorem outstanding_pos (hq : (s.pc q).inOp = true) : 1 ≤ s.outstanding := by
  have hle : (s.pc q).inOp.toNat ≤ inOps s.pc :=
    le_tally (fun c : Pc => c.inOp.toNat) s.pc q
  have hc := hi.standing.count
  rw [hq, toNat_true] at hle
  omega

theorem committing_false (hq : (s.pc q).inOp = true) : s.committing = false := by
  cases h : s.committing
  · rfl
  · exact absurd hq (by simp [hi.inOp_false h q])

theorem not_clearing (hw : s.committing = false) (q : ι) : s.pc q ≠ .commitClear := by
  intro hq
  exact absurd (hi.committing_of (q := q) (by rw [hq]; rfl)) (by simp [hw])

theorem silent {c : Pc} {l : Option ι} (hc : Silent (s.pc p) c)
    (hl : LockStep p (s.pc p) c s.lock l) (ha : c = .asleep → s.Waits)
    (hcalm : c ≠ .panicked .committing ∧ c ≠ .panicked .outsideOfTrans) :
    Inv { s.goto p c with lock := l } := by
  have hpc : pc { s.goto p c with lock := l } = update s.pc p c := pc_goto s p c
  constructor <;> try rw [hpc]
  case standing =>
    exact hi.standing.update hl (by rw [hc.inOp]; rfl) (by rw [hc.commits]; rfl) hcalm
  case excl => exact hi.excl
  case empty => exact hi.empty
  case cleared =>
    rintro q (hq | hq)
    · exact hi.cleared q (.inl (eq_of_update_eq hq hc.done))
    · by_cases hd : c = .doneBody
      · exact hi.cleared p (.inl (hc.emptied hd))
      · exact hi.cleared q (.inr (eq_of_update_eq hq hd))
  case clearing => exact fun q hq => hi.clearing q (eq_of_update_eq hq hc.clear)
  case blocks =>
    intro hn
    refine hi.blocks fun q hq => hn q ?_
    rw [update_of_ne ?_, hq]
    rintro rfl
    exact hc.clear_from hq
  case ops =>
    intro q
    by_cases hq : q = p
    · subst hq
      rw [update_self, hc.inOp]
      exact hi.ops q
    · rw [update_of_ne hq]
      exact hi.ops q
  case grouped => exact hi.grouped
  case sleepers =>
    intro q hq
    by_cases hc' : c = .asleep
    · exact ha hc'
    · exact hi.sleepers q (eq_of_update_eq hq hc')

/-- **A step that records an event of `p`** while no commit runs: the group grows by it. -/
theorem recorded {t : Group ι} {e : Event ι} {f : ι → Pc} {d : Pc} (hw : s.committing = false)
    (hpc : t.pc = update f p d) (hf : ∀ q, f q = s.pc q ∨ f q = woke (s.pc q))
    (hd : d ≠ .commitClear ∧ d ≠ .commitDone ∧ d ≠ .doneBody)
    (hh : t.hist = s.hist ++ [e]) (he : ∀ bs, e ≠ .committed bs)
    (hp : opStep p (some (s.pc p).inOp) e = some d.inOp) (hne : ∀ q o, q ≠ p → opStep q o e = o)
    (hlh : ∀ b, b ∈ t.lh ↔ b ∈ s.lh ∨ ∃ q, .wrote q b = e)
    (hst : Standing (update f p d) t.lock t.outstanding t.committing)
    (hex : t.committing = true ↔ t.outstanding = 0)
    (hsl : ∀ q, update f p d q = .asleep → t.Waits) : Inv t := by
  have hno : ∀ q c, t.pc q = c → d ≠ c → c ≠ .woken → c.commits = true → False := by
    intro q c hq hd hc hcm
    rw [hpc] at hq
    have hsq : s.pc q = c := (hf q).elim (fun h => h ▸ eq_of_update_eq hq hd)
      fun h => eq_of_woke_eq (h ▸ eq_of_update_eq hq hd) hc
    exact absurd (hi.committing_of (by rw [hsq, hcm])) (by simp [hw])
  have hcur : current t.hist = current s.hist ++ [e] := hh ▸ current_append _ he
  constructor
  case standing => exact hpc ▸ hst
  case excl => exact hex.1
  case empty => exact fun h hf => absurd (hex.2 h) (by simp [hf])
  case cleared =>
    rintro q (hq | hq)
    · exact (hno q _ hq hd.2.1 nofun rfl).elim
    · exact (hno q _ hq hd.2.2 nofun rfl).elim
  case clearing => exact fun q hq => (hno q _ hq hd.1 nofun rfl).elim
  case blocks =>
    intro _ b
    rw [hcur, hlh, hi.blocks (hi.not_clearing hw)]
    simp only [mem_append, mem_singleton, exists_or]
  case ops =>
    intro q
    rw [hcur, opsOf_append, hi.ops q, hpc]
    by_cases hq : q = p
    · subst hq
      rw [update_self, hp]
    · rw [update_of_ne hq, hne q _ hq]
      rcases hf q with h | h <;> rw [h]
      rw [woke_inOp]
  case grouped => exact hh ▸ hi.grouped.append fun bs h => absurd h (he bs)
  case sleepers => exact hpc ▸ hsl

theorem enter (hc : s.pc p = .beginTest) (hw : s.committing = false) : Inv { s.record (.began p) with
      outstanding := s.outstanding + 1
      thread := update s.thread p ⟨.beginRelease, ∅⟩ } := by
  have hpc := pc_update s.thread p ⟨.beginRelease, ∅⟩
  have hn := hi.standing.count
  refine hi.recorded hw hpc (fun _ => .inl rfl) ⟨nofun, nofun, nofun⟩ rfl nofun
    (by simp [opStep, hc, Pc.inOp]) (fun q o hq => by simp [opStep, Ne.symm hq]) (by simp [record])
    (hi.standing.update (.inl ⟨rfl, ?_⟩) ?_ ?_ ⟨nofun, nofun⟩) ⟨?_, ?_⟩ fun q hq => ?_
  · rw [hc]; rfl
  · rw [hc]; simp [Pc.inOp]
  · rw [hc]; rfl
  · exact fun h => absurd h (by simp [record, hw])
  · intro (ho : s.outstanding + 1 = 0)
    omega
  · rcases hi.sleepers q (eq_of_update_eq hq nofun) with h | h
    · exact absurd h (by simp [hw])
    · refine .inr (lt_of_lt_of_le h ?_)
      change _ ≤ (s.lh.length : ℤ) + (s.outstanding + 1 + 1) * MAXOPBLOCKS
      simp only [MAXOPBLOCKS]
      omega

theorem write {b : ℕ} (hc : s.pc p = .writeBody b) : Inv { s.record (.wrote p b) with
      lh := if b ∈ s.lh then s.lh else s.lh ++ [b]
      thread := update s.thread p ⟨.writeRelease, insert b (s.thread p).used⟩ } := by
  have hpc := pc_update s.thread p ⟨.writeRelease, insert b (s.thread p).used⟩
  have hin : (s.pc p).inOp = true := by rw [hc]; rfl
  have hw := hi.committing_false hin
  have ho := hi.outstanding_pos hin
  refine hi.recorded hw hpc (fun _ => .inl rfl) ⟨nofun, nofun, nofun⟩ rfl nofun
    (by simp [opStep, hc, Pc.inOp]) (fun q o hq => by simp [opStep, Ne.symm hq]) (fun b' => ?_)
    (hi.standing.update (.inl ⟨rfl, ?_⟩) ?_ ?_ ⟨nofun, nofun⟩) ⟨?_, ?_⟩ fun q hq => ?_
  · change (b' ∈ if b ∈ s.lh then s.lh else s.lh ++ [b]) ↔ _
    split
    next hm => simpa using fun h : b' = b => h ▸ hm
    next => simp
  · rw [hc]; rfl
  · rw [hc]; rfl
  · rw [hc]; rfl
  · exact fun h => absurd h (by simp [record, hw])
  · intro (hz : s.outstanding = 0)
    omega
  · rcases hi.sleepers q (eq_of_update_eq hq nofun) with h | h
    · exact absurd h (by simp [hw])
    · refine .inr (lt_of_lt_of_le h (Int.add_le_add_right ?_ _))
      change (s.lh.length : ℤ) ≤ (if b ∈ s.lh then s.lh else s.lh ++ [b]).length
      split <;> simp

theorem last (hc : s.pc p = .endBody) (ho : s.outstanding = 1) :
    Inv { (s.decrement p).goto p (.endRelease true) with committing := true } := by
  have hpc := pc_goto (s.decrement p) p (.endRelease true)
  have hw := hi.committing_false (q := p) (by rw [hc]; rfl)
  refine hi.recorded hw hpc (fun _ => .inl rfl) ⟨nofun, nofun, nofun⟩ rfl nofun
    (by simp [opStep, hc, Pc.inOp]) (fun q o hq => by simp [opStep, Ne.symm hq])
    (by simp [goto, decrement, record])
    (hi.standing.update (.inl ⟨rfl, ?_⟩) ?_ ?_ ⟨nofun, nofun⟩) ⟨fun _ => ?_, fun _ => rfl⟩
    fun _ _ => .inl rfl
  · rw [hc]; rfl
  · rw [hc]; simp [Pc.inOp, goto, decrement]
  · rw [hc, hw]; rfl
  · change s.outstanding - 1 = 0
    omega

theorem leave (hc : s.pc p = .endBody) (ho : s.outstanding ≠ 1) :
    Inv ((s.decrement p).wakeup.goto p (.endRelease false)) := by
  have hpc : ((s.decrement p).wakeup.goto p (.endRelease false)).pc =
      update (fun q => woke (s.pc q)) p (.endRelease false) := by
    rw [pc_goto, pc_wakeup]
    rfl
  have hw := hi.committing_false (q := p) (by rw [hc]; rfl)
  refine hi.recorded hw hpc (fun _ => .inr rfl) ⟨nofun, nofun, nofun⟩ rfl nofun
    (by simp [opStep, hc, Pc.inOp]) (fun q o hq => by simp [opStep, Ne.symm hq])
    (by simp [goto, decrement, record, Group.wakeup])
    (hi.standing.wakeup.update (.inl ⟨rfl, ?_⟩) ?_ ?_ ⟨nofun, nofun⟩) ⟨?_, ?_⟩ fun q hq => ?_
  · rw [woke_holds, hc]; rfl
  · rw [woke_inOp, hc]; simp [Pc.inOp, goto, decrement, Group.wakeup]
  · rw [woke_commits, hc]; rfl
  · exact fun h => absurd h (by simp [goto, decrement, record, Group.wakeup, hw])
  · intro (hz : s.outstanding - 1 = 0)
    omega
  · exact absurd (eq_of_update_eq (c := fun q => woke (s.pc q)) hq nofun) (woke_ne_asleep _)

/-- `commit` writes the block list: the group is complete. -/
theorem commit (hc : s.pc p = .commit) : Inv ((s.record (.committed s.lh)).goto p .commitClear) := by
  have hpc : ((s.record (.committed s.lh)).goto p .commitClear).pc = update s.pc p .commitClear :=
    pc_goto _ p _
  have hp : (s.pc p).commits = true := by rw [hc]; rfl
  have hw := hi.committing_of hp
  have hout := hi.inOp_false hw
  have hclear : ∀ q, s.pc q ≠ .commitClear := by
    intro q hq
    have hqp := hi.commits_unique (q := q) (by rw [hq]; rfl) hp
    rw [hqp, hc] at hq
    cases hq
  constructor <;> try rw [hpc]
  case standing =>
    refine hi.standing.update (.inl ⟨rfl, ?_⟩) ?_ ?_ ⟨nofun, nofun⟩ <;> rw [hc] <;> rfl
  case excl => exact hi.excl
  case empty => exact hi.empty
  case cleared =>
    rintro q (hq | hq)
    · exact hi.cleared q (.inl (eq_of_update_eq hq nofun))
    · exact hi.cleared q (.inr (eq_of_update_eq hq nofun))
  case clearing => exact fun _ _ => current_committed _ _
  case blocks => exact fun hn => absurd (update_self p _ s.pc) (hn p)
  case ops =>
    intro q
    change opsOf q (current (s.hist ++ [.committed s.lh])) = _
    rw [current_committed, opsOf_nil]
    by_cases hq : q = p
    · subst hq; rw [update_self]; rfl
    · rw [update_of_ne hq, hout q]
  case grouped =>
    refine hi.grouped.append fun bs h => ?_
    obtain rfl := Event.committed.inj h
    exact ⟨hi.blocks hclear, fun q => (hi.ops q).trans (by rw [hout q])⟩
  case sleepers => exact fun _ _ => .inl hw

theorem clear (hc : s.pc p = .commitClear) : Inv { s.goto p .commitDone with lh := [] } := by
  have hpc : pc { s.goto p .commitDone with lh := [] } = update s.pc p .commitDone := pc_goto s p _
  have hw := hi.committing_of (q := p) (by rw [hc]; rfl)
  have hcur := hi.clearing p hc
  constructor <;> try rw [hpc]
  case standing =>
    refine hi.standing.update (.inl ⟨rfl, ?_⟩) ?_ ?_ ⟨nofun, nofun⟩ <;> rw [hc] <;> rfl
  case excl => exact hi.excl
  case empty => exact fun _ _ => rfl
  case cleared => exact fun _ _ => rfl
  case clearing => exact fun _ _ => hcur
  case blocks =>
    intro _ b
    change b ∈ [] ↔ ∃ q, Event.wrote q b ∈ current s.hist
    rw [hcur]
    simp
  case ops =>
    intro q
    by_cases hq : q = p
    · subst hq
      rw [update_self]
      exact (hi.ops q).trans (by rw [hc]; rfl)
    · rw [update_of_ne hq]
      exact hi.ops q
  case grouped => exact hi.grouped
  case sleepers => exact fun _ _ => .inl hw

theorem done (hc : s.pc p = .doneBody) :
    Inv ({ s with committing := false }.wakeup.goto p .doneRelease) := by
  have hpc : ({ s with committing := false }.wakeup.goto p .doneRelease).pc =
      update (fun q => woke (s.pc q)) p .doneRelease := by
    rw [pc_goto, pc_wakeup]
    rfl
  have hp : (s.pc p).commits = true := by rw [hc]; rfl
  have hw := hi.committing_of hp
  have hlh := hi.cleared p (.inr hc)
  have hclear : ∀ q, s.pc q ≠ .commitClear := by
    intro q hq
    have hqp := hi.commits_unique (q := q) (by rw [hq]; rfl) hp
    rw [hqp, hc] at hq
    cases hq
  constructor <;> try rw [hpc]
  case standing =>
    refine hi.standing.wakeup.update (.inl ⟨rfl, ?_⟩) ?_ ?_ ⟨nofun, nofun⟩ <;>
      simp only [woke_holds, woke_inOp, woke_commits, hc]
    · rfl
    · rfl
    · rw [hw]; rfl
  case excl => exact fun h => absurd h (by simp [goto, Group.wakeup])
  case empty => exact fun _ _ => hlh
  case cleared => exact fun _ _ => hlh
  case clearing => exact fun q hq => absurd (eq_of_update_woke_eq hq nofun nofun) (hclear q)
  case blocks => exact fun _ => hi.blocks hclear
  case ops =>
    intro q
    by_cases hq : q = p
    · subst hq
      rw [update_self]
      exact (hi.ops q).trans (by rw [hc]; rfl)
    · rw [update_of_ne hq, woke_inOp]
      exact hi.ops q
  case grouped => exact hi.grouped
  case sleepers =>
    exact fun q hq => absurd (eq_of_update_eq (c := fun q => woke (s.pc q)) hq nofun)
      (woke_ne_asleep _)

/-- **Every transition keeps the invariant**; the two panics of the protocol cannot happen. -/
theorem trans {size : ℕ} {a : Act} {t : Group ι} (h : Trans size s p a t) : Inv t := by
  cases h with
  | silent c l hc hl _ => exact hi.silent hc.toSilent hl (absurd · hc.awake) ⟨hc.calm _, hc.calm _⟩
  | sleep hc hw =>
    have hc : s.pc p = .beginTest := hc
    exact hi.silent (hc ▸ ⟨rfl, rfl, nofun, nofun, nofun, nofun⟩)
      (.inr (.inr ⟨by rw [hc]; rfl, rfl, rfl⟩)) (fun _ => hw) ⟨nofun, nofun⟩
  | enter hc hw _ => exact hi.enter hc hw
  | write b hc _ => exact hi.write hc
  | tooBig b hc _ =>
    have hc : s.pc p = .writeBody b := hc
    exact hi.silent (hc ▸ ⟨rfl, rfl, nofun, nofun, nofun, nofun⟩) (.inl ⟨rfl, by rw [hc]; rfl⟩)
      nofun ⟨nofun, nofun⟩
  | outsideOfTrans b hc ho =>
    have hpos := hi.outstanding_pos (q := p) (by rw [pc, hc]; rfl)
    omega
  | committing hc hw =>
    exact absurd hw (by simp [hi.committing_false (q := p) (by rw [pc, hc]; rfl)])
  | last hc _ ho => exact hi.last hc ho
  | leave hc _ ho => exact hi.leave hc ho
  | commit hc => exact hi.commit hc
  | clear hc => exact hi.clear hc
  | done hc => exact hi.done hc

end Inv

theorem inv_reachable {size : ℕ} {s : Group ι} (h : (system ι size).Reachable s) : Inv s := by
  refine h.invariant (I := Inv) ?_ fun _ _ _ _ hi hst => hi.trans (trans_of_next hst)
  rintro _ rfl
  exact inv_start

/-! ## Isolation -/

/-- What group commit promises. -/
structure Isolated (s : Group ι) : Prop where
  /-- While `log.committing` is set no operation is outstanding. -/
  quiet : s.committing = true → s.outstanding = 0
  /-- No process is inside an operation, so none is in `log_write`, while `commit` runs. -/
  alone : ∀ p q, (s.pc p).inCommit = true → (s.pc q).inOp = false
  /-- Nobody reaches `panic("log.committing")`. -/
  calm : ∀ p, s.pc p ≠ .panicked .committing
  /-- `log.outstanding` is the number of processes inside an operation. -/
  count : s.outstanding = (Finset.univ.filter fun p => (s.pc p).inOp = true).card
  /-- A commit has the blocks its group logged, and the group's operations are whole. -/
  groups : ∀ h₁ bs h₂, s.hist = h₁ ++ .committed bs :: h₂ →
    (∀ b, b ∈ bs ↔ ∃ p, Event.wrote p b ∈ current h₁) ∧ ∀ p, opsOf p (current h₁) = some false
  /-- A process sleeps in `begin_op` only while its tests tell it to. -/
  sleepers : ∀ p, s.pc p = .asleep → s.Waits
  /-- While they do, an operation or a commit is in progress. -/
  progress : s.Waits → ∃ p, (s.pc p).inOp = true ∨ (s.pc p).commits = true

omit [DecidableEq ι] in
theorem inOps_eq_card (c : ι → Pc) :
    inOps c = (Finset.univ.filter fun p => (c p).inOp = true).card := by
  rw [Finset.card_filter]
  refine Finset.sum_congr rfl fun q _ => ?_
  change (c q).inOp.toNat = _
  cases (c q).inOp <;> rfl

theorem Inv.exists_commits {s : Group ι} (hi : Inv s) (hw : s.committing = true) :
    ∃ p, (s.pc p).commits = true := by
  have hpos : 0 < committers s.pc := by
    rw [hi.standing.comm, hw]
    decide
  obtain ⟨p, hp⟩ := exists_of_tally_pos hpos
  refine ⟨p, ?_⟩
  cases h : (s.pc p).commits
  · simp [h] at hp
  · rfl

theorem Inv.progress {s : Group ι} (hi : Inv s) (h : s.Waits) :
    ∃ p, (s.pc p).inOp = true ∨ (s.pc p).commits = true := by
  by_contra hn
  push Not at hn
  have hw : s.committing = false := by
    cases hw : s.committing
    · rfl
    · obtain ⟨p, hp⟩ := hi.exists_commits hw
      exact absurd hp (hn p).2
  have hz : inOps s.pc = 0 := Finset.sum_eq_zero fun q _ => by simp [(hn q).1]
  have ho := hi.standing.count
  rcases h with h | h
  · simp [hw] at h
  · rw [hi.empty (by omega) hw] at h
    simp only [length_nil, MAXOPBLOCKS, LOGSIZE] at h
    omega

/-- **Group commit isolates operations**, for any number of processes in any interleaving. -/
theorem isolated (size : ℕ) (s : Group ι) (h : (system ι size).Reachable s) : Isolated s := by
  have hi := inv_reachable h
  constructor
  case quiet => exact hi.excl
  case alone =>
    intro p q hp
    refine hi.inOp_false (hi.committing_of (q := p) ?_) q
    revert hp
    cases s.pc p <;> simp [Pc.inCommit, Pc.commits]
  case calm => exact fun p => (hi.standing.calm p).1
  case count => rw [hi.standing.count, inOps_eq_card]
  case groups =>
    intro h₁ bs h₂ hh
    have hg := hi.grouped h₁ bs h₂ hh
    exact ⟨hg.blocks, hg.ops⟩
  case sleepers => exact hi.sleepers
  case progress => exact hi.progress

end Fintype

/-- Two processes whose operations overlap: the second ends last and commits for both. -/
def overlapping : List (Fin 2 × Act) :=
  [(0, .beginOp), (0, .continue), (0, .continue), (0, .logWrite 40), (0, .continue), (0, .continue),
    (1, .beginOp), (1, .continue), (1, .continue), (0, .endOp), (0, .continue), (0, .continue),
    (1, .logWrite 41), (1, .continue), (1, .continue), (1, .endOp), (1, .continue), (1, .continue),
    (0, .beginOp), (0, .continue), (1, .continue)]

/-- Two operations commit together. -/
theorem isolated_overlapping :
    ∃ s : Group (Fin 2), after LOGSIZE overlapping = some s ∧ s.pc 0 = .asleep ∧
      s.pc 1 = .commitClear ∧ s.hist = [.began 0, .wrote 0 40, .began 1, .ended 0, .wrote 1 41,
        .ended 1, .committed [40, 41]] ∧ Isolated s := by
  refine ⟨(after LOGSIZE overlapping).get (by decide), (Option.some_get _).symm, by decide,
    by decide, by decide, ?_⟩
  exact isolated LOGSIZE _ (reachable_after (Option.some_get _).symm)

end Group

end Xv6

import Xv6.Sched.Cpu
import Mathlib.Data.List.FinRange

/-!
# Sched/Pick — which process the scan selects, and what `scheduler` does with it

The scan compares `long long` accumulators with an `int` minimum that starts at `INT_MAX`;
`minimum_exact_iff` says for which tables it finds the minimum.  Whichever process is selected,
`scheduler` stores `RUNNING` and releases a lock behind the table (`dispatch_strays`).
-/

namespace Xv6

open Machinery Function List Option

/-! ## The loop of `scheduler` -/

/-- The variables of the loop: `p` as an index, `minAcc` and `toRun`. -/
structure ScanVars where
  p : ℕ
  minAcc : ℤ
  toRun : Option Slot

/-- `for(p = proc; p < &proc[NPROC]; p++)`, in `fuel` iterations at most. -/
def scanLoop (tb : SchedTable) : (fuel : ℕ) → ScanVars → ScanVars
  | 0, v => v
  | fuel + 1, v =>
    if h : v.p < NPROC then
      let r := scanStep (tb ⟨v.p, h⟩) ⟨v.p, h⟩ v.minAcc v.toRun
      scanLoop tb fuel ⟨v.p + 1, r.1, r.2⟩
    else v

/-- The variables of `scheduler` after its scan. -/
def scanned (tb : SchedTable) : ScanVars := scanLoop tb NPROC ⟨0, INT_MAX, none⟩

def pick (tb : SchedTable) : Option Slot := (scanned tb).toRun

/-- The scan over the entries `js`. -/
def scanEntries (tb : SchedTable) : List Slot → ℤ → Option Slot → ℤ × Option Slot
  | [], minAcc, toRun => (minAcc, toRun)
  | j :: js, minAcc, toRun =>
    let r := scanStep (tb j) j minAcc toRun
    scanEntries tb js r.1 r.2

variable {tb : SchedTable} {js : List Slot} {m : ℤ} {r : Option Slot} {t np : Slot}

theorem scanLoop_eq (tb : SchedTable) {k p : ℕ} (hp : p + k = NPROC) (m : ℤ) (r : Option Slot) :
    scanLoop tb k ⟨p, m, r⟩ = ⟨NPROC, (scanEntries tb ((List.finRange NPROC).drop p) m r).1,
      (scanEntries tb ((List.finRange NPROC).drop p) m r).2⟩ := by
  induction k generalizing p m r with
  | zero =>
    obtain rfl : p = NPROC := by omega
    rw [drop_of_length_le (by rw [length_finRange]), scanLoop, scanEntries]
  | succ k ih =>
    have hlt : p < NPROC := by omega
    have hdrop : (List.finRange NPROC).drop p =
        ⟨p, hlt⟩ :: (List.finRange NPROC).drop (p + 1) := by
      rw [drop_eq_getElem_cons (by rwa [length_finRange]), getElem_finRange]
      rfl
    have hk : p + 1 + k = NPROC := by omega
    rw [scanLoop, dif_pos hlt, ih hk, hdrop]
    rfl

/-- **After its scan `scheduler` has `p == &proc[NPROC]`.** -/
theorem scanned_p (tb : SchedTable) : (scanned tb).p = NPROC := by
  rw [scanned, scanLoop_eq tb (by omega)]

theorem pick_eq_scan (tb : SchedTable) : pick tb = (scanEntries tb (List.finRange NPROC) INT_MAX none).2 := by
  rw [pick, scanned, scanLoop_eq tb (by omega), drop_zero]

/-! ## What the scan selects -/

/-- `t` can run, and no process that can run has a smaller accumulator. -/
def Least (tb : SchedTable) (t : Slot) : Prop :=
  (tb t).candidate = true ∧ ∀ u, (tb u).candidate = true → (tb t).accumulator ≤ (tb u).accumulator

theorem scanEntries_append (js ks : List Slot) (m : ℤ) (r : Option Slot) :
    scanEntries tb (js ++ ks) m r = scanEntries tb ks (scanEntries tb js m r).1 (scanEntries tb js m r).2 := by
  induction js generalizing m r with
  | nil => rfl
  | cons j js ih => exact ih _ _

theorem bmod_int (a : ℤ) : -2 ^ 31 ≤ a.bmod (2 ^ 32) ∧ a.bmod (2 ^ 32) ≤ INT_MAX := by
  have hl := Int.le_bmod (x := a) (m := 2 ^ 32) (by norm_num)
  have hu := Int.bmod_lt (x := a) (m := 2 ^ 32) (by norm_num)
  unfold INT_MAX
  omega

theorem scanStep_of_lt {p : SchedProc} (hp : p.candidate = true) (h : p.accumulator < m) (j : Slot)
    (r : Option Slot) : scanStep p j m r = (p.accumulator.bmod (2 ^ 32), some j) :=
  if_pos ⟨hp, h⟩

theorem scanStep_of_ge {p : SchedProc} (h : p.candidate = true → m ≤ p.accumulator) (j : Slot)
    (r : Option Slot) : scanStep p j m r = (m, r) :=
  if_neg fun hc => absurd (h hc.1) (not_le.2 hc.2)

theorem scanEntries_int (tb : SchedTable) (js : List Slot) (hm : -2 ^ 31 ≤ m ∧ m ≤ INT_MAX) (r : Option Slot) :
    -2 ^ 31 ≤ (scanEntries tb js m r).1 ∧ (scanEntries tb js m r).1 ≤ INT_MAX := by
  induction js generalizing m r with
  | nil => exact hm
  | cons j js ih =>
    refine ih ?_ _
    unfold scanStep
    split_ifs
    · exact bmod_int _
    · exact hm

/-- Entries that are not below `minAcc` are passed over. -/
theorem scanEntries_of_ge (h : ∀ u ∈ js, (tb u).candidate = true → m ≤ (tb u).accumulator) (r : Option Slot) :
    scanEntries tb js m r = (m, r) := by
  induction js with
  | nil => rfl
  | cons j js ih =>
    rw [scanEntries, scanStep_of_ge (h j (.head _))]
    exact ih fun u hu => h u (.tail _ hu)

/-- **The entry that is selected** was below `minAcc`, and no later one was below its accumulator
cut to an `int`. -/
theorem scanEntries_eq_some (hm : m ≤ INT_MAX) (h : (scanEntries tb js m r).2 = some t) :
    (r = some t ∧ ∀ u ∈ js, (tb u).candidate = true → m ≤ (tb u).accumulator) ∨
      ∃ pre post, js = pre ++ t :: post ∧ (tb t).candidate = true ∧ (tb t).accumulator < INT_MAX ∧
        ∀ u ∈ post, (tb u).candidate = true →
          (tb t).accumulator.bmod (2 ^ 32) ≤ (tb u).accumulator := by
  induction js generalizing m r with
  | nil => exact .inl ⟨h, fun _ hu => absurd hu not_mem_nil⟩
  | cons j js ih =>
    rw [scanEntries] at h
    by_cases hj : (tb j).candidate = true ∧ (tb j).accumulator < m
    · rw [scanStep_of_lt hj.1 hj.2] at h
      obtain ⟨hr, hge⟩ | ⟨pre, post, rfl, ht⟩ := ih (bmod_int _).2 h
      · obtain rfl := some.inj hr
        exact .inr ⟨[], js, rfl, hj.1, hj.2.trans_le hm, hge⟩
      · exact .inr ⟨j :: pre, post, rfl, ht⟩
    · have hge : (tb j).candidate = true → m ≤ (tb j).accumulator := fun hc =>
        not_lt.1 fun hlt => hj ⟨hc, hlt⟩
      rw [scanStep_of_ge hge] at h
      obtain ⟨hr, hall⟩ | ⟨pre, post, rfl, ht⟩ := ih hm h
      · exact .inl ⟨hr, forall_mem_cons.2 ⟨hge, hall⟩⟩
      · exact .inr ⟨j :: pre, post, rfl, ht⟩

/-- What the scan knows of the entries `js`, when every accumulator that can count fits an `int`. -/
def Tracks (tb : SchedTable) (js : List Slot) (x : ℤ × Option Slot) : Prop :=
  (∀ u ∈ js, (tb u).candidate = true → x.1 ≤ (tb u).accumulator) ∧
    (x = (INT_MAX, none) ∨ ∃ k, x = ((tb k).accumulator, some k) ∧ (tb k).candidate = true)

theorem scanEntries_tracks (js : List Slot) (hlow : ∀ u, (tb u).candidate = true → -2 ^ 31 ≤ (tb u).accumulator)
    (hi : m ≤ INT_MAX) {seen : List Slot} (h : Tracks tb seen (m, r)) :
    Tracks tb (seen ++ js) (scanEntries tb js m r) := by
  induction js generalizing seen m r with
  | nil => rwa [append_nil]
  | cons j js ih =>
    have hseen : seen ++ j :: js = seen ++ [j] ++ js := by
      rw [append_assoc, singleton_append]
    rw [hseen, scanEntries]
    by_cases hj : (tb j).candidate = true ∧ (tb j).accumulator < m
    · have hsmall : (tb j).accumulator.bmod (2 ^ 32) = (tb j).accumulator := by
        have := hlow j hj.1
        unfold INT_MAX at hi
        exact Int.bmod_eq_of_le (by norm_num; omega) (by norm_num; omega)
      rw [scanStep_of_lt hj.1 hj.2, hsmall]
      refine ih (hj.2.le.trans hi) ⟨fun u hu hc => ?_, .inr ⟨j, rfl, hj.1⟩⟩
      obtain hu | hu := mem_append.1 hu
      · exact hj.2.le.trans (h.1 u hu hc)
      · rw [mem_singleton.1 hu]
    · have hge : (tb j).candidate = true → m ≤ (tb j).accumulator := fun hc =>
        not_lt.1 fun hlt => hj ⟨hc, hlt⟩
      rw [scanStep_of_ge hge]
      refine ih hi ⟨fun u hu hc => ?_, h.2⟩
      obtain hu | hu := mem_append.1 hu
      · exact h.1 u hu hc
      · obtain rfl := mem_singleton.1 hu
        exact hge hc

theorem exists_split (t : Slot) :
    ∃ pre post, List.finRange NPROC = pre ++ t :: post ∧ ∀ u, u ∈ post ↔ t < u := by
  obtain ⟨pre, post, hsplit⟩ := append_of_mem (mem_finRange t)
  refine ⟨pre, post, hsplit, fun u => ?_⟩
  have hlt := pairwise_lt_finRange NPROC
  rw [hsplit, pairwise_append, pairwise_cons] at hlt
  obtain ⟨-, ⟨hpost, -⟩, hpre⟩ := hlt
  refine ⟨hpost u, fun htu => ?_⟩
  have hu := mem_finRange u
  rw [hsplit, mem_append, mem_cons] at hu
  obtain hu | rfl | hu := hu
  · exact absurd (hpre u hu t (.head _)) (lt_asymm htu)
  · exact absurd htu (lt_irrefl _)
  · exact hu

/-- The scan selects `t`, if `t` has the least accumulator. -/
def Selects (tb : SchedTable) (t : Slot) : Prop :=
  (tb t).accumulator < INT_MAX ∧ ∀ u, t < u → (tb u).candidate = true →
    (tb t).accumulator.bmod (2 ^ 32) ≤ (tb u).accumulator

/-- **The scan selects a minimum iff a minimum lies below `INT_MAX` and is not undercut later.** -/
theorem pick_least_iff (tb : SchedTable) :
    (∃ t, pick tb = some t ∧ Least tb t) ↔ ∃ t, Least tb t ∧ Selects tb t := by
  constructor
  · rintro ⟨t, hpick, hleast⟩
    obtain ⟨pre, post, hsplit, hpost⟩ := exists_split t
    rw [pick_eq_scan] at hpick
    obtain ⟨hn, -⟩ | ⟨pre', post', hsplit', hc, hlt, hge⟩ := scanEntries_eq_some le_rfl hpick
    · exact absurd hn nofun
    have hnd := nodup_finRange NPROC
    have heq : post' = post := by
      rw [hsplit] at hsplit' hnd
      exact ((append_cons_inj_of_notMem (fun h => (nodup_append.1 hnd).2.2 t h t (.head _) rfl)
        (nodup_cons.1 (nodup_append.1 hnd).2.1).1).1 hsplit').2.2.symm
    exact ⟨t, hleast, hlt, fun u hu => hge u (heq ▸ (hpost u).2 hu)⟩
  · rintro ⟨t, hleast, hlt, hlate⟩
    obtain ⟨pre, post, hsplit, hpost⟩ := exists_split t
    by_cases hlow : -2 ^ 31 ≤ (tb t).accumulator
    · have htr := scanEntries_tracks (List.finRange NPROC) (fun u hc => hlow.trans (hleast.2 u hc)) le_rfl
        (⟨fun _ h => absurd h not_mem_nil, .inl rfl⟩ : Tracks tb [] (INT_MAX, none))
      rw [nil_append] at htr
      obtain ⟨hall, hx | ⟨k, hx, hk⟩⟩ := htr
      · have := hall t (mem_finRange t) hleast.1
        rw [hx] at this
        exact absurd hlt (not_lt.2 this)
      · refine ⟨k, by rw [pick_eq_scan, hx], hk, fun u hu => ?_⟩
        have := hall u (mem_finRange u) hu
        rwa [hx] at this
    · refine ⟨t, ?_, hleast⟩
      have hint := scanEntries_int tb pre (m := INT_MAX) (by unfold INT_MAX; norm_num) none
      rw [pick_eq_scan, hsplit, scanEntries_append, scanEntries, scanStep_of_lt hleast.1 (by omega),
        scanEntries_of_ge fun u hu => hlate u ((hpost u).1 hu)]

/-! ## What `set_accumulator` sets -/

/-- The accumulators of the processes other than `np` that can run. -/
def rivals (tb : SchedTable) (np : Slot) : Set ℤ :=
  {a | ∃ j, j ≠ np ∧ (tb j).candidate = true ∧ (tb j).accumulator = a}

theorem minAccumulator_spec (tb : SchedTable) (np : Slot) (acc : ℤ) (js : List Slot) :
    IsLeast (insert acc {a | ∃ j ∈ js, j ≠ np ∧ (tb j).candidate = true ∧ (tb j).accumulator = a})
      (minAccumulator tb np acc js) := by
  induction js generalizing acc with
  | nil =>
    refine ⟨.inl rfl, ?_⟩
    rintro a (rfl | ⟨j, hj, -⟩)
    · exact le_rfl
    · exact absurd hj not_mem_nil
  | cons j js ih =>
    rw [minAccumulator]
    set old := if j = np then acc else (tb j).accumulator with hold
    set next := if (tb j).candidate = true ∧ old < acc then old else acc with hnext
    obtain ⟨hmem, hlow⟩ := ih next
    have hle : next ≤ acc := by
      rw [hnext]
      split_ifs with h
      · exact h.2.le
      · exact le_rfl
    have hlej : j ≠ np → (tb j).candidate = true → next ≤ (tb j).accumulator := fun hne hc => by
      rw [hnext, hold, if_neg hne]
      split_ifs with h
      · exact le_rfl
      · exact not_lt.1 fun hlt => h ⟨hc, hlt⟩
    refine ⟨?_, ?_⟩
    · rcases hmem with hmem | ⟨i, hi, hrest⟩
      · rw [hmem, hnext]
        split_ifs with h
        · refine .inr ⟨j, .head _, ?_⟩
          have hne : j ≠ np := fun he => by
            rw [hold, if_pos he] at h
            exact lt_irrefl _ h.2
          exact ⟨hne, h.1, by rw [hold, if_neg hne]⟩
        · exact .inl rfl
      · exact .inr ⟨i, .tail _ hi, hrest⟩
    · rintro a (rfl | ⟨i, hi, hne, hc, rfl⟩)
      · exact (hlow (.inl rfl)).trans hle
      · obtain rfl | hi := mem_cons.1 hi
        · exact (hlow (.inl rfl)).trans (hlej hne hc)
        · exact hlow (.inr ⟨i, hi, hne, hc, rfl⟩)

/-- The new process gets the least accumulator of its rivals, or 0. -/
def SetsMinimum (tb : SchedTable) (np : Slot) : Prop :=
  ((rivals tb np).Nonempty → IsLeast (rivals tb np) (setAccumulator tb np np).accumulator) ∧
    (rivals tb np = ∅ → (setAccumulator tb np np).accumulator = 0)

/-- **`set_accumulator` finds the minimum iff it lies below `INT_MAX`.** -/
theorem setsMinimum_iff (tb : SchedTable) (np : Slot) :
    SetsMinimum tb np ↔ ((rivals tb np).Nonempty → ∃ a ∈ rivals tb np, a < INT_MAX) := by
  have hset : {a | ∃ j ∈ List.finRange NPROC, j ≠ np ∧ (tb j).candidate = true ∧
      (tb j).accumulator = a} = rivals tb np := by
    ext a
    simp only [rivals, mem_finRange, true_and]
  have hmin := minAccumulator_spec tb np INT_MAX (List.finRange NPROC)
  rw [hset] at hmin
  have hval : (setAccumulator tb np np).accumulator =
      if minAccumulator tb np INT_MAX (List.finRange NPROC) = INT_MAX then 0
      else minAccumulator tb np INT_MAX (List.finRange NPROC) := by
    rw [setAccumulator, update_self]
  rw [SetsMinimum, hval]
  set acc := minAccumulator tb np INT_MAX (List.finRange NPROC)
  constructor
  · rintro ⟨hleast, -⟩ hne
    by_contra hall
    push Not at hall
    have hacc : acc = INT_MAX := by
      rcases hmin.1 with h | h
      · exact h
      · exact le_antisymm (hmin.2 (.inl rfl)) (hall _ h)
    rw [if_pos hacc] at hleast
    have := hall 0 (hleast hne).1
    unfold INT_MAX at this
    omega
  · intro hbelow
    refine ⟨fun hne => ?_, fun hempty => ?_⟩
    · obtain ⟨a, ha, hlt⟩ := hbelow hne
      have hlt' : acc < INT_MAX := (hmin.2 (.inr ha)).trans_lt hlt
      rw [if_neg hlt'.ne]
      exact ⟨hmin.1.resolve_left hlt'.ne, fun b hb => hmin.2 (.inr hb)⟩
    · refine if_pos (hmin.1.resolve_right ?_)
      rw [hempty]
      exact Set.notMem_empty _

/-! ## Both

Both minima start at `INT_MAX` and are of type `int`. -/

/-- The scan selects a process with the least accumulator, and `set_accumulator` sets the least one. -/
def MinimumExact (tb : SchedTable) : Prop :=
  ((∃ t, (tb t).state = .runnable) → ∃ t, pick tb = some t ∧ Least tb t) ∧ ∀ np, SetsMinimum tb np

/-- The tables on which an `int` minimum that starts at `INT_MAX` is good enough. -/
def MinimumFits (tb : SchedTable) : Prop :=
  ((∃ t, (tb t).state = .runnable) → ∃ t, Least tb t ∧ Selects tb t) ∧
    ∀ np, (rivals tb np).Nonempty → ∃ a ∈ rivals tb np, a < INT_MAX

/-- **For which tables the minima are exact.** -/
theorem minimum_exact_iff (tb : SchedTable) : MinimumExact tb ↔ MinimumFits tb :=
  and_congr (imp_congr_right fun _ => pick_least_iff tb) (forall_congr' (setsMinimum_iff tb))

/-- What `k` calls of `yield` by `t` make of the table. -/
def yields (tb : SchedTable) (t : Slot) : ℕ → SchedTable
  | 0 => tb
  | k + 1 => update (yields tb t k) t
      { yields tb t k t with state := .runnable }.addPriority

theorem yields_of_ne {u : Slot} (h : u ≠ t) (k : ℕ) : yields tb t k u = tb u := by
  induction k with
  | zero => rfl
  | succ k ih => rw [yields, update_of_ne h, ih]

theorem yields_accumulator (tb : SchedTable) (t : Slot) {k : ℕ} (hk : 0 < k) :
    yields tb t k t = { tb t with
      state := .runnable
      accumulator := ((tb t).accumulator + k * (tb t).psPriority).bmod (2 ^ 64) } := by
  induction k with
  | zero => exact absurd hk (lt_irrefl 0)
  | succ k ih =>
    rw [yields, update_self]
    obtain rfl | hk := Nat.eq_zero_or_pos k
    · simp only [yields, SchedProc.addPriority, zero_add, Nat.cast_one, one_mul]
    · rw [ih hk]
      simp only [SchedProc.addPriority, Int.bmod_add_bmod]
      congr 2
      push_cast
      ring

/-- `init` sleeps in `wait`, and a child of its runs alone. -/
def aloneTable : SchedTable :=
  update (update bootTable initproc { bootTable initproc with state := .sleeping }) ⟨1, by decide⟩
    { freedProc with state := .runnable, pid := 2, psPriority := 5 }

/-- After 429496730 calls of `yield` the only process that can run has the accumulator 2147483649: the scan
selects none, and `set_accumulator` takes it for no process at all. -/
theorem pick_none_after_yields :
    let tb := yields aloneTable ⟨1, by decide⟩ 429496730
    (tb ⟨1, by decide⟩).state = .runnable ∧ pick tb = none ∧ ¬ MinimumExact tb := by
  set child : Slot := ⟨1, by decide⟩ with hchild
  intro tb
  have hself : tb child = { freedProc with
      state := .runnable, pid := 2, psPriority := 5, accumulator := 2147483649 } := by
    have hy := yields_accumulator aloneTable child (k := 429496730) (by norm_num)
    rw [show tb child = _ from hy, aloneTable, update_self]
    decide
  have hother : ∀ u, u ≠ child → (tb u).candidate = false := fun u hu => by
    rw [show tb u = aloneTable u from yields_of_ne hu _, aloneTable, update_of_ne hu]
    by_cases h0 : u = initproc
    · rw [h0, update_self]
      rfl
    · rw [update_of_ne h0, bootTable, update_of_ne h0]
      rfl
  have hge : ∀ u, (tb u).candidate = true → INT_MAX ≤ (tb u).accumulator := fun u hc => by
    by_cases hu : u = child
    · rw [hu, hself]
      decide
    · rw [hother u hu] at hc
      exact absurd hc Bool.false_ne_true
  have hrun : (tb child).state = .runnable := by rw [hself]
  have hpick : pick tb = none := by rw [pick_eq_scan, scanEntries_of_ge fun u _ => hge u]
  refine ⟨hrun, hpick, fun hexact => ?_⟩
  obtain ⟨t, ht, -⟩ := hexact.1 ⟨child, hrun⟩
  rw [hpick] at ht
  exact absurd ht nofun

/-! ## From the scan to the next scan -/

/-- What `scheduler` does to `struct proc`s and `struct cpu`; a process is an index, which may lie
behind the table. -/
inductive Access
  /-- `acquire(&proc[p].lock)`. -/
  | acquire (p : ℕ)
  /-- `proc[p].state = RUNNING`. -/
  | setRunning (p : ℕ)
  /-- `c->proc = …`. -/
  | setProc (o : Option ℕ)
  /-- `release(&proc[p].lock)`. -/
  | release (p : ℕ)
  deriving DecidableEq, Repr

/-- The entry of `proc[]` that is accessed. -/
def Access.entry : Access → Option ℕ
  | .acquire p | .setRunning p | .release p => some p
  | .setProc _ => none

/-- What these accesses change. -/
structure CpuMem where
  state : ℕ → ProcState
  locked : ℕ → Bool
  proc : Option ℕ

def CpuMem.apply (s : CpuMem) : Access → CpuMem
  | .acquire p => { s with locked := update s.locked p true }
  | .setRunning p => { s with state := update s.state p .running }
  | .setProc o => { s with proc := o }
  | .release p => { s with locked := update s.locked p false }

/-- What an iteration does with the process it selects: up to `swtch`, and after it. -/
structure Iteration where
  chosen : Slot
  before : List Access
  after : List Access

/-- One iteration of `scheduler`; `none` if the scan selects no process. -/
def iteration (tb : SchedTable) : Option Iteration :=
  let v := scanned tb
  v.toRun.map fun t => {
    chosen := t
    before := [.acquire t, .setRunning v.p, .setProc (some t.1)]
    after := [.setProc none, .release v.p] }

/-- An iteration dispatches exactly the process it has chosen. -/
structure DispatchesOnly (it : Iteration) : Prop where
  start : ∀ s : CpuMem, it.before.foldl CpuMem.apply s =
    ⟨update s.state it.chosen .running, update s.locked it.chosen true, some it.chosen.1⟩
  finish : ∀ s : CpuMem, it.after.foldl CpuMem.apply s = ⟨s.state, update s.locked it.chosen false, none⟩
  entries : ∀ a ∈ it.before ++ it.after, ∀ p, a.entry = some p → p = it.chosen

theorem iteration_eq_some {it : Iteration} (h : iteration tb = some it) :
    pick tb = some it.chosen ∧
      it.before = [.acquire it.chosen, .setRunning NPROC, .setProc (some it.chosen.1)] ∧
      it.after = [.setProc none, .release NPROC] := by
  obtain ⟨t, ht, rfl⟩ := map_eq_some_iff.1 h
  exact ⟨ht, by rw [scanned_p], by rw [scanned_p]⟩

theorem not_dispatchesOnly {it : Iteration} (h : .setRunning NPROC ∈ it.before) : ¬ DispatchesOnly it :=
  fun hd => absurd (hd.entries _ (mem_append_left _ h) NPROC rfl) it.chosen.2.ne'

/-- **No process is dispatched as it should be**: its state stays as it was, its lock is not released, and
what should have happened to it happens to the memory behind `proc[NPROC - 1]`. -/
theorem dispatch_strays (tb : SchedTable) (it : Iteration) (h : iteration tb = some it) :
    pick tb = some it.chosen ∧ ¬ DispatchesOnly it ∧
      (∀ s : CpuMem, it.before.foldl CpuMem.apply s =
        ⟨update s.state NPROC .running, update s.locked it.chosen true, some it.chosen.1⟩) ∧
      ∀ s : CpuMem, it.after.foldl CpuMem.apply s = ⟨s.state, update s.locked NPROC false, none⟩ := by
  obtain ⟨hpick, hb, ha⟩ := iteration_eq_some h
  exact ⟨hpick, not_dispatchesOnly (by simp [hb]), fun _ => by rw [hb]; rfl, fun _ => by rw [ha]; rfl⟩

theorem iteration_boot : iteration bootTable = some ⟨initproc,
    [.acquire 0, .setRunning 64, .setProc (some 0)], [.setProc none, .release 64]⟩ := by
  have ht : (scanned bootTable).toRun = some initproc := by decide +kernel
  rw [iteration, scanned_p, ht]
  rfl

/-- The first process, after boot. -/
theorem dispatch_strays_boot : ∃ it, iteration bootTable = some it ∧ pick bootTable = some it.chosen ∧
    ¬ DispatchesOnly it :=
  ⟨_, iteration_boot, (dispatch_strays bootTable _ iteration_boot).1,
    (dispatch_strays bootTable _ iteration_boot).2.1⟩

/-- After boot `scheduler` chooses `proc[0]`, stores to `proc[64].state` and releases `proc[64].lock`. -/
theorem boot_dispatched_wrong : ∃ it, iteration bootTable = some it ∧ it.chosen = initproc ∧
    .setRunning 64 ∈ it.before ∧ .release 64 ∈ it.after ∧ ¬ DispatchesOnly it :=
  ⟨_, iteration_boot, rfl, by decide, by decide, not_dispatchesOnly (by decide)⟩

end Xv6

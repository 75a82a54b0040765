import Mathlib.Algebra.Order.BigOperators.Group.Finset
import Mathlib.Tactic.Abel

/-!
# Machinery/Radix — radix trees laid out in a memory of nodes

A node of level `L + 1` has `fan` pointers to nodes of level `L`, a node of level `0` has `fan`
values.  The nodes of a tree are a multiset (`tables`): a tree with no node in two places is a
`Nodup` one, and what an update does to the nodes is an equation of sums.
-/

namespace Machinery

open Finset Option Nat

namespace Radix

/-- What a memory makes of entry `j` of node `p`. -/
structure Nodes (P E : Type) where
  child : P → ℕ → Option P
  value : P → ℕ → Option E
  dirOk : P → ℕ → Prop
  lowOk : P → ℕ → Prop

variable {P E : Type} (fan : ℕ)

/-- Digit `L` of `v` in base `fan`. -/
def digit (L v : ℕ) : ℕ := v / fan ^ L % fan

/-- The nodes of the tree of level `L` at `p`. -/
def tables (N : Nodes P E) : ℕ → P → Multiset P
  | 0, p => {p}
  | L + 1, p => {p} + ∑ j ∈ Finset.range fan, (N.child p j).elim 0 (tables N L)

/-- The value at index `v`. -/
def find (N : Nodes P E) : ℕ → P → ℕ → Option E
  | 0, p, v => N.value p (digit fan 0 v)
  | L + 1, p, v => (N.child p (digit fan (L + 1) v)).bind fun q => find N L q v

/-- The bottom node that holds the entry of index `v`. -/
def bottom (N : Nodes P E) : ℕ → P → ℕ → Option P
  | 0, p, _ => some p
  | L + 1, p, v => (N.child p (digit fan (L + 1) v)).bind fun q => bottom N L q v

/-- Every entry of the tree is a proper one. -/
def Proper (N : Nodes P E) : ℕ → P → Prop
  | 0, p => ∀ j < fan, N.lowOk p j
  | L + 1, p => ∀ j < fan, N.dirOk p j ∧ ∀ q, N.child p j = some q → Proper N L q

/-- Two memories make the same of the entries of `p`. -/
structure Agree (N N' : Nodes P E) (p : P) : Prop where
  child : N'.child p = N.child p
  value : N'.value p = N.value p
  dirOk : N'.dirOk p = N.dirOk p
  lowOk : N'.lowOk p = N.lowOk p

variable {fan} {N N' : Nodes P E}

theorem digit_lt (hf : 0 < fan) (L v : ℕ) : digit fan L v < fan := mod_lt _ hf

/-- Indices are the same below a level iff their digits are. -/
theorem mod_pow_succ_eq_iff (hf : 0 < fan) (L v w : ℕ) :
    v % fan ^ (L + 1) = w % fan ^ (L + 1) ↔
      digit fan L v = digit fan L w ∧ v % fan ^ L = w % fan ^ L := by
  have hpos : 0 < fan ^ L := Nat.pow_pos hf
  rw [mod_pow_succ, mod_pow_succ]
  constructor
  · intro h
    have h1 : v % fan ^ L = w % fan ^ L := by
      have h' := congrArg (· % fan ^ L) h
      simpa [add_mul_mod_self_left] using h'
    rw [h1] at h
    exact ⟨Nat.eq_of_mul_eq_mul_left hpos (Nat.add_left_cancel h), h1⟩
  · rintro ⟨h1, h2⟩
    rw [h2]
    exact congrArg (w % fan ^ L + fan ^ L * ·) h1

/-! ## The nodes of a tree -/

theorem mem_tables_self (N : Nodes P E) (L : ℕ) (p : P) : p ∈ tables fan N L p := by
  cases L <;> simp [tables]

variable {j v : ℕ} {q : P}

theorem tables_child_le {L : ℕ} {p : P} (hj : j < fan) (hq : N.child p j = some q) :
    {p} + tables fan N L q ≤ tables fan N (L + 1) p := by
  refine add_le_add_right ?_ _
  have h := single_le_sum (f := fun j => (N.child p j).elim 0 (tables fan N L))
    (fun _ _ => Multiset.zero_le _) (mem_range.2 hj)
  simpa [hq] using h

theorem nodup_child {L : ℕ} {p : P} (h : (tables fan N (L + 1) p).Nodup) (hj : j < fan)
    (hq : N.child p j = some q) : (tables fan N L q).Nodup ∧ p ∉ tables fan N L q := by
  have h' := Multiset.nodup_of_le (tables_child_le hj hq) h
  rw [Multiset.singleton_add, Multiset.nodup_cons] at h'
  exact ⟨h'.2, h'.1⟩

theorem disjoint_children {L j' : ℕ} {p q' : P} (h : (tables fan N (L + 1) p).Nodup)
    (hj : j < fan) (hj' : j' < fan) (hne : j ≠ j') (hq : N.child p j = some q)
    (hq' : N.child p j' = some q') : Disjoint (tables fan N L q) (tables fan N L q') := by
  have hle : tables fan N L q + tables fan N L q' ≤ tables fan N (L + 1) p := by
    have hs : ∑ i ∈ {j, j'}, (N.child p i).elim 0 (tables fan N L) ≤
        ∑ i ∈ Finset.range fan, (N.child p i).elim 0 (tables fan N L) := by
      refine sum_le_sum_of_subset fun i hi => ?_
      rcases mem_insert.1 hi with rfl | hi
      · exact mem_range.2 hj
      · exact mem_range.2 (mem_singleton.1 hi ▸ hj')
    rw [sum_pair hne, hq, hq'] at hs
    exact hs.trans (Multiset.le_add_left _ _)
  exact (Multiset.nodup_add.1 (Multiset.nodup_of_le hle h)).2.2

/-- A node without pointers is a tree of its own. -/
theorem tables_of_empty {L : ℕ} {p : P} (h : ∀ j < fan, N.child p j = none) :
    tables fan N L p = {p} := by
  cases L with
  | zero => rfl
  | succ L =>
    rw [tables, sum_eq_zero fun j hj => by rw [h j (mem_range.1 hj)]; rfl, add_zero]

theorem mem_tables_child {L : ℕ} {p r : P} (hj : j < fan) (hq : N.child p j = some q)
    (hr : r ∈ tables fan N L q) : r ∈ tables fan N (L + 1) p :=
  Multiset.mem_of_le ((Multiset.le_add_left _ _).trans (tables_child_le hj hq)) hr

theorem bottom_mem (hf : 0 < fan) {L : ℕ} {p : P} (h : bottom fan N L p v = some q) :
    q ∈ tables fan N L p := by
  induction L generalizing p with
  | zero => exact some.inj h ▸ mem_tables_self N 0 p
  | succ L ih =>
    obtain ⟨c, hc, hb⟩ := bind_eq_some_iff.1 h
    exact mem_tables_child (digit_lt hf _ _) hc (ih hb)

/-- The entry of an index is in the bottom node that holds it. -/
theorem find_eq_bottom (N : Nodes P E) (L : ℕ) (p : P) (v : ℕ) :
    find fan N L p v = (bottom fan N L p v).bind fun q => N.value q (digit fan 0 v) := by
  induction L generalizing p with
  | zero => rfl
  | succ L ih =>
    rw [find, bottom, bind_assoc]
    exact congrArg _ (funext fun q => ih q)

/-! ## A tree depends on its own nodes only -/

theorem tables_congr {L : ℕ} {p : P} (h : ∀ q ∈ tables fan N L p, Agree N N' q) :
    tables fan N' L p = tables fan N L p := by
  induction L generalizing p with
  | zero => rfl
  | succ L ih =>
    rw [tables, tables, (h p (mem_tables_self N _ p)).child]
    refine congrArg (({p} : Multiset P) + ·) (sum_congr rfl fun j hj => ?_)
    cases hq : N.child p j with
    | none => rfl
    | some q => exact ih fun r hr => h r (mem_tables_child (mem_range.1 hj) hq hr)

theorem proper_congr {L : ℕ} {p : P} (h : ∀ q ∈ tables fan N L p, Agree N N' q)
    (hp : Proper fan N L p) : Proper fan N' L p := by
  induction L generalizing p with
  | zero =>
    intro j hj
    rw [(h p (mem_tables_self N _ p)).lowOk]
    exact hp j hj
  | succ L ih =>
    intro j hj
    have ha := h p (mem_tables_self N _ p)
    rw [ha.dirOk, ha.child]
    exact ⟨(hp j hj).1, fun q hq => ih (fun r hr => h r (mem_tables_child hj hq hr))
      ((hp j hj).2 q hq)⟩

/-- The entries of the bottom nodes of a proper tree are proper. -/
theorem lowOk_of_bottom (hf : 0 < fan) {L : ℕ} {p : P} (hp : Proper fan N L p)
    (hb : bottom fan N L p v = some q) (hj : j < fan) : N.lowOk q j := by
  induction L generalizing p with
  | zero => exact some.inj hb ▸ hp j hj
  | succ L ih =>
    obtain ⟨c, hc, hb⟩ := bind_eq_some_iff.1 hb
    exact ih ((hp _ (digit_lt hf _ _)).2 c hc) hb

theorem bottom_congr (hf : 0 < fan) {L : ℕ} {p : P} (h : ∀ q ∈ tables fan N L p, Agree N N' q)
    (v : ℕ) : bottom fan N' L p v = bottom fan N L p v := by
  induction L generalizing p with
  | zero => rfl
  | succ L ih =>
    rw [bottom, bottom, (h p (mem_tables_self N _ p)).child]
    cases hq : N.child p (digit fan (L + 1) v) with
    | none => rfl
    | some q => exact ih fun r hr => h r (mem_tables_child (digit_lt hf _ _) hq hr)

theorem find_congr (hf : 0 < fan) {L : ℕ} {p : P} (h : ∀ q ∈ tables fan N L p, Agree N N' q)
    (v : ℕ) : find fan N' L p v = find fan N L p v := by
  rw [find_eq_bottom, find_eq_bottom, bottom_congr hf h]
  cases hb : bottom fan N L p v with
  | none => rfl
  | some q => rw [bind_some, bind_some, (h q (bottom_mem hf hb)).value]

/-! ## An update below one entry

What lies below the other entries of the root is as before. -/

/-- From `N` to `N'` nothing changes in the tree at `p` but what is below entry `d` of `p`. -/
structure Below (fan : ℕ) (N N' : Nodes P E) (L : ℕ) (p : P) (d : ℕ) : Prop where
  child : ∀ j < fan, j ≠ d → N'.child p j = N.child p j
  dirOk : ∀ j < fan, j ≠ d → (N'.dirOk p j ↔ N.dirOk p j)
  others : ∀ j < fan, j ≠ d → ∀ q, N.child p j = some q → ∀ r ∈ tables fan N L q, Agree N N' r

variable {L d : ℕ} {p : P}

/-- The nodes of a tree under an update below one entry. -/
theorem tables_descend (hd : d < fan) (h : Below fan N N' L p d) :
    tables fan N' (L + 1) p + (N.child p d).elim 0 (tables fan N L) =
      tables fan N (L + 1) p + (N'.child p d).elim 0 (tables fan N' L) := by
  have hm := mem_range.2 hd
  have hrest : ∑ j ∈ (Finset.range fan).erase d, (N'.child p j).elim 0 (tables fan N' L) =
      ∑ j ∈ (Finset.range fan).erase d, (N.child p j).elim 0 (tables fan N L) := by
    refine sum_congr rfl fun j hj => ?_
    obtain ⟨hne, hj⟩ := mem_erase.1 hj
    have hj := mem_range.1 hj
    rw [h.child j hj hne]
    cases hq : N.child p j with
    | none => rfl
    | some q => exact tables_congr (h.others j hj hne q hq)
  rw [tables, tables, ← add_sum_erase _ _ hm, ← add_sum_erase _ _ hm, hrest]
  abel

theorem find_descend (hf : 0 < fan) (h : Below fan N N' L p d)
    (hv : digit fan (L + 1) v ≠ d) : find fan N' (L + 1) p v = find fan N (L + 1) p v := by
  have hlt := digit_lt hf (L + 1) v
  rw [find, find, h.child _ hlt hv]
  cases hq : N.child p (digit fan (L + 1) v) with
  | none => rfl
  | some q => exact find_congr hf (h.others _ hlt hv q hq) v

theorem proper_descend (h : Below fan N N' L p d) (hp : Proper fan N (L + 1) p)
    (hdir : N'.dirOk p d) (hsub : ∀ q, N'.child p d = some q → Proper fan N' L q) :
    Proper fan N' (L + 1) p := by
  intro j hj
  by_cases hjd : j = d
  · subst hjd
    exact ⟨hdir, hsub⟩
  · rw [h.dirOk j hj hjd, h.child j hj hjd]
    exact ⟨(hp j hj).1, fun q hq => proper_congr (h.others j hj hjd q hq) ((hp j hj).2 q hq)⟩

/-- An update of nodes of the tree below entry `d` only. -/
theorem below_of_agree (N' : Nodes P E) (hnd : (tables fan N (L + 1) p).Nodup) (hd : d < fan)
    (hq : N.child p d = some q)
    (h : ∀ r ∈ tables fan N (L + 1) p, r ∉ tables fan N L q → Agree N N' r) : Below fan N N' L p d where
  child j _ _ := congrFun (h p (mem_tables_self N _ p) (nodup_child hnd hd hq).2).child j
  dirOk j _ _ := by rw [(h p (mem_tables_self N _ p) (nodup_child hnd hd hq).2).dirOk]
  others j hj hne q' hq' r hr := h r (mem_tables_child hj hq' hr) fun hr' =>
    Multiset.disjoint_left.1 (disjoint_children hnd hj hd hne hq' hq) hr hr'

/-! ## An update of one value -/

theorem below_of_bottom (hf : 0 < fan) (hnd : (tables fan N (L + 1) p).Nodup)
    (hb : bottom fan N (L + 1) p v = some q) (h : ∀ r, r ≠ q → Agree N N' r) :
    ∃ c, N.child p (digit fan (L + 1) v) = some c ∧ bottom fan N L c v = some q ∧ (tables fan N L c).Nodup ∧
      Agree N N' p ∧ Below fan N N' L p (digit fan (L + 1) v) := by
  obtain ⟨c, hc, hb⟩ := bind_eq_some_iff.1 hb
  have hlt := digit_lt hf (L + 1) v
  have hsub := nodup_child hnd hlt hc
  have hqc := bottom_mem hf hb
  exact ⟨c, hc, hb, hsub.1, h p fun e => hsub.2 (e ▸ hqc),
    below_of_agree N' hnd hlt hc fun r _ hr => h r fun e => hr (e ▸ hqc)⟩

/-- Changing an entry of the bottom node of `v` changes no node of the tree. -/
theorem tables_set (hf : 0 < fan) (hnd : (tables fan N L p).Nodup)
    (hb : bottom fan N L p v = some q) (h : ∀ r, r ≠ q → Agree N N' r) :
    tables fan N' L p = tables fan N L p := by
  induction L generalizing p with
  | zero => rfl
  | succ L ih =>
    obtain ⟨c, hc, hb, hnd, hp, hbelow⟩ := below_of_bottom hf hnd hb h
    have hdesc := tables_descend (digit_lt hf (L + 1) v) hbelow
    rw [hp.child, hc, elim_some, elim_some, ih hnd hb] at hdesc
    exact add_right_cancel hdesc

theorem find_set (hf : 0 < fan) (hnd : (tables fan N L p).Nodup)
    (hb : bottom fan N L p v = some q) (h : ∀ r, r ≠ q → Agree N N' r)
    (hq : ∀ j < fan, j ≠ digit fan 0 v → N'.value q j = N.value q j) (w : ℕ) :
    find fan N' L p w = if w % fan ^ (L + 1) = v % fan ^ (L + 1) then N'.value q (digit fan 0 v)
      else find fan N L p w := by
  induction L generalizing p with
  | zero =>
    obtain rfl := some.inj hb
    have hiff := mod_pow_succ_eq_iff hf 0 w v
    simp only [pow_zero, mod_one, and_true] at hiff
    rw [find, find, if_congr hiff rfl rfl]
    split
    next e => rw [e]
    next e => exact hq _ (digit_lt hf 0 w) e
  | succ L ih =>
    obtain ⟨c, hc, hb, hnd, hp, hbelow⟩ := below_of_bottom hf hnd hb h
    rw [if_congr (mod_pow_succ_eq_iff hf (L + 1) w v) rfl rfl]
    by_cases hd : digit fan (L + 1) w = digit fan (L + 1) v
    · rw [find, find, hp.child, hd, hc, bind_some, bind_some, ih hnd hb]
      simp
    · rw [find_descend hf hbelow hd]
      simp [hd]

theorem proper_set (hf : 0 < fan) (hnd : (tables fan N L p).Nodup)
    (hb : bottom fan N L p v = some q) (h : ∀ r, r ≠ q → Agree N N' r)
    (hq : ∀ j < fan, N.lowOk q j → N'.lowOk q j) (hp : Proper fan N L p) : Proper fan N' L p := by
  induction L generalizing p with
  | zero =>
    obtain rfl := some.inj hb
    exact fun j hj => hq j hj (hp j hj)
  | succ L ih =>
    obtain ⟨c, hc, hb, hnd, ha, hbelow⟩ := below_of_bottom hf hnd hb h
    have hlt := digit_lt hf (L + 1) v
    refine proper_descend hbelow hp ?_ fun c' hc' => ?_
    · rw [ha.dirOk]
      exact (hp _ hlt).1
    · rw [ha.child, hc] at hc'
      obtain rfl := some.inj hc'
      exact ih hnd hb ((hp _ hlt).2 c hc)

/-! ## Trees without values -/

theorem find_mod (hf : 0 < fan) {w : ℕ} (h : v % fan ^ (L + 1) = w % fan ^ (L + 1)) :
    find fan N L p v = find fan N L p w := by
  induction L generalizing p with
  | zero =>
    have h0 := ((mod_pow_succ_eq_iff hf 0 v w).1 h).1
    rw [find, find, h0]
  | succ L ih =>
    obtain ⟨h0, h1⟩ := (mod_pow_succ_eq_iff hf (L + 1) v w).1 h
    rw [find, find, h0]
    exact congrArg _ (funext fun q => ih h1)

/-- What is found below the root is found from the root. -/
theorem exists_find_child (hf : 0 < fan) (hj : j < fan) (hq : N.child p j = some q)
    (v : ℕ) : ∃ w, find fan N (L + 1) p w = find fan N L q v := by
  have hpos : 0 < fan ^ (L + 1) := Nat.pow_pos hf
  have hd : digit fan (L + 1) (v % fan ^ (L + 1) + fan ^ (L + 1) * j) = j := by
    rw [digit, add_mul_div_left _ _ hpos, div_eq_of_lt (mod_lt _ hpos), zero_add,
      mod_eq_of_lt hj]
  refine ⟨v % fan ^ (L + 1) + fan ^ (L + 1) * j, ?_⟩
  rw [find, hd, hq, bind_some]
  exact find_mod hf (by simp)

/-- The trees below the root of a tree without values have none. -/
theorem find_child_none (hf : 0 < fan) (hj : j < fan)
    (h : ∀ v, find fan N (L + 1) p v = none) (hq : N.child p j = some q) (v : ℕ) :
    find fan N L q v = none := by
  obtain ⟨w, hw⟩ := exists_find_child hf hj hq v
  exact hw.symm.trans (h w)

theorem find_of_empty (hf : 0 < fan) (h : ∀ j < fan, N.child p j = none)
    (h0 : ∀ j < fan, N.value p j = none) (v : ℕ) : find fan N L p v = none := by
  cases L with
  | zero => exact h0 _ (digit_lt hf 0 v)
  | succ L => rw [find, h _ (digit_lt hf _ v), bind_none]

/-! ## Counting missing nodes

Adding the nodes on the way to one index adds those that the way to another shares with it. -/

/-- The number of nodes missing on the way to index `v`. -/
def missing (fan : ℕ) (N : Nodes P E) : ℕ → P → ℕ → ℕ
  | 0, _, _ => 0
  | L + 1, p, v => (N.child p (digit fan (L + 1) v)).elim (L + 1) fun q => missing fan N L q v

/-- The number of nodes on the way to `w` that are not on the way to `v`. -/
def apart (fan : ℕ) : ℕ → ℕ → ℕ → ℕ
  | 0, _, _ => 0
  | L + 1, v, w => if digit fan (L + 1) v = digit fan (L + 1) w then apart fan L v w else L + 1

theorem apart_le (L v w : ℕ) : apart fan L v w ≤ L := by
  induction L with
  | zero => exact le_rfl
  | succ L ih =>
    rw [apart]
    split <;> omega

theorem missing_le (N : Nodes P E) (L : ℕ) (p : P) (v : ℕ) : missing fan N L p v ≤ L := by
  induction L generalizing p with
  | zero => exact le_rfl
  | succ L ih =>
    rw [missing]
    cases N.child p (digit fan (L + 1) v) with
    | none => exact le_rfl
    | some q => exact (ih q).trans (le_succ L)

theorem missing_of_empty (hf : 0 < fan) (h : ∀ j < fan, N.child p j = none) (v : ℕ) :
    missing fan N L p v = L := by
  cases L with
  | zero => rfl
  | succ L => rw [missing, h _ (digit_lt hf _ v), elim_none]

theorem missing_congr (hf : 0 < fan) (h : ∀ q ∈ tables fan N L p, Agree N N' q) (v : ℕ) :
    missing fan N' L p v = missing fan N L p v := by
  induction L generalizing p with
  | zero => rfl
  | succ L ih =>
    rw [missing, missing, (h p (mem_tables_self N _ p)).child]
    cases hq : N.child p (digit fan (L + 1) v) with
    | none => rfl
    | some q => exact ih fun r hr => h r (mem_tables_child (digit_lt hf _ _) hq hr)

theorem missing_descend (hf : 0 < fan) (h : Below fan N N' L p d)
    (hv : digit fan (L + 1) v ≠ d) : missing fan N' (L + 1) p v = missing fan N (L + 1) p v := by
  have hlt := digit_lt hf (L + 1) v
  rw [missing, missing, h.child _ hlt hv]
  cases hq : N.child p (digit fan (L + 1) v) with
  | none => rfl
  | some q => exact missing_congr hf (h.others _ hlt hv q hq) v

theorem missing_set (hf : 0 < fan) (hnd : (tables fan N L p).Nodup)
    (hb : bottom fan N L p v = some q) (h : ∀ r, r ≠ q → Agree N N' r) (w : ℕ) :
    missing fan N' L p w = missing fan N L p w := by
  induction L generalizing p with
  | zero => rfl
  | succ L ih =>
    obtain ⟨c, hc, hb, hnd, hp, hbelow⟩ := below_of_bottom hf hnd hb h
    by_cases hd : digit fan (L + 1) w = digit fan (L + 1) v
    · rw [missing, missing, hp.child, hd, hc, elim_some, elim_some, ih hnd hb]
    · exact missing_descend hf hbelow hd

/-- Where the way to `v` is there, the way to `w` lacks at most the nodes apart from it. -/
theorem missing_le_apart (h : bottom fan N L p v ≠ none) (w : ℕ) :
    missing fan N L p w ≤ apart fan L v w := by
  induction L generalizing p with
  | zero => exact le_rfl
  | succ L ih =>
    rw [apart]
    split_ifs with hd
    · rw [bottom, hd] at h
      rw [missing]
      cases hc : N.child p (digit fan (L + 1) w) with
      | none => exact absurd (by rw [hc, bind_none]) h
      | some q =>
        rw [hc, bind_some] at h
        exact ih h
    · exact missing_le _ _ _ _

/-! ## Other conditions on the values -/

/-- The same nodes, where an entry of a bottom node is proper if its value is `low`. -/
def Nodes.withLow (N : Nodes P E) (low : E → Prop) : Nodes P E :=
  { N with lowOk := fun p j => ∀ e, N.value p j = some e → low e }

variable {low : E → Prop}

theorem tables_withLow (N : Nodes P E) (low : E → Prop) (L : ℕ) (p : P) :
    tables fan (N.withLow low) L p = tables fan N L p := by
  induction L generalizing p with
  | zero => rfl
  | succ L ih =>
    rw [tables, tables, funext ih]
    rfl

theorem bottom_withLow (N : Nodes P E) (low : E → Prop) (L : ℕ) (p : P) (v : ℕ) :
    bottom fan (N.withLow low) L p v = bottom fan N L p v := by
  induction L generalizing p with
  | zero => rfl
  | succ L ih =>
    rw [bottom, bottom]
    exact congrArg _ (funext ih)

theorem Agree.withLow (h : Agree N N' p) : Agree (N.withLow low) (N'.withLow low) p where
  child := h.child
  value := h.value
  dirOk := h.dirOk
  lowOk := by simp only [Nodes.withLow, h.value]

theorem Below.withLow (h : Below fan N N' L p d) : Below fan (N.withLow low) (N'.withLow low) L p d where
  child := h.child
  dirOk := h.dirOk
  others j hj hne q hq r hr := (h.others j hj hne q hq r (tables_withLow N low L q ▸ hr)).withLow

/-- A tree is proper for every condition its values meet. -/
theorem Proper.withLow (hf : 0 < fan) {low' : E → Prop} (hp : Proper fan (N.withLow low) L p)
    (h : ∀ v e, find fan N L p v = some e → low' e) : Proper fan (N.withLow low') L p := by
  induction L generalizing p with
  | zero =>
    intro j hj e he
    refine h j e ?_
    rw [find, digit, pow_zero, Nat.div_one, mod_eq_of_lt hj]
    exact he
  | succ L ih =>
    refine fun j hj => ⟨(hp j hj).1, fun q hq => ih ((hp j hj).2 q hq) fun v e he => ?_⟩
    obtain ⟨w, hw⟩ := exists_find_child (N := N) hf hj hq v
    exact h w e (hw.trans he)

-- unfolded by their equations, one level at a time
attribute [irreducible] tables find bottom missing

end Radix

end Machinery

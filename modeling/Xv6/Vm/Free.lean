import Xv6.Vm.Map
import Mathlib.Algebra.BigOperators.Intervals

/-!
# Vm/Free — `freewalk` puts every table of an empty page table on the free list
-/

namespace Xv6

open Machinery Function Ensures Multiset Option Radix Finset

variable {im : Image}

/-- The tables under entry `j` of `n`. -/
def kids (m : ℕ → Page) (L n j : ℕ) : Multiset ℕ :=
  ((nodes m).child n j).elim 0 (Radix.tables 512 (nodes m) L)

theorem tables_eq_kids (m : ℕ → Page) (L n : ℕ) :
    tables 512 (nodes m) (L + 1) n = {n} + ∑ j ∈ Finset.Ico 0 512, kids m L n j := by
  rw [tables, range_eq_Ico]
  rfl

theorem kids_le {m : ℕ → Page} {L n j : ℕ} (hj : j < 512) :
    {n} + kids m L n j ≤ tables 512 (nodes m) (L + 1) n := by
  rw [kids]
  cases hc : (nodes m).child n j with
  | none =>
    rw [elim_none, add_zero, singleton_le]
    exact mem_tables_self _ _ n
  | some c => exact tables_child_le hj hc

/-- Where the loop of `freewalk` stands at entry `i` of `n`, having started in `σ`. -/
structure Felling (L n : ℕ) (σ : Phys) (i : ℕ) (s : Phys) : Prop where
  account : (s.freelist : Multiset ℕ) + ∑ j ∈ Finset.Ico i 512, kids σ.mem L n j =
    σ.freelist + ∑ j ∈ Finset.Ico 0 512, kids σ.mem L n j
  entries : ∀ j, i ≤ j → pte s.mem n j = pte σ.mem n j
  later : ∀ j, i ≤ j → j < 512 → ∀ x ∈ kids σ.mem L n j, s.mem x = σ.mem x
  frame : ∀ x ∉ Radix.tables 512 (nodes σ.mem) (L + 1) n, s.mem x = σ.mem x
  sound : s.sound = σ.sound

/-- A tree of level `L` at `n` that maps nothing and can be freed. -/
structure Bare (im : Image) (L n : ℕ) (σ : Phys) : Prop where
  nodup : ((σ.freelist : Multiset ℕ) + Radix.tables 512 (nodes σ.mem) L n).Nodup
  proper : Radix.Proper 512 (nodes σ.mem) L n
  find : ∀ v, Radix.find 512 (nodes σ.mem) L n v = none
  pool : ∀ x ∈ Radix.tables 512 (nodes σ.mem) L n, InPool im x

/-- The tree of level `L` at `n` has gone to the free list. -/
structure Felled (L n : ℕ) (σ σ' : Phys) : Prop where
  account : (σ'.freelist : Multiset ℕ) = σ.freelist + Radix.tables 512 (nodes σ.mem) L n
  frame : ∀ x ∉ Radix.tables 512 (nodes σ.mem) L n, σ'.mem x = σ.mem x
  sound : σ'.sound = σ.sound

section Loop

variable {L n i c : ℕ} {σ s s' : Phys}

theorem Felling.start (L n : ℕ) (σ : Phys) : Felling L n σ 0 σ :=
  ⟨rfl, fun _ _ => rfl, fun _ _ _ _ _ => rfl, fun _ _ => rfl, rfl⟩

theorem Felling.skip (h : Felling L n σ i s) (hi : i < 512)
    (hc : (nodes σ.mem).child n i = none) : Felling L n σ (i + 1) s where
  account := by
    have ha := h.account
    rw [sum_eq_sum_Ico_succ_bot hi, kids, hc, elim_none, zero_add] at ha
    exact ha
  entries j hj := h.entries j (by omega)
  later j hj := h.later j (by omega)
  frame := h.frame
  sound := h.sound

theorem kids_of_child {m : ℕ → Page} (hc : (nodes m).child n i = some c) :
    kids m L n i = tables 512 (nodes m) L c := by
  rw [kids, hc, elim_some]

theorem Felling.agree (h : Felling L n σ i s) (hi : i < 512)
    (hc : (nodes σ.mem).child n i = some c) {x : ℕ} (hx : x ∈ tables 512 (nodes σ.mem) L c) :
    Radix.Agree (nodes σ.mem) (nodes s.mem) x := by
  rw [← kids_of_child hc] at hx
  exact agree_of_eq (h.later i le_rfl hi x hx)

theorem Bare.child (h : Bare im (L + 1) n σ) (hi : i < 512)
    (hc : (nodes σ.mem).child n i = some c) (hs : Felling L n σ i s) : Bare im L c s := by
  have hsame : ∀ x ∈ tables 512 (nodes σ.mem) L c, Radix.Agree (nodes σ.mem) (nodes s.mem) x :=
    fun _ hx => hs.agree hi hc hx
  refine ⟨?_, proper_congr hsame ((h.proper i hi).2 c hc), fun v => ?_, fun x hx => ?_⟩
  · have hnd := h.nodup
    rw [tables_eq_kids, add_left_comm, ← hs.account, sum_eq_sum_Ico_succ_bot hi,
      kids_of_child hc] at hnd
    rw [tables_congr hsame]
    refine nodup_of_le ?_ hnd
    rw [← add_assoc (s.freelist : Multiset ℕ), add_left_comm]
    exact le_add_right _ _
  · rw [find_congr (by norm_num) hsame]
    exact find_child_none (by norm_num) hi h.find hc v
  · rw [tables_congr hsame] at hx
    exact h.pool x (mem_tables_child hi hc hx)

theorem Felling.fell (hb : Bare im (L + 1) n σ) (h : Felling L n σ i s) (hi : i < 512)
    (hc : (nodes σ.mem).child n i = some c) (hf : Felled L c s s') :
    Felling L n σ (i + 1) { s' with mem := withPte s'.mem n i 0 } := by
  have hnd := (nodup_add.1 hb.nodup).2.1
  have ht : tables 512 (nodes s.mem) L c = tables 512 (nodes σ.mem) L c :=
    tables_congr fun _ hx => h.agree hi hc hx
  have hnc : n ∉ tables 512 (nodes s.mem) L c := by
    rw [ht]
    exact (nodup_child hnd hi hc).2
  refine ⟨?_, fun j hj => ?_, fun j hj hj' x hx => ?_, fun x hx => ?_, hf.sound.trans h.sound⟩
  · have ha := h.account
    rw [sum_eq_sum_Ico_succ_bot hi, kids_of_child hc, ← add_assoc, ← ht, ← hf.account] at ha
    exact ha
  · rw [pte_withPte_of_ne _ _ _ (by omega), pte, hf.frame n hnc, ← pte, h.entries j (by omega)]
  · have hxn : x ≠ n := by
      rintro rfl
      have hle := nodup_of_le (kids_le hj') hnd
      rw [singleton_add, nodup_cons] at hle
      exact hle.1 hx
    have hxc : x ∉ tables 512 (nodes s.mem) L c := fun hxc => by
      rw [ht] at hxc
      rw [kids] at hx
      cases hq : (nodes σ.mem).child n j with
      | none => simp [hq] at hx
      | some q =>
        rw [hq, elim_some] at hx
        exact disjoint_left.1
          (disjoint_children hnd hi hj' (by omega) hc hq) hxc hx
    simp only
    rw [withPte_of_ne _ _ _ hxn, hf.frame x hxc, h.later j (by omega) hj' x hx]
  · have hxn : x ≠ n := by
      rintro rfl
      exact hx (mem_tables_self _ _ x)
    simp only
    rw [withPte_of_ne _ _ _ hxn, hf.frame x, h.frame x hx]
    rw [ht]
    exact fun hxc => hx (mem_tables_child hi hc hxc)

theorem felled_of_last (hb : Bare im L n σ)
    (ha : {n} + (s.freelist : Multiset ℕ) = σ.freelist + tables 512 (nodes σ.mem) L n)
    (hframe : ∀ x ∉ tables 512 (nodes σ.mem) L n, s.mem x = σ.mem x)
    (hsound : s.sound = σ.sound) :
    Felled L n σ { s.put n (.fill PGSIZE 1) with
      freelist := n :: s.freelist, sound := s.sound && decide (n ∉ s.freelist) } := by
  have hn : n ∉ s.freelist := fun hf => by
    have hnd := hb.nodup
    rw [← ha, singleton_add, nodup_cons] at hnd
    exact hnd.1 hf
  refine ⟨ha, fun x hx => ?_, by simp [hn, hsound]⟩
  have hxn : x ≠ n := by
    rintro rfl
    exact hx (mem_tables_self _ _ x)
  simp only [Phys.put]
  rw [update_of_ne hxn, hframe x hx]

end Loop

/-- **`freewalk` of a table that maps nothing frees each of its pages once.** -/
theorem freewalk_spec (L : ℕ) {n : ℕ} {σ : Phys} (h : Bare im L n σ) :
    Ensures (freewalk im (L + 1) n) σ (fun _ σ' => Felled L n σ σ') := by
  induction L generalizing n σ with
  | zero =>
    -- no entry of a bottom table is valid
    have hinv : ∀ i < 512, ¬ pte σ.mem n i % 2 = 1 := fun i hi hodd => by
      have hf := h.find i
      rw [find, value_eq_entry, digit, pow_zero, Nat.div_one, Nat.mod_eq_of_lt hi, entry,
        if_pos hodd] at hf
      exact absurd hf (by simp)
    rw [freewalk]
    refine Ensures.bind (Ensures.forM_range (fun _ s => s = σ) rfl fun i hi s hs => ?_)
      fun _ s hs => ?_
    · subst hs
      rw [bind_iff, ok_iff (getPte_run _ _ _), if_neg (fun hc => hinv i hi hc.1),
        if_neg (hinv i hi), pure_iff]
    · subst hs
      rw [ok_iff (kfree_run (h.pool n (mem_tables_self _ _ n)) _)]
      exact felled_of_last h (by rw [tables, add_comm]) (fun _ _ => rfl) rfl
  | succ L ih =>
    rw [freewalk]
    refine Ensures.bind (Ensures.forM_range (Felling L n σ) (.start L n σ) fun i hi s hs => ?_)
      fun _ s hs => ?_
    · rw [bind_iff, ok_iff (getPte_run _ _ _), hs.entries i le_rfl]
      by_cases hv : pte σ.mem n i % 2 = 1
      · have hc : (nodes σ.mem).child n i = some (pte2page (pte σ.mem n i)) := by simp [nodes, hv]
        have hdir : pte σ.mem n i % 1024 = 1 := (h.proper i hi).1 hv
        rw [if_pos ⟨hv, by omega⟩]
        refine Ensures.bind (ih (h.child hi hc hs)) fun _ s' hf => ?_
        rw [ok_iff (setPte_run _ _ _ _)]
        exact hs.fell h hi hc hf
      · have hc : (nodes σ.mem).child n i = none := by simp [nodes, hv]
        rw [if_neg (fun hc => hv hc.1), if_neg hv, pure_iff]
        exact hs.skip hi hc
    · rw [ok_iff (kfree_run (h.pool n (mem_tables_self _ _ n)) _)]
      have ha := hs.account
      rw [Finset.Ico_self, sum_empty, add_zero] at ha
      exact felled_of_last h (by rw [tables_eq_kids, add_left_comm, ← ha]) hs.frame hs.sound

end Xv6

import Xv6.Vm.Space

/-!
# Vm/Map — `mappages` and `uvmunmap` as changes of a partial map

Each is specified by the map from virtual pages to entries before and after (`leaf`) and by its
account of pages; that no panic is reached is part of the specification.
-/

namespace Xv6

open Machinery Function Ensures List Option Radix

variable {im : Image} {top root : ℕ} {σ σ' σ'' : Phys} {rest : Multiset ℕ} {new : ℕ → Prop}

/-! ## One entry -/

variable {n perm e q v k w : ℕ} {f : ℕ → Option ℕ}

theorem mkPte_mod_four (hp : perm < 1024) (hr : perm / 2 % 2 = 1) : mkPte n perm % 4 = 3 := by
  have h := mkPte_mod (n := n) hp
  have hor : (perm ||| 1) % 4 = 3 := by
    rw [show 4 = 2 ^ 2 from rfl, Nat.or_mod_two_pow]
    have hcases : perm % 2 ^ 2 = 2 ∨ perm % 2 ^ 2 = 3 := by omega
    rcases hcases with hc | hc <;> rw [hc] <;> rfl
  omega

theorem mkPte_user (hp : perm < 1024) (hu : (perm ||| 1) / 16 % 2 = 0) : mkPte n perm / PTE_U % 2 = 0 := by
  have h := mkPte_mod (n := n) hp
  unfold PTE_U
  omega

theorem setPte_run (n j e : ℕ) (σ : Phys) :
    setPte n j e σ = .ok (⟨⟩, { σ with mem := withPte σ.mem n j e }) := rfl

/-- The account of an operation on the tables at `root` whose new entries are `new`. -/
structure Redrawn (new : ℕ → Prop) (root : ℕ) (σ σ' : Phys) : Prop
    extends Moved σ σ' (tabs σ.mem root) (tabs σ'.mem root) where
  proper : ∀ low, (∀ e, new e → low e) → Radix.Proper 512 (nodesWith low σ.mem) 2 root →
    Radix.Proper 512 (nodesWith low σ'.mem) 2 root

theorem Redrawn.trans (h : Redrawn new root σ σ') (h' : Redrawn new root σ' σ'') :
    Redrawn new root σ σ'' :=
  ⟨h.toMoved.trans h'.toMoved, fun low hn hp => h'.proper low hn (h.proper low hn hp)⟩

theorem Added.redrawn (h : Added 2 root σ σ') : Redrawn new root σ σ' :=
  ⟨⟨h.account, h.frame, h.sound⟩, fun low _ => h.proper low⟩

theorem redrawn_withPte (hnd : (tabs σ.mem root).Nodup)
    (hb : bottom 512 (nodes σ.mem) 2 root v = some q) (he : e < 2 ^ 64)
    (hnew : e % 2 = 1 → new e) :
    Redrawn new root σ { σ with mem := withPte σ.mem q (digit 512 0 v) e } where
  account := by rw [tabs_withPte hnd hb]
  frame x _ hx := withPte_of_ne _ _ _ fun hxq => hx (hxq ▸ bottom_mem (by norm_num) hb)
  sound := rfl
  proper low hn := proper_withPte hnd hb he fun hodd => hn e (hnew hodd)

theorem Redrawn.rebuilt (h : Redrawn new root σ σ') (hn : ∀ e, new e → e % 4 = 3)
    (hp : Proper 512 (nodes σ.mem) 2 root) : Rebuilt root σ σ' := by
  have hr := h.proper _ hn
  rw [nodesWith_readable, nodesWith_readable] at hr
  exact ⟨h.toMoved, hr hp⟩

theorem Rooted.of_redrawn (h : Rooted 2 root σ) (hr : Redrawn new root σ σ') : Rooted 2 root σ' :=
  ⟨hr.account ▸ h.nodup, fun x hx => h.small x (hr.account ▸ hx)⟩

theorem leaf_eq_entry {m : ℕ → Page} (hb : bottom 512 (nodes m) 2 root v = some q) :
    leaf m root v = entry (pte m q (digit 512 0 v)) := by
  simp only [leaf, find_eq_bottom, hb, bind_some, value_eq_entry]

theorem Space.mod_four (h : Space im top root rest σ) (he : leaf σ.mem root v = some e) :
    e % 4 = 3 := by
  cases hb : bottom 512 (nodes σ.mem) 2 root v with
  | none => simp [leaf, find_eq_bottom, hb] at he
  | some q =>
    have hlow := lowOk_of_bottom (by norm_num) h.proper hb (digit_zero_lt v)
    rw [leaf_eq_entry hb, entry] at he
    split at he
    · rename_i hodd
      exact some.inj he ▸ hlow hodd
    · simp at he

/-! ## `mappages`

Each page may need tables of its own; `mapCost` says how many, and whether there is room for them.
-/

/-- The tables missing after a `walk` to page `v`. -/
def walked (M : ℕ → ℕ) (v w : ℕ) : ℕ := min (M w) (Radix.apart 512 2 v w)

/-- The tables it takes to map `k` pages from page `v` on. -/
def mapCost (M : ℕ → ℕ) (v : ℕ) : ℕ → ℕ
  | 0 => 0
  | k + 1 => M v + mapCost (walked M v) (v + 1) k

/-- The tables missing after `k` pages are mapped from page `v` on. -/
def mapMissing (M : ℕ → ℕ) (v : ℕ) : ℕ → ℕ → ℕ
  | 0 => M
  | k + 1 => mapMissing (walked M v) (v + 1) k

theorem mapCost_le {M : ℕ → ℕ} (h : ∀ w, M w ≤ 2) (k : ℕ) (v : ℕ) : mapCost M v k ≤ 2 * k := by
  induction k generalizing M v with
  | zero => exact le_rfl
  | succ k ih =>
    have := ih (M := walked M v) (fun w => (min_le_left _ _).trans (h w)) (v + 1)
    have := h v
    rw [mapCost]
    omega

theorem mapCost_eq_zero {M : ℕ → ℕ} (h : ∀ w, v ≤ w → w < v + k → M w = 0) : mapCost M v k = 0 := by
  induction k generalizing M v with
  | zero => rfl
  | succ k ih =>
    rw [mapCost, h v le_rfl (by omega), ih fun w hlo hhi => ?_]
    rw [walked, h w (by omega) (by omega), Nat.zero_min]

/-- To map `k` pages from page `v` on succeeds iff there are free pages for the missing tables. -/
structure PaidRange (root v k : ℕ) (σ σ' : Phys) (ok : Prop) : Prop where
  ok_iff : ok ↔ mapCost (missing σ.mem 2 root) v k ≤ σ.freelist.length
  length : ok → σ'.freelist.length + mapCost (missing σ.mem 2 root) v k = σ.freelist.length
  after : ok → missing σ'.mem 2 root = mapMissing (missing σ.mem 2 root) v k

theorem Paid.range {σ1 σ2 : Phys} {ok : Prop} (hp : Paid 2 root v σ σ1 True)
    (hr : PaidRange root (v + 1) k σ2 σ' ok) (hl : σ2.freelist = σ1.freelist)
    (hm : missing σ2.mem 2 root = missing σ1.mem 2 root) : PaidRange root v (k + 1) σ σ' ok := by
  have hw : missing σ2.mem 2 root = walked (missing σ.mem 2 root) v := by
    rw [hm]
    exact funext fun w => hp.after trivial w
  have hlen := hp.length trivial
  have hok := hr.ok_iff
  rw [hl, hw] at hok
  refine ⟨?_, fun h => ?_, fun h => ?_⟩
  · rw [hok, mapCost]
    omega
  · have := hr.length h
    rw [hl, hw] at this
    rw [mapCost]
    omega
  · rw [hr.after h, hw, mapMissing]

theorem mapLoop_spec (hp : perm < 1024) (k : ℕ) {pn : ℕ} (hv : v + k ≤ 2 ^ 26) (hpn : pn + k ≤ 2 ^ 52)
    (h : Rooted 2 root σ) (hfree : ∀ i < k, leaf σ.mem root (v + i) = none) :
    Ensures (mapLoop root perm k (v * PGSIZE) pn) σ
      (fun r σ' => Redrawn (fun e => ∃ n, e = mkPte n perm) root σ σ' ∧ (∃ i ≤ k, r = decide (i = k) ∧ ∀ w < 2 ^ 27,
        leaf σ'.mem root w =
          if v ≤ w ∧ w < v + i then some (mkPte (pn + (w - v)) perm) else leaf σ.mem root w) ∧
        PaidRange root v k σ σ' (r = true)) := by
  induction k generalizing v pn σ with
  | zero =>
    rw [mapLoop, pure_iff]
    refine ⟨(Added.refl 2 root σ).redrawn, ⟨0, le_rfl, by simp, fun w _ => ?_⟩, ?_⟩
    · rw [if_neg (by omega)]
    · exact ⟨by simp [mapCost], fun _ => rfl, fun _ => rfl⟩
  | succ k ih =>
    have hva : v * PGSIZE < MAXVA := by unfold PGSIZE MAXVA; omega
    have hdiv : v * PGSIZE / PGSIZE = v := Nat.mul_div_cancel _ PGSIZE_pos
    rw [mapLoop, bind_iff]
    refine (walk_added hva h).imp ?_
    rintro r σ1 ⟨ha, hr1, hpaid⟩
    have hleaf : ∀ w, leaf σ1.mem root w = leaf σ.mem root w := ha.find
    have hw : Redrawn (fun e => ∃ n, e = mkPte n perm) root σ σ1 := ha.redrawn
    rw [hdiv] at hpaid
    cases r with
    | none =>
      rw [pure_iff]
      refine ⟨hw, ⟨0, by omega, by simp, fun w _ => ?_⟩, ?_, by simp, by simp⟩
      · rw [if_neg (by omega), hleaf]
      · have hlt := hpaid.ok_iff
        simp only [ne_eq, not_true_eq_false, false_iff, not_le] at hlt
        rw [mapCost]
        simp only [Bool.false_eq_true, false_iff, not_le]
        omega
    | some qj =>
      obtain ⟨q, j⟩ := qj
      obtain ⟨rfl, hb⟩ := hr1 q j rfl
      rw [hdiv] at hb
      rw [px_eq_digit, hdiv]
      have h1 := h.of_redrawn hw
      have hnd1 := (Multiset.nodup_add.1 h1.nodup).2.1
      have hnone : ¬ pte σ1.mem q (digit 512 0 v) % 2 = 1 := by
        have hz := hfree 0 (by omega)
        rw [add_zero, ← hleaf, leaf_eq_entry hb, entry] at hz
        intro hc
        simp [hc] at hz
      have he : mkPte pn perm < 2 ^ 64 := mkPte_lt hp (by omega)
      have hs : Redrawn (fun e => ∃ n, e = mkPte n perm) root σ1 _ :=
        redrawn_withPte hnd1 hb he fun _ => ⟨pn, rfl⟩
      rw [bind_iff, ok_iff (getPte_run _ _ _), if_neg hnone, bind_iff, ok_iff (setPte_run _ _ _ _)]
      have hleaf2 : ∀ w < 2 ^ 27,
          leaf (withPte σ1.mem q (digit 512 0 v) (mkPte pn perm)) root w =
            if w = v then some (mkPte pn perm) else leaf σ.mem root w := fun w hlt => by
        rw [leaf_withPte hnd1 hb he, entry, if_pos (mkPte_odd hp), hleaf,
          Nat.mod_eq_of_lt hlt, Nat.mod_eq_of_lt (by omega : v < 2 ^ 27)]
      have hstep : v * PGSIZE + PGSIZE = (v + 1) * PGSIZE := by ring
      rw [hstep]
      refine (ih (by omega) (by omega) (h1.of_redrawn hs) fun i hi => ?_).imp ?_
      · rw [hleaf2 _ (by omega), if_neg (by omega)]
        have := hfree (i + 1) (by omega)
        rwa [show v + (i + 1) = v + 1 + i by omega] at this
      rintro r σ' ⟨hr', ⟨i, hi, hri, hl⟩, hpr⟩
      refine ⟨hw.trans (hs.trans hr'), ⟨i + 1, by omega, ?_, ?_⟩, ?_⟩
      · simpa using hri
      · intro w hlt
        rw [hl w hlt]
        by_cases hwv : w = v
        · subst hwv
          rw [if_neg (by omega), if_pos (by omega), hleaf2 w hlt, if_pos rfl, Nat.sub_self, add_zero]
        · by_cases hin : v + 1 ≤ w ∧ w < v + 1 + i
          · rw [if_pos hin, if_pos (by omega), show pn + 1 + (w - (v + 1)) = pn + (w - v) by omega]
          · rw [if_neg hin, if_neg (by omega), hleaf2 w hlt, if_neg hwv]
      · have hpaid' : Paid 2 root v σ σ1 True := by simpa using hpaid
        exact hpaid'.range hpr rfl (missing_withPte hnd1 hb _)

/-! ## `uvmunmap`

Page by page the entry is cleared and, with `do_free`, the frame is put on the free list. -/

theorem walk_false_of_leaf (hv : v < 2 ^ 26) (he : leaf σ.mem root v = some e) :
    ∃ q, bottom 512 (nodes σ.mem) 2 root v = some q ∧
      walk root (v * PGSIZE) false σ = .ok (some (q, digit 512 0 v), σ) ∧
      pte σ.mem q (digit 512 0 v) = e ∧ e % 2 = 1 := by
  have hva : v * PGSIZE < MAXVA := by unfold PGSIZE MAXVA; omega
  have hdiv : v * PGSIZE / PGSIZE = v := Nat.mul_div_cancel _ PGSIZE_pos
  cases hb : bottom 512 (nodes σ.mem) 2 root v with
  | none => simp [leaf, find_eq_bottom, hb] at he
  | some q =>
    rw [leaf_eq_entry hb, entry] at he
    split at he
    · rename_i hodd
      obtain rfl := some.inj he
      refine ⟨q, rfl, ?_, rfl, hodd⟩
      rw [walk_false hva, hdiv, hb, px_eq_digit, hdiv]
      rfl
    · simp at he

/-- The map `f` without the pages `[v, v + k)`. -/
def without (f : ℕ → Option ℕ) (v k : ℕ) : ℕ → Option ℕ := fun w =>
  if v ≤ w ∧ w < v + k then none else f w

@[simp] theorem without_zero (f : ℕ → Option ℕ) (v : ℕ) : without f v 0 = f := by
  funext w
  rw [without, if_neg (by omega)]

theorem without_of_notMem (h : ¬ (v ≤ w ∧ w < v + k)) : without f v k w = f w := if_neg h

theorem without_of_mem (h : v ≤ w ∧ w < v + k) : without f v k w = none := if_pos h

theorem without_one (f : ℕ → Option ℕ) (v w : ℕ) :
    without f v 1 w = if w = v then none else f w := by
  have hiff : (v ≤ w ∧ w < v + 1) ↔ w = v := by omega
  simp only [without, hiff]

theorem without_succ {g h : ℕ → Option ℕ} (hg : g w = without h (v + 1) k w)
    (hh : h w = if w = v then none else f w) : g w = without f v (k + 1) w := by
  rw [hg, without, without]
  by_cases hw : w = v
  · rw [hh, if_pos hw, ite_self, if_pos (by omega)]
  · rw [hh, if_neg hw]
    by_cases hin : v + 1 ≤ w ∧ w < v + 1 + k
    · rw [if_pos hin, if_pos (by omega)]
    · rw [if_neg hin, if_neg (by omega)]

theorem leaf_cleared {m : ℕ → Page} (hnd : (tabs m root).Nodup) (hv : v < 2 ^ 26)
    (hb : bottom 512 (nodes m) 2 root v = some q) (hw : w < 2 ^ 27) :
    leaf (withPte m q (digit 512 0 v) 0) root w =
      if w = v then none else leaf m root w := by
  rw [leaf_withPte hnd hb (by norm_num), Nat.mod_eq_of_lt hw, Nat.mod_eq_of_lt (by omega : v < 2 ^ 27)]
  rfl

/-- The frames of the pages `[v, v + k)`, last first. -/
def frames (m : ℕ → Page) (root v k : ℕ) : List ℕ :=
  ((List.range k).filterMap fun i => (leaf m root (v + i)).map pte2page).reverse

/-- The pages `uvmunmap` frees. -/
def handed (doFree : Bool) (m : ℕ → Page) (root v k : ℕ) : List ℕ :=
  if doFree then frames m root v k else []

section Frames

variable {m m' : ℕ → Page} {doFree : Bool}

theorem frames_succ (he : leaf m root v = some e) :
    frames m root v (k + 1) = frames m root (v + 1) k ++ [pte2page e] := by
  rw [frames, frames, range_succ_eq_map, filterMap_cons, add_zero, he, map_some,
    filterMap_map, reverse_cons]
  simp only [Function.comp_def, Nat.succ_eq_add_one, add_assoc, add_comm 1]

theorem handed_succ (he : leaf m root v = some e) :
    handed doFree m root v (k + 1) = handed doFree m root (v + 1) k ++ handed doFree m root v 1 := by
  cases doFree with
  | false => rfl
  | true => exact (frames_succ he).trans (congrArg _ (frames_succ (k := 0) he).symm)

theorem handed_congr (h : ∀ w, v ≤ w → w < v + k → leaf m' root w = leaf m root w) :
    handed doFree m' root v k = handed doFree m root v k := by
  have hf : frames m' root v k = frames m root v k := by
    refine congrArg List.reverse (filterMap_congr fun i hi => ?_)
    rw [h _ (by omega) (by have := mem_range.1 hi; omega)]
  rw [handed, handed, hf]

theorem coe_frames (m : ℕ → Page) (root v k : ℕ) :
    (frames m root v k : Multiset ℕ) = ∑ i ∈ Finset.range k, pageOf (leaf m root (v + i)) := by
  rw [frames, Multiset.coe_reverse]
  induction k with
  | zero => rfl
  | succ k ih =>
    rw [range_succ, filterMap_append, ← Multiset.coe_add, ih, Finset.sum_range_succ]
    cases hl : leaf m root (v + k) <;> simp [pageOf, hl]

theorem length_frames (h : ∀ i < k, leaf m root (v + i) ≠ none) : (frames m root v k).length = k := by
  have hone : ∀ i ∈ Finset.range k, (pageOf (leaf m root (v + i))).card = 1 := fun i hi => by
    obtain ⟨e, he⟩ := ne_none_iff_exists'.1 (h i (Finset.mem_range.1 hi))
    rw [he, pageOf, elim_some, Multiset.card_singleton]
  rw [← Multiset.coe_card, coe_frames, Multiset.card_sum, Finset.sum_congr rfl hone]
  simp

theorem mem_frames {x : ℕ} (hx : x ∈ frames m root v k) :
    ∃ w, v ≤ w ∧ w < v + k ∧ ∃ e, leaf m root w = some e ∧ pte2page e = x := by
  obtain ⟨i, hi, hl⟩ := mem_filterMap.1 (mem_reverse.1 hx)
  have := mem_range.1 hi
  exact ⟨v + i, by omega, by omega, map_eq_some_iff.1 hl⟩

theorem mapped_without (hv : v + k ≤ top)
    (h : ∀ w < top, leaf m' root w = without (leaf m root) v k w) :
    (frames m root v k : Multiset ℕ) + mapped m' top root = mapped m top root := by
  obtain ⟨d, rfl⟩ := Nat.le.dest hv
  have hmid : ∀ i ∈ Finset.range k, pageOf (leaf m' root (v + i)) = 0 := fun i hi => by
    have := Finset.mem_range.1 hi
    rw [h _ (by omega), without_of_mem (by omega), pageOf, elim_none]
  have hout : ∀ w < v + k + d, w < v ∨ v + k ≤ w → pageOf (leaf m' root w) = pageOf (leaf m root w) :=
    fun w hw hc => by rw [h w hw, without_of_notMem (by omega)]
  rw [mapped, mapped, coe_frames]
  simp only [Finset.sum_range_add]
  rw [Finset.sum_congr rfl hmid, Finset.sum_const_zero, add_zero,
    Finset.sum_congr rfl fun i hi => hout i (by have := Finset.mem_range.1 hi; omega)
      (.inl (Finset.mem_range.1 hi)),
    Finset.sum_congr rfl fun i hi => hout (v + k + i) (by have := Finset.mem_range.1 hi; omega)
      (.inr (by omega))]
  abel

end Frames

variable {doFree : Bool}

/-- `uvmunmap` stops at page `w`: unmapped, with an entry like a pointer, or not for `kfree`. -/
def Stops (im : Image) (root : ℕ) (doFree : Bool) (m : ℕ → Page) (w : ℕ) : Prop :=
  ∀ e, leaf m root w = some e → e % 1024 = PTE_V ∨ doFree = true ∧ ¬ InPool im (pte2page e)

/-- The pages `[v, v + k)` have left the table, their frames to the free list if `doFree`. -/
structure Unmapped (im : Image) (root : ℕ) (doFree : Bool) (v k : ℕ) (σ σ' : Phys) : Prop where
  tabs : tabs σ'.mem root = tabs σ.mem root
  proper : ∀ low, Radix.Proper 512 (nodesWith low σ.mem) 2 root →
    Radix.Proper 512 (nodesWith low σ'.mem) 2 root
  leaf : ∀ w < 2 ^ 27, leaf σ'.mem root w = without (leaf σ.mem root) v k w
  free : σ'.freelist = handed doFree σ.mem root v k ++ σ.freelist
  pool : ∀ x ∈ handed doFree σ.mem root v k, InPool im x
  frame : ∀ x ∉ Xv6.tabs σ.mem root, x ∉ handed doFree σ.mem root v k → σ'.mem x = σ.mem x
  sound : σ'.freelist.Nodup → σ'.sound = σ.sound

/-- One round: the frame may be freed, which does not touch the tables, and the entry is cleared. -/
theorem unmapped_one {σ1 : Phys} (hv : v < 2 ^ 26) (hnd : (tabs σ.mem root).Nodup)
    (hb : bottom 512 (nodes σ.mem) 2 root v = some q)
    (hown : ∀ x ∈ handed doFree σ.mem root v 1, x ∉ tabs σ.mem root)
    (hsame : ∀ x ∉ handed doFree σ.mem root v 1, σ1.mem x = σ.mem x)
    (hfl : σ1.freelist = handed doFree σ.mem root v 1 ++ σ.freelist)
    (hpool : ∀ x ∈ handed doFree σ.mem root v 1, InPool im x)
    (hsound : σ1.freelist.Nodup → σ1.sound = σ.sound) :
    Unmapped im root doFree v 1 σ { σ1 with mem := withPte σ1.mem q (digit 512 0 v) 0 } := by
  have heq : ∀ x ∈ tabs σ.mem root, σ1.mem x = σ.mem x := fun x hx => hsame x fun hl => hown x hl hx
  have hs := sameTable_of_eq heq
  have hb1 := (hs.bottom v).trans hb
  refine ⟨(tabs_withPte (hs.nodup hnd) hb1).trans hs.tabs, fun low hp => ?_, fun w hw => ?_, hfl, hpool,
    fun x hx hl => ?_, hsound⟩
  · refine proper_withPte (hs.nodup hnd) hb1 (by norm_num) (by norm_num) ?_
    exact proper_congr
      (fun x hx => (agree_of_eq (heq x (by rwa [tables_withLow] at hx))).withLow) hp
  · rw [leaf_cleared (hs.nodup hnd) hv hb1 hw, hs.leaf, without_one]
  · have hxq : x ≠ q := fun hxq => hx (hxq ▸ bottom_mem (by norm_num) hb)
    exact (withPte_of_ne _ _ _ hxq).trans (hsame x hl)

theorem Unmapped.later (hv : v + (k + 1) ≤ 2 ^ 26) (h : Unmapped im root doFree v 1 σ σ') (hlo : v + 1 ≤ w)
    (hhi : w < v + 1 + k) : Xv6.leaf σ'.mem root w = Xv6.leaf σ.mem root w := by
  rw [h.leaf w (by omega), without_of_notMem (by omega)]

theorem Unmapped.succ {σ1 : Phys} (hv : v + (k + 1) ≤ 2 ^ 26)
    (he : Xv6.leaf σ.mem root v = some e) (h : Unmapped im root doFree v 1 σ σ1)
    (h' : Unmapped im root doFree (v + 1) k σ1 σ') : Unmapped im root doFree v (k + 1) σ σ' := by
  have hrest : handed doFree σ1.mem root (v + 1) k = handed doFree σ.mem root (v + 1) k :=
    handed_congr fun w hlo hhi => h.later hv hlo hhi
  have hpool := h'.pool
  have hframe := h'.frame
  rw [hrest] at hpool hframe
  rw [h.tabs] at hframe
  refine ⟨h'.tabs.trans h.tabs, fun low hp => h'.proper low (h.proper low hp), fun w hw => ?_, ?_,
    fun x hx => ?_, fun x hx hl => ?_, fun hnd => (h'.sound hnd).trans (h.sound ?_)⟩
  · exact without_succ (h'.leaf w hw) (by rw [h.leaf w hw, without_one])
  · rw [h'.free, h.free, hrest, ← append_assoc, ← handed_succ he]
  · rw [handed_succ he, mem_append] at hx
    exact hx.elim (hpool x) (h.pool x)
  · rw [handed_succ he, mem_append, not_or] at hl
    exact (hframe x hx hl.1).trans (h.frame x hx hl.2)
  · rw [h'.free] at hnd
    exact hnd.of_append_right

theorem kfree_run (hn : InPool im n) (σ : Phys) :
    kfree im n σ = .ok (⟨⟩, { σ.put n (.fill PGSIZE 1) with
      freelist := n :: σ.freelist, sound := σ.sound && decide (n ∉ σ.freelist) }) := by
  rw [kfree, if_neg (not_not.2 hn)]
  rfl

theorem unmapLoop_rest (σ1 : Phys) (hv : v + (k + 1) ≤ 2 ^ 26) (hnd : (tabs σ.mem root).Nodup)
    (hown : ∀ x ∈ handed doFree σ.mem root v (k + 1), x ∉ tabs σ.mem root) (he : leaf σ.mem root v = some e)
    (h : Unmapped im root doFree v 1 σ { σ1 with mem := withPte σ1.mem q (digit 512 0 v) 0 })
    (ih : ∀ {v : ℕ} {σ : Phys}, v + k ≤ 2 ^ 26 → (tabs σ.mem root).Nodup →
      (∀ x ∈ handed doFree σ.mem root v k, x ∉ tabs σ.mem root) →
      Ensures (unmapLoop im root doFree k (v * PGSIZE)) σ
        (fun _ σ' => Unmapped im root doFree v k σ σ')
        (fun _ => ∃ w, v ≤ w ∧ w < v + k ∧ Stops im root doFree σ.mem w)) : Ensures (do
        setPte q (digit 512 0 v) 0
        unmapLoop im root doFree k (v * PGSIZE + PGSIZE)) σ1
      (fun _ σ' => Unmapped im root doFree v (k + 1) σ σ')
      (fun _ => ∃ w, v ≤ w ∧ w < v + (k + 1) ∧ Stops im root doFree σ.mem w) := by
  rw [bind_iff, ok_iff (setPte_run _ _ _ _), show v * PGSIZE + PGSIZE = (v + 1) * PGSIZE by ring]
  refine (ih (by omega) (h.tabs ▸ hnd) fun x hx => ?_).mono (fun _ σ' h' => h.succ hv he h')
    fun _ ⟨w, hlo, hhi, hstop⟩ => ⟨w, by omega, by omega, fun e' he' => hstop e' ?_⟩
  · rw [handed_congr fun w hlo hhi => h.later hv hlo hhi] at hx
    rw [h.tabs]
    exact hown x (by rw [handed_succ he]; exact mem_append_left _ hx)
  · exact (h.later hv hlo hhi).trans he'

theorem unmapLoop_spec (k : ℕ) (hv : v + k ≤ 2 ^ 26) (hnd : (tabs σ.mem root).Nodup)
    (hown : ∀ x ∈ handed doFree σ.mem root v k, x ∉ tabs σ.mem root) :
    Ensures (unmapLoop im root doFree k (v * PGSIZE)) σ
      (fun _ σ' => Unmapped im root doFree v k σ σ')
      (fun _ => ∃ w, v ≤ w ∧ w < v + k ∧ Stops im root doFree σ.mem w) := by
  induction k generalizing v σ with
  | zero =>
    have hz : handed doFree σ.mem root v 0 = [] := by simp [handed, frames]
    rw [unmapLoop, pure_iff]
    exact ⟨rfl, fun _ => id, fun w _ => by rw [without_zero], by rw [hz]; rfl, by simp [hz], fun _ _ _ => rfl,
      fun _ => rfl⟩
  | succ k ih =>
    have hva : v * PGSIZE < MAXVA := by unfold PGSIZE MAXVA; omega
    have hdiv : v * PGSIZE / PGSIZE = v := Nat.mul_div_cancel _ PGSIZE_pos
    rw [unmapLoop, bind_iff, ok_iff (walk_false hva root σ), hdiv]
    cases hb : bottom 512 (nodes σ.mem) 2 root v with
    | none =>
      rw [map_none, throw_iff]
      refine ⟨v, le_rfl, by omega, fun e he => ?_⟩
      rw [leaf, find_eq_bottom, hb] at he
      cases he
    | some q =>
      have hentry := leaf_eq_entry hb
      rw [entry] at hentry
      simp only [map_some]
      rw [px_eq_digit, hdiv, bind_iff, ok_iff (getPte_run _ _ _)]
      generalize pte σ.mem q (digit 512 0 v) = e at hentry ⊢
      by_cases hodd : e % 2 = 1
      · rw [if_pos hodd] at hentry
        rw [if_neg (by omega)]
        by_cases hflags : e % 1024 = PTE_V
        · rw [if_pos hflags, bind_iff, throw_iff]
          refine ⟨v, le_rfl, by omega, fun e' he' => .inl ?_⟩
          rwa [← some.inj (hentry.symm.trans he')]
        rw [if_neg hflags]
        have hrest := fun σ1 h => unmapLoop_rest (q := q) σ1 hv hnd hown hentry h ih
        have hfirst : ∀ x ∈ handed doFree σ.mem root v 1, x ∉ tabs σ.mem root := fun x hx =>
          hown x (by rw [handed_succ hentry]; exact mem_append_right _ hx)
        cases doFree with
        | false =>
          rw [if_neg Bool.false_ne_true]
          exact hrest σ (unmapped_one (by omega) hnd hb hfirst (fun _ _ => rfl) rfl (by simp [handed])
            fun _ => rfl)
        | true =>
          have hh : handed true σ.mem root v 1 = [pte2page e] := frames_succ hentry
          rw [if_pos rfl, bind_iff]
          by_cases hpool : InPool im (pte2page e)
          · rw [ok_iff (kfree_run hpool σ)]
            refine hrest _ (unmapped_one (by omega) hnd hb hfirst (fun x hx => ?_) (by rw [hh]; rfl)
              (by simpa [hh] using hpool) fun hnd => ?_)
            · rw [hh] at hx
              exact update_of_ne (ne_of_not_mem_cons hx) _ _
            · simp [(nodup_cons.1 hnd).1]
          · rw [kfree, if_pos hpool, bind_iff, throw_iff]
            refine ⟨v, le_rfl, by omega, fun e' he' => .inr ⟨rfl, ?_⟩⟩
            rwa [← some.inj (hentry.symm.trans he')]
      · rw [if_neg hodd] at hentry
        rw [if_pos (by omega), bind_iff, throw_iff]
        exact ⟨v, le_rfl, by omega, fun e' he' => absurd (hentry.symm.trans he') (by simp)⟩

theorem Space.not_stops (h : Space im top root rest σ) (htop : doFree = true → v + k ≤ top)
    (hmap : ∀ i < k, leaf σ.mem root (v + i) ≠ none) :
    ¬ ∃ w, v ≤ w ∧ w < v + k ∧ Stops im root doFree σ.mem w := by
  rintro ⟨w, hlo, hhi, hs⟩
  have hw := hmap (w - v) (by omega)
  rw [Nat.add_sub_cancel' hlo] at hw
  obtain ⟨e, he⟩ := ne_none_iff_exists'.1 hw
  rcases hs e he with hv | ⟨hf, hpool⟩
  · have := h.mod_four he
    unfold PTE_V at hv
    omega
  · have hm : pte2page e ∈ mapped σ.mem top root := pte2page_mem_mapped (by have := htop hf; omega) he
    exact hpool (h.pool _ (by simp [owned, hm]))

theorem Unmapped.readable (h : Unmapped im root doFree v k σ σ')
    (hp : Proper 512 (nodes σ.mem) 2 root) : Proper 512 (nodes σ'.mem) 2 root := by
  have hr := h.proper fun e => e % 4 = 3
  rw [nodesWith_readable, nodesWith_readable] at hr
  exact hr hp

/-- **`uvmunmap` without `do_free` takes its pages out of the map.** -/
theorem unmapLoop_keep (k : ℕ) (hv : v + k ≤ 2 ^ 26) (h : Space im 0 root rest σ)
    (hmap : ∀ i < k, leaf σ.mem root (v + i) ≠ none) :
    Ensures (unmapLoop im root false k (v * PGSIZE)) σ
      (fun _ σ' => Rebuilt root σ σ' ∧
        ∀ w < 2 ^ 27, leaf σ'.mem root w = without (leaf σ.mem root) v k w) := by
  refine (unmapLoop_spec k hv h.nodup_tabs (by simp [handed])).mono (fun _ σ' hu => ⟨⟨⟨?_, ?_, ?_⟩, ?_⟩, hu.leaf⟩)
    fun _ hs => h.not_stops (by simp) hmap hs
  · rw [hu.free, hu.tabs]
    rfl
  · exact fun x _ hx => hu.frame x hx (by simp [handed])
  · exact hu.sound (by rw [hu.free]; exact h.nodup_free)
  · exact hu.readable h.proper

/-- **`uvmunmap` with `do_free` frees its pages and takes them out of the map.** -/
theorem unmapLoop_free (htop : top ≤ 2 ^ 26) (k : ℕ) (hv : v + k ≤ top)
    (h : Space im top root rest σ) (hmap : ∀ i < k, leaf σ.mem root (v + i) ≠ none) :
    Ensures (unmapLoop im root true k (v * PGSIZE)) σ
      (fun _ σ' => Kept top root σ σ' ∧ σ'.freelist.length = σ.freelist.length + k ∧
        (∀ w < 2 ^ 27, leaf σ'.mem root w = without (leaf σ.mem root) v k w) ∧
        ∀ w < top, ¬ (v ≤ w ∧ w < v + k) → ∀ e, leaf σ.mem root w = some e →
          σ'.mem (pte2page e) = σ.mem (pte2page e)) := by
  have hsub : ∀ x ∈ frames σ.mem root v k, x ∈ mapped σ.mem top root := fun x hx => by
    obtain ⟨w, -, hw, e, he, rfl⟩ := mem_frames hx
    exact pte2page_mem_mapped (by omega) he
  have hown : ∀ x ∈ handed true σ.mem root v k, x ∉ tabs σ.mem root :=
    fun x hx => h.notMem_tabs (hsub x hx)
  refine (unmapLoop_spec k (by omega) h.nodup_tabs hown).mono
    (fun _ σ' hu => ?_) fun _ hs => h.not_stops (fun _ => hv) hmap hs
  have hfree : σ'.freelist = frames σ.mem root v k ++ σ.freelist := hu.free
  have ha : (σ'.freelist : Multiset ℕ) + owned σ'.mem top root = σ.freelist + owned σ.mem top root := by
    rw [hfree, owned, owned, hu.tabs, ← mapped_without hv fun w hw => hu.leaf w (by omega),
      ← Multiset.coe_add]
    abel
  have hnd := (Multiset.nodup_add.1 h.nodup).1
  rw [← ha] at hnd
  refine ⟨⟨⟨ha, fun x _ ho => ?_, hu.sound (Multiset.nodup_add.1 hnd).1⟩, hu.readable h.proper⟩, ?_, hu.leaf,
    fun w hw hout e he => ?_⟩
  · rw [owned, Multiset.mem_add, not_or] at ho
    exact hu.frame x ho.1 fun hx => ho.2 (hsub x hx)
  · rw [hfree, length_append, length_frames hmap, add_comm]
  · refine hu.frame _ (h.notMem_tabs (pte2page_mem_mapped hw he)) fun hx => ?_
    obtain ⟨w', hlo, hhi, e', he', hpage⟩ := mem_frames hx
    exact ne_of_mapped_nodup h.nodup_mapped (by omega) hw (by rintro rfl; exact hout ⟨hlo, hhi⟩) he' he hpage

/-! ## The calls -/

theorem uvmunmap_eq (hv : v + n ≤ 2 ^ 26) (doFree : Bool) :
    uvmunmap im root (v * PGSIZE) n doFree = unmapLoop im root doFree n (v * PGSIZE) := by
  have hn : ((v * PGSIZE + n * PGSIZE) % 2 ^ 64 - v * PGSIZE + PGSIZE - 1) / PGSIZE = n := by
    unfold PGSIZE
    omega
  rw [uvmunmap, if_neg (not_not.2 (Nat.mul_mod_left v PGSIZE)), hn]

theorem mappages_eq (root : ℕ) (hn : 0 < n) (hv : v + n ≤ 2 ^ 26) (pn perm : ℕ) :
    mappages root (v * PGSIZE) (n * PGSIZE) pn perm = mapLoop root perm n (v * PGSIZE) pn := by
  have ha : pgRoundDown (v * PGSIZE) = v * PGSIZE := by
    unfold pgRoundDown PGSIZE
    omega
  have hl : pgRoundDown ((v * PGSIZE + n * PGSIZE - 1) % 2 ^ 64) = (v + n - 1) * PGSIZE := by
    unfold pgRoundDown PGSIZE
    omega
  have hc : ((v + n - 1) * PGSIZE + 2 ^ 64 - v * PGSIZE) % 2 ^ 64 / PGSIZE + 1 = n := by
    unfold PGSIZE
    omega
  rw [mappages, if_neg (by unfold PGSIZE; omega)]
  simp only [ha, hl, hc]

theorem mapPage_spec (hp : perm < 1024) (hv : v < 2 ^ 26) (hn : n < 2 ^ 52) (h : Rooted 2 root σ)
    (hfree : leaf σ.mem root v = none) : Ensures (mappages root (v * PGSIZE) PGSIZE n perm) σ
      (fun r σ' => Redrawn (fun e => ∃ n, e = mkPte n perm) root σ σ' ∧ (∀ w < 2 ^ 27, leaf σ'.mem root w =
        if r = true ∧ w = v then some (mkPte n perm) else leaf σ.mem root w) ∧
        PaidRange root v 1 σ σ' (r = true)) := by
  have he := mappages_eq root (v := v) one_pos (by omega) n perm
  rw [one_mul] at he
  rw [he]
  refine (mapLoop_spec hp 1 (by omega) (by omega) h fun i hi => ?_).imp
    fun r σ' ⟨hk, ⟨i, hi, hri, hl⟩, hpaid⟩ => ⟨hk, fun w hw => ?_, hpaid⟩
  · obtain rfl : i = 0 := by omega
    exact hfree
  · rw [hl w hw, hri]
    by_cases hw1 : v ≤ w ∧ w < v + i
    · rw [if_pos hw1, if_pos ⟨by simp; omega, by omega⟩, show n + (w - v) = n by omega]
    · rw [if_neg hw1, if_neg]
      rintro ⟨hi1, rfl⟩
      have := of_decide_eq_true hi1
      omega

theorem mappages_one (hp : perm < 1024) (hr : perm / 2 % 2 = 1) (hv : v < 2 ^ 26)
    (hn : n < 2 ^ 52) (h : Space im top root rest σ) (hfree : leaf σ.mem root v = none) :
    Ensures (mappages root (v * PGSIZE) PGSIZE n perm) σ
      (fun r σ' => Rebuilt root σ σ' ∧ (∀ w < 2 ^ 27, leaf σ'.mem root w =
        if r = true ∧ w = v then some (mkPte n perm) else leaf σ.mem root w) ∧
        PaidRange root v 1 σ σ' (r = true)) := by
  refine (mapPage_spec hp hv hn h.rooted hfree).imp
    fun r σ' ⟨hk, hl, hpaid⟩ => ⟨hk.rebuilt ?_ h.proper, hl, hpaid⟩
  rintro _ ⟨n, rfl⟩
  exact mkPte_mod_four hp hr

end Xv6

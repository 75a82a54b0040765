import Xv6.Vm.Table

/-!
# Vm/Walk — what `walk` does to the tree of a page table

Without `alloc` it reads the bottom table of the address.  With `alloc` it may add empty tables
taken off the free list; no translation changes, whether or not it succeeds.
-/

namespace Xv6

open Machinery Function Ensures Multiset Exec

/-- The page-table pages of the table at `root`. -/
abbrev tabs (m : ℕ → Page) (root : ℕ) : Multiset ℕ := Radix.tables 512 (nodes m) 2 root

/-- The PTE of virtual page `v`, if it is valid. -/
abbrev leaf (m : ℕ → Page) (root v : ℕ) : Option ℕ := Radix.find 512 (nodes m) 2 root v

/-! ## Entries -/

theorem pte_lt (m : ℕ → Page) (n j : ℕ) : pte m n j < 2 ^ 64 := by
  rw [pte]
  exact (Bytes.getLE_lt (m n) (8 * j) 8).trans_le (by norm_num)

theorem px_eq_digit (L va : ℕ) : px L va = Radix.digit 512 L (va / PGSIZE) := by
  rw [px, Radix.digit, Nat.div_div_eq_div_mul]
  congr 2
  rw [Nat.pow_add, Nat.pow_mul]
  rfl

theorem px_lt (L va : ℕ) : px L va < 512 := Nat.mod_lt _ (by norm_num)

variable {n perm j c : ℕ} {m : ℕ → Page}

theorem mkPte_eq (hp : perm < 1024) : mkPte n perm = n * 1024 + (perm ||| 1) := by
  have hlt : perm ||| 1 < 2 ^ 10 := Nat.or_lt_two_pow hp (by norm_num)
  have h := Nat.shiftLeft_add_eq_or_of_lt hlt n
  rw [Nat.shiftLeft_eq] at h
  rw [mkPte, PTE_V, Nat.or_assoc, ← h]

theorem or_one_lt (hp : perm < 1024) : perm ||| 1 < 1024 :=
  Nat.or_lt_two_pow (n := 10) hp (by norm_num)

theorem mkPte_mod (hp : perm < 1024) : mkPte n perm % 1024 = perm ||| 1 := by
  have h := or_one_lt hp
  rw [mkPte_eq hp]
  omega

theorem pte2page_mkPte {p : ℕ} (hp : p < 1024) (hn : n < 2 ^ 52) : pte2page (mkPte n p) = n := by
  have h := or_one_lt hp
  rw [pte2page, mkPte_eq hp]
  omega

theorem mkPte_lt (hp : perm < 1024) (hn : n < 2 ^ 52) : mkPte n perm < 2 ^ 64 := by
  have h := or_one_lt hp
  rw [mkPte_eq hp]
  omega

theorem mkPte_odd (hp : perm < 1024) : mkPte n perm % 2 = 1 := by
  have h := mkPte_mod (n := n) hp
  have hodd : (perm ||| 1) % 2 = 1 := by
    rw [Nat.or_mod_two_eq_one]
    exact .inr rfl
  omega

/-- The memory after `setPte`. -/
def withPte (m : ℕ → Page) (n j e : ℕ) : ℕ → Page := update m n ((m n).putLE (8 * j) 8 e)

theorem pte_withPte_self (m : ℕ → Page) (n : ℕ) {e : ℕ} (hj : j < 512) (he : e < 2 ^ 64) :
    pte (withPte m n j e) n j = e := by
  rw [pte, withPte, update_self, Bytes.getLE_putLE_same _ _ (by unfold PGSIZE; omega)]
  exact Nat.mod_eq_of_lt (he.trans_le (by norm_num))

theorem pte_withPte_of_ne (m : ℕ → Page) (n : ℕ) {j' : ℕ} (e : ℕ) (h : j' ≠ j) :
    pte (withPte m n j e) n j' = pte m n j' := by
  rw [pte, withPte, update_self, Bytes.getLE_putLE_disjoint _ _ (by omega), pte]

theorem withPte_of_ne (m : ℕ → Page) {n' : ℕ} (j e : ℕ) (h : n' ≠ n) :
    withPte m n j e n' = m n' := update_of_ne h _ _

theorem pte_of_zero (h : m n = .fill PGSIZE 0) (j : ℕ) : pte m n j = 0 := by
  rw [pte, h, Bytes.getLE_fill_zero]

theorem agree_of_eq {m' : ℕ → Page} (h : m' n = m n) : Radix.Agree (nodes m) (nodes m') n := by
  have hp : pte m' n = pte m n := by
    funext j
    rw [pte, h, pte]
  constructor <;> simp only [nodes, hp]

theorem child_of_zero (h : m n = .fill PGSIZE 0) (j : ℕ) : (nodes m).child n j = none := by
  simp [nodes, pte_of_zero h]

theorem value_of_zero (h : m n = .fill PGSIZE 0) (j : ℕ) : (nodes m).value n j = none := by
  simp [nodes, pte_of_zero h]

/-- The nodes of page tables, with another condition on the leaves. -/
abbrev nodesWith (low : ℕ → Prop) (m : ℕ → Page) : Radix.Nodes ℕ ℕ := (nodes m).withLow low

theorem nodesWith_readable (m : ℕ → Page) : nodesWith (fun e => e % 4 = 3) m = nodes m := by
  simp only [nodesWith, Radix.Nodes.withLow, nodes]
  congr! 3
  simp

theorem properWith_of_zero (h : m n = .fill PGSIZE 0) (low : ℕ → Prop) (L : ℕ) :
    Radix.Proper 512 (nodesWith low m) L n := by
  cases L with
  | zero => exact fun j _ => by simp [Radix.Nodes.withLow, value_of_zero h]
  | succ L =>
    exact fun j _ => ⟨by simp [Radix.Nodes.withLow, nodes, pte_of_zero h],
      by simp [Radix.Nodes.withLow, child_of_zero h]⟩

theorem proper_of_zero (h : m n = .fill PGSIZE 0) (L : ℕ) : Radix.Proper 512 (nodes m) L n :=
  nodesWith_readable m ▸ properWith_of_zero h _ L

/-! ## `walk` without `alloc` -/

theorem walkFrom_false (va : ℕ) (L n : ℕ) (σ : Phys) :
    walkFrom va false L n σ =
      .ok ((Radix.bottom 512 (nodes σ.mem) L n (va / PGSIZE)).map fun q => (q, px 0 va), σ) := by
  induction L generalizing n with
  | zero =>
    rw [Radix.bottom]
    rfl
  | succ L ih =>
    rw [Radix.bottom, ← px_eq_digit]
    by_cases hv : pte σ.mem n (px (L + 1) va) % 2 = 1
    · have hc : (nodes σ.mem).child n (px (L + 1) va) =
          some (pte2page (pte σ.mem n (px (L + 1) va))) := by simp [nodes, hv]
      rw [hc, Option.bind_some, ← ih, walkFrom, bind_ok (getPte_run _ _ _), if_pos hv]
    · have hc : (nodes σ.mem).child n (px (L + 1) va) = none := by simp [nodes, hv]
      rw [hc, walkFrom, bind_ok (getPte_run _ _ _), if_neg hv]
      rfl

theorem walk_false {va : ℕ} (h : va < MAXVA) (root : ℕ) (σ : Phys) :
    walk root va false σ =
      .ok ((Radix.bottom 512 (nodes σ.mem) 2 root (va / PGSIZE)).map fun q => (q, px 0 va), σ) := by
  rw [← walkFrom_false, walk, if_neg (not_le.2 h)]

/-! ## `walk` with `alloc`

A missing table becomes a zeroed page, which maps nothing: no translation changes. -/

/-- Tables may have been added to the tree of level `L` at `n`, taken off the free list. -/
structure Added (L n : ℕ) (σ σ' : Phys) : Prop where
  account : (σ'.freelist : Multiset ℕ) + Radix.tables 512 (nodes σ'.mem) L n =
    σ.freelist + Radix.tables 512 (nodes σ.mem) L n
  frame : ∀ x ∉ σ.freelist, x ∉ Radix.tables 512 (nodes σ.mem) L n → σ'.mem x = σ.mem x
  proper : ∀ low, Radix.Proper 512 (nodesWith low σ.mem) L n →
    Radix.Proper 512 (nodesWith low σ'.mem) L n
  find : ∀ v, Radix.find 512 (nodes σ'.mem) L n v = Radix.find 512 (nodes σ.mem) L n v
  sound : σ'.sound = σ.sound

theorem Added.refl (L n : ℕ) (σ : Phys) : Added L n σ σ :=
  ⟨rfl, fun _ _ _ => rfl, fun _ h => h, fun _ => rfl, rfl⟩

/-- The number of tables missing in the tree of level `L` at `n`, on the way to page `v`. -/
def missing (m : ℕ → Page) (L n v : ℕ) : ℕ := Radix.missing 512 (nodes m) L n v

/-- Below the other entries of `n` no table has been added. -/
def SameMissing (L n j : ℕ) (σ σ' : Phys) : Prop :=
  ∀ w, Radix.digit 512 (L + 1) w ≠ j → missing σ'.mem (L + 1) n w = missing σ.mem (L + 1) n w

/-- A `walk` to page `v` succeeds iff there are free pages for the missing tables. -/
structure Paid (L n v : ℕ) (σ σ' : Phys) (ok : Prop) : Prop where
  ok_iff : ok ↔ missing σ.mem L n v ≤ σ.freelist.length
  length : ok → σ'.freelist.length + missing σ.mem L n v = σ.freelist.length
  after : ok → ∀ w, missing σ'.mem L n w = min (missing σ.mem L n w) (Radix.apart 512 L v w)

/-- The tables of the tree of level `L` at `n` and the free pages are pages of their own. -/
structure Rooted (L n : ℕ) (σ : Phys) : Prop where
  nodup : ((σ.freelist : Multiset ℕ) + Radix.tables 512 (nodes σ.mem) L n).Nodup
  small : ∀ x ∈ (σ.freelist : Multiset ℕ) + Radix.tables 512 (nodes σ.mem) L n, x < 2 ^ 52

theorem Rooted.notMem_free {L : ℕ} {σ : Phys} (h : Rooted L n σ) {x : ℕ}
    (hx : x ∈ Radix.tables 512 (nodes σ.mem) L n) : x ∉ σ.freelist := fun hf =>
  disjoint_left.1 (nodup_add.1 h.nodup).2.2 hf hx

/-- The memory and the free list after `walk` has put the empty table `c` at entry `j` of `n`. -/
def withTable (σ : Phys) (n j c : ℕ) (fl : List ℕ) : Phys :=
  { σ with mem := withPte (update σ.mem c (.fill PGSIZE 0)) n j (mkPte c 0), freelist := fl }

theorem newTable_run (σ : Phys) (n j : ℕ) {fl : List ℕ} (hc : c ∉ fl)
    (f : Exec KPanic Phys (Option (ℕ × ℕ))) :
    (do memsetPage c 0
        setPte n j (mkPte c 0)
        f : Exec KPanic Phys (Option (ℕ × ℕ)))
      { σ.put c (.fill PGSIZE 5) with freelist := fl, sound := σ.sound && decide (c ∉ fl) } =
      f (withTable σ n j c fl) := by
  change f _ = f _
  congr 1
  simp [withTable, withPte, Phys.put, hc]

theorem kalloc_run_nil {σ : Phys} (h : σ.freelist = []) : kalloc σ = .ok (none, σ) := by
  rw [kalloc, bind_ok (get_run σ), h]
  rfl

theorem kalloc_run_cons {σ : Phys} {fl : List ℕ} (h : σ.freelist = c :: fl) :
    kalloc σ = .ok (some c, { σ.put c (.fill PGSIZE 5) with
      freelist := fl, sound := σ.sound && decide (c ∉ fl) }) := by
  rw [kalloc, bind_ok (get_run σ), h]
  rfl

section Levels

variable {L n j c : ℕ} {σ σ' : Phys}

theorem Rooted.child (h : Rooted (L + 1) n σ) (hj : j < 512)
    (hc : (nodes σ.mem).child n j = some c) : Rooted L c σ := by
  have hle : (σ.freelist : Multiset ℕ) + Radix.tables 512 (nodes σ.mem) L c ≤
      σ.freelist + Radix.tables 512 (nodes σ.mem) (L + 1) n :=
    add_le_add_right ((le_add_left _ _).trans (Radix.tables_child_le hj hc)) _
  exact ⟨nodup_of_le hle h.nodup, fun x hx => h.small x (mem_of_le hle hx)⟩

theorem Added.lift (h : Rooted (L + 1) n σ) (hj : j < 512)
    (hc : (nodes σ.mem).child n j = some c) (hg : Added L c σ σ') :
    Added (L + 1) n σ σ' ∧ (nodes σ'.mem).child n j = some c ∧ SameMissing L n j σ σ' := by
  have hnd := (nodup_add.1 h.nodup).2.1
  have hagree : ∀ r ∈ Radix.tables 512 (nodes σ.mem) (L + 1) n,
      r ∉ Radix.tables 512 (nodes σ.mem) L c → Radix.Agree (nodes σ.mem) (nodes σ'.mem) r :=
    fun r hr hrc => agree_of_eq (hg.frame r (h.notMem_free hr) hrc)
  have hbelow := Radix.below_of_agree (nodes σ'.mem) hnd hj hc hagree
  have hn := hagree n (Radix.mem_tables_self _ _ n) (Radix.nodup_child hnd hj hc).2
  have hc' : (nodes σ'.mem).child n j = some c := (congrFun hn.child j).trans hc
  refine ⟨⟨?_, fun x hf hx => ?_, fun low hp => ?_, fun v => ?_, hg.sound⟩, hc',
    fun w hw => Radix.missing_descend (by norm_num) hbelow hw⟩
  · have hd := Radix.tables_descend hj hbelow
    rw [hc, hc', Option.elim_some, Option.elim_some] at hd
    refine add_right_cancel (b := Radix.tables 512 (nodes σ.mem) L c) ?_
    rw [add_assoc, hd, add_left_comm, hg.account, add_left_comm, add_assoc]
  · exact hg.frame x hf fun hxc => hx (Radix.mem_tables_child hj hc hxc)
  · refine Radix.proper_descend hbelow.withLow hp ?_ fun q hq => ?_
    · rw [hn.withLow.dirOk]
      exact (hp j hj).1
    · exact Option.some.inj (hc'.symm.trans hq) ▸ hg.proper low ((hp j hj).2 c hc)
  · by_cases hv : Radix.digit 512 (L + 1) v = j
    · rw [Radix.find, Radix.find, hv, hc, hc', Option.bind_some, Option.bind_some, hg.find]
    · exact Radix.find_descend (by norm_num) hbelow hv

variable {fl : List ℕ}

theorem withTable_mem_of_ne {x : ℕ} (hc : x ≠ c) (hn : x ≠ n) :
    (withTable σ n j c fl).mem x = σ.mem x := by
  simp only [withTable]
  rw [withPte_of_ne _ _ _ hn, update_of_ne hc]

theorem withTable_mem_new (σ : Phys) (j : ℕ) (fl : List ℕ) (hcn : c ≠ n) :
    (withTable σ n j c fl).mem c = .fill PGSIZE 0 := by
  simp only [withTable]
  rw [withPte_of_ne _ _ _ hcn, update_self]

theorem rooted_withTable (h : Rooted (L + 1) n σ) (hfl : σ.freelist = c :: fl) :
    Rooted L c (withTable σ n j c fl) := by
  have hnc : c ≠ n := fun e => h.notMem_free (Radix.mem_tables_self _ _ n) (by simp [hfl, e])
  have hz := withTable_mem_new σ j fl hnc
  have he : ((withTable σ n j c fl).freelist : Multiset ℕ) +
      Radix.tables 512 (nodes (withTable σ n j c fl).mem) L c = σ.freelist := by
    rw [Radix.tables_of_empty fun i _ => child_of_zero hz i, add_comm, singleton_add, hfl]
    rfl
  refine ⟨?_, fun x hx => h.small x (mem_add.2 (.inl (he ▸ hx)))⟩
  rw [he]
  exact (nodup_add.1 h.nodup).1

theorem Added.fresh (h : Rooted (L + 1) n σ) (hj : j < 512)
    (hv : (nodes σ.mem).child n j = none) (hfl : σ.freelist = c :: fl)
    (hg : Added L c (withTable σ n j c fl) σ') :
    Added (L + 1) n σ σ' ∧ (nodes σ'.mem).child n j = some c ∧ SameMissing L n j σ σ' := by
  have hself : n ∈ Radix.tables 512 (nodes σ.mem) (L + 1) n := Radix.mem_tables_self _ _ n
  have hcf : c ∈ σ.freelist := by simp [hfl]
  have hcn : c ≠ n := fun e => h.notMem_free hself (e ▸ hcf)
  have hz := withTable_mem_new σ j fl hcn
  have hempty : Radix.tables 512 (nodes (withTable σ n j c fl).mem) L c = {c} :=
    Radix.tables_of_empty fun i _ => child_of_zero hz i
  have hstay : ∀ x ∉ σ.freelist, σ'.mem x = (withTable σ n j c fl).mem x := fun x hx => by
    refine hg.frame x (fun hxf => hx (hfl ▸ .tail _ hxf)) ?_
    rw [hempty, mem_singleton]
    exact fun e => hx (e ▸ hcf)
  have hsmall := h.small c (mem_add.2 (.inl hcf))
  -- the entries of `n`: only entry `j` is new
  have hn : σ'.mem n = withPte (update σ.mem c (.fill PGSIZE 0)) n j (mkPte c 0) n :=
    hstay n (h.notMem_free hself)
  have hpj : pte σ'.mem n j = mkPte c 0 := by
    rw [pte, hn, ← pte, pte_withPte_self _ _ hj (mkPte_lt (by norm_num) hsmall)]
  have hpi : ∀ i, i ≠ j → pte σ'.mem n i = pte σ.mem n i := fun i hi => by
    rw [pte, hn, ← pte, pte_withPte_of_ne _ _ _ hi, pte, update_of_ne hcn.symm, pte]
  have hc' : (nodes σ'.mem).child n j = some c := by
    have hodd : mkPte c 0 % 2 = 1 := mkPte_odd (by norm_num)
    simp only [nodes, hpj, hodd, if_true, pte2page_mkPte (p := 0) (by norm_num) hsmall]
  have hbelow : Radix.Below 512 (nodes σ.mem) (nodes σ'.mem) L n j := by
    refine ⟨fun i _ hi => ?_, fun i _ hi => ?_, fun i hi hij q hq r hr => agree_of_eq ?_⟩
    · simp only [nodes, hpi i hi]
    · simp only [nodes, hpi i hi]
    · have hr' := Radix.mem_tables_child hi hq hr
      have hrf := h.notMem_free hr'
      rw [hstay r hrf]
      refine withTable_mem_of_ne (fun e => hrf (e ▸ hcf)) ?_
      rintro rfl
      exact (Radix.nodup_child (nodup_add.1 h.nodup).2.1 hi hq).2 hr
  refine ⟨⟨?_, fun x hf hx => ?_, fun low hp => ?_, fun v => ?_, hg.sound⟩, hc',
    fun w hw => Radix.missing_descend (by norm_num) hbelow hw⟩
  · have hd := Radix.tables_descend hj hbelow
    have ha := hg.account
    rw [hv, hc', Option.elim_none, Option.elim_some, add_zero] at hd
    rw [hempty] at ha
    have hcons : (σ.freelist : Multiset ℕ) = (fl : Multiset ℕ) + {c} := by
      rw [hfl, add_comm, singleton_add, cons_coe]
    rw [hd, add_left_comm, ha, add_comm, hcons]
    rfl
  · rw [hstay x hf]
    exact withTable_mem_of_ne (fun e => hf (e ▸ hcf)) fun e => hx (e ▸ hself)
  · refine Radix.proper_descend hbelow.withLow hp ?_ fun q hq => ?_
    · intro _
      rw [hpj, mkPte_mod (by norm_num)]
      rfl
    · exact Option.some.inj (hc'.symm.trans hq) ▸ hg.proper low (properWith_of_zero hz low L)
  · by_cases hvj : Radix.digit 512 (L + 1) v = j
    · rw [Radix.find, Radix.find, hvj, hv, hc', Option.bind_some, Option.bind_none, hg.find]
      exact Radix.find_of_empty (by norm_num) (fun i _ => child_of_zero hz i)
        (fun i _ => value_of_zero hz i) v
    · exact Radix.find_descend (by norm_num) hbelow hvj

end Levels

theorem Paid.succ {v : ℕ} {ok : Prop} {τ : Phys} (hj : Radix.digit 512 (L + 1) v = j)
    (hc' : (nodes σ'.mem).child n j = some c) (hs : SameMissing L n j σ σ')
    (hp : Paid L c v τ σ' ok) (hcost : ∃ d, τ.freelist.length + d = σ.freelist.length ∧
      missing τ.mem L c v + d = missing σ.mem (L + 1) n v)
    (hbelow : ∀ w, Radix.digit 512 (L + 1) w = j →
      min (missing τ.mem L c w) (Radix.apart 512 L v w) =
        min (missing σ.mem (L + 1) n w) (Radix.apart 512 L v w)) :
    Paid (L + 1) n v σ σ' ok := by
  obtain ⟨d, hd, hm⟩ := hcost
  refine ⟨?_, fun hok => ?_, fun hok w => ?_⟩
  · rw [hp.ok_iff]
    omega
  · have := hp.length hok
    omega
  · by_cases hw : Radix.digit 512 (L + 1) w = j
    · rw [Radix.apart, if_pos (hj.trans hw.symm), ← hbelow w hw, ← hp.after hok, missing,
        Radix.missing, hw, hc', Option.elim_some]
      rfl
    · rw [Radix.apart, if_neg fun e => hw (e.symm.trans hj), hs w hw, min_eq_left]
      exact Radix.missing_le _ _ _ _

theorem walkFrom_alloc (va : ℕ) (L n : ℕ) (σ : Phys) (h : Rooted L n σ) :
    Ensures (walkFrom va true L n) σ
      (fun r σ' => Added L n σ σ' ∧ (∀ q j, r = some (q, j) →
        j = px 0 va ∧ Radix.bottom 512 (nodes σ'.mem) L n (va / PGSIZE) = some q) ∧
        Paid L n (va / PGSIZE) σ σ' (r ≠ none)) := by
  induction L generalizing n σ with
  | zero =>
    rw [walkFrom, pure_iff]
    refine ⟨.refl 0 n σ, fun q j hr => ?_, ?_⟩
    · obtain ⟨rfl, rfl⟩ := Prod.mk.inj (Option.some.inj hr)
      exact ⟨rfl, by rw [Radix.bottom]⟩
    · refine ⟨?_, fun _ => ?_, fun _ w => ?_⟩ <;> simp [missing, Radix.missing]
  | succ L ih =>
    have hj := px_lt (L + 1) va
    have hdig := px_eq_digit (L + 1) va
    have hbot : ∀ {σ' : Phys} {c : ℕ}, (nodes σ'.mem).child n (px (L + 1) va) = some c →
        Radix.bottom 512 (nodes σ'.mem) (L + 1) n (va / PGSIZE) =
          Radix.bottom 512 (nodes σ'.mem) L c (va / PGSIZE) := fun hc => by
      rw [Radix.bottom, ← px_eq_digit, hc, Option.bind_some]
    have hmiss : ∀ {w : ℕ}, Radix.digit 512 (L + 1) w = px (L + 1) va → missing σ.mem (L + 1) n w =
        ((nodes σ.mem).child n (px (L + 1) va)).elim (L + 1) fun q => missing σ.mem L q w :=
      fun hw => by rw [missing, Radix.missing, hw]; rfl
    rw [walkFrom, bind_iff, ok_iff (getPte_run _ _ _)]
    by_cases hv : pte σ.mem n (px (L + 1) va) % 2 = 1
    · have hc : (nodes σ.mem).child n (px (L + 1) va) =
          some (pte2page (pte σ.mem n (px (L + 1) va))) := by simp [nodes, hv]
      simp only [hc, Option.elim_some] at hmiss
      rw [if_pos hv]
      refine (ih _ _ (h.child hj hc)).imp ?_
      rintro r σ' ⟨hg, hr, hp⟩
      obtain ⟨hg, hc', hs⟩ := hg.lift h hj hc
      refine ⟨hg, fun q i hq => ?_, hp.succ hdig.symm hc' hs ⟨0, rfl, ?_⟩ fun w hw => ?_⟩
      · rw [hbot hc']
        exact hr q i hq
      · rw [hmiss hdig.symm, add_zero]
      · rw [hmiss hw]
    · have hc : (nodes σ.mem).child n (px (L + 1) va) = none := by simp [nodes, hv]
      simp only [hc, Option.elim_none] at hmiss
      rw [if_neg hv, if_pos rfl, bind_iff]
      cases hfl : σ.freelist with
      | nil =>
        rw [ok_iff (kalloc_run_nil hfl), pure_iff]
        refine ⟨.refl _ n σ, by simp, ?_, ?_, ?_⟩
        · rw [hmiss hdig.symm, hfl]
          simp
        · exact fun hn => absurd rfl hn
        · exact fun hn => absurd rfl hn
      | cons c fl =>
        have hcfl : c ∉ fl := by
          have hnd := (nodup_add.1 h.nodup).1
          rw [hfl] at hnd
          exact (List.nodup_cons.1 hnd).1
        rw [ok_iff (kalloc_run_cons hfl)]
        have hrun := newTable_run σ n (px (L + 1) va) hcfl (walkFrom va true L c)
        rw [Ensures.congr_run hrun]
        have hcn : c ≠ n := fun e =>
          h.notMem_free (Radix.mem_tables_self _ _ n) (by rw [hfl, e]; exact .head _)
        have hempty : ∀ w, missing (withTable σ n (px (L + 1) va) c fl).mem L c w = L := fun w =>
          Radix.missing_of_empty (by norm_num)
            (fun i _ => child_of_zero (withTable_mem_new σ _ fl hcn) i) w
        refine (ih _ _ (rooted_withTable h hfl)).imp ?_
        rintro r σ' ⟨hg, hr, hp⟩
        obtain ⟨hg, hc', hs⟩ := hg.fresh h hj hc hfl
        refine ⟨hg, fun q i hq => ?_, hp.succ hdig.symm hc' hs ⟨1, ?_, ?_⟩ fun w hw => ?_⟩
        · rw [hbot hc']
          exact hr q i hq
        · rw [hfl]
          rfl
        · rw [hmiss hdig.symm, hempty]
        · have : Radix.apart 512 L (va / PGSIZE) w ≤ L := Radix.apart_le _ _ _
          rw [hmiss hw, hempty, min_eq_right this, min_eq_right (this.trans (Nat.le_succ L))]

theorem walk_added {va : ℕ} (hva : va < MAXVA) {root : ℕ} (h : Rooted 2 root σ) :
    Ensures (walk root va true) σ
      (fun r σ' => Added 2 root σ σ' ∧ (∀ q j, r = some (q, j) →
        j = px 0 va ∧ Radix.bottom 512 (nodes σ'.mem) 2 root (va / PGSIZE) = some q) ∧
        Paid 2 root (va / PGSIZE) σ σ' (r ≠ none)) := by
  rw [walk, if_neg (not_le.2 hva)]
  exact walkFrom_alloc va 2 root σ h

end Xv6

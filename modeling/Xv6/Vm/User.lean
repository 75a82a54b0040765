import Xv6.Vm.Free

/-!
# Vm/User — the page tables of processes: growing, shrinking, copying and freeing them

`Sized m root n` says that below `USERTOP`, the page of the trapframe, exactly the first `n` pages
are mapped.  No operation here panics, and each hands back every page it does not use.
-/

namespace Xv6

open Machinery Function Ensures Multiset Option Radix Nat

/-- The virtual page of the trapframe, above all user memory. -/
def USERTOP : ℕ := TRAPFRAME / PGSIZE

theorem USERTOP_eq : USERTOP = 2 ^ 26 - 2 := by
  unfold USERTOP TRAPFRAME TRAMPOLINE MAXVA PGSIZE
  norm_num

-- a numeral to `omega`, through `USERTOP_eq`, and to no one else
attribute [irreducible] USERTOP

/-- The pages that `sz` bytes take. -/
def npages (sz : ℕ) : ℕ := (sz + PGSIZE - 1) / PGSIZE

/-- Below `USERTOP`, exactly the first `n` pages are mapped. -/
def Sized (m : ℕ → Page) (root n : ℕ) : Prop :=
  ∀ v < USERTOP, leaf m root v ≠ none ↔ v < n

theorem Sized.leaf_eq_none {m : ℕ → Page} {root n w : ℕ} (h : Sized m root n) (hw : w < USERTOP) (hn : n ≤ w) :
    leaf m root w = none := by
  by_contra hne
  exact absurd ((h w hw).1 hne) (not_lt.2 hn)

variable {im : Image} {root : ℕ} {σ σ' : Phys} {rest : Multiset ℕ}

/-! ## Taking a page and giving it back -/

/-- The state after `kalloc` has taken `c` and its caller has filled it with `b`. -/
def taken (σ : Phys) (c : ℕ) (b : Page) (fl : List ℕ) : Phys where
  mem := update σ.mem c b
  freelist := fl
  sound := σ.sound && decide (c ∉ fl)

/-- The state after `kfree` of `c`. -/
def given (σ : Phys) (c : ℕ) : Phys where
  mem := update σ.mem c (.fill PGSIZE 1)
  freelist := c :: σ.freelist
  sound := σ.sound && decide (c ∉ σ.freelist)

section Take

variable {c : ℕ} {fl : List ℕ} {top : ℕ}

theorem moved_taken (hnd : σ.freelist.Nodup) (hfl : σ.freelist = c :: fl) (b : Page) :
    Moved σ (taken σ c b fl) 0 {c} where
  account := by
    rw [hfl, add_zero, add_comm]
    rfl
  frame x hx _ := update_of_ne (fun hxc => hx (by rw [hfl, hxc]; exact .head _)) _ _
  sound := by
    rw [hfl] at hnd
    simp [taken, (List.nodup_cons.1 hnd).1]

theorem moved_given (hc : c ∉ σ.freelist) : Moved σ (given σ c) {c} 0 where
  account := by
    rw [add_zero, add_comm, given]
    rfl
  frame x _ hx := update_of_ne (fun hxc => hx (mem_singleton.2 hxc)) _ _
  sound := by simp [given, hc]

variable {inn out : Multiset ℕ}

theorem Moved.sameTable {r : Multiset ℕ} (h : Moved σ σ' inn out)
    (hnd : ((σ.freelist : Multiset ℕ) + inn + r).Nodup) (ht : tabs σ.mem root ≤ r) :
    SameTable root σ.mem σ'.mem := by
  refine sameTable_of_eq fun x hx => ?_
  have hr : x ∉ (σ.freelist : Multiset ℕ) + inn := fun hf =>
    disjoint_left.1 (nodup_add.1 hnd).2.2 hf (mem_of_le ht hx)
  simp only [mem_add, mem_coe, not_or] at hr
  exact h.frame x hr.1 hr.2

theorem Space.of_moved (h : Space im top root (inn + rest) σ) (hm : Moved σ σ' inn out) :
    SameTable root σ.mem σ'.mem ∧ Space im top root (out + rest) σ' := by
  have hs : SameTable root σ.mem σ'.mem := by
    refine hm.sameTable (r := owned σ.mem top root + rest) ?_ ?_
    · have he : (σ.freelist : Multiset ℕ) + inn + (owned σ.mem top root + rest) =
          σ.freelist + owned σ.mem top root + (inn + rest) := by abel
      rw [he]
      exact h.nodup
    · rw [owned, add_assoc]
      exact le_add_right _ _
  refine ⟨hs, h.of_account ?_ (hs.proper h.proper)⟩
  calc (σ'.freelist : Multiset ℕ) + owned σ'.mem top root + (out + rest)
      = (σ'.freelist + out) + owned σ.mem top root + rest := by rw [hs.owned]; abel
    _ = σ.freelist + owned σ.mem top root + (inn + rest) := by rw [hm.account]; abel

end Take

/-! ## Counting

Memory has at most `2 ^ 15` pages, so an address space has no more. -/

variable {n top sz v lo newsz oldsz v₀ x : ℕ} {m m' : ℕ → Page}

theorem InPool.mem_range (h : InPool im n) : n ∈ Finset.Ico (2 ^ 19) (2 ^ 19 + 2 ^ 15) := by
  have h1 := h.1
  have h2 := h.2
  have h3 := im.etext_ge
  have h4 := im.etext_le
  rw [Finset.mem_Ico]
  unfold PHYSTOP KERNBASE PGSIZE at *
  omega

theorem card_le_of_pool {s : Multiset ℕ} (hnd : s.Nodup) (h : ∀ x ∈ s, InPool im x) :
    s.card ≤ 2 ^ 15 := by
  have hsub : s ⊆ (Finset.Ico (2 ^ 19) (2 ^ 19 + 2 ^ 15)).val := fun x hx => (h x hx).mem_range
  have hle := card_le_card ((le_iff_subset hnd).2 hsub)
  rw [Finset.card_val, card_Ico] at hle
  omega

theorem card_mapped (hn : n ≤ top)
    (h : ∀ v < n, leaf m root v ≠ none) : n ≤ (mapped m top root).card := by
  have hle : ∑ v ∈ Finset.range n, 1 ≤
      ∑ v ∈ Finset.range top, (pageOf (leaf m root v)).card := by
    refine (Finset.sum_le_sum fun v hv => ?_).trans (Finset.sum_le_sum_of_subset
      (Finset.range_subset_range.2 hn))
    obtain ⟨e, he⟩ := ne_none_iff_exists'.1 (h v (Finset.mem_range.1 hv))
    simp [he, pageOf]
  rw [mapped, card_sum]
  simpa using hle

/-- **User memory is small**: what is mapped, and the pages in hand, fit in memory. -/
theorem Space.sized_le (h : Space im USERTOP root rest σ) (hs : Sized σ.mem root n)
    (hn : n ≤ USERTOP) : n + rest.card ≤ 2 ^ 15 := by
  have hm := card_mapped hn fun v hv => (hs v (hv.trans_le hn)).2 hv
  have hc := card_le_of_pool h.nodup h.pool
  simp only [owned, card_add] at hc
  omega

/-! ## A fresh page in the map -/

section Fresh

variable {c v perm : ℕ} {fl : List ℕ}

theorem kalloc_run_taken (hfl : σ.freelist = c :: fl) :
    kalloc σ = .ok (some c, taken σ c (.fill PGSIZE 5) fl) := kalloc_run_cons hfl

theorem put_taken (b b' : Page) : (taken σ c b fl).put c b' = taken σ c b' fl := by
  simp only [taken, Phys.put, update_idem]

theorem kfree_run_given {n : ℕ} (hn : InPool im n) (σ : Phys) :
    kfree im n σ = .ok (⟨⟩, given σ n) := kfree_run hn σ

theorem Space.taken (h : Space im USERTOP root rest σ) (hfl : σ.freelist = c :: fl) (b : Page) :
    SameTable root σ.mem (taken σ c b fl).mem ∧
      Space im USERTOP root ({c} + rest) (taken σ c b fl) := by
  rw [← zero_add rest] at h
  exact h.of_moved (moved_taken h.nodup_free hfl b)

/-- The pages mapped for the user keep their contents. -/
def SameContent (root : ℕ) (m m' : ℕ → Page) : Prop :=
  ∀ w < USERTOP, ∀ e, leaf m root w = some e → m' (pte2page e) = m (pte2page e)

theorem Space.sameContent (h : Space im USERTOP root rest σ)
    (hf : ∀ x ∉ σ.freelist, x ∉ tabs σ.mem root → σ'.mem x = σ.mem x) :
    SameContent root σ.mem σ'.mem := fun w hw e he => by
  have hm : pte2page e ∈ mapped σ.mem USERTOP root := pte2page_mem_mapped hw he
  have ho : pte2page e ∈ owned σ.mem USERTOP root := mem_add.2 (.inr hm)
  exact hf _ (h.notMem_free (mem_add.2 (.inl ho))) (h.notMem_tabs hm)

/-- The fresh page `c` is mapped at `v`, with the bytes `b`. -/
structure Taken (root v c perm : ℕ) (b : Page) (σ σ' : Phys) : Prop extends Kept USERTOP root σ σ' where
  bytes : σ'.mem c = b
  leaf : ∀ w < 2 ^ 27, leaf σ'.mem root w = if w = v then some (mkPte c perm) else leaf σ.mem root w
  length : σ'.freelist.length + (1 + missing σ.mem 2 root v) = σ.freelist.length
  missing : missing σ'.mem 2 root = walked (missing σ.mem 2 root) v

/-- **Mapping a fresh page adds it to the table; after a failure it is still in hand.** -/
theorem mappages_taken (hp : perm < 1024) (hr : perm / 2 % 2 = 1) (hv : v < USERTOP)
    (h : Space im USERTOP root rest σ) (hfree : leaf σ.mem root v = none)
    (hfl : σ.freelist = c :: fl) (b : Page) :
    Ensures (mappages root (v * PGSIZE) PGSIZE c perm) (taken σ c b fl)
      (fun r σ' => InPool im c ∧ (∀ x ∉ σ.freelist, x ∉ tabs σ.mem root → σ'.mem x = σ.mem x) ∧
        if r then Taken root v c perm b σ σ'
        else σ.freelist.length < 1 + missing σ.mem 2 root v ∧
          Moved σ σ' (owned σ.mem USERTOP root) (owned σ'.mem USERTOP root + {c}) ∧
          Space im USERTOP root ({c} + rest) σ' ∧ ∀ w < 2 ^ 27, leaf σ'.mem root w = leaf σ.mem root w) := by
  obtain ⟨hs, h1⟩ := h.taken hfl b
  have htop := USERTOP_eq
  have hpool : InPool im c := h.pool c (by simp [hfl])
  have htake := (moved_taken h.nodup_free hfl b).add_rest (owned σ.mem USERTOP root)
  rw [zero_add] at htake
  have hlen : σ.freelist.length = (Xv6.taken σ c b fl).freelist.length + 1 := by rw [hfl]; rfl
  refine (mappages_one hp hr (by omega) hpool.lt h1 ((hs.leaf v).trans hfree)).imp
    fun r σ' ⟨hb, hl, hpaid⟩ => ⟨hpool, fun x hx ht => ?_, ?_⟩
  · have hxc : x ≠ c := fun hxc => hx (by simp [hfl, hxc])
    have hxf : x ∉ fl := fun hxf => hx (by simp [hfl, hxf])
    rw [hb.frame x hxf (by rwa [hs.tabs])]
    exact update_of_ne hxc _ _
  obtain ⟨hok, hpay, hafter⟩ := hpaid
  rw [hs.missing] at hafter
  rw [hs.missing, mapCost, mapCost, add_zero] at hok hpay
  cases r with
  | true =>
    simp only [true_and, hs.leaf] at hl
    have hm := mapped_exchange (m := (taken σ c b fl).mem) hv fun w hw hwv => by
      rw [hl w (by omega), if_neg hwv, hs.leaf]
    rw [hl v (by omega), if_pos rfl, hs.leaf, hfree, pageOf, pageOf, elim_none,
      elim_some, pte2page_mkPte hp hpool.lt] at hm
    have hmap := hb.moved hm
    rw [hs.owned, add_zero, add_comm] at hmap
    have hct : c ∉ tabs (taken σ c b fl).mem root := fun ht => h1.notMem_owned (x := c) (by simp)
      (mem_add.2 (.inl ht))
    have hpay := hpay rfl
    refine ⟨⟨htake.trans hmap, hb.proper⟩, ?_, hl, by omega, hafter rfl⟩
    rw [hb.frame c (h1.notMem_free (by simp)) hct]
    exact update_self _ _ _
  | false =>
    simp only [Bool.false_eq_true, false_and, if_false, hs.leaf] at hl
    have hk : Kept USERTOP root (taken σ c b fl) σ' :=
      hb.kept (mapped_congr fun w hw => by rw [hl w (by omega), hs.leaf])
    have hk' := hk.toMoved.add_rest {c}
    rw [hs.owned, add_comm] at hk'
    have hfew := mt hok.2 Bool.false_ne_true
    exact ⟨by omega, htake.trans hk', h1.of_kept hk, hl⟩

end Fresh

/-! ## `uvmdealloc` and `uvmalloc` -/

theorem npages_mul (v : ℕ) : npages (v * PGSIZE) = v := by
  unfold npages PGSIZE
  omega

theorem npages_mono {a b : ℕ} (h : a ≤ b) : npages a ≤ npages b :=
  Nat.div_le_div_right (by omega)

theorem pgRoundUp_eq (h : npages sz ≤ USERTOP) : pgRoundUp sz = npages sz * PGSIZE := by
  rw [USERTOP_eq] at h
  unfold npages PGSIZE at h
  unfold pgRoundUp npages PGSIZE
  rw [mod_eq_of_lt (by omega)]

theorem Sized.shrink (h : Sized m root n) (hv : v ≤ n)
    (hl : ∀ w < 2 ^ 27, leaf m' root w = without (leaf m root) v (n - v) w) : Sized m' root v := by
  have htop := USERTOP_eq
  intro w hw
  rw [hl w (by omega)]
  by_cases hin : v ≤ w ∧ w < v + (n - v)
  · rw [without_of_mem hin]
    simp only [ne_eq, not_true_eq_false, false_iff]
    omega
  · rw [without_of_notMem hin, h w hw]
    omega

/-- Below `lo` and from `USERTOP` on the map is the same; the user pages below `lo` hold what they
held. -/
structure SameOutside (lo root : ℕ) (m m' : ℕ → Page) : Prop where
  leaf : ∀ w < 2 ^ 27, w < lo ∨ USERTOP ≤ w → leaf m' root w = leaf m root w
  content : ∀ w < USERTOP, w < lo → ∀ e, Xv6.leaf m root w = some e →
    m' (pte2page e) = m (pte2page e)

theorem SameOutside.refl (lo root : ℕ) (m : ℕ → Page) : SameOutside lo root m m :=
  ⟨fun _ _ _ => rfl, fun _ _ _ _ _ => rfl⟩

theorem SameOutside.trans {m'' : ℕ → Page} (h : SameOutside lo root m m')
    (h' : SameOutside lo root m' m'') : SameOutside lo root m m'' := by
  have htop := USERTOP_eq
  refine ⟨fun w hw hc => (h'.leaf w hw hc).trans (h.leaf w hw hc), fun w hw hlo e he => ?_⟩
  rw [h'.content w hw hlo e (by rw [h.leaf w (by omega) (.inl hlo), he]), h.content w hw hlo e he]

theorem SameOutside.mono {lo' : ℕ} (h : SameOutside lo root m m')
    (hle : lo' ≤ lo) : SameOutside lo' root m m' :=
  ⟨fun w hw hc => h.leaf w hw (by omega), fun w hw hlo => h.content w hw (by omega)⟩

theorem SameContent.sameOutside (h : SameContent root m m')
    (hl : ∀ w < 2 ^ 27, w < lo ∨ USERTOP ≤ w → leaf m' root w = leaf m root w) :
    SameOutside lo root m m' :=
  ⟨hl, fun w hw _ => h w hw⟩

/-- **Unmapping and freeing the user pages from `v` on.** -/
theorem unmapFrom_spec (hv : v ≤ n) (hn : n ≤ USERTOP) (h : Space im USERTOP root rest σ)
    (hs : Sized σ.mem root n) : Ensures (uvmunmap im root (v * PGSIZE) (n - v) true) σ
      (fun _ σ' => Kept USERTOP root σ σ' ∧ SameOutside v root σ.mem σ'.mem ∧ Sized σ'.mem root v ∧
        σ'.freelist.length = σ.freelist.length + (n - v)) := by
  have htop := USERTOP_eq
  rw [uvmunmap_eq (by omega)]
  refine (unmapLoop_free (by omega) _ (by omega) h fun i hi => ?_).imp
    fun _ σ' ⟨hk, hlen, hl, hc⟩ => ⟨hk, ⟨fun w hw hcase => ?_, fun w hw hlo => hc w hw (by omega)⟩,
      hs.shrink hv hl, hlen⟩
  · exact (hs _ (by omega)).2 (by omega)
  · rw [hl w hw, without_of_notMem (by omega)]

/-- **`uvmdealloc` frees the pages that the new size does not need.** -/
theorem uvmdealloc_spec (h : Space im USERTOP root rest σ)
    (hs : Sized σ.mem root (npages oldsz)) (hn : npages oldsz ≤ USERTOP) :
    Ensures (uvmdealloc im root oldsz newsz) σ
      (fun r σ' => r = min oldsz newsz ∧ Kept USERTOP root σ σ' ∧
        SameOutside (npages r) root σ.mem σ'.mem ∧ Sized σ'.mem root (npages r) ∧
        σ'.freelist.length = σ.freelist.length + (npages oldsz - npages r)) := by
  rw [uvmdealloc]
  by_cases hle : oldsz ≤ newsz
  · rw [if_pos hle, pure_iff, min_eq_left hle]
    exact ⟨rfl, .refl h.proper, .refl _ _ _, hs, by omega⟩
  · have hmono : npages newsz ≤ npages oldsz := npages_mono (by omega)
    rw [if_neg hle, min_eq_right (by omega), pgRoundUp_eq hn, pgRoundUp_eq (hmono.trans hn)]
    by_cases hlt : npages newsz * PGSIZE < npages oldsz * PGSIZE
    · have hsub : (npages oldsz * PGSIZE - npages newsz * PGSIZE) / PGSIZE =
          npages oldsz - npages newsz := by
        rw [← Nat.sub_mul]
        exact Nat.mul_div_cancel _ PGSIZE_pos
      rw [if_pos hlt, hsub, bind_iff]
      exact (unmapFrom_spec hmono hn h hs).imp fun _ σ' hr => .pure ⟨rfl, hr⟩
    · have heq : npages newsz = npages oldsz := by
        have := Nat.le_of_mul_le_mul_right (not_lt.1 hlt) PGSIZE_pos
        omega
      rw [if_neg hlt, pure_iff, heq]
      exact ⟨rfl, .refl h.proper, .refl _ _ _, hs, by omega⟩

theorem Sized.grow {e : ℕ} (h : Sized m root v)
    (hl : ∀ w < 2 ^ 27, leaf m' root w = if w = v then some e else leaf m root w) :
    Sized m' root (v + 1) := by
  have htop := USERTOP_eq
  intro w hw
  rw [hl w (by omega)]
  by_cases hwv : w = v
  · rw [if_pos hwv]
    simp [hwv]
  · rw [if_neg hwv, h w hw]
    omega

theorem Sized.congr (h : Sized m root n)
    (hl : ∀ w < 2 ^ 27, leaf m' root w = leaf m root w) : Sized m' root n := by
  have htop := USERTOP_eq
  intro w hw
  rw [hl w (by omega)]
  exact h w hw

section Fresh

variable {c perm : ℕ} {fl : List ℕ} {b : Page}

theorem Taken.stays (ht : Taken root v c perm b σ σ') (hp : perm < 1024) (hc : InPool im c) (hv : v < USERTOP)
    (h : SameOutside (v + 1) root σ'.mem m) : Xv6.leaf m root v = some (mkPte c perm) ∧ m c = b := by
  have htop := USERTOP_eq
  have hleaf : Xv6.leaf σ'.mem root v = some (mkPte c perm) := by rw [ht.leaf v (by omega), if_pos rfl]
  have hcont := h.content v hv (lt_succ_self v) _ hleaf
  rw [pte2page_mkPte hp hc.lt, ht.bytes] at hcont
  exact ⟨by rw [h.leaf v (by omega) (.inl (lt_succ_self v)), hleaf], hcont⟩

/-- **A fresh page is added behind the first `v`, or given back.** -/
theorem addPage_spec (hp : perm < 1024) (hr : perm / 2 % 2 = 1) (hv : v < USERTOP)
    (h : Space im USERTOP root rest σ) (hs : Sized σ.mem root v) (hfl : σ.freelist = c :: fl) (b : Page) :
    Ensures (mappages root (v * PGSIZE) PGSIZE c perm) (taken σ c b fl)
      (fun r σ' => InPool im c ∧
        if r then Taken root v c perm b σ σ' ∧ SameOutside v root σ.mem σ'.mem ∧ Sized σ'.mem root (v + 1)
        else σ.freelist.length < 1 + missing σ.mem 2 root v ∧ Kept USERTOP root σ (given σ' c) ∧
          SameOutside v root σ.mem (given σ' c).mem ∧ Sized (given σ' c).mem root v) := by
  refine (mappages_taken hp hr hv h (hs.leaf_eq_none hv le_rfl) hfl b).imp
    fun r σ' ⟨hpool, hframe, hr'⟩ => ⟨hpool, ?_⟩
  cases r with
  | true =>
    refine ⟨hr', (h.sameContent hframe).sameOutside fun w hw hcase => ?_, hs.grow hr'.leaf⟩
    rw [hr'.leaf w hw, if_neg (by omega)]
  | false =>
    obtain ⟨hfew, hm, h2, hl⟩ := hr'
    have hgive : Moved σ' (given σ' c) {c} 0 := moved_given (h2.notMem_free (by simp))
    obtain ⟨hs', h3⟩ := h2.of_moved hgive
    have hl' : ∀ w < 2 ^ 27, leaf (given σ' c).mem root w = leaf σ.mem root w := fun w hw => by
      rw [hs'.leaf, hl w hw]
    refine ⟨hfew, ⟨?_, h3.proper⟩, (h.sameContent fun x hx ht => ?_).sameOutside fun w hw _ => hl' w hw,
      hs.congr hl'⟩
    · have hg := hgive.add_rest (owned σ'.mem USERTOP root)
      rw [zero_add, add_comm] at hg
      rw [hs'.owned]
      exact hm.trans hg
    · rw [← hframe x hx ht]
      exact update_of_ne (fun hxc => hx (by simp [hfl, hxc])) _ _

end Fresh

/-- Giving up: everything from `v₀` on is unmapped and freed. -/
theorem rollback_spec (h0 : v₀ ≤ v) (hv : v ≤ USERTOP) (h : Space im USERTOP root rest σ)
    (hs : Sized σ.mem root v) : Ensures (uvmdealloc im root (v * PGSIZE) (v₀ * PGSIZE)) σ
      (fun _ σ' => Kept USERTOP root σ σ' ∧ SameOutside v₀ root σ.mem σ'.mem ∧
        Sized σ'.mem root v₀) := by
  rw [← npages_mul v] at hs
  refine (uvmdealloc_spec h hs (by rwa [npages_mul])).imp fun r σ' ⟨hr, hk⟩ => ?_
  rw [hr, min_eq_right (Nat.mul_le_mul_right _ h0), npages_mul] at hk
  exact ⟨hk.1, hk.2.1, hk.2.2.1⟩

theorem userPerm_lt (hx : x < 1024) : PTE_R ||| PTE_U ||| x < 1024 :=
  or_lt_two_pow (n := 10) (by decide) hx

theorem userPerm_readable (x : ℕ) : (PTE_R ||| PTE_U ||| x) / 2 % 2 = 1 := by
  have h : (PTE_R ||| PTE_U ||| x).testBit 1 = true := by
    rw [testBit_or]
    rfl
  rwa [testBit_eq_decide_div_mod_eq, decide_eq_true_iff, pow_one] at h

/-- The pages `[lo, hi)` are mapped with `perm`, and zero. -/
def Zeroed (im : Image) (perm lo hi root : ℕ) (m : ℕ → Page) : Prop :=
  ∀ w, lo ≤ w → w < hi → ∃ c, InPool im c ∧ leaf m root w = some (mkPte c perm) ∧
    m c = .fill PGSIZE 0

theorem allocLoop_spec (hx : x < 1024) (k : ℕ) (h0 : v₀ ≤ v) (hv : v ≤ USERTOP)
    (h : Space im USERTOP root rest σ) (hs : Sized σ.mem root v) :
    Ensures (allocLoop im root (v₀ * PGSIZE) x k (v * PGSIZE)) σ
      (fun r σ' => Kept USERTOP root σ σ' ∧
        if r then SameOutside v root σ.mem σ'.mem ∧ v + k ≤ USERTOP ∧ Sized σ'.mem root (v + k) ∧
          Zeroed im (PTE_R ||| PTE_U ||| x) v (v + k) root σ'.mem ∧
          σ'.freelist.length + (k + mapCost (missing σ.mem 2 root) v k) = σ.freelist.length
        else SameOutside v₀ root σ.mem σ'.mem ∧ Sized σ'.mem root v₀ ∧
          σ.freelist.length < k + mapCost (missing σ.mem 2 root) v k) := by
  have htop := USERTOP_eq
  induction k generalizing v σ with
  | zero =>
    rw [allocLoop, pure_iff]
    exact ⟨.refl h.proper, .refl _ _ _, hv, hs, fun w _ _ => by omega, rfl⟩
  | succ k ih =>
    rw [allocLoop, bind_iff, mapCost]
    cases hfl : σ.freelist with
    | nil =>
      rw [ok_iff (kalloc_run_nil hfl)]
      refine (rollback_spec h0 hv h hs).bind fun _ σ' hr => ?_
      rw [pure_iff]
      exact ⟨hr.1, hr.2.1, hr.2.2, by rw [List.length_nil]; omega⟩
    | cons c fl =>
      have hlt : v < USERTOP := by
        have := (h.taken hfl (.fill PGSIZE 0)).2.sized_le
          (hs.congr fun w _ => (h.taken hfl (.fill PGSIZE 0)).1.leaf w) hv
        rw [card_add, card_singleton] at this
        omega
      rw [ok_iff (kalloc_run_taken hfl)]
      simp only
      rw [memsetPage, bind_iff, modify_iff, put_taken, bind_iff]
      refine (addPage_spec (userPerm_lt hx) (userPerm_readable x) hlt h hs hfl _).imp ?_
      rintro r σ1 ⟨hpool, hr⟩
      rw [hfl] at hr
      cases r with
      | true =>
        obtain ⟨ht, hout, hs1⟩ := hr
        have hlen := ht.length
        rw [hfl] at hlen
        rw [if_pos rfl, show v * PGSIZE + PGSIZE = (v + 1) * PGSIZE by ring]
        refine (ih (by omega) (by omega) (h.of_kept ht.toKept) hs1).imp ?_
        rintro r σ' ⟨hk', hr'⟩
        refine ⟨ht.toKept.trans hk', ?_⟩
        rw [ht.missing] at hr'
        cases r with
        | true =>
          obtain ⟨hout', hle', hs', hzero, hpaid⟩ := hr'
          refine ⟨hout.trans (hout'.mono (by omega)), by omega,
            by rwa [add_right_comm, add_assoc] at hs', fun w hlo hhi => ?_, by omega⟩
          rcases hlo.eq_or_lt with rfl | hlo
          · exact ⟨c, hpool, ht.stays (userPerm_lt hx) hpool hlt hout'⟩
          · exact hzero w hlo (by omega)
        | false =>
          refine ⟨(hout.mono h0).trans hr'.1, hr'.2.1, ?_⟩
          have := hr'.2.2
          omega
      | false =>
        obtain ⟨hfew, hk, hout, hs1⟩ := hr
        rw [if_neg Bool.false_ne_true, bind_iff, ok_iff (kfree_run_given hpool _)]
        refine (rollback_spec h0 hv (h.of_kept hk) hs1).bind fun _ σ' hr => ?_
        rw [pure_iff]
        exact ⟨hk.trans hr.1, (hout.mono h0).trans hr.2.1, hr.2.2, by omega⟩

/-- The pages that it takes to grow an address space from `n` to `n'` pages. -/
def growPages (m : ℕ → Page) (root n n' : ℕ) : ℕ := n' - n + mapCost (missing m 2 root) n (n' - n)

theorem growPages_le (m : ℕ → Page) (root n n' : ℕ) : growPages m root n n' ≤ 3 * (n' - n) := by
  have := mapCost_le (fun w => @missing_le _ _ 512 (nodes m) 2 root w) (n' - n) n
  have hM : missing m 2 root = Radix.missing 512 (nodes m) 2 root := rfl
  rw [growPages, hM]
  omega

theorem growPages_of_le {root n' : ℕ} (h : n' ≤ n) : growPages m root n n' = 0 := by
  rw [growPages, Nat.sub_eq_zero_of_le h]
  rfl

/-- **`uvmalloc` maps zeroed pages up to the new size, or none.** -/
theorem uvmalloc_spec (hx : x < 1024) (hn : npages oldsz ≤ USERTOP)
    (h : Space im USERTOP root rest σ) (hs : Sized σ.mem root (npages oldsz)) :
    Ensures (uvmalloc im root oldsz newsz x) σ
      (fun r σ' => Kept USERTOP root σ σ' ∧ SameOutside (npages oldsz) root σ.mem σ'.mem ∧
        ((r = 0 ∧ Sized σ'.mem root (npages oldsz) ∧
            σ.freelist.length < growPages σ.mem root (npages oldsz) (npages newsz)) ∨
          r = max oldsz newsz ∧ npages r ≤ USERTOP ∧ Sized σ'.mem root (npages r) ∧
            Zeroed im (PTE_R ||| PTE_U ||| x) (npages oldsz) (npages r) root σ'.mem ∧
            σ'.freelist.length + growPages σ.mem root (npages oldsz) (npages newsz) = σ.freelist.length)) := by
  rw [uvmalloc]
  by_cases hlt : newsz < oldsz
  · rw [if_pos hlt, pure_iff, max_eq_left hlt.le]
    rw [growPages_of_le (npages_mono hlt.le)]
    exact ⟨.refl h.proper, .refl _ _ _, .inr ⟨rfl, hn, hs, fun w _ _ => by omega, rfl⟩⟩
  · have hk : npages oldsz + (newsz - npages oldsz * PGSIZE + PGSIZE - 1) / PGSIZE =
        npages newsz := by
      unfold npages PGSIZE
      omega
    rw [if_neg hlt]
    simp only [pgRoundUp_eq hn]
    refine (allocLoop_spec hx _ le_rfl hn h hs).bind fun r σ' ⟨hkept, hr⟩ => ?_
    rw [hk, show (newsz - npages oldsz * PGSIZE + PGSIZE - 1) / PGSIZE = npages newsz - npages oldsz from
      by rw [← hk, Nat.add_sub_cancel_left]] at hr
    cases r with
    | true =>
      rw [if_pos rfl, pure_iff, max_eq_right (by omega)]
      exact ⟨hkept, hr.1, .inr ⟨rfl, hr.2.1, hr.2.2.1, hr.2.2.2.1, hr.2.2.2.2⟩⟩
    | false =>
      rw [if_neg Bool.false_ne_true, pure_iff]
      exact ⟨hkept, hr.1, .inl ⟨rfl, hr.2.1, hr.2.2⟩⟩

/-- The address space at `root` went from `sz` to `sz'` bytes. -/
structure Resized (im : Image) (root sz sz' : ℕ) (m m' : ℕ → Page) : Prop where
  pages : Sized m' root (npages sz')
  kept : SameOutside (min (npages sz) (npages sz')) root m m'
  zero : Zeroed im (PTE_R ||| PTE_U ||| PTE_W) (npages sz) (npages sz') root m'

/-! ## `uvmcreate` and `uvmfree` -/

/-- The free list and the pages `rest`, all different and in the pool. -/
structure Stock (im : Image) (rest : Multiset ℕ) (σ : Phys) : Prop where
  nodup : ((σ.freelist : Multiset ℕ) + rest).Nodup
  pool : ∀ x ∈ (σ.freelist : Multiset ℕ) + rest, InPool im x

theorem Stock.of_moved {inn out : Multiset ℕ} (h : Stock im (inn + rest) σ) (hm : Moved σ σ' inn out) :
    Stock im (out + rest) σ' := by
  have ha := (hm.add_rest rest).account
  exact ⟨by rw [ha]; exact h.nodup, by rw [ha]; exact h.pool⟩

theorem Stock.space (h : Stock im (owned σ.mem top root + rest) σ)
    (hp : Proper 512 (nodes σ.mem) 2 root) : Space im top root rest σ where
  nodup := by
    rw [add_assoc]
    exact h.nodup
  proper := hp
  pool := by
    rw [add_assoc]
    exact h.pool

theorem Stock.sameTable_put (h : Stock im ({n} + (owned σ.mem USERTOP root + rest)) σ)
    (b : Page) : SameTable root σ.mem (σ.put n b).mem := by
  refine (Moved.put σ n b).sameTable (by rw [add_assoc]; exact h.nodup) ?_
  rw [owned, add_assoc]
  exact le_add_right _ _

theorem Stock.newTable {c : ℕ} {fl : List ℕ} (h : Stock im rest σ) (hfl : σ.freelist = c :: fl)
    (top : ℕ) :
    (Moved σ (taken σ c (.fill PGSIZE 0) fl) 0 (owned (taken σ c (.fill PGSIZE 0) fl).mem top c) ∧
      Proper 512 (nodes (taken σ c (.fill PGSIZE 0) fl).mem) 2 c ∧
      ∀ w, leaf (taken σ c (.fill PGSIZE 0) fl).mem c w = none) ∧
    missing (taken σ c (.fill PGSIZE 0) fl).mem 2 c = fun _ => 2 := by
  have hnd : σ.freelist.Nodup := coe_nodup.1 (nodup_add.1 h.nodup).1
  have hz : (taken σ c (.fill PGSIZE 0) fl).mem c = .fill PGSIZE 0 := update_self _ _ _
  have hleaf : ∀ w, leaf (taken σ c (.fill PGSIZE 0) fl).mem c w = none :=
    find_of_empty (by norm_num) (fun j _ => child_of_zero hz j) fun j _ => value_of_zero hz j
  have hown : owned (taken σ c (.fill PGSIZE 0) fl).mem top c = {c} := by
    rw [owned, tabs, tables_of_empty fun j _ => child_of_zero hz j,
      mapped_eq_zero fun v _ => hleaf v, add_zero]
  refine ⟨⟨?_, proper_of_zero hz 2, hleaf⟩, ?_⟩
  · rw [hown]
    exact moved_taken hnd hfl _
  · exact funext (missing_of_empty (by norm_num) fun j _ => child_of_zero hz j)

/-- **`uvmcreate` makes a table that maps nothing.** -/
theorem uvmcreate_spec (h : Stock im rest σ) (top : ℕ) :
    Ensures uvmcreate σ
      (fun r σ' => match r with
        | none => σ' = σ ∧ σ.freelist.length = 0
        | some root => (Moved σ σ' 0 (owned σ'.mem top root) ∧
          Proper 512 (nodes σ'.mem) 2 root ∧ ∀ w, leaf σ'.mem root w = none) ∧
          σ'.freelist.length + 1 = σ.freelist.length ∧ missing σ'.mem 2 root = fun _ => 2) := by
  rw [uvmcreate, bind_iff]
  cases hfl : σ.freelist with
  | nil =>
    rw [ok_iff (kalloc_run_nil hfl), pure_iff]
    exact ⟨rfl, by simp⟩
  | cons c fl =>
    rw [ok_iff (kalloc_run_taken hfl)]
    simp only
    rw [memsetPage, bind_iff, modify_iff, put_taken, pure_iff]
    obtain ⟨ht, hmiss⟩ := h.newTable hfl top
    exact ⟨ht, rfl, hmiss⟩

/-- **`freewalk` frees a table that maps nothing.** -/
theorem freewalk_moved (h : Space im 0 root rest σ) (hl : ∀ w < 2 ^ 27, leaf σ.mem root w = none) :
    Ensures (freewalk im 3 root) σ (fun _ σ' => Moved σ σ' (tabs σ.mem root) 0) := by
  have hb : Bare im 2 root σ := by
    refine ⟨h.rooted.nodup, h.proper, fun v => ?_, fun x hx => h.pool x ?_⟩
    · have hm : v % 512 ^ (2 + 1) = v % 2 ^ 27 % 512 ^ (2 + 1) := by norm_num
      rw [find_mod (by norm_num) hm]
      exact hl _ (mod_lt _ (by norm_num))
    · simp [owned, hx]
  refine (freewalk_spec 2 hb).imp fun _ σ' hf => ⟨?_, fun x _ hx => hf.frame x hx, hf.sound⟩
  rw [add_zero]
  exact hf.account

/-- **`uvmfree` frees the pages and the tables of a page table.** -/
theorem uvmfree_spec (h : Space im USERTOP root rest σ) (hn : npages sz ≤ USERTOP)
    (hs : Sized σ.mem root (npages sz))
    (hup : ∀ w, USERTOP ≤ w → w < 2 ^ 27 → leaf σ.mem root w = none) :
    Ensures (uvmfree im root sz) σ (fun _ σ' => Moved σ σ' (owned σ.mem USERTOP root) 0) := by
  have htop := USERTOP_eq
  -- after the first part nothing is mapped
  have hrest : ∀ {σ' : Phys}, Kept USERTOP root σ σ' → SameOutside 0 root σ.mem σ'.mem →
      Sized σ'.mem root 0 → Ensures (freewalk im 3 root) σ'
        (fun _ σ'' => Moved σ σ'' (owned σ.mem USERTOP root) 0) := by
    intro σ' hk hout hs'
    have hnone : ∀ w < 2 ^ 27, leaf σ'.mem root w = none := fun w hw => by
      by_cases hwt : USERTOP ≤ w
      · rw [hout.leaf w hw (.inr hwt), hup w hwt hw]
      · exact hs'.leaf_eq_none (by omega) (Nat.zero_le w)
    have hmap : mapped σ'.mem USERTOP root = 0 := mapped_eq_zero fun w hw => hnone w (by omega)
    refine (freewalk_moved (h.of_kept hk).tables hnone).imp fun _ σ'' hm => ?_
    have hk' := hk.toMoved
    rw [owned, owned, hmap, add_zero] at hk'
    exact hk'.trans hm
  rw [uvmfree]
  by_cases hsz : 0 < sz
  · have hspec := unmapFrom_spec zero_le hn h hs
    rw [zero_mul, Nat.sub_zero] at hspec
    rw [if_pos hsz, pgRoundUp_eq hn, Nat.mul_div_cancel _ PGSIZE_pos]
    exact hspec.bind fun _ σ' hr => hrest hr.1 hr.2.1 hr.2.2.1
  · obtain rfl : sz = 0 := by omega
    rw [if_neg hsz]
    exact hrest (.refl h.proper) (.refl _ _ _) hs

end Xv6

import Xv6.Vm.Walk

/-!
# Vm/Space — the pages of a page table, and who gets them

`owned m top root` are the tables of the page table at `root` and the pages its leaves below page
`top` map; leaves from `top` on map pages of someone else (the trapframe, the trampoline, all of the
kernel's own, with `top = 0`).

`Moved σ σ' inn out`: an operation was given the pages `inn` and leaves `out`; with the free pages
they are the same before and after, and all other pages keep their contents.  `Kept` is this for an
operation that keeps its table.
-/

namespace Xv6

open Machinery Function Multiset Option Radix

def pageOf (o : Option ℕ) : Multiset ℕ := o.elim 0 fun e => {pte2page e}

/-- The pages mapped below virtual page `top`. -/
def mapped (m : ℕ → Page) (top root : ℕ) : Multiset ℕ :=
  ∑ v ∈ Finset.range top, pageOf (leaf m root v)

/-- The pages that belong to the page table at `root`. -/
def owned (m : ℕ → Page) (top root : ℕ) : Multiset ℕ := tabs m root + mapped m top root

/-- The account of an operation that is given the pages `inn` and leaves the pages `out`. -/
structure Moved (σ σ' : Phys) (inn out : Multiset ℕ) : Prop where
  account : (σ'.freelist : Multiset ℕ) + out = σ.freelist + inn
  frame : ∀ x ∉ σ.freelist, x ∉ inn → σ'.mem x = σ.mem x
  sound : σ'.sound = σ.sound

/-- The account of an operation on the page table at `root`, which keeps its own pages. -/
structure Kept (top root : ℕ) (σ σ' : Phys) : Prop
    extends Moved σ σ' (owned σ.mem top root) (owned σ'.mem top root) where
  proper : Radix.Proper 512 (nodes σ'.mem) 2 root

/-- The account of an operation on the tables of the page table at `root`. -/
structure Rebuilt (root : ℕ) (σ σ' : Phys) : Prop
    extends Moved σ σ' (tabs σ.mem root) (tabs σ'.mem root) where
  proper : Radix.Proper 512 (nodes σ'.mem) 2 root

/-- The page table at `root` is a tree of its own, apart from the free list and from `rest`. -/
structure Space (im : Image) (top root : ℕ) (rest : Multiset ℕ) (σ : Phys) : Prop where
  nodup : ((σ.freelist : Multiset ℕ) + owned σ.mem top root + rest).Nodup
  proper : Radix.Proper 512 (nodes σ.mem) 2 root
  pool : ∀ x ∈ (σ.freelist : Multiset ℕ) + owned σ.mem top root + rest, InPool im x

variable {im : Image} {top root : ℕ} {σ σ' σ'' : Phys} {out inn rest : Multiset ℕ}

theorem InPool.lt {n : ℕ} (h : InPool im n) : n < 2 ^ 52 := by
  obtain ⟨-, h⟩ := h
  unfold PHYSTOP KERNBASE PGSIZE at h
  omega

namespace Moved

theorem refl (σ : Phys) (r : Multiset ℕ) : Moved σ σ r r := ⟨rfl, fun _ _ _ => rfl, rfl⟩

theorem trans {mid : Multiset ℕ} (h : Moved σ σ' inn mid) (h' : Moved σ' σ'' mid out) :
    Moved σ σ'' inn out where
  account := h'.account.trans h.account
  frame x hf hi := by
    have hx : x ∉ (σ'.freelist : Multiset ℕ) + mid := by
      rw [h.account]
      simp [hf, hi]
    simp only [mem_add, mem_coe, not_or] at hx
    rw [h'.frame x hx.1 hx.2, h.frame x hf hi]
  sound := h'.sound.trans h.sound

/-- **The frame rule**: pages the operation is not given stay where they are. -/
theorem add_rest (h : Moved σ σ' inn out) (rest : Multiset ℕ) :
    Moved σ σ' (inn + rest) (out + rest) where
  account := by rw [← add_assoc, h.account, add_assoc]
  frame x hf hi := h.frame x hf fun hx => hi (mem_add.2 (.inl hx))
  sound := h.sound

theorem congr {inn' out' : Multiset ℕ} (h : Moved σ σ' inn out) (hi : inn = inn') (ho : out = out') :
    Moved σ σ' inn' out' := hi ▸ ho ▸ h

theorem put (σ : Phys) (n : ℕ) (b : Page) : Moved σ (σ.put n b) {n} {n} where
  account := rfl
  frame _ _ hx := update_of_ne (fun hxn => hx (mem_singleton.2 hxn)) _ _
  sound := rfl

end Moved

theorem Kept.refl (h : Proper 512 (nodes σ.mem) 2 root) : Kept top root σ σ :=
  ⟨.refl σ _, h⟩

theorem Kept.trans (h : Kept top root σ σ') (h' : Kept top root σ' σ'') : Kept top root σ σ'' :=
  ⟨h.toMoved.trans h'.toMoved, h'.proper⟩

theorem Rebuilt.moved (h : Rebuilt root σ σ')
    (hm : mapped σ'.mem top root + out = mapped σ.mem top root + inn) :
    Moved σ σ' (owned σ.mem top root + inn) (owned σ'.mem top root + out) := by
  have hr := h.toMoved.add_rest (mapped σ.mem top root + inn)
  rw [← add_assoc, ← hm, ← add_assoc] at hr
  exact hr

theorem Rebuilt.kept (h : Rebuilt root σ σ') (hm : mapped σ'.mem top root = mapped σ.mem top root) :
    Kept top root σ σ' := by
  refine ⟨?_, h.proper⟩
  have hr : Moved σ σ' (owned σ.mem top root + 0) (owned σ'.mem top root + 0) :=
    h.moved (by rw [hm])
  rwa [add_zero, add_zero] at hr

namespace Space

variable (h : Space im top root rest σ)
include h

theorem of_account {rest' : Multiset ℕ}
    (ha : (σ'.freelist : Multiset ℕ) + owned σ'.mem top root + rest' =
      σ.freelist + owned σ.mem top root + rest)
    (hp : Proper 512 (nodes σ'.mem) 2 root) : Space im top root rest' σ' where
  nodup := by
    rw [ha]
    exact h.nodup
  proper := hp
  pool := by
    rw [ha]
    exact h.pool

theorem of_kept (hk : Kept top root σ σ') : Space im top root rest σ' :=
  h.of_account (by rw [hk.account]) hk.proper

theorem rooted : Rooted 2 root σ := by
  have hle : (σ.freelist : Multiset ℕ) + tabs σ.mem root ≤ σ.freelist + owned σ.mem top root + rest := by
    rw [owned, ← add_assoc, add_assoc (_ + _)]
    exact le_add_right _ _
  exact ⟨nodup_of_le hle h.nodup, fun x hx => (h.pool x (mem_of_le hle hx)).lt⟩

theorem nodup_free : σ.freelist.Nodup :=
  coe_nodup.1 (nodup_add.1 (nodup_add.1 h.nodup).1).1

theorem notMem_free {x : ℕ} (hx : x ∈ owned σ.mem top root + rest) : x ∉ σ.freelist := by
  have hnd := h.nodup
  rw [add_assoc] at hnd
  exact fun hf => disjoint_left.1 (nodup_add.1 hnd).2.2 hf hx

theorem notMem_owned {x : ℕ} (hx : x ∈ rest) : x ∉ owned σ.mem top root := fun ho =>
  disjoint_left.1 (nodup_add.1 h.nodup).2.2 (mem_add.2 (.inr ho)) hx

theorem nodup_tabs : (tabs σ.mem root).Nodup :=
  (nodup_add.1 h.rooted.nodup).2.1

theorem nodup_mapped : (mapped σ.mem top root).Nodup :=
  (nodup_add.1 (nodup_add.1 (nodup_add.1 h.nodup).1).2.1).2.1

theorem notMem_tabs {x : ℕ} (hx : x ∈ mapped σ.mem top root) : x ∉ tabs σ.mem root := fun ht => by
  have hnd := (nodup_add.1 (nodup_add.1 h.nodup).1).2.1
  exact disjoint_left.1 (nodup_add.1 hnd).2.2 ht hx

theorem tables : Space im 0 root (mapped σ.mem top root + rest) σ := by
  have he : (σ.freelist : Multiset ℕ) + owned σ.mem 0 root + (mapped σ.mem top root + rest) =
      σ.freelist + owned σ.mem top root + rest := by
    simp only [owned, mapped, Finset.range_zero, Finset.sum_empty, add_zero, add_assoc]
  exact ⟨by rw [he]; exact h.nodup, h.proper, by rw [he]; exact h.pool⟩

end Space

/-! ## One leaf -/

section Leaf

variable {m : ℕ → Page} {q v e : ℕ}

def entry (e : ℕ) : Option ℕ := if e % 2 = 1 then some e else none

theorem value_eq_entry (m : ℕ → Page) (n j : ℕ) : (nodes m).value n j = entry (pte m n j) := by
  simp only [nodes, entry]

theorem agree_withPte (m : ℕ → Page) {q r : ℕ} (j e : ℕ) (h : r ≠ q) :
    Radix.Agree (nodes m) (nodes (withPte m q j e)) r := agree_of_eq (withPte_of_ne m j e h)

theorem digit_zero_lt (v : ℕ) : digit 512 0 v < 512 := digit_lt (by norm_num) 0 v

section

variable (hnd : (tabs m root).Nodup) (hb : bottom 512 (nodes m) 2 root v = some q)
include hnd hb

theorem tabs_withPte : tabs (withPte m q (digit 512 0 v) e) root = tabs m root :=
  tables_set (by norm_num) hnd hb fun _ h => agree_withPte m _ _ h

theorem missing_withPte (e : ℕ) :
    missing (withPte m q (digit 512 0 v) e) 2 root = missing m 2 root :=
  funext (missing_set (by norm_num) hnd hb fun _ h => agree_withPte m _ _ h)

theorem leaf_withPte (he : e < 2 ^ 64) (w : ℕ) : leaf (withPte m q (digit 512 0 v) e) root w =
      if w % 2 ^ 27 = v % 2 ^ 27 then entry e else leaf m root w := by
  rw [leaf, find_set (by norm_num) hnd hb (fun _ h => agree_withPte m _ _ h)
    fun j _ hj => by simp only [nodes, pte_withPte_of_ne _ _ _ hj]]
  simp only [nodes, pte_withPte_self m q (digit_zero_lt v) he]
  rfl

theorem proper_withPte {low : ℕ → Prop} (he : e < 2 ^ 64) (hok : e % 2 = 1 → low e)
    (hp : Proper 512 (nodesWith low m) 2 root) :
    Proper 512 (nodesWith low (withPte m q (digit 512 0 v) e)) 2 root := by
  refine proper_set (v := v) (by norm_num) ?_ ?_ (fun _ h => (agree_withPte m _ _ h).withLow)
    (fun j _ hj x hx => ?_) hp
  · rwa [tables_withLow]
  · rwa [bottom_withLow]
  · rw [value_eq_entry] at hx
    by_cases hjv : j = digit 512 0 v
    · rw [hjv, pte_withPte_self m q (digit_zero_lt v) he, entry] at hx
      split at hx
      · rename_i hodd
        exact some.inj hx ▸ hok hodd
      · simp at hx
    · rw [pte_withPte_of_ne _ _ _ hjv, ← value_eq_entry] at hx
      exact hj x hx

end

theorem mapped_congr {m m' : ℕ → Page} (h : ∀ v < top, leaf m' root v = leaf m root v) :
    mapped m' top root = mapped m top root :=
  Finset.sum_congr rfl fun v hv => by rw [h v (Finset.mem_range.1 hv)]

theorem mapped_eq_zero {m : ℕ → Page} (h : ∀ v < top, leaf m root v = none) :
    mapped m top root = 0 :=
  Finset.sum_eq_zero fun v hv => by rw [h v (Finset.mem_range.1 hv), pageOf, elim_none]

/-- Two memories hold the same page table at `root`. -/
structure SameTable (root : ℕ) (m m' : ℕ → Page) : Prop where
  tabs : tabs m' root = tabs m root
  leaf : ∀ v, leaf m' root v = leaf m root v
  bottom : ∀ v, Radix.bottom 512 (nodes m') 2 root v = Radix.bottom 512 (nodes m) 2 root v
  missing : missing m' 2 root = missing m 2 root
  proper : Radix.Proper 512 (nodes m) 2 root → Radix.Proper 512 (nodes m') 2 root

/-- **A page table depends on its own pages alone.** -/
theorem sameTable_of_eq {m m' : ℕ → Page} (h : ∀ x ∈ tabs m root, m' x = m x) :
    SameTable root m m' := by
  have ha : ∀ x ∈ tables 512 (nodes m) 2 root, Radix.Agree (nodes m) (nodes m') x :=
    fun x hx => agree_of_eq (h x hx)
  exact ⟨tables_congr ha, find_congr (by norm_num) ha,
    bottom_congr (by norm_num) ha, funext (missing_congr (by norm_num) ha),
    proper_congr ha⟩

theorem SameTable.trans {m m' m'' : ℕ → Page} (h : SameTable root m m') (h' : SameTable root m' m'') :
    SameTable root m m'' where
  tabs := h'.tabs.trans h.tabs
  leaf v := (h'.leaf v).trans (h.leaf v)
  bottom v := (h'.bottom v).trans (h.bottom v)
  missing := h'.missing.trans h.missing
  proper hp := h'.proper (h.proper hp)

theorem SameTable.nodup {m m' : ℕ → Page} (h : SameTable root m m') (hnd : (Xv6.tabs m root).Nodup) :
    (Xv6.tabs m' root).Nodup := by
  rw [h.tabs]
  exact hnd

theorem SameTable.owned {m m' : ℕ → Page} (h : SameTable root m m') :
    owned m' top root = owned m top root := by
  rw [Xv6.owned, Xv6.owned, h.tabs, mapped_congr fun v _ => h.leaf v]

theorem mapped_exchange {m m' : ℕ → Page} (hv : v < top)
    (h : ∀ w < top, w ≠ v → leaf m' root w = leaf m root w) :
    mapped m' top root + pageOf (leaf m root v) = mapped m top root + pageOf (leaf m' root v) := by
  have hm := Finset.mem_range.2 hv
  have hrest : ∑ w ∈ (Finset.range top).erase v, pageOf (leaf m' root w) =
      ∑ w ∈ (Finset.range top).erase v, pageOf (leaf m root w) := by
    refine Finset.sum_congr rfl fun w hw => ?_
    obtain ⟨hne, hw⟩ := Finset.mem_erase.1 hw
    rw [h w (Finset.mem_range.1 hw) hne]
  rw [mapped, mapped, ← Finset.add_sum_erase _ _ hm, ← Finset.add_sum_erase _ _ hm, hrest]
  abel

theorem pte2page_mem_mapped {m : ℕ → Page} (hv : v < top) (he : leaf m root v = some e) :
    pte2page e ∈ mapped m top root := by
  rw [mapped, mem_sum]
  exact ⟨v, Finset.mem_range.2 hv, by simp [pageOf, he]⟩

theorem ne_of_mapped_nodup {m : ℕ → Page} {w e' : ℕ} (hnd : (mapped m top root).Nodup) (hv : v < top)
    (hw : w < top) (hvw : v ≠ w) (he : leaf m root v = some e) (he' : leaf m root w = some e') :
    pte2page e ≠ pte2page e' := by
  intro heq
  have hle : pageOf (leaf m root v) + pageOf (leaf m root w) ≤ mapped m top root := by
    have hs : ∑ i ∈ {v, w}, pageOf (leaf m root i) ≤ mapped m top root := by
      refine Finset.sum_le_sum_of_subset fun i hi => ?_
      rcases Finset.mem_insert.1 hi with rfl | hi
      · exact Finset.mem_range.2 hv
      · exact Finset.mem_range.2 (Finset.mem_singleton.1 hi ▸ hw)
    rwa [Finset.sum_pair hvw] at hs
  have hnd' := nodup_of_le hle hnd
  rw [he, he', pageOf, pageOf, elim_some, elim_some, heq] at hnd'
  simp at hnd'

end Leaf

-- a sum over every user page
attribute [irreducible] mapped

end Xv6

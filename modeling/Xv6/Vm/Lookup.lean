import Xv6.Vm.Free

/-!
# Vm/Lookup — a page table is a partial map from pages to frames

`lookup` is `walkaddr` without the test of `PTE_U`, and `translate` is the map.  Leaves may have any
flags: a `PageTable` has pages of its own, and its inner entries are bare pointers.
-/

namespace Xv6

open Machinery Function Radix

variable {im : Image} {root : ℕ} {σ σ' : Phys}

/-- What a reader of the table at `root` finds for `va`: the address of the page, and the flags. -/
def lookup (root va : ℕ) : Exec KPanic Phys (Option (ℕ × ℕ)) := do
  match ← walk root va false with
  | none => return none
  | some (n, j) =>
    let e ← getPte n j
    if e % 2 = 1 then return some (pte2page e * PGSIZE, e % 1024) else return none

/-- The map the table at `root` stands for. -/
def translate (m : ℕ → Page) (root va : ℕ) : Option (ℕ × ℕ) :=
  (leaf m root (va / PGSIZE)).map fun e => (pte2page e * PGSIZE, e % 1024)

/-- The inner entries of the table at `root` are bare pointers. -/
abbrev Dirs (m : ℕ → Page) (root : ℕ) : Prop := Radix.Proper 512 (nodesWith (fun _ => True) m) 2 root

/-- A page table of three levels: its pages are allocated, each to one place of the tree. -/
structure PageTable (im : Image) (root : ℕ) (σ : Phys) : Prop where
  nodup : ((σ.freelist : Multiset ℕ) + tabs σ.mem root).Nodup
  pool : ∀ x ∈ (σ.freelist : Multiset ℕ) + tabs σ.mem root, InPool im x
  dirs : Dirs σ.mem root

variable {va e q k : ℕ} {m m' : ℕ → Page} {doFree : Bool}

theorem lookup_run (h : va < MAXVA) (root : ℕ) (σ : Phys) :
    lookup root va σ = .ok (translate σ.mem root va, σ) := by
  rw [lookup, Exec.bind_ok (walk_false h root σ), translate]
  cases hb : bottom 512 (nodes σ.mem) 2 root (va / PGSIZE) with
  | none =>
    rw [leaf, find_eq_bottom, hb]
    rfl
  | some q =>
    rw [leaf_eq_entry hb, ← px_eq_digit, entry]
    simp only [Option.map_some]
    rw [Exec.bind_ok (getPte_run _ _ _)]
    by_cases hv : pte σ.mem q (px 0 va) % 2 = 1
    · rw [if_pos hv, if_pos hv]
      rfl
    · rw [if_neg hv, if_neg hv]
      rfl

theorem translate_congr (h : leaf m' root (va / PGSIZE) = leaf m root (va / PGSIZE)) :
    translate m' root va = translate m root va := by
  rw [translate, translate, h]

theorem translate_eq_none :
    translate m root va = none ↔ leaf m root (va / PGSIZE) = none := Option.map_eq_none_iff

namespace PageTable

theorem rooted (h : PageTable im root σ) : Rooted 2 root σ := ⟨h.nodup, fun x hx => (h.pool x hx).lt⟩

theorem of_account (h : PageTable im root σ)
    (ha : (σ'.freelist : Multiset ℕ) + tabs σ'.mem root = σ.freelist + tabs σ.mem root)
    (hd : Dirs σ'.mem root) : PageTable im root σ' :=
  ⟨ha ▸ h.nodup, fun x hx => h.pool x (ha ▸ hx), hd⟩

end PageTable

/-! ## The operations -/

theorem walk_alloc (hva : va < MAXVA) (h : PageTable im root σ) : Ensures (walk root va true) σ
      (fun _ σ' => PageTable im root σ' ∧ (∀ v, leaf σ'.mem root v = leaf σ.mem root v)) :=
  (walk_added hva h.rooted).imp fun _ _ hg =>
    ⟨h.of_account hg.1.account (hg.1.proper _ h.dirs), hg.1.find⟩

/-- **`mappages` of a page adds one translation, or none if memory runs out.** -/
theorem mappages_page {pa perm : ℕ} (hva : va % PGSIZE = 0) (hlt : va < MAXVA)
    (hpa : pa % PGSIZE = 0) (hpa' : pa < 2 ^ 56) (hp : perm < 1024) (h : PageTable im root σ)
    (hfree : translate σ.mem root va = none) : Ensures (mappages root va PGSIZE (pa / PGSIZE) perm) σ
      (fun r σ' => PageTable im root σ' ∧ (2 ≤ σ.freelist.length → r = true) ∧
        ∀ w < MAXVA, translate σ'.mem root w =
          if r = true ∧ w / PGSIZE = va / PGSIZE then some (pa, perm ||| PTE_V)
          else translate σ.mem root w) := by
  have hv : va / PGSIZE * PGSIZE = va := Nat.div_mul_cancel (Nat.dvd_of_mod_eq_zero hva)
  have hv' : va / PGSIZE < 2 ^ 26 := by unfold PGSIZE MAXVA at *; omega
  have hn : pa / PGSIZE < 2 ^ 52 := by unfold PGSIZE at *; omega
  have hpage := mapPage_spec hp hv' hn h.rooted (translate_eq_none.1 hfree)
  rw [hv] at hpage
  refine hpage.imp fun r σ' ⟨hd, hl, hpaid⟩ => ⟨?_, fun hlen => ?_, fun w hw => ?_⟩
  · exact h.of_account hd.account (hd.proper _ (fun _ _ => trivial) h.dirs)
  · exact hpaid.ok_iff.2 ((mapCost_le (fun w => missing_le _ _ _ _) 1 _).trans hlen)
  · rw [translate, hl _ (by unfold PGSIZE MAXVA at *; omega)]
    split
    · rw [Option.map_some, pte2page_mkPte hp hn, mkPte_mod hp,
        Nat.div_mul_cancel (Nat.dvd_of_mod_eq_zero hpa)]
      rfl
    · rfl

/-- **`uvmunmap` takes its pages out of the table, and no others.** -/
theorem uvmunmap_pages {n : ℕ} (hva : va % PGSIZE = 0)
    (hlt : va + n * PGSIZE ≤ MAXVA) (h : PageTable im root σ)
    (hown : doFree = true → ∀ x ∈ frames σ.mem root (va / PGSIZE) n, x ∉ tabs σ.mem root) :
    Ensures (uvmunmap im root va n doFree) σ
      (fun _ σ' => Unmapped im root doFree (va / PGSIZE) n σ σ')
      (fun _ => ∃ w, va / PGSIZE ≤ w ∧ w < va / PGSIZE + n ∧ Stops im root doFree σ.mem w) := by
  have hv : va / PGSIZE * PGSIZE = va := Nat.div_mul_cancel (Nat.dvd_of_mod_eq_zero hva)
  have hle : va / PGSIZE + n ≤ 2 ^ 26 := by unfold PGSIZE MAXVA at *; omega
  rw [← hv, uvmunmap_eq hle, Nat.mul_div_cancel _ PGSIZE_pos]
  refine unmapLoop_spec n hle (Multiset.nodup_add.1 h.nodup).2.1 ?_
  cases doFree with
  | false => simp [handed]
  | true => exact hown rfl

/-- What is left of a table is a table, unless a frame was freed twice or was in use. -/
theorem Unmapped.pageTable {v : ℕ} (hu : Unmapped im root doFree v k σ σ')
    (h : PageTable im root σ) (hnd : ((σ'.freelist : Multiset ℕ) + Xv6.tabs σ'.mem root).Nodup) :
    PageTable im root σ' := by
  refine ⟨hnd, fun x hx => ?_, hu.proper _ h.dirs⟩
  rw [hu.free, hu.tabs, ← Multiset.coe_add, add_assoc, Multiset.mem_add] at hx
  exact hx.elim (hu.pool x) (h.pool x)

/-! ## `freewalk` -/

/-- **`freewalk` of a table without translations frees each of its pages once.** -/
theorem freewalk_empty (h : PageTable im root σ) (hnone : ∀ va, translate σ.mem root va = none) :
    Ensures (freewalk im 3 root) σ
      (fun _ σ' => (σ'.freelist : Multiset ℕ) = σ.freelist + tabs σ.mem root ∧ σ'.freelist.Nodup) := by
  have hleaf : ∀ v, leaf σ.mem root v = none := fun v => by
    have hv := translate_eq_none.1 (hnone (v * PGSIZE))
    rwa [Nat.mul_div_cancel _ PGSIZE_pos] at hv
  have hproper : Proper 512 (nodes σ.mem) 2 root := by
    rw [← nodesWith_readable]
    exact h.dirs.withLow (by norm_num) fun v e he => nomatch (hleaf v).symm.trans he
  refine (freewalk_spec 2 ⟨h.nodup, hproper, hleaf, fun x hx => h.pool x ?_⟩).imp fun _ σ' hf => ?_
  · exact Multiset.mem_add.2 (.inr hx)
  · refine ⟨hf.account, Multiset.coe_nodup.1 ?_⟩
    rw [hf.account]
    exact h.nodup

/-! ## The table as a map -/

/-- A page table is a partial map from pages to frames and flags. -/
theorem pageTable_partialMap (h : PageTable im root σ) :
    (∀ va < MAXVA, lookup root va σ = .ok (translate σ.mem root va, σ)) ∧
    (∀ va < MAXVA, ∃ r, walk root va false σ = .ok (r, σ)) ∧
    (∀ va < MAXVA, Ensures (walk root va true) σ
      (fun _ σ' => PageTable im root σ' ∧ ∀ w, translate σ'.mem root w = translate σ.mem root w)) ∧
    (∀ va pa perm, va % PGSIZE = 0 → va < MAXVA → pa % PGSIZE = 0 → pa < 2 ^ 56 → perm < 2 ^ 10 →
      translate σ.mem root va = none → Ensures (mappages root va PGSIZE (pa / PGSIZE) perm) σ
        (fun r σ' => PageTable im root σ' ∧ (2 ≤ σ.freelist.length → r = true) ∧
          ∀ w < MAXVA, translate σ'.mem root w =
            if r = true ∧ w / PGSIZE = va / PGSIZE then some (pa, perm ||| PTE_V)
            else translate σ.mem root w)) ∧
    (∀ va n doFree, va % PGSIZE = 0 → va + n * PGSIZE ≤ MAXVA →
      (doFree = true → ∀ x ∈ frames σ.mem root (va / PGSIZE) n, x ∉ tabs σ.mem root) →
      Ensures (uvmunmap im root va n doFree) σ
        (fun _ σ' => (∀ w < MAXVA, translate σ'.mem root w =
            if va ≤ w ∧ w < va + n * PGSIZE then none else translate σ.mem root w) ∧
          σ'.freelist = (if doFree then frames σ.mem root (va / PGSIZE) n else []) ++ σ.freelist ∧
          (((σ'.freelist : Multiset ℕ) + tabs σ'.mem root).Nodup → PageTable im root σ'))
        (fun _ => ∃ w, va ≤ w ∧ w < va + n * PGSIZE ∧ ∀ pa flags,
          translate σ.mem root w = some (pa, flags) →
            flags = PTE_V ∨ doFree = true ∧ ¬ InPool im (pa / PGSIZE))) ∧
    ((∀ w, translate σ.mem root w = none) → Ensures (freewalk im 3 root) σ
      (fun _ σ' => (σ'.freelist : Multiset ℕ) = σ.freelist + tabs σ.mem root ∧ σ'.freelist.Nodup)) := by
  refine ⟨fun va hva => lookup_run hva root σ, fun va hva => ⟨_, walk_false hva root σ⟩,
    fun va hva => ?_, fun va pa perm hva hlt hpa hpa' hp hfree => ?_,
    fun va n doFree hva hlt hown => ?_, freewalk_empty h⟩
  · exact (walk_alloc hva h).imp fun _ σ' ⟨h', hleaf⟩ => ⟨h', fun w => translate_congr (hleaf _)⟩
  · exact mappages_page hva hlt hpa hpa' hp h hfree
  · refine (uvmunmap_pages hva hlt h hown).mono
      (fun _ σ' hu => ⟨fun w hw => ?_, hu.free, hu.pageTable h⟩) fun _ ⟨w, hlo, hhi, hstop⟩ => ?_
    · have hw' : w / PGSIZE < 2 ^ 27 := by unfold PGSIZE MAXVA at *; omega
      have hiff : (va / PGSIZE ≤ w / PGSIZE ∧ w / PGSIZE < va / PGSIZE + n) ↔
          va ≤ w ∧ w < va + n * PGSIZE := by
        unfold PGSIZE at *
        omega
      rw [translate, hu.leaf _ hw', without, if_congr hiff rfl rfl]
      split
      · rfl
      · rfl
    · refine ⟨w * PGSIZE, by unfold PGSIZE at *; omega, by unfold PGSIZE at *; omega,
        fun pa flags ht => ?_⟩
      rw [translate, Nat.mul_div_cancel _ PGSIZE_pos] at ht
      obtain ⟨e, he, heq⟩ := Option.map_eq_some_iff.1 ht
      obtain ⟨rfl, rfl⟩ := Prod.mk.inj heq
      rw [Nat.mul_div_cancel _ PGSIZE_pos]
      exact hstop e he

def onePage : Image where
  etext := KERNBASE + PGSIZE
  endAddr := KERNBASE + PGSIZE
  trampoline := KERNBASE / PGSIZE
  etext_ge := Image.one_page_ge
  etext_le := le_rfl
  end_le := by decide
  etext_aligned := Image.one_page_aligned
  trampoline_lt := Image.one_page_trampoline

/-- An empty table at the first page of the pool, and two free pages. -/
def emptyTable : Phys := ⟨fun _ => .fill PGSIZE 0, [0x80002, 0x80003], true⟩

theorem pageTable_emptyTable : PageTable onePage 0x80001 emptyTable := by
  have hz : emptyTable.mem 0x80001 = .fill PGSIZE 0 := rfl
  have ht : tabs emptyTable.mem 0x80001 = {0x80001} :=
    tables_of_empty fun i _ => child_of_zero hz i
  refine ⟨?_, fun x hx => ?_, properWith_of_zero hz _ 2⟩
  · rw [ht]
    decide
  · rw [ht] at hx
    have hcases : x = 0x80002 ∨ x = 0x80003 ∨ x = 0x80001 := by simpa [emptyTable, or_assoc] using hx
    rcases hcases with rfl | rfl | rfl <;> decide

/-- A page is mapped in an empty table. -/
theorem pageTable_partialMap_empty : PageTable onePage 0x80001 emptyTable ∧
    Ensures (mappages 0x80001 0x1000 PGSIZE 0x80004 PTE_R) emptyTable
      (fun r σ' => r = true ∧ translate σ'.mem 0x80001 0x1000 = some (0x80004000, 3)) := by
  refine ⟨pageTable_emptyTable, ?_⟩
  obtain ⟨-, -, -, hmap, -⟩ := pageTable_partialMap pageTable_emptyTable
  have hnone : translate emptyTable.mem 0x80001 0x1000 = none := by
    rw [translate_eq_none]
    exact Radix.find_of_empty (by norm_num) (fun i _ => child_of_zero rfl i)
      (fun i _ => value_of_zero rfl i) _
  refine (hmap 0x1000 0x80004000 PTE_R (by decide) (by decide) (by decide) (by norm_num) (by decide)
    hnone).imp fun r σ' ⟨_, hr, ht⟩ => ?_
  obtain rfl := hr (by decide)
  exact ⟨rfl, by rw [ht 0x1000 (by decide), if_pos ⟨rfl, rfl⟩]; rfl⟩

end Xv6

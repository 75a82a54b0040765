import Xv6.Vm.User

/-!
# Vm/Copy — copies of user memory: `uvmcopy`, `copyout` and their like

`uvmcopy` takes its pages off the free list and hands them all back when it fails.  The copies
between kernel and user store into pages the table maps for the user, and change nothing else.
-/

namespace Xv6

open Machinery Function Ensures Option Nat

variable {im : Image} {root old new : ℕ} {σ σ' : Phys} {rest : Multiset ℕ}

/-! ## `uvmcopy` -/

/-- The first `n` pages of the table at `old` are mapped, by readable entries. -/
def Readable (m : ℕ → Page) (old n : ℕ) : Prop :=
  ∀ w < n, ∃ e, leaf m old w = some e ∧ e % 4 = 3

variable {m m' : ℕ → Page} {n v e w va dst len max : ℕ}

theorem Readable.congr (h : Readable m old n) (hs : SameTable old m m') :
    Readable m' old n := fun w hw => by
  rw [hs.leaf]
  exact h w hw

theorem Kept.sameOther (hk : Kept USERTOP new σ σ') (h : Space im USERTOP new rest σ)
    (ht : tabs σ.mem old ≤ rest) : SameTable old σ.mem σ'.mem :=
  hk.toMoved.sameTable h.nodup ht

/-- Giving up: everything is unmapped and freed. -/
theorem unmapAll_spec (hv : v ≤ USERTOP) (h : Space im USERTOP new rest σ) (hs : Sized σ.mem new v) :
    Ensures (uvmunmap im new 0 (v * PGSIZE / PGSIZE) true) σ
      (fun _ σ' => Kept USERTOP new σ σ' ∧ SameOutside 0 new σ.mem σ'.mem ∧ Sized σ'.mem new 0) := by
  have hspec := unmapFrom_spec (Nat.zero_le v) hv h hs
  rw [zero_mul, Nat.sub_zero] at hspec
  rw [Nat.mul_div_cancel _ PGSIZE_pos]
  exact hspec.imp fun _ σ' hr => ⟨hr.1, hr.2.1, hr.2.2.1⟩

/-- The page `w` at `new` is a copy of that at `old`: another page with the same bytes and flags. -/
def CopyOf (old new : ℕ) (m m' : ℕ → Page) (w : ℕ) : Prop :=
  ∃ e e', leaf m old w = some e ∧ leaf m' new w = some e' ∧ e' % 1024 = e % 1024 ∧
    m' (pte2page e') = m (pte2page e)

theorem mem_rest_of_leaf (ho : owned σ.mem USERTOP old ≤ rest) (hw : w < USERTOP)
    (he : leaf σ.mem old w = some e) : pte2page e ∈ rest :=
  Multiset.mem_of_le ho (Multiset.mem_add.2 (.inr (pte2page_mem_mapped hw he)))

theorem CopyOf.congr {m1 m'' : ℕ → Page} (h : CopyOf old new m1 m' w)
    (hl : leaf m1 old w = leaf m old w)
    (hc : ∀ e, leaf m old w = some e → m1 (pte2page e) = m (pte2page e))
    (hl' : leaf m'' new w = leaf m' new w)
    (hc' : ∀ e, leaf m' new w = some e → m'' (pte2page e) = m' (pte2page e)) :
    CopyOf old new m m'' w := by
  obtain ⟨e, e', he, he', hflags, hbytes⟩ := h
  rw [hl] at he
  exact ⟨e, e', he, hl'.trans he', hflags, by rw [hc' e' he', hbytes, hc e he]⟩

/-- A page of someone else is not touched. -/
theorem Kept.mem_rest {x : ℕ} (hk : Kept USERTOP new σ σ') (h : Space im USERTOP new rest σ) (hx : x ∈ rest) :
    σ'.mem x = σ.mem x :=
  hk.frame x (h.notMem_free (Multiset.mem_add.2 (.inr hx))) (h.notMem_owned hx)

theorem mkPte_flags {c : ℕ} (h : e % 2 = 1) : mkPte c (e % 1024) % 1024 = e % 1024 := by
  have hbit : (e % 1024).testBit 0 = true := by
    rw [testBit_zero, decide_eq_true_iff]
    omega
  rw [mkPte_mod (mod_lt _ (by norm_num))]
  refine eq_of_testBit_eq fun i => ?_
  rw [testBit_or]
  cases i with
  | zero => rw [hbit, Bool.true_or]
  | succ i => rw [testBit_succ 1, zero_testBit, Bool.or_false]

theorem copyLoop_spec (k : ℕ) (hv : v + k ≤ USERTOP) (h : Space im USERTOP new rest σ)
    (ho : owned σ.mem USERTOP old ≤ rest) (hold : Readable σ.mem old (v + k)) (hs : Sized σ.mem new v) :
    Ensures (copyLoop im old new k (v * PGSIZE)) σ
      (fun r σ' => Kept USERTOP new σ σ' ∧
        (r = true ↔ k + mapCost (missing σ.mem 2 new) v k ≤ σ.freelist.length) ∧
        if r then SameOutside v new σ.mem σ'.mem ∧ Sized σ'.mem new (v + k) ∧
          (∀ w, v ≤ w → w < v + k → CopyOf old new σ.mem σ'.mem w) ∧
          σ'.freelist.length + (k + mapCost (missing σ.mem 2 new) v k) = σ.freelist.length
        else SameOutside 0 new σ.mem σ'.mem ∧ Sized σ'.mem new 0) := by
  have htop := USERTOP_eq
  induction k generalizing v σ with
  | zero =>
    rw [copyLoop, pure_iff]
    exact ⟨.refl h.proper, by simp [mapCost], .refl _ _ _, hs, fun w _ _ => by omega, by simp [mapCost]⟩
  | succ k ih =>
    obtain ⟨e, he, h4⟩ := hold v (by omega)
    obtain ⟨q, hb, hrun, hpte, hodd⟩ := walk_false_of_leaf (by omega) he
    rw [copyLoop, bind_iff, ok_iff hrun]
    simp only
    rw [bind_iff, ok_iff (getPte_run _ _ _), hpte, if_neg (by omega), bind_iff]
    cases hfl : σ.freelist with
    | nil =>
      rw [ok_iff (kalloc_run_nil hfl)]
      refine (unmapAll_spec (by omega) h hs).bind fun _ σ' hr => ?_
      rw [pure_iff]
      exact ⟨hr.1, by simp, hr.2⟩
    | cons c fl =>
      rw [ok_iff (kalloc_run_taken hfl)]
      simp only
      rw [bind_iff, modify_iff, put_taken, bind_iff]
      have hperm : e % 1024 < 1024 := mod_lt _ (by norm_num)
      refine (addPage_spec hperm (by omega) (by omega) h hs hfl _).imp ?_
      rintro r σ1 ⟨hpool, hr⟩
      rw [hfl] at hr
      rw [mapCost]
      cases r with
      | true =>
        obtain ⟨ht, hout, hs1⟩ := hr
        have hlen := ht.length
        rw [hfl] at hlen
        have hk := ht.toKept
        have hsame := hk.sameOther h ((Multiset.le_add_right _ _).trans ho)
        have ho1 : owned σ1.mem USERTOP old ≤ rest := by
          rw [hsame.owned]
          exact ho
        have hold' := hold.congr hsame
        rw [← add_assoc, add_right_comm] at hold'
        rw [if_pos rfl, show v * PGSIZE + PGSIZE = (v + 1) * PGSIZE by ring]
        refine (ih (by omega) (h.of_kept hk) ho1 hold' hs1).imp ?_
        rintro r σ' ⟨hk', hok, hr'⟩
        refine ⟨hk.trans hk', by rw [hok, ht.missing]; omega, ?_⟩
        cases r with
        | true =>
          obtain ⟨hout', hs', hcopy, hpaid⟩ := hr'
          rw [ht.missing] at hpaid
          refine ⟨hout.trans (hout'.mono (by omega)), by rwa [add_right_comm, add_assoc] at hs',
            fun w hlo hhi => ?_, by omega⟩
          rcases hlo.eq_or_lt with rfl | hlo
          · -- the page of this round keeps its bytes in the rounds that follow
            obtain ⟨hl, hbytes⟩ := ht.stays hperm hpool (by omega) hout'
            have hfree := h.notMem_free (Multiset.mem_add.2 (.inr (mem_rest_of_leaf ho (by omega) he)))
            refine ⟨e, mkPte c (e % 1024), he, hl, mkPte_flags (by omega), ?_⟩
            rw [pte2page_mkPte hperm hpool.lt, hbytes]
            exact update_of_ne (fun hec => hfree (by simp [hfl, hec])) _ _
          · exact (hcopy w hlo (by omega)).congr (hsame.leaf w)
              (fun e he => hk.mem_rest h (mem_rest_of_leaf ho (by omega) he)) rfl fun _ _ => rfl
        | false => exact ⟨(hout.mono (by omega)).trans hr'.1, hr'.2⟩
      | false =>
        obtain ⟨hfew, hk, hout, hs1⟩ := hr
        rw [if_neg Bool.false_ne_true, bind_iff, ok_iff (kfree_run_given hpool _)]
        refine (unmapAll_spec (by omega) (h.of_kept hk) hs1).bind fun _ σ' hr => ?_
        rw [pure_iff]
        refine ⟨hk.trans hr.1, ?_, (hout.mono (Nat.zero_le v)).trans hr.2.1, hr.2.2⟩
        simp only [Bool.false_eq_true, false_iff]
        omega

/-- **`uvmcopy` gives the child a copy of every page of the parent, or none.** -/
theorem uvmcopy_spec {sz : ℕ} (hn : npages sz ≤ USERTOP) (h : Space im USERTOP new rest σ)
    (ho : owned σ.mem USERTOP old ≤ rest) (hold : Readable σ.mem old (npages sz))
    (hs : Sized σ.mem new 0) :
    Ensures (uvmcopy im old new sz) σ
      (fun r σ' => Kept USERTOP new σ σ' ∧ SameOutside 0 new σ.mem σ'.mem ∧
        Sized σ'.mem new (if r then npages sz else 0) ∧
        (r = true ↔ npages sz + mapCost (missing σ.mem 2 new) 0 (npages sz) ≤ σ.freelist.length) ∧
        (r = true → (∀ w < npages sz, CopyOf old new σ.mem σ'.mem w) ∧
          σ'.freelist.length + (npages sz + mapCost (missing σ.mem 2 new) 0 (npages sz)) =
            σ.freelist.length)) := by
  have hspec := copyLoop_spec (npages sz) (v := 0) (by omega) h ho (by rwa [zero_add]) hs
  rw [zero_add, zero_mul] at hspec
  refine hspec.imp fun r σ' ⟨hk, hok, hr⟩ => ?_
  cases r with
  | true => exact ⟨hk, hr.1, hr.2.1, hok, fun _ => ⟨fun w hw => hr.2.2.1 w (by omega) hw, hr.2.2.2⟩⟩
  | false => exact ⟨hk, hr.1, hr.2, hok, nofun⟩

/-! ## `uvmclear` -/

/-- An entry without `PTE_U`. -/
def clearUser (e : ℕ) : ℕ := if e / 16 % 2 = 1 then e - PTE_U else e

theorem clearUser_spec (h : e % 4 = 3) :
    clearUser e % 4 = 3 ∧ clearUser e ≤ e ∧ pte2page (clearUser e) = pte2page e := by
  unfold clearUser pte2page PTE_U
  split <;> omega

/-- **`uvmclear` takes one page from the user, and leaves it where it is.** -/
theorem uvmclear_spec (hv : v < USERTOP) (h : Space im USERTOP root rest σ)
    (he : leaf σ.mem root v = some e) : Ensures (uvmclear root (v * PGSIZE)) σ
      (fun _ σ' => Kept USERTOP root σ σ' ∧ SameContent root σ.mem σ'.mem ∧ ∀ w < 2 ^ 27,
        leaf σ'.mem root w = if w = v then some (clearUser e) else leaf σ.mem root w) := by
  have htop := USERTOP_eq
  obtain ⟨h4, hle, hpage⟩ := clearUser_spec (h.mod_four he)
  obtain ⟨q, hb, hrun, hpte, hodd⟩ := walk_false_of_leaf (by omega) he
  have hlt : clearUser e < 2 ^ 64 := hle.trans_lt (hpte ▸ pte_lt _ _ _)
  have hs : Rebuilt root σ _ := (redrawn_withPte h.nodup_tabs hb hlt fun _ => h4).rebuilt (fun _ h => h) h.proper
  have hent : entry (clearUser e) = some (clearUser e) := if_pos (by omega)
  have hl : ∀ w < 2 ^ 27, leaf (withPte σ.mem q (Radix.digit 512 0 v) (clearUser e)) root w =
      if w = v then some (clearUser e) else leaf σ.mem root w := fun w hw => by
    rw [leaf_withPte h.nodup_tabs hb hlt, mod_eq_of_lt hw,
      mod_eq_of_lt (by omega : v < 2 ^ 27), hent]
  rw [uvmclear, bind_iff, ok_iff hrun]
  simp only
  rw [bind_iff, ok_iff (getPte_run _ _ _), hpte, ok_iff (setPte_run _ _ _ _)]
  refine ⟨hs.kept ?_, h.sameContent fun x hx ht => hs.frame x hx ht, hl⟩
  have hx := mapped_exchange (m := σ.mem) hv fun w hw hwv => by
    rw [hl w (by omega), if_neg hwv]
  rw [hl v (by omega), if_pos rfl, he, pageOf, pageOf, elim_some, elim_some, hpage] at hx
  exact add_right_cancel hx

/-! ## Copies between kernel and user -/

/-- The page a user address lies in, as `walkaddr` finds it. -/
def userPage (m : ℕ → Page) (root va : ℕ) : Option ℕ :=
  if va < MAXVA then (leaf m root (va / PGSIZE)).bind fun e =>
    if e / 16 % 2 = 1 ∧ pte2page e ≠ 0 then some (pte2page e) else none
  else none

theorem walkaddr_run (root va : ℕ) (σ : Phys) :
    walkaddr root va σ = .ok (userPage σ.mem root va, σ) := by
  rw [walkaddr, userPage]
  by_cases hva : va < MAXVA
  · rw [if_neg (not_le.2 hva), if_pos hva, Exec.bind_ok (walk_false hva root σ)]
    cases hb : Radix.bottom 512 (nodes σ.mem) 2 root (va / PGSIZE) with
    | none =>
      rw [leaf, Radix.find_eq_bottom, hb]
      rfl
    | some q =>
      rw [leaf_eq_entry hb, map_some]
      simp only
      rw [Exec.bind_ok (getPte_run _ _ _), ← px_eq_digit, entry]
      by_cases hodd : pte σ.mem q (px 0 va) % 2 = 1
      · by_cases hu : pte σ.mem q (px 0 va) / 16 % 2 = 1 ∧ pte2page (pte σ.mem q (px 0 va)) ≠ 0
        · rw [if_pos ⟨hodd, hu⟩, if_pos hodd, bind_some, if_pos hu]
          rfl
        · rw [if_neg fun h => hu h.2, if_pos hodd, bind_some, if_neg hu]
          rfl
      · rw [if_neg fun h => hodd h.1, if_neg hodd, bind_none]
        rfl
  · rw [if_pos (not_lt.1 hva), if_neg hva]
    rfl

/-- Nothing from `USERTOP` on is open to the user. -/
def Guarded (m : ℕ → Page) (root : ℕ) : Prop :=
  ∀ w, USERTOP ≤ w → w < 2 ^ 27 → ∀ e, leaf m root w = some e → e / 16 % 2 = 0

theorem mem_mapped_of_userPage (hg : Guarded m root)
    (h : userPage m root va = some n) : n ∈ mapped m USERTOP root := by
  have htop := USERTOP_eq
  rw [userPage] at h
  split at h
  · rename_i hva
    obtain ⟨e, he, hif⟩ := bind_eq_some_iff.1 h
    split at hif
    · rename_i hu
      have hlt : va / PGSIZE < 2 ^ 26 := by
        unfold MAXVA at hva
        unfold PGSIZE
        omega
      have hwt : va / PGSIZE < USERTOP := by
        by_contra hge
        have := hg _ (not_lt.1 hge) (by omega) e he
        omega
      exact some.inj hif ▸ pte2page_mem_mapped hwt he
    · simp at hif
  · simp at h

/-- Only pages mapped for the user have changed. -/
structure Stored (root : ℕ) (σ σ' : Phys) : Prop where
  freelist : σ'.freelist = σ.freelist
  frame : ∀ x ∉ mapped σ.mem USERTOP root, σ'.mem x = σ.mem x
  sound : σ'.sound = σ.sound

theorem Stored.put (hn : n ∈ mapped σ.mem USERTOP root) (b : Page) : Stored root σ (σ.put n b) :=
  ⟨rfl, fun x hx => update_of_ne (fun hxn : x = n => hx (hxn ▸ hn)) _ _, rfl⟩

theorem Stored.sameTable (hs : Stored root σ σ') (h : Space im USERTOP root rest σ) :
    SameTable root σ.mem σ'.mem :=
  sameTable_of_eq fun x hx => hs.frame x fun hm => h.notMem_tabs hm hx

theorem Stored.kept (hs : Stored root σ σ') (h : Space im USERTOP root rest σ) :
    Kept USERTOP root σ σ' := by
  have hsame := hs.sameTable h
  refine ⟨⟨?_, fun x _ ho => hs.frame x fun hm => ho (Multiset.mem_add.2 (.inr hm)), hs.sound⟩,
    hsame.proper h.proper⟩
  rw [hs.freelist, hsame.owned]

theorem Stored.trans {σ'' : Phys} (hs : Stored root σ σ') (hs' : Stored root σ' σ'')
    (h : Space im USERTOP root rest σ) : Stored root σ σ'' where
  freelist := hs'.freelist.trans hs.freelist
  frame x hx := by
    have hm : mapped σ'.mem USERTOP root = mapped σ.mem USERTOP root :=
      mapped_congr fun w _ => (hs.sameTable h).leaf w
    rw [hs'.frame x (by rwa [hm]), hs.frame x hx]
  sound := hs'.sound.trans hs.sound

theorem Guarded.congr (h : Guarded m root) (hs : SameTable root m m') :
    Guarded m' root := fun w hw hlt e he => h w hw hlt e (by rwa [← hs.leaf])

end Xv6

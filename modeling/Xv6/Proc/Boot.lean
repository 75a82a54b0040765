import Xv6.Proc.Calls
import Xv6.Vm.Cost
import Mathlib.Algebra.BigOperators.Fin

/-!
# Proc/Boot — the kernel's page table, the disk's queues and the first process

The kernel's page table and the stacks cost 136 pages, the disk three.  `uvmfirst` does not look at
the result of `mappages`: with five or six pages left when `userinit` starts, the page of `initcode`
is taken and not mapped.
-/

namespace Xv6

open Machinery Function Ensures Finset Option Radix

variable {im : Image} {root : ℕ} {W : Finset ℕ} {rest hand : Multiset ℕ} {σ σ₀ : Phys}

namespace Kernel

/-! ## The kernel's page table -/

def stackPage (p : Slot) : ℕ := KSTACK p / PGSIZE

/-- The pages of the kernel stacks of `S`. -/
def stackPages (m : ℕ → Page) (root : ℕ) (S : List Slot) : Multiset ℕ :=
  (S.map fun p => pageOf (leaf m root (stackPage p))).sum

/-- The page table at `root` that the kernel has built so far: it reaches the pages `W` and maps the
stacks of `S`; the pages `hand` are taken and not mapped yet. -/
structure Kvm (root : ℕ) (W : Finset ℕ) (S : List Slot) (hand : Multiset ℕ) (σ₀ σ : Phys) : Prop where
  moved : Moved σ₀ σ 0 (tabs σ.mem root + (stackPages σ.mem root S + hand))
  proper : Radix.Proper 512 (nodes σ.mem) 2 root
  missing : missing σ.mem 2 root = absent W
  leaf : ∀ w < 2 ^ 27, leaf σ.mem root w ≠ none → w ∈ W
  stack : ∀ p ∈ S, stackPage p ∈ W
  room : σ.freelist.length + (1 + spread W + (S.length + hand.card)) = σ₀.freelist.length

/-- There was not the memory for a table that reaches `W`, and `n` more pages. -/
def OutOfMemory (W : Finset ℕ) (n : ℕ) (σ₀ : Phys) (e : KPanic) : Prop :=
  (e = .kvmmap ∨ e = .kalloc ∨ e = .kerneltrap) ∧ σ₀.freelist.length < 1 + spread W + n

section Kvm

variable {S : List Slot} {U : Finset ℕ} {v k pn perm va sz n : ℕ}

theorem Kvm.space (h : Kvm root W S hand σ₀ σ) (hst : Stock im rest σ₀) :
    Space im 0 root (stackPages σ.mem root S + hand + rest) σ := by
  rw [← zero_add rest] at hst
  have hst' := hst.of_moved h.moved
  refine Stock.space ?_ h.proper
  rwa [owned, mapped_eq_zero (fun v hv => absurd hv (Nat.not_lt_zero v)), add_zero, ← add_assoc]

theorem stackPage_lt (p : Slot) : stackPage p < 2 ^ 26 - 1 := by
  unfold stackPage KSTACK TRAMPOLINE MAXVA PGSIZE
  omega

/-- **`kvmmap` maps a range that was not mapped, unless memory runs out.** -/
theorem kvmmap_spec (hva : va = v * PGSIZE) (hsz : sz = k * PGSIZE) (hk : 0 < k) (hp : perm < 1024)
    (hr : perm / 2 % 2 = 1) (hv : v + k ≤ 2 ^ 26) (hpn : pn + k ≤ 2 ^ 52) (hst : Stock im rest σ₀)
    (h : Kvm root W S hand σ₀ σ) (hd : ∀ i < k, v + i ∉ W) (hU : W ∪ Finset.Ico v (v + k) ⊆ U)
    (hn : S.length + hand.card ≤ n) :
    Ensures (kvmmap root va pn sz perm) σ
      (fun _ σ' => Kvm root (W ∪ Finset.Ico v (v + k)) S hand σ₀ σ' ∧
        Xv6.leaf σ'.mem root v = some (mkPte pn perm))
      (OutOfMemory U n σ₀) := by
  have hroom := h.room
  have hle := spread_mono hU
  have hcost := mapCost_absent W v k
  rw [kvmmap, hva, hsz, mappages_eq root hk hv, bind_iff]
  have hs := h.space hst
  refine ((mapLoop_spec hp k hv hpn hs.rooted fun i hi => ?_).mono
    (fun r σ' ⟨hd', ⟨i, hi, hri, hl⟩, hpaid⟩ => ?_) fun _ he => he.elim)
  · by_contra hne
    exact hd i hi (h.leaf _ (by omega) hne)
  have hb := hd'.rebuilt (fun e ⟨n, he⟩ => he ▸ mkPte_mod_four hp hr) hs.proper
  have hok := hpaid.ok_iff
  have hlen := hpaid.length
  have hafter := hpaid.after
  rw [h.missing] at hok hlen hafter
  cases r with
  | false =>
    rw [if_neg Bool.false_ne_true, throw_iff]
    refine ⟨.inl rfl, ?_⟩
    simp only [Bool.false_eq_true, false_iff, not_le] at hok
    omega
  | true =>
    obtain rfl : i = k := of_decide_eq_true hri.symm
    rw [if_pos rfl, pure_iff]
    have hstack : stackPages σ'.mem root S = stackPages σ.mem root S := by
      refine congrArg List.sum (List.map_congr_left fun p hpS => ?_)
      have hlt := stackPage_lt p
      rw [hl _ (by omega), if_neg]
      rintro ⟨h1, h2⟩
      have hne := hd (stackPage p - v) (by omega)
      rw [Nat.add_sub_cancel' h1] at hne
      exact hne (h.stack p hpS)
    refine ⟨⟨?_, hb.proper, ?_, fun w hw hne => ?_, fun p hpS => ?_, ?_⟩, ?_⟩
    · rw [hstack]
      exact h.moved.trans (hb.toMoved.add_rest _)
    · rw [hafter rfl, mapMissing_absent]
    · rw [hl w hw] at hne
      by_cases hin : v ≤ w ∧ w < v + i
      · exact mem_union_right _ (mem_Ico.2 hin)
      · rw [if_neg hin] at hne
        exact mem_union_left _ (h.leaf w hw hne)
    · exact mem_union_left _ (h.stack p hpS)
    · have := hlen rfl
      omega
    · rw [hl v (by omega), if_pos (by omega), Nat.sub_self, add_zero]

theorem Kvm.take {c : ℕ} {fl : List ℕ} (h : Kvm root W S 0 σ₀ σ) (hst : Stock im rest σ₀)
    (hfl : σ.freelist = c :: fl) (b : Page) : Kvm root W S {c} σ₀ (taken σ c b fl) := by
  have hsp := h.space hst
  rw [← zero_add (_ + rest)] at hsp
  have htake := moved_taken hsp.nodup_free hfl b
  obtain ⟨hs, -⟩ := hsp.of_moved htake
  have hstack : stackPages (taken σ c b fl).mem root S = stackPages σ.mem root S :=
    congrArg List.sum (List.map_congr_left fun p _ => by rw [hs.leaf])
  refine ⟨?_, hs.proper h.proper, hs.missing.trans h.missing, fun w hw hne => ?_, h.stack, ?_⟩
  · have hm := htake.add_rest (tabs σ.mem root + (stackPages σ.mem root S + 0))
    rw [zero_add] at hm
    refine (h.moved.trans hm).congr rfl ?_
    rw [hs.tabs, hstack]
    abel
  · exact h.leaf w hw (by rwa [hs.leaf] at hne)
  · have hroom := h.room
    rw [hfl, List.length_cons, Multiset.card_zero] at hroom
    rw [Multiset.card_singleton]
    change fl.length + _ = _
    omega

theorem Kvm.placed {c : ℕ} {p : Slot} (h : Kvm root W S {c} σ₀ σ) (hc : c < 2 ^ 52)
    (hp : perm < 1024) (hW : stackPage p ∈ W)
    (hl : Xv6.leaf σ.mem root (stackPage p) = some (mkPte c perm)) :
    Kvm root W (p :: S) 0 σ₀ σ := by
  refine ⟨h.moved.congr rfl ?_, h.proper, h.missing, h.leaf, ?_, ?_⟩
  · rw [stackPages, stackPages, List.map_cons, List.sum_cons, hl, pageOf, elim_some,
      pte2page_mkPte hp hc]
    abel
  · exact List.forall_mem_cons.2 ⟨hW, h.stack⟩
  · have := h.room
    rw [Multiset.card_singleton] at this
    rw [List.length_cons, Multiset.card_zero]
    omega

/-- The virtual pages of the stacks of `ps`. -/
def stackRange (ps : List Slot) : Finset ℕ := ps.toFinset.image stackPage

theorem stackPage_injective : Injective stackPage := fun p q h => by
  have hp := p.isLt
  have hq := q.isLt
  unfold stackPage KSTACK TRAMPOLINE MAXVA PGSIZE at h
  unfold NPROC at hp hq
  exact Fin.ext (by omega)

theorem union_stackRange_cons (W : Finset ℕ) (p : Slot) (ps : List Slot) :
    W ∪ Finset.Ico (stackPage p) (stackPage p + 1) ∪ stackRange ps = W ∪ stackRange (p :: ps) := by
  rw [stackRange, stackRange, List.toFinset_cons, image_insert, Nat.Ico_succ_singleton,
    union_assoc, insert_eq]

/-- **`proc_mapstacks` takes a page for each stack and maps it.** -/
theorem mapstacksLoop_spec (ps : List Slot) (hnd : ps.Nodup) (hst : Stock im rest σ₀)
    (h : Kvm root W S 0 σ₀ σ) (hd : ∀ p ∈ ps, stackPage p ∉ W) (hU : W ∪ stackRange ps ⊆ U)
    (hn : S.length + ps.length ≤ n) :
    Ensures (mapstacksLoop root ps) σ
      (fun _ σ' => Kvm root (W ∪ stackRange ps) (ps.reverse ++ S) 0 σ₀ σ') (OutOfMemory U n σ₀) := by
  induction ps generalizing W S σ with
  | nil =>
    rw [mapstacksLoop, pure_iff, stackRange, List.toFinset_nil, image_empty, union_empty]
    exact h
  | cons p ps ih =>
    rw [← union_stackRange_cons] at hU ⊢
    rw [List.length_cons] at hn
    rw [mapstacksLoop, bind_iff]
    have hUp := union_subset_iff.1 hU
    cases hfl : σ.freelist with
    | nil =>
      rw [ok_iff (kalloc_run_nil hfl), throw_iff]
      have hroom := h.room
      have hle := spread_mono (union_subset_iff.1 hUp.1).1
      rw [hfl, List.length_nil, Multiset.card_zero] at hroom
      exact ⟨.inr (.inl rfl), by omega⟩
    | cons c fl =>
      have hpool : InPool im c := (h.space hst).pool c (by simp [hfl])
      have h1 := h.take hst hfl (.fill PGSIZE 5)
      rw [ok_iff (kalloc_run_taken hfl)]
      simp only
      have hlt := stackPage_lt p
      have hfirst : ∀ i < 1, stackPage p + i ∉ W := fun i hi => by
        obtain rfl : i = 0 := by omega
        exact hd p (.head _)
      refine (kvmmap_spec (k := 1) (v := stackPage p) ?_ (one_mul _).symm one_pos (by decide) (by decide)
        (by omega) (by have := hpool.lt; omega) hst h1 hfirst hUp.1
        (by rw [Multiset.card_singleton]; omega)).bind fun _ σ2 ⟨h2, hl⟩ => ?_
      · unfold stackPage KSTACK TRAMPOLINE MAXVA PGSIZE
        omega
      have h3 := h2.placed hpool.lt (by decide)
        (mem_union_right _ (mem_Ico.2 ⟨le_rfl, Nat.lt_succ_self _⟩)) hl
      have hnd' := List.nodup_cons.1 hnd
      rw [List.reverse_cons, List.append_assoc]
      refine ih hnd'.2 h3 (fun q hq hm => ?_) hU
        (by rw [List.singleton_append, List.length_cons]; omega)
      rcases mem_union.1 hm with hm | hm
      · exact hd q (.tail _ hq) hm
      · have hqp : q = p := stackPage_injective (by rw [mem_Ico] at hm; omega)
        exact hnd'.1 (hqp ▸ hq)

end Kvm

def textPages (im : Image) : ℕ := (im.etext - KERNBASE) / PGSIZE

theorem etext_eq (im : Image) : im.etext = (0x80000 + textPages im) * PGSIZE := by
  have h1 := im.etext_aligned
  have h2 := im.etext_ge
  unfold textPages
  unfold KERNBASE PGSIZE at *
  omega

theorem textPages_le (im : Image) : textPages im ≤ 0x8000 := by
  have h1 := im.etext_le
  have h2 := im.end_le
  unfold textPages
  unfold PHYSTOP KERNBASE PGSIZE at *
  omega

/-- The pages that `kvmmake` maps. -/
def kvmReach (im : Image) : Finset ℕ :=
  ∅ ∪ Finset.Ico 0x10000 (0x10000 + 1) ∪ Finset.Ico 0x10001 (0x10001 + 1) ∪
    Finset.Ico 0xc000 (0xc000 + 0x400) ∪ Finset.Ico 0x80000 (0x80000 + textPages im) ∪
    Finset.Ico (0x80000 + textPages im) (0x80000 + textPages im + (0x8000 - textPages im)) ∪
    Finset.Ico (2 ^ 26 - 1) (2 ^ 26 - 1 + 1) ∪ stackRange (List.finRange NPROC)

theorem kvmReach_eq (im : Image) :
    kvmReach im = {0x10000} ∪ {0x10001} ∪ Finset.Ico (512 * 96) (512 * 98) ∪
      Finset.Ico (512 * 1024) (512 * 1088) ∪ {2 ^ 26 - 1} ∪ stackRange (List.finRange NPROC) := by
  have hle := textPages_le im
  have hram : Finset.Ico 0x80000 (0x80000 + textPages im) ∪
      Finset.Ico (0x80000 + textPages im) (0x80000 + textPages im + (0x8000 - textPages im)) =
      Finset.Ico (512 * 1024) (512 * 1088) := by
    rw [Finset.Ico_union_Ico_eq_Ico (by omega) (by omega)]
    congr 1
    omega
  rw [kvmReach, union_assoc (∅ ∪ _ ∪ _ ∪ _), hram, empty_union, Nat.Ico_succ_singleton,
    Nat.Ico_succ_singleton, Nat.Ico_succ_singleton]

theorem digits_stackPage (p : Slot) :
    digit 512 2 (stackPage p) = 255 ∧ digit 512 1 (stackPage p) = 511 := by
  have hp := p.isLt
  unfold NPROC at hp
  unfold digit stackPage KSTACK TRAMPOLINE MAXVA PGSIZE
  omega

/-- **The kernel's page table takes 71 tables below its root.** -/
theorem spread_kvmReach (im : Image) : spread (kvmReach im) = 71 := by
  have hne : (stackRange (List.finRange NPROC)).Nonempty :=
    ⟨_, mem_image.2 ⟨⟨0, by decide⟩, List.mem_toFinset.2 (List.mem_finRange _), rfl⟩⟩
  have hst : ∀ w ∈ stackRange (List.finRange NPROC),
      digit 512 2 w = 255 ∧ digit 512 1 w = 511 := fun w hw => by
    obtain ⟨p, -, rfl⟩ := mem_image.1 hw
    exact digits_stackPage p
  have hg : ∀ {a b g : ℕ}, a < b → 512 * g ≤ a → b ≤ 512 * (g + 1) → g < 512 →
      gigas (Finset.Ico (512 * a) (512 * b)) = {g} := fun hab h1 h2 hlt =>
    gigas_eq (nonempty_Ico.2 (by omega)) fun w hw => by
      rw [mem_Ico] at hw
      unfold digit
      omega
  rw [kvmReach_eq, spread]
  simp only [gigas_union, megas_union]
  rw [hg (g := 0) (by norm_num) (by norm_num) (by norm_num) (by norm_num),
    hg (g := 2) (by norm_num) (by norm_num) (by norm_num) (by norm_num),
    gigas_eq hne fun w hw => (hst w hw).1, megas_eq hne hst,
    megas_Ico (g := 0) (by norm_num) (by norm_num) (by norm_num),
    megas_Ico (g := 2) (by norm_num) (by norm_num) (by norm_num)]
  decide +kernel

theorem kvm_new {c : ℕ} {fl : List ℕ} (hst : Stock im rest σ) (hfl : σ.freelist = c :: fl) :
    Kvm c ∅ [] 0 σ (taken σ c (.fill PGSIZE 0) fl) := by
  obtain ⟨⟨hm, hp, hl⟩, hmiss⟩ := hst.newTable hfl 0
  refine ⟨hm.congr rfl ?_, hp, hmiss, fun w _ hne => absurd (hl w) hne, nofun, ?_⟩
  · rw [owned, mapped_eq_zero fun v _ => hl v]
    rfl
  · rw [hfl]
    rfl

/-- **`kvmmake` takes 136 pages**: 72 tables and a stack for each process. -/
theorem kvmmake_spec (hst : Stock im rest σ) :
    Ensures (kvmmake im) σ
      (fun root σ' => Moved σ σ' 0 (tabs σ'.mem root + stackPages σ'.mem root (List.finRange NPROC)) ∧
        Proper 512 (nodes σ'.mem) 2 root ∧ σ'.freelist.length + 136 = σ.freelist.length)
      (fun e => (e = .kvmmap ∨ e = .kalloc ∨ e = .kerneltrap) ∧ σ.freelist.length < 136) := by
  have hspread := spread_kvmReach im
  have htext := etext_eq im
  have hle := textPages_le im
  have hge : 0 < textPages im := by
    have := im.etext_ge
    unfold KERNBASE at this
    unfold PGSIZE at htext
    omega
  suffices h : Ensures (kvmmake im) σ
      (fun root σ' => Kvm root (kvmReach im) ((List.finRange NPROC).reverse ++ []) 0 σ σ')
      (OutOfMemory (kvmReach im) NPROC σ) by
    refine h.mono (fun root σ' hk => ⟨?_, hk.proper, ?_⟩) fun e he => ⟨he.1, ?_⟩
    · refine hk.moved.congr rfl ?_
      rw [add_zero, List.append_nil, stackPages, stackPages]
      exact congrArg _ ((List.reverse_perm _).map _).sum_eq
    · have hroom := hk.room
      rw [List.append_nil, List.length_reverse, List.length_finRange, hspread, Multiset.card_zero]
        at hroom
      unfold NPROC at hroom
      omega
    · have hlt := he.2
      unfold NPROC at hlt
      omega
  rw [kvmmake, bind_iff]
  cases hfl : σ.freelist with
  | nil =>
    rw [ok_iff (kalloc_run_nil hfl), throw_iff]
    exact ⟨.inr (.inr rfl), by rw [hfl, List.length_nil]; omega⟩
  | cons c fl =>
    have hphys : textPages im < 0x8000 := by
      have h1 : InPool im c := hst.pool c (by simp [hfl])
      have h2 := im.etext_le
      obtain ⟨h3, h4⟩ := h1
      unfold PHYSTOP KERNBASE at h4
      unfold PGSIZE at *
      omega
    have hsize : im.etext - KERNBASE = textPages im * PGSIZE := by
      unfold KERNBASE
      unfold PGSIZE at *
      omega
    have hsize' : PHYSTOP - im.etext = (0x8000 - textPages im) * PGSIZE := by
      unfold PHYSTOP KERNBASE
      unfold PGSIZE at *
      omega
    rw [ok_iff (kalloc_run_taken hfl)]
    simp only
    rw [memsetPage, bind_iff, modify_iff, put_taken]
    have h0 := kvm_new hst hfl
    have hU : kvmReach im ⊆ kvmReach im := subset_rfl
    have hU6 := union_subset_left hU
    have hU5 := union_subset_left hU6
    have hU4 := union_subset_left hU5
    have hU3 := union_subset_left hU4
    have hU2 := union_subset_left hU3
    have hU1 := union_subset_left hU2
    refine (kvmmap_spec (k := 1) (v := 0x10000) rfl rfl one_pos (by decide) (by decide) (by norm_num)
      (by unfold UART0 PGSIZE; norm_num) hst h0 (fun i hi => ?_) hU1 zero_le).bind ?_
    · exact notMem_empty _
    rintro _ σ1 ⟨h₁, -⟩
    refine (kvmmap_spec (k := 1) (v := 0x10001) rfl rfl one_pos (by decide) (by decide) (by norm_num)
      (by unfold VIRTIO0 PGSIZE; norm_num) hst h₁ (fun i hi => ?_) hU2 zero_le).bind ?_
    · simp only [mem_union, mem_Ico, notMem_empty, false_or]
      omega
    rintro _ σ2 ⟨h₂, -⟩
    refine (kvmmap_spec (k := 0x400) (v := 0xc000) rfl rfl (by norm_num) (by decide) (by decide)
      (by norm_num) (by unfold PLIC PGSIZE; norm_num) hst h₂ (fun i hi => ?_) hU3 zero_le).bind ?_
    · simp only [mem_union, mem_Ico, notMem_empty, false_or]
      omega
    rintro _ σ3 ⟨h₃, -⟩
    refine (kvmmap_spec (v := 0x80000) rfl hsize hge (by decide) (by decide) (by omega)
      (by unfold KERNBASE PGSIZE; omega) hst h₃ (fun i hi => ?_) hU4 zero_le).bind ?_
    · simp only [mem_union, mem_Ico, notMem_empty, false_or]
      omega
    rintro _ σ4 ⟨h₄, -⟩
    refine (kvmmap_spec htext hsize' (by omega) (by decide) (by decide) (by omega)
      (by rw [htext, Nat.mul_div_cancel _ PGSIZE_pos]; omega) hst h₄
      (fun i hi => ?_) hU5 zero_le).bind ?_
    · simp only [mem_union, mem_Ico, notMem_empty, false_or]
      omega
    rintro _ σ5 ⟨h5, -⟩
    refine (kvmmap_spec (k := 1) (v := 2 ^ 26 - 1) rfl rfl one_pos (by decide) (by decide) (by norm_num)
      (by have := im.trampoline_small; omega) hst h5 (fun i hi => ?_) hU6 zero_le).bind ?_
    · simp only [mem_union, mem_Ico, notMem_empty, false_or]
      omega
    rintro _ σ6 ⟨h6, -⟩
    rw [procMapstacks]
    refine (mapstacksLoop_spec _ (List.nodup_finRange _) hst h6 (fun p _ hm => ?_) hU ?_).bind
      fun _ σ7 h7 => .pure h7
    · have hlt := stackPage_lt p
      have hd := digits_stackPage p
      unfold digit at hd
      simp only [mem_union, mem_Ico, notMem_empty, false_or] at hm
      omega
    · rw [List.length_finRange, List.length_nil, zero_add]

variable {k : Kernel}

theorem kvminit_spec (h : Inv im k) (hk : k.kernelPagetable = none) :
    Ensures (kvminit im) k
      (fun _ k' => Inv im k' ∧ ∃ root σ, k' = { k with phys := σ, kernelPagetable := some root } ∧
        σ.freelist.length + 136 = k.phys.freelist.length)
      (fun e => e.Expected ∧ k.phys.freelist.length < 136) := by
  rw [kvminit, bind_iff, onPhys_iff]
  refine (kvmmake_spec (h.stock (zero_add k.held).symm)).mono (fun root σ ⟨hm, hp, hlen⟩ => ?_)
    fun e he => he
  rw [modify_iff]
  refine ⟨h.step_kvm hk (hm.congr rfl ?_) hp, root, σ, rfl, hlen⟩
  rw [stackPages, Fin.sum_univ_def]
  rfl

/-! ## The disk's queues -/

theorem onPhys_kalloc_nil {α : Type} {f : Option ℕ → KExec α} {Q : α → Kernel → Prop}
    {E : Panic → Prop} (hfl : k.phys.freelist = []) :
    Ensures (onPhys kalloc >>= f) k Q E ↔ Ensures (f none) k Q E := by
  rw [bind_iff, onPhys_iff, ok_iff (kalloc_run_nil hfl)]

theorem onPhys_kalloc_cons {α : Type} {f : Option ℕ → KExec α} {Q : α → Kernel → Prop}
    {E : Panic → Prop} {c : ℕ} {fl : List ℕ} (hfl : k.phys.freelist = c :: fl) :
    Ensures (onPhys kalloc >>= f) k Q E ↔
      Ensures (f (some c)) { k with phys := taken k.phys c (.fill PGSIZE 5) fl } Q E := by
  rw [bind_iff, onPhys_iff, ok_iff (kalloc_run_taken hfl)]

/-- **The disk takes three pages.** -/
theorem virtioDiskInit_spec (h : Inv im k) (hv : k.virtio = []) :
    Ensures virtioDiskInit k
      (fun _ k' => Inv im k' ∧ ∃ σ l, k' = { k with phys := σ, virtio := l } ∧ l ≠ [] ∧
        σ.freelist.length + 3 = k.phys.freelist.length)
      (fun e => e.Expected ∧ k.phys.freelist.length < 3) := by
  rw [virtioDiskInit]
  have hnd := h.nodup_free
  rcases hfl : k.phys.freelist with _ | ⟨a, _ | ⟨b, _ | ⟨c, fl⟩⟩⟩
  · rw [onPhys_kalloc_nil hfl, onPhys_kalloc_nil hfl, onPhys_kalloc_nil hfl, throw_iff]
    exact ⟨trivial, by norm_num⟩
  · rw [onPhys_kalloc_cons hfl, onPhys_kalloc_nil rfl, onPhys_kalloc_nil rfl, throw_iff]
    exact ⟨trivial, by norm_num⟩
  · rw [onPhys_kalloc_cons hfl, onPhys_kalloc_cons rfl, onPhys_kalloc_nil rfl, throw_iff]
    exact ⟨trivial, by norm_num⟩
  · rw [onPhys_kalloc_cons hfl, onPhys_kalloc_cons rfl, onPhys_kalloc_cons rfl]
    simp only
    set σ1 := taken k.phys a (.fill PGSIZE 5) (b :: c :: fl)
    set σ2 := taken σ1 b (.fill PGSIZE 5) (c :: fl)
    set σ3 := taken σ2 c (.fill PGSIZE 5) fl
    rw [hfl] at hnd
    have hm1 : Moved k.phys σ1 0 {a} := moved_taken h.nodup_free hfl _
    have hm2 : Moved σ1 σ2 0 {b} := moved_taken (List.nodup_cons.1 hnd).2 rfl _
    have hm3 : Moved σ2 σ3 0 {c} := moved_taken (List.nodup_cons.1 (List.nodup_cons.1 hnd).2).2 rfl _
    have hm : Moved k.phys σ3 0 ({a} + {b} + {c}) := by
      refine (hm1.trans ((hm2.add_rest {a}).congr (zero_add _) rfl)).trans
        ((hm3.add_rest ({b} + {a})).congr (zero_add _) ?_)
      abel
    have hput : ∀ (σ : Phys) (n : ℕ) (s : Multiset ℕ), n ∈ s → ∀ b : Page, Moved σ (σ.put n b) s s :=
      fun σ n s hn b => by
        obtain ⟨t, rfl⟩ := Multiset.exists_cons_of_mem hn
        rw [← Multiset.singleton_add]
        exact (Moved.put σ n b).add_rest t
    simp only [memsetPage, bind_iff, onPhys_iff, modify_iff]
    have hz : Moved k.phys (((σ3.put a (.fill PGSIZE 0)).put b (.fill PGSIZE 0)).put c (.fill PGSIZE 0)) 0
        ({a} + {b} + {c}) :=
      ((hm.trans (hput _ a _ (by simp) _)).trans (hput _ b _ (by simp) _)).trans
        (hput _ c _ (by simp) _)
    refine ⟨h.step_virtio hv (hz.congr rfl ?_), _, _, rfl, List.cons_ne_nil _ _, rfl⟩
    rfl

/-! ## The first process -/

/-- `uvmfirst` has mapped a page at 0. -/
structure Mapped (root : ℕ) (σ σ' : Phys) : Prop extends Kept USERTOP root σ σ' where
  outside : SameOutside 0 root σ.mem σ'.mem
  sized : Sized σ'.mem root 1
  room : σ'.freelist.length + 3 = σ.freelist.length
  code : userPage σ'.mem root 0 ≠ none

/-- `uvmfirst` has taken a page and mapped nothing. -/
def Lost (im : Image) (rest : Multiset ℕ) (root : ℕ) (σ σ' : Phys) : Prop :=
  ∃ c, Space im USERTOP root ({c} + rest) σ' ∧ ∀ w < 2 ^ 27, leaf σ'.mem root w = leaf σ.mem root w

/-- **`uvmfirst` takes three pages, or loses one.** -/
theorem uvmfirst_spec (h : Space im USERTOP root rest σ) (hs : Sized σ.mem root 0)
    (hmiss : missing σ.mem 2 root 0 = 2) {src : List Byte} (hsrc : src.length < PGSIZE) :
    Ensures (uvmfirst root src) σ
      (fun _ σ' => 0 < σ.freelist.length ∧
        if 3 ≤ σ.freelist.length then Mapped root σ σ' else Lost im rest root σ σ')
      (fun e => e = .kerneltrap ∧ σ.freelist.length = 0) := by
  have htop := USERTOP_eq
  rw [uvmfirst, if_neg (not_le.2 hsrc), bind_iff]
  cases hfl : σ.freelist with
  | nil =>
    rw [ok_iff (kalloc_run_nil hfl), throw_iff]
    exact ⟨rfl, rfl⟩
  | cons c fl =>
    rw [ok_iff (kalloc_run_taken hfl)]
    simp only
    rw [memsetPage, bind_iff, modify_iff, put_taken, bind_iff]
    have hmap := mappages_taken (v := 0) (show PTE_W ||| PTE_R ||| PTE_X ||| PTE_U < 1024 by decide)
      (by decide) (by omega) h (hs.leaf_eq_none (by omega) le_rfl) hfl (.fill PGSIZE 0)
    rw [zero_mul, hmiss, hfl] at hmap
    refine hmap.mono ?_ fun _ he => he.elim
    rintro r σ1 ⟨hpool, hframe, hr⟩
    rw [modify_iff]
    refine ⟨List.length_pos_of_ne_nil (List.cons_ne_nil _ _), ?_⟩
    cases r with
    | true =>
      have hlen := hr.length
      rw [hmiss, hfl] at hlen
      rw [if_pos (by omega)]
      have hl := hr.leaf
      have h1 := h.of_kept hr.toKept
      have hl0 : leaf σ1.mem root 0 = some (mkPte c (PTE_W ||| PTE_R ||| PTE_X ||| PTE_U)) := by
        rw [hl 0 (by norm_num), if_pos rfl]
      have hc : c ∈ mapped σ1.mem USERTOP root := by
        have hm := pte2page_mem_mapped (show 0 < USERTOP by omega) hl0
        rwa [pte2page_mkPte (by decide) hpool.lt] at hm
      have hst := Stored.put hc ((σ1.mem c).splice 0 src)
      have hsame := hst.sameTable h1
      refine ⟨hr.toKept.trans (hst.kept h1), ⟨fun w hw hout => ?_, by simp⟩, fun w hw => ?_, ?_, ?_⟩
      · rw [hsame.leaf, hl w hw, if_neg (by omega)]
      · rw [hsame.leaf, hl w (by omega)]
        by_cases hw0 : w = 0
        · simp [hw0]
        · rw [if_neg hw0, hs w hw]
          omega
      · rw [hfl]
        exact hlen
      · have hmax : 0 < MAXVA := by decide
        have hopen := userPerm_open (x := PTE_W ||| PTE_X) (by decide) hpool
        have hperm : PTE_W ||| PTE_R ||| PTE_X ||| PTE_U = PTE_R ||| PTE_U ||| (PTE_W ||| PTE_X) := by
          decide
        rw [userPage, if_pos hmax, hsame.leaf, Nat.zero_div, hl0, hperm, bind_some, if_pos hopen]
        rintro ⟨⟩
    | false =>
      obtain ⟨hfew, -, h1, hl⟩ := hr
      rw [if_neg (by omega)]
      obtain ⟨hsame, h2⟩ := h1.of_moved (Moved.put σ1 c ((σ1.mem c).splice 0 src))
      exact ⟨c, h2, fun w hw => by rw [hsame.leaf, hl w hw]⟩

/-- What `userinit` makes of the entry `q`. -/
def first (k : Kernel) (q : Proc) (tf root : ℕ) : Proc :=
  { q with
    pid := k.nextpid, state := .runnable, trapframe := some tf, pagetable := some root, sz := PGSIZE }

/-- The kernel with its first process `np`. -/
def started (k : Kernel) (σ : Phys) (np : Slot) (tf root : ℕ) : Kernel :=
  { k with
    phys := σ, nextpid := (k.nextpid + 1).bmod (2 ^ 32), initproc := some np
    proc := update k.proc np (first k (k.proc np) tf root) }

theorem started_proc_self (k : Kernel) (σ : Phys) (np : Slot) (tf root : ℕ) :
    (k.started σ np tf root).proc np = first k (k.proc np) tf root := update_self _ _ _

variable {np : Slot} {tf : ℕ}

section First

variable {σ' : Phys} (h : Inv im k) (hroot : (k.proc np).pagetable = some root)
  (htf : (k.proc np).trapframe = some tf)

include h hroot htf

theorem Inv.mapped_first (hm : Mapped root k.phys σ') (b : Page) :
    Inv im (k.become (σ'.put tf b) np { k.proc np with sz := PGSIZE, state := .runnable }) ∧
      userPage (σ'.put tf b).mem root 0 ≠ none := by
  have htop := USERTOP_eq
  have hone : npages PGSIZE = 1 := by rw [← one_mul PGSIZE, npages_mul]
  have h1 : Inv im (k.become σ' np { k.proc np with sz := PGSIZE }) :=
    h.resize hroot hm.toKept hm.outside (by rw [hone]; exact hm.sized) (by rw [hone]; omega)
  have h2 := h1.put_trapframe (p := np) (by rw [become_proc_self]; exact htf) b
  have h3 := h2.setProc (p := np) (q := { k.proc np with sz := PGSIZE, state := .runnable })
    (by rw [become_proc_self]; exact ⟨rfl, rfl, rfl, rfl, nofun⟩)
  have hsp := h1.space (p := np) (by rw [become_proc_self]; exact hroot)
  have htab : tf ∉ tabs σ'.mem root := fun ht =>
    hsp.notMem_owned (x := tf) (by rw [become_proc_self]; simp [htf]) (Multiset.mem_add.2 (.inl ht))
  have hs : SameTable root σ'.mem (update σ'.mem tf b) :=
    sameTable_of_eq fun x hx => update_of_ne (fun hxn : x = tf => htab (hxn ▸ hx)) _ _
  refine ⟨by simpa only [Kernel.become, update_idem] using h3, ?_⟩
  rw [Phys.put, userPage, hs.leaf, ← userPage]
  exact hm.code

theorem Inv.lost_first (hsz : npages (k.proc np).sz = 0) {rest : Multiset ℕ} (hm : Lost im rest root k.phys σ')
    (hrest : tf ∈ rest) (b : Page) : UserSpace im (σ'.put tf b).mem root tf 0 := by
  have htop := USERTOP_eq
  obtain ⟨c, hsp, hl⟩ := hm
  obtain ⟨tf', htf', hu⟩ := (h.procs np).space root hroot
  obtain rfl := some.inj (htf.symm.trans htf')
  rw [hsz] at hu
  have htab : tf ∉ tabs σ'.mem root := fun ht =>
    hsp.notMem_owned (Multiset.mem_add.2 (.inr hrest)) (Multiset.mem_add.2 (.inl ht))
  have hu' := hu.resize hsp.proper (show SameOutside 0 root _ _ from ⟨fun w hw _ => hl w hw, by simp⟩)
    (hu.sized.congr fun w hw => hl w (by omega)) hu.le
  exact hu'.congr (sameTable_of_eq fun x hx => update_of_ne (fun hxn : x = tf => htab (hxn ▸ hx)) _ _)

end First

/-- **`userinit` makes the first process**; with five or six pages left it loses one. -/
theorem userinit_spec (h : Inv im k) :
    Ensures (userinit im) k
      (fun _ k' => ∃ σ np tf root, k.firstUnused = some np ∧ k' = k.started σ np tf root ∧
        if k.phys.freelist.length = 5 ∨ k.phys.freelist.length = 6 then
          UserSpace im σ.mem root tf 0
        else Inv im (k.started σ np tf root) ∧ σ.freelist.length + 7 = k.phys.freelist.length ∧
          userPage σ.mem root 0 ≠ none)
      (fun e => e.Expected ∧ (k.firstUnused = none ∨ k.phys.freelist.length < 5)) := by
  rw [userinit, bind_iff]
  refine (allocproc_spec h).mono ?_ fun _ he => he.elim
  rintro r k1 ⟨h1, hsome, hnone⟩
  cases r with
  | none =>
    rw [bind_iff, modify_iff, bind_iff, deref, throw_iff]
    exact ⟨trivial, (hnone rfl).imp And.left fun hlt => by omega⟩
  | some np =>
    obtain ⟨⟨hfirst, tf, root, σ, hk1, hlen, hmiss⟩, -⟩ := hsome np rfl
    have hempty := h.empty (unused_of_firstUnused hfirst)
    have hnp : k1.proc np = { k.proc np with
        pid := k.nextpid, state := .used, trapframe := some tf, pagetable := some root } := by
      rw [hk1]
      exact update_self _ _ _
    have hlen1 : k1.phys.freelist.length + 4 = k.phys.freelist.length := by rw [hk1, hlen]
    have h2 : Inv im { k1 with initproc := some np } := h1.same rfl (fun _ => .refl _) rfl rfl rfl rfl
    have hroot : (k1.proc np).pagetable = some root := by rw [hnp]
    have htf : (k1.proc np).trapframe = some tf := by rw [hnp]
    have hsz : npages (k1.proc np).sz = 0 := by
      rw [hnp]
      simp only [hempty.sz]
      unfold npages PGSIZE
      norm_num
    obtain ⟨tf', -, hu⟩ := (h1.procs np).space root hroot
    rw [hsz] at hu
    have hmiss0 : missing k1.phys.mem 2 root 0 = 2 := by
      rw [hk1, hmiss, USERTOP_eq]
      decide
    rw [bind_iff, modify_iff, bind_iff, deref, pure_iff, bind_iff, get_iff]
    simp only
    rw [hroot, bind_iff, deref, pure_iff, bind_iff, onPhys_iff]
    refine (uvmfirst_spec (h2.space hroot) hu.sized hmiss0 (by decide)).mono
      ?_ fun e he => ⟨.inr (.inr he.1), .inr ?_⟩
    · rintro _ σ' ⟨hpos, hr⟩
      simp only [bind_iff, setProc_iff, get_iff, update_self]
      rw [htf, deref, pure_iff]
      simp only [setTrapframe, onPhys_iff, modify_iff, update_self, update_idem, Phys.put_put]
      generalize Bytes.putLE _ tfSp 8 PGSIZE = b
      have hstart : k.started (σ'.put tf b) np tf root = become { k1 with initproc := some np }
          (σ'.put tf b) np { k1.proc np with sz := PGSIZE, state := .runnable } := by
        subst hk1
        simp only [started, first, become, update_self, update_idem]
      refine ⟨σ'.put tf b, np, tf, root, hfirst, by rw [hstart, become, ← htf], ?_⟩
      rw [hstart]
      simp only at hpos hr
      by_cases h3 : 3 ≤ k1.phys.freelist.length
      · rw [if_pos h3] at hr
        rw [if_neg (by omega)]
        have hroom : σ'.freelist.length + 3 = k1.phys.freelist.length := hr.room
        obtain ⟨hI, hcode⟩ := h2.mapped_first hroot htf hr b
        refine ⟨hI, ?_, hcode⟩
        change σ'.freelist.length + 7 = _
        omega
      · rw [if_neg h3] at hr
        rw [if_pos (by omega)]
        exact h2.lost_first hroot htf hsz hr (by simp [htf]) b
    · have h0 : k1.phys.freelist.length = 0 := he.2
      omega

end Kernel

end Xv6

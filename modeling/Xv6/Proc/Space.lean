import Xv6.Vm.Copy

/-!
# Proc/Space — the address space of a process

A process maps its memory from 0 on, its trapframe at `TRAPFRAME` and the trampoline at `TRAMPOLINE`
(`UserSpace`).  `proc_pagetable` builds such a table, `proc_freepagetable` frees it.
-/

namespace Xv6

open Machinery Function

variable (im : Image)

/-! ## The code -/

/-- `proc_pagetable`, for a process with its trapframe at page `tf`. -/
def procPagetable (tf : ℕ) : Exec KPanic Phys (Option ℕ) := do
  match ← uvmcreate with
  | none => return none
  | some root =>
    if ← mappages root TRAMPOLINE PGSIZE im.trampoline (PTE_R ||| PTE_X) then
      if ← mappages root TRAPFRAME PGSIZE tf (PTE_R ||| PTE_W) then return some root
      else
        uvmunmap im root TRAMPOLINE 1 false
        uvmfree im root 0
        return none
    else
      uvmfree im root 0
      return none

def procFreepagetable (root sz : ℕ) : Exec KPanic Phys Unit := do
  uvmunmap im root TRAMPOLINE 1 false
  uvmunmap im root TRAPFRAME 1 false
  uvmfree im root sz

/-! ## Address spaces -/

/-- What a process maps from `USERTOP` on. -/
def upper (tf w : ℕ) : Option ℕ :=
  if w = USERTOP then some (mkPte tf (PTE_R ||| PTE_W))
  else if w = USERTOP + 1 then some (mkPte im.trampoline (PTE_R ||| PTE_X))
  else none

/-- The table at `root` maps `n` pages for the user, the trapframe at page `tf` and the trampoline. -/
structure UserSpace (m : ℕ → Page) (root tf n : ℕ) : Prop where
  proper : Radix.Proper 512 (nodes m) 2 root
  sized : Sized m root n
  le : n ≤ USERTOP
  upper : ∀ w, USERTOP ≤ w → w < 2 ^ 27 → leaf m root w = upper im tf w

variable {im} {root tf n : ℕ} {σ σ' : Phys} {rest : Multiset ℕ}

theorem TRAMPOLINE_eq : TRAMPOLINE = (USERTOP + 1) * PGSIZE := by
  rw [USERTOP_eq]
  unfold TRAMPOLINE MAXVA PGSIZE
  norm_num

theorem TRAPFRAME_eq : TRAPFRAME = USERTOP * PGSIZE := by
  rw [USERTOP_eq]
  unfold TRAPFRAME TRAMPOLINE MAXVA PGSIZE
  norm_num

theorem Image.trampoline_small (im : Image) : im.trampoline < 2 ^ 52 := by
  have h1 := im.trampoline_lt
  have h2 := im.etext_le
  have h3 := im.end_le
  unfold PHYSTOP KERNBASE at h3
  unfold PGSIZE at h1
  omega

namespace UserSpace

variable {m m' : ℕ → Page}

theorem congr (h : UserSpace im m root tf n) (hs : SameTable root m m') :
    UserSpace im m' root tf n where
  proper := hs.proper h.proper
  sized := h.sized.congr fun w _ => hs.leaf w
  le := h.le
  upper w hw hlt := by rw [hs.leaf, h.upper w hw hlt]

theorem guarded (h : UserSpace im m root tf n) : Guarded m root := by
  intro w hw hlt e he
  rw [h.upper w hw hlt, Xv6.upper] at he
  split at he
  · obtain rfl := Option.some.inj he
    have hm := mkPte_mod (n := tf) (by decide : PTE_R ||| PTE_W < 1024)
    have hv : PTE_R ||| PTE_W ||| 1 = 7 := by decide
    omega
  · split at he
    · obtain rfl := Option.some.inj he
      have hm := mkPte_mod (n := im.trampoline) (by decide : PTE_R ||| PTE_X < 1024)
      have hv : PTE_R ||| PTE_X ||| 1 = 11 := by decide
      omega
    · simp at he

theorem resize {lo n' : ℕ} (h : UserSpace im m root tf n)
    (hp : Radix.Proper 512 (nodes m') 2 root) (hout : SameOutside lo root m m')
    (hs : Sized m' root n') (hle : n' ≤ USERTOP) : UserSpace im m' root tf n' where
  proper := hp
  sized := hs
  le := hle
  upper w hw hlt := by rw [hout.leaf w hlt (.inr hw), h.upper w hw hlt]

end UserSpace

/-! ## Building and freeing one -/

theorem mapUpper_spec {v pn perm : ℕ} (hp : perm < 1024) (hr : perm / 2 % 2 = 1) (hv : USERTOP ≤ v)
    (hlt : v < 2 ^ 26) (hn : pn < 2 ^ 52) (h : Space im USERTOP root rest σ)
    (hfree : leaf σ.mem root v = none) :
    Ensures (mappages root (v * PGSIZE) PGSIZE pn perm) σ
      (fun r σ' => Kept USERTOP root σ σ' ∧ (∀ w < 2 ^ 27, leaf σ'.mem root w =
        if r = true ∧ w = v then some (mkPte pn perm) else leaf σ.mem root w) ∧
        PaidRange root v 1 σ σ' (r = true)) := by
  have htop := USERTOP_eq
  refine (mappages_one hp hr hlt hn h hfree).imp fun r σ' ⟨hb, hl, hpaid⟩ => ⟨hb.kept ?_, hl, hpaid⟩
  exact mapped_congr fun w hw => by rw [hl w (by omega), if_neg (by omega)]

theorem unmapUpper_spec {v : ℕ} (hv : USERTOP ≤ v) (hlt : v < 2 ^ 26)
    (h : Space im USERTOP root rest σ) (hmap : leaf σ.mem root v ≠ none) :
    Ensures (uvmunmap im root (v * PGSIZE) 1 false) σ
      (fun _ σ' => Kept USERTOP root σ σ' ∧ ∀ w < 2 ^ 27, leaf σ'.mem root w =
        if w = v then none else leaf σ.mem root w) := by
  have htop := USERTOP_eq
  rw [uvmunmap_eq (by omega)]
  refine (unmapLoop_keep 1 (by omega) h.tables fun i hi => ?_).imp fun _ σ' ⟨hb, hl⟩ => ?_
  · obtain rfl : i = 0 := by omega
    exact hmap
  · have hl' : ∀ w < 2 ^ 27, leaf σ'.mem root w = if w = v then none else leaf σ.mem root w :=
      fun w hw => by rw [hl w hw, without_one]
    exact ⟨hb.kept (mapped_congr fun w hw => by rw [hl' w (by omega), if_neg (by omega)]), hl'⟩

theorem uvmfree_empty (h : Space im USERTOP root rest σ)
    (hl : ∀ w < 2 ^ 27, leaf σ.mem root w = none) :
    Ensures (uvmfree im root 0) σ (fun _ σ' => Moved σ σ' (owned σ.mem USERTOP root) 0) := by
  have htop := USERTOP_eq
  have hz : npages 0 = 0 := by
    unfold npages PGSIZE
    norm_num
  refine uvmfree_spec h (by omega) (fun w hw => ?_) fun w _ hw => hl w hw
  rw [hl w (by omega), hz]
  simp

/-- **`proc_freepagetable` frees every page of an address space.** -/
theorem procFreepagetable_spec {sz : ℕ} (h : Space im USERTOP root rest σ)
    (hu : UserSpace im σ.mem root tf (npages sz)) :
    Ensures (procFreepagetable im root sz) σ (fun _ σ' => Moved σ σ' (owned σ.mem USERTOP root) 0) := by
  have htop := USERTOP_eq
  have hU : leaf σ.mem root USERTOP = upper im tf USERTOP := hu.upper _ le_rfl (by omega)
  have hT : leaf σ.mem root (USERTOP + 1) = upper im tf (USERTOP + 1) :=
    hu.upper _ (by omega) (by omega)
  rw [procFreepagetable, TRAMPOLINE_eq, TRAPFRAME_eq]
  refine (unmapUpper_spec (by omega) (by omega) h ?_).bind fun _ σ1 ⟨hk1, hl1⟩ => ?_
  · rw [hT]
    simp [upper]
  have h1 := h.of_kept hk1
  refine (unmapUpper_spec le_rfl (by omega) h1 ?_).bind fun _ σ2 ⟨hk2, hl2⟩ => ?_
  · rw [hl1 _ (by omega), if_neg (by omega), hU]
    simp [upper]
  have hl : ∀ w < 2 ^ 27, leaf σ2.mem root w =
      if w = USERTOP ∨ w = USERTOP + 1 then none else leaf σ.mem root w := fun w hw => by
    rw [hl2 w hw, hl1 w hw]
    split_ifs <;> simp_all
  have hs : Sized σ2.mem root (npages sz) := fun w hw => by
    rw [hl w (by omega), if_neg (by omega)]
    exact hu.sized w hw
  refine (uvmfree_spec (h1.of_kept hk2) hu.le hs fun w hw hlt => ?_).imp fun _ σ' hm =>
    (hk1.trans hk2).toMoved.trans hm
  rw [hl w hlt]
  by_cases hc : w = USERTOP ∨ w = USERTOP + 1
  · rw [if_pos hc]
  · rw [if_neg hc, hu.upper w hw hlt, upper, if_neg (by tauto), if_neg (by tauto)]

/-- **`proc_pagetable` builds an address space without user memory, or leaves everything free.** -/
theorem procPagetable_spec (htf : tf < 2 ^ 52) (h : Stock im rest σ) :
    Ensures (procPagetable im tf) σ
      (fun r σ' => match r with
        | none => Moved σ σ' 0 0 ∧ σ.freelist.length < 3
        | some root => (Moved σ σ' 0 (owned σ'.mem USERTOP root) ∧ UserSpace im σ'.mem root tf 0) ∧
          σ'.freelist.length + 3 = σ.freelist.length ∧
          missing σ'.mem 2 root = walked (walked (fun _ => 2) (USERTOP + 1)) USERTOP) := by
  have htop := USERTOP_eq
  rw [procPagetable]
  refine (uvmcreate_spec h USERTOP).bind fun r σ1 hr => ?_
  cases r with
  | none =>
    obtain ⟨rfl, hlen⟩ := hr
    exact .pure ⟨.refl _ 0, by omega⟩
  | some root =>
    obtain ⟨⟨hm, hp, hl⟩, hlen1, hmiss1⟩ := hr
    have h1 : Space im USERTOP root rest σ1 := by
      rw [← zero_add rest] at h
      exact (h.of_moved hm).space hp
    simp only
    rw [TRAMPOLINE_eq, TRAPFRAME_eq]
    refine (mapUpper_spec (by decide) (by decide) (by omega) (by omega) im.trampoline_small h1
      (hl _)).bind ?_
    rintro r σ2 ⟨hk2, hl2, hpaid2⟩
    have h2 := h1.of_kept hk2
    have hm2 := hm.trans hk2.toMoved
    simp only [hl] at hl2
    have hok2 := hpaid2.ok_iff
    have hlen2 := hpaid2.length
    have hmiss2 := hpaid2.after
    rw [hmiss1, mapCost, mapCost] at hok2 hlen2
    rw [hmiss1, mapMissing, mapMissing] at hmiss2
    cases r with
    | false =>
      rw [if_neg Bool.false_ne_true]
      refine (uvmfree_empty h2 fun w hw => ?_).bind fun _ σ' hf =>
        .pure ⟨hm2.trans hf, ?_⟩
      · rw [hl2 w hw, if_neg (by simp)]
      · simp only [Bool.false_eq_true, false_iff] at hok2
        omega
    | true =>
      rw [if_pos rfl]
      refine (mapUpper_spec (by decide) (by decide) le_rfl (by omega) htf h2 ?_).bind ?_
      · rw [hl2 _ (by omega), if_neg (by simp)]
      rintro r σ3 ⟨hk3, hl3, hpaid3⟩
      have h3 := h2.of_kept hk3
      have hm3 := hm2.trans hk3.toMoved
      -- the tables of the trampoline are those of the trapframe
      have hsame : walked (fun _ => 2) (USERTOP + 1) USERTOP = 0 := by
        rw [USERTOP_eq]
        decide
      have hok3 := hpaid3.ok_iff
      rw [hmiss2 rfl, mapCost, mapCost, hsame] at hok3
      cases r with
      | false =>
        simp at hok3
      | true =>
        rw [if_pos rfl]
        have hlen3 := hpaid3.length rfl
        rw [hmiss2 rfl, mapCost, mapCost, hsame] at hlen3
        have hlen2 := hlen2 rfl
        refine .pure ⟨⟨hm3, hk3.proper, fun w hw => ?_, zero_le, fun w hw hlt => ?_⟩,
          by omega, ?_⟩
        · rw [hl3 w (by omega), if_neg (by omega), hl2 w (by omega), if_neg (by omega)]
          simp
        · rw [hl3 w hlt, hl2 w hlt, upper]
          simp
        · rw [hpaid3.after rfl, hmiss2 rfl, mapMissing, mapMissing]

theorem freeOld_spec {old new sz : ℕ} {b : Page}
    (hst : Stock im ({tf} + (owned σ.mem USERTOP old + (owned σ.mem USERTOP new + rest))) σ)
    (hu : UserSpace im σ.mem old tf (npages sz)) :
    Ensures (procFreepagetable im old sz) (σ.put tf b)
      (fun _ σ' => Moved σ σ' ({tf} + owned σ.mem USERTOP old) {tf} ∧
        SameTable new σ.mem σ'.mem ∧ σ'.mem tf = b) := by
  have hst' := hst
  rw [add_left_comm (owned σ.mem USERTOP old)] at hst'
  have hold := hst.sameTable_put b
  have hnew := hst'.sameTable_put b
  have hput := hst.of_moved (Moved.put σ tf b)
  rw [← hold.owned, ← hnew.owned] at hput
  have hput' := hput
  rw [add_left_comm] at hput'
  have hspace := hput'.space (hold.proper hu.proper)
  refine (procFreepagetable_spec hspace (hu.congr hold)).imp fun _ σ' hm => ⟨?_, ?_, ?_⟩
  · have hm2 := hm.add_rest {tf}
    rw [zero_add, hold.owned, add_comm] at hm2
    exact ((Moved.put σ tf b).add_rest _).trans hm2
  · refine hnew.trans (hm.sameTable (r := {tf} + (owned (σ.put tf b).mem USERTOP new + rest)) ?_ ?_)
    · rw [add_assoc]
      exact hput'.nodup
    · rw [owned, add_assoc, add_left_comm]
      exact Multiset.le_add_right _ _
  · have hrest : tf ∈ {tf} + (owned (σ.put tf b).mem USERTOP new + rest) := by simp
    rw [hm.frame tf (hspace.notMem_free (Multiset.mem_add.2 (.inr hrest))) (hspace.notMem_owned hrest)]
    exact update_self _ _ _

end Xv6

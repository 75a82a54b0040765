import Xv6.Proc.Exact

/-!
# Proc/Wrap — the pid counter comes round

Every `allocproc` increments `nextpid`, also for a `fork` that then finds no memory.  Here the first
process grows until a copy of it does not fit, spends pids until the next one is -1, and gives its
memory back.
-/

namespace Xv6

open Machinery Function Option Radix

theorem missing_eq_zero {m : ℕ → Page} {root v w : ℕ} (h : leaf m root v ≠ none)
    (hw : apart 512 2 v w = 0) : missing m 2 root w = 0 := by
  refine Nat.le_zero.1 (hw ▸ missing_le_apart (fun hb => h ?_) w)
  rw [leaf, find_eq_bottom, hb, bind_none]

theorem apart_zero {w : ℕ} (hw : w < 512) : apart 512 2 0 w = 0 := by
  have h2 : digit 512 2 0 = digit 512 2 w := by
    unfold digit
    omega
  have h1 : digit 512 1 0 = digit 512 1 w := by
    unfold digit
    omega
  rw [apart, if_pos h2, apart, if_pos h1, apart]

namespace Kernel

variable {k k' : Kernel} {n tf root : ℕ} {pid : ℤ}

/-- A kernel in which the first process runs, alone, with `n` pages; `pid` is the next pid. -/
structure Alone (n : ℕ) (pid : ℤ) (tf root : ℕ) (k : Kernel) : Prop where
  inv : Inv roomyImage k
  proc : k.proc = update (fun _ => procinit) initSlot { initRunning tf root with sz := n * PGSIZE }
  nextpid : k.nextpid = pid
  room : k.phys.freelist.length + n = 855
  code : userPage k.phys.mem root 0 ≠ none

theorem InitRuns.alone (h : InitRuns tf root k) : Alone 1 2 tf root k :=
  ⟨h.inv, h.proc.trans (by rw [one_mul]; rfl), h.nextpid, by rw [h.room], h.code⟩

namespace Alone

variable (h : Alone n pid tf root k)
include h

theorem proc_init : k.proc initSlot = { initRunning tf root with sz := n * PGSIZE } := by
  rw [h.proc, update_self]

theorem inUser : k.InUser initSlot := by
  rw [InUser, h.proc_init]
  exact ⟨rfl, rfl⟩

theorem pagetable : (k.proc initSlot).pagetable = some root := by
  rw [h.proc_init]
  rfl

theorem sz : (k.proc initSlot).sz = n * PGSIZE := by rw [h.proc_init]

theorem hasCode : k.HasCode initSlot := ⟨root, 0, h.pagetable, h.code⟩

theorem firstUnused : k.firstUnused = some secondSlot := by
  rw [Kernel.firstUnused, h.proc]
  rfl

theorem step (hk : (live roomyImage).Reachable k) (op : Op) {r : Option ℤ}
    (hop : op.caller = some initSlot) (he : k.Enabled op) (ha : k.Affords op)
    (hrun : perform roomyImage op k = .ok (r, k')) : (live roomyImage).Reachable k' ∧ Inv roomyImage k' :=
  reachable_perform op (fun _ hp => some.inj (hop.symm.trans hp) ▸ h.hasCode) hk h.inv he ha hrun

theorem sbrk (hk : (live roomyImage).Reachable k) {n' : ℕ} (hn : 1 ≤ n)
    (hn' : 1 ≤ n') (htop : n' ≤ 512) : ∃ k', (live roomyImage).Reachable k' ∧ Alone n' pid tf root k' := by
  have hz : ∀ j, npages (j * PGSIZE) = j := npages_mul
  have hgrown : grown (n * PGSIZE) ((n' : ℤ) * PGSIZE - n * PGSIZE) = n' * PGSIZE := by
    have hlen := h.room
    rw [grown]
    unfold PGSIZE
    split_ifs <;> omega
  obtain ⟨ptf, -, hu⟩ := (h.inv.procs initSlot).space root h.pagetable
  rw [h.sz, hz] at hu
  have hpages : growPages k.phys.mem root n n' = n' - n := by
    have hleaf := (hu.sized 0 (by rw [USERTOP_eq]; norm_num)).2 hn
    rw [growPages, mapCost_eq_zero fun w _ hw => missing_eq_zero hleaf (apart_zero (by omega)), add_zero]
  obtain ⟨ok, k', hrun, σ, sz, hout⟩ :=
    (growproc_spec h.inv h.pagetable ((n' : ℤ) * PGSIZE - n * PGSIZE)).exists_ok
  rw [h.sz, hgrown, hz, hz, hpages] at hout
  obtain ⟨rfl, hg, rfl, rfl⟩ | ⟨-, -, -, -, hpos, -, -, h0 | hshort⟩ := hout
  · have hpaid := hg.paid
    have hkept := hg.kept
    have hroom := h.room
    rw [hz, hz, hpages] at hpaid
    rw [hz, hz] at hkept
    have hperform : perform roomyImage (.sbrk initSlot ((n' : ℤ) * PGSIZE - n * PGSIZE)) k =
        .ok (some ((k.proc initSlot).sz : ℤ), k.become σ initSlot
          { k.proc initSlot with sz := n' * PGSIZE }) := by
      rw [perform, Exec.bind_ok (Exec.get_run _)]
      simp only
      rw [Exec.bind_ok hrun]
      rfl
    obtain ⟨hk', hI'⟩ := h.step hk (.sbrk initSlot _) rfl h.inUser trivial hperform
    refine ⟨_, hk', hI', ?_, h.nextpid, ?_, ?_⟩
    · simp only [become, h.proc_init, h.proc, update_idem]
    · change σ.freelist.length + n' = 855
      omega
    · change userPage σ.mem root 0 ≠ none
      rw [userPage, hkept.leaf (0 / PGSIZE) (by decide) (.inl (by rw [Nat.zero_div]; omega)), ← userPage]
      exact h.code
  · unfold PGSIZE at h0
    omega
  · have hroom := h.room
    unfold PGSIZE at hpos
    omega

theorem fork (hk : (live roomyImage).Reachable k) (hn : 428 ≤ n) :
    ∃ k', (live roomyImage).Reachable k' ∧ Alone n ((pid + 1).bmod (2 ^ 32)) tf root k' := by
  have hrun : (k.proc initSlot).state ≠ .unused := by
    rw [h.proc_init]
    rintro ⟨⟩
  have htf : (k.proc initSlot).trapframe = some tf := by
    rw [h.proc_init]
    rfl
  have hfits : ¬ k.ForkFits initSlot := by
    rintro ⟨-, hle⟩
    have hroom := h.room
    rw [h.sz, npages_mul, forkPages] at hle
    omega
  have hfiles : ∀ fd f, (k.proc initSlot).ofile fd ≠ some f := fun fd f => by
    rw [h.proc_init]
    rintro ⟨⟩
  obtain ⟨r, k', hok, -, hfail, -⟩ := (fork_spec h.inv hrun h.pagetable htf).exists_ok (by
    rintro e ⟨-, fd, f, hf, -⟩
    exact hfiles fd f hf)
  obtain ⟨rfl, ⟨hfull, -⟩ | ⟨np, σ, hfirst, hm, rfl⟩⟩ := hfail hfits
  · exact absurd (hfull.symm.trans h.firstUnused) (by simp)
  · obtain rfl := some.inj (h.firstUnused.symm.trans hfirst)
    have hperform : perform roomyImage (.fork initSlot) k = .ok (some (-1), _) := Exec.bind_ok hok
    have hsecond : k.proc secondSlot = procinit := by
      rw [h.proc]
      rfl
    obtain ⟨hk', hI'⟩ := h.step hk (.fork initSlot) rfl h.inUser trivial hperform
    refine ⟨_, hk', hI', ?_, ?_, ?_, ?_⟩
    · have hfreed : freed (k.proc secondSlot) = k.proc secondSlot := by
        rw [hsecond]
        rfl
      change update k.proc secondSlot (freed (k.proc secondSlot)) = _
      rw [hfreed, update_eq_self, h.proc]
    · simp only [h.nextpid]
    · have hacc := congrArg Multiset.card hm.account
      simp only [add_zero, Multiset.coe_card] at hacc
      simp only [hacc, h.room]
    · have hsame : SameTable root k.phys.mem σ.mem := sameTable_of_eq fun x hx =>
        h.inv.untouched hm (mem_held (p := initSlot) (Multiset.mem_of_le (tabs_le_procPages _ h.pagetable) hx))
      simp only [userPage_congr hsame]
      exact h.code

end Alone

/-- **The first process comes to run alone with any number for the next pid.** -/
theorem exists_alone (j : ℕ) : ∃ k tf root, (live roomyImage).Reachable k ∧
    Alone 1 ((2 + j : ℤ).bmod (2 ^ 32)) tf root k := by
  obtain ⟨k0, tf, root, hk0, hi⟩ := exists_initRuns lenient_live
  have hspend : ∃ k, (live roomyImage).Reachable k ∧ Alone 500 ((2 + j : ℤ).bmod (2 ^ 32)) tf root k := by
    induction j with
    | zero => exact hi.alone.sbrk hk0 le_rfl (by norm_num) (by norm_num)
    | succ j ih =>
      obtain ⟨k, hk, ha⟩ := ih
      obtain ⟨k', hk', ha'⟩ := ha.fork hk (by norm_num)
      rw [Int.bmod_add_bmod, add_assoc, ← Nat.cast_succ] at ha'
      exact ⟨k', hk', ha'⟩
  obtain ⟨k, hk, ha⟩ := hspend
  obtain ⟨k', hk', ha'⟩ := ha.sbrk hk (by norm_num) (le_refl 1) (by norm_num)
  exact ⟨k', tf, root, hk', ha'⟩

end Kernel

end Xv6

import Xv6.Proc.Live

/-!
# Proc/Room — page ownership and address spaces, in every run

The kernel has taken 139 pages when it comes to `userinit` (`Early`), and `userinit` takes 7.  So if
the linker leaves 146, its `uvmfirst` has a page for the table of `initcode` and the account of pages
never goes wrong: every page that `kinit` freed is free or has one owner, every process has the
address space its size says, and the kernel does not panic over its tables.
-/

namespace Xv6

open Machinery Function Option

namespace Kernel

variable {im : Image} {k : Kernel} {n root tf : ℕ}

/-! ## An image with room -/

/-- **With 146 pages `userinit` finds memory.** -/
theorem Early.affords (h : Early im k) (hroom : 146 ≤ (freerange im).length) {op : Op} (he : k.Enabled op) :
    k.Affords op := by
  cases op with
  | userinit =>
    obtain ⟨-, hord, hlen⟩ := h he.2
    rw [if_neg (hord he.1), if_neg he.1] at hlen
    constructor <;> omega
  | _ => trivial

/-- **…so every run is one of those that keep the account.** -/
theorem bootable_of_reachable (hroom : 146 ≤ (freerange im).length) (h : (system im).Reachable k) :
    (bootable im).Reachable k := by
  refine (h.invariant (I := fun k => (bootable im).Reachable k ∧ Early im k) (fun k hk => ?_)
    fun k l k' _ hk hst => ?_).1
  · obtain ⟨mem, rfl⟩ := hk
    exact ⟨.init ⟨mem, rfl⟩, early_kinit im mem⟩
  · obtain ⟨hk, he⟩ := hk
    exact ⟨hk.step (l := l) ⟨he.affords hroom hst.1, hst⟩, he.step (Inv.of_reachable hk) hst⟩

/-- Where the linker put this kernel, by `kernel.sym`. -/
def kernelImage : Image where
  etext := 0x80008000
  endAddr := 0x80022f70
  trampoline := 0x80007
  etext_ge := by decide
  etext_le := by decide
  end_le := by decide
  etext_aligned := by decide
  trampoline_lt := by decide

theorem kernelImage_room : 146 ≤ (freerange kernelImage).length := by
  rw [length_freerange]
  decide

theorem exists_kernel_userinit : ∃ k k', (system kernelImage).Reachable k ∧
    (system kernelImage).step k (.userinit, none) k' := by
  obtain ⟨k, k', hk, -, hst, -⟩ := exists_userinit kernelImage lenient_affords
    (kernelImage_room.trans' (by norm_num))
  exact ⟨k, k', hk.of_restrict, hst⟩

/-! ## Page ownership -/

/-- Every page that `kinit` freed is free or has an owner, once, and no `kfree` or `kalloc` went
wrong. -/
def Owned (im : Image) (k : Kernel) : Prop :=
  (∀ n, InPool im n → k.phys.freelist.count n + k.held.count n = 1) ∧ k.phys.sound = true

theorem Inv.owned (h : Inv im k) : Owned im k := by
  refine ⟨fun n hn => ?_, h.sound⟩
  rw [← Multiset.coe_count, ← Multiset.count_add, h.pages, Multiset.coe_count]
  exact List.count_eq_one_of_mem (nodup_freerange im) (mem_freerange.2 hn)

/-- **Every page is free or has one owner, in every run of an image with room.** -/
theorem page_ownership (im : Image) (hroom : 146 ≤ (freerange im).length) :
    ∀ k, (system im).Reachable k → Owned im k := fun _ hk =>
  (Inv.of_reachable (bootable_of_reachable hroom hk)).owned

/-- This kernel has the room, and its first process holds its pages. -/
theorem page_ownership_kernel : 146 ≤ (freerange kernelImage).length ∧
    ∃ k k', (system kernelImage).Reachable k ∧ (system kernelImage).step k (.userinit, none) k' ∧
      Owned kernelImage k ∧ Owned kernelImage k' := by
  obtain ⟨k, k', hk, hst⟩ := exists_kernel_userinit
  exact ⟨kernelImage_room, k, k', hk, hst, page_ownership kernelImage kernelImage_room k hk,
    page_ownership kernelImage kernelImage_room k' (hk.step (l := (.userinit, none)) hst)⟩

/-! ## Address spaces -/

/-- The table at `root` maps `[0, PGROUNDUP(sz))`, and the trapframe and the trampoline, which the
user cannot reach. -/
structure SpaceOf (m : ℕ → Page) (root tf sz : ℕ) : Prop where
  leaf : ∀ v < MAXVA / PGSIZE, leaf m root v ≠ none ↔
    v * PGSIZE < pgRoundUp sz ∨ v * PGSIZE = TRAPFRAME ∨ v * PGSIZE = TRAMPOLINE
  trapframe : ∃ e, Xv6.leaf m root (TRAPFRAME / PGSIZE) = some e ∧ pte2page e = tf ∧
    e / PTE_U % 2 = 0
  trampoline : ∃ e, Xv6.leaf m root (TRAMPOLINE / PGSIZE) = some e ∧ e / PTE_U % 2 = 0
  sz_lt : sz < TRAPFRAME

/-- Every process has the address space its size says. -/
def Spaces (k : Kernel) : Prop := ∀ p, (k.proc p).state ≠ .unused → (k.proc p).state ≠ .used →
  ∃ root tf, (k.proc p).pagetable = some root ∧ (k.proc p).trapframe = some tf ∧
    SpaceOf k.phys.mem root tf (k.proc p).sz

/-- The panics of `uvmunmap`, `freewalk`, `mappages`, `uvmcopy` and `loadseg`. -/
def spacePanics : List KPanic :=
  [.uvmunmapNotAligned, .uvmunmapWalk, .uvmunmapNotMapped, .uvmunmapNotALeaf, .freewalkLeaf,
    .freewalkDeep, .mappagesSize, .mappagesRemap, .uvmcopyPteShouldExist, .uvmcopyPageNotPresent,
    .loadsegAddress]

/-- No step panics over page tables. -/
def Quiet (im : Image) (k : Kernel) : Prop := ∀ op e, k.Enabled op →
  perform im op k = .error (.mem e) → e ∉ spacePanics

theorem spaceOf_userSpace {m : ℕ → Page} {sz : ℕ} (h : UserSpace im m root tf (npages sz))
    (htf : tf < 2 ^ 52) (hle : npages sz ≤ 2 ^ 15) : SpaceOf m root tf sz := by
  have htop := USERTOP_eq
  have hmax : MAXVA / PGSIZE = 2 ^ 26 := by decide
  have hdiv : ∀ v, v * PGSIZE / PGSIZE = v := fun v =>
    Nat.mul_div_cancel v PGSIZE_pos
  have hU : leaf m root USERTOP = some (mkPte tf (PTE_R ||| PTE_W)) := by
    rw [h.upper _ le_rfl (by omega), upper, if_pos rfl]
  have hT : leaf m root (USERTOP + 1) = some (mkPte im.trampoline (PTE_R ||| PTE_X)) := by
    rw [h.upper _ (by omega) (by omega), upper, if_neg (by omega), if_pos rfl]
  refine ⟨fun v hv => ?_, ?_, ?_, ?_⟩
  · rw [pgRoundUp_eq h.le, TRAPFRAME_eq, TRAMPOLINE_eq]
    rw [hmax] at hv
    have hmul : ∀ w, v * PGSIZE = w * PGSIZE ↔ v = w := fun w =>
      Nat.mul_left_inj PGSIZE_pos.ne'
    rw [hmul, hmul, Nat.mul_lt_mul_right PGSIZE_pos]
    by_cases hlt : v < USERTOP
    · rw [h.sized v hlt]
      omega
    · have hcases : v = USERTOP ∨ v = USERTOP + 1 := by omega
      refine iff_of_true ?_ (.inr hcases)
      rcases hcases with rfl | rfl
      · rw [hU]
        rintro ⟨⟩
      · rw [hT]
        rintro ⟨⟩
  · refine ⟨_, by rw [TRAPFRAME_eq, hdiv, hU], pte2page_mkPte (by decide) htf, ?_⟩
    exact mkPte_user (by decide) (by decide)
  · refine ⟨_, by rw [TRAMPOLINE_eq, hdiv, hT], ?_⟩
    exact mkPte_user (by decide) (by decide)
  · rw [TRAPFRAME_eq]
    unfold npages at hle
    unfold PGSIZE at *
    omega

theorem Inv.spaces (h : Inv im k) (ht : Tidy False k) : Spaces k := fun p h1 h2 => by
  obtain ⟨root, hr⟩ := ne_none_iff_exists'.1 ((ht p).live h1 h2).1
  obtain ⟨tf, htf, hu⟩ := (h.procs p).space root hr
  have hsp := h.space hr
  have hpool : InPool im tf := hsp.pool tf (by simp [htf])
  have hle := hsp.sized_le hu.sized hu.le
  exact ⟨root, tf, hr, htf, spaceOf_userSpace hu hpool.lt (by omega)⟩

theorem perform_expected (h : Inv im k) {op : Op} (he : k.Enabled op) {e : Panic}
    (hr : perform im op k = .error e) : e.Expected := by
  by_cases ha : k.Affords op
  · exact (perform_keeps h he ha).of_error hr
  · cases op with
    | userinit => exact (((userinit_spec h).map fun _ => (none : Option ℤ)).of_error hr).1
    | _ => exact absurd trivial ha

theorem Inv.quiet (h : Inv im k) : Quiet im k := fun op e he hr hmem => by
  rcases perform_expected h he hr with rfl | rfl | rfl <;> exact absurd hmem (by decide)

theorem tidy_of_reachable (h : (system im).Reachable k) : Tidy False k := by
  refine h.invariant (fun k hk => ?_) fun k l k' _ hI hst => ?_
  · obtain ⟨mem, rfl⟩ := hk
    exact tidy_kinit False im mem
  · exact (perform_tidies hI hst.1 nofun).of_ok hst.2

/-- **Every process has the address space its size says, and no step panics over one, in every run of
an image with room.** -/
theorem address_spaces (im : Image) (hroom : 146 ≤ (freerange im).length) :
    ∀ k, (system im).Reachable k → Spaces k ∧ Quiet im k := fun _ hk => by
  have hI := Inv.of_reachable (bootable_of_reachable hroom hk)
  exact ⟨hI.spaces (tidy_of_reachable hk), hI.quiet⟩

/-- The first process of this kernel has its page. -/
theorem address_spaces_kernel : 146 ≤ (freerange kernelImage).length ∧
    ∃ k k', (system kernelImage).Reachable k ∧ (system kernelImage).step k (.userinit, none) k' ∧
      (Spaces k' ∧ Quiet kernelImage k') ∧ ∃ p, (k'.proc p).state = .runnable ∧ (k'.proc p).sz = PGSIZE := by
  obtain ⟨k, k', hk, hst⟩ := exists_kernel_userinit
  have hI := Inv.of_reachable (bootable_of_reachable kernelImage_room hk)
  refine ⟨kernelImage_room, k, k', hk, hst,
    address_spaces kernelImage kernelImage_room k' (hk.step (l := (.userinit, none)) hst), ?_⟩
  obtain ⟨σ, np, tf, root, -, rfl, -⟩ := userinit_step hI hst
  refine ⟨np, ?_, ?_⟩ <;> rw [started_proc_self] <;> rfl

end Kernel

end Xv6

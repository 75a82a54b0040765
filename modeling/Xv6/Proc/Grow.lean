import Xv6.Proc.Wait

/-!
# Proc/Grow — what `growproc` reports and what it does

`growproc(n)` adds an `int` to a `uint64`.  As long as the sum is not negative, the result says what
happened.  A sum below 0 wraps to a size that `uvmdealloc` takes for no request at all, and
`growproc` reports success.
-/

namespace Xv6

open Machinery Function

/-- The page table at `root` maps what it mapped, and its user pages hold what they held. -/
structure SameUser (root : ℕ) (m m' : ℕ → Page) : Prop where
  leaf : ∀ w < 2 ^ 27, leaf m' root w = leaf m root w
  content : SameContent root m m'

theorem SameOutside.sameUser {root n : ℕ} {m m' : ℕ → Page} (h : SameOutside n root m m')
    (hs : Sized m root n) (hs' : Sized m' root n) : SameUser root m m' := by
  refine ⟨fun w hw => ?_, fun w hw e he => h.content w hw ?_ e he⟩
  · by_cases hcase : w < n ∨ USERTOP ≤ w
    · exact h.leaf w hw hcase
    · rw [hs.leaf_eq_none (by omega) (by omega), hs'.leaf_eq_none (by omega) (by omega)]
  · by_contra hn
    rw [hs.leaf_eq_none hw (by omega)] at he
    exact nomatch he

namespace Kernel

variable {im : Image} {k : Kernel} {p : Slot} {root : ℕ} {n : ℤ}

/-- `growproc(n)` returned 0 (`ok`) or -1, and this is what it did. -/
def GrowReports (im : Image) (root : ℕ) (p : Slot) (n : ℤ) (k : Kernel) (ok : Bool) (k' : Kernel) : Prop :=
  if ok then ((k'.proc p).sz : ℤ) = (k.proc p).sz + n ∧
      Resized im root (k.proc p).sz (k'.proc p).sz k.phys.mem k'.phys.mem
  else (k'.proc p).sz = (k.proc p).sz ∧ SameUser root k.phys.mem k'.phys.mem

theorem grown_of_nonneg {sz : ℕ} (hsz : npages sz ≤ USERTOP) (h0 : 0 ≤ sz + n) (hn : n < 2 ^ 31) :
    (grown sz n : ℤ) = sz + n := by
  have htop := USERTOP_eq
  unfold npages PGSIZE at hsz
  rw [grown]
  split_ifs <;> omega

theorem grown_of_neg {sz : ℕ} (h0 : sz + n < 0) (hn : -2 ^ 31 ≤ n) : grown sz n = sz := by
  rw [grown]
  split_ifs <;> omega

/-- **A sum that is not negative is the new size.** -/
theorem growproc_reports (h : Inv im k) (hr : (k.proc p).pagetable = some root)
    (hn : n < 2 ^ 31) (h0 : 0 ≤ (k.proc p).sz + n) :
    Ensures (growproc im p n) k (GrowReports im root p n k) := by
  obtain ⟨tf, -, hu⟩ := (h.procs p).space root hr
  refine (growproc_spec h hr n).imp ?_
  rintro ok k' ⟨σ, sz, ⟨rfl, hg, hsz, rfl⟩ | ⟨rfl, -, hout, hs, -, rfl, -⟩⟩
  · rw [GrowReports, if_pos rfl]
    simp only [become, update_self]
    exact ⟨by rw [hsz]; exact grown_of_nonneg hu.le h0 hn, hg.toResized⟩
  · exact ⟨rfl, hout.sameUser hu.sized hs⟩

/-- **A negative sum wraps, and the request is reported as done.** -/
theorem growproc_wraps (h : Inv im k) (hr : (k.proc p).pagetable = some root)
    (hn : -2 ^ 31 ≤ n) (h0 : (k.proc p).sz + n < 0) :
    Ensures (growproc im p n) k (fun ok k' => ok = true ∧ (k'.proc p).sz = (k.proc p).sz) := by
  refine (growproc_spec h hr n).imp ?_
  rintro ok k' ⟨σ, sz, ⟨rfl, -, hsz, rfl⟩ | ⟨-, -, -, -, hpos, -⟩⟩
  · simp only [become, update_self, true_and]
    exact hsz.trans (grown_of_neg h0 hn)
  · omega

/-- **`growproc` does what it reports exactly if the size plus `n` is not negative.** -/
theorem growproc_reports_iff (im : Image) (k : Kernel) (h : Inv im k) (p : Slot) (root : ℕ)
    (hr : (k.proc p).pagetable = some root) (n : BitVec 32) :
    Ensures (growproc im p n.toInt) k (GrowReports im root p n.toInt k) (fun _ => False) ↔
      0 ≤ (k.proc p).sz + n.toInt := by
  refine ⟨fun hg => ?_, growproc_reports h hr BitVec.toInt_lt⟩
  by_contra h0
  obtain ⟨ok, k', hrun, hok, hsz⟩ :=
    (growproc_wraps h hr (BitVec.le_toInt n) (not_le.1 h0)).exists_ok
  have hrep := hg.of_ok hrun
  rw [GrowReports, hok, if_pos rfl, hsz] at hrep
  omega

/-- The first process grows by a page. -/
theorem growproc_reports_init : ∃ k root, (system roomyImage).Reachable k ∧
    (k.proc initSlot).pagetable = some root ∧
    Ensures (growproc roomyImage initSlot (BitVec.toInt 4096#32)) k
      (GrowReports roomyImage root initSlot (BitVec.toInt 4096#32) k) := by
  obtain ⟨k, tf, root, hk, hi⟩ := exists_initRuns lenient_affords
  exact ⟨k, root, hk.of_restrict, hi.pagetable, (growproc_reports_iff _ k hi.inv _ root hi.pagetable _).2 (by
    rw [hi.sz]
    decide)⟩

/-- `sbrk(-8192)` by a process of one page returns its size, and the size stays. -/
theorem growproc_minus_two_pages : ∃ k k' root, (system roomyImage).Reachable k ∧
    (system roomyImage).step k (.sbrk initSlot (-8192), some PGSIZE) k' ∧
    growproc roomyImage initSlot (-8192) k = .ok (true, k') ∧
    ¬ GrowReports roomyImage root initSlot (-8192) k true k' := by
  obtain ⟨k, tf, root, hk, hi⟩ := exists_initRuns lenient_affords
  obtain ⟨ok, k', hrun, rfl, hsz'⟩ := (growproc_wraps hi.inv hi.pagetable (n := -8192) (by norm_num)
    (by rw [hi.sz]; decide)).exists_ok
  refine ⟨k, k', root, hk.of_restrict, ⟨hi.inUser, ?_⟩, hrun, fun hrep => ?_⟩
  · change perform _ (.sbrk initSlot (-8192)) k = _
    rw [perform, Exec.bind_ok (Exec.get_run _)]
    simp only
    rw [Exec.bind_ok hrun, hi.sz]
    rfl
  · rw [GrowReports, if_pos rfl, hsz'] at hrep
    omega

end Kernel

end Xv6

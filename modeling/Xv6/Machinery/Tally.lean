import Mathlib.Algebra.BigOperators.Ring.Finset
import Mathlib.Algebra.Order.BigOperators.Group.Finset
import Mathlib.Data.Fintype.BigOperators

/-!
# Machinery/Tally — adding up a quantity over a family of threads

A step that changes one member of `g` changes `tally f g` by the difference at that member
(`tally_update`).
-/

namespace Machinery

open Function Finset

variable {ι α : Type} [Fintype ι]

/-- The sum of `f` over all members of `g`. -/
def tally (f : α → ℕ) (g : ι → α) : ℕ := ∑ q, f (g q)

variable {f : α → ℕ}

theorem tally_congr {g h : ι → α} (hf : ∀ q, f (g q) = f (h q)) : tally f g = tally f h :=
  sum_congr rfl fun q _ => hf q

theorem le_tally (f : α → ℕ) (g : ι → α) (p : ι) : f (g p) ≤ tally f g :=
  single_le_sum (f := fun q => f (g q)) (fun _ _ => zero_le) (mem_univ p)

theorem tally_eq_zero {g : ι → α} (h : ∀ q, f (g q) = 0) : tally f g = 0 :=
  sum_eq_zero fun q _ => h q

theorem exists_of_tally_pos {g : ι → α} (h : 0 < tally f g) : ∃ p, 0 < f (g p) := by
  by_contra hn
  have hz : tally f g = 0 := tally_eq_zero fun q => Nat.eq_zero_of_not_pos (hn ⟨q, ·⟩)
  omega

theorem tally_mono {f' : α → ℕ} (h : ∀ a, f a ≤ f' a) (g : ι → α) : tally f g ≤ tally f' g :=
  sum_le_sum fun q _ => h (g q)

theorem tally_mul (k : ℕ) (f : α → ℕ) (g : ι → α) : tally (fun a => k * f a) g = k * tally f g :=
  (mul_sum _ _ _).symm

variable [DecidableEq ι]

/-- **A step of one thread changes a tally by the difference at that thread.** -/
theorem tally_update (f : α → ℕ) (g : ι → α) (p : ι) (a : α) :
    tally f (update g p a) + f (g p) = tally f g + f a := by
  have hu : tally f (update g p a) = f a + ∑ q ∈ Finset.univ.erase p, f (g q) := by
    rw [tally, ← add_sum_erase _ _ (mem_univ p), update_self]
    refine congrArg (f a + ·) (sum_congr rfl fun q hq => ?_)
    rw [update_of_ne (ne_of_mem_erase hq)]
  have hg : tally f g = f (g p) + ∑ q ∈ Finset.univ.erase p, f (g q) :=
    (add_sum_erase _ _ (mem_univ p)).symm
  omega

/-- Two different members count separately. -/
theorem add_le_tally (f : α → ℕ) (g : ι → α) {p q : ι} (h : p ≠ q) :
    f (g p) + f (g q) ≤ tally f g := by
  rw [tally, ← add_sum_erase _ _ (mem_univ p)]
  refine Nat.add_le_add_left ?_ _
  exact single_le_sum (f := fun q => f (g q)) (fun _ _ => zero_le)
    (mem_erase.2 ⟨h.symm, mem_univ q⟩)

end Machinery

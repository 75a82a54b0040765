import Xv6.Vm.Map
import Mathlib.Order.Interval.Finset.Nat

/-!
# Vm/Cost — how many tables a page table takes

A page table that reaches the pages `W` has a root, a table for every gigabyte that `W` meets and
one for every two megabytes: `spread W` of them.  `absent W` is what a `walk` then finds missing.
-/

namespace Xv6

open Machinery Finset Radix

/-- The gigabytes that `W` meets. -/
def gigas (W : Finset ℕ) : Finset ℕ := W.image (Radix.digit 512 2)

/-- The stretches of two megabytes that `W` meets. -/
def megas (W : Finset ℕ) : Finset (ℕ × ℕ) :=
  W.image fun w => (Radix.digit 512 2 w, Radix.digit 512 1 w)

/-- The number of tables below the root of a page table that reaches `W`. -/
def spread (W : Finset ℕ) : ℕ := (gigas W).card + (megas W).card

/-- The tables missing on the way to `w` in a page table that reaches `W`. -/
def absent (W : Finset ℕ) (w : ℕ) : ℕ :=
  (if Radix.digit 512 2 w ∈ gigas W then 0 else 1) +
    if (Radix.digit 512 2 w, Radix.digit 512 1 w) ∈ megas W then 0 else 1

variable {W W' : Finset ℕ} {v w : ℕ}

variable {a b g : ℕ}

theorem fst_mem_gigas (h : (a, b) ∈ megas W) : a ∈ gigas W := by
  obtain ⟨w, hw, he⟩ := mem_image.1 h
  exact mem_image.2 ⟨w, hw, congrArg Prod.fst he⟩

theorem spread_insert (v : ℕ) (W : Finset ℕ) : spread (insert v W) = absent W v + spread W := by
  rw [spread, spread, absent, gigas, megas, image_insert, image_insert,
    card_insert_eq_ite, card_insert_eq_ite, ← gigas, ← megas]
  split_ifs <;> omega

theorem spread_mono (h : W ⊆ W') : spread W ≤ spread W' :=
  add_le_add (card_le_card (image_subset_image h))
    (card_le_card (image_subset_image h))

theorem walked_absent (W : Finset ℕ) (v : ℕ) : walked (absent W) v = absent (insert v W) := by
  funext w
  have hg : digit 512 2 w ∈ gigas (insert v W) ↔
      digit 512 2 v = digit 512 2 w ∨ digit 512 2 w ∈ gigas W := by
    rw [gigas, image_insert, mem_insert, ← gigas, eq_comm]
  have hm : (digit 512 2 w, digit 512 1 w) ∈ megas (insert v W) ↔
      (digit 512 2 v = digit 512 2 w ∧ digit 512 1 v = digit 512 1 w) ∨
        (digit 512 2 w, digit 512 1 w) ∈ megas W := by
    rw [megas, image_insert, mem_insert, ← megas, eq_comm, Prod.mk.injEq]
  have hgm := fst_mem_gigas (W := W) (a := digit 512 2 w) (b := digit 512 1 w)
  simp only [walked, absent, apart, hg, hm]
  by_cases h2 : digit 512 2 v = digit 512 2 w <;>
    by_cases h1 : digit 512 1 v = digit 512 1 w <;>
      by_cases hW : digit 512 2 w ∈ gigas W <;>
        by_cases hW' : (digit 512 2 w, digit 512 1 w) ∈ megas W <;>
          simp_all

theorem insert_union_Ico (W : Finset ℕ) (v k : ℕ) :
    insert v W ∪ Finset.Ico (v + 1) (v + 1 + k) = W ∪ Finset.Ico v (v + (k + 1)) := by
  ext w
  have hw : (w = v ∨ v + 1 ≤ w ∧ w < v + 1 + k) ↔ v ≤ w ∧ w < v + (k + 1) := by omega
  rw [mem_union, mem_insert, mem_Ico, mem_union, mem_Ico, ← hw]
  tauto

theorem mapMissing_absent (W : Finset ℕ) (v k : ℕ) :
    mapMissing (absent W) v k = absent (W ∪ Finset.Ico v (v + k)) := by
  induction k generalizing v W with
  | zero => rw [mapMissing, add_zero, Finset.Ico_self, union_empty]
  | succ k ih => rw [mapMissing, walked_absent, ih, insert_union_Ico]

/-- **The tables it takes to map a range are those that are not there yet.** -/
theorem mapCost_absent (W : Finset ℕ) (v k : ℕ) :
    mapCost (absent W) v k + spread W = spread (W ∪ Finset.Ico v (v + k)) := by
  induction k generalizing v W with
  | zero => rw [mapCost, zero_add, add_zero, Finset.Ico_self, union_empty]
  | succ k ih =>
    have hk := ih (insert v W) (v + 1)
    rw [insert_union_Ico, spread_insert] at hk
    rw [mapCost, walked_absent]
    omega

theorem gigas_union (W W' : Finset ℕ) : gigas (W ∪ W') = gigas W ∪ gigas W' :=
  image_union _ _

theorem megas_union (W W' : Finset ℕ) : megas (W ∪ W') = megas W ∪ megas W' :=
  image_union _ _

theorem gigas_eq (hne : W.Nonempty) (h : ∀ w ∈ W, digit 512 2 w = g) : gigas W = {g} :=
  (image_congr h).trans (image_const hne g)

theorem megas_eq {m : ℕ} (hne : W.Nonempty)
    (h : ∀ w ∈ W, digit 512 2 w = g ∧ digit 512 1 w = m) : megas W = {(g, m)} :=
  (image_congr fun w hw => Prod.ext (h w hw).1 (h w hw).2).trans (image_const hne _)

theorem megas_Ico (hg : 512 * g ≤ a) (hb : b ≤ 512 * (g + 1)) (hlt : g < 512) :
    megas (Finset.Ico (512 * a) (512 * b)) =
      (Finset.Ico a b).image fun m => (g, m % 512) := by
  ext ⟨x, y⟩
  simp only [megas, mem_image, mem_Ico, digit, Prod.mk.injEq]
  constructor
  · rintro ⟨w, hw, rfl, rfl⟩
    exact ⟨w / 512, by omega, by omega, by omega⟩
  · rintro ⟨m, hm, rfl, rfl⟩
    exact ⟨512 * m, by omega, by omega, by omega⟩

end Xv6

import Mathlib.Tactic.Common

/-!
# Machinery/Ownership — units that are reserved, held by one slot each, or free

`Exact reserved holds used`: a unit is marked iff it is reserved or held by a slot, no reserved unit
is held, and no unit is held twice.
-/

namespace Machinery

open Function

variable {ι β : Type*} {reserved : Set β} {holds : ι → Option β} {used : β → Bool}

/-- **The marks of an allocator are exact.** -/
structure Exact (reserved : Set β) (holds : ι → Option β) (used : β → Bool) : Prop where
  inj : ∀ x y b, holds x = some b → holds y = some b → x = y
  apart : ∀ x b, holds x = some b → b ∉ reserved
  marked : ∀ b, used b = true ↔ b ∈ reserved ∨ ∃ x, holds x = some b

namespace Exact

theorem used_of_holds (h : Exact reserved holds used) {x : ι} {b : β} (hx : holds x = some b) :
    used b = true :=
  (h.marked b).2 (.inr ⟨x, hx⟩)

/-- An unmarked unit is held by no slot. -/
theorem holds_ne (h : Exact reserved holds used) {b : β} (hb : used b = false) (x : ι) :
    holds x ≠ some b := fun hx => by
  rw [h.used_of_holds hx] at hb
  cases hb

/-- **An unmarked unit is given to an empty slot.** -/
theorem acquire [DecidableEq ι] [DecidableEq β] (h : Exact reserved holds used) {x : ι} {b : β}
    (hx : holds x = none) (hb : used b = false) :
    Exact reserved (update holds x (some b)) (update used b true) := by
  have hres : b ∉ reserved := fun hr => by
    rw [(h.marked b).2 (.inl hr)] at hb
    cases hb
  refine ⟨fun y z c hy hz => ?_, fun y c hy => ?_, fun c => ?_⟩
  · rcases eq_or_ne y x with rfl | hyx <;> rcases eq_or_ne z y with rfl | hzy
    · rfl
    · rw [update_self] at hy
      rw [update_of_ne hzy, ← hy] at hz
      exact absurd hz (h.holds_ne hb z)
    · rfl
    · rw [update_of_ne hyx] at hy
      rcases eq_or_ne z x with rfl | hzx
      · rw [update_self] at hz
        rw [← hz] at hy
        exact absurd hy (h.holds_ne hb y)
      · rw [update_of_ne hzx] at hz
        exact h.inj y z c hy hz
  · rcases eq_or_ne y x with rfl | hyx
    · rw [update_self] at hy
      exact Option.some.inj hy ▸ hres
    · rw [update_of_ne hyx] at hy
      exact h.apart y c hy
  · rcases eq_or_ne c b with rfl | hcb
    · rw [update_self]
      exact iff_of_true rfl (.inr ⟨x, update_self ..⟩)
    · rw [update_of_ne hcb, h.marked c]
      refine or_congr_right ⟨fun ⟨y, hy⟩ => ⟨y, ?_⟩, fun ⟨y, hy⟩ => ⟨y, ?_⟩⟩
      · rw [update_of_ne, hy]
        rintro rfl
        rw [hx] at hy
        cases hy
      · rw [update_of_ne] at hy
        · exact hy
        · rintro rfl
          rw [update_self] at hy
          exact hcb (Option.some.inj hy).symm

/-- **The units of some slots are taken back.** -/
theorem release (h : Exact reserved holds used) {S : Set ι} {holds' : ι → Option β} {used' : β → Bool}
    (hin : ∀ x ∈ S, holds' x = none) (hout : ∀ x ∉ S, holds' x = holds x)
    (hused : ∀ b, used' b = true ↔ used b = true ∧ ∀ x ∈ S, holds x ≠ some b) :
    Exact reserved holds' used' := by
  have hold : ∀ x b, holds' x = some b → x ∉ S ∧ holds x = some b := by
    intro x b hx
    by_cases hS : x ∈ S
    · rw [hin x hS] at hx
      cases hx
    · exact ⟨hS, hout x hS ▸ hx⟩
  refine ⟨fun x y b hx hy => h.inj x y b (hold x b hx).2 (hold y b hy).2,
    fun x b hx => h.apart x b (hold x b hx).2, fun b => ?_⟩
  rw [hused b, h.marked b]
  constructor
  · rintro ⟨hr | ⟨x, hx⟩, hfree⟩
    · exact .inl hr
    · exact .inr ⟨x, (hout x fun hS => hfree x hS hx).trans hx⟩
  · rintro (hr | ⟨x, hx⟩)
    · exact ⟨.inl hr, fun x _ hx => h.apart x b hx hr⟩
    · obtain ⟨hS, hx⟩ := hold x b hx
      exact ⟨.inr ⟨x, hx⟩, fun y hy hy' => hS (h.inj x y b hx hy' ▸ hy)⟩

end Exact

end Machinery

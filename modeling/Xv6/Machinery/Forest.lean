import Mathlib.Logic.Function.Basic
import Mathlib.Data.Nat.Notation

/-!
# Machinery/Forest — parent pointers that lead to a root

`Descends parent root q`: the pointers followed from `q` lead to `root`.  Redirecting a pointer to
the root, and changing that of a leaf, leave the others where they lead.
-/

namespace Machinery

open Function Option

variable {α : Type*}

/-- The node that `k` pointers lead to. -/
def ancestor (parent : α → Option α) : ℕ → α → Option α
  | 0, q => some q
  | k + 1, q => (parent q).bind (ancestor parent k)

/-- Following the pointers from a node leads to `root`. -/
inductive Descends (parent : α → Option α) (root : α) : α → Prop
  | root : Descends parent root root
  | child {p q : α} : parent q = some p → Descends parent root p → Descends parent root q

variable {parent : α → Option α} {root : α}

theorem ancestor_succ (k : ℕ) (q : α) :
    ancestor parent (k + 1) q = (ancestor parent k q).bind parent := by
  induction k generalizing q with
  | zero => simp [ancestor]
  | succ k ih =>
    rw [ancestor]
    cases hq : parent q with
    | none => simp [ancestor, hq]
    | some p => rw [bind_some, ih p, ancestor, hq, bind_some]

namespace Descends

theorem exists_ancestor {q : α} (h : Descends parent root q) : ∃ k, ancestor parent k q = some root := by
  induction h with
  | root => exact ⟨0, rfl⟩
  | child hq _ ih =>
    obtain ⟨k, hk⟩ := ih
    exact ⟨k + 1, by rw [ancestor, hq, bind_some, hk]⟩

/-- **A node that descends from a root without parent is on no cycle.** -/
theorem ancestor_ne {q : α} (hroot : parent root = none) (h : Descends parent root q) (k : ℕ) :
    ancestor parent (k + 1) q ≠ some q := by
  induction h with
  | root => simp [ancestor, hroot]
  | @child p q hq _ ih =>
    -- a cycle through `q` is one through its parent
    intro hcycle
    rw [ancestor, hq, bind_some] at hcycle
    exact ih (by rw [ancestor_succ, hcycle, bind_some, hq])

section

variable [DecidableEq α] {q x : α}

theorem update_root (h : Descends parent root q) (x : α) :
    Descends (update parent x (some root)) root q := by
  induction h with
  | root => exact .root
  | @child p q hq _ ih =>
    by_cases hx : q = x
    · exact .child (by rw [hx, update_self]) .root
    · exact .child (by rw [update_of_ne hx, hq]) ih

theorem update_leaf (h : Descends parent root q) (hx : ∀ y, parent y ≠ some x) (hq : q ≠ x)
    (v : Option α) : Descends (update parent x v) root q := by
  induction h with
  | root => exact .root
  | @child p q hpq _ ih =>
    exact .child (by rw [update_of_ne hq, hpq]) (ih fun hp => hx q (hp ▸ hpq))

end

end Descends

end Machinery

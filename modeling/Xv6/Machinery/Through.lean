import Xv6.Machinery.Exec

/-!
# Machinery/Through — programs seen through a view of their state

`Through view x v Q E` says what `x` does from every state that looks like `v`, with the rules of
`Ensures`.
-/

namespace Machinery

variable {ε σ τ α β : Type} {view : σ → τ} {v : τ} {E : ε → Prop}

/-- **From every state seen as `v`, `x` returns with `Q` of what is then seen, or aborts with `E`.** -/
def Through (view : σ → τ) (x : Exec ε σ α) (v : τ) (Q : α → τ → Prop)
    (E : ε → Prop := fun _ => False) : Prop :=
  ∀ s, view s = v → Ensures x s (fun a s' => Q a (view s')) E

namespace Through

variable {x y : Exec ε σ α} {Q R : α → τ → Prop}

theorem imp (h : Through view x v Q E) (hQ : ∀ a w, Q a w → R a w) : Through view x v R E :=
  fun s hs => (h s hs).imp fun a t => hQ a (view t)

theorem bind {f : α → Exec ε σ β} {R : β → τ → Prop} (h : Through view x v Q E)
    (hf : ∀ a w, Q a w → Through view (f a) w R E) : Through view (x >>= f) v R E :=
  fun s hs => (h s hs).bind fun a t hq => hf a (view t) hq t rfl

theorem pure {a : α} (h : Q a v) : Through view (Pure.pure a : Exec ε σ α) v Q E := by
  intro s hs
  rw [Ensures.pure_iff, hs]
  exact h

theorem throw {e : ε} (h : E e) : Through view (MonadExcept.throw e : Exec ε σ α) v Q E :=
  fun _ _ => .throw h

theorem ite {c : Prop} [Decidable c] (h : c → Through view x v Q E) (h' : ¬c → Through view y v Q E) :
    Through view (if c then x else y) v Q E := by
  split_ifs with hc
  · exact h hc
  · exact h' hc

end Through

end Machinery

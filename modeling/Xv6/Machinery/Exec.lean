import Mathlib.Tactic.Common

/-!
# Machinery/Exec — computations on a state that may abort, and their pre- and postconditions

`Ensures x s Q E`: the run of `x` from `s` returns with `Q`, or aborts with an error satisfying `E`.
So `E := fun _ => False` is total correctness and `E := fun _ => True` is about the runs that
return.
-/

namespace Machinery

/-- A program over the state `σ` that may abort with an `ε`. -/
abbrev Exec (ε σ α : Type) := StateT σ (Except ε) α

variable {ε σ α β : Type}

/-- A program goes on after a first part that returned. -/
theorem Exec.bind_ok {x : Exec ε σ α} {f : α → Exec ε σ β} {s s' : σ} {a : α}
    (h : x s = .ok (a, s')) : (x >>= f) s = f a s' := by
  change (x s >>= fun p => f p.1 p.2) = _
  rw [h]
  rfl

theorem Exec.bind_error {x : Exec ε σ α} {f : α → Exec ε σ β} {s : σ} {e : ε} (h : x s = .error e) :
    (x >>= f) s = .error e := by
  change (x s >>= fun p => f p.1 p.2) = _
  rw [h]
  rfl

/-- A run that is known by what it returns. -/
theorem Exec.ok_of_toOption {r : Except ε α} {a : α} (h : r.toOption = some a) : r = .ok a := by
  cases r with
  | error e => exact nomatch h
  | ok b => exact congrArg Except.ok (Option.some.inj h)

theorem Exec.exists_ok_of_map {r : Except ε α} {f : α → β} {b : β} (h : r.toOption.map f = some b) :
    ∃ a, r = .ok a ∧ f a = b := by
  obtain ⟨a, ha, hb⟩ := Option.map_eq_some_iff.1 h
  exact ⟨a, ok_of_toOption ha, hb⟩

/-- A program on a part of the state, with its errors among those of the whole. -/
def Exec.zoom {ε' τ : Type} (wrap : ε → ε') (view : τ → σ) (put : τ → σ → τ) (x : Exec ε σ α) :
    Exec ε' τ α := fun t =>
  match x (view t) with
  | .ok (a, s) => .ok (a, put t s)
  | .error e => .error (wrap e)

variable {ε' τ : Type}

theorem Exec.zoom_ok {wrap : ε → ε'} {view : τ → σ} {put : τ → σ → τ} {x : Exec ε σ α} {t : τ}
    {a : α} {s : σ} (h : x (view t) = .ok (a, s)) : x.zoom wrap view put t = .ok (a, put t s) := by
  rw [zoom, h]

/-- A program on a part of the state, in two steps. -/
theorem Exec.zoom_bind {wrap : ε → ε'} {view : τ → σ} {put : τ → σ → τ}
    (hview : ∀ t s, view (put t s) = s) (hput : ∀ t s s', put (put t s) s' = put t s') (x : Exec ε σ α)
    (f : α → Exec ε σ β) :
    (x >>= f).zoom wrap view put = x.zoom wrap view put >>= fun a => (f a).zoom wrap view put := by
  funext t
  cases hx : x (view t) with
  | error e =>
    have hz : x.zoom wrap view put t = .error (wrap e) := by rw [zoom, hx]
    rw [bind_error hz, zoom, bind_error hx]
  | ok r =>
    rw [bind_ok (zoom_ok hx), zoom, bind_ok hx, zoom, hview]
    cases f r.1 r.2 with
    | error e => rfl
    | ok r' => simp only [hput]

theorem Exec.get_run (s : σ) : (get : Exec ε σ σ) s = .ok (s, s) := rfl

/-- **One run from `s` returns with `Q` or aborts with `E`**; without an `E` it returns. -/
def Ensures (x : Exec ε σ α) (s : σ) (Q : α → σ → Prop) (E : ε → Prop := fun _ => False) : Prop :=
  match x s with
  | .ok (a, s') => Q a s'
  | .error e => E e

namespace Ensures

variable {x : Exec ε σ α} {s : σ} {Q Q' : α → σ → Prop} {E E' : ε → Prop}

theorem ok_iff {a : α} {s' : σ} (h : x s = .ok (a, s')) : Ensures x s Q E ↔ Q a s' := by
  rw [Ensures, h]

variable {e : ε} {f : α → Exec ε σ β}

theorem error_iff (h : x s = .error e) : Ensures x s Q E ↔ E e := by
  rw [Ensures, h]

/-- Reading a specification off a run that returned. -/
theorem of_ok (hx : Ensures x s Q E) {a : α} {s' : σ} (h : x s = .ok (a, s')) : Q a s' :=
  (ok_iff h).1 hx

/-- Reading a specification off a run that aborted. -/
theorem of_error (hx : Ensures x s Q E) (h : x s = .error e) : E e :=
  (error_iff h).1 hx

/-- A run that cannot abort returns. -/
theorem exists_ok (hx : Ensures x s Q E) (hE : ∀ e, ¬ E e := by exact fun _ h => h) :
    ∃ a s', x s = .ok (a, s') ∧ Q a s' := by
  cases h : x s with
  | error e => exact absurd (hx.of_error h) (hE e)
  | ok r => exact ⟨r.1, r.2, rfl, hx.of_ok h⟩

/-- Nothing is asked. -/
protected theorem trivial : Ensures x s (fun _ _ => True) fun _ => True := by
  unfold Ensures
  split <;> exact True.intro

/-- Programs that run alike satisfy the same specifications. -/
theorem congr_run {y : Exec ε σ α} {t : σ} (h : x s = y t) : Ensures x s Q E ↔ Ensures y t Q E := by
  rw [Ensures, Ensures, h]

/-- **The rule of consequence.** -/
protected theorem mono (hx : Ensures x s Q E) (hQ : ∀ a s', Q a s' → Q' a s') (hE : ∀ e, E e → E' e) :
    Ensures x s Q' E' := by
  unfold Ensures at *
  split at hx <;> simp_all

/-- Weakening the postcondition alone. -/
protected theorem imp (hx : Ensures x s Q E) (hQ : ∀ a s', Q a s' → Q' a s') : Ensures x s Q' E :=
  hx.mono hQ fun _ h => h

/-- A run that cannot abort satisfies any specification of its errors. -/
protected theorem total (hx : Ensures x s Q) : Ensures x s Q E :=
  hx.mono (fun _ _ h => h) fun _ h => h.elim

/-- Two specifications of one run hold together. -/
protected theorem and (hx : Ensures x s Q E) (hx' : Ensures x s Q' E') :
    Ensures x s (fun a s' => Q a s' ∧ Q' a s') (fun e => E e ∧ E' e) := by
  unfold Ensures at *
  split at hx <;> simp_all

@[simp] theorem pure_iff {a : α} : Ensures (pure a : Exec ε σ α) s Q E ↔ Q a s := Iff.rfl

@[simp] theorem get_iff {Q : σ → σ → Prop} : Ensures (get : Exec ε σ σ) s Q E ↔ Q s s := Iff.rfl

@[simp] theorem set_iff {t : σ} {Q : PUnit → σ → Prop} :
    Ensures (set t : Exec ε σ PUnit) s Q E ↔ Q ⟨⟩ t := Iff.rfl

@[simp] theorem modify_iff {f : σ → σ} {Q : PUnit → σ → Prop} :
    Ensures (modify f : Exec ε σ PUnit) s Q E ↔ Q ⟨⟩ (f s) := Iff.rfl

@[simp] theorem throw_iff : Ensures (throw e : Exec ε σ α) s Q E ↔ E e := Iff.rfl

/-- **The rule of sequencing.** -/
theorem bind_iff {Q : β → σ → Prop} :
    Ensures (x >>= f) s Q E ↔ Ensures x s (fun a s' => Ensures (f a) s' Q E) E := by
  unfold Ensures
  change (match (x s >>= fun p => f p.1 p.2) with | .ok (a, s') => Q a s' | .error e => E e) ↔ _
  cases x s <;> rfl

theorem get_bind_iff {f : σ → Exec ε σ α} :
    Ensures (get >>= f) s Q E ↔ Ensures (f s) s Q E := by
  rw [bind_iff, get_iff]

protected theorem bind {Q : β → σ → Prop} {R : α → σ → Prop}
    (hx : Ensures x s R E) (hf : ∀ a s', R a s' → Ensures (f a) s' Q E) : Ensures (x >>= f) s Q E :=
  bind_iff.2 (hx.imp hf)

protected theorem map (hx : Ensures x s Q E) (f : α → β) :
    Ensures (do return f (← x)) s (fun b s' => ∃ a, f a = b ∧ Q a s') E :=
  hx.bind fun a _ h => pure_iff.2 ⟨a, rfl, h⟩

/-- A part of the state is all that a program on it sees. -/
theorem zoom_iff {ε' τ : Type} {wrap : ε → ε'} {view : τ → σ} {put : τ → σ → τ} {t : τ}
    {Q : α → τ → Prop} {E : ε' → Prop} :
    Ensures (x.zoom wrap view put) t Q E ↔
      Ensures x (view t) (fun a s' => Q a (put t s')) (fun e => E (wrap e)) := by
  unfold Ensures Exec.zoom
  cases x (view t) <;> rfl

protected theorem pure {a : α} (h : Q a s) : Ensures (Pure.pure a : Exec ε σ α) s Q E := pure_iff.2 h

protected theorem throw (h : E e) : Ensures (MonadExcept.throw e : Exec ε σ α) s Q E := throw_iff.2 h

theorem throw_bind {Q : β → σ → Prop} (h : E e) :
    Ensures ((MonadExcept.throw e : Exec ε σ α) >>= f) s Q E := bind_iff.2 (.throw h)

theorem get_bind {f : σ → Exec ε σ α} (h : Ensures (f s) s Q E) : Ensures (get >>= f) s Q E :=
  get_bind_iff.2 h

/-- **The rule of bounded iteration.** -/
theorem forM_range {f : ℕ → Exec ε σ PUnit} {n : ℕ} (I : ℕ → σ → Prop) (h0 : I 0 s)
    (hstep : ∀ i < n, ∀ s, I i s → Ensures (f i) s (fun _ s' => I (i + 1) s') E) :
    Ensures ((List.range n).forM f) s (fun _ s' => I n s') E := by
  induction n with
  | zero => exact h0
  | succ n ih =>
    rw [List.range_succ, List.forM_eq_forM, List.forM_append]
    refine Ensures.bind (ih fun i hi => hstep i (by omega)) fun _ s' h => ?_
    rw [List.forM_cons, List.forM_nil]
    exact Ensures.bind (hstep n (by omega) s' h) fun _ _ h => h

end Ensures

/-! ## What a program leaves alone

A reflexive and transitive relation that the parts of a program respect is respected by the whole.
-/

/-- **Every run of `x` that returns relates its first and last state**; one that aborts does so with
`E`. -/
def Respects (R : σ → σ → Prop) (x : Exec ε σ α) (E : ε → Prop := fun _ => True) : Prop :=
  ∀ s, Ensures x s (fun _ s' => R s s') E

/-- Every run relates its states, so that only the errors are specified. -/
instance reflTrue : Std.Refl (fun _ _ : σ => True) := ⟨fun _ => trivial⟩

instance isTransTrue : IsTrans σ (fun _ _ : σ => True) := ⟨fun _ _ _ _ _ => trivial⟩

namespace Respects

variable {R : σ → σ → Prop} {x : Exec ε σ α} {E : ε → Prop}

theorem modify {f : σ → σ} (h : ∀ s, R s (f s)) : Respects R (modify f : Exec ε σ PUnit) E := fun s =>
  Ensures.modify_iff.2 (h s)

theorem throw {e : ε} (h : E e) : Respects R (throw e : Exec ε σ α) E := fun _ => Ensures.throw_iff.2 h

theorem throw_bind {e : ε} (h : E e) (f : α → Exec ε σ β) :
    Respects R ((MonadExcept.throw e : Exec ε σ α) >>= f) E := fun _ =>
  Ensures.bind_iff.2 (Ensures.throw_iff.2 h)

theorem get_bind {f : σ → Exec ε σ α} (h : ∀ s, Respects R (f s) E) : Respects R (get >>= f) E :=
  fun s => Ensures.bind_iff.2 (Ensures.get_iff.2 (h s s))

theorem ite {c : Prop} [Decidable c] {y : Exec ε σ α} (hx : Respects R x E) (hy : Respects R y E) :
    Respects R (if c then x else y) E := by
  split
  · exact hx
  · exact hy

theorem pure [Std.Refl R] (a : α) : Respects R (pure a : Exec ε σ α) E := fun s =>
  Ensures.pure_iff.2 (refl s)

theorem bind [IsTrans σ R] {f : α → Exec ε σ β} (hx : Respects R x E)
    (hf : ∀ a, Respects R (f a) E) : Respects R (x >>= f) E := fun s =>
  (hx s).bind fun a t ht => (hf a t).imp fun _ _ hu => IsTrans.trans _ _ _ ht hu

/-- What the relation keeps is kept. -/
theorem ensures (hx : Respects R x E) {s : σ} {I : σ → Prop} (hI : ∀ t, R s t → I t) :
    Ensures x s (fun _ t => I t) E :=
  (hx s).imp fun _ t ht => hI t ht

/-- A program after one that respects the relation from where it starts. -/
theorem after [IsTrans σ R] (hx : Respects R x E) {s t : σ} (hst : R s t) :
    Ensures x t (fun _ u => R s u) E :=
  hx.ensures fun _ => IsTrans.trans _ _ _ hst

end Respects

/-! ## A program over more state

A model with more state than another one does the same to the part they share. -/

section Follows

variable {τ : Type} {view : τ → σ} {x : Exec ε τ α} {y : Exec ε σ α} {t : τ}

/-- **From `t` on, `x` does to the part `view` what `y` does there**, and with `R` to the rest. -/
def Follows (view : τ → σ) (x : Exec ε τ α) (y : Exec ε σ α) (t : τ) (R : α → τ → Prop) : Prop :=
  Ensures x t (fun a t' => y (view t) = .ok (a, view t') ∧ R a t') (fun e => y (view t) = .error e)

namespace Follows

variable {R R' : α → τ → Prop}

theorem imp (h : Follows view x y t R) (hR : ∀ a t', R a t' → R' a t') : Follows view x y t R' :=
  Ensures.imp h fun a t' ⟨hy, hr⟩ => ⟨hy, hR a t' hr⟩

/-- Two runs that return the same. -/
theorem run (a : α) (t' : τ) (hx : x t = .ok (a, t')) (hy : y (view t) = .ok (a, view t')) (hr : R a t') :
    Follows view x y t R :=
  (Ensures.ok_iff hx).2 ⟨hy, hr⟩

/-- The run that is followed. -/
theorem ran (h : Follows view x y t R) :
    Follows view x y t fun a t' => y (view t) = .ok (a, view t') ∧ R a t' :=
  Ensures.imp h fun _ _ ⟨hy, hr⟩ => ⟨hy, hy, hr⟩

theorem pure {a : α} (h : R a t) :
    Follows view (Pure.pure a : Exec ε τ α) (Pure.pure a : Exec ε σ α) t R :=
  Ensures.pure_iff.2 ⟨rfl, h⟩

theorem get_bind {f : τ → Exec ε τ α} {g : σ → Exec ε σ α} (h : Follows view (f t) (g (view t)) t R) :
    Follows view (get >>= f) (get >>= g) t R :=
  Ensures.get_bind_iff.2 h

theorem bind {f : α → Exec ε τ β} {g : α → Exec ε σ β} {Q : β → τ → Prop} (h : Follows view x y t R)
    (hf : ∀ a t', R a t' → Follows view (f a) (g a) t' Q) : Follows view (x >>= f) (y >>= g) t Q :=
  Ensures.bind_iff.2 <| Ensures.mono h
    (fun a t' ⟨hy, hr⟩ => (hf a t' hr).mono (fun _ _ ⟨hg, hq⟩ => ⟨(Exec.bind_ok hy).trans hg, hq⟩)
      fun _ he => (Exec.bind_ok hy).trans he)
    fun _ he => Exec.bind_error he

/-- A part of `x` that leaves the view alone. -/
theorem skip {γ : Type} {z : Exec ε τ γ} {f : γ → Exec ε τ α} {Q : γ → τ → Prop}
    (h : Ensures z t (fun c t' => view t' = view t ∧ Q c t'))
    (hf : ∀ c t', Q c t' → Follows view (f c) y t' R) : Follows view (z >>= f) y t R :=
  Ensures.bind_iff.2 <| Ensures.mono h
    (fun c t' ⟨hv, hq⟩ => (hf c t' hq).mono (fun _ _ hr => by rwa [hv] at hr) fun _ he => by rwa [hv] at he)
    fun _ hf => hf.elim

/-- A part of `x` after `y` is through. -/
theorem tail {f : α → Exec ε τ α} {Q : α → τ → Prop} (h : Follows view x y t R)
    (hf : ∀ a t', R a t' → Ensures (f a) t' (fun b t'' => b = a ∧ view t'' = view t' ∧ Q b t'')) :
    Follows view (x >>= f) y t Q :=
  Ensures.bind_iff.2 <| Ensures.imp h fun a t' ⟨hy, hr⟩ =>
    (hf a t' hr).mono (fun _ _ ⟨ha, hv, hq⟩ => ⟨by rw [hy, ha, hv], hq⟩) fun _ hf => hf.elim

theorem ite {c : Prop} [Decidable c] {x' : Exec ε τ α} {y' : Exec ε σ α} (h : c → Follows view x y t R)
    (h' : ¬ c → Follows view x' y' t R) :
    Follows view (if c then x else x') (if c then y else y') t R := by
  by_cases hc : c
  · rw [if_pos hc, if_pos hc]
    exact h hc
  · rw [if_neg hc, if_neg hc]
    exact h' hc

/-- **What is known of the program on the part holds for the program over more state.** -/
theorem ensures (h : Follows view x y t R) {Q : α → σ → Prop} {E : ε → Prop} (hy : Ensures y (view t) Q E) :
    Ensures x t (fun a t' => Q a (view t') ∧ R a t') E :=
  Ensures.mono h (fun _ _ ⟨hr, hq⟩ => ⟨hy.of_ok hr, hq⟩) fun _ he => hy.of_error he

end Follows

end Follows

-- from here on only the rules speak about `Ensures`: the unifier is not to run programs
attribute [irreducible] Ensures

end Machinery

import Mathlib.Tactic.Common

/-!
# Machinery/Runs — labelled transition systems and their runs

`S.Reachable` are the states that runs of `S` lead to; `Reachable.invariant` is the induction over
them. `System.restrict` turns "every run whose steps all meet `C`" into reachability again.
-/

namespace Machinery

open Option

/-- A guarded step is taken only where its guard holds. -/
theorem of_guard {σ : Type*} {c : Prop} [Decidable c] {s t : σ} (h : (if c then some s else none) = some t) :
    c ∧ s = t :=
  (ite_none_right_eq_some.1 h).imp_right some.inj

/-- A labelled transition system. -/
structure System (σ ι : Type*) where
  init : σ → Prop
  step : σ → ι → σ → Prop

namespace System

variable {σ ι : Type*} (S : System σ ι)

/-- **A run** from `s` to `t`, performing the labels in order. -/
inductive Run : σ → List ι → σ → Prop
  | nil (s : σ) : Run s [] s
  | cons {s t u : σ} {l : ι} {ls : List ι} : S.step s l t → Run t ls u → Run s (l :: ls) u

/-- The states some run from an initial state leads to. -/
inductive Reachable : σ → Prop
  | init {s : σ} : S.init s → Reachable s
  | step {s t : σ} {l : ι} : Reachable s → S.step s l t → Reachable t

variable {S}

/-- **What holds initially and is kept by every step holds in every reachable state.** -/
theorem Reachable.invariant {I : σ → Prop} (h0 : ∀ s, S.init s → I s)
    (hs : ∀ s l t, S.Reachable s → I s → S.step s l t → I t) {s : σ} (h : S.Reachable s) : I s := by
  induction h with
  | init h => exact h0 _ h
  | step hr hst ih => exact hs _ _ _ hr ih hst

theorem Reachable.run {s t : σ} {ls : List ι} (hr : S.Run s ls t) (h : S.Reachable s) :
    S.Reachable t := by
  induction hr with
  | nil => exact h
  | cons hst _ ih => exact ih (h.step hst)

/-- The steps that meet a condition on the state they start from and their label. -/
def restrict (S : System σ ι) (C : σ → ι → Prop) : System σ ι where
  init := S.init
  step s l t := C s l ∧ S.step s l t

theorem Reachable.of_restrict {C : σ → ι → Prop} {s : σ} (h : (S.restrict C).Reachable s) :
    S.Reachable s := by
  induction h with
  | init h => exact .init h
  | step _ hst ih => exact ih.step hst.2

theorem Run.of_restrict {C : σ → ι → Prop} {s t : σ} {ls : List ι} (h : (S.restrict C).Run s ls t) :
    S.Run s ls t := by
  induction h with
  | nil => exact .nil _
  | cons hst _ ih => exact .cons hst.2 ih

theorem Reachable.restrict_mono {C D : σ → ι → Prop} (hCD : ∀ s l, C s l → D s l) {s : σ}
    (h : (S.restrict C).Reachable s) : (S.restrict D).Reachable s := by
  induction h with
  | init h => exact .init h
  | step _ hst ih => exact ih.step ⟨hCD _ _ hst.1, hst.2⟩

/-- The system of a transition function. -/
def ofNext (init : σ → Prop) (next : σ → ι → Option σ) : System σ ι where
  init := init
  step s l t := next s l = some t

/-- Perform the labels in order. -/
def execute (next : σ → ι → Option σ) (s : σ) : List ι → Option σ
  | [] => some s
  | l :: ls => (next s l).bind fun t => execute next t ls

theorem Run.of_execute {init : σ → Prop} {next : σ → ι → Option σ} {ls : List ι} {s t : σ}
    (h : execute next s ls = some t) : (ofNext init next).Run s ls t := by
  induction ls generalizing s with
  | nil => exact some.inj h ▸ .nil s
  | cons l ls ih =>
    obtain ⟨u, hu, ht⟩ := bind_eq_some_iff.1 h
    exact .cons hu (ih ht)

/-- Runs of a restricted system are executed by testing the condition before each step. -/
theorem Run.of_execute_restrict {init : σ → Prop} {next : σ → ι → Option σ} {C : σ → ι → Prop}
    [∀ s l, Decidable (C s l)] {ls : List ι} {s t : σ}
    (h : execute (fun s l => if C s l then next s l else none) s ls = some t) :
    ((ofNext init next).restrict C).Run s ls t := by
  induction ls generalizing s with
  | nil => exact some.inj h ▸ .nil s
  | cons l ls ih =>
    obtain ⟨u, hu, ht⟩ := bind_eq_some_iff.1 h
    obtain ⟨hC, hu⟩ := ite_none_right_eq_some.1 hu
    exact .cons ⟨hC, hu⟩ (ih ht)

end System

end Machinery

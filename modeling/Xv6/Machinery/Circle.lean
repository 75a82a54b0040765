import Mathlib.Data.List.Basic
import Mathlib.Logic.Function.Iterate

/-!
# Machinery/Circle — circular lists

`Circle next c`: the pointers go through the nodes `c` and back to the first, whichever node that is
(`circle_rotate`).  A loop over the circle is a `hunt` for the first node that it stops at.
-/

namespace Machinery

open List

variable {α : Type*} {next next' : α → α} {a b p q x z : α} {l m w : List α}

/-- **The pointer `q` leads through the nodes `l` to `z`.** -/
def Leads (next : α → α) : (q : α) → List α → (z : α) → Prop
  | q, [], z => q = z
  | q, x :: l, z => q = x ∧ Leads next (next x) l z

/-- **The nodes of a circle.** -/
def Circle (next : α → α) : List α → Prop
  | [] => False
  | a :: l => Leads next (next a) l a

theorem leads_append : Leads next q (l ++ x :: m) z ↔ Leads next q l x ∧ Leads next (next x) m z := by
  induction l generalizing q with
  | nil => exact Iff.rfl
  | cons y l ih => exact (and_congr_right fun _ => ih).trans and_assoc.symm

theorem Leads.congr (h : Leads next q l z) (heq : ∀ x ∈ l, next' x = next x) : Leads next' q l z := by
  induction l generalizing q with
  | nil => exact h
  | cons y l ih =>
    refine ⟨h.1, ?_⟩
    rw [heq y mem_cons_self]
    exact ih h.2 fun x hx => heq x (mem_cons_of_mem y hx)

/-- A circle starts anywhere. -/
theorem circle_rotate (l m : List α) : Circle next (l ++ x :: m) ↔ Circle next (x :: (m ++ l)) := by
  cases l with
  | nil => rw [nil_append, append_nil]
  | cons a l => exact leads_append.trans (and_comm.trans leads_append.symm)

theorem Circle.insert (h : Circle next (p :: l)) (hp : next' p = b) (hb : next' b = next p)
    (heq : ∀ x ∈ l, next' x = next x) : Circle next' (p :: b :: l) := by
  refine ⟨hp, ?_⟩
  rw [hb]
  exact Leads.congr h heq

theorem Circle.remove (h : Circle next (p :: a :: l)) (hp : next' p = next a)
    (heq : ∀ x ∈ l, next' x = next x) : Circle next' (p :: l) := by
  change Leads next' (next' p) l p
  rw [hp]
  exact Leads.congr h.2 heq

/-- A loop that goes on until it stops. -/
def hunt (stop : α → Bool) (next : α → α) : (fuel : ℕ) → α → Option α
  | 0, _ => none
  | fuel + 1, a => if stop a then some a else hunt stop next fuel (next a)

theorem hunt_eq {stop : α → Bool} {fuel : ℕ} (h : Leads next q (l ++ x :: m) z) (hl : ∀ y ∈ l, stop y = false)
    (hx : stop x = true) (hfuel : l.length < fuel) : hunt stop next fuel q = some x := by
  induction l generalizing q fuel with
  | nil =>
    obtain ⟨fuel, rfl⟩ := Nat.exists_eq_add_of_lt hfuel
    rw [h.1, hunt, if_pos hx]
  | cons y l ih =>
    obtain ⟨fuel, rfl⟩ := Nat.exists_eq_add_of_lt hfuel
    rw [h.1, hunt, if_neg (by rw [hl y mem_cons_self]; exact Bool.false_ne_true)]
    refine ih h.2 (fun y' hy' => hl y' (mem_cons_of_mem y hy')) ?_
    rw [length_cons]
    omega

theorem hunt_succ {stop : α → Bool} {fuel : ℕ} (h : hunt stop next fuel a = some x) :
    hunt stop next (fuel + 1) a = some x := by
  induction fuel generalizing a with
  | zero => simp [hunt] at h
  | succ fuel ih =>
    rw [hunt] at h ⊢
    split_ifs at h ⊢
    · exact h
    · exact ih h

/-- The next node, or the first. -/
theorem Circle.next_eq {l : List α} (h : Circle next (a :: l)) (hl : a :: l = m ++ x :: w) : next x = w.headD a := by
  rw [hl, circle_rotate] at h
  cases w with
  | cons y w => exact h.1
  | nil =>
    cases m with
    | nil =>
      obtain ⟨rfl, -⟩ := List.cons.inj hl
      exact h
    | cons y m =>
      obtain ⟨rfl, -⟩ := List.cons.inj hl
      exact h.1

/-- A loop over a circle with a node to stop at ends, wherever it starts. -/
theorem Circle.hunt_exists {c : List α} (h : Circle next c) (stop : α → Bool) (hq : q ∈ c) (hx : x ∈ c)
    (hstop : stop x = true) :
    ∃ y ∈ c, stop y = true ∧ ∀ fuel, c.length ≤ fuel → hunt stop next fuel q = some y := by
  obtain ⟨l, m, rfl⟩ := append_of_mem hq
  rw [circle_rotate] at h
  have hmem : ∀ y, y ∈ q :: (m ++ l) ↔ y ∈ l ++ q :: m := by grind
  obtain ⟨y, hy⟩ := Option.isSome_iff_exists.mp (List.find?_isSome.mpr ⟨x, (hmem x).mpr hx, hstop⟩)
  obtain ⟨hys, u, v, huv, hu⟩ := List.find?_eq_some_iff_append.mp hy
  have hlen := congrArg List.length huv
  have hwalk : Leads next q (q :: (m ++ l)) q := ⟨rfl, h⟩
  rw [huv] at hwalk
  refine ⟨y, (hmem y).mp (huv ▸ by simp), hys, fun fuel hfuel =>
    hunt_eq hwalk (fun z hz => by simpa using hu z hz) hys ?_⟩
  simp only [length_append, length_cons] at hlen hfuel
  omega

theorem Leads.iterate (h : Leads next q (l ++ x :: m) z) : next^[l.length] q = x := by
  induction l generalizing q with
  | nil => exact h.1
  | cons y l ih =>
    rw [length_cons, Function.iterate_succ_apply, h.1]
    exact ih h.2

theorem Circle.next_mem (h : Circle next l) (hx : x ∈ l) : next x ∈ l := by
  obtain ⟨u, v, rfl⟩ := append_of_mem hx
  have hc := (circle_rotate u v).mp h
  cases v with
  | cons y v =>
    rw [hc.1]
    simp
  | nil =>
    cases u with
    | nil =>
      have hone : next x = x := hc
      simp [hone]
    | cons y u =>
      rw [hc.1]
      simp

/-- The nodes of a circle are what is reached from one of them. -/
theorem Circle.mem_iff (h : Circle next l) (hp : p ∈ l) : x ∈ l ↔ ∃ n, next^[n] p = x := by
  constructor
  · intro hx
    obtain ⟨u, v, rfl⟩ := append_of_mem hp
    have hx' : x ∈ p :: (v ++ u) := by grind
    obtain ⟨s, t, hst⟩ := append_of_mem hx'
    have hwalk : Leads next p (p :: (v ++ u)) p := ⟨rfl, (circle_rotate u v).mp h⟩
    rw [hst] at hwalk
    exact ⟨s.length, hwalk.iterate⟩
  · rintro ⟨n, rfl⟩
    induction n with
    | zero => exact hp
    | succ n ih =>
      rw [Function.iterate_succ_apply']
      exact h.next_mem ih

end Machinery

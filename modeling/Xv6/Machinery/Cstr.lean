import Xv6.Machinery.Bytes

/-!
# Machinery/Cstr — strings in memory

`Lies m p l`: the bytes `l` lie at address `p`.  A string is there if a zero byte follows and none
is among them.
-/

namespace Machinery

open Function List

variable {m : ℕ → Byte} {p q : ℕ} {l r : List Byte} {b c : Byte}

/-- **The bytes `l` lie at `p`.** -/
def Lies (m : ℕ → Byte) : (p : ℕ) → List Byte → Prop
  | _, [] => True
  | p, b :: l => m p = b ∧ Lies m (p + 1) l

theorem lies_append : Lies m p (l ++ r) ↔ Lies m p l ∧ Lies m (p + l.length) r := by
  induction l generalizing p with
  | nil => simp [Lies]
  | cons b l ih =>
    rw [cons_append, Lies, Lies, ih, and_assoc, length_cons, add_assoc, add_comm 1]

theorem lies_congr {m' : ℕ → Byte} (h : Lies m p l) (hm : ∀ q, p ≤ q → q < p + l.length → m' q = m q) :
    Lies m' p l := by
  induction l generalizing p with
  | nil => trivial
  | cons b l ih =>
    rw [length_cons] at hm
    exact ⟨(hm p le_rfl (by omega)).trans h.1, ih h.2 fun q h1 h2 => hm q (by omega) (by omega)⟩

/-- A store to another place. -/
theorem Lies.update (h : Lies m p l) (hq : q < p ∨ p + l.length ≤ q) : Lies (update m q b) p l :=
  lies_congr h fun _ h1 h2 => update_of_ne (by omega) _ _

/-- The `n` bytes at `p`. -/
def bytesAt (m : ℕ → Byte) (p n : ℕ) : List Byte := (List.range n).map fun i => m (p + i)

theorem Lies.bytesAt (h : Lies m p l) : bytesAt m p l.length = l := by
  induction l generalizing p with
  | nil => rfl
  | cons b l ih =>
    rw [Machinery.bytesAt, length_cons, range_succ_eq_map, map_cons, map_map, add_zero, h.1]
    refine congrArg (b :: ·) (Eq.trans (map_congr_left fun i _ => ?_) (ih h.2))
    exact congrArg m (by simp only [Nat.succ_eq_add_one]; omega)

/-- Bytes are stored. -/
def stored (m : ℕ → Byte) (p : ℕ) (l : List Byte) : ℕ → Byte := fun q =>
  if p ≤ q ∧ q < p + l.length then l.getD (q - p) 0 else m q

theorem stored_of_lt (hq : q < p) : stored m p l q = m q := if_neg fun h => by omega

theorem lies_of_getD (h : ∀ i < l.length, m (p + i) = l.getD i 0) : Lies m p l := by
  induction l generalizing p with
  | nil => trivial
  | cons b l ih =>
    refine ⟨h 0 (by simp), ih fun i hi => ?_⟩
    have := h (i + 1) (by simpa using hi)
    rw [getD_cons_succ] at this
    rw [← this]
    exact congrArg m (by omega)

theorem lies_stored : Lies (stored m p l) p l :=
  lies_of_getD fun i hi => by
    rw [stored, if_pos ⟨by omega, by omega⟩, Nat.add_sub_cancel_left]

/-! ## Strings -/

/-- **The string `l` is at `p`.** -/
structure Str (m : ℕ → Byte) (p : ℕ) (l : List Byte) : Prop where
  lies : Lies m p l
  ends : m (p + l.length) = 0
  ne : ∀ b ∈ l, b ≠ 0

/-- The string at `p`, if it has fewer than `fuel` bytes. -/
def cstr (m : ℕ → Byte) : (fuel p : ℕ) → List Byte
  | 0, _ => []
  | fuel + 1, p => if m p = 0 then [] else m p :: cstr m fuel (p + 1)

theorem Str.tail (h : Str m p (b :: l)) : Str m (p + 1) l where
  lies := h.lies.2
  ends := by
    rw [add_assoc, add_comm 1]
    exact h.ends
  ne c hc := h.ne c (mem_cons_of_mem b hc)

theorem Str.cstr_eq (h : Str m p l) {fuel : ℕ} (hfuel : l.length < fuel) : cstr m fuel p = l := by
  induction l generalizing p fuel with
  | nil =>
    cases fuel with
    | zero => exact absurd hfuel (Nat.not_lt_zero _)
    | succ fuel => exact if_pos h.ends
  | cons b l ih =>
    cases fuel with
    | zero => exact absurd hfuel (Nat.not_lt_zero _)
    | succ fuel =>
      rw [cstr, h.lies.1, if_neg (h.ne b mem_cons_self), ih h.tail (Nat.lt_of_succ_lt_succ hfuel)]

/-- `strchr`, for strings of fewer than `fuel` bytes. -/
def strchr (m : ℕ → Byte) (c : Byte) : (fuel p : ℕ) → Option ℕ
  | 0, _ => none
  | fuel + 1, p => if m p = 0 then none else if m p = c then some p else strchr m c fuel (p + 1)

theorem Str.strchr_none (h : Str m p l) (hc : c ∉ l) (fuel : ℕ) : strchr m c fuel p = none := by
  induction fuel generalizing p l with
  | zero => rfl
  | succ fuel ih =>
    cases l with
    | nil => exact if_pos h.ends
    | cons b l =>
      obtain ⟨hcb, hc⟩ := not_or.1 (mt mem_cons.2 hc)
      rw [strchr, h.lies.1, if_neg (h.ne b mem_cons_self), if_neg (Ne.symm hcb), ih h.tail hc]

theorem Str.strchr_some (h : Str m p (l ++ c :: r)) (hc : c ∉ l) {fuel : ℕ} (hfuel : l.length < fuel) :
    strchr m c fuel p = some (p + l.length) := by
  induction l generalizing p fuel with
  | nil =>
    cases fuel with
    | zero => exact absurd hfuel (Nat.not_lt_zero _)
    | succ fuel =>
      rw [nil_append] at h
      rw [strchr, h.lies.1, if_neg (h.ne c mem_cons_self), if_pos rfl, length_nil, add_zero]
  | cons b l ih =>
    cases fuel with
    | zero => exact absurd hfuel (Nat.not_lt_zero _)
    | succ fuel =>
      rw [cons_append] at h
      obtain ⟨hcb, hc⟩ := not_or.1 (mt mem_cons.2 hc)
      rw [strchr, h.lies.1, if_neg (h.ne b mem_cons_self), if_neg (Ne.symm hcb),
        ih h.tail hc (Nat.lt_of_succ_lt_succ hfuel), length_cons, add_assoc, add_comm 1]

/-- A string is cut off by a zero byte. -/
theorem Str.cut (h : Str m p (l ++ c :: r)) : Str (update m (p + l.length) 0) p l where
  lies := (lies_append.1 h.lies).1.update (.inr le_rfl)
  ends := update_self ..
  ne b hb := h.ne b (mem_append_left _ hb)

/-- What comes after a byte of a string. -/
theorem Str.after (h : Str m p (l ++ c :: r)) (b : Byte) : Str (update m (p + l.length) b) (p + l.length + 1) r where
  lies := (lies_append.1 h.lies).2.2.update (.inl (Nat.lt_succ_self _))
  ends := by
    have hend := h.ends
    rw [length_append, length_cons] at hend
    rw [update_of_ne (by omega), ← hend]
    exact congrArg m (by omega)
  ne d hd := h.ne d (mem_append_right _ (mem_cons_of_mem c hd))

end Machinery

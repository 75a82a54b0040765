import Mathlib.Data.List.Nodup
import Mathlib.Data.List.Perm.Basic

/-!
# Machinery/Dlist — circular doubly linked lists

The links are two functions on `Option α`, where `none` is the head.  `Seg` follows them from one
place to another; a list is there (`Rep`) if it is passed from the head back to the head, without
repetition.
-/

namespace Machinery

open Function List Option

/-- The links of the elements and of the head. -/
structure Links (α : Type*) where
  next : Option α → Option α
  prev : Option α → Option α

namespace Links

variable {α : Type*} {L L' : Links α} {l l₁ l₂ : List α} {a z : Option α} {b : α}

/-- Following the links from `a` one passes the list `l` and comes to `z`. -/
def Seg (L : Links α) : Option α → List α → Option α → Prop
  | a, [], z => L.next a = z ∧ L.prev z = a
  | a, b :: l, z => L.next a = some b ∧ L.prev (some b) = a ∧ L.Seg (some b) l z

/-- **The links are those of the list `l`.** -/
structure Rep (L : Links α) (l : List α) : Prop where
  seg : L.Seg none l none
  nodup : l.Nodup

theorem seg_append : L.Seg a (l₁ ++ b :: l₂) z ↔ L.Seg a l₁ (some b) ∧ L.Seg (some b) l₂ z := by
  induction l₁ generalizing a with
  | nil => simp only [nil_append, Seg, and_assoc]
  | cons c l₁ ih => simp only [cons_append, Seg, ih, and_assoc]

/-- Only the links on the way are read. -/
theorem Seg.congr (h : L.Seg a l z) (hnext : ∀ x, x = a ∨ x ∈ l.map some → L'.next x = L.next x)
    (hprev : ∀ x, x = z ∨ x ∈ l.map some → L'.prev x = L.prev x) : L'.Seg a l z := by
  induction l generalizing a with
  | nil => exact ⟨(hnext a (.inl rfl)).trans h.1, (hprev z (.inl rfl)).trans h.2⟩
  | cons b l ih =>
    refine ⟨(hnext a (.inl rfl)).trans h.1, (hprev _ (.inr (.head _))).trans h.2.1, ih h.2.2 ?_ ?_⟩
    · exact fun x hx => hnext x (.inr (hx.elim (· ▸ .head _) (.tail _)))
    · exact fun x hx => hprev x (hx.imp_right (.tail _))

/-- Following the links backwards one passes the list in reverse. -/
theorem Seg.symm (h : L.Seg a l z) : (⟨L.prev, L.next⟩ : Links α).Seg z l.reverse a := by
  induction l generalizing a with
  | nil => exact ⟨h.2, h.1⟩
  | cons b l ih =>
    rw [reverse_cons, seg_append]
    exact ⟨ih h.2.2, h.2.1, h.1⟩

/-- What is before the end is on the way. -/
theorem Seg.prev_mem (h : L.Seg a l z) : L.prev z = a ∨ L.prev z ∈ l.map some := by
  induction l generalizing a with
  | nil => exact .inl h.2
  | cons b l ih => exact .inr ((ih h.2.2).elim (· ▸ .head _) (.tail _))

theorem Rep.symm (h : L.Rep l) : (⟨L.prev, L.next⟩ : Links α).Rep l.reverse :=
  ⟨h.seg.symm, nodup_reverse.2 h.nodup⟩

/-- The last link of a segment is led elsewhere. -/
theorem Seg.redirect {z' : Option α} (h : L.Seg a l z) (ha : a ∉ l.map some) (hl : l.Nodup)
    (hlast : L'.next (L.prev z) = z') (hback : L'.prev z' = L.prev z)
    (hnext : ∀ x, x ≠ L.prev z → L'.next x = L.next x)
    (hprev : ∀ x ∈ l.map some, L'.prev x = L.prev x) : L'.Seg a l z' := by
  induction l generalizing a with
  | nil => exact ⟨h.2 ▸ hlast, hback.trans h.2⟩
  | cons b l ih =>
    obtain ⟨h1, h2, h3⟩ := h
    obtain ⟨hb, hl⟩ := nodup_cons.1 hl
    -- `a` is not the last: the last is `b` or after it
    have hmem : L.prev z ∈ (b :: l).map some := h3.prev_mem.elim (· ▸ .head _) (.tail _)
    refine ⟨(hnext a fun e => ha (e ▸ hmem)).trans h1, (hprev _ (.head _)).trans h2, ih h3 ?_ hl ?_⟩
    · exact fun hx => hb (by simpa using hx)
    · exact fun x hx => hprev x (.tail _ hx)

section Update

variable [DecidableEq α]

/-- Insert `b` after the head. -/
def insert (L : Links α) (b : α) : Links α where
  next := update (update L.next (some b) (L.next none)) none (some b)
  prev := update (update L.prev (some b) none) (L.next none) (some b)

/-- Take `b` out. -/
def remove (L : Links α) (b : α) : Links α where
  next := update L.next (L.prev (some b)) (L.next (some b))
  prev := update L.prev (L.next (some b)) (L.prev (some b))

theorem Rep.insert (h : L.Rep l) (hb : b ∉ l) : (L.insert b).Rep (b :: l) := by
  have hseg := h.seg
  have hnext : (L.insert b).next none = some b := by simp [Links.insert]
  have hnext' : ∀ x, x ≠ none → x ≠ some b → (L.insert b).next x = L.next x := fun x h0 h1 => by
    simp only [Links.insert, update_of_ne h0, update_of_ne h1]
  have hfirst : (L.insert b).next (some b) = L.next none := by simp [Links.insert]
  refine ⟨⟨hnext, ?_, ?_⟩, nodup_cons.2 ⟨hb, h.nodup⟩⟩
  · -- `head.next` is not `b`
    cases l with
    | nil => simp [Links.insert, hseg.1]
    | cons c l =>
      have hbc : b ≠ c := fun e => hb (e ▸ .head _)
      simp [Links.insert, hseg.1, hbc]
  · cases l with
    | nil => exact ⟨hfirst.trans hseg.1, by simp [Links.insert, hseg.1]⟩
    | cons c l =>
      have hbl : ∀ x ∈ l.map some, x ≠ some b := fun x hx e => by
        obtain ⟨y, hy, rfl⟩ := mem_map.1 hx
        exact hb (some.inj e ▸ .tail _ hy)
      have hcl : some c ∉ l.map some := fun hc => by
        obtain ⟨y, hy, e⟩ := mem_map.1 hc
        exact (nodup_cons.1 h.nodup).1 (some.inj e ▸ hy)
      have hcb : some c ≠ some b := fun e => hb (some.inj e ▸ .head _)
      refine ⟨hfirst.trans hseg.1, by simp [Links.insert, hseg.1], hseg.2.2.congr ?_ ?_⟩
      · rintro x (rfl | hx)
        · exact hnext' _ nofun hcb
        · exact hnext' x (by rintro rfl; simp at hx) (hbl x hx)
      · rintro x (rfl | hx)
        · simp [Links.insert, hseg.1]
        · have hxc : x ≠ some c := fun e => hcl (e ▸ hx)
          simp only [Links.insert, hseg.1, update_of_ne hxc, update_of_ne (hbl x hx)]

theorem Rep.remove (h : L.Rep (l₁ ++ b :: l₂)) : (L.remove b).Rep (l₁ ++ l₂) := by
  obtain ⟨h1, h2⟩ := seg_append.1 h.seg
  obtain ⟨hn1, hn2, hdis⟩ := nodup_append'.1 h.nodup
  obtain ⟨hb2, hn2⟩ := nodup_cons.1 hn2
  have hne : ∀ x ∈ l₁.map some, x ∉ (b :: l₂).map some := fun x hx hx' => by
    obtain ⟨y, hy, rfl⟩ := mem_map.1 hx
    exact hdis hy (by simpa using hx')
  have hlead : ∀ z', L.next (some b) = z' → z' ∉ l₁.map some → (L.remove b).Seg none l₁ z' :=
    fun z' hz' hmem => by
      refine h1.redirect (by simp) hn1 ?_ ?_ (fun x hx => ?_) fun x hx => ?_
      · simp [Links.remove, hz']
      · simp [Links.remove, hz']
      · simp only [Links.remove, update_of_ne hx]
      · have hxz : x ≠ L.next (some b) := fun e => hmem (hz' ▸ e ▸ hx)
        simp only [Links.remove, update_of_ne hxz]
  refine ⟨?_, nodup_append'.2 ⟨hn1, hn2, fun y h1 h2 => hdis h1 (.tail _ h2)⟩⟩
  cases l₂ with
  | nil =>
    rw [append_nil]
    exact hlead none h2.1 (by simp)
  | cons c l₂ =>
    obtain ⟨hc, -, h3⟩ := h2
    refine seg_append.2 ⟨hlead _ hc fun hx => hne _ hx (by simp), h3.congr (fun x hx => ?_) fun x hx => ?_⟩
    · -- what is before `b` is not after it
      have hxp : x ≠ L.prev (some b) := by
        rintro rfl
        have hx' : L.prev (some b) ∈ (b :: c :: l₂).map some := .tail _ (hx.elim (· ▸ .head _) (.tail _))
        rcases h1.prev_mem with hp | hp
        · simp [hp] at hx'
        · exact hne _ hp hx'
      simp only [Links.remove, update_of_ne hxp]
    · have hxc : x ≠ L.next (some b) := by
        rw [hc]
        rintro rfl
        refine (nodup_cons.1 hn2).1 ?_
        simpa using hx
      simp only [Links.remove, update_of_ne hxc]

end Update

/-! ## Loops -/

/-- The loop `for (b = f(head); b != head; b = f(b))` up to the first element with `p`. -/
def scan (f : Option α → Option α) (p : α → Bool) : (fuel : ℕ) → Option α → Option α
  | 0, _ => none
  | _ + 1, none => none
  | fuel + 1, some b => if p b then some b else scan f p fuel (f (some b))

variable {fuel : ℕ}

theorem Seg.scan_eq (h : L.Seg a l none) (p : α → Bool) (hfuel : l.length ≤ fuel) :
    scan L.next p fuel (L.next a) = l.find? p := by
  induction l generalizing a fuel with
  | nil =>
    rw [h.1]
    cases fuel <;> rfl
  | cons b l ih =>
    obtain ⟨k, rfl⟩ := Nat.exists_eq_add_of_le' (Nat.le_trans (Nat.le_add_left 1 _) hfuel)
    rw [h.1, scan, List.find?_cons]
    cases hp : p b with
    | true => rfl
    | false => exact ih h.2.2 (Nat.le_of_succ_le_succ hfuel)

/-- **A loop forwards finds the first.** -/
theorem Rep.scan_next (h : L.Rep l) (p : α → Bool) (hfuel : l.length ≤ fuel) :
    scan L.next p fuel (L.next none) = l.find? p :=
  h.seg.scan_eq p hfuel

/-- **A loop backwards finds the last.** -/
theorem Rep.scan_prev (h : L.Rep l) (p : α → Bool) (hfuel : l.length ≤ fuel) :
    scan L.prev p fuel (L.prev none) = l.reverse.find? p :=
  h.symm.scan_next p (by rwa [length_reverse])

/-- The elements that the loop `for (b = f(head); b != head; b = f(b))` visits. -/
def walk (f : Option α → Option α) : (fuel : ℕ) → Option α → List α
  | 0, _ => []
  | _ + 1, none => []
  | fuel + 1, some b => b :: walk f fuel (f (some b))

theorem Seg.walk_eq (h : L.Seg a l none) (hfuel : l.length ≤ fuel) :
    walk L.next fuel (L.next a) = l := by
  induction l generalizing a fuel with
  | nil =>
    rw [h.1]
    cases fuel <;> rfl
  | cons b l ih =>
    obtain ⟨k, rfl⟩ := Nat.exists_eq_add_of_le' (Nat.le_trans (Nat.le_add_left 1 _) hfuel)
    rw [h.1, walk, ih h.2.2 (Nat.le_of_succ_le_succ hfuel)]

/-- **A walk backwards visits the elements from the last to the first.** -/
theorem Rep.walk_prev (h : L.Rep l) (hfuel : l.length ≤ fuel) :
    walk L.prev fuel (L.prev none) = l.reverse :=
  h.symm.seg.walk_eq (by rwa [length_reverse])

end Links

end Machinery

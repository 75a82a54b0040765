import Mathlib.Algebra.BigOperators.Group.List.Basic
import Mathlib.Data.List.Pairwise
import Xv6.User.Umalloc

/-!
# User/UmallocList — the free list

A circle through `base`, in the order of the addresses, in which no block ends where the next one
starts (`FreeList`).  `free` inserts its block and lets two blocks absorb their successors
(`link_eq`); `Freed` is what is left then, and `Taken` what is left after `malloc` has taken a
block.
-/

namespace Xv6.Umalloc

open Machinery Function List Option Heap

variable {base fuel : ℕ} {h h' : Heap} {c c' u v v' live : List ℕ} {a b p bp n x y : ℕ}

/-- The block at `a` ends before `b`. -/
def Heap.Before (h : Heap) (a b : ℕ) : Prop := h.fin a < b

/-- Blocks that do not overlap. -/
def Heap.Apart (h : Heap) (a b : ℕ) : Prop := h.fin a ≤ b ∨ h.fin b ≤ a

def Heap.total (h : Heap) (l : List ℕ) : ℕ := (l.map h.size).sum

/-- **The free list**: its headers are `c`, from `base` on. -/
structure FreeList (base : ℕ) (h : Heap) (c : List ℕ) : Prop where
  head : c.head? = some base
  circle : Circle h.ptr c
  freep : h.freep ∈ c
  sorted : c.Pairwise h.Before
  base_size : h.size base = 0
  pos : ∀ a ∈ c, a ≠ base → 0 < h.size a

/-- **The free list and the allocated blocks.** -/
structure Shape (base : ℕ) (h : Heap) (c live : List ℕ) : Prop extends FreeList base h c where
  live_pos : ∀ b ∈ live, base < b ∧ 0 < h.size b
  apart : ∀ a ∈ c, ∀ b ∈ live, h.Apart a b
  live_apart : live.Pairwise h.Apart

theorem Heap.le_fin (h : Heap) (a : ℕ) : a ≤ h.fin a := Nat.le_add_right a _

theorem Heap.lt_fin (hp : 0 < h.size a) : a < h.fin a := by
  rw [Heap.fin, HEADER]
  omega

theorem Heap.fin_congr (hsize : h'.size a = h.size a) : h'.fin a = h.fin a := by
  rw [Heap.fin, Heap.fin, hsize]

theorem Heap.Before.lt (hb : h.Before a b) : a < b := (h.le_fin a).trans_lt hb

@[simp] theorem Heap.total_cons : h.total (a :: c) = h.size a + h.total c := sum_cons

@[simp] theorem Heap.total_append : h.total (c ++ c') = h.total c + h.total c' := by
  rw [Heap.total, map_append, sum_append]
  rfl

theorem Heap.total_congr (hc : ∀ x ∈ c, h'.size x = h.size x) : h'.total c = h.total c :=
  congrArg List.sum (map_congr_left hc)

/-! ## A block that absorbs its successor -/

/-- The block at `a` takes in the next one, if that starts where it ends. -/
def absorb (h : Heap) (a : ℕ) : Heap :=
  if h.fin a = h.ptr a then (h.setSize a (h.size a + h.size (h.ptr a))).setPtr a (h.ptr (h.ptr a)) else h

/-- `bp` comes after `p` in the list. -/
def insertAfter (h : Heap) (p bp : ℕ) : Heap := (h.setPtr bp (h.ptr p)).setPtr p bp

theorem absorb_insertAfter (hp : p ≠ bp) (hn : h.ptr p ≠ bp) (hself : h.fin bp = h.ptr p → h.ptr p ≠ p) :
    absorb (insertAfter h p bp) bp =
      (if h.fin bp = h.ptr p then (h.setSize bp (h.size bp + h.size (h.ptr p))).setPtr bp (h.ptr (h.ptr p))
        else h.setPtr bp (h.ptr p)).setPtr p bp := by
  have hptr : (insertAfter h p bp).ptr bp = h.ptr p := by
    simp [insertAfter, Heap.setPtr, hp.symm]
  rw [absorb, hptr, show (insertAfter h p bp).fin bp = h.fin bp from rfl]
  by_cases hnext : h.fin bp = h.ptr p
  · have hpp : (insertAfter h p bp).ptr (h.ptr p) = h.ptr (h.ptr p) := by
      simp [insertAfter, Heap.setPtr, hself hnext, hn]
    rw [if_pos hnext, if_pos hnext, hpp]
    simp only [insertAfter, Heap.setPtr, Heap.setSize, update_comm hp, update_idem]
  · rw [if_neg hnext, if_neg hnext]
    rfl

theorem absorb_setPtr (hp : p ≠ bp) :
    absorb (h.setPtr p bp) p =
      if h.fin p = bp then (h.setSize p (h.size p + h.size bp)).setPtr p (h.ptr bp) else h.setPtr p bp := by
  have hptr : (h.setPtr p bp).ptr p = bp := update_self ..
  have hpp : (h.setPtr p bp).ptr bp = h.ptr bp := update_of_ne hp.symm ..
  rw [absorb, hptr, hpp, show (h.setPtr p bp).fin p = h.fin p from rfl]
  refine ite_congr rfl (fun _ => ?_) fun _ => rfl
  simp only [Heap.setPtr, Heap.setSize, update_idem]

theorem link_eq (hp : p ≠ bp) (hn : h.ptr p ≠ bp) (hself : h.fin bp = h.ptr p → h.ptr p ≠ p) :
    link h bp p = { absorb (absorb (insertAfter h p bp) bp) p with freep := p } := by
  rw [absorb_insertAfter hp hn hself, absorb_setPtr hp]
  rfl

/-- **What `absorb` does to the list** `u ++ a :: v`. -/
structure Absorbed (h h' : Heap) (u : List ℕ) (a : ℕ) (v v' : List ℕ) : Prop where
  circle : Circle h'.ptr (u ++ a :: v')
  cases : v' = v ∧ h'.size a = h.size a ∧ (∀ n ∈ v.head?, h.fin a ≠ n) ∨
    ∃ n, v = n :: v' ∧ h.fin a = n ∧ h'.size a = h.size a + h.size n
  other : ∀ x, x ≠ a → h'.size x = h.size x
  lt : (∀ x, h.size x < 2 ^ 32) → ∀ x, h'.size x < 2 ^ 32
  brk : h'.brk = h.brk
  obtained : h'.obtained = h.obtained

theorem Heap.setSize_lt {k : ℕ} (hlt : ∀ x, h.size x < 2 ^ 32) (x : ℕ) : (h.setSize a k).size x < 2 ^ 32 := by
  by_cases hx : x = a
  · rw [hx, Heap.setSize]
    simp only [update_self]
    exact Nat.mod_lt _ (by decide)
  · rw [Heap.setSize]
    simp only [update_of_ne hx]
    exact hlt x

theorem absorb_spec (hc : Circle h.ptr (u ++ a :: v)) (hnd : (u ++ a :: v).Nodup)
    (hlast : v = [] → h.fin a ≠ h.ptr a) (hsum : ∀ n ∈ v.head?, h.size a + h.size n < 2 ^ 32) :
    ∃ v', Absorbed h (absorb h a) u a v v' := by
  have hrot := (circle_rotate u v).mp hc
  rw [absorb]
  cases v with
  | nil =>
    rw [if_neg (hlast rfl)]
    exact ⟨[], hc, .inl ⟨rfl, rfl, by simp⟩, fun _ _ => rfl, id, rfl, rfl⟩
  | cons n v =>
    rw [show h.ptr a = n from hrot.1]
    split_ifs with hnext
    · have hfresh : a ∉ v ++ u := by grind
      refine ⟨v, (circle_rotate u v).mpr ?_, .inr ⟨n, rfl, hnext, ?_⟩, fun x hx => update_of_ne hx ..,
        setSize_lt, rfl, rfl⟩
      · exact hrot.remove (update_self ..) fun x hx => update_of_ne (ne_of_mem_of_not_mem hx hfresh) ..
      · exact (update_self ..).trans (Nat.mod_eq_of_lt (hsum n rfl))
    · exact ⟨n :: v, hc, .inl ⟨rfl, rfl, by simpa using hnext⟩, fun _ _ => rfl, id, rfl, rfl⟩

namespace Absorbed

variable (H : Absorbed h h' u a v v')

include H

theorem sublist : v'.Sublist v := by
  rcases H.cases with ⟨rfl, -, -⟩ | ⟨n, rfl, -, -⟩
  · exact List.Sublist.refl _
  · exact sublist_cons_self n v'

theorem subset : v' ⊆ v := H.sublist.subset

theorem le_size : h.size a ≤ h'.size a := by
  rcases H.cases with ⟨-, hsize, -⟩ | ⟨n, -, -, hsize⟩ <;> omega

theorem closed {P : ℕ → ℕ → Prop} (hP : ∀ x y z, P x y → P y z → P x z) (ha : a ∉ v)
    (hv : ∀ x ∈ a :: v, P x (h.fin x)) : ∀ x ∈ a :: v', P x (h'.fin x) := by
  intro x hx
  rcases mem_cons.mp hx with rfl | hx
  · rcases H.cases with ⟨-, hsize, -⟩ | ⟨n, rfl, hn, hsize⟩
    · rw [fin_congr hsize]
      exact hv x mem_cons_self
    · have hfin : h'.fin x = h.fin n := by
        simp only [Heap.fin, HEADER] at hn ⊢
        omega
      rw [hfin]
      exact hP x n _ (hn ▸ hv x mem_cons_self) (hv n (by simp))
  · rw [fin_congr (H.other x fun e => ha (e ▸ H.subset hx))]
    exact hv x (mem_cons_of_mem a (H.subset hx))

theorem sorted (ha : a ∉ v) (hle : ∀ n ∈ v, h.fin a ≤ n) (hv : v.Pairwise h.Before) :
    (a :: v').Pairwise h'.Before := by
  refine pairwise_cons.mpr ⟨fun y hy => ?_, ?_⟩
  · rcases H.cases with ⟨rfl, hsize, hne⟩ | ⟨n, rfl, hn, hsize⟩
    · rw [Heap.Before, fin_congr hsize]
      -- only the first block of the rest could start where `a` ends
      cases v' with
      | nil => simp at hy
      | cons n v =>
        have hlt : h.fin a < n := lt_of_le_of_ne (hle n mem_cons_self) (hne n rfl)
        rcases mem_cons.mp hy with rfl | hy
        · exact hlt
        · exact hlt.trans ((pairwise_cons.mp hv).1 y hy).lt
    · have hfin : h'.fin a = h.fin n := by
        simp only [Heap.fin, HEADER] at hn ⊢
        omega
      rw [Heap.Before, hfin]
      exact (pairwise_cons.mp hv).1 y hy
  · refine (hv.sublist H.sublist).imp_of_mem fun {x y} hx _ hxy => ?_
    rw [Heap.Before, fin_congr (H.other x fun e => ha (e ▸ H.subset hx))]
    exact hxy

theorem total (ha : a ∉ v) : h'.total (a :: v') = h.total (a :: v) := by
  have hrest : h'.total v' = h.total v' := total_congr fun x hx => H.other x fun e => ha (e ▸ H.subset hx)
  rcases H.cases with ⟨rfl, hsize, -⟩ | ⟨n, rfl, -, hsize⟩
  · rw [total_cons, total_cons, hsize, hrest]
  · rw [total_cons, total_cons, total_cons, hsize, hrest, add_assoc]

end Absorbed

/-! ## The list itself -/

theorem exists_last_lt {l : List ℕ} (hl : (a :: l).Pairwise (· < ·)) (ha : a < b) :
    ∃ u p v, a :: l = u ++ p :: v ∧ p < b ∧ ∀ x ∈ v, ¬x < b := by
  induction l generalizing a with
  | nil => exact ⟨[], a, [], rfl, ha, by simp⟩
  | cons y l ih =>
    obtain ⟨-, hl'⟩ := pairwise_cons.mp hl
    by_cases hy : y < b
    · obtain ⟨u, p, v, heq, hp, hv⟩ := ih hl' hy
      exact ⟨a :: u, p, v, congrArg (a :: ·) heq, hp, hv⟩
    · refine ⟨[], a, y :: l, rfl, ha, fun x hx => ?_⟩
      rcases mem_cons.mp hx with rfl | hx
      · exact hy
      · have hyx := (pairwise_cons.mp hl').1 x hx
        omega

namespace FreeList

variable (hf : FreeList base h c)

include hf

theorem nodup : c.Nodup := hf.sorted.imp fun hb => hb.lt.ne

theorem base_mem : base ∈ c := mem_of_head? hf.head

theorem base_le (ha : a ∈ c) : base ≤ a := by
  obtain ⟨l, rfl⟩ := List.head?_eq_some_iff.mp hf.head
  rcases mem_cons.mp ha with rfl | ha
  · exact le_rfl
  · exact ((pairwise_cons.mp hf.sorted).1 a ha).lt.le

theorem lt_of_split (hc : c = u ++ a :: v) (hx : x ∈ v) : a < x := by
  have hs := hf.sorted
  rw [hc, pairwise_append, pairwise_cons] at hs
  exact (hs.2.1.1 x hx).lt

theorem sep (ha : a ∈ c) (hb : b ∈ c) (hab : a ≠ b) : h.Before a b ∨ h.Before b a := by
  have hs : c.Pairwise fun a b => h.Before a b ∨ h.Before b a := hf.sorted.imp Or.inl
  have : Std.Symm fun a b => h.Before a b ∨ h.Before b a := ⟨fun _ _ => Or.symm⟩
  exact hs.forall ha hb hab

theorem ptr_eq (hc : c = u ++ a :: v) : h.ptr a = v.headD base := by
  obtain ⟨l, rfl⟩ := List.head?_eq_some_iff.mp hf.head
  exact hf.circle.next_eq hc

/-- The place of a block that is not in the list. -/
theorem exists_place (hbp : base < bp) (hpos : 0 < h.size bp) (hapart : ∀ a ∈ c, h.Apart a bp) :
    ∃ u p v, c = u ++ p :: v ∧ p < bp ∧ h.fin p ≤ bp ∧ ∀ x ∈ v, h.fin bp ≤ x := by
  have hlt := lt_fin hpos
  have hbelow : ∀ a ∈ c, a < bp → h.fin a ≤ bp := fun a ha hab => by
    rcases hapart a ha with hle | hle <;> omega
  have habove : ∀ a ∈ c, ¬a < bp → h.fin bp ≤ a := fun a ha hab => by
    rcases hapart a ha with hle | hle
    · have hself : a = bp := by have := h.le_fin a; omega
      rw [hself] at hle
      omega
    · exact hle
  obtain ⟨l, rfl⟩ := List.head?_eq_some_iff.mp hf.head
  obtain ⟨u, p, v, hc, hp, hv⟩ := exists_last_lt (hf.sorted.imp Heap.Before.lt) hbp
  refine ⟨u, p, v, hc, hp, hbelow p (hc ▸ by simp) hp, fun x hx => habove x (hc ▸ by simp [hx]) (hv x hx)⟩

theorem between_self (hc : c = u ++ p :: v) (hp : p < bp) (hv : ∀ x ∈ v, bp < x) : between h bp p = true := by
  have hptr := hf.ptr_eq hc
  have hbase : base ≤ p := hf.base_le (hc ▸ by simp)
  cases v with
  | nil =>
    rw [headD_nil] at hptr
    simp [between, hptr, hbase, hp]
  | cons n v =>
    rw [headD_cons] at hptr
    simp [between, hptr, hp, hv n mem_cons_self]

theorem between_other (hc : c = u ++ p :: v) (hp : p < bp) (hv : ∀ x ∈ v, bp < x) (ha : a ∈ c) (hap : a ≠ p) :
    between h bp a = false := by
  have hbase : base ≤ p := hf.base_le (hc ▸ by simp)
  rw [hc] at ha
  rcases mem_append.mp ha with hu | hpv
  · -- `a` and its successor are both below `bp`
    obtain ⟨s, t, rfl⟩ := append_of_mem hu
    have hst : c = s ++ a :: (t ++ p :: v) := by rw [hc]; simp
    have hptr := hf.ptr_eq hst
    cases t with
    | nil =>
      have hnext : a < p := hf.lt_of_split hst (by simp)
      simp only [between, hptr, nil_append, headD_cons, decide_eq_false_iff_not]
      omega
    | cons n t =>
      have hnext : a < n := hf.lt_of_split hst (by simp)
      have hnp : n < p := hf.lt_of_split (u := s ++ [a]) (v := t ++ p :: v) (by rw [hst]; simp) (by simp)
      simp only [between, hptr, cons_append, headD_cons, decide_eq_false_iff_not]
      omega
  · -- `a` is above `bp`, and its successor is above `a` or is `base`
    have hav : a ∈ v := mem_of_ne_of_mem hap hpv
    have habp := hv a hav
    obtain ⟨s, t, rfl⟩ := append_of_mem hav
    have hst : c = (u ++ p :: s) ++ a :: t := by rw [hc]; simp
    have hptr := hf.ptr_eq hst
    cases t with
    | nil =>
      simp only [between, hptr, headD_nil, decide_eq_false_iff_not]
      omega
    | cons n t =>
      have hnext : a < n := hf.lt_of_split hst (by simp)
      simp only [between, hptr, headD_cons, decide_eq_false_iff_not]
      omega

end FreeList

/-! ## `free` -/

/-- **What `free` does**: the list is `c` before and `c'` after. -/
structure Freed (h : Heap) (c : List ℕ) (bp : ℕ) (h' : Heap) (c' : List ℕ) : Prop where
  head : c'.head? = c.head?
  circle : Circle h'.ptr c'
  freep : h'.freep ∈ c'
  sorted : c'.Pairwise h'.Before
  total : h'.total c' = h.total c + h.size bp
  /-- A block stays as it was, or is the one that the freed block is now in. -/
  keeps : ∀ x ∈ c', x ∈ c ∧ h'.size x = h.size x ∨ x ≤ bp ∧ h.fin bp ≤ h'.fin x
  holds : ∃ x ∈ c', h.size bp ≤ h'.size x
  other : ∀ x, x ∉ bp :: c → h'.size x = h.size x
  closed : ∀ P : ℕ → ℕ → Prop, (∀ x y z, P x y → P y z → P x z) → (∀ x ∈ bp :: c, P x (h.fin x)) →
    ∀ x ∈ c', P x (h'.fin x)
  lt : (∀ x, h.size x < 2 ^ 32) → ∀ x, h'.size x < 2 ^ 32
  brk : h'.brk = h.brk
  obtained : h'.obtained = h.obtained

theorem circle_insertAfter (hcirc : Circle h.ptr (u ++ p :: v)) (hnd : (u ++ p :: bp :: v).Nodup) :
    Circle (insertAfter h p bp).ptr (u ++ p :: bp :: v) := by
  have hp : p ≠ bp ∧ p ∉ v ++ u ∧ bp ∉ v ++ u := by grind
  refine (circle_rotate u (bp :: v)).mpr (((circle_rotate u v).mp hcirc).insert (update_self ..) ?_ fun x hx => ?_)
  · exact (update_of_ne hp.1.symm ..).trans (update_self ..)
  · exact (update_of_ne (ne_of_mem_of_not_mem hx hp.2.1) ..).trans (update_of_ne (ne_of_mem_of_not_mem hx hp.2.2) ..)

/-! `bp` has come after `p`; first `bp` may absorb its successor, and then `p` may absorb `bp`. -/

section Link

variable {h₁ h₂ : Heap} {v₁ v₂ : List ℕ} (hs : (u ++ p :: v).Pairwise h.Before) (hnd : (u ++ p :: bp :: v).Nodup)
  (hfin : h.fin p ≤ bp) (hv : ∀ x ∈ v, h.fin bp ≤ x)
  (A₁ : Absorbed (insertAfter h p bp) h₁ (u ++ [p]) bp v v₁) (A₂ : Absorbed h₁ h₂ u p (bp :: v₁) v₂)

include hnd A₁ in
theorem link_notMem : p ∉ bp :: v₁ := by
  have := A₁.subset
  grind

include A₁ A₂ in
theorem link_size (hx : x ≠ bp) (hxp : x ≠ p) : h₂.size x = h.size x := (A₂.other x hxp).trans (A₁.other x hx)

include hnd A₁ A₂ in
theorem link_size_left (hx : x ∈ u) : h₂.size x = h.size x := link_size A₁ A₂ (by grind) (by grind)

include hnd A₁ in
theorem link_fin_prev : h₁.fin p = h.fin p := fin_congr (A₁.other p (by grind))

include hs hnd hfin hv A₁ A₂ in
theorem link_sorted : (u ++ p :: v₂).Pairwise h₂.Before := by
  obtain ⟨hu, hpv, huv⟩ := pairwise_append.mp hs
  have htail : (p :: v₂).Pairwise h₂.Before := by
    refine A₂.sorted (link_notMem hnd A₁) (fun n hn => (link_fin_prev hnd A₁).le.trans (hfin.trans ?_))
      (A₁.sorted (by grind) hv (pairwise_cons.mp hpv).2)
    rcases mem_cons.mp hn with rfl | hn
    · exact le_rfl
    · exact (h.le_fin bp).trans (hv n (A₁.subset hn))
  have hleft : ∀ x ∈ u, h₂.fin x = h.fin x := fun x hx => fin_congr (link_size_left hnd A₁ A₂ hx)
  refine pairwise_append.mpr ⟨hu.imp_of_mem fun {x y} hx _ hxy => ?_, htail, fun x hx y hy => ?_⟩
  · exact (hleft x hx).trans_lt hxy
  · have hxp : h₂.fin x < p := (hleft x hx).trans_lt (huv x hx p mem_cons_self)
    rcases mem_cons.mp hy with rfl | hy
    · exact hxp
    · exact hxp.trans ((pairwise_cons.mp htail).1 y hy).lt

include hnd A₁ A₂ in
theorem link_total : h₂.total (u ++ p :: v₂) = h.total (u ++ p :: v) + h.size bp := by
  have htail : h₂.total (p :: v₂) = h.size p + (h.size bp + h.total v) := by
    rw [A₂.total (link_notMem hnd A₁), total_cons, A₁.total (by grind), A₁.other p (by grind)]
    rfl
  rw [total_append, htail, total_congr fun x hx => link_size_left hnd A₁ A₂ hx, total_append,
    total_cons]
  omega

include hnd A₁ A₂ in
theorem link_closed {P : ℕ → ℕ → Prop} (hP : ∀ x y z, P x y → P y z → P x z)
    (hall : ∀ x ∈ bp :: (u ++ p :: v), P x (h.fin x)) : ∀ x ∈ u ++ p :: v₂, P x (h₂.fin x) := by
  have hright : ∀ x ∈ bp :: v₁, P x (h₁.fin x) := A₁.closed hP (by grind) fun x hx => hall x (by grind)
  have hprev : P p (h₁.fin p) := link_fin_prev hnd A₁ ▸ hall p (by simp)
  intro x hx
  rcases mem_append.mp hx with hx | hx
  · rw [fin_congr (link_size_left hnd A₁ A₂ hx)]
    exact hall x (by simp [hx])
  · exact A₂.closed hP (link_notMem hnd A₁) (forall_mem_cons.mpr ⟨hprev, hright⟩) x hx

include hnd hfin A₁ A₂ in
theorem link_keeps (hx : x ∈ u ++ p :: v₂) :
    x ∈ u ++ p :: v ∧ h₂.size x = h.size x ∨ x ≤ bp ∧ h.fin bp ≤ h₂.fin x := by
  have hbp : h.size bp ≤ h₁.size bp := A₁.le_size
  have hsizep : h₁.size p = h.size p := A₁.other p (by grind)
  rcases mem_append.mp hx with hx | hx
  · exact .inl ⟨by simp [hx], link_size_left hnd A₁ A₂ hx⟩
  rcases mem_cons.mp hx with rfl | hx
  · rcases A₂.cases with ⟨-, hsize, -⟩ | ⟨n, hn, hadj, hsize⟩
    · exact .inl ⟨by simp, hsize.trans hsizep⟩
    · obtain ⟨rfl, -⟩ := List.cons.inj hn
      refine .inr ⟨(h.le_fin x).trans hfin, ?_⟩
      simp only [Heap.fin, HEADER] at hadj ⊢
      omega
  · have hxp : x ≠ p := ne_of_mem_of_not_mem (A₂.subset hx) (link_notMem hnd A₁)
    by_cases hxb : x = bp
    · refine .inr ⟨hxb.le, ?_⟩
      rw [fin_congr (A₂.other x hxp), hxb]
      simp only [Heap.fin, HEADER]
      omega
    · have hxv : x ∈ v := A₁.subset (mem_of_ne_of_mem hxb (A₂.subset hx))
      exact .inl ⟨by simp [hxv], link_size A₁ A₂ hxb hxp⟩

include hnd A₁ A₂ in
theorem link_holds : ∃ x ∈ u ++ p :: v₂, h.size bp ≤ h₂.size x := by
  have hbp : h.size bp ≤ h₁.size bp := A₁.le_size
  rcases A₂.cases with ⟨rfl, -, -⟩ | ⟨n, hn, -, hsize⟩
  · refine ⟨bp, by simp, ?_⟩
    rwa [A₂.other bp (by grind)]
  · obtain ⟨rfl, -⟩ := List.cons.inj hn
    exact ⟨p, by simp, by omega⟩

include hs hnd hfin hv A₁ A₂ in
theorem freed_of_absorbed : Freed h (u ++ p :: v) bp { h₂ with freep := p } (u ++ p :: v₂) where
  head := by cases u <;> rfl
  circle := A₂.circle
  freep := by simp
  sorted := (link_sorted hs hnd hfin hv A₁ A₂ :)
  total := (link_total hnd A₁ A₂ :)
  keeps := fun x hx => (link_keeps hnd hfin A₁ A₂ hx :)
  holds := (link_holds hnd A₁ A₂ :)
  other := fun x hx => (link_size (x := x) A₁ A₂ (by grind) (by grind) :)
  closed := fun P hP hall => (link_closed hnd A₁ A₂ hP hall :)
  lt := fun hlt => A₂.lt (A₁.lt hlt)
  brk := A₂.brk.trans A₁.brk
  obtained := A₂.obtained.trans A₁.obtained

end Link

theorem FreeList.link_freed (hf : FreeList base h c) (hc : c = u ++ p :: v) (hp : p < bp) (hfin : h.fin p ≤ bp)
    (hpos : 0 < h.size bp) (hv : ∀ x ∈ v, h.fin bp ≤ x)
    (hwrap : ∀ p ∈ c, ∀ n ∈ c, p < bp → n = base ∨ bp < n → h.size p + h.size bp + h.size n < 2 ^ 32) :
    ∃ c', Freed h c bp (link h bp p) c' := by
  have hlt := lt_fin hpos
  have hbase : base < bp := (hf.base_le (hc ▸ by simp)).trans_lt hp
  have hs := hc ▸ hf.sorted
  have hnd : (u ++ p :: bp :: v).Nodup := by
    have hnd := hc ▸ hf.nodup
    have hbu : bp ∉ u := fun hm => by
      have := ((pairwise_append.mp hs).2.2 bp hm p mem_cons_self).lt
      omega
    have hbv : bp ∉ v := fun hm => by
      have := hv bp hm
      omega
    grind
  have hptr := hf.ptr_eq hc
  have hsum : ∀ n ∈ v.head?, h.size p + h.size bp + h.size n < 2 ^ 32 := fun n hn => by
    have hnv := mem_of_head? hn
    exact hwrap p (hc ▸ by simp) n (hc ▸ by simp [hnv]) hp (.inr (hlt.trans_le (hv n hnv)))
  have hne : p ≠ bp := hp.ne
  have hnext : (insertAfter h p bp).ptr bp = h.ptr p := (update_of_ne hne.symm ..).trans (update_self ..)
  obtain ⟨v₁, A₁⟩ : ∃ v₁, Absorbed (insertAfter h p bp) (absorb (insertAfter h p bp) bp) (u ++ [p]) bp v v₁ := by
    refine absorb_spec (by simpa using circle_insertAfter (hc ▸ hf.circle) hnd) (by simpa using hnd) ?_ fun n hn =>
      (Nat.add_le_add_right (Nat.le_add_left ..) _).trans_lt (hsum n hn)
    rintro rfl hself
    rw [hnext, hptr] at hself
    exact (hbase.trans hlt).ne' hself
  obtain ⟨v₂, A₂⟩ : ∃ v₂, Absorbed (absorb (insertAfter h p bp) bp) (absorb (absorb (insertAfter h p bp) bp) p) u p
      (bp :: v₁) v₂ := by
    refine absorb_spec (by simpa using A₁.circle) ?_ (by simp) fun n hn => ?_
    · have := A₁.sublist
      refine hnd.sublist ?_
      simpa using this
    · obtain rfl : bp = n := by simpa using hn
      have hsizep : (absorb (insertAfter h p bp) bp).size p = h.size p := A₁.other p hne
      have hbase0 := hwrap p (hc ▸ by simp) base hf.base_mem hp (.inl rfl)
      rcases A₁.cases with ⟨-, hsize, -⟩ | ⟨n, rfl, -, hsize⟩
      · have hsize' : (absorb (insertAfter h p bp) bp).size bp = h.size bp := hsize
        omega
      · have hsize' : (absorb (insertAfter h p bp) bp).size bp = h.size bp + h.size n := hsize
        have := hsum n rfl
        omega
  have hn : h.ptr p ≠ bp ∧ (h.fin bp = h.ptr p → h.ptr p ≠ p) := by
    refine ⟨fun e => ?_, fun e => by omega⟩
    rw [hptr] at e
    cases v with
    | nil => exact hbase.ne e
    | cons n v =>
      have := hv n mem_cons_self
      rw [headD_cons] at e
      omega
  rw [hc, link_eq hne hn.1 hn.2]
  exact ⟨u ++ p :: v₂, freed_of_absorbed hs hnd hfin hv A₁ A₂⟩

section Free

variable (hf : FreeList base h c) (hbp : base < bp) (hpos : 0 < h.size bp) (hapart : ∀ a ∈ c, h.Apart a bp)
  (hwrap : ∀ p ∈ c, ∀ n ∈ c, p < bp → n = base ∨ bp < n → h.size p + h.size bp + h.size n < 2 ^ 32)

include hf hbp hpos hapart hwrap

/-- **`free` returns**, with its block in the list, unless it uses a header outside the process. -/
theorem FreeList.free_returns : ∃ r, (∀ fuel, c.length ≤ fuel → free fuel h bp = some r) ∧
    ((∀ a ∈ bp :: c, h.mapped a = true) → r ≠ none) ∧ ∀ h', r = some h' → ∃ c', Freed h c bp h' c' := by
  obtain ⟨u, p, v, hc, hp, hfin, hv⟩ := hf.exists_place hbp hpos hapart
  have hpc : p ∈ c := hc ▸ by simp
  have hv' : ∀ x ∈ v, bp < x := fun x hx => (lt_fin hpos).trans_le (hv x hx)
  have hfreed := hf.link_freed hc hp hfin hpos hv hwrap
  obtain ⟨y, hy, hstop, hhunt⟩ := hf.circle.hunt_exists (fun p => !h.mapped p || between h bp p) hf.freep hpc
    (by rw [hf.between_self hc hp hv', Bool.or_true])
  refine ⟨_, fun fuel hfuel => by rw [free, hhunt fuel hfuel, map_some], fun hmap => ?_, fun h' hr => ?_⟩
  · have hmapc : ∀ a ∈ c, h.mapped a = true := fun a ha => hmap a (mem_cons_of_mem bp ha)
    rw [hmapc y hy, hmap bp mem_cons_self, hmapc _ (hf.circle.next_mem hy), Bool.or_true]
    simp
  · rw [ite_none_right_eq_some, Bool.and_eq_true, Bool.and_eq_true] at hr
    -- it has stopped at a header that it can use, so at the place of `bp`
    obtain rfl : y = p := by
      by_contra hyp
      rw [hr.1.1.1, hf.between_other hc hp hv' hy hyp] at hstop
      exact Bool.false_ne_true hstop
    exact (some.inj hr.2) ▸ hfreed

theorem FreeList.free_freed (hmap : ∀ a ∈ bp :: c, h.mapped a = true) :
    ∃ h' c', Freed h c bp h' c' ∧ ∀ fuel, c.length ≤ fuel → free fuel h bp = some (some h') := by
  obtain ⟨r, hr, hne, hfreed⟩ := hf.free_returns hbp hpos hapart hwrap
  obtain ⟨h', rfl⟩ := ne_none_iff_exists'.mp (hne hmap)
  obtain ⟨c', hc'⟩ := hfreed h' rfl
  exact ⟨h', c', hc', hr⟩

end Free

namespace Freed

variable (hfreed : Freed h c bp h' c')

include hfreed

theorem freeList (hf : FreeList base h c) (hbp : base < bp) (hpos : 0 < h.size bp) : FreeList base h' c' where
  head := hfreed.head.trans hf.head
  circle := hfreed.circle
  freep := hfreed.freep
  sorted := hfreed.sorted
  base_size := by
    have hmem : base ∈ c' := mem_of_head? (hfreed.head.trans hf.head)
    have hfin := hfreed.closed (fun lo hi => lo = base → hi = base) (fun x y z hxy hyz hx => hyz (hxy hx))
      (fun x hx hxb => by
        rcases mem_cons.mp hx with rfl | -
        · exact absurd hxb hbp.ne'
        · rw [hxb, Heap.fin, hf.base_size, mul_zero, add_zero]) base hmem rfl
    simp only [Heap.fin, HEADER] at hfin
    omega
  pos := fun a ha hab => by
    have hfin := hfreed.closed (fun lo hi => lo ≤ hi ∧ (lo = base ∨ lo < hi)) (fun x y z hxy hyz => by omega)
      (fun x hx => ⟨h.le_fin x, or_iff_not_imp_left.mpr fun hxb => lt_fin (by
        rcases mem_cons.mp hx with rfl | hx
        · exact hpos
        · exact hf.pos x hx hxb)⟩) a ha
    simp only [Heap.fin, HEADER] at hfin
    omega

theorem apart (hpos : 0 < h.size b) (hb : b ∉ bp :: c) (hall : ∀ a ∈ bp :: c, h.Apart a b) :
    ∀ a ∈ c', h'.Apart a b := by
  have hlt := lt_fin hpos
  rw [← fin_congr (hfreed.other b hb)] at hlt
  refine hfreed.closed (fun lo hi => hi ≤ b ∨ h'.fin b ≤ lo) (fun x y z hxy hyz => by omega) fun a ha => ?_
  rw [fin_congr (hfreed.other b hb)]
  exact hall a ha

end Freed

theorem Heap.Apart.ne (hab : h.Apart a b) (hpos : 0 < h.size b) : a ≠ b := by
  rintro rfl
  have := lt_fin hpos
  rcases hab with hle | hle <;> omega

theorem Heap.Apart.congr (hab : h.Apart a b) (ha : h'.size a = h.size a) (hb : h'.size b = h.size b) :
    h'.Apart a b := by
  rwa [Heap.Apart, fin_congr ha, fin_congr hb]

namespace Shape

variable (hs : Shape base h c (bp :: live)) (hfreed : Freed h c bp h' c')

include hs in
theorem apart_cons (hb : b ∈ live) : ∀ a ∈ bp :: c, h.Apart a b :=
  forall_mem_cons.mpr ⟨(pairwise_cons.mp hs.live_apart).1 b hb, fun a ha =>
    hs.apart a ha b (mem_cons_of_mem bp hb)⟩

include hs in
theorem notMem_cons (hb : b ∈ live) : b ∉ bp :: c := fun hmem =>
  (hs.apart_cons hb b hmem).ne (hs.live_pos b (mem_cons_of_mem bp hb)).2 rfl

include hs hfreed

theorem freed_size (hb : b ∈ live) : h'.size b = h.size b := hfreed.other b (hs.notMem_cons hb)

/-- **`free` keeps the shape of the heap.** -/
theorem freed : Shape base h' c' live := by
  obtain ⟨hbp, hpos⟩ := hs.live_pos bp mem_cons_self
  have hlivepos : ∀ b ∈ live, base < b ∧ 0 < h.size b := fun b hb => hs.live_pos b (mem_cons_of_mem bp hb)
  exact
    { hfreed.freeList hs.toFreeList hbp hpos with
      live_pos := fun b hb => by
        rw [hs.freed_size hfreed hb]
        exact hlivepos b hb
      apart := fun a ha b hb => hfreed.apart (hlivepos b hb).2 (hs.notMem_cons hb) (hs.apart_cons hb) a ha
      live_apart := (pairwise_cons.mp hs.live_apart).2.imp_of_mem fun {x y} hx hy hxy =>
        hxy.congr (hs.freed_size hfreed hx) (hs.freed_size hfreed hy) }

end Shape

/-! ## A block for `malloc` -/

/-- What `malloc` returns a part of the block at `x` as: its last units. -/
def Heap.tail (h : Heap) (nunits x : ℕ) : ℕ := x + HEADER * (h.size x - nunits)

theorem Heap.fin_tail {nunits : ℕ} (hsize : h'.size (h.tail nunits x) = nunits) (hx : nunits ≤ h.size x) :
    h'.fin (h.tail nunits x) = h.fin x := by
  rw [Heap.fin, hsize]
  simp only [Heap.tail, Heap.fin, HEADER]
  omega

theorem Heap.tail_mem {nunits : ℕ} (hpos : 0 < nunits) (hx : nunits < h.size x) :
    x < h.tail nunits x ∧ h.tail nunits x < h.fin x := by
  simp only [Heap.tail, Heap.fin, HEADER]
  omega

theorem FreeList.ne_tail {nunits : ℕ} (hf : FreeList base h c) (hxc : x ∈ c) (ha : a ∈ c) (hpos : 0 < nunits)
    (hx : nunits < h.size x) : a ≠ h.tail nunits x := by
  have hin := tail_mem hpos hx
  by_cases hax : a = x
  · omega
  · have := h.le_fin a
    rcases hf.sep ha hxc hax with hlt | hlt <;> simp only [Heap.Before] at hlt <;> omega

/-- **What `malloc` does** to the list `c` when it takes `nunits` units of the block at `x`. -/
structure Taken (base : ℕ) (h : Heap) (c : List ℕ) (nunits x : ℕ) (h' : Heap) (c' : List ℕ) : Prop where
  freeList : FreeList base h' c'
  size : h'.size (h.tail nunits x) = nunits
  total : h'.total c' + nunits = h.total c
  shrinks : ∀ a ∈ c', a ∈ c ∧ h'.fin a ≤ h.fin a
  apart : ∀ a ∈ c', h'.Apart a (h.tail nunits x)
  other : ∀ y, y ≠ x → y ≠ h.tail nunits x → h'.size y = h.size y
  lt : (∀ y, h.size y < 2 ^ 32) → ∀ y, h'.size y < 2 ^ 32
  brk : h'.brk = h.brk
  obtained : h'.obtained = h.obtained

section Take

variable {nunits prevp : ℕ} (hf : FreeList base h c) (hc : c = u ++ prevp :: x :: v)

include hf hc

theorem FreeList.ne_base_of_split : x ≠ base := by
  have hlt : prevp < x := hf.lt_of_split hc mem_cons_self
  have := hf.base_le (a := prevp) (hc ▸ by simp)
  omega

theorem FreeList.take_exact (hx : h.size x = nunits) :
    ∃ h' c', Taken base h c nunits x h' c' ∧ take h nunits prevp x = (.block (h.tail nunits x), h') := by
  have htail : h.tail nunits x = x := by rw [Heap.tail, hx, Nat.sub_self, mul_zero, add_zero]
  have hfresh : prevp ∉ v ++ u := by
    have hnd := hc ▸ hf.nodup
    grind
  have hsub : (u ++ prevp :: v).Sublist c := by
    rw [hc]
    exact (List.Sublist.refl u).append ((sublist_cons_self x v).cons_cons prevp)
  have hxc : x ∈ c := hc ▸ by simp
  have hxnot : x ∉ u ++ prevp :: v := by
    have hnd := hc ▸ hf.nodup
    grind
  have hsep : ∀ a ∈ u ++ prevp :: v, h.Apart a x := fun a ha =>
    (hf.sep (hsub.subset ha) hxc (ne_of_mem_of_not_mem ha hxnot)).imp le_of_lt le_of_lt
  have hcirc : Circle (update h.ptr prevp (h.ptr x)) (u ++ prevp :: v) := by
    have hrot := (circle_rotate u (x :: v)).mp (hc ▸ hf.circle)
    exact (circle_rotate u v).mpr
      (hrot.remove (update_self ..) fun y hy => update_of_ne (ne_of_mem_of_not_mem hy hfresh) ..)
  refine ⟨{ h.setPtr prevp (h.ptr x) with freep := prevp }, u ++ prevp :: v, ?_, ?_⟩
  · exact
      { freeList :=
          { head := by
              have := hf.head
              rw [hc] at this
              cases u <;> simpa using this
            circle := hcirc
            freep := by simp
            sorted := hf.sorted.sublist hsub
            base_size := hf.base_size
            pos := fun a ha => hf.pos a (hsub.subset ha) }
        size := htail.symm ▸ hx
        total := by
          have htot : h.total (u ++ prevp :: v) + nunits = h.total c := by
            rw [hc]
            simp only [total_append, total_cons]
            omega
          exact htot
        shrinks := fun a ha => ⟨hsub.subset ha, le_rfl⟩
        apart := fun a ha => by
          rw [htail]
          exact hsep a ha
        other := fun _ _ _ => rfl
        lt := id
        brk := rfl
        obtained := rfl }
  · rw [take, if_pos hx, htail]

theorem FreeList.take_split (hpos : 0 < nunits) (hx : nunits < h.size x) (hlt : h.size x < 2 ^ 32)
    (hmap : h.mapped (h.tail nunits x) = true) :
    ∃ h' c', Taken base h c nunits x h' c' ∧ take h nunits prevp x = (.block (h.tail nunits x), h') := by
  have hxb := hf.ne_base_of_split hc
  have hxc : x ∈ c := hc ▸ by simp
  have hmod : (h.size x - nunits) % 2 ^ 32 = h.size x - nunits := Nat.mod_eq_of_lt (by omega)
  have hmod' : nunits % 2 ^ 32 = nunits := Nat.mod_eq_of_lt (by omega)
  have hfin : (h.setSize x (h.size x - nunits)).fin x = h.tail nunits x := by
    simp only [Heap.fin, Heap.setSize, update_self, hmod, Heap.tail]
  have hin := tail_mem hpos hx
  have hne : ∀ a ∈ c, a ≠ h.tail nunits x := fun a ha => hf.ne_tail hxc ha hpos hx
  obtain ⟨h', hh'⟩ : ∃ h', h' = { (h.setSize x (h.size x - nunits)).setSize (h.tail nunits x) nunits with
      freep := prevp } := ⟨_, rfl⟩
  have hsize : h'.size = update (update h.size x (h.size x - nunits)) (h.tail nunits x) nunits := by
    rw [hh']
    simp only [Heap.setSize, hmod, hmod']
  have hsize_x : h'.size x = h.size x - nunits := by rw [hsize, update_of_ne (hne x hxc), update_self]
  have hother : ∀ y, y ≠ x → y ≠ h.tail nunits x → h'.size y = h.size y := fun y hyx hyt => by
    rw [hsize, update_of_ne hyt, update_of_ne hyx]
  have hfin_x : h'.fin x = h.tail nunits x := by rw [Heap.fin, hsize_x, Heap.tail]
  have hsize_tail : h'.size (h.tail nunits x) = nunits := by rw [hsize, update_self]
  have hle : ∀ a ∈ c, h'.fin a ≤ h.fin a := fun a ha => by
    by_cases hax : a = x
    · rw [hax, hfin_x]
      exact hin.2.le
    · rw [fin_congr (hother a hax (hne a ha))]
  refine ⟨h', c, ?_, ?_⟩
  · exact
      { freeList :=
          { head := hf.head
            circle := hh' ▸ hf.circle
            freep := by
              rw [hh', hc]
              simp
            sorted := hf.sorted.imp_of_mem fun ha _ hab => (hle _ ha).trans_lt hab
            base_size := (hother base hxb.symm (hne base hf.base_mem)).trans hf.base_size
            pos := fun a ha hab => by
              by_cases hax : a = x
              · rw [hax, hsize_x]
                omega
              · rw [hother a hax (hne a ha)]
                exact hf.pos a ha hab }
        size := hsize_tail
        total := by
          have hnd := hc ▸ hf.nodup
          have hu : h'.total u = h.total u := total_congr fun y hy =>
            hother y (by grind) (hne y (hc ▸ by simp [hy]))
          have hv : h'.total v = h.total v := total_congr fun y hy =>
            hother y (by grind) (hne y (hc ▸ by simp [hy]))
          have hp : h'.size prevp = h.size prevp := hother prevp (by grind) (hne prevp (hc ▸ by simp))
          rw [hc]
          simp only [total_append, total_cons, hu, hv, hp, hsize_x]
          omega
        shrinks := fun a ha => ⟨ha, hle a ha⟩
        apart := fun a ha => by
          by_cases hax : a = x
          · exact .inl (hax ▸ hfin_x.le)
          · refine (hf.sep ha hxc hax).imp (fun hlt => (hle a ha).trans (hlt.le.trans hin.1.le)) fun hlt => ?_
            rw [fin_tail hsize_tail hx.le]
            exact hlt.le
        other := hother
        lt := fun hlt y => by
          rw [hh']
          exact setSize_lt (setSize_lt hlt) y
        brk := by rw [hh']; rfl
        obtained := by rw [hh']; rfl }
  · rw [take, if_neg hx.ne', hh']
    simp only [hfin]
    exact if_pos hmap

theorem FreeList.take_taken (hpos : 0 < nunits) (hx : nunits ≤ h.size x) (hlt : h.size x < 2 ^ 32)
    (hmap : h.mapped (h.tail nunits x) = true) :
    ∃ h' c', Taken base h c nunits x h' c' ∧ take h nunits prevp x = (.block (h.tail nunits x), h') := by
  rcases hx.eq_or_lt with hx | hx
  · exact hf.take_exact hc hx.symm
  · exact hf.take_split hc hpos hx hlt hmap

end Take

namespace Shape

variable {nunits : ℕ} (hs : Shape base h c live) (ht : Taken base h c nunits x h' c') (hxc : x ∈ c)
  (hpos : 0 < nunits) (hx : nunits ≤ h.size x)

include hs ht hxc hpos hx

theorem taken_size (hb : b ∈ live) : h'.size b = h.size b := by
  have hle : x ≤ h.tail nunits x := Nat.le_add_right x _
  have hlt : h.tail nunits x < h.fin x := by
    rw [← fin_tail ht.size hx]
    exact lt_fin (ht.size.symm ▸ hpos)
  have hb' := lt_fin (hs.live_pos b hb).2
  refine ht.other b (hs.apart x hxc b hb |>.ne (hs.live_pos b hb).2).symm fun e => ?_
  rcases hs.apart x hxc b hb with hle' | hle' <;> omega

/-- **`malloc` keeps the shape of the heap**, with one more block. -/
theorem taken : Shape base h' c' (h.tail nunits x :: live) := by
  have hle : x ≤ h.tail nunits x := Nat.le_add_right x _
  have hsize : ∀ b ∈ live, h'.size b = h.size b := fun b hb => hs.taken_size ht hxc hpos hx hb
  have hbase : x ≠ base := fun e => by
    have := hs.base_size
    rw [e] at hx
    omega
  exact
    { ht.freeList with
      live_pos := forall_mem_cons.mpr
        ⟨⟨(lt_of_le_of_ne (hs.base_le hxc) hbase.symm).trans_le hle, ht.size.symm ▸ hpos⟩,
          fun b hb => ⟨(hs.live_pos b hb).1, hsize b hb ▸ (hs.live_pos b hb).2⟩⟩
      apart := fun a ha => forall_mem_cons.mpr ⟨ht.apart a ha, fun b hb => by
        rw [Heap.Apart, fin_congr (hsize b hb)]
        exact (hs.apart a (ht.shrinks a ha).1 b hb).imp_left (ht.shrinks a ha).2.trans⟩
      live_apart := pairwise_cons.mpr ⟨fun b hb => by
        rw [Heap.Apart, fin_tail ht.size hx, fin_congr (hsize b hb)]
        exact (hs.apart x hxc b hb).imp_right fun hle' => hle'.trans hle,
        hs.live_apart.imp_of_mem fun {a b} ha hb hab => hab.congr (hsize a ha) (hsize b hb)⟩ }

end Shape

end Xv6.Umalloc

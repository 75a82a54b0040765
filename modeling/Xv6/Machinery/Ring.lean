import Mathlib.Data.Nat.ModEq
import Mathlib.Data.List.Basic

/-!
# Machinery/Ring — a ring buffer with free-running counters

Two counters only grow, modulo `M`; a cell is addressed by a counter modulo `size`.  If `size`
divides `M`, putting and taking act on the `contents` as on a queue.
-/

namespace Machinery.Ring

open Function List Nat

variable {α : Type*} {M size r w : ℕ} {data : ℕ → α}

/-- How many elements there are between the counters. -/
def count (M r w : ℕ) : ℕ := (w + M - r) % M

/-- The elements between the counters, oldest first. -/
def contents (M size : ℕ) (data : ℕ → α) (r w : ℕ) : List α :=
  (List.range (count M r w)).map fun k => data ((r + k) % size)

@[simp] theorem length_contents : (contents M size data r w).length = count M r w := by
  simp [contents]

/-- The second counter is as far ahead as there are elements. -/
theorem add_count (hr : r < M) (hw : w < M) : (r + count M r w) % M = w := by
  rw [count, add_mod_mod, show r + (w + M - r) = w + M by omega, add_mod_right,
    mod_eq_of_lt hw]

theorem count_eq_zero (hr : r < M) (hw : w < M) : count M r w = 0 ↔ r = w := by
  constructor
  · intro h
    have := add_count hr hw
    rwa [h, add_zero, mod_eq_of_lt hr] at this
  · rintro rfl
    rw [count, show r + M - r = M by omega, mod_self]

theorem count_eq_iff (hr : r < M) (hw : w < M) {c : ℕ} (hc : c < M) :
    count M r w = c ↔ w = (r + c) % M := by
  constructor
  · rintro rfl
    exact (add_count hr hw).symm
  · rintro rfl
    have hmod : (r + c) % M ≡ r + c [MOD M] := mod_modEq _ _
    rw [count]
    have hcount : (r + c) % M + M - r ≡ c [MOD M] := by
      have h : r + ((r + c) % M + M - r) ≡ r + c [MOD M] := by
        rw [show r + ((r + c) % M + M - r) = (r + c) % M + M by omega]
        exact (Nat.ModEq.add_right M hmod).trans (by simp [Nat.ModEq])
      exact Nat.ModEq.add_left_cancel' r h
    exact mod_eq_of_modEq hcount hc

theorem count_push (hr : r < M) (hw : w < M) (hc : count M r w + 1 < M) :
    count M r ((w + 1) % M) = count M r w + 1 := by
  have hM : 0 < M := by omega
  refine (count_eq_iff hr (mod_lt _ hM) hc).2 ?_
  rw [← add_assoc, ← mod_add_mod (r + count M r w), add_count hr hw]

theorem count_pop (hr : r < M) (hw : w < M) {c : ℕ} (hc : count M r w = c + 1) :
    count M ((r + 1) % M) w = c := by
  have hM : 0 < M := by omega
  have hlt : count M r w < M := mod_lt _ hM
  refine (count_eq_iff (mod_lt _ hM) hw (by omega)).2 ?_
  rw [mod_add_mod, add_assoc, add_comm 1 c, ← hc, add_count hr hw]

/-- Writing the cell at the second counter is not seen while the buffer is not full. -/
theorem contents_write (data : ℕ → α) (hsize : size ∣ M) (hr : r < M) (hw : w < M)
    (hc : count M r w < size) (x : α) :
    contents M size (update data (w % size) x) r w = contents M size data r w := by
  have hcell : w % size = (r + count M r w) % size := by
    conv_lhs => rw [← add_count hr hw]
    exact mod_mod_of_dvd _ hsize
  refine map_congr_left fun k hk => ?_
  -- less than one revolution back is another cell
  have hk : k < count M r w := mem_range.1 hk
  refine update_of_ne (fun heq => ?_) _ _
  rw [hcell] at heq
  have hmod : k ≡ count M r w [MOD size] := Nat.ModEq.add_left_cancel' r heq
  have := Nat.ModEq.eq_of_lt_of_lt hmod (by omega) hc
  omega

/-- Advancing the second counter appends the element of its cell. -/
theorem contents_advance (data : ℕ → α) (hsize : size ∣ M) (hr : r < M) (hw : w < M)
    (hc : count M r w + 1 < M) :
    contents M size data r ((w + 1) % M) = contents M size data r w ++ [data (w % size)] := by
  have hcell : (r + count M r w) % size = w % size := by
    conv_rhs => rw [← add_count hr hw]
    exact (mod_mod_of_dvd _ hsize).symm
  rw [contents, count_push hr hw hc, range_succ, map_append, map_singleton, hcell, contents]

/-- **Putting an element appends it.** -/
theorem contents_push (data : ℕ → α) (hsize : size ∣ M) (hr : r < M) (hw : w < M) (hc : count M r w < size)
    (hlt : size < M) (x : α) :
    contents M size (update data (w % size) x) r ((w + 1) % M) = contents M size data r w ++ [x] := by
  rw [contents_advance _ hsize hr hw (by omega), contents_write data hsize hr hw hc, update_self]

/-- **Taking an element removes the oldest one.** -/
theorem contents_pop (data : ℕ → α) (hsize : size ∣ M) (hr : r < M) (hw : w < M) (hne : r ≠ w) :
    contents M size data r w = data (r % size) :: contents M size data ((r + 1) % M) w := by
  obtain ⟨c, hc⟩ := exists_eq_succ_of_ne_zero (mt (count_eq_zero hr hw).1 hne)
  rw [contents, contents, hc, count_pop hr hw hc, range_succ_eq_map, map_cons, map_map, add_zero]
  congr 1
  refine map_congr_left fun k _ => congrArg data ?_
  have hmod : (r + 1) % M ≡ r + 1 [MOD size] := (mod_modEq _ _).of_dvd hsize
  have := hmod.add_right k
  rw [show r + k.succ = r + 1 + k by omega]
  exact this.symm

/-! ## Two stretches of one ring, and counters that go back -/

/-- The counters of two adjoining stretches. -/
theorem count_add {m : ℕ} (hr : r < M) (hm : m < M) (hw : w < M) (h : count M r m + count M m w < M) :
    count M r w = count M r m + count M m w := by
  refine (count_eq_iff hr hw h).2 ?_
  rw [← add_assoc, ← mod_add_mod, add_count hr hm, add_count hm hw]

/-- **Two adjoining stretches make one.** -/
theorem contents_trans {m : ℕ} (data : ℕ → α) (hsize : size ∣ M) (hr : r < M) (hm : m < M) (hw : w < M)
    (h : count M r m + count M m w < M) :
    contents M size data r w = contents M size data r m ++ contents M size data m w := by
  have hcell : m ≡ r + count M r m [MOD size] := by
    have hmod : (r + count M r m) % M ≡ r + count M r m [MOD size] := (mod_modEq _ _).of_dvd hsize
    rwa [add_count hr hm] at hmod
  rw [contents, count_add hr hm hw h, range_add, map_append, map_map]
  refine congrArg₂ _ rfl (map_congr_left fun k _ => congrArg data ?_)
  rw [← add_assoc]
  exact (hcell.add_right k).symm

theorem succ_pred_mod (hw : w < M) : ((w + M - 1) % M + 1) % M = w := by
  rw [mod_add_mod, show w + M - 1 + 1 = w + M by omega, add_mod_right, mod_eq_of_lt hw]

theorem pred_succ_mod (hw : w < M) : ((w + 1) % M + M - 1) % M = w := by
  have hM : 0 < M := by omega
  rw [Nat.add_sub_assoc hM, mod_add_mod, show w + 1 + (M - 1) = w + M by omega, add_mod_right,
    mod_eq_of_lt hw]

theorem count_back (hr : r < M) (hw : w < M) (hne : r ≠ w) :
    count M r ((w + M - 1) % M) + 1 = count M r w := by
  have hM : 0 < M := by omega
  obtain ⟨c, hc⟩ := exists_eq_succ_of_ne_zero (mt (count_eq_zero hr hw).1 hne)
  have hlt : count M r w < M := mod_lt _ hM
  have hw' : (w + M - 1) % M = (r + c) % M := by
    rw [← add_count hr hw, hc, succ_eq_add_one, Nat.add_sub_assoc hM, mod_add_mod,
      show r + (c + 1) + (M - 1) = r + c + M by omega, add_mod_right]
  rw [hc, succ_inj]
  exact (count_eq_iff hr (mod_lt _ hM) (by omega)).2 hw'

/-- **Moving the second counter back removes the newest element.** -/
theorem contents_back (data : ℕ → α) (hsize : size ∣ M) (hr : r < M) (hw : w < M) (hne : r ≠ w) :
    contents M size data r w =
      contents M size data r ((w + M - 1) % M) ++ [data ((w + M - 1) % M % size)] := by
  have hM : 0 < M := by omega
  have hlt : count M r w < M := mod_lt _ hM
  have hcount := count_back hr hw hne
  have hadv := contents_advance data hsize hr (mod_lt (w + M - 1) hM) (by omega)
  rwa [succ_pred_mod hw] at hadv

end Machinery.Ring

import Mathlib.Data.List.GetD
import Mathlib.Data.Nat.Digits.Defs

/-!
# Machinery/Bytes — fixed-size byte buffers and the little-endian integers stored in them

A C struct laid over a buffer is a family of integers at fixed offsets, read by `getLE` and written
by `putLE`; `splice` and `slice` are the same for runs of bytes.
-/

namespace Machinery

open List

/-- An `unsigned char`. -/
abbrev Byte := BitVec 8

/-- A buffer of `n` bytes. -/
abbrev Bytes (n : ℕ) := Fin n → Byte

namespace Bytes

variable {n : ℕ}

/-- The byte at offset `i`; `0` past the end. -/
def byteAt (b : Bytes n) (i : ℕ) : Byte := if h : i < n then b ⟨i, h⟩ else 0

/-- Overwrite the bytes from `off` on by the list `l`. -/
def splice (b : Bytes n) (off : ℕ) (l : List Byte) : Bytes n := fun j =>
  if off ≤ j.1 ∧ j.1 < off + l.length then l.getD (j.1 - off) 0 else b j

/-- The `len` bytes from `off` on. -/
def slice (b : Bytes n) (off len : ℕ) : List Byte := (List.range len).map fun i => b.byteAt (off + i)

variable {i len off : ℕ}

theorem byteAt_of_lt (b : Bytes n) (h : i < n) : b.byteAt i = b ⟨i, h⟩ := dif_pos h

/-- **Two buffers are equal when their bytes are.** -/
theorem ext_byteAt {a b : Bytes n} (h : ∀ i < n, a.byteAt i = b.byteAt i) : a = b := by
  funext ⟨i, hi⟩
  have := h i hi
  rwa [byteAt_of_lt a hi, byteAt_of_lt b hi] at this

theorem byteAt_splice (b : Bytes n) (off : ℕ) (l : List Byte) (hi : i < n) : (b.splice off l).byteAt i
      = if off ≤ i ∧ i < off + l.length then l.getD (i - off) 0 else b.byteAt i := by
  rw [byteAt_of_lt _ hi, byteAt_of_lt b hi]
  rfl

theorem byteAt_splice_of_notMem (b : Bytes n) (off : ℕ) (l : List Byte)
    (h : i < off ∨ off + l.length ≤ i) : (b.splice off l).byteAt i = b.byteAt i := by
  by_cases hi : i < n
  · rw [byteAt_splice b off l hi, if_neg (by omega)]
  · simp [byteAt, hi]

@[simp] theorem length_slice (b : Bytes n) (off len : ℕ) : (b.slice off len).length = len := by
  simp [slice]

theorem getD_slice (b : Bytes n) (off : ℕ) (h : i < len) :
    (b.slice off len).getD i 0 = b.byteAt (off + i) := by
  simp [slice, h]

theorem slice_add (b : Bytes n) (off i j : ℕ) :
    b.slice off (i + j) = b.slice off i ++ b.slice (off + i) j := by
  simp only [slice, range_add, map_append, map_map]
  refine congrArg _ (map_congr_left fun l _ => ?_)
  rw [Function.comp_apply, add_assoc]

/-- **Reading back what was just stored.** -/
theorem slice_splice_same (b : Bytes n) (off : ℕ) (l : List Byte) (h : off + l.length ≤ n) :
    (b.splice off l).slice off l.length = l := by
  refine ext_getElem (by simp) fun i h1 h2 => ?_
  have hi : off + i < n := by omega
  simp only [slice, getElem_map, getElem_range]
  rw [byteAt_splice b off l hi, if_pos (by omega)]
  simp [h2]

/-- **A store elsewhere is not seen.** -/
theorem slice_splice_disjoint (b : Bytes n) {off' : ℕ} (l : List Byte)
    (h : off + len ≤ off' ∨ off' + l.length ≤ off) :
    (b.splice off' l).slice off len = b.slice off len := by
  refine map_congr_left fun i hi => ?_
  have := mem_range.1 hi
  exact byteAt_splice_of_notMem b off' l (by omega)

/-- Two stores, one behind the other. -/
theorem splice_append (b : Bytes n) (off : ℕ) (l r : List Byte) :
    (b.splice off l).splice (off + l.length) r = b.splice off (l ++ r) := by
  refine ext_byteAt fun i hi => ?_
  rw [byteAt_splice _ _ _ hi, byteAt_splice _ _ _ hi, byteAt_splice _ _ _ hi, length_append]
  by_cases hl : off ≤ i ∧ i < off + l.length
  · rw [if_neg (by omega), if_pos hl, if_pos (by omega), getD_append _ _ _ _ (by omega)]
  · by_cases hr : off + l.length ≤ i ∧ i < off + l.length + r.length
    · rw [if_pos hr, if_pos (by omega), getD_append_right _ _ _ _ (by omega), Nat.sub_sub]
    · rw [if_neg hr, if_neg hl, if_neg (by omega)]

theorem splice_nil (b : Bytes n) (off : ℕ) : b.splice off [] = b := by
  refine ext_byteAt fun i hi => ?_
  rw [byteAt_splice _ _ _ hi, if_neg (by rw [length_nil]; omega)]

theorem slice_congr {a b : Bytes n} (h : ∀ i, off ≤ i → i < off + len → a.byteAt i = b.byteAt i) :
    a.slice off len = b.slice off len :=
  map_congr_left fun i hi => h _ (by omega) (by have := mem_range.1 hi; omega)

end Bytes

/-! ## Little-endian integers -/

/-- The value of a little-endian byte string. -/
def leNat : List Byte → ℕ
  | [] => 0
  | b :: l => b.toNat + 256 * leNat l

/-- The `w` low-order bytes of `v`, least significant first. -/
def leBytes : ℕ → ℕ → List Byte
  | 0, _ => []
  | w + 1, v => BitVec.ofNat 8 v :: leBytes w (v / 256)

@[simp] theorem length_leBytes : ∀ w v, (leBytes w v).length = w
  | 0, _ => rfl
  | w + 1, v => by simp [leBytes, length_leBytes w]

theorem leNat_leBytes : ∀ w v, leNat (leBytes w v) = v % 256 ^ w
  | 0, v => by simp [leBytes, leNat, Nat.mod_one]
  | w + 1, v => by
      have h : v % 256 ^ (w + 1) = v % 256 + 256 * (v / 256 % 256 ^ w) := by
        rw [pow_succ', Nat.mod_mul]
      rw [leBytes, leNat, leNat_leBytes w, BitVec.toNat_ofNat, h]

theorem leNat_lt : ∀ l : List Byte, leNat l < 256 ^ l.length
  | [] => by simp [leNat]
  | b :: l => by
      have hb := b.isLt
      have hl := leNat_lt l
      rw [leNat, length_cons, pow_succ']
      omega

/-- An array of little-endian integers. -/
def leWords (w : ℕ) (l : List ℕ) : List Byte := l.flatMap (leBytes w)

@[simp] theorem length_leWords (w : ℕ) (l : List ℕ) : (leWords w l).length = w * l.length := by
  induction l with
  | nil => rfl
  | cons v l ih =>
    rw [leWords, flatMap_cons, length_append, length_leBytes, length_cons]
    change w + (leWords w l).length = _
    rw [ih]
    ring

/-- The integers of an array, one by one. -/
theorem take_drop_leWords {w k : ℕ} {l : List ℕ} (hk : k < l.length) :
    ((leWords w l).drop (w * k)).take w = leBytes w (l.get ⟨k, hk⟩) := by
  induction l generalizing k with
  | nil => exact absurd hk (Nat.not_lt_zero k)
  | cons v l ih =>
    cases k with
    | zero =>
      rw [mul_zero, drop_zero, leWords, flatMap_cons, take_append_of_le_length (by simp),
        take_of_length_le (by simp)]
      rfl
    | succ k =>
      have hdrop : (leWords w (v :: l)).drop (w * (k + 1)) = (leWords w l).drop (w * k) := by
        have hnil : (leBytes w v).drop w = [] := drop_of_length_le (by simp)
        rw [leWords, flatMap_cons, Nat.mul_succ, add_comm, ← drop_drop,
          drop_append_of_le_length (by simp), hnil, nil_append, leWords]
      rw [hdrop]
      exact ih (Nat.lt_of_succ_lt_succ hk)

namespace Bytes

variable {n : ℕ}

/-- The `w`-byte little-endian integer at offset `off`. -/
def getLE (b : Bytes n) (off w : ℕ) : ℕ := leNat (b.slice off w)

/-- Store the low `w` bytes of `v` at offset `off`. -/
def putLE (b : Bytes n) (off w v : ℕ) : Bytes n := b.splice off (leBytes w v)

theorem getLE_lt (b : Bytes n) (off w : ℕ) : b.getLE off w < 256 ^ w := by
  have := leNat_lt (b.slice off w)
  rwa [length_slice] at this

theorem getLE_putLE_same (b : Bytes n) {off w : ℕ} (v : ℕ) (h : off + w ≤ n) :
    (b.putLE off w v).getLE off w = v % 256 ^ w := by
  have := slice_splice_same b off (leBytes w v) (by simpa using h)
  rw [length_leBytes] at this
  rw [getLE, putLE, this, leNat_leBytes]

theorem getLE_putLE_disjoint (b : Bytes n) {off w off' w' : ℕ} (v : ℕ)
    (h : off + w ≤ off' ∨ off' + w' ≤ off) :
    (b.putLE off' w' v).getLE off w = b.getLE off w :=
  congrArg leNat (slice_splice_disjoint b _ (by simpa using h))

/-- A buffer all of whose bytes are `v` — what `memset` leaves. -/
def fill (n : ℕ) (v : Byte) : Bytes n := fun _ => v

@[simp] theorem slice_fill_zero (off len : ℕ) :
    (fill n 0).slice off len = List.replicate len 0 := by
  refine ext_getElem (by simp) fun i h1 h2 => ?_
  simp [slice, byteAt, fill]

theorem leNat_replicate_zero : ∀ w, leNat (List.replicate w (0 : Byte)) = 0
  | 0 => rfl
  | w + 1 => by
      rw [replicate_succ, leNat, leNat_replicate_zero w]
      rfl

@[simp] theorem getLE_fill_zero (off w : ℕ) : (fill n 0).getLE off w = 0 := by
  rw [getLE, slice_fill_zero, leNat_replicate_zero]

end Bytes

end Machinery

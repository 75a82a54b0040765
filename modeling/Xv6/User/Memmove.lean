import Xv6.Machinery.Bytes

/-!
# User/Memmove — `memmove` of the kernel and of the user library (`kernel/string.c`, `user/ulib.c`)

Both copy upwards or downwards, one byte at a time, as the pointers compare.  `Memmoved` is what a
copy should do.
-/

namespace Xv6

open Machinery Function

abbrev Ram := BitVec 64 → Byte

/-- `while(n-- > 0) *d++ = *s++`. -/
def copyUp : (n : ℕ) → (d s : BitVec 64) → Ram → Ram
  | 0, _, _, m => m
  | n + 1, d, s, m => copyUp n (d + 1) (s + 1) (update m d (m s))

/-- `while(n-- > 0) *--d = *--s`. -/
def copyDown : (n : ℕ) → (d s : BitVec 64) → Ram → Ram
  | 0, _, _, m => m
  | n + 1, d, s, m => copyDown n (d - 1) (s - 1) (update m (d - 1) (m (s - 1)))

/-- `memmove` of `kernel/string.c`; `n` is a `uint`. -/
def KernelString.memmove (dst src : BitVec 64) (n : BitVec 32) (m : Ram) : Ram :=
  if n = 0 then m
  else if src < dst ∧ src + n.zeroExtend 64 > dst then
    copyDown n.toNat (dst + n.zeroExtend 64) (src + n.zeroExtend 64) m
  else copyUp n.toNat dst src m

/-- `memmove` of `user/ulib.c`; `n` is an `int`. -/
def Ulib.memmove (dst src : BitVec 64) (n : BitVec 32) (m : Ram) : Ram :=
  if src > dst then copyUp n.toInt.toNat dst src m
  else copyDown n.toInt.toNat (dst + n.signExtend 64) (src + n.signExtend 64) m

/-! ## The loops -/

/-- The ranges of `n` bytes do not wrap around. -/
structure Fitting (dst src : BitVec 64) (n : ℕ) : Prop where
  src : src.toNat + n ≤ 2 ^ 64
  dst : dst.toNat + n ≤ 2 ^ 64

/-- **The `n` bytes at `src` are at `dst`**, and no byte elsewhere has changed. -/
structure Memmoved (dst src : BitVec 64) (n : ℕ) (m m' : Ram) : Prop where
  copied : ∀ i < n, m' (dst + BitVec.ofNat 64 i) = m (src + BitVec.ofNat 64 i)
  other : ∀ a, (∀ i < n, a ≠ dst + BitVec.ofNat 64 i) → m' a = m a

section Loops

variable {d s : BitVec 64} {n : ℕ}

variable {i j : ℕ}

theorem toNat_add_ofNat (hi : d.toNat + i < 2 ^ 64) : (d + BitVec.ofNat 64 i).toNat = d.toNat + i := by
  rw [BitVec.toNat_add, BitVec.toNat_ofNat, Nat.mod_eq_of_lt (show i < 2 ^ 64 by omega), Nat.mod_eq_of_lt hi]

theorem add_one_add (d : BitVec 64) (i : ℕ) : d + 1 + BitVec.ofNat 64 i = d + BitVec.ofNat 64 (i + 1) := by
  rw [BitVec.ofNat_add, BitVec.add_assoc]
  exact congrArg (d + ·) (BitVec.add_comm _ _)

theorem add_succ_sub (d : BitVec 64) (i : ℕ) : d + BitVec.ofNat 64 (i + 1) - 1 = d + BitVec.ofNat 64 i := by
  rw [BitVec.ofNat_add, ← BitVec.add_assoc]
  exact BitVec.add_sub_cancel _ _

theorem add_ne_add (hi : d.toNat + i < 2 ^ 64) (hj : d.toNat + j < 2 ^ 64) (hne : i ≠ j) :
    d + BitVec.ofNat 64 i ≠ d + BitVec.ofNat 64 j := fun heq => by
  have := congrArg BitVec.toNat heq
  rw [toNat_add_ofNat hi, toNat_add_ofNat hj] at this
  omega

/-- Two addresses in ranges that do not wrap. -/
theorem add_ne_add_of_ne (hi : d.toNat + i < 2 ^ 64) (hj : s.toNat + j < 2 ^ 64)
    (hne : d.toNat + i ≠ s.toNat + j) : d + BitVec.ofNat 64 i ≠ s + BitVec.ofNat 64 j := fun heq => by
  have := congrArg BitVec.toNat heq
  rw [toNat_add_ofNat hi, toNat_add_ofNat hj] at this
  exact hne this

theorem Fitting.mono (h : Fitting d s (n + 1)) : Fitting d s n :=
  ⟨(Nat.add_le_add_left n.le_succ _).trans h.src, (Nat.add_le_add_left n.le_succ _).trans h.dst⟩

theorem copyUp_succ (m : Ram) :
    copyUp (n + 1) d s m =
      update (copyUp n d s m) (d + BitVec.ofNat 64 n) (copyUp n d s m (s + BitVec.ofNat 64 n)) := by
  induction n generalizing d s m with
  | zero =>
    have hd : d + BitVec.ofNat 64 0 = d := BitVec.add_zero d
    have hs : s + BitVec.ofNat 64 0 = s := BitVec.add_zero s
    rw [copyUp, copyUp, copyUp, hd, hs]
  | succ n ih => rw [copyUp, ih, add_one_add, add_one_add, ← copyUp]

/-- **Copying upwards**, if the destination is below the source or does not meet it. -/
theorem memmoved_copyUp (m : Ram) (h : Fitting d s n) (hsafe : d.toNat ≤ s.toNat ∨ s.toNat + n ≤ d.toNat) :
    Memmoved d s n m (copyUp n d s m) := by
  induction n with
  | zero => exact ⟨nofun, fun _ _ => rfl⟩
  | succ n ih =>
    have hm := ih h.mono (by omega)
    obtain ⟨hs, hd⟩ := h
    -- the byte to read is not among those already stored
    have hread : copyUp n d s m (s + BitVec.ofNat 64 n) = m (s + BitVec.ofNat 64 n) :=
      hm.other _ fun i hi => add_ne_add_of_ne (by omega) (by omega) (by omega)
    rw [copyUp_succ, hread]
    refine ⟨fun i hi => ?_, fun a ha => ?_⟩
    · rcases Nat.lt_succ_iff_lt_or_eq.1 hi with hlt | rfl
      · rw [update_of_ne (add_ne_add (by omega) (by omega) hlt.ne), hm.copied i hlt]
      · rw [update_self]
    · rw [update_of_ne (ha n n.lt_succ_self), hm.other a fun i hi => ha i (hi.trans n.lt_succ_self)]

/-- **Copying downwards**, if the destination is above the source. -/
theorem memmoved_copyDown (m : Ram) (h : Fitting d s n) (hsafe : s.toNat ≤ d.toNat) :
    Memmoved d s n m (copyDown n (d + BitVec.ofNat 64 n) (s + BitVec.ofNat 64 n) m) := by
  induction n generalizing m with
  | zero => exact ⟨nofun, fun _ _ => rfl⟩
  | succ n ih =>
    rw [copyDown, add_succ_sub, add_succ_sub]
    have hm := ih (update m (d + BitVec.ofNat 64 n) (m (s + BitVec.ofNat 64 n))) h.mono
    obtain ⟨hs, hd⟩ := h
    refine ⟨fun i hi => ?_, fun a ha => ?_⟩
    · rcases Nat.lt_succ_iff_lt_or_eq.1 hi with hlt | rfl
      · rw [hm.copied i hlt, update_of_ne (add_ne_add_of_ne (by omega) (by omega) (by omega))]
      · rw [hm.other _ fun j hj => add_ne_add (by omega) (by omega) hj.ne', update_self]
    · rw [hm.other a fun i hi => ha i (hi.trans n.lt_succ_self), update_of_ne (ha n n.lt_succ_self)]

theorem Memmoved.unique {m m1 m2 : Ram} (h1 : Memmoved d s n m m1) (h2 : Memmoved d s n m m2) : m1 = m2 := by
  funext a
  by_cases ha : ∃ i < n, a = d + BitVec.ofNat 64 i
  · obtain ⟨i, hi, rfl⟩ := ha
    rw [h1.copied i hi, h2.copied i hi]
  · push Not at ha
    rw [h1.other a ha, h2.other a ha]

end Loops

/-! ## The two functions -/

variable {dst src : BitVec 64}

theorem KernelString.memmoved_memmove (m : Ram) {n : BitVec 32} (h : Fitting dst src n.toNat) :
    Memmoved dst src n.toNat m (memmove dst src n m) := by
  have hext : n.zeroExtend 64 = BitVec.ofNat 64 n.toNat := by bv_omega
  unfold memmove
  split_ifs with hzero hover
  · subst hzero
    exact ⟨nofun, fun _ _ => rfl⟩
  · rw [hext]
    exact memmoved_copyDown m h hover.1.le
  · refine memmoved_copyUp m h ?_
    obtain ⟨hs, hd⟩ := h
    rw [hext] at hover
    rcases lt_or_ge src.toNat dst.toNat with hlt | hge
    · -- the source ends below the destination, so that its end is no wrap
      rcases lt_or_ge (src.toNat + n.toNat) (2 ^ 64) with hend | hend
      · refine .inr (le_of_not_gt fun hgt => hover ⟨hlt, ?_⟩)
        change dst.toNat < _
        rwa [toNat_add_ofNat hend]
      · omega
    · exact .inl hge

theorem Ulib.memmoved_memmove (m : Ram) {n : BitVec 32} (h : Fitting dst src n.toInt.toNat) :
    Memmoved dst src n.toInt.toNat m (memmove dst src n m) := by
  unfold memmove
  split_ifs with hgt
  · exact memmoved_copyUp m h (.inl hgt.le)
  · rcases lt_or_ge n.toInt 0 with hneg | hpos
    · rw [Int.toNat_of_nonpos hneg.le]
      exact ⟨nofun, fun _ _ => rfl⟩
    · have hext : n.signExtend 64 = BitVec.ofNat 64 n.toInt.toNat := by
        obtain ⟨k, hk⟩ := Int.eq_ofNat_of_zero_le hpos
        rw [BitVec.signExtend, hk, Int.toNat_natCast, BitVec.ofInt_natCast]
      rw [hext]
      exact memmoved_copyDown m h (not_lt.1 hgt)

/-- **Overlapping ranges are copied as disjoint ones.**  Each `memmove`, with the `n` of its own type, leaves at
`dst` the bytes that `src` held and changes nothing else; on a number that both types have they agree. -/
theorem memmove_overlap (m : Ram) (dst src : BitVec 64) (n : BitVec 32) :
    (Fitting dst src n.toNat → Memmoved dst src n.toNat m (KernelString.memmove dst src n m)) ∧
    (Fitting dst src n.toInt.toNat → Memmoved dst src n.toInt.toNat m (Ulib.memmove dst src n m)) ∧
    (0 ≤ n.toInt → Fitting dst src n.toNat →
      Ulib.memmove dst src n m = KernelString.memmove dst src n m) := by
  refine ⟨KernelString.memmoved_memmove m, Ulib.memmoved_memmove m, fun hpos h => ?_⟩
  have hn : n.toInt.toNat = n.toNat := by
    have hlt := n.isLt
    rw [BitVec.toInt_eq_toNat_cond] at hpos ⊢
    split_ifs at hpos ⊢ <;> omega
  have hu := Ulib.memmoved_memmove m (n := n) (hn.symm ▸ h)
  rw [hn] at hu
  exact hu.unique (KernelString.memmoved_memmove m h)

/-- Two bytes, one address up. -/
theorem memmove_overlap_two : Fitting 1 0 (2 : BitVec 32).toNat ∧
    Memmoved 1 0 2 (fun a => a.setWidth 8) (KernelString.memmove 1 0 2 fun a => a.setWidth 8) ∧
    Ulib.memmove 1 0 2 (fun a => a.setWidth 8) = KernelString.memmove 1 0 2 fun a => a.setWidth 8 := by
  have h : Fitting 1 0 (2 : BitVec 32).toNat := ⟨by decide, by decide⟩
  obtain ⟨hk, -, heq⟩ := memmove_overlap (fun a => a.setWidth 8) 1 0 2
  exact ⟨h, hk h, heq (by decide) h⟩

end Xv6

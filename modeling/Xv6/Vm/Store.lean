import Xv6.Vm.Poke

/-!
# Vm/Store — user memory byte by byte

`userByte` is what a user address holds.  A page is mapped once, so `copyout` lays its bytes over
the memory that was there (`overlay`).
-/

namespace Xv6

open Machinery Function Ensures List Option

variable {im : Image} {root : ℕ} {σ σ' : Phys} {rest : Multiset ℕ}

/-- The bytes `src` laid over `f` from `dst` on. -/
def overlay (dst : ℕ) (src : List Byte) (f : ℕ → Option Byte) (x : ℕ) : Option Byte :=
  if dst ≤ x ∧ x < dst + src.length then some (src.getD (x - dst) 0) else f x

@[simp] theorem overlay_nil (dst : ℕ) (f : ℕ → Option Byte) : overlay dst [] f = f := by
  ext1 x
  rw [overlay, if_neg (by rw [length_nil]; omega)]

variable {m : ℕ → Page} {x y n va dst len max : ℕ} {l src : List Byte} {f : ℕ → Option Byte}

/-! ## `copyout` -/

theorem leaf_of_userPage (hg : Guarded m root) (h : userPage m root x = some n) :
    ∃ e, leaf m root (x / PGSIZE) = some e ∧ pte2page e = n ∧ x / PGSIZE < USERTOP := by
  have hx := lt_MAXVA_of_userPage h
  rw [userPage, if_pos hx] at h
  obtain ⟨e, he, hif⟩ := bind_eq_some_iff.1 h
  split at hif
  · rename_i hu
    refine ⟨e, he, some.inj hif, ?_⟩
    by_contra hge
    have hlt : x / PGSIZE < 2 ^ 27 := by
      unfold MAXVA at hx
      unfold PGSIZE
      omega
    exact absurd (hg _ (not_lt.1 hge) hlt e he) (by omega)
  · exact absurd hif (by simp)

section

variable (h : Space im USERTOP root rest σ) (hg : Guarded σ.mem root)
include h hg

/-- **A page lies at one user address.** -/
theorem div_eq_of_userPage
    (hx : userPage σ.mem root x = some n) (hy : userPage σ.mem root y = some n) :
    x / PGSIZE = y / PGSIZE := by
  obtain ⟨e, he, hen, hlt⟩ := leaf_of_userPage hg hx
  obtain ⟨e', he', hen', hlt'⟩ := leaf_of_userPage hg hy
  by_contra hne
  exact ne_of_mapped_nodup h.nodup_mapped hlt hlt' hne he he' (hen.trans hen'.symm)

/-- **Stores are seen at their own addresses.** -/
theorem userByte_pokes (hm : ∀ i < l.length, userPage σ.mem root (va + i) ≠ none) :
    userByte (pokes σ.mem root va l σ).mem root = overlay va l (userByte σ.mem root) := by
  ext1 x
  rw [userByte, userPage_congr ((h.apart hg).sameTable va l), overlay]
  -- a page is at one address, so a place is that of one byte
  have hplace : ∀ {i n}, userPage σ.mem root x = some n →
      userPage σ.mem root (va + i) = some n ∧ (va + i) % PGSIZE = x % PGSIZE → va + i = x := fun hx hi => by
    rw [← Nat.div_add_mod (va + _) PGSIZE, hi.2, div_eq_of_userPage h hg hi.1 hx, Nat.div_add_mod]
  split_ifs with hin
  · obtain ⟨i, rfl⟩ := Nat.exists_eq_add_of_le hin.1
    have hi : i < l.length := by omega
    obtain ⟨n, hn⟩ := ne_none_iff_exists'.1 (hm i hi)
    rw [hn, map_some, byteAt_pokes l hi hn fun j _ hij hj => absurd (hplace hn hj) (by omega),
      Nat.add_sub_cancel_left]
  · rw [userByte]
    refine map_congr fun n hn => byteAt_pokes_of_ne l fun i hi hi' => hin ?_
    have := hplace hn hi'
    omega

/-- A store into a page. -/
theorem userByte_put
    (hn : userPage σ.mem root va = some n) (hfit : va % PGSIZE + l.length ≤ PGSIZE) :
    userByte (σ.put n ((σ.mem n).splice (va % PGSIZE) l)).mem root = overlay va l (userByte σ.mem root) := by
  rw [← pokes_page l hn hfit]
  exact userByte_pokes h hg fun i hi => by
    rw [userPage_add hn (by omega)]
    exact some_ne_none n

end

/-- **`copyout` to mapped memory stores all its bytes, and no others.** -/
theorem copyout_bytes (h : Space im USERTOP root rest σ)
    (hg : Guarded σ.mem root) (hm : ∀ i < src.length, userPage σ.mem root (dst + i) ≠ none) :
    Ensures (copyout root dst src) σ
      (fun r σ' => r = true ∧ Stored root σ σ' ∧
        userByte σ'.mem root = overlay dst src (userByte σ.mem root)) := by
  have hall := reach_eq_iff.2 hm
  rw [ok_iff ((h.apart hg).copyout_run dst src), hall, take_length]
  exact ⟨decide_eq_true rfl, stored_pokes hg _ _, userByte_pokes h hg hm⟩

/-- `copyout` to an address that is not mapped stores nothing. -/
theorem copyout_unmapped (hn : userPage σ.mem root dst = none) :
    Ensures (copyout root dst src) σ (fun _ σ' => σ' = σ) := by
  rw [copyout]
  cases src with
  | nil => exact .pure rfl
  | cons b bs =>
    rw [length_cons]
    unfold copyoutLoop
    rw [bind_iff, ok_iff (walkaddr_run _ _ _), userPage_pgRoundDown, hn]
    exact .pure rfl

/-! ## `copyinstr` -/

theorem Holds.append {r : List Byte} :
    Holds f va (l ++ r) ↔ Holds f va l ∧ Holds f (va + l.length) r := by
  constructor
  · intro h
    refine ⟨fun i hi => ?_, fun i hi => ?_⟩
    · rw [h i (by rw [length_append]; omega), getD_append _ _ _ _ hi]
    · rw [add_assoc, h (l.length + i) (by rw [length_append]; omega),
        getD_append_right _ _ _ _ (by omega), Nat.add_sub_cancel_left]
  · rintro ⟨hl, hr⟩ i hi
    rw [length_append] at hi
    by_cases hlt : i < l.length
    · rw [hl i hlt, getD_append _ _ _ _ hlt]
    · have h := hr (i - l.length) (by omega)
      rw [show va + l.length + (i - l.length) = va + i by omega] at h
      rw [h, getD_append_right _ _ _ _ (by omega)]

theorem untilNul_of_notMem (h : (0 : Byte) ∉ l) : untilNul l = (l, false) := by
  induction l with
  | nil => rfl
  | cons b l ih =>
    obtain ⟨hb, hl⟩ := not_or.1 (mt mem_cons.2 h)
    rw [untilNul, if_neg (Ne.symm hb), ih hl]

theorem untilNul_append (h : (0 : Byte) ∉ l) (r : List Byte) :
    untilNul (l ++ 0 :: r) = (l ++ [0], true) := by
  induction l with
  | nil => rfl
  | cons b l ih =>
    obtain ⟨hb, hl⟩ := not_or.1 (mt mem_cons.2 h)
    rw [cons_append, untilNul, if_neg (Ne.symm hb), ih hl, cons_append]

/-- The bytes of the string at `va`, with its NUL, as far as `max` bytes can be read, and whether
the NUL is among them. -/
def strAt (f : ℕ → Option Byte) : ℕ → ℕ → List Byte × Bool
  | _, 0 => ([], false)
  | va, max + 1 =>
    match f va with
    | none => ([], false)
    | some b => if b = 0 then ([b], true) else let r := strAt f (va + 1) max; (b :: r.1, r.2)

theorem strAt_of_holds {bs : List Byte} (h : Holds f va bs) (n : ℕ) : strAt f va (bs.length + n) =
      if (untilNul bs).2 then untilNul bs
      else ((untilNul bs).1 ++ (strAt f (va + bs.length) n).1, (strAt f (va + bs.length) n).2) := by
  induction bs generalizing va with
  | nil =>
    rw [untilNul, if_neg Bool.false_ne_true, length_nil, zero_add, add_zero]
    rfl
  | cons b bs ih =>
    have hb : f va = some b := h 0 (Nat.succ_pos _)
    have hrest : Holds f (va + 1) bs := (Holds.append.1 (show Holds f va ([b] ++ bs) from h)).2
    have hlen : (b :: bs).length + n = bs.length + n + 1 := by
      rw [length_cons]
      omega
    rw [hlen, strAt, hb, untilNul]
    simp only
    by_cases h0 : b = 0
    · rw [if_pos h0, if_pos h0, if_pos rfl]
    rw [if_neg h0, if_neg h0, ih hrest, length_cons, add_comm bs.length 1, ← add_assoc]
    simp only
    split_ifs
    · rfl
    · rfl

theorem strAt_string (h0 : (0 : Byte) ∉ l)
    (hl : Holds f va (l ++ [0])) (hmax : l.length < max) : strAt f va max = (l ++ [0], true) := by
  have h := strAt_of_holds hl (max - (l.length + 1))
  rw [untilNul_append h0, if_pos rfl, length_append, length_singleton] at h
  rwa [show l.length + 1 + (max - (l.length + 1)) = max by omega] at h

/-- **A NUL that was read ends a string.** -/
theorem string_of_mem_strAt (h : (0 : Byte) ∈ (strAt f va max).1) :
    ∃ l, (strAt f va max).1 = l ++ [0] ∧ (0 : Byte) ∉ l ∧ l.length < max ∧ Holds f va (l ++ [0]) := by
  induction max generalizing va with
  | zero => exact absurd h not_mem_nil
  | succ max ih =>
    rw [strAt] at h ⊢
    cases hb : f va with
    | none =>
      rw [hb] at h
      exact absurd h not_mem_nil
    | some b =>
      rw [hb] at h
      have hone : Holds f va [b] := fun i hi => by
        obtain rfl : i = 0 := by simpa using hi
        exact hb
      simp only at h ⊢
      split_ifs at h ⊢ with h0
      · subst h0
        exact ⟨[], rfl, not_mem_nil, Nat.succ_pos _, hone⟩
      · obtain ⟨l, hl, hn, hlen, hh⟩ := ih ((mem_cons.1 h).resolve_left (Ne.symm h0))
        refine ⟨b :: l, by rw [hl]; rfl, fun hm => ?_, Nat.succ_lt_succ hlen,
          (Holds.append.2 ⟨hone, hh⟩ : Holds f va ([b] ++ (l ++ [0])))⟩
        exact (mem_cons.1 hm).elim (Ne.symm h0) hn

/-- **`copyinstr` reads byte by byte.** -/
theorem copyinstrLoop_run (k : ℕ) (hk : max ≤ k) : Ensures (copyinstrLoop root k va max) σ
      (fun r σ' => r = strAt (userByte σ.mem root) va max ∧ σ' = σ) := by
  induction k generalizing va max with
  | zero =>
    obtain rfl : max = 0 := by omega
    exact .pure ⟨rfl, rfl⟩
  | succ k ih =>
    cases max with
    | zero => exact .pure ⟨rfl, rfl⟩
    | succ max =>
      unfold copyinstrLoop
      rw [bind_iff, ok_iff (walkaddr_run _ _ _), userPage_pgRoundDown]
      cases hn : userPage σ.mem root va with
      | none =>
        refine .pure ⟨?_, rfl⟩
        rw [strAt, userByte, hn]
        rfl
      | some n =>
        have hmod : va % PGSIZE < PGSIZE := Nat.mod_lt _ PGSIZE_pos
        simp only
        rw [get_bind_iff, sub_pgRoundDown]
        set len := min (PGSIZE - va % PGSIZE) (max + 1) with hlen
        have hs : Holds _ va ((σ.mem n).slice (va % PGSIZE) len) := holds_slice hn (by omega)
        -- the rest is on the next page
        have hsplit := strAt_of_holds hs (max + 1 - len)
        rw [Bytes.length_slice, show len + (max + 1 - len) = max + 1 by omega] at hsplit
        rw [hsplit]
        split_ifs
        · exact .pure ⟨rfl, rfl⟩
        · refine (ih (by omega)).bind ?_
          rintro r σ' ⟨hr, hσ⟩
          refine .pure ⟨?_, hσ⟩
          by_cases hend : max + 1 - len = 0
          · rw [hr, hend, strAt, strAt]
          · rw [hr, next_page hn, show PGSIZE - va % PGSIZE = len by omega]

theorem copyinstr_run :
    Ensures (copyinstr root va max) σ (fun r σ' => r = strAt (userByte σ.mem root) va max ∧ σ' = σ) :=
  copyinstrLoop_run max le_rfl

theorem copyinstr_spec : Ensures (copyinstr root va max) σ (fun _ σ' => σ' = σ) :=
  copyinstr_run.imp fun _ _ h => h.2

/-- **`copyinstr` fetches the string that user memory holds.** -/
theorem copyinstr_string (h0 : (0 : Byte) ∉ l)
    (hl : Holds (userByte σ.mem root) va (l ++ [0])) (hmax : l.length < max) :
    Ensures (copyinstr root va max) σ (fun r σ' => r = (l ++ [0], true) ∧ σ' = σ) :=
  copyinstr_run.imp fun _ _ ⟨hr, hσ⟩ => ⟨hr.trans (strAt_string h0 hl hmax), hσ⟩

/-- `copyinstr` from an address that is not mapped stores nothing. -/
theorem copyinstr_unmapped (hn : userPage σ.mem root va = none) :
    Ensures (copyinstr root va max) σ (fun r σ' => r.1 = [] ∧ σ' = σ) := by
  refine copyinstr_run.imp fun r σ' ⟨hr, hσ⟩ => ⟨?_, hσ⟩
  rw [hr]
  cases max with
  | zero => rfl
  | succ max => rw [strAt, userByte, hn, map_none]

theorem copyinstr_head {b : Byte} (hb : userByte σ.mem root va = some b) :
    Ensures (copyinstr root va (max + 1)) σ (fun r σ' => (∃ l, r.1 = b :: l) ∧ σ' = σ) := by
  refine copyinstr_run.imp fun r σ' ⟨hr, hσ⟩ => ⟨?_, hσ⟩
  rw [hr, strAt, hb]
  simp only
  split_ifs
  · exact ⟨_, rfl⟩
  · exact ⟨_, rfl⟩

end Xv6

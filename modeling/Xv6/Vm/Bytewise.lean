import Xv6.Vm.Store

/-!
# Vm/Bytewise — copies to and from user memory, by the page table

`Vm/Poke` and `Vm/Store` say what the copies do by the pages that `walkaddr` finds.  Here the page
table itself is the measure (`userFrame`), and addresses are of 64 bits: the two differ where an
address leads to physical page 0, which is taken for a failure.
-/

namespace Xv6

open Machinery Function List Radix Exec Bytes Nat

variable {root : ℕ} {σ : Phys} {m m' : ℕ → Page}

/-! ## One byte at a time -/

/-- The page of a user address by the page table: valid, and open to the user. -/
def userFrame (m : ℕ → Page) (root va : ℕ) : Option ℕ :=
  if va < MAXVA then (leaf m root (va / PGSIZE)).bind fun e =>
    if e / 16 % 2 = 1 then some (pte2page e) else none
  else none

variable {x n i len o va max : ℕ}

/-- `walkaddr` finds it, unless it is page 0. -/
theorem userPage_eq_userFrame (h : userFrame m root x ≠ some 0) :
    userPage m root x = userFrame m root x := by
  unfold userFrame at h ⊢
  unfold userPage
  split_ifs at h ⊢ with hx
  · cases hl : leaf m root (x / PGSIZE) with
    | none => rfl
    | some e =>
      rw [hl, Option.bind_some] at h
      rw [Option.bind_some, Option.bind_some]
      by_cases hu : e / 16 % 2 = 1
      · rw [if_pos hu] at h ⊢
        rw [if_pos ⟨hu, fun h0 => h (h0 ▸ rfl)⟩]
      · rw [if_neg hu, if_neg fun hc => hu hc.1]
  · rfl

theorem userFrame_of_userPage (h : userPage m root x = some n) : userFrame m root x = some n := by
  have hx := lt_MAXVA_of_userPage h
  rw [userPage, if_pos hx] at h
  rw [userFrame, if_pos hx]
  obtain ⟨e, he, hif⟩ := Option.bind_eq_some_iff.1 h
  rw [he, Option.bind_some]
  split at hif
  · next hu => rw [if_pos hu.1, hif]
  · exact absurd hif (by simp)

/-! ## Strings -/

theorem strAt_length_le (f : ℕ → Option Byte) (va max : ℕ) : (strAt f va max).1.length ≤ max := by
  induction max generalizing va with
  | zero => exact le_rfl
  | succ max ih =>
    rw [strAt]
    split
    · exact zero_le
    · split_ifs
      · exact succ_le_succ zero_le
      · exact succ_le_succ (ih _)

/-- **A string is found if its NUL comes before the limit and any unreadable byte.** -/
theorem strAt_ok_iff {f : ℕ → Option Byte} :
    (strAt f va max).2 = true ↔ ∃ i < max, (∀ j < i, f (va + j) ≠ none) ∧ f (va + i) = some 0 := by
  induction max generalizing va with
  | zero => exact iff_of_false Bool.false_ne_true fun h => Nat.not_lt_zero _ h.choose_spec.1
  | succ max ih =>
    have hshift : ∀ j, f (va + 1 + j) = f (va + (j + 1)) := fun j => by rw [add_assoc, add_comm 1]
    rw [strAt]
    cases hb : f va with
    | none =>
      refine iff_of_false Bool.false_ne_true ?_
      rintro ⟨i, -, hbefore, hnul⟩
      cases i with
      | zero => exact absurd (hnul.symm.trans hb) (by simp)
      | succ i => exact hbefore 0 (succ_pos i) hb
    | some b =>
      simp only
      split_ifs with h0
      · subst h0
        exact iff_of_true rfl ⟨0, succ_pos _, fun j hj => absurd hj (Nat.not_lt_zero j), hb⟩
      · simp only
        rw [ih]
        constructor
        · rintro ⟨i, hi, hbefore, hnul⟩
          refine ⟨i + 1, succ_lt_succ hi, fun j hj => ?_, by rw [← hshift, hnul]⟩
          cases j with
          | zero => exact hb.symm ▸ Option.some_ne_none b
          | succ j => exact hshift j ▸ hbefore j (lt_of_succ_lt_succ hj)
        · rintro ⟨i, hi, hbefore, hnul⟩
          cases i with
          | zero => exact absurd (Option.some.inj (hb.symm.trans hnul)) h0
          | succ i =>
            exact ⟨i, lt_of_succ_lt_succ hi, fun j hj => hshift j ▸ hbefore (j + 1) (succ_lt_succ hj),
              by rw [hshift, hnul]⟩

theorem mem_strAt_of_ok {f : ℕ → Option Byte} (h : (strAt f va max).2 = true) :
    (0 : Byte) ∈ (strAt f va max).1 := by
  induction max generalizing va with
  | zero => exact absurd h Bool.false_ne_true
  | succ max ih =>
    rw [strAt] at h ⊢
    cases hb : f va with
    | none =>
      rw [hb] at h
      exact absurd h Bool.false_ne_true
    | some b =>
      rw [hb] at h
      simp only at h ⊢
      split_ifs at h ⊢ with h0
      · exact h0 ▸ mem_singleton_self _
      · exact mem_cons_of_mem _ (ih h)

/-! ## Addresses of 64 bits

The kernel computes addresses modulo `2 ^ 64`, and the end of that range is not mapped. -/

/-- The address of byte `i` of a range. -/
def uaddr (va i : ℕ) : ℕ := (va + i) % 2 ^ 64

theorem uaddr_eq (hva : va < 2 ^ 64) (i : ℕ) (h : ∀ l < i, userPage m root (va + l) ≠ none) :
    uaddr va i = va + i := by
  refine mod_eq_of_lt ?_
  cases i with
  | zero => exact hva
  | succ i =>
    obtain ⟨n, hn⟩ := Option.ne_none_iff_exists'.1 (h i (lt_succ_self i))
    have hlt := lt_MAXVA_of_userPage hn
    unfold MAXVA at hlt
    omega

/-- A range that can be read does not wrap. -/
theorem mapped_uaddr_iff (hva : va < 2 ^ 64) (len : ℕ) :
    (∀ i < len, userPage m root (uaddr va i) ≠ none) ↔ ∀ i < len, userPage m root (va + i) ≠ none := by
  induction len with
  | zero =>
    exact iff_of_true (fun i hi => absurd hi (Nat.not_lt_zero i)) fun i hi => absurd hi (Nat.not_lt_zero i)
  | succ len ih =>
    rw [forall_lt_succ_right, forall_lt_succ_right, ih]
    exact and_congr_right fun h => by rw [uaddr_eq hva len h]

theorem reach_eq_iff_frames (hva : va < 2 ^ 64)
    (hzero : ∀ i < len, userFrame m root (uaddr va i) ≠ some 0) :
    reach m root va len = len ↔ ∀ i < len, userFrame m root (uaddr va i) ≠ none := by
  rw [reach_eq_iff, ← mapped_uaddr_iff hva]
  exact forall₂_congr fun i hi => by rw [userPage_eq_userFrame (hzero i hi)]

/-! ## The copies -/

/-- `copyin` fetches the bytes if all of them are in valid user pages, and fails otherwise. -/
def FetchesBytes (root va len : ℕ) (σ : Phys) : Prop :=
  ∃ r, copyin root va len σ = .ok (r, σ) ∧
    (r ≠ none ↔ ∀ i < len, userFrame σ.mem root (uaddr va i) ≠ none) ∧
    ∀ bs, r = some bs → bs = (List.range len).map fun i => peek σ.mem root (uaddr va i)

/-- `copyout` stores the first `j` bytes, all of them if all are in valid user pages. -/
def StoresBytes (root va : ℕ) (src : List Byte) (σ : Phys) : Prop :=
  ∃ r σ' j, copyout root va src σ = .ok (r, σ') ∧
    (r = true ↔ ∀ i < src.length, userFrame σ.mem root (uaddr va i) ≠ none) ∧
    (j ≤ src.length ∧ (r = true → j = src.length) ∧ ∀ i < j, userFrame σ.mem root (uaddr va i) ≠ none) ∧
    (∀ i < j, ∀ n, userFrame σ.mem root (uaddr va i) = some n →
      (∀ l < j, i < l → ¬(userFrame σ.mem root (uaddr va l) = some n ∧
        uaddr va l % PGSIZE = uaddr va i % PGSIZE)) →
      (σ'.mem n).byteAt (uaddr va i % PGSIZE) = src.getD i 0) ∧
    (∀ n o, (∀ i < j, ¬(userFrame σ.mem root (uaddr va i) = some n ∧ uaddr va i % PGSIZE = o)) →
      (σ'.mem n).byteAt o = (σ.mem n).byteAt o) ∧ σ'.freelist = σ.freelist

/-- `copyinstr` fetches the string with its NUL, if that comes in time. -/
def FetchesString (root va max : ℕ) (σ : Phys) : Prop :=
  ∃ bs ok, copyinstr root va max σ = .ok ((bs, ok), σ) ∧ bs.length ≤ max ∧
    (ok = true ↔ ∃ i < max, (∀ j < i, userFrame σ.mem root (uaddr va j) ≠ none) ∧
      userByte σ.mem root (uaddr va i) = some 0) ∧
    (ok = true → ∃ l, bs = l ++ [0] ∧ (0 : Byte) ∉ l ∧
      ∀ i < bs.length, userByte σ.mem root (uaddr va i) = some (bs.getD i 0))

section Copies

variable {va : ℕ} (hva : va < 2 ^ 64)
include hva

/-- **`copyin` fetches the bytes if all are in valid user pages, and fails otherwise.** -/
theorem copyin_bytewise {len : ℕ} (hzero : ∀ i < len, userFrame σ.mem root (uaddr va i) ≠ some 0) :
    FetchesBytes root va len σ := by
  refine ⟨_, copyinLoop_run len le_rfl, ?_, fun bs hbs => ?_⟩
  · rw [← reach_eq_iff_frames hva hzero]
    split_ifs with h
    · exact iff_of_true (Option.some_ne_none _) h
    · exact iff_of_false (not_not.2 rfl) h
  · split_ifs at hbs with h
    rw [← Option.some.inj hbs]
    refine map_congr_left fun i hi => ?_
    rw [uaddr_eq hva i fun l hl => reach_eq_iff.1 h l (hl.trans (mem_range.1 hi))]

/-- **`copyout` stores the bytes before the first that is not in a valid user page.** -/
theorem copyout_bytewise {src : List Byte} (hframe : ∀ i < src.length, ∀ n,
      userFrame σ.mem root (uaddr va i) = some n → n ≠ 0 ∧ n ∉ tabs σ.mem root) :
    StoresBytes root va src σ := by
  have hzero : ∀ i < src.length, userFrame σ.mem root (uaddr va i) ≠ some 0 := fun i hi h0 =>
    (hframe i hi 0 h0).1 rfl
  have hrun := copyoutLoop_run (σ := σ) src.length le_rfl fun i hi n hn => by
    have heq : uaddr va i = va + i := mod_eq_of_lt ((lt_MAXVA_of_userPage hn).trans (by decide))
    exact (hframe i hi n (heq ▸ userFrame_of_userPage hn)).2
  have hle : reach σ.mem root va src.length ≤ src.length := reach_le _ _
  have haddr : ∀ i < reach σ.mem root va src.length, uaddr va i = va + i := fun i hi =>
    uaddr_eq hva i fun l hl => userPage_of_lt_reach (hl.trans hi)
  have hpage : ∀ i < reach σ.mem root va src.length,
      userFrame σ.mem root (uaddr va i) = userPage σ.mem root (va + i) := fun i hi => by
    rw [← haddr i hi, userPage_eq_userFrame (hzero i (hi.trans_le hle))]
  have hdone := reach_eq_iff_frames hva hzero
  have hmapped : ∀ i < reach σ.mem root va src.length, userPage σ.mem root (va + i) ≠ none := fun i hi =>
    userPage_of_lt_reach hi
  generalize reach σ.mem root va src.length = j at *
  have htake : (src.take j).length = j := length_take_of_le hle
  refine ⟨_, _, j, hrun, ?_, ⟨hle, of_decide_eq_true, fun i hi => ?_⟩, fun i hi n hn hlast => ?_,
    fun n o hne => ?_, (pokes_frame _ _ _).1⟩
  · rw [decide_eq_true_iff, hdone]
  · rw [hpage i hi]
    exact hmapped i hi
  · have hget : src.getD i 0 = (src.take j).getD i 0 := by
      rw [getD_eq_getElem _ _ (hi.trans_le hle), getD_eq_getElem _ _ (htake.symm ▸ hi),
        getElem_take]
    rw [haddr i hi, hget]
    refine byteAt_pokes _ (htake.symm ▸ hi) ((hpage i hi).symm.trans hn) fun l hl hil => ?_
    rw [htake] at hl
    have h := hlast l hl hil
    rwa [hpage l hl, haddr l hl, haddr i hi] at h
  · refine byteAt_pokes_of_ne _ fun i hi => ?_
    rw [htake] at hi
    have h := hne i hi
    rwa [hpage i hi, haddr i hi] at h

/-- **`copyinstr` fetches the string if its NUL comes in time, and fails otherwise.** -/
theorem copyinstr_bytewise {max : ℕ} (hzero : ∀ i < max, userFrame σ.mem root (uaddr va i) ≠ some 0) :
    FetchesString root va max σ := by
  have hbyte : ∀ x, userByte σ.mem root x ≠ none ↔ userPage σ.mem root x ≠ none := fun x => by
    rw [userByte, Ne, Option.map_eq_none_iff]
  obtain ⟨r, σ', hrun, rfl, rfl⟩ :=
    (copyinstr_run : Ensures (copyinstr root va max) σ _ _).exists_ok
  refine ⟨_, _, hrun, strAt_length_le _ _ _, ?_, fun hok => ?_⟩
  · rw [strAt_ok_iff]
    refine exists_congr fun i => and_congr_right fun hi => ?_
    have hiff : (∀ j < i, userByte σ'.mem root (va + j) ≠ none) ↔
        ∀ j < i, userFrame σ'.mem root (uaddr va j) ≠ none := by
      simp only [hbyte]
      rw [← mapped_uaddr_iff hva]
      exact forall₂_congr fun j hj => by rw [userPage_eq_userFrame (hzero j (hj.trans hi))]
    rw [← hiff]
    refine and_congr_right fun hbefore => ?_
    rw [uaddr_eq hva i fun l hl => (hbyte _).1 (hbefore l hl)]
  · obtain ⟨l, hl, hnot, -, hholds⟩ := string_of_mem_strAt (mem_strAt_of_ok hok)
    refine ⟨l, hl, hnot, fun i hi => ?_⟩
    rw [hl] at hi ⊢
    rw [uaddr_eq hva i fun k hk => (hbyte _).1 ?_]
    · exact hholds i hi
    · rw [hholds k (hk.trans hi)]
      exact Option.some_ne_none _

/-- **Copies to and from user memory are what going byte by byte gives.**  As long as no address of the range
leads to physical page 0: `copyin` succeeds exactly if every byte of the range is in a valid user page,
and delivers these bytes; `copyinstr` succeeds exactly if a NUL comes among the first `max` bytes and before
any byte that is not in such a page, it then has copied the string with its NUL, and it never writes
more than `max` bytes; neither changes memory.  If moreover no address of the range leads into the page
table, `copyout` succeeds exactly if every byte of the range is in a valid user page.  It stores the bytes
before the first that is not: what is at a place is the last byte stored there, and no other memory
changes. -/
theorem user_copies (root : ℕ) (σ : Phys) :
    (∀ len, (∀ i < len, userFrame σ.mem root (uaddr va i) ≠ some 0) → FetchesBytes root va len σ) ∧
    (∀ src : List Byte, (∀ i < src.length, ∀ n, userFrame σ.mem root (uaddr va i) = some n →
        n ≠ 0 ∧ n ∉ tabs σ.mem root) → StoresBytes root va src σ) ∧
    (∀ max, (∀ i < max, userFrame σ.mem root (uaddr va i) ≠ some 0) → FetchesString root va max σ) :=
  ⟨fun _ => copyin_bytewise hva, fun _ => copyout_bytewise hva, fun _ => copyinstr_bytewise hva⟩

end Copies

/-! ## Tables apart from the memory they map -/

/-- The memory after `copyout` of `l` to `x`. -/
def copied (root x : ℕ) (l : List Byte) (σ : Phys) : Phys :=
  pokes σ.mem root x (l.take (reach σ.mem root x l.length)) σ

theorem copied_nil (root x : ℕ) (σ : Phys) : copied root x [] σ = σ := rfl

theorem copied_append_of_lt {l : List Byte} (h : reach σ.mem root x l.length < l.length) (l' : List Byte) :
    copied root x (l ++ l') σ = copied root x l σ := by
  rw [copied, copied, length_append, reach_of_lt h le_self_add,
    take_append_of_le_length h.le]

theorem exists_of_copied_ne {p : ℕ} (hva : va < 2 ^ 64) {l : List Byte}
    (h : ((copied root va l σ).mem p).byteAt o ≠ (σ.mem p).byteAt o) :
    ∃ i < reach σ.mem root va l.length, userPage σ.mem root (uaddr va i) = some p ∧ uaddr va i % PGSIZE = o := by
  by_contra hno
  refine h (byteAt_pokes_of_ne _ fun i hi hplace => hno ⟨i, ?_, ?_⟩)
  · exact hi.trans_le (length_take_le _ _)
  · have hlt : i < reach σ.mem root va l.length := hi.trans_le (length_take_le _ _)
    rw [uaddr_eq hva i fun k hk => userPage_of_lt_reach (hk.trans hlt)]
    exact hplace

theorem mod_of_reach (hx : x < 2 ^ 64) (h : reach m root x len = len) : (x + len) % 2 ^ 64 = x + len :=
  uaddr_eq hx len (reach_eq_iff.1 h)

namespace Apart

variable (h : Apart σ.mem root)
include h

theorem copyout_eq (x : ℕ) (l : List Byte) : copyout root x l σ =
    .ok (decide (reach σ.mem root x l.length = l.length), Xv6.copied root x l σ) := h.copyout_run x l

theorem copied (x : ℕ) (l : List Byte) : Apart (Xv6.copied root x l σ).mem root := h.pokes x _

theorem userPage_copied (x : ℕ) (l : List Byte) (y : ℕ) :
    userPage (Xv6.copied root x l σ).mem root y = userPage σ.mem root y := userPage_congr (h.sameTable x _) y

theorem reach_copied (x : ℕ) (l : List Byte) (y len : ℕ) :
    reach (Xv6.copied root x l σ).mem root y len = reach σ.mem root y len := reach_congr (h.userPage_copied x l) y len

theorem copied_append {x : ℕ} {l : List Byte} (hl : reach σ.mem root x l.length = l.length) (l' : List Byte) :
    Xv6.copied root x (l ++ l') σ = Xv6.copied root (x + l.length) l' (Xv6.copied root x l σ) ∧
      reach σ.mem root x (l ++ l').length = l.length + reach σ.mem root (x + l.length) l'.length := by
  have hadd : reach σ.mem root x (l.length + l'.length) = _ := reach_add l'.length (reach_eq_iff.1 hl)
  rw [← length_append] at hadd
  refine ⟨?_, hadd⟩
  have hfirst : Xv6.copied root x l σ = Xv6.pokes σ.mem root x l σ := by
    rw [Xv6.copied, hl, take_length]
  have hrest : Xv6.copied root (x + l.length) l' (Xv6.copied root x l σ) = Xv6.pokes σ.mem root (x + l.length)
      (l'.take (reach σ.mem root (x + l.length) l'.length)) (Xv6.copied root x l σ) := by
    rw [Xv6.copied.eq_1 root (x + l.length), h.reach_copied, pokes_congr (h.userPage_copied x l)]
  rw [hrest, hfirst, Xv6.copied, hadd, take_length_add_append, pokes_append]

end Apart

/-! ## Page tables that the kernel does not build

In these a user page may be a page of the table, and a copy may change where its later bytes go. -/

/-- A page table in pages 1, 2 and 3, with the given entries for pages 510 and 511. -/
def lastTwo (e e' : ℕ) : Phys where
  mem n :=
    if n = 1 then (Bytes.fill PGSIZE 0).putLE 0 8 (mkPte 2 0)
    else if n = 2 then (Bytes.fill PGSIZE 0).putLE 0 8 (mkPte 3 0)
    else if n = 3 then ((Bytes.fill PGSIZE 0).putLE 4080 8 e).putLE 4088 8 e'
    else Bytes.fill PGSIZE 0
  freelist := []
  sound := true

section LastTwo

variable (e e' : ℕ) {j : ℕ}

theorem pte_lastTwo {n : ℕ} (hn : n = 1 ∨ n = 2) :
    pte (lastTwo e e').mem n j = if j = 0 then mkPte (n + 1) 0 else 0 := by
  have hmem : (lastTwo e e').mem n = (fill PGSIZE 0).putLE 0 8 (mkPte (n + 1) 0) := by
    obtain rfl | rfl := hn <;> rfl
  rw [pte, hmem]
  split_ifs with hj
  · subst hj
    refine (getLE_putLE_same _ _ (by decide)).trans (Nat.mod_eq_of_lt ?_)
    obtain rfl | rfl := hn <;> decide
  · rw [getLE_putLE_disjoint _ _ (by omega), getLE_fill_zero]

theorem pte_lastTwo_three : pte (lastTwo e e').mem 3 j =
    if j = 511 then e' % 2 ^ 64 else if j = 510 then e % 2 ^ 64 else 0 := by
  rw [pte, show (lastTwo e e').mem 3 = ((fill PGSIZE 0).putLE 4080 8 e).putLE 4088 8 e' from rfl]
  split_ifs with hj hj'
  · subst hj
    exact getLE_putLE_same _ _ (by decide)
  · subst hj'
    rw [getLE_putLE_disjoint _ _ (by omega)]
    exact getLE_putLE_same _ _ (by decide)
  · rw [getLE_putLE_disjoint _ _ (by omega), getLE_putLE_disjoint _ _ (by omega), getLE_fill_zero]

theorem child_lastTwo {n : ℕ} (hn : n = 1 ∨ n = 2) :
    (nodes (lastTwo e e').mem).child n j = if j = 0 then some (n + 1) else none := by
  change (if pte (lastTwo e e').mem n j % 2 = 1 then some (pte2page (pte (lastTwo e e').mem n j)) else none) = _
  rw [pte_lastTwo e e' hn]
  obtain rfl | rfl := hn <;> split_ifs <;> first | rfl | contradiction

theorem tabs_lastTwo : tabs (lastTwo e e').mem 1 = {1, 2, 3} := by
  have hstep : ∀ {L n}, (n = 1 ∨ n = 2) → tables 512 (nodes (lastTwo e e').mem) (L + 1) n =
      {n} + tables 512 (nodes (lastTwo e e').mem) L (n + 1) := fun hn => by
    simp only [tables, child_lastTwo e e' hn]
    rw [Finset.sum_eq_single 0 (fun j _ hj => by rw [if_neg hj]; rfl)
      fun h => absurd (Finset.mem_range.2 (by norm_num)) h, if_pos rfl, Option.elim_some]
  rw [tabs, hstep (.inl rfl), hstep (.inr rfl), tables]
  rfl

theorem leaf_lastTwo {v d : ℕ} (h : leaf (lastTwo e e').mem 1 v = some d) :
    d = e % 2 ^ 64 ∨ d = e' % 2 ^ 64 ∨ d = 0 := by
  obtain ⟨q, hb, hval⟩ := Option.bind_eq_some_iff.1 ((find_eq_bottom ..).symm.trans h)
  have hq : q = 3 := by
    rw [bottom, child_lastTwo e e' (.inl rfl)] at hb
    split_ifs at hb
    · rw [Option.bind_some, bottom, child_lastTwo e e' (.inr rfl)] at hb
      split_ifs at hb
      · rw [Option.bind_some, bottom] at hb
        exact (Option.some.inj hb).symm
      · cases hb
    · cases hb
  subst hq
  rw [value_eq_entry, pte_lastTwo_three, entry] at hval
  obtain ⟨-, rfl⟩ := Option.ite_none_right_eq_some.1 hval |>.imp_right Option.some.inj
  split_ifs
  · exact .inr (.inl rfl)
  · exact .inl rfl
  · exact .inr (.inr rfl)

theorem lastTwo_apart (he : pte2page e ∉ ({1, 2, 3} : Multiset ℕ))
    (he' : pte2page e' ∉ ({1, 2, 3} : Multiset ℕ)) :
    Apart (lastTwo e e').mem 1 := by
  intro x n hn
  rw [userPage] at hn
  split_ifs at hn
  obtain ⟨d, hd, hite⟩ := Option.bind_eq_some_iff.1 hn
  obtain ⟨hu, rfl⟩ := Option.ite_none_right_eq_some.1 hite |>.imp_right Option.some.inj
  have hmod : ∀ a, pte2page (a % 2 ^ 64) = pte2page a := fun a => by
    unfold pte2page
    omega
  rw [tabs_lastTwo]
  obtain rfl | rfl | rfl := leaf_lastTwo e e' hd
  · exact hmod e ▸ he
  · exact hmod e' ▸ he'
  · decide

end LastTwo

/-- A user page that is the bottom table: the first eight bytes of a copy erase the entry for the next page,
and the copy fails though the table maps the whole range.  A user page that is physical page 0: `copyin`
fails though the table maps it. -/
theorem user_copies_fail :
    (∃ σ root va, ∃ src : List Byte, (∀ i < src.length, userFrame σ.mem root (uaddr va i) ≠ none) ∧
      ∃ σ', copyout root va src σ = .ok (false, σ')) ∧
    ∃ σ root va, ∃ len, (∀ i < len, userFrame σ.mem root (uaddr va i) ≠ none) ∧
      copyin root va len σ = .ok (none, σ) := by
  refine ⟨⟨lastTwo (mkPte 3 22) (mkPte 4 22), 1, 510 * PGSIZE + 4088, List.replicate 9 0, by decide +kernel, ?_⟩,
    lastTwo (mkPte 0 22) 0, 1, 510 * PGSIZE, 1, by decide +kernel, ?_⟩
  · have hfail : (copyout 1 (510 * PGSIZE + 4088) (List.replicate 9 0)
        (lastTwo (mkPte 3 22) (mkPte 4 22))).toOption.map Prod.fst = some false := by decide +kernel
    obtain ⟨⟨r, σ'⟩, hrun, rfl⟩ := Exec.exists_ok_of_map hfail
    exact ⟨σ', hrun⟩
  · have hreach : reach (lastTwo (mkPte 0 22) 0).mem 1 (510 * PGSIZE) 1 ≠ 1 := by decide +kernel
    exact (copyinLoop_run 1 le_rfl).trans (by rw [if_neg hreach])

/-- Two bytes across the boundary of two user pages. -/
theorem user_copies_two : 510 * PGSIZE + 4095 < 2 ^ 64 ∧
    ∃ σ', copyout 1 (510 * PGSIZE + 4095) [7, 8] (lastTwo (mkPte 4 22) (mkPte 5 22)) = .ok (true, σ') ∧
      (σ'.mem 4).byteAt 4095 = 7 := by
  have hva : 510 * PGSIZE + 4095 < 2 ^ 64 := by decide
  have hframes : ∀ i < 2, userFrame (lastTwo (mkPte 4 22) (mkPte 5 22)).mem 1 (uaddr (510 * PGSIZE + 4095) i) =
      some (4 + i) := by decide +kernel
  have htabs : ∀ i < 2, 4 + i ∉ tabs (lastTwo (mkPte 4 22) (mkPte 5 22)).mem 1 := by decide +kernel
  refine ⟨hva, ?_⟩
  obtain ⟨-, hout, -⟩ := user_copies hva 1 (lastTwo (mkPte 4 22) (mkPte 5 22))
  obtain ⟨r, σ', j, hrun, hr, ⟨-, hj, -⟩, hbytes, -⟩ := hout [7, 8] fun i hi n hn => by
    obtain rfl := Option.some.inj ((hframes i hi).symm.trans hn)
    exact ⟨by omega, htabs i hi⟩
  obtain rfl : r = true := hr.2 fun i hi => by
    rw [hframes i hi]
    exact Option.some_ne_none _
  obtain rfl : j = 2 := hj rfl
  refine ⟨σ', hrun, hbytes 0 (by decide) 4 (hframes 0 (by decide)) fun l hl hlt hsame => ?_⟩
  obtain rfl : l = 1 := by omega
  exact absurd (Option.some.inj ((hframes 1 hl).symm.trans hsame.1)) (by decide)

end Xv6

import Xv6.Vm.Copy

/-!
# Vm/Poke — `copyout` and `copyin`, byte by byte

Both look each page up once; here each byte is looked up for itself: `poke` stores one byte where its
address leads, `peek` is the byte that is there, `reach` counts the bytes up to the first address that
leads nowhere.  The two agree unless a store hits a page of the table (`Apart`).
-/

namespace Xv6

open Machinery Function List Radix Exec Bytes Nat

variable {im : Image} {root x y n i len o va dst : ℕ} {σ : Phys} {rest : Multiset ℕ} {m m' : ℕ → Page}
  {src : List Byte}

/-! ## The page of an address -/

theorem userPage_eq_of_div (h : x / PGSIZE = y / PGSIZE) : userPage m root x = userPage m root y := by
  have hlt : x < MAXVA ↔ y < MAXVA := by
    unfold PGSIZE at h
    unfold MAXVA
    omega
  simp only [userPage, hlt, h]

theorem userPage_pgRoundDown (m : ℕ → Page) (x : ℕ) :
    userPage m root (pgRoundDown x) = userPage m root x := by
  refine userPage_eq_of_div ?_
  rw [pgRoundDown, Nat.mul_div_cancel _ PGSIZE_pos]

theorem userPage_congr {m' : ℕ → Page} (hs : SameTable root m m') (x : ℕ) :
    userPage m' root x = userPage m root x := by
  rw [userPage, userPage, hs.leaf]

theorem lt_MAXVA_of_userPage (h : userPage m root x = some n) : x < MAXVA := by
  by_contra hge
  rw [userPage, if_neg hge] at h
  exact absurd h (by simp)

theorem userPage_add (hn : userPage m root x = some n) (hi : x % PGSIZE + i < PGSIZE) :
    userPage m root (x + i) = some n := by
  rw [← hn]
  refine userPage_eq_of_div ?_
  unfold PGSIZE at *
  omega

/-! ## One byte at a time -/

def poke (m : ℕ → Page) (root x : ℕ) (b : Byte) (σ : Phys) : Phys :=
  match userPage m root x with
  | none => σ
  | some n => σ.put n ((σ.mem n).splice (x % PGSIZE) [b])

/-- The bytes of a list are stored one after the other. -/
def pokes (m : ℕ → Page) (root : ℕ) : ℕ → List Byte → Phys → Phys
  | _, [], σ => σ
  | x, b :: bs, σ => pokes m root (x + 1) bs (poke m root x b σ)

/-- How many of the `len` bytes from `x` on come before the first that is not mapped for the user. -/
def reach (m : ℕ → Page) (root : ℕ) : ℕ → ℕ → ℕ
  | _, 0 => 0
  | x, len + 1 => if userPage m root x = none then 0 else reach m root (x + 1) len + 1

/-! ## `reach` -/

theorem reach_le (x len : ℕ) : reach m root x len ≤ len := by
  induction len generalizing x with
  | zero => exact le_rfl
  | succ len ih =>
    rw [reach]
    split_ifs
    · exact zero_le
    · exact succ_le_succ (ih _)

theorem userPage_of_lt_reach (hi : i < reach m root x len) : userPage m root (x + i) ≠ none := by
  induction len generalizing x i with
  | zero => exact absurd hi (Nat.not_lt_zero i)
  | succ len ih =>
    rw [reach] at hi
    split_ifs at hi with hx
    · exact absurd hi (Nat.not_lt_zero i)
    · cases i with
      | zero => exact hx
      | succ i =>
        rw [add_comm i 1, ← add_assoc]
        exact ih (by omega)

theorem userPage_reach (h : reach m root x len < len) :
    userPage m root (x + reach m root x len) = none := by
  induction len generalizing x with
  | zero => exact absurd h (Nat.not_lt_zero _)
  | succ len ih =>
    rw [reach] at h ⊢
    split_ifs at h ⊢ with hx
    · exact hx
    · rw [add_comm _ 1, ← add_assoc]
      exact ih (by omega)

/-- **All bytes are reached exactly if all are mapped for the user.** -/
theorem reach_eq_iff : reach m root x len = len ↔ ∀ i < len, userPage m root (x + i) ≠ none := by
  constructor
  · intro h i hi
    exact userPage_of_lt_reach (h.symm ▸ hi)
  · intro h
    refine le_antisymm (reach_le x len) (not_lt.1 fun hlt => ?_)
    exact h _ hlt (userPage_reach hlt)

theorem reach_add {c : ℕ} (len : ℕ) (h : ∀ i < c, userPage m root (x + i) ≠ none) :
    reach m root x (c + len) = c + reach m root (x + c) len := by
  induction c generalizing x with
  | zero => rw [zero_add, zero_add, add_zero]
  | succ c ih =>
    have hrest : ∀ i < c, userPage m root (x + 1 + i) ≠ none := fun i hi => by
      have hi' := h (i + 1) (by omega)
      rwa [add_comm i 1, ← add_assoc] at hi'
    have hx : userPage m root x ≠ none := h 0 (succ_pos c)
    rw [Nat.add_right_comm, reach, if_neg hx, ih hrest, add_assoc x 1 c, add_comm 1 c]
    omega

theorem reach_of_lt {len' : ℕ} (h : reach m root x len < len) (hle : len ≤ len') :
    reach m root x len' = reach m root x len := by
  have hmapped : ∀ i < reach m root x len, userPage m root (x + i) ≠ none := fun i hi => userPage_of_lt_reach hi
  have hadd := reach_add (len' - reach m root x len) hmapped
  rw [show reach m root x len + (len' - reach m root x len) = len' by omega,
    show len' - reach m root x len = len' - reach m root x len - 1 + 1 by omega, reach,
    if_pos (userPage_reach h)] at hadd
  exact hadd

theorem reach_congr (h : ∀ x, userPage m' root x = userPage m root x) (x len : ℕ) :
    reach m' root x len = reach m root x len := by
  induction len generalizing x with
  | zero => rfl
  | succ len ih => rw [reach, reach, h, ih]

/-! ## `pokes` -/

theorem pokes_append (x : ℕ) (l r : List Byte) (σ : Phys) :
    pokes m root x (l ++ r) σ = pokes m root (x + l.length) r (pokes m root x l σ) := by
  induction l generalizing x σ with
  | nil => rfl
  | cons b l ih => rw [cons_append, pokes, pokes, ih, length_cons, add_assoc, add_comm 1]

theorem pokes_congr (h : ∀ x, userPage m' root x = userPage m root x) (x : ℕ) (l : List Byte) (σ : Phys) :
    pokes m' root x l σ = pokes m root x l σ := by
  induction l generalizing x σ with
  | nil => rfl
  | cons b l ih => rw [pokes, pokes, poke, poke, h, ih]

theorem mem_pokes (l : List Byte) (h : ∀ i < l.length, userPage m root (x + i) ≠ some n) :
    (pokes m root x l σ).mem n = σ.mem n := by
  induction l generalizing x σ with
  | nil => rfl
  | cons b l ih =>
    have hrest : ∀ i < l.length, userPage m root (x + 1 + i) ≠ some n := fun i hi => by
      have hi' := h (i + 1) (succ_lt_succ hi)
      rwa [add_comm i 1, ← add_assoc] at hi'
    rw [pokes, ih hrest, poke]
    cases hx : userPage m root x with
    | none => rfl
    | some n' =>
      have hne : n ≠ n' := fun heq => h 0 (succ_pos _) (heq ▸ hx)
      exact update_of_ne hne _ _

theorem pokes_frame (x : ℕ) (l : List Byte) (σ : Phys) : (pokes m root x l σ).freelist = σ.freelist ∧
    (pokes m root x l σ).sound = σ.sound := by
  induction l generalizing x σ with
  | nil => exact ⟨rfl, rfl⟩
  | cons b l ih =>
    rw [pokes, (ih _ _).1, (ih _ _).2, poke]
    split <;> exact ⟨rfl, rfl⟩

/-- **A byte of memory that no address of the range leads to keeps its value.** -/
theorem byteAt_pokes_of_ne (l : List Byte)
    (h : ∀ i < l.length, ¬(userPage m root (x + i) = some n ∧ (x + i) % PGSIZE = o)) :
    ((pokes m root x l σ).mem n).byteAt o = (σ.mem n).byteAt o := by
  induction l generalizing x σ with
  | nil => rfl
  | cons b l ih =>
    have hrest : ∀ i < l.length, ¬(userPage m root (x + 1 + i) = some n ∧ (x + 1 + i) % PGSIZE = o) :=
        fun i hi => by
      have hi' := h (i + 1) (succ_lt_succ hi)
      rwa [add_comm i 1, ← add_assoc] at hi'
    rw [pokes, ih hrest, poke]
    cases hx : userPage m root x with
    | none => rfl
    | some n' =>
      by_cases hn : n = n'
      · subst hn
        have ho : x % PGSIZE ≠ o := fun ho => h 0 (succ_pos _) ⟨hx, ho⟩
        simp only [Phys.put, update_self]
        exact byteAt_splice_of_notMem _ _ _ (by rw [length_singleton]; omega)
      · simp only [Phys.put, update_of_ne hn]

/-- **The last byte that is stored at a place is found there.** -/
theorem byteAt_pokes (l : List Byte) (hi : i < l.length) (hn : userPage m root (x + i) = some n)
    (hlast : ∀ j < l.length, i < j → ¬(userPage m root (x + j) = some n ∧ (x + j) % PGSIZE = (x + i) % PGSIZE)) :
    ((pokes m root x l σ).mem n).byteAt ((x + i) % PGSIZE) = l.getD i 0 := by
  have hsplit : l = l.take i ++ (l.getD i 0 :: l.drop (i + 1)) := by
    rw [getD_eq_getElem _ _ hi, getElem_cons_drop, take_append_drop]
  have hlen : (l.take i).length = i := length_take_of_le hi.le
  have hmod : (x + i) % PGSIZE < PGSIZE := mod_lt _ PGSIZE_pos
  generalize l.getD i 0 = b at *
  rw [hsplit, pokes_append, hlen, pokes, byteAt_pokes_of_ne]
  · rw [poke, hn]
    simp only [Phys.put, update_self]
    rw [byteAt_splice _ _ _ hmod, if_pos ⟨le_rfl, by simp⟩, Nat.sub_self, getD_cons_zero]
  · intro j hj
    rw [length_drop] at hj
    have hj' := hlast (i + 1 + j) (by omega) (by omega)
    rwa [← add_assoc, ← add_assoc] at hj'

/-! ## One page at a time

`copyout` stores the bytes of a page at once, after one `walkaddr`; that is the same. -/

/-- **The bytes of one page can be stored at once.** -/
theorem pokes_page (l : List Byte) (hn : userPage m root x = some n)
    (hfit : x % PGSIZE + l.length ≤ PGSIZE) (σ : Phys) :
    pokes m root x l σ = σ.put n ((σ.mem n).splice (x % PGSIZE) l) := by
  induction l generalizing x σ with
  | nil => rw [pokes, splice_nil, Phys.put, update_eq_self]
  | cons b l ih =>
    rw [length_cons] at hfit
    rw [pokes, poke, hn]
    simp only
    cases l with
    | nil => rfl
    | cons c l =>
      rw [length_cons] at hfit
      have hmod : (x + 1) % PGSIZE = x % PGSIZE + 1 := by
        unfold PGSIZE at *
        omega
      rw [ih (userPage_add hn (by omega)) (by rw [hmod, length_cons]; omega), hmod, Phys.put_put]
      have happ := splice_append (σ.mem n) (x % PGSIZE) [b] (c :: l)
      rw [length_singleton, singleton_append] at happ
      rw [← happ]
      simp only [Phys.put, update_self]

/-- The next page, if the bytes of this one are not the last. -/
theorem next_page (hn : userPage m root x = some n) :
    (pgRoundDown x + PGSIZE) % 2 ^ 64 = x + (PGSIZE - x % PGSIZE) := by
  have hlt := lt_MAXVA_of_userPage hn
  unfold pgRoundDown
  unfold MAXVA at hlt
  unfold PGSIZE at *
  omega

theorem sub_pgRoundDown (x : ℕ) : x - pgRoundDown x = x % PGSIZE := by
  unfold pgRoundDown PGSIZE
  omega

theorem copyoutLoop_nil (k dst : ℕ) : copyoutLoop root k dst [] = pure true := by
  cases k <;> rfl

/-- **`copyout` stores the bytes up to the first that is not mapped, one by one.** -/
theorem copyoutLoop_run (k : ℕ) (hk : src.length ≤ k)
    (hapart : ∀ i < src.length, ∀ n, userPage σ.mem root (dst + i) = some n → n ∉ tabs σ.mem root) :
    copyoutLoop root k dst src σ =
      .ok (decide (reach σ.mem root dst src.length = src.length),
        pokes σ.mem root dst (src.take (reach σ.mem root dst src.length)) σ) := by
  induction k generalizing dst src σ with
  | zero =>
    rw [length_eq_zero_iff.1 (le_zero.1 hk)]
    rfl
  | succ k ih =>
    cases hsrc : src with
    | nil => rfl
    | cons b bs =>
      unfold copyoutLoop
      rw [bind_ok (walkaddr_run _ _ _), userPage_pgRoundDown, sub_pgRoundDown]
      cases hn : userPage σ.mem root dst with
      | none =>
        rw [length_cons, reach, if_pos hn]
        rfl
      | some n =>
        rw [← hsrc]
        simp only
        have hpos : 0 < src.length := by simp [hsrc]
        have hmod : dst % PGSIZE < PGSIZE := mod_lt _ PGSIZE_pos
        set len := min (PGSIZE - dst % PGSIZE) src.length with hlen
        have htake : (src.take len).length = len := length_take_of_le (min_le_right _ _)
        have hmapped : ∀ i < len, userPage σ.mem root (dst + i) ≠ none := fun i hi => by
          rw [userPage_add hn (by omega)]
          exact Option.some_ne_none n
        have hall := reach_add (src.length - len) hmapped
        rw [show len + (src.length - len) = src.length by omega] at hall
        rw [bind_ok (show (modify _ : Exec KPanic Phys PUnit) σ = .ok ((), _) from rfl),
          ← pokes_page (src.take len) hn (by omega)]
        -- the table is as before, so the next page is looked up in the table of now
        have hsame : SameTable root σ.mem (pokes σ.mem root dst (src.take len) σ).mem :=
          sameTable_of_eq fun y hy => mem_pokes _ fun i hi hy' => by
            rw [htake] at hi
            exact hapart i (by omega) y hy' hy
        have hpage := userPage_congr hsame
        have hrest : copyoutLoop root k ((pgRoundDown dst + PGSIZE) % 2 ^ 64) (src.drop len)
            (pokes σ.mem root dst (src.take len) σ) = copyoutLoop root k (dst + len) (src.drop len)
            (pokes σ.mem root dst (src.take len) σ) := by
          by_cases hlast : len = src.length
          · rw [hlast, drop_length, copyoutLoop_nil, copyoutLoop_nil]
          · rw [next_page hn, show PGSIZE - dst % PGSIZE = len by omega]
        rw [hrest, ih (by rw [length_drop]; omega) fun i hi y hy => ?_]
        · rw [length_drop, reach_congr hpage, pokes_congr hpage, hall, take_add, pokes_append, htake]
          refine congrArg Except.ok (Prod.ext (decide_eq_decide.2 ?_) rfl)
          omega
        · rw [length_drop] at hi
          rw [hpage, add_assoc] at hy
          rw [hsame.tabs]
          exact hapart _ (by omega) y hy

/-! ## Tables apart from the memory they map -/

/-- No user address leads into the page table, as in all tables that the kernel builds. -/
def Apart (m : ℕ → Page) (root : ℕ) : Prop := ∀ x n, userPage m root x = some n → n ∉ tabs m root

/-- In a tree of its own, whose upper leaves are not for the user, no user address does. -/
theorem Space.apart (h : Space im USERTOP root rest σ) (hg : Guarded σ.mem root) : Apart σ.mem root :=
  fun _ _ hn => h.notMem_tabs (mem_mapped_of_userPage hg hn)

namespace Apart

theorem copyout_run (h : Apart σ.mem root) (dst : ℕ) (src : List Byte) :
    copyout root dst src σ =
      .ok (decide (reach σ.mem root dst src.length = src.length),
        pokes σ.mem root dst (src.take (reach σ.mem root dst src.length)) σ) :=
  copyoutLoop_run src.length le_rfl fun _ _ n hn => h _ n hn

theorem sameTable (h : Apart σ.mem root) (x : ℕ) (l : List Byte) :
    SameTable root σ.mem (pokes σ.mem root x l σ).mem :=
  sameTable_of_eq fun y hy => mem_pokes _ fun _ _ hn => h _ y hn hy

theorem pokes (h : Apart σ.mem root) (x : ℕ) (l : List Byte) : Apart (pokes σ.mem root x l σ).mem root :=
  fun y n hn => by
    rw [userPage_congr (h.sameTable x l)] at hn
    rw [(h.sameTable x l).tabs]
    exact h y n hn

end Apart

theorem stored_pokes (hg : Guarded σ.mem root) (x : ℕ) (l : List Byte) :
    Stored root σ (pokes σ.mem root x l σ) :=
  ⟨(pokes_frame x l σ).1, fun _ hy => mem_pokes l fun _ _ hn => hy (mem_mapped_of_userPage hg hn),
    (pokes_frame x l σ).2⟩

/-- **`copyout` stores into user pages only.** -/
theorem copyout_spec (h : Space im USERTOP root rest σ) (hg : Guarded σ.mem root) :
    Ensures (copyout root dst src) σ (fun _ σ' => Stored root σ σ') :=
  (Ensures.ok_iff ((h.apart hg).copyout_run dst src)).2 (stored_pokes hg _ _)

/-! ## `copyin` -/

/-- What a user address holds. -/
def userByte (m : ℕ → Page) (root x : ℕ) : Option Byte :=
  (userPage m root x).map fun n => (m n).byteAt (x % PGSIZE)

/-- The memory `f` holds the bytes `l` from `va` on. -/
def Holds (f : ℕ → Option Byte) (va : ℕ) (l : List Byte) : Prop :=
  ∀ i < l.length, f (va + i) = some (l.getD i 0)

theorem holds_slice {len : ℕ} (hn : userPage m root va = some n) (hfit : va % PGSIZE + len ≤ PGSIZE) :
    Holds (userByte m root) va ((m n).slice (va % PGSIZE) len) := by
  intro i hi
  rw [Bytes.length_slice] at hi
  have hmod : (va + i) % PGSIZE = va % PGSIZE + i := by
    unfold PGSIZE at *
    omega
  rw [userByte, userPage_add hn (by omega), Option.map_some, hmod, Bytes.getD_slice _ _ hi]

def peek (m : ℕ → Page) (root x : ℕ) : Byte := (userByte m root x).getD 0

theorem slice_eq_peek (hn : userPage m root x = some n) (hfit : x % PGSIZE + len ≤ PGSIZE) :
    (m n).slice (x % PGSIZE) len = (List.range len).map fun i => peek m root (x + i) := by
  refine ext_getElem (by simp) fun i h1 h2 => ?_
  rw [length_slice] at h1
  have hbyte := holds_slice hn hfit i (by rwa [length_slice])
  rw [getElem_map, getElem_range, peek, hbyte, Option.getD_some,
    getD_eq_getElem _ _ (by rwa [length_slice])]

/-- `copyin`, with the bytes that it has stored to `dst` when it returns. -/
def copyinDstLoop (root : ℕ) : ℕ → ℕ → ℕ → Exec KPanic Phys (List Byte × Bool)
  | _, _, 0 => return ([], true)
  | 0, _, _ + 1 => return ([], true)
  | k + 1, srcva, len => do
    let va0 := pgRoundDown srcva
    match ← walkaddr root va0 with
    | none => return ([], false)
    | some n =>
      let m := min (PGSIZE - (srcva - va0)) len
      let bs := ((← get).mem n).slice (srcva - va0) m
      let rest ← copyinDstLoop root k ((va0 + PGSIZE) % 2 ^ 64) (len - m)
      return (bs ++ rest.1, rest.2)

theorem copyinDstLoop_zero (k va : ℕ) : copyinDstLoop root k va 0 = pure ([], true) := by
  cases k <;> rfl

/-- **`copyin` fetches bytes one by one up to the first that it cannot read.** -/
theorem copyinDstLoop_run (k : ℕ) (hk : len ≤ k) : copyinDstLoop root k va len σ =
      .ok (((List.range (reach σ.mem root va len)).map fun i => peek σ.mem root (va + i),
        decide (reach σ.mem root va len = len)), σ) := by
  induction k generalizing va len with
  | zero =>
    obtain rfl : len = 0 := by omega
    rfl
  | succ k ih =>
    cases hlen : len with
    | zero => rfl
    | succ len' =>
      unfold copyinDstLoop
      rw [bind_ok (walkaddr_run _ _ _), userPage_pgRoundDown, sub_pgRoundDown, succ_eq_add_one, ← hlen]
      cases hn : userPage σ.mem root va with
      | none =>
        rw [hlen, reach, if_pos hn]
        rfl
      | some n =>
        simp only
        have hmod : va % PGSIZE < PGSIZE := mod_lt _ PGSIZE_pos
        set c := min (PGSIZE - va % PGSIZE) len with hc
        have hmapped : ∀ i < c, userPage σ.mem root (va + i) ≠ none := fun i hi => by
          rw [userPage_add hn (by omega)]
          exact Option.some_ne_none n
        have hall := reach_add (len - c) hmapped
        rw [show c + (len - c) = len by omega] at hall
        have hrest : copyinDstLoop root k ((pgRoundDown va + PGSIZE) % 2 ^ 64) (len - c) σ =
            copyinDstLoop root k (va + c) (len - c) σ := by
          by_cases hlast : c = len
          · rw [hlast, Nat.sub_self, copyinDstLoop_zero, copyinDstLoop_zero]
          · rw [next_page hn, show PGSIZE - va % PGSIZE = c by omega]
        rw [bind_ok (get_run σ), bind_ok (hrest.trans (ih (by omega))), hall,
          slice_eq_peek hn (by omega), range_add, map_append, map_map]
        refine congrArg Except.ok (Prod.ext (Prod.ext ?_ (decide_eq_decide.2 (by omega))) rfl)
        simp only [Function.comp_def, add_assoc]

theorem copyinLoop_eq (root k va len : ℕ) : copyinLoop root k va len =
    (fun r => if r.2 = true then some r.1 else none) <$> copyinDstLoop root k va len := by
  induction k generalizing va len with
  | zero => cases len <;> rfl
  | succ k ih =>
    cases len with
    | zero => rfl
    | succ len =>
      unfold copyinLoop copyinDstLoop
      rw [map_bind]
      refine bind_congr fun r => ?_
      cases r with
      | none => rfl
      | some n =>
        simp only [ih, map_bind, map_pure, bind_map_left]
        refine bind_congr fun σ => bind_congr fun rest => ?_
        cases hrest : rest.2 <;> simp

/-- **`copyin` fetches all bytes one by one, or fails.** -/
theorem copyinLoop_run (k : ℕ) (hk : len ≤ k) : copyinLoop root k va len σ =
      .ok (if reach σ.mem root va len = len then some ((List.range len).map fun i => peek σ.mem root (va + i))
        else none, σ) := by
  have hrun : copyinDstLoop root k va len σ = _ := copyinDstLoop_run k hk
  rw [copyinLoop_eq, map_eq_pure_bind, bind_ok hrun]
  by_cases hreach : reach σ.mem root va len = len
  · rw [if_pos hreach, if_pos (decide_eq_true hreach), hreach]
    rfl
  · rw [if_neg hreach, if_neg (by rwa [decide_eq_true_iff])]
    rfl

theorem copyin_spec : Ensures (copyin root va len) σ (fun _ σ' => σ' = σ) :=
  (Ensures.ok_iff (copyinLoop_run len le_rfl)).2 rfl

end Xv6

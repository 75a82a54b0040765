import Xv6.Vm.Bytewise

/-!
# Vm/Protect — copies into pages that are not writable

`walkaddr` does not ask for `PTE_W`, so `copyout` stores into every page that the user can see.  A
system call that stores results is a list of copies, each of which ends the call or not when it
fails (`copyouts`); what it stores is a list of bytes with their addresses (`cells`).
-/

namespace Xv6

open Machinery Function Option

/-- A copy to a user address, and whether the call ends if it fails. -/
structure Request where
  addr : ℕ
  bytes : List Byte
  must : Bool

/-- The copies of a call, and whether it gets to the end. -/
def copyouts (root : ℕ) : List Request → Exec KPanic Phys Bool
  | [] => return true
  | q :: qs => do
    if ← copyout root q.addr q.bytes then copyouts root qs
    else if q.must then return false
    else copyouts root qs

variable (m : ℕ → Page) (root : ℕ)

/-- All bytes have a place in user memory. -/
def Request.Fits (q : Request) : Prop := reach m root q.addr q.bytes.length = q.bytes.length

instance (q : Request) : Decidable (q.Fits m root) := inferInstanceAs (Decidable (_ = _))

def cellsFrom : ℕ → List Byte → List (ℕ × Byte)
  | _, [] => []
  | x, b :: bs => (x, b) :: cellsFrom (x + 1) bs

def cells : List Request → List (ℕ × Byte)
  | [] => []
  | q :: qs => cellsFrom q.addr (q.bytes.take (reach m root q.addr q.bytes.length)) ++
      if q.Fits m root ∨ q.must = false then cells qs else []

def pokeAll : List (ℕ × Byte) → Phys → Phys
  | [], σ => σ
  | (x, b) :: cs, σ => pokeAll cs (poke m root x b σ)

def lastAt (p o : ℕ) : List (ℕ × Byte) → Option Byte
  | [] => none
  | (x, b) :: cs => (lastAt p o cs).or (if userPage m root x = some p ∧ x % PGSIZE = o then some b else none)

/-- The entry for an address has `PTE_V`, `PTE_U` and `PTE_W`. -/
def Writable (x : ℕ) : Prop := x < MAXVA ∧ ∃ e, leaf m root (x / PGSIZE) = some e ∧ e / 16 % 2 = 1 ∧ e / 4 % 2 = 1

/-- The entry for an address has `PTE_V` and `PTE_U`, but not `PTE_W`. -/
def ReadOnly (x : ℕ) : Prop := x < MAXVA ∧ ∃ e, leaf m root (x / PGSIZE) = some e ∧ e / 16 % 2 = 1 ∧ e / 4 % 2 = 0

/-- Some address that can be written to leads to the page. -/
def WritablePage (p : ℕ) : Prop := ∃ x, Writable m root x ∧ userPage m root x = some p

variable {m root} {m' : ℕ → Page} {σ σ' : Phys} {qs : List Request} {ok : Bool}

theorem pokes_eq_pokeAll (x : ℕ) (l : List Byte) (σ : Phys) :
    pokes m root x l σ = pokeAll m root (cellsFrom x l) σ := by
  induction l generalizing x σ with
  | nil => rfl
  | cons b bs ih => exact ih (x + 1) _

theorem pokeAll_append (cs cs' : List (ℕ × Byte)) (σ : Phys) :
    pokeAll m root (cs ++ cs') σ = pokeAll m root cs' (pokeAll m root cs σ) := by
  induction cs generalizing σ with
  | nil => rfl
  | cons c cs ih => exact ih _

theorem pokeAll_congr (h : ∀ x, userPage m' root x = userPage m root x) (cs : List (ℕ × Byte)) (σ : Phys) :
    pokeAll m' root cs σ = pokeAll m root cs σ := by
  induction cs generalizing σ with
  | nil => rfl
  | cons c cs ih =>
    rw [pokeAll, pokeAll, ih, poke, poke, h]

theorem fits_congr (h : ∀ x, userPage m' root x = userPage m root x) (q : Request) :
    q.Fits m' root ↔ q.Fits m root := by
  rw [Request.Fits, Request.Fits, reach_congr h]

theorem cells_congr (h : ∀ x, userPage m' root x = userPage m root x) (qs : List Request) :
    cells m' root qs = cells m root qs := by
  induction qs with
  | nil => rfl
  | cons q qs ih =>
    rw [cells, cells, reach_congr h, ih]
    exact congrArg _ (if_congr (or_congr_left (fits_congr h q)) rfl rfl)

theorem copyouts_must (h : Apart σ.mem root) (x : ℕ) (l : List Byte) (qs : List Request) :
    copyouts root (⟨x, l, true⟩ :: qs) σ = if reach σ.mem root x l.length = l.length
      then copyouts root qs (copied root x l σ) else .ok (false, copied root x l σ) := by
  rw [copyouts, Exec.bind_ok (h.copyout_eq x l)]
  by_cases hreach : reach σ.mem root x l.length = l.length
  · rw [if_pos hreach, if_pos (decide_eq_true hreach)]
  · rw [if_neg hreach, if_neg (by rwa [decide_eq_true_iff]), if_pos rfl]
    rfl

theorem copyouts_may (h : Apart σ.mem root) (x : ℕ) (l : List Byte) (qs : List Request) :
    copyouts root (⟨x, l, false⟩ :: qs) σ = copyouts root qs (copied root x l σ) := by
  rw [copyouts, Exec.bind_ok (h.copyout_eq x l), if_neg Bool.false_ne_true, ite_self]

/-- **What the copies of a call do.** -/
theorem copyouts_run (h : Apart σ.mem root) (qs : List Request) : copyouts root qs σ =
    .ok (decide (∀ q ∈ qs, q.must = true → q.Fits σ.mem root),
      pokeAll σ.mem root (cells σ.mem root qs) σ) := by
  induction qs generalizing σ with
  | nil =>
    rw [decide_eq_true (fun q hq => absurd hq List.not_mem_nil)]
    rfl
  | cons q qs ih =>
    have hpage := h.userPage_copied q.addr q.bytes
    have hcopy : copyout root q.addr q.bytes σ = .ok (decide (q.Fits σ.mem root), copied root q.addr q.bytes σ) :=
      h.copyout_eq q.addr q.bytes
    -- the rest of the copies, if the call goes on
    have hrest : copyouts root qs (copied root q.addr q.bytes σ) =
        .ok (decide (∀ q ∈ qs, q.must = true → q.Fits σ.mem root), pokeAll σ.mem root
          (cellsFrom q.addr (q.bytes.take (reach σ.mem root q.addr q.bytes.length)) ++ cells σ.mem root qs) σ) := by
      rw [ih (h.copied q.addr q.bytes), cells_congr hpage, pokeAll_congr hpage, pokeAll_append,
        ← pokes_eq_pokeAll]
      simp only [fits_congr hpage]
      rfl
    rw [copyouts, Exec.bind_ok hcopy, cells]
    by_cases hq : q.Fits σ.mem root
    · rw [if_pos (decide_eq_true hq), hrest, if_pos (.inl hq)]
      refine congrArg Except.ok (Prod.ext (decide_eq_decide.2 ?_) rfl)
      rw [List.forall_mem_cons, and_iff_right fun _ => hq]
    · rw [if_neg (by rwa [decide_eq_true_iff])]
      cases hmust : q.must with
      | true =>
        rw [if_pos rfl, if_neg (not_or.2 ⟨hq, Bool.true_eq_false.mp⟩), List.append_nil, ← pokes_eq_pokeAll]
        refine congrArg Except.ok (Prod.ext (decide_eq_false fun hall => ?_).symm rfl)
        exact hq (hall q List.mem_cons_self hmust)
      | false =>
        rw [if_neg Bool.false_ne_true, hrest, if_pos (.inr rfl)]
        refine congrArg Except.ok (Prod.ext (decide_eq_decide.2 ?_) rfl)
        rw [List.forall_mem_cons, and_iff_right fun h => absurd (hmust.symm.trans h) Bool.false_ne_true]

/-- **What is at a place is the last byte stored there.** -/
theorem byteAt_pokeAll (cs : List (ℕ × Byte)) (σ : Phys) (p o : ℕ) :
    ((pokeAll m root cs σ).mem p).byteAt o = (lastAt m root p o cs).getD ((σ.mem p).byteAt o) := by
  induction cs generalizing σ with
  | nil => rfl
  | cons c cs ih =>
    obtain ⟨x, b⟩ := c
    rw [pokeAll, ih, lastAt]
    cases hlast : lastAt m root p o cs with
    | some b' => rfl
    | none =>
      have hpoke : poke m root x b σ = pokes m root x [b] σ := rfl
      rw [getD_none, none_or, hpoke]
      split_ifs with hplace
      · obtain ⟨hp, rfl⟩ := hplace
        exact byteAt_pokes [b] Nat.one_pos hp fun k hk h => absurd h (not_lt.2 (Nat.le_of_lt_succ hk))
      · refine byteAt_pokes_of_ne [b] fun i hi h => hplace ?_
        obtain rfl : i = 0 := Nat.lt_one_iff.1 hi
        exact h

theorem exists_of_lastAt {p o : ℕ} {b : Byte} {cs : List (ℕ × Byte)} (h : lastAt m root p o cs = some b) :
    ∃ x, userPage m root x = some p := by
  induction cs with
  | nil => exact nomatch h
  | cons c cs ih =>
    rw [lastAt, or_eq_some_iff] at h
    rcases h with h | ⟨-, h⟩
    · exact ih h
    · exact ⟨c.1, (ite_none_right_eq_some.1 h).1.1⟩

/-- Every byte that stays where it is stored, and is not there already, goes to a page that the user
can write to; a call aimed at another page also has an unmapped address. -/
structure Spares (root : ℕ) (qs : List Request) (σ : Phys) : Prop where
  stored : ∀ p o b, lastAt σ.mem root p o (cells σ.mem root qs) = some b → b ≠ (σ.mem p).byteAt o →
    WritablePage σ.mem root p
  unmapped : (∃ q ∈ qs, q.must = true ∧ ∃ i < q.bytes.length, ReadOnly σ.mem root (uaddr q.addr i)) →
    ∃ q ∈ qs, q.must = true ∧ ¬q.Fits σ.mem root

theorem Spares.of_writable (h : ∀ x e, x < MAXVA → leaf σ.mem root (x / PGSIZE) = some e → e / 16 % 2 = 1 →
    e / 4 % 2 = 1) (qs : List Request) : Spares root qs σ := by
  refine ⟨fun p o b hlast _ => ?_, fun ⟨q, _, _, i, _, hx, e, he, hu, hw⟩ => ?_⟩
  · obtain ⟨x, hx⟩ := exists_of_lastAt hlast
    have hpage := hx
    rw [userPage] at hx
    split_ifs at hx with hlt
    obtain ⟨e, he, hite⟩ := bind_eq_some_iff.1 hx
    have hu := (ite_none_right_eq_some.1 hite).1.1
    exact ⟨x, ⟨hlt, e, he, hu, h x e hlt he hu⟩, hpage⟩
  · exact absurd (h _ e hx he hu) (by omega)

/-- Pages that the user cannot write to are left alone, and a call aimed at one of them fails. -/
structure Obeys (root : ℕ) (qs : List Request) (σ σ' : Phys) (ok : Bool) : Prop where
  changed : ∀ p o, (σ'.mem p).byteAt o ≠ (σ.mem p).byteAt o → WritablePage σ.mem root p
  fails : (∃ q ∈ qs, q.must = true ∧ ∃ i < q.bytes.length, ReadOnly σ.mem root (uaddr q.addr i)) → ok = false

/-- **When the copies of a call respect `PTE_W`.** -/
theorem obeys_iff_spares (h : Apart σ.mem root) (hrun : copyouts root qs σ = .ok (ok, σ')) :
    Obeys root qs σ σ' ok ↔ Spares root qs σ := by
  obtain ⟨rfl, rfl⟩ := Prod.mk.inj (Except.ok.inj ((copyouts_run h qs).symm.trans hrun))
  have hfail : decide (∀ q ∈ qs, q.must = true → q.Fits σ.mem root) = false ↔
      ∃ q ∈ qs, q.must = true ∧ ¬q.Fits σ.mem root := by
    rw [decide_eq_false_iff_not]
    push Not
    rfl
  constructor
  · intro hob
    refine ⟨fun p o b hlast hne => hob.changed p o ?_, fun haimed => hfail.1 (hob.fails haimed)⟩
    rwa [byteAt_pokeAll, hlast, getD_some]
  · intro hsp
    refine ⟨fun p o hne => ?_, fun haimed => hfail.2 (hsp.unmapped haimed)⟩
    rw [byteAt_pokeAll] at hne
    cases hlast : lastAt σ.mem root p o (cells σ.mem root qs) with
    | none =>
      rw [hlast] at hne
      exact absurd rfl hne
    | some b =>
      rw [hlast, getD_some] at hne
      exact hsp.stored p o b hlast hne

end Xv6

import Xv6.User.UmallocList

/-!
# User/UmallocCalls — calls of `malloc`

`malloc` goes once around the list, and once more if `morecore` has put a block in it.
-/

namespace Xv6.Umalloc

open Machinery Function List Option Heap

variable {base start nunits nbytes prevp : ℕ} {memory : List Bool} {h h' : Heap}
  {c c' live : List ℕ} {a b p q x z : ℕ}

/-- **A loop ends**: with enough fuel the result is `r`. -/
def Returns {α : Type} (f : ℕ → Option α) (r : α) : Prop := ∃ N, ∀ fuel, N ≤ fuel → f fuel = some r

theorem Returns.unique {α : Type} {f : ℕ → Option α} {r r' : α} (hr : Returns f r) (hr' : Returns f r') : r = r' := by
  obtain ⟨N, hN⟩ := hr
  obtain ⟨N', hN'⟩ := hr'
  exact some.inj ((hN (N + N') (Nat.le_add_right N N')).symm.trans (hN' (N + N') (Nat.le_add_left N' N)))

/-! More fuel changes nothing. -/

variable {fuel : ℕ}

theorem free_succ {bp : ℕ} {r : Option Heap} (hr : free fuel h bp = some r) : free (fuel + 1) h bp = some r := by
  rw [free, map_eq_some_iff] at hr ⊢
  obtain ⟨p, hp, hr⟩ := hr
  exact ⟨p, hunt_succ hp, hr⟩

theorem morecore_succ {memory : Bool} {r : Outcome × Heap} (hr : morecore fuel h nunits memory = some r) :
    morecore (fuel + 1) h nunits memory = some r := by
  rw [morecore] at hr ⊢
  cases hsbrk : sbrk h (toInt (coreUnits nunits * HEADER)) memory with
  | none =>
    rw [hsbrk] at hr
    exact hr
  | some hp =>
    rw [hsbrk] at hr
    simp only at hr ⊢
    split_ifs at hr ⊢ with hmap
    · rw [map_eq_some_iff] at hr ⊢
      obtain ⟨r', hfree, hr⟩ := hr
      exact ⟨r', free_succ hfree, hr⟩
    · exact hr

theorem mallocLoop_succ {r : Outcome × Heap} (hr : mallocLoop nunits fuel memory h prevp p = some r) :
    mallocLoop nunits (fuel + 1) memory h prevp p = some r := by
  induction fuel generalizing memory h prevp p with
  | zero => simp [mallocLoop] at hr
  | succ fuel ih =>
    rw [mallocLoop] at hr ⊢
    split_ifs at hr ⊢
    · exact hr
    · exact hr
    · rw [bind_eq_some_iff] at hr ⊢
      obtain ⟨⟨o, h'⟩, hcore, hr⟩ := hr
      refine ⟨(o, h'), morecore_succ hcore, ?_⟩
      cases o with
      | block p => exact ih hr
      | null => exact hr
      | killed => exact hr
    · exact ih hr

theorem malloc_returns {r : Outcome × Heap} (hr : malloc base fuel nbytes memory h = some r) :
    Returns (fun fuel => malloc base fuel nbytes memory h) r := by
  refine ⟨fuel, fun fuel' hle => ?_⟩
  induction fuel', hle using Nat.le_induction with
  | base => exact hr
  | succ fuel' _ ih =>
    simp only [malloc] at ih ⊢
    split_ifs at ih ⊢
    · exact mallocLoop_succ ih
    · exact ih

/-! ## The loop

If no block is large enough, the loop comes back to `freep` and calls `morecore`. -/

theorem mallocLoop_walk {s t : List ℕ} (memory : List Bool) (hl : Leads h.ptr p (s ++ x :: t) z)
    (hprev : h.ptr prevp = p)
    (hs : ∀ y ∈ s, h.mapped y = true ∧ h.size y < nunits ∧ y ≠ h.freep) :
    ∃ q ∈ prevp :: s, h.ptr q = x ∧ ∀ fuel,
      mallocLoop nunits (s.length + fuel) memory h prevp p = mallocLoop nunits fuel memory h q x := by
  induction s generalizing prevp p with
  | nil => exact ⟨prevp, mem_cons_self, hprev.trans hl.1, fun fuel => by rw [← hl.1, length_nil, zero_add]⟩
  | cons y s ih =>
    obtain ⟨rfl, hl⟩ := hl
    obtain ⟨⟨hmap, hsize, hne⟩, hs⟩ := forall_mem_cons.mp hs
    obtain ⟨q, hq, hqx, heq⟩ := ih hl rfl hs
    refine ⟨q, mem_cons_of_mem prevp hq, hqx, fun fuel => ?_⟩
    rw [length_cons, Nat.add_right_comm, mallocLoop, hmap, if_neg (by simp), if_neg (by omega), if_neg hne, heq]

theorem take_brk : (take h nunits prevp p).2.brk = h.brk := by
  simp only [take]
  split_ifs <;> rfl

namespace FreeList

variable (hf : FreeList base h c)

include hf

theorem around : ∃ w, Leads h.ptr (h.ptr h.freep) (w ++ h.freep :: w) h.freep ∧
    w.length + 1 = c.length ∧ h.freep ∉ w ∧
    ∀ y, y ∈ c ↔ y = h.freep ∨ y ∈ w := by
  obtain ⟨u, v, huv⟩ := append_of_mem hf.freep
  have hrot : Leads h.ptr (h.ptr h.freep) (v ++ u) h.freep := (circle_rotate u v).mp (huv ▸ hf.circle)
  have hnd := huv ▸ hf.nodup
  refine ⟨v ++ u, leads_append.mpr ⟨hrot, hrot⟩, ?_, by grind, fun y => ?_⟩
  · have hlen := congrArg List.length huv
    simp only [length_append, length_cons] at hlen ⊢
    omega
  · have hy := congrArg (y ∈ ·) huv
    simp only [mem_append, mem_cons, eq_iff_iff] at hy ⊢
    rw [hy]
    tauto

theorem loop_stops (memory : List Bool) (hbig : ∃ a ∈ c, nunits ≤ h.size a) :
    ∃ q ∈ c, ((∀ a ∈ c, h.mapped a = true) → nunits ≤ h.size (h.ptr q)) ∧ ∀ fuel, c.length ≤ fuel →
      mallocLoop nunits fuel memory h h.freep (h.ptr h.freep) =
        some (if h.mapped (h.ptr q) && decide (nunits ≤ h.size (h.ptr q)) then take h nunits q (h.ptr q)
          else (.killed, h)) := by
  obtain ⟨w, hwalk, hlen, hfresh, hmem⟩ := hf.around
  obtain ⟨a, ha, hsize⟩ := hbig
  have hsome : ((w ++ [h.freep]).find? fun y => !h.mapped y || decide (nunits ≤ h.size y)).isSome :=
    List.find?_isSome.mpr ⟨a, by simpa [or_comm] using (hmem a).mp ha, by simp [hsize]⟩
  obtain ⟨x, hx⟩ := isSome_iff_exists.mp hsome
  obtain ⟨hstop, s, t, hst, hs⟩ := List.find?_eq_some_iff_append.mp hx
  have hsw : s ⊆ w := by
    have hdrop := congrArg List.dropLast hst
    rw [dropLast_concat, dropLast_append_cons] at hdrop
    exact hdrop ▸ subset_append_left ..
  have hwalk' : Leads h.ptr (h.ptr h.freep) (s ++ x :: (t ++ w)) h.freep := by
    rw [show s ++ x :: (t ++ w) = (w ++ [h.freep]) ++ w by rw [hst]; simp]
    simpa using hwalk
  obtain ⟨q, hq, rfl, heq⟩ := mallocLoop_walk memory hwalk' rfl fun y hy => by
    have hsmall := hs y hy
    rw [Bool.not_or, Bool.not_not, Bool.and_eq_true, Bool.not_eq_true', decide_eq_false_iff_not, not_le] at hsmall
    exact ⟨hsmall.1, hsmall.2, ne_of_mem_of_not_mem (hsw hy) hfresh⟩
  have hqc : q ∈ c := by
    rcases mem_cons.mp hq with rfl | hq
    · exact hf.freep
    · exact (hmem q).mpr (.inr (hsw hq))
  refine ⟨q, hqc, fun hmap => ?_, fun fuel hfuel => ?_⟩
  · rw [hmap _ (hf.circle.next_mem hqc)] at hstop
    exact of_decide_eq_true hstop
  · have hle : s.length < fuel := by
      have := congrArg List.length hst
      simp only [length_append, length_cons, length_nil] at this
      omega
    obtain ⟨k, rfl⟩ := Nat.exists_eq_add_of_lt hle
    rw [add_assoc, heq, mallocLoop]
    cases hmapx : h.mapped (h.ptr q) with
    | false => rfl
    | true =>
      rw [hmapx] at hstop
      have hbig : nunits ≤ h.size (h.ptr q) := of_decide_eq_true hstop
      simp [hbig]

theorem loop_ends (memory : List Bool) (hbig : ∃ a ∈ c, nunits ≤ h.size a) :
    ∃ r, (∀ fuel, c.length ≤ fuel → mallocLoop nunits fuel memory h h.freep (h.ptr h.freep) = some r) ∧
      r.2.brk = h.brk := by
  obtain ⟨q, -, -, hloop⟩ := hf.loop_stops memory hbig
  refine ⟨_, hloop, ?_⟩
  split_ifs
  · exact take_brk
  · rfl

theorem loop_core (hmap : ∀ a ∈ c, h.mapped a = true) (hsmall : ∀ a ∈ c, h.size a < nunits) (fuel : ℕ) :
    mallocLoop nunits (c.length + fuel) memory h h.freep (h.ptr h.freep) =
      (morecore fuel h nunits (memory.headD false)).bind fun r =>
        andThen r fun p h => mallocLoop nunits fuel memory.tail h p (h.ptr p) := by
  obtain ⟨w, hwalk, hlen, hfresh, hmem⟩ := hf.around
  obtain ⟨q, -, -, heq⟩ := mallocLoop_walk memory hwalk rfl fun y hy =>
    ⟨hmap y ((hmem y).mpr (.inr hy)), hsmall y ((hmem y).mpr (.inr hy)), ne_of_mem_of_not_mem hy hfresh⟩
  rw [← hlen, add_assoc, heq, add_comm 1, mallocLoop, hmap _ hf.freep, if_neg (by simp),
    if_neg (by have := hsmall _ hf.freep; omega), if_pos rfl]

theorem ne_base (hpos : 0 < nunits) (hx : nunits ≤ h.size x) : x ≠ base := by
  rintro rfl
  have := hf.base_size
  omega

theorem split_of_ptr (hq : q ∈ c) (hne : h.ptr q ≠ base) : ∃ u v, c = u ++ q :: h.ptr q :: v := by
  obtain ⟨u, v, huv⟩ := append_of_mem hq
  have hptr := hf.ptr_eq huv
  cases v with
  | nil => exact absurd hptr hne
  | cons n v => exact ⟨u, v, by rw [hptr]; exact huv⟩

/-- **`malloc` finds a block.** -/
theorem loop_taken (memory : List Bool) (hpos : 0 < nunits) (hmap : ∀ a ∈ c, h.mapped a = true)
    (hlt : ∀ a, h.size a < 2 ^ 32)
    (htail : ∀ x ∈ c, nunits ≤ h.size x → h.mapped (h.tail nunits x) = true) (hbig : ∃ a ∈ c, nunits ≤ h.size a) :
    ∃ x ∈ c, nunits ≤ h.size x ∧ ∃ h' c', Taken base h c nunits x h' c' ∧ ∀ fuel, c.length ≤ fuel →
      mallocLoop nunits fuel memory h h.freep (h.ptr h.freep) = some (.block (h.tail nunits x), h') := by
  obtain ⟨q, hq, hsize, heq⟩ := hf.loop_stops memory hbig
  have hx := hf.circle.next_mem hq
  obtain ⟨u, v, hc⟩ := hf.split_of_ptr hq (hf.ne_base hpos (hsize hmap))
  obtain ⟨h', c', ht, htake⟩ := hf.take_taken hc hpos (hsize hmap) (hlt _) (htail _ hx (hsize hmap))
  refine ⟨h.ptr q, hx, hsize hmap, h', c', ht, fun fuel hfuel => ?_⟩
  rw [heq fuel hfuel, hmap _ hx, if_pos (by simp [hsize hmap]), htake]

end FreeList

/-! ## A list in the memory of the process -/

theorem Heap.mapped_of_le (hle : p + HEADER ≤ h.brk) : h.mapped p = true := by
  refine decide_eq_true ?_
  simp only [PGSIZE, HEADER] at hle ⊢
  omega

theorem Heap.mapped_congr (hbrk : h'.brk = h.brk) : h'.mapped p = h.mapped p := by
  rw [Heap.mapped, Heap.mapped, hbrk]

theorem Heap.mapped_mono (hle : p ≤ q) (hq : h.mapped q = true) : h.mapped p = true := by
  exact decide_eq_true ((Nat.add_le_add_right hle 12).trans (of_decide_eq_true hq))

/-- **The blocks of the list are in memory that `sbrk` has given**, from `start` on, after
`base`. -/
structure Resident (base start : ℕ) (h : Heap) (c : List ℕ) : Prop extends FreeList base h c where
  base_pos : 0 < base
  base_le_start : base + HEADER ≤ start
  start_le : start ≤ h.brk
  lt : ∀ a, h.size a < 2 ^ 32
  within : ∀ a ∈ c, a ≠ base → start ≤ a ∧ h.fin a ≤ h.brk

namespace Resident

variable (hr : Resident base start h c)

include hr

theorem add_le (ha : a ∈ c) : a + HEADER ≤ h.brk := by
  by_cases hab : a = base
  · rw [hab]
    exact hr.base_le_start.trans hr.start_le
  · have hpos := hr.pos a ha hab
    have hfin := (hr.within a ha hab).2
    simp only [Heap.fin, HEADER] at hfin ⊢
    omega

theorem fin_le (ha : a ∈ c) : h.fin a ≤ h.brk := by
  by_cases hab : a = base
  · have hle := hr.add_le ha
    rw [hab, Heap.fin, hr.base_size, mul_zero]
    omega
  · exact (hr.within a ha hab).2

theorem lt_brk (ha : a ∈ c) : a < h.brk := by
  have := hr.add_le ha
  simp only [HEADER] at this
  omega

theorem mapped (ha : a ∈ c) : h.mapped a = true := mapped_of_le (hr.add_le ha)

theorem tail_mapped (hpos : 0 < nunits) (hx : x ∈ c) (hsize : nunits ≤ h.size x) :
    h.mapped (h.tail nunits x) = true := by
  refine mapped_of_le (le_trans ?_ (hr.fin_le hx))
  simp only [Heap.tail, Heap.fin, HEADER]
  omega

end Resident

/-! ## `morecore` -/

/-- The heap once `sbrk` has set `brk`, with a block of `nu` units at its old end. -/
def Heap.grown (h : Heap) (brk nu : ℕ) : Heap :=
  { ({ h with brk := brk } : Heap).setSize h.brk nu with obtained := h.obtained + nu }

theorem morecore_eq {memory : Bool} {brk : ℕ}
    (hsbrk : sbrk h (toInt (coreUnits nunits * HEADER)) memory = some (h.brk, { h with brk := brk }))
    (hmap : ({ h with brk := brk } : Heap).mapped h.brk = true) :
    morecore fuel h nunits memory = (free fuel (h.grown brk (coreUnits nunits)) h.brk).map fun r =>
      r.elim (.killed, h.grown brk (coreUnits nunits)) fun h => (.block h.freep, h) := by
  rw [morecore, hsbrk]
  simp only [hmap, if_true]
  refine congrArg (Option.map · _) (funext fun r => ?_)
  cases r <;> rfl

theorem le_coreUnits (nunits : ℕ) : nunits ≤ coreUnits nunits := by
  rw [coreUnits]
  split <;> omega

section Core

variable {brk nu : ℕ} (hr : Resident base start h c)

theorem Heap.grown_size (hne : a ≠ h.brk) : (h.grown brk nu).size a = h.size a := update_of_ne hne ..

theorem Heap.grown_size_new (hnu : nu < 2 ^ 32) : (h.grown brk nu).size h.brk = nu :=
  (update_self ..).trans (Nat.mod_eq_of_lt hnu)

include hr

theorem Resident.grown_freeList : FreeList base (h.grown brk nu) c := by
  have hsize : ∀ a ∈ c, (h.grown brk nu).size a = h.size a := fun a ha => grown_size (hr.lt_brk ha).ne
  exact
    { head := hr.head
      circle := hr.circle
      freep := hr.freep
      sorted := hr.sorted.imp_of_mem fun {a b} ha _ hab => (fin_congr (hsize a ha)).trans_lt hab
      base_size := (hsize base hr.base_mem).trans hr.base_size
      pos := fun a ha hab => hsize a ha ▸ hr.pos a ha hab }

/-- `free` in `morecore`: the new block is above all others. -/
theorem Resident.grown_free (brk : ℕ) (hnu : 0 < nu) (hsum : ∀ a ∈ c, h.size a + nu < 2 ^ 32) :
    ∃ r, (∀ fuel, c.length ≤ fuel → free fuel (h.grown brk nu) h.brk = some r) ∧
      ((∀ a ∈ h.brk :: c, (h.grown brk nu).mapped a = true) → r ≠ none) ∧
      ∀ h', r = some h' → ∃ c', Freed (h.grown brk nu) c h.brk h' c' := by
  have hlt : nu < 2 ^ 32 := (Nat.le_add_left ..).trans_lt (hsum base hr.base_mem)
  have hsize : ∀ a ∈ c, (h.grown brk nu).size a = h.size a := fun a ha => grown_size (hr.lt_brk ha).ne
  refine hr.grown_freeList.free_returns (hr.lt_brk hr.base_mem) ?_ (fun a ha => .inl ?_) fun p hp n hn _ hnext => ?_
  · rw [grown_size_new hlt]
    exact hnu
  · rw [fin_congr (hsize a ha)]
    exact hr.fin_le ha
  · rcases hnext with rfl | hnext
    · rw [hsize p hp, hsize n hn, grown_size_new hlt, hr.base_size]
      exact hsum p hp
    · exact absurd (hr.lt_brk hn) hnext.not_gt

theorem Resident.grown_fin_le (hF : Freed (h.grown brk nu) c h.brk h' c') (hnu : nu < 2 ^ 32) :
    ∀ x ∈ c', h'.fin x ≤ h.brk + HEADER * nu := by
  refine hF.closed (fun _ hi => hi ≤ h.brk + HEADER * nu) (fun _ _ _ _ hz => hz) (forall_mem_cons.mpr ⟨?_, ?_⟩)
  · rw [Heap.fin, grown_size_new hnu]
  · intro a ha
    rw [fin_congr (grown_size (hr.lt_brk ha).ne)]
    exact (hr.fin_le ha).trans (Nat.le_add_right ..)

/-- **`malloc` finds a block in the memory that `morecore` has obtained.** -/
theorem Resident.loop_block (hpos : 0 < nunits) (hsmall : ∀ a ∈ c, h.size a < nunits)
    (hmax : coreUnits nunits < 2 ^ 31)
    (hsbrk : sbrk h (toInt (coreUnits nunits * HEADER)) (memory.headD false) = some (h.brk, { h with brk := brk }))
    (hmap : ({ h with brk := brk } : Heap).mapped (h.brk + HEADER * (coreUnits nunits - nunits)) = true) :
    ∃ h2 c2, Freed (h.grown brk (coreUnits nunits)) c h.brk h2 c2 ∧ FreeList base h2 c2 ∧ ∃ x ∈ c2, nunits ≤ h2.size x ∧
      ∃ h' c', Taken base h2 c2 nunits x h' c' ∧
        Returns (fun fuel => mallocLoop nunits fuel memory h h.freep (h.ptr h.freep)) (.block (h2.tail nunits x), h') := by
  have hcore := le_coreUnits nunits
  have hbelow : ∀ a, a ≤ h.brk → ({ h with brk := brk } : Heap).mapped a = true := fun a ha =>
    mapped_mono (ha.trans (Nat.le_add_right ..)) hmap
  obtain ⟨r, hfree, hne, hfreed⟩ := hr.grown_free brk (hpos.trans_le hcore) fun a ha => by
    have := hsmall a ha
    omega
  obtain ⟨h2, rfl⟩ := ne_none_iff_exists'.mp <| hne <| forall_mem_cons.mpr
    ⟨hbelow _ le_rfl, fun a ha => hbelow a (hr.lt_brk ha).le⟩
  obtain ⟨c2, hF⟩ := hfreed h2 rfl
  have hnew : (h.grown brk (coreUnits nunits)).size h.brk = coreUnits nunits := grown_size_new (by omega)
  have hf2 := hF.freeList hr.grown_freeList (hr.lt_brk hr.base_mem)
    (by rw [hnew]; exact hpos.trans_le hcore)
  have hbelow2 : ∀ a, a ≤ h.brk + HEADER * (coreUnits nunits - nunits) → h2.mapped a = true := fun a ha => by
    rw [mapped_congr hF.brk]
    exact mapped_mono ha hmap
  have hmap2 : ∀ a ∈ c2, h2.mapped a = true := fun a ha => by
    refine hbelow2 a (le_trans ?_ (Nat.le_add_right ..))
    rcases hF.keeps a ha with ⟨hac, -⟩ | ⟨hle, -⟩
    · exact (hr.lt_brk hac).le
    · exact hle
  have htail : ∀ x ∈ c2, nunits ≤ h2.size x → h2.mapped (h2.tail nunits x) = true := fun x hx hsize => by
    have hfin := hr.grown_fin_le hF (by omega) x hx
    refine hbelow2 _ ?_
    simp only [Heap.tail, Heap.fin, HEADER] at hfin ⊢
    omega
  obtain ⟨a, ha, hsize⟩ := hF.holds
  obtain ⟨x, hx, hxsize, h', c', hT, hloop⟩ := hf2.loop_taken memory.tail hpos hmap2
    (hF.lt (setSize_lt hr.lt)) htail ⟨a, ha, hcore.trans (hnew.symm.le.trans hsize)⟩
  refine ⟨h2, c2, hF, hf2, x, hx, hxsize, h', c', hT, c.length + (c.length + c2.length), fun fuel hfuel => ?_⟩
  obtain ⟨k, rfl⟩ := Nat.exists_eq_add_of_le hfuel
  beta_reduce
  rw [add_assoc, hr.loop_core (fun a ha => hr.mapped ha) hsmall, morecore_eq hsbrk (hbelow _ le_rfl),
    hfree _ (by omega)]
  exact hloop _ (by omega)

/-- If `morecore` asks for no more than the request, the block is what it has obtained. -/
theorem Resident.loop_top (hcore : coreUnits nunits = nunits) (hpos : 0 < nunits)
    (hsmall : ∀ a ∈ c, h.size a < nunits)
    (hmax : nunits < 2 ^ 31)
    (hsbrk : sbrk h (toInt (coreUnits nunits * HEADER)) (memory.headD false) = some (h.brk, { h with brk := brk }))
    (hmap : ({ h with brk := brk } : Heap).mapped h.brk = true) :
    ∃ h', h'.brk = brk ∧
      Returns (fun fuel => mallocLoop nunits fuel memory h h.freep (h.ptr h.freep)) (.block h.brk, h') := by
  obtain ⟨h2, c2, hF, -, x, hx, hsize, h', c', hT, hret⟩ := hr.loop_block hpos hsmall (hcore.trans_lt hmax) hsbrk
    (by rw [hcore, Nat.sub_self, mul_zero, add_zero]; exact hmap)
  have hle := hr.grown_fin_le hF (by omega) x hx
  have htail : h2.tail nunits x = h.brk := by
    rcases hF.keeps x hx with ⟨hxc, hsame⟩ | ⟨-, hge⟩
    · -- the old blocks are too small
      rw [grown_size (hr.lt_brk hxc).ne] at hsame
      have := hsmall x hxc
      omega
    · rw [Heap.fin, grown_size_new (by omega)] at hge
      simp only [Heap.tail, Heap.fin, HEADER] at hle hge ⊢
      omega
  exact ⟨h', hT.brk.trans hF.brk, htail ▸ hret⟩

theorem Resident.loop_null (hsmall : ∀ a ∈ c, h.size a < nunits)
    (hsbrk : sbrk h (toInt (coreUnits nunits * HEADER)) (memory.headD false) = none) :
    Returns (fun fuel => mallocLoop nunits fuel memory h h.freep (h.ptr h.freep)) (.null, h) := by
  refine ⟨c.length, fun fuel hfuel => ?_⟩
  obtain ⟨k, rfl⟩ := Nat.exists_eq_add_of_le hfuel
  beta_reduce
  rw [hr.loop_core (fun a ha => hr.mapped ha) hsmall, morecore, hsbrk]
  rfl

theorem Resident.loop_killed (hsmall : ∀ a ∈ c, h.size a < nunits)
    (hsbrk : sbrk h (toInt (coreUnits nunits * HEADER)) (memory.headD false) = some (h.brk, { h with brk := brk }))
    (hmap : ({ h with brk := brk } : Heap).mapped h.brk = false) :
    Returns (fun fuel => mallocLoop nunits fuel memory h h.freep (h.ptr h.freep)) (.killed, { h with brk := brk }) := by
  refine ⟨c.length, fun fuel hfuel => ?_⟩
  obtain ⟨k, rfl⟩ := Nat.exists_eq_add_of_le hfuel
  beta_reduce
  rw [hr.loop_core (fun a ha => hr.mapped ha) hsmall, morecore, hsbrk]
  simp only [hmap]
  rfl

theorem Resident.loop_brk (hpos : 0 < nunits) (hsmall : ∀ a ∈ c, h.size a < nunits) (hmax : coreUnits nunits < 2 ^ 31)
    (hsbrk : sbrk h (toInt (coreUnits nunits * HEADER)) (memory.headD false) = some (h.brk, { h with brk := brk })) :
    ∃ r, Returns (fun fuel => mallocLoop nunits fuel memory h h.freep (h.ptr h.freep)) r ∧ r.2.brk = brk := by
  by_cases hmap : ({ h with brk := brk } : Heap).mapped h.brk = true
  · have hcore := le_coreUnits nunits
    obtain ⟨r, hfree, -, hfreed⟩ := hr.grown_free brk (hpos.trans_le hcore) fun a ha => by
      have := hsmall a ha
      omega
    have hnew : (h.grown brk (coreUnits nunits)).size h.brk = coreUnits nunits := grown_size_new (by omega)
    have hstep : ∀ k, mallocLoop nunits (c.length + (c.length + k)) memory h h.freep (h.ptr h.freep) =
        andThen (r.elim (.killed, h.grown brk (coreUnits nunits)) fun h => (.block h.freep, h)) fun p h =>
          mallocLoop nunits (c.length + k) memory.tail h p (h.ptr p) := fun k => by
      rw [hr.loop_core (fun a ha => hr.mapped ha) hsmall, morecore_eq hsbrk hmap, hfree _ (by omega)]
      rfl
    cases r with
    | none =>
      refine ⟨(.killed, h.grown brk (coreUnits nunits)), ⟨c.length + c.length, fun fuel hfuel => ?_⟩, rfl⟩
      obtain ⟨k, rfl⟩ := Nat.exists_eq_add_of_le hfuel
      beta_reduce
      rw [add_assoc, hstep]
      rfl
    | some h2 =>
      obtain ⟨c2, hF⟩ := hfreed h2 rfl
      have hf2 := hF.freeList hr.grown_freeList (hr.lt_brk hr.base_mem) (by rw [hnew]; exact hpos.trans_le hcore)
      obtain ⟨a, ha, hsize⟩ := hF.holds
      obtain ⟨r, hloop, hbrk⟩ := hf2.loop_ends memory.tail ⟨a, ha, hcore.trans (hnew.symm.le.trans hsize)⟩
      refine ⟨r, ⟨c.length + (c.length + c2.length), fun fuel hfuel => ?_⟩, hbrk.trans hF.brk⟩
      obtain ⟨k, rfl⟩ := Nat.exists_eq_add_of_le hfuel
      beta_reduce
      rw [add_assoc, add_assoc, hstep]
      exact hloop _ (by omega)
  · exact ⟨_, hr.loop_killed hsmall hsbrk (Bool.eq_false_of_not_eq_true hmap), rfl⟩

end Core

/-! ## The whole call -/

/-- **A heap between two calls.** -/
structure Usable (base start : ℕ) (h : Heap) : Prop where
  base_pos : 0 < base
  base_le_start : base + HEADER ≤ start
  start_le : start ≤ h.brk
  lt : ∀ a, h.size a < 2 ^ 32
  list : h.freep = 0 ∨ ∃ c, FreeList base h c ∧ ∀ a ∈ c, a ≠ base → start ≤ a ∧ h.fin a ≤ h.brk

/-- The list has a block of `k` units. -/
def Heap.Has (h : Heap) (k : ℕ) : Prop := h.freep ≠ 0 ∧ ∃ n, k ≤ h.size (h.ptr^[n] h.freep)

theorem FreeList.has_iff {k : ℕ} (hf : FreeList base h c) (hfreep : h.freep ≠ 0) :
    h.Has k ↔ ∃ a ∈ c, k ≤ h.size a := by
  constructor
  · rintro ⟨-, n, hle⟩
    exact ⟨_, (hf.circle.mem_iff hf.freep).mpr ⟨n, rfl⟩, hle⟩
  · rintro ⟨a, ha, hle⟩
    obtain ⟨n, rfl⟩ := (hf.circle.mem_iff hf.freep).mp ha
    exact ⟨hfreep, n, hle⟩

theorem setup_eq (hfreep : h.freep ≠ 0) : setup base h = h := if_neg hfreep

theorem setup_brk : (setup base h).brk = h.brk := by
  rw [setup]
  split <;> rfl

/-- The list of a heap that is not set up yet. -/
theorem Usable.setup_new (hu : Usable base start h) (hfreep : h.freep = 0) :
    Resident base start (setup base h) [base] := by
  have hsize : (setup base h).size base = 0 := by
    rw [setup, if_pos hfreep]
    exact update_self ..
  have hptr : (setup base h).ptr base = base := by
    rw [setup, if_pos hfreep]
    exact update_self ..
  exact
    { head := rfl
      circle := hptr
      freep := by
        rw [setup, if_pos hfreep]
        exact mem_singleton_self base
      sorted := pairwise_singleton ..
      base_size := hsize
      pos := fun a ha hab => absurd (mem_singleton.mp ha) hab
      base_pos := hu.base_pos
      base_le_start := hu.base_le_start
      start_le := hu.start_le.trans_eq setup_brk.symm
      lt := by
        rw [setup, if_pos hfreep]
        exact setSize_lt hu.lt
      within := fun a ha hab => absurd (mem_singleton.mp ha) hab }

theorem Usable.setup_list (hu : Usable base start h) :
    ∃ c, Resident base start (setup base h) c ∧ ∀ k, 0 < k → (h.Has k ↔ ∃ a ∈ c, k ≤ (setup base h).size a) := by
  by_cases hfreep : h.freep = 0
  · refine ⟨[base], hu.setup_new hfreep, fun k hk => ⟨fun hhas => absurd hfreep hhas.1, ?_⟩⟩
    rintro ⟨a, ha, hle⟩
    rw [mem_singleton.mp ha, (hu.setup_new hfreep).base_size] at hle
    omega
  · obtain ⟨c, hf, hin⟩ := hu.list.resolve_left hfreep
    rw [setup_eq hfreep]
    exact ⟨c, { hf with
      base_pos := hu.base_pos
      base_le_start := hu.base_le_start
      start_le := hu.start_le
      lt := hu.lt
      within := hin }, fun k _ => hf.has_iff hfreep⟩

theorem Resident.malloc_eq (hr : Resident base start (setup base h) c) :
    malloc base fuel nbytes memory h =
      mallocLoop (units nbytes) fuel memory (setup base h) (setup base h).freep ((setup base h).ptr (setup base h).freep) :=
  if_pos (hr.mapped hr.freep)

/-! The argument of `sbrk`, for requests that are larger and larger. -/

theorem units_pos : 0 < units nbytes := Nat.succ_pos _

theorem units_le (hn : nbytes < 2 ^ 32) : units nbytes ≤ 2 ^ 28 + 1 := by
  simp only [units, HEADER]
  omega

theorem toInt_eq (n : ℕ) :
    toInt n = if n % 2 ^ 32 < 2 ^ 31 then ((n % 2 ^ 32 : ℕ) : ℤ) else ((n % 2 ^ 32 : ℕ) : ℤ) - 2 ^ 32 := by
  rw [toInt, BitVec.toInt_eq_toNat_cond, BitVec.toNat_ofNat]
  split_ifs <;> omega

theorem toInt_core_small (hk : nunits < 2 ^ 27) :
    toInt (coreUnits nunits * HEADER) = (HEADER * coreUnits nunits : ℕ) := by
  rw [toInt_eq, coreUnits, HEADER]
  split_ifs <;> omega

theorem toInt_core_large (hk : 2 ^ 27 ≤ nunits) (hk' : nunits ≤ 2 ^ 28) :
    toInt (coreUnits nunits * HEADER) = (HEADER * nunits : ℕ) - (2 ^ 32 : ℤ) := by
  rw [toInt_eq, coreUnits, HEADER]
  split_ifs <;> omega

theorem toInt_core_top : toInt (coreUnits (2 ^ 28 + 1) * HEADER) = 16 := by decide +kernel

theorem sbrk_grow {n : ℤ} (hn : 0 < n) : sbrk h n true = some (h.brk, { h with brk := h.brk + n.toNat }) := by
  rw [sbrk, if_pos hn]
  rfl

theorem sbrk_fail {n : ℤ} (hn : 0 < n) : sbrk h n false = none := by
  rw [sbrk, if_pos hn]
  rfl

theorem sbrk_shrink (h : Heap) {n : ℤ} (memory : Bool) (hn : n ≤ 0) :
    sbrk h n memory = some (h.brk, { h with brk := if 0 ≤ h.brk + n then (h.brk + n).toNat else h.brk }) := by
  rw [sbrk, if_neg hn.not_gt]
  split_ifs <;> rfl

/-- **The bytes that `malloc` returns are in memory that `sbrk` has given and not taken away.** -/
def Backed (start nbytes : ℕ) (h : Heap) : Outcome → Prop
  | .block p => ∀ a, p + HEADER ≤ a → a < p + HEADER + nbytes → start ≤ a ∧ a < h.brk
  | _ => True

theorem le_units : nbytes + HEADER ≤ HEADER * units nbytes := by
  simp only [units, HEADER]
  omega

theorem backed_tail (hx : units nbytes ≤ h.size x) (hstart : start ≤ x) (hfin : h.fin x ≤ h'.brk) :
    Backed start nbytes h' (.block (h.tail (units nbytes) x)) := by
  intro a hle hlt
  have hunits : nbytes + HEADER ≤ HEADER * units nbytes := le_units
  simp only [Heap.tail, Heap.fin, HEADER] at *
  omega

section Outcomes

variable (hr : Resident base start h c)

include hr

theorem Resident.loop_grow (hpos : 0 < nunits) (hsmall : ∀ a ∈ c, h.size a < nunits) (hk : nunits < 2 ^ 27)
    (hmem : memory.headD false = true) :
    ∃ h2 c2, Freed (h.grown (h.brk + HEADER * coreUnits nunits) (coreUnits nunits)) c h.brk h2 c2 ∧
      FreeList base h2 c2 ∧ ∃ x ∈ c2, nunits ≤ h2.size x ∧ ∃ h' c', Taken base h2 c2 nunits x h' c' ∧
        Returns (fun fuel => mallocLoop nunits fuel memory h h.freep (h.ptr h.freep)) (.block (h2.tail nunits x), h') := by
  have hint := toInt_core_small hk
  have hcore := le_coreUnits nunits
  have hmax : coreUnits nunits < 2 ^ 27 := by
    rw [coreUnits]
    split <;> omega
  have hsbrk : sbrk h (toInt (coreUnits nunits * HEADER)) (memory.headD false) =
      some (h.brk, { h with brk := h.brk + HEADER * coreUnits nunits }) := by
    rw [hmem, sbrk_grow (by rw [hint, HEADER]; omega), hint, Int.toNat_natCast]
  exact hr.loop_block hpos hsmall (by omega) hsbrk (mapped_of_le (by simp only [HEADER]; omega))

theorem Resident.loop_refused (hsmall : ∀ a ∈ c, h.size a < nunits) (hk : nunits < 2 ^ 27 ∨ nunits = 2 ^ 28 + 1)
    (hmem : memory.headD false = false) :
    Returns (fun fuel => mallocLoop nunits fuel memory h h.freep (h.ptr h.freep)) (.null, h) := by
  refine hr.loop_null hsmall ?_
  rw [hmem]
  rcases hk with hk | rfl
  · rw [toInt_core_small hk]
    refine sbrk_fail ?_
    rw [coreUnits, HEADER]
    split <;> omega
  · rw [toInt_core_top]
    exact sbrk_fail (by decide)

theorem Resident.loop_has (hbig : ∃ a ∈ c, units nbytes ≤ h.size a) :
    ∃ r h', Returns (fun fuel => mallocLoop (units nbytes) fuel memory h h.freep (h.ptr h.freep)) (r, h') ∧
      Backed start nbytes h' r ∧ h.brk ≤ h'.brk := by
  obtain ⟨x, hx, hsize, h', c', hT, hloop⟩ := hr.loop_taken memory units_pos (fun a ha => hr.mapped ha) hr.lt
    (fun x hx hsize => hr.tail_mapped units_pos hx hsize) hbig
  have hwithin := hr.within x hx (hr.ne_base units_pos hsize)
  exact ⟨_, h', ⟨c.length, hloop⟩, backed_tail hsize hwithin.1 (hwithin.2.trans_eq hT.brk.symm), hT.brk.symm.le⟩

theorem Resident.loop_small (hsmall : ∀ a ∈ c, h.size a < units nbytes) (hk : units nbytes < 2 ^ 27) :
    ∃ r h', Returns (fun fuel => mallocLoop (units nbytes) fuel memory h h.freep (h.ptr h.freep)) (r, h') ∧
      Backed start nbytes h' r ∧ h.brk ≤ h'.brk := by
  cases hmem : memory.headD false with
  | false => exact ⟨_, h, hr.loop_refused hsmall (.inl hk) hmem, trivial, le_rfl⟩
  | true =>
    obtain ⟨h2, c2, hF, hf2, x, hx, hsize, h', c', hT, hret⟩ := hr.loop_grow units_pos hsmall hk hmem
    have hbrk : h'.brk = h.brk + HEADER * coreUnits (units nbytes) := hT.brk.trans hF.brk
    have hfin := hr.grown_fin_le hF (by rw [coreUnits]; split <;> omega) x hx
    have hstart : x = base ∨ start ≤ x := hF.closed (fun lo _ => lo = base ∨ start ≤ lo) (fun _ _ _ hxy _ => hxy)
      (forall_mem_cons.mpr ⟨.inr hr.start_le, fun a ha =>
        or_iff_not_imp_left.mpr fun hab => (hr.within a ha hab).1⟩) x hx
    exact ⟨_, h', hret, backed_tail hsize (hstart.resolve_left (hf2.ne_base units_pos hsize)) (hfin.trans_eq hbrk.symm),
      by omega⟩

/-- A request of 2 GiB and more gets memory that is not there. -/
theorem Resident.loop_unbacked {brk : ℕ} (hsmall : ∀ a ∈ c, h.size a < units nbytes) (hk : 2 ^ 27 ≤ units nbytes)
    (hk' : units nbytes ≤ 2 ^ 28 + 1)
    (hsbrk : sbrk h (toInt (coreUnits (units nbytes) * HEADER)) (memory.headD false) =
      some (h.brk, { h with brk := brk }))
    (hmap : ({ h with brk := brk } : Heap).mapped h.brk = true) (hbrk : brk ≤ h.brk + HEADER) :
    ∃ r h', Returns (fun fuel => mallocLoop (units nbytes) fuel memory h h.freep (h.ptr h.freep)) (r, h') ∧
      ¬Backed start nbytes h' r := by
  have hcore : coreUnits (units nbytes) = units nbytes := by
    rw [coreUnits, if_neg (by omega)]
  obtain ⟨h', hbrk', hret⟩ := hr.loop_top hcore units_pos hsmall (by omega) hsbrk hmap
  refine ⟨_, h', hret, fun hback => ?_⟩
  have hbytes : 0 < nbytes := by
    simp only [units, HEADER] at hk
    omega
  have := (hback (h.brk + HEADER) le_rfl (by omega)).2
  omega

/-- The requests of 2 GiB and more that do no harm: `sbrk` fails, or the process is killed. -/
def Heap.Refuses (h : Heap) (nunits : ℕ) (memory : Bool) : Prop :=
  nunits = 2 ^ 28 + 1 ∧ memory = false ∨
    (nunits = 2 ^ 28 ∨ nunits < 2 ^ 28 ∧ h.brk + HEADER * nunits < 2 ^ 32) ∧ h.mapped h.brk = false

theorem Resident.loop_large (hsmall : ∀ a ∈ c, h.size a < units nbytes) (hk : 2 ^ 27 ≤ units nbytes)
    (hk' : units nbytes ≤ 2 ^ 28 + 1) :
    ∃ r h', Returns (fun fuel => mallocLoop (units nbytes) fuel memory h h.freep (h.ptr h.freep)) (r, h') ∧
      (Backed start nbytes h' r ∧ h.brk ≤ h'.brk ↔ h.Refuses (units nbytes) (memory.headD false)) := by
  rcases hk'.eq_or_lt with htop | hlt
  · -- `sbrk(16)`
    have hint : toInt (coreUnits (units nbytes) * HEADER) = 16 := htop ▸ toInt_core_top
    cases hmem : memory.headD false with
    | false =>
      exact ⟨_, h, hr.loop_refused hsmall (.inr htop) hmem, iff_of_true ⟨trivial, le_rfl⟩ (.inl ⟨htop, rfl⟩)⟩
    | true =>
      obtain ⟨r, h', hret, hback⟩ := hr.loop_unbacked hsmall hk hk' (by rw [hmem, hint, sbrk_grow (by decide)]; rfl)
        (mapped_of_le le_rfl) le_rfl
      refine ⟨r, h', hret, iff_of_false (fun hs => hback hs.1) ?_⟩
      rintro (⟨-, hfalse⟩ | ⟨hk, -⟩)
      · exact Bool.noConfusion hfalse
      · omega
  · have hint := toInt_core_large hk (by omega)
    have hsbrk := sbrk_shrink h (memory.headD false) (hint.trans_le (by simp only [HEADER]; omega))
    by_cases hshrink : units nbytes < 2 ^ 28 ∧ 2 ^ 32 ≤ h.brk + HEADER * units nbytes
    · -- the process is smaller after the call
      obtain ⟨r, hret, hbrk⟩ := hr.loop_brk units_pos hsmall (by rw [coreUnits]; split <;> omega) hsbrk
      refine ⟨r.1, r.2, hret, iff_of_false (fun hs => ?_) ?_⟩
      · have hle := hs.2
        rw [hbrk, hint, if_pos (by simp only [HEADER] at *; omega)] at hle
        simp only [HEADER] at *
        omega
      · rintro (⟨htop, -⟩ | ⟨hk | hk, -⟩) <;> omega
    · -- the process keeps its size, and the new block is at its end
      have hbrk : (if 0 ≤ (h.brk : ℤ) + toInt (coreUnits (units nbytes) * HEADER) then
          ((h.brk : ℤ) + toInt (coreUnits (units nbytes) * HEADER)).toNat else h.brk) = h.brk := by
        refine ite_eq_right_iff.mpr fun hle => ?_
        rw [hint] at hle ⊢
        simp only [HEADER] at hshrink hle ⊢
        omega
      rw [hbrk] at hsbrk
      have hkeep : units nbytes = 2 ^ 28 ∨ units nbytes < 2 ^ 28 ∧ h.brk + HEADER * units nbytes < 2 ^ 32 := by omega
      cases hmap : h.mapped h.brk with
      | false => exact ⟨_, _, hr.loop_killed hsmall hsbrk hmap, iff_of_true ⟨trivial, le_rfl⟩ (.inr ⟨hkeep, hmap⟩)⟩
      | true =>
        obtain ⟨r, h', hret, hback⟩ := hr.loop_unbacked hsmall hk hk' hsbrk hmap (Nat.le_add_right ..)
        refine ⟨r, h', hret, iff_of_false (fun hs => hback hs.1) ?_⟩
        rintro (⟨htop, -⟩ | ⟨-, hfalse⟩)
        · omega
        · exact Bool.noConfusion (hmap.symm.trans hfalse)

end Outcomes

/-- **A call of `malloc` returns bytes of the process and does not shrink it** exactly if the list has a block for it,
or it asks for less than 2 GiB, or `morecore` gets nothing. -/
theorem malloc_backed (hu : Usable base start h) (hn : nbytes < 2 ^ 32) :
    ∃ r h', Returns (fun fuel => malloc base fuel nbytes memory h) (r, h') ∧
      (Backed start nbytes h' r ∧ h.brk ≤ h'.brk ↔
        h.Has (units nbytes) ∨ units nbytes < 2 ^ 27 ∨ h.Refuses (units nbytes) (memory.headD false)) := by
  obtain ⟨c, hr, hhas⟩ := hu.setup_list
  have hbrk : (setup base h).brk = h.brk := setup_brk
  have hrefuses : (setup base h).Refuses (units nbytes) (memory.headD false) ↔
      h.Refuses (units nbytes) (memory.headD false) := by
    rw [Heap.Refuses, Heap.Refuses, Heap.mapped_congr hbrk, hbrk]
  simp only [hr.malloc_eq]
  rw [hhas _ units_pos, ← hrefuses, ← hbrk]
  by_cases hbig : ∃ a ∈ c, units nbytes ≤ (setup base h).size a
  · obtain ⟨r, h', hret, hsound⟩ := hr.loop_has hbig
    exact ⟨r, h', hret, iff_of_true hsound (.inl hbig)⟩
  have hsmall : ∀ a ∈ c, (setup base h).size a < units nbytes := fun a ha =>
    Nat.lt_of_not_le fun hle => hbig ⟨a, ha, hle⟩
  by_cases hk : units nbytes < 2 ^ 27
  · obtain ⟨r, h', hret, hsound⟩ := hr.loop_small hsmall hk
    exact ⟨r, h', hret, iff_of_true hsound (.inr (.inl hk))⟩
  · obtain ⟨r, h', hret, hsound⟩ := hr.loop_large hsmall (not_lt.mp hk) (units_le hn)
    exact ⟨r, h', hret, hsound.trans ⟨fun hR => .inr (.inr hR), fun hR => (hR.resolve_left hbig).resolve_left hk⟩⟩

def Heap.new (start : ℕ) : Heap := { ptr := fun _ => 0, size := fun _ => 0, freep := 0, brk := start, obtained := 0 }

theorem Usable.new (hbase : 0 < base) (hstart : base + HEADER ≤ start) : Usable base start (Heap.new start) where
  base_pos := hbase
  base_le_start := hstart
  start_le := le_rfl
  lt := fun _ => Nat.two_pow_pos 32
  list := .inl rfl

/-- The first `malloc(100)`. -/
theorem malloc_backed_new :
    ∃ h', Returns (fun fuel => malloc 0x2000 fuel 100 [true] (Heap.new 0x4000)) (.block 0x13f80, h') ∧
      Backed 0x4000 100 h' (.block 0x13f80) ∧ 0x4000 ≤ h'.brk := by
  have hrun : (malloc 0x2000 3 100 [true] (Heap.new 0x4000)).map Prod.fst = some (.block 0x13f80) := by
    decide +kernel
  obtain ⟨⟨r, h'⟩, heq, rfl⟩ := Option.map_eq_some_iff.mp hrun
  have hret := malloc_returns heq
  obtain ⟨r, h₁, hret', hiff⟩ := malloc_backed
    (.new (show 0 < 0x2000 by decide) (show _ ≤ 0x4000 by decide)) (show 100 < 2 ^ 32 by decide)
  obtain ⟨rfl, rfl⟩ := Prod.mk.inj (hret.unique hret')
  exact ⟨h', hret, hiff.2 (.inr (.inl (by decide)))⟩

/-- `malloc(0xffffffff)` asks `sbrk` for 16 bytes. -/
theorem malloc_unbacked :
    ∃ h', Returns (fun fuel => malloc 0x2000 fuel 0xffffffff [true] (Heap.new 0x4000)) (.block 0x4000, h') ∧
      h'.brk = 0x4010 ∧ ¬Backed 0x4000 0xffffffff h' (.block 0x4000) := by
  have hrun : (malloc 0x2000 3 0xffffffff [true] (Heap.new 0x4000)).map (fun r => (r.1, r.2.brk)) =
      some (.block 0x4000, 0x4010) := by decide +kernel
  obtain ⟨⟨r, h'⟩, heq, hr⟩ := Option.map_eq_some_iff.mp hrun
  obtain ⟨rfl, hbrk⟩ : r = .block 0x4000 ∧ h'.brk = 0x4010 := Prod.mk.inj hr
  refine ⟨h', malloc_returns heq, hbrk, fun hback => ?_⟩
  have := (hback 0x4010 (by decide) (by decide)).2
  omega

end Xv6.Umalloc

import Xv6.Fs.Content

/-!
# Fs/Free — giving the blocks of a file back

`itrunc` clears the marks of the direct blocks, of the entries of the indirect block, and of the
indirect block. In between the free map is not exact; `Frees` says which marks are gone.
-/

namespace Xv6

open Machinery Function Ensures List Superblock Nat

/-- The marks of the blocks in `B` are cleared, and nothing else is changed. -/
structure Frees (sb : Superblock) (B : Set ℕ) (d d' : Disk) : Prop where
  inodes : ∀ j < sb.ninodes, sb.inodeAt d' j = sb.inodeAt d j
  data : ∀ b, sb.nmeta ≤ b → d' b = d b
  bit : ∀ b < sb.size, sb.bitAt d' b = true ↔ sb.bitAt d b = true ∧ b ∉ B

namespace Frees

variable {sb : Superblock} {B C : Set ℕ} {d d' d'' : Disk} {b : ℕ}

theorem refl (sb : Superblock) (d : Disk) : Frees sb ∅ d d :=
  ⟨fun _ _ => rfl, fun _ _ => rfl, fun _ _ => by simp⟩

theorem trans (h : Frees sb B d d') (h' : Frees sb C d' d'') : Frees sb (B ∪ C) d d'' where
  inodes j hj := (h'.inodes j hj).trans (h.inodes j hj)
  data b hb := (h'.data b hb).trans (h.data b hb)
  bit b hb := by rw [h'.bit b hb, h.bit b hb, Set.mem_union, not_or, and_assoc]

theorem congr (h : Frees sb B d d') (hB : B = C) : Frees sb C d d' := hB ▸ h

theorem markFree (hsb : sb.Ok) (hb : b < sb.size) : Frees sb {b} d (sb.markFree d b) where
  inodes j hj := inodeAt_putByte hsb hj _
  data c hc := putByte_of_le hsb hb hc _
  bit c _ := by
    rw [bitAt_markFree, Set.mem_singleton_iff]
    rcases eq_or_ne c b with rfl | hne
    · simp
    · simp [hne]

end Frees

namespace Fs

variable {sb : Superblock} {s t : Fs} {i j : ℕ}

theorem bfree_spec (hsb : sb.Ok) {b : ℕ} (hb : b < sb.size) (hbit : sb.bitAt s.disk b = true) :
    Ensures (bfree sb b) s (fun _ t => t.itable = s.itable ∧ Frees sb {b} s.disk t.disk) := by
  unfold bfree
  rw [get_bind_iff, if_pos hbit, set_iff]
  exact ⟨rfl, .markFree hsb hb⟩

/-- The blocks that `f` gives for `js`. -/
def given (f : ℕ → ℕ) (js : List ℕ) : Set ℕ := {b | ∃ j ∈ js, f j = b ∧ b ≠ 0}

theorem given_cons (f : ℕ → ℕ) (j : ℕ) (js : List ℕ) :
    given f (j :: js) = if f j = 0 then given f js else {f j} ∪ given f js := by
  ext b
  split_ifs with hj <;>
    simp only [given, Set.mem_union, Set.mem_singleton_iff, Set.mem_ofPred_eq, mem_cons, exists_eq_or_imp]
  · exact or_iff_right fun h => h.2 (h.1 ▸ hj)
  · exact or_congr_left ⟨fun h => h.1.symm, fun h => ⟨h.symm, h ▸ hj⟩⟩

theorem given_congr {f g : ℕ → ℕ} {js : List ℕ} (h : ∀ l ∈ js, g l = f l) : given g js = given f js :=
  Set.ext fun _ => exists_congr fun l => and_congr_right fun hl => by rw [h l hl]

/-- The blocks that `f` gives for `js` are marked, and all different. -/
structure Marked (sb : Superblock) (d : Disk) (f : ℕ → ℕ) (js : List ℕ) : Prop where
  nodup : js.Nodup
  bit : ∀ j ∈ js, f j ≠ 0 → f j < sb.size ∧ sb.bitAt d (f j) = true
  inj : ∀ j ∈ js, ∀ l ∈ js, f j ≠ 0 → f j = f l → j = l

namespace Marked

variable {d d' : Disk} {f g : ℕ → ℕ} {js : List ℕ}

theorem tail (h : Marked sb d f (j :: js)) : Marked sb d f js where
  nodup := (nodup_cons.1 h.nodup).2
  bit l hl := h.bit l (mem_cons_of_mem j hl)
  inj l hl m hm := h.inj l (mem_cons_of_mem j hl) m (mem_cons_of_mem j hm)

theorem free (h : Marked sb d f (j :: js)) (hf : Frees sb {f j} d d') (hg : ∀ l ∈ js, g l = f l) :
    Marked sb d' g js where
  nodup := h.tail.nodup
  bit l hl hl0 := by
    rw [hg l hl] at hl0 ⊢
    obtain ⟨hlt, hmark⟩ := h.tail.bit l hl hl0
    refine ⟨hlt, (hf.bit _ hlt).2 ⟨hmark, fun heq => (nodup_cons.1 h.nodup).1 ?_⟩⟩
    exact h.inj l (mem_cons_of_mem j hl) j mem_cons_self hl0 heq ▸ hl
  inj l hl m hm := by
    rw [hg l hl, hg m hm]
    exact h.tail.inj l hl m hm

end Marked

theorem truncIndirect_spec (hsb : sb.Ok) {a : ℕ} (ha : sb.nmeta ≤ a) (js : List ℕ)
    (h : Marked sb s.disk (indirect (s.disk a)) js) :
    Ensures (truncIndirect sb a js) s
      (fun _ t => t.itable = s.itable ∧ Frees sb (given (indirect (s.disk a)) js) s.disk t.disk) := by
  induction js generalizing s with
  | nil => exact .pure ⟨rfl, (Frees.refl sb _).congr (by simp [given])⟩
  | cons j js ih =>
    rw [truncIndirect, get_bind_iff, given_cons]
    by_cases hne : indirect (s.disk a) j = 0
    · rw [if_neg (not_not.2 hne), if_pos hne]
      exact ih h.tail
    · rw [if_pos hne, if_neg hne]
      obtain ⟨hlt, hmark⟩ := h.bit j mem_cons_self hne
      refine (bfree_spec hsb hlt hmark).bind fun _ t ⟨ht, hf⟩ => ?_
      have hdisk : t.disk a = s.disk a := hf.data a ha
      refine (ih (h.free hf fun l _ => by rw [hdisk])).imp fun _ u ⟨hu, hg⟩ => ⟨hu.trans ht, ?_⟩
      rw [hdisk] at hg
      exact hf.trans hg

theorem truncDirect_spec (hsb : sb.Ok) (ks : List ℕ) (hks : ∀ k ∈ ks, k < NDIRECT)
    (h : Marked sb s.disk (s.itable i).din.addr ks) :
    Ensures (truncDirect sb i ks) s (fun _ t =>
      (∃ addrs, t.itable = update s.itable i
        { s.itable i with din := { (s.itable i).din with addrs := addrs } }) ∧
      (∀ k, (t.itable i).din.addr k = if k ∈ ks then 0 else (s.itable i).din.addr k) ∧
      Frees sb (given (s.itable i).din.addr ks) s.disk t.disk) := by
  induction ks generalizing s with
  | nil => exact .pure ⟨⟨_, (update_eq_self i s.itable).symm⟩, fun _ => rfl,
      (Frees.refl sb _).congr (by simp [given])⟩
  | cons k ks ih =>
    obtain ⟨hk, -⟩ := nodup_cons.1 h.nodup
    have hks' : ∀ l ∈ ks, l < NDIRECT := fun l hl => hks l (mem_cons_of_mem k hl)
    rw [truncDirect, inode, given_cons]
    simp only [bind_assoc, pure_bind]
    rw [get_bind_iff]
    by_cases hne : (s.itable i).din.addr k = 0
    · rw [if_neg (not_not.2 hne), if_pos hne]
      refine (ih hks' h.tail).imp ?_
      rintro _ t ⟨ht, haddr, hf⟩
      refine ⟨ht, fun l => ?_, hf⟩
      rw [haddr l]
      rcases eq_or_ne l k with rfl | hlk
      · simp [hk, hne]
      · simp [hlk]
    · rw [if_pos hne, if_neg hne]
      obtain ⟨hlt, hmark⟩ := h.bit k mem_cons_self hne
      have hk13 : k < NDIRECT + 1 := lt_succ_of_lt (hks k mem_cons_self)
      refine (bfree_spec hsb hlt hmark).bind ?_
      rintro _ t ⟨ht, hf⟩
      rw [setInode, bind_iff, modify_iff, ht]
      generalize hu : t.setEntry i { s.itable i with din := (s.itable i).din.setAddr k 0 } = u
      have hui : u.itable i = { s.itable i with din := (s.itable i).din.setAddr k 0 } := by
        rw [← hu, itable_setEntry, update_self]
      have hdisk : u.disk = t.disk := by rw [← hu, disk_setEntry]
      have haddr : ∀ l, (u.itable i).din.addr l = if l = k then 0 else (s.itable i).din.addr l := fun l => by
        rw [hui]
        exact Dinode.addr_setAddr hk13 (by decide)
      have haddr' : ∀ l ∈ ks, (u.itable i).din.addr l = (s.itable i).din.addr l := fun l hl => by
        rw [haddr l, if_neg]
        rintro rfl
        exact hk hl
      refine (ih hks' (h.free (hdisk ▸ hf) haddr')).imp ?_
      rintro _ v ⟨⟨addrs, hv⟩, hva, hg⟩
      refine ⟨⟨addrs, ?_⟩, fun l => ?_, ?_⟩
      · rw [hv, hui, ← hu, itable_setEntry, update_idem, ht]
        rfl
      · rw [hva l, haddr l]
        rcases eq_or_ne l k with rfl | hlk
        · simp
        · simp [hlk]
      · rw [hdisk, given_congr haddr'] at hg
        exact hf.trans hg

def blocksOf (sb : Superblock) (s : Fs) (i : ℕ) : Set ℕ := {b | ∃ k < NSLOT, s.slot sb i k = b ∧ b ≠ 0}

theorem blocksOf_eq (hv : (s.itable i).valid = true) : s.blocksOf sb i =
    given (s.itable i).din.addr (List.range NDIRECT) ∪
      if (s.itable i).din.addr NDIRECT = 0 then ∅ else
        given (indirect (s.disk ((s.itable i).din.addr NDIRECT))) (List.range NINDIRECT) ∪
          {(s.itable i).din.addr NDIRECT} := by
  have hcur : s.cur sb i = (s.itable i).din := cur_of_valid hv
  ext b
  rw [Set.mem_union]
  constructor
  · rintro ⟨k, hk, hkb, hb⟩
    rw [slot, hcur, slotOf] at hkb
    split_ifs at hkb with h1 h2
    · rcases Nat.lt_succ_iff_lt_or_eq.1 h1 with hlt | rfl
      · exact .inl ⟨k, mem_range.2 hlt, hkb, hb⟩
      · right
        rw [if_neg (hkb ▸ hb)]
        exact .inr hkb.symm
    · exact absurd hkb.symm hb
    · right
      rw [if_neg h2]
      refine .inl ⟨k - (NDIRECT + 1), mem_range.2 ?_, hkb, hb⟩
      simp only [NSLOT] at hk
      omega
  · rintro (⟨k, hk, hkb, hb⟩ | hb)
    · have hk := mem_range.1 hk
      refine ⟨k, hk.trans (by decide), ?_, hb⟩
      rw [slot_of_lt (lt_succ_of_lt hk), hcur, hkb]
    · split_ifs at hb with h0
      · exact absurd hb (Set.notMem_empty b)
      · rcases hb with ⟨j, hj, hjb, hb⟩ | rfl
        · refine ⟨NDIRECT + 1 + j, Nat.add_lt_add_left (mem_range.1 hj) _, ?_, hb⟩
          rw [slot, hcur, slotOf, if_neg (by omega), if_neg h0, Nat.add_sub_cancel_left, hjb]
        · exact ⟨NDIRECT, NDIRECT_lt, by rw [slot_NDIRECT, hcur], h0⟩

/-- Inode `j` and the data blocks are in `t` as in `s`. -/
structure Alike (sb : Superblock) (j : ℕ) (s t : Fs) : Prop where
  cur : j < sb.ninodes → t.cur sb j = s.cur sb j
  data : ∀ b, sb.nmeta ≤ b → t.disk b = s.disk b

namespace Alike

variable (h : Alike sb j s t)
include h

theorem live_iff : t.Live sb j ↔ s.Live sb j := and_congr_right fun hj => by rw [h.cur hj]

theorem sizeOf_eq (hj : s.Live sb j) : t.sizeOf sb j = s.sizeOf sb j := by rw [sizeOf, h.cur hj.1, sizeOf]

theorem slot_eq (hs : s.Owned sb) (hj : s.Live sb j) (k : ℕ) : t.slot sb j k = s.slot sb j k := by
  rw [slot, h.cur hj.1]
  refine slotOf_congr (fun hz => h.data _ ?_) k
  rw [← slot_NDIRECT] at hz ⊢
  exact hs.nmeta_le hj NDIRECT_lt hz

theorem holds_eq (hs : s.Owned sb) (k : ℕ) : t.holds sb (j, k) = s.holds sb (j, k) := by
  refine Option.ext fun c => ?_
  rw [holds_eq_some, holds_eq_some, h.live_iff]
  exact and_congr_right fun hj => by rw [h.slot_eq hs hj]

theorem holeFree (hs : s.Wf sb) (hj : s.Live sb j) : t.HoleFree sb j := by
  have hfree := hs.noHoles.holeFree hj
  refine ⟨h.sizeOf_eq hj ▸ hfree.size_le, fun bn hbn => ?_⟩
  rw [block, h.slot_eq hs.owned hj]
  exact hfree.mapped bn (h.sizeOf_eq hj ▸ hbn)

theorem node_eq (hs : s.Wf sb) : t.node sb j = s.node sb j := by
  by_cases hj : s.Live sb j
  · have hdata : t.dataOf sb j = s.dataOf sb j := by
      rw [dataOf, dataOf, h.sizeOf_eq hj]
      refine map_congr_left fun x hx => ?_
      obtain ⟨hmax, hne⟩ := hs.noHoles.mapped_div hj (mem_range.1 hx)
      have hblock : t.block sb j (x / BSIZE) = s.block sb j (x / BSIZE) := h.slot_eq hs.owned hj _
      have hd : sb.nmeta ≤ s.block sb j (x / BSIZE) := hs.owned.nmeta_le hj (slotIndex_lt hmax) hne
      rw [byteOf, hblock, h.data _ hd, byteOf]
    rw [node_of_live (h.live_iff.2 hj), node_of_live hj, h.cur hj.1, hdata]
  · rw [node_eq_none.2 hj, node_eq_none.2 (mt h.live_iff.1 hj)]

end Alike

theorem Wf.noHoles_of_alike (hs : s.Wf sb) (h : ∀ j, j ≠ i → Alike sb j s t) (hi : t.sizeOf sb i = 0) :
    t.NoHoles sb := noHoles_iff.2 fun j hj => by
  rcases eq_or_ne j i with rfl | hji
  · exact ⟨hi ▸ zero_le, fun bn hbn => absurd (hi ▸ hbn) (Nat.not_lt_zero _)⟩
  · exact (h j hji).holeFree hs ((h j hji).live_iff.1 hj)

/-- What `itrunc` has done. -/
structure Truncated (sb : Superblock) (i : ℕ) (s t : Fs) : Prop where
  wf : t.Wf sb
  node : ∀ f, s.node sb i = some f → t.node sb = update (s.node sb) i (some { f with data := [] })
  empty : ∀ k, t.slot sb i k = 0
  ref : ∀ j, (t.itable j).ref = (s.itable j).ref
  valid : ∀ j, (t.itable j).valid = (s.itable j).valid

theorem Truncated.of_frees {u : Fs} {ip : Dinode} (h : s.Wf sb) (hsb : sb.Ok)
    (hv : (s.itable i).valid = true) (hf : Frees sb (s.blocksOf sb i) s.disk u.disk)
    (hother : ∀ j, j ≠ i → u.itable j = s.itable j) (href : (u.itable i).ref = (s.itable i).ref)
    (hvalid : (u.itable i).valid = true)
    (hip : ∃ addrs, ip = { (s.itable i).din with size := 0, addrs := addrs })
    (haddr : ∀ k, ip.addr k = 0) : Truncated sb i s (u.store sb i ip) := by
  obtain ⟨addrs, hip⟩ := hip
  have hl := h.locked hv
  have hcur : s.cur sb i = (s.itable i).din := cur_of_valid hv
  have htype : ip.type ≠ 0 := by
    have hne := hl.live.2
    rw [hcur] at hne
    rw [hip]
    exact hne
  have hsize : ip.size.toNat = 0 := by rw [hip]; rfl
  have halike : ∀ j, j ≠ i → Alike sb j s (u.store sb i ip) := fun j hji =>
    ⟨fun hj => by rw [cur_store_of_ne hji, cur, hother j hji, hf.inodes j hj, cur],
      fun b hb => by rw [disk_store hsb hl.live.1 hb, hf.data b hb]⟩
  have hlivei : (u.store sb i ip).Live sb i := ⟨hl.live.1, by rwa [cur_store_self]⟩
  have hempty : ∀ k, (u.store sb i ip).slot sb i k = 0 := fun k => by
    rw [slot, cur_store_self, slotOf, haddr, haddr, if_pos rfl, ite_self]
  have hsizei : (u.store sb i ip).sizeOf sb i = 0 := by rw [sizeOf, cur_store_self, hsize]
  refine ⟨⟨?_, h.noHoles_of_alike halike hsizei, ?_⟩, ?_, hempty, fun j => ?_, fun j => ?_⟩
  · -- the slots of `i` are taken back
    refine h.owned.release (S := {x | x.1 = i}) ?_ ?_ fun b => ?_
    · rintro ⟨j, k⟩ rfl
      exact holds_eq_none (hempty k)
    · rintro ⟨j, k⟩ hji
      exact (halike j hji).holds_eq h.owned k
    · rw [used_store hsb hl.live.1, used, used, Bool.and_eq_true_iff, Bool.and_eq_true_iff, and_assoc]
      refine and_congr_right fun hb => ?_
      rw [hf.bit b (of_decide_eq_true hb)]
      refine and_congr_right fun _ => ?_
      constructor
      · rintro hnot ⟨j, k⟩ rfl hh
        obtain ⟨-, hk, hkb, hb0⟩ := holds_eq_some.1 hh
        exact hnot ⟨k, hk, hkb, hb0⟩
      · rintro hall ⟨k, hk, hkb, hb0⟩
        exact hall (i, k) rfl (holds_eq_some.2 ⟨hl.live, hk, hkb, hb0⟩)
  · intro j hvj
    rcases eq_or_ne j i with rfl | hji
    · refine ⟨hlivei, ?_⟩
      rw [itable_store, update_self, Fs.store, inodeAt_putInode, update_self]
    · rw [itable_store_of_ne hji, hother j hji] at hvj ⊢
      obtain ⟨hlj, heq⟩ := h.synced j hvj
      refine ⟨(halike j hji).live_iff.2 hlj, ?_⟩
      rw [Fs.store, inodeAt_putInode, update_of_ne hji, hf.inodes j hlj.1, heq]
  · intro f hnode
    rw [node_of_live hl.live, Option.some_inj, hcur] at hnode
    funext j
    rcases eq_or_ne j i with rfl | hji
    · rw [update_self, node_of_live hlivei, cur_store_self, dataOf, hsizei, ← hnode, hip]
      rfl
    · rw [update_of_ne hji, (halike j hji).node_eq h]
  · rcases eq_or_ne j i with rfl | hji
    · rw [itable_store, update_self]
      exact href
    · rw [itable_store_of_ne hji, hother j hji]
  · rcases eq_or_ne j i with rfl | hji
    · rw [itable_store, update_self, hv]
      exact hvalid
    · rw [itable_store_of_ne hji, hother j hji]

/-- **`itrunc` empties a file.** -/
theorem itrunc_spec (h : s.Wf sb) (hsb : sb.Ok) (hv : (s.itable i).valid = true) :
    Ensures (itrunc sb i) s (fun _ t => Truncated sb i s t) := by
  have hl := h.locked hv
  have hcur : s.cur sb i = (s.itable i).din := cur_of_valid hv
  have hslot : ∀ k, k < NDIRECT + 1 → s.slot sb i k = (s.itable i).din.addr k := fun k hk => by
    rw [slot_of_lt hk, hcur]
  have hbits : ∀ k < NSLOT, s.slot sb i k ≠ 0 → sb.bitAt s.disk (s.slot sb i k) = true := fun k hk hne =>
    (Bool.and_eq_true_iff.1 (h.owned.used_slot hl.live hk hne)).2
  unfold itrunc
  refine (truncDirect_spec hsb _ (fun k => mem_range.1) ⟨nodup_range, fun k hk hne => ?_,
    fun k hk l hl' hne heq => ?_⟩).bind ?_
  · have hk := mem_range.1 hk
    have hk13 := lt_succ_of_lt hk
    have hkn : k < NSLOT := hk.trans (by decide)
    rw [← hslot k hk13] at hne ⊢
    exact ⟨h.owned.slot_lt hl.live hkn hne, hbits k hkn hne⟩
  · have hk := mem_range.1 hk
    have hl' := mem_range.1 hl'
    rw [← hslot k (lt_succ_of_lt hk)] at hne heq
    rw [← hslot l (lt_succ_of_lt hl')] at heq
    exact (h.owned.slot_inj hl.live hl.live (hk.trans (by decide)) (hl'.trans (by decide)) heq hne).2
  rintro _ t ⟨⟨addrs, ht⟩, haddr, hf⟩
  have hti : t.itable i = { s.itable i with din := { (s.itable i).din with addrs := addrs } } := by
    rw [ht, update_self]
  have hother : ∀ j, j ≠ i → t.itable j = s.itable j := fun j hj => by rw [ht, update_of_ne hj]
  have haN : (t.itable i).din.addr NDIRECT = (s.itable i).din.addr NDIRECT := by
    rw [haddr, if_neg (by simp)]
  have hblocks : s.blocksOf sb i = _ := blocksOf_eq hv
  -- what is left to do when all blocks are given back
  have hfin : ∀ u : Fs, Frees sb (s.blocksOf sb i) s.disk u.disk →
      (∀ j, j ≠ i → u.itable j = s.itable j) → (u.itable i).ref = (s.itable i).ref →
      (u.itable i).valid = true → (∃ addrs, (u.itable i).din = { (s.itable i).din with addrs := addrs }) →
      (∀ k, (u.itable i).din.addr k = 0) →
      Ensures (do let s ← get; setInode i { (s.itable i).din with size := 0 }; iupdate sb i) u
        (fun _ t => Truncated sb i s t) := by
    rintro u hfu hou hru hvu ⟨addrs, hau⟩ hzu
    rw [get_bind_iff, update_inode_end]
    exact .of_frees h hsb hv hfu hou hru hvu ⟨addrs, by rw [hau]⟩ hzu
  simp only [inode, bind_assoc, pure_bind]
  rw [get_bind_iff, haN]
  by_cases ha0 : (s.itable i).din.addr NDIRECT = 0
  · rw [if_neg (not_not.2 ha0)]
    rw [if_pos ha0, Set.union_empty] at hblocks
    refine hfin t (hblocks ▸ hf) hother (by rw [hti]) (by rw [hti]; exact hv) ⟨addrs, by rw [hti]⟩ fun k => ?_
    rcases Nat.lt_trichotomy k NDIRECT with hk | rfl | hk
    · rw [haddr, if_pos (mem_range.2 hk)]
    · rw [haN, ha0]
    · exact Dinode.addr_of_le hk
  · rw [if_pos ha0]
    rw [if_neg ha0] at hblocks
    have hNslot : s.slot sb i NDIRECT = (s.itable i).din.addr NDIRECT := hslot _ (lt_succ_self _)
    generalize haeq : (s.itable i).din.addr NDIRECT = a at *
    have hadata : sb.nmeta ≤ a := hNslot ▸ h.owned.nmeta_le hl.live NDIRECT_lt (hNslot ▸ ha0)
    have hdiska : t.disk a = s.disk a := hf.data a hadata
    have hword : ∀ j, s.slot sb i (NDIRECT + 1 + j) = indirect (s.disk a) j := fun j => by
      rw [slot, hcur, slotOf, if_neg (by omega), haeq, if_neg ha0, Nat.add_sub_cancel_left]
    have hlt : ∀ j ∈ List.range NINDIRECT, NDIRECT + 1 + j < NSLOT := fun j hj =>
      Nat.add_lt_add_left (mem_range.1 hj) _
    refine (truncIndirect_spec hsb hadata (List.range NINDIRECT) ⟨nodup_range, fun j hj hne => ?_,
      fun j hj l hl' hne heq => ?_⟩).bind ?_
    · rw [hdiska, ← hword] at hne ⊢
      refine ⟨h.owned.slot_lt hl.live (hlt j hj) hne, (hf.bit _ (h.owned.slot_lt hl.live (hlt j hj) hne)).2
        ⟨hbits _ (hlt j hj) hne, ?_⟩⟩
      rintro ⟨k, hk, hkb, -⟩
      have hk := mem_range.1 hk
      rw [← hslot k (lt_succ_of_lt hk)] at hkb
      have := (h.owned.slot_inj hl.live hl.live (hlt j hj) (hk.trans (by decide)) hkb.symm hne).2
      omega
    · rw [hdiska, ← hword, ← hword] at heq
      rw [hdiska, ← hword] at hne
      have := (h.owned.slot_inj hl.live hl.live (hlt j hj) (hlt l hl') heq hne).2
      omega
    rintro _ u ⟨hu, hg⟩
    rw [hdiska] at hg
    have hfg := hf.trans hg
    have halt : a < sb.size := hNslot ▸ h.owned.slot_lt hl.live NDIRECT_lt (hNslot ▸ ha0)
    have habit : sb.bitAt u.disk a = true := by
      refine (hfg.bit a halt).2 ⟨hNslot ▸ hbits _ NDIRECT_lt (hNslot ▸ ha0), ?_⟩
      rintro (⟨k, hk, hkb, -⟩ | ⟨j, hj, hjb, -⟩)
      · have hk := mem_range.1 hk
        rw [← hslot k (lt_succ_of_lt hk), ← hNslot] at hkb
        have := (h.owned.slot_inj hl.live hl.live NDIRECT_lt (hk.trans (by decide)) hkb.symm (hNslot ▸ ha0)).2
        omega
      · rw [← hword, ← hNslot] at hjb
        have := (h.owned.slot_inj hl.live hl.live NDIRECT_lt (hlt j hj) hjb.symm (hNslot ▸ ha0)).2
        omega
    refine (bfree_spec hsb halt habit).bind ?_
    rintro _ v ⟨hv', hfv⟩
    rw [setInode, bind_iff, modify_iff]
    have htab : v.itable = t.itable := hv'.trans hu
    have hwi : (v.setEntry i { v.itable i with din := (t.itable i).din.setAddr NDIRECT 0 }).itable i =
        { s.itable i with din := { (s.itable i).din with addrs := addrs }.setAddr NDIRECT 0 } := by
      rw [itable_setEntry, update_self, htab, hti]
    refine hfin _ ?_ (fun j hj => ?_) (by rw [hwi]) (by rw [hwi]; exact hv) ⟨_, by rw [hwi]; rfl⟩ fun k => ?_
    · rw [hblocks, ← Set.union_assoc]
      exact hfg.trans hfv
    · rw [itable_setEntry, update_of_ne hj, htab, hother j hj]
    · rw [hwi, Dinode.addr_setAddr (lt_succ_self _) (by decide)]
      split_ifs with hk
      · rfl
      · rcases lt_or_ge k NDIRECT with hlt' | hge
        · have := haddr k
          rwa [hti, if_pos (mem_range.2 hlt')] at this
        · exact Dinode.addr_of_le (by omega)

end Fs

end Xv6

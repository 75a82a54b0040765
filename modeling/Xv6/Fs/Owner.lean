import Xv6.Machinery.Ownership
import Xv6.Fs.Inode

/-!
# Fs/Owner — who owns a block

The *slots* of a file are its direct blocks, the indirect block and its entries.  `Owned` says that
the free map is exact for the slots of the allocated inodes (`cur`: the in-memory copy, if valid),
`NoHoles` that a file has all blocks below its size.  `bmap` gives new blocks to empty slots and
changes nothing else (`Grows`).
-/

namespace Xv6

open Machinery Function Ensures

def NSLOT : ℕ := NDIRECT + 1 + NINDIRECT

/-- The slot of block `bn` of a file. -/
def slotIndex (bn : ℕ) : ℕ := if bn < NDIRECT then bn else bn + 1

/-- Slot `k` of an inode: `addrs[k]` or an entry of the indirect block. -/
def slotOf (disk : Disk) (ip : Dinode) (k : ℕ) : ℕ :=
  if k < NDIRECT + 1 then ip.addr k
  else if ip.addr NDIRECT = 0 then 0
  else indirect (disk (ip.addr NDIRECT)) (k - (NDIRECT + 1))

theorem slotIndex_lt {bn : ℕ} (h : bn < MAXFILE) : slotIndex bn < NSLOT := by
  rw [slotIndex]
  split_ifs <;> simp only [MAXFILE, NSLOT] at * <;> omega

theorem slotIndex_inj {bn bm : ℕ} (h : slotIndex bn = slotIndex bm) : bn = bm := by
  simp only [slotIndex] at h
  split_ifs at h <;> omega

theorem slotIndex_ne (bn : ℕ) : slotIndex bn ≠ NDIRECT := by
  rw [slotIndex]
  split_ifs <;> omega

namespace Fs

variable (sb : Superblock) (s : Fs)

def cur (i : ℕ) : Dinode := if (s.itable i).valid then (s.itable i).din else sb.inodeAt s.disk i

/-- Inode `i` is allocated. -/
def Live (i : ℕ) : Prop := i < sb.ninodes ∧ (s.cur sb i).type ≠ 0

instance (i : ℕ) : Decidable (s.Live sb i) := inferInstanceAs (Decidable (_ ∧ _))

def sizeOf (i : ℕ) : ℕ := (s.cur sb i).size.toNat

def slot (i k : ℕ) : ℕ := slotOf s.disk (s.cur sb i) k

/-- The block with block `bn` of a file. -/
def block (i bn : ℕ) : ℕ := s.slot sb i (slotIndex bn)

def holds (x : ℕ × ℕ) : Option ℕ :=
  if s.Live sb x.1 ∧ x.2 < NSLOT ∧ s.slot sb x.1 x.2 ≠ 0 then some (s.slot sb x.1 x.2) else none

def used (b : ℕ) : Bool := decide (b < sb.size) && sb.bitAt s.disk b

/-- **The free map is exact**: the marked blocks are the metadata blocks and those in slots of
allocated inodes, which are data blocks, in one slot each. -/
def Owned : Prop := Exact {b | b < sb.nmeta} (s.holds sb) (s.used sb)

/-- **Files have no holes**: every block below the size is mapped. -/
structure NoHoles : Prop where
  size_le : ∀ i, s.Live sb i → s.sizeOf sb i ≤ MAXFILE * BSIZE
  mapped : ∀ i bn, s.Live sb i → bn * BSIZE < s.sizeOf sb i → s.block sb i bn ≠ 0

/-- A file without holes. -/
structure HoleFree (i : ℕ) : Prop where
  size_le : s.sizeOf sb i ≤ MAXFILE * BSIZE
  mapped : ∀ bn, bn * BSIZE < s.sizeOf sb i → s.block sb i bn ≠ 0

/-- No block is free. -/
def Full : Prop := ∀ b < sb.size, s.used sb b = true

variable {sb s} {t u : Fs} {i j k l b bn : ℕ}

theorem noHoles_iff : s.NoHoles sb ↔ ∀ i, s.Live sb i → s.HoleFree sb i :=
  ⟨fun h i hi => ⟨h.size_le i hi, fun bn => h.mapped i bn hi⟩,
    fun h => ⟨fun i hi => (h i hi).size_le, fun i bn hi => (h i hi).mapped bn⟩⟩

theorem NoHoles.holeFree (h : s.NoHoles sb) (hi : s.Live sb i) : s.HoleFree sb i := noHoles_iff.1 h i hi

theorem holds_eq_some : s.holds sb (i, k) = some b ↔
    s.Live sb i ∧ k < NSLOT ∧ s.slot sb i k = b ∧ b ≠ 0 := by
  rw [holds]
  split_ifs with h
  · rw [Option.some_inj]
    constructor
    · rintro rfl
      exact ⟨h.1, h.2.1, rfl, h.2.2⟩
    · exact fun h' => h'.2.2.1
  · refine iff_of_false nofun ?_
    rintro ⟨hl, hk, rfl, hb⟩
    exact h ⟨hl, hk, hb⟩

theorem holds_eq_none (hk : s.slot sb i k = 0) : s.holds sb (i, k) = none :=
  if_neg fun h => h.2.2 hk

namespace Owned

theorem nmeta_le (h : s.Owned sb) (hi : s.Live sb i) (hk : k < NSLOT) (hb : s.slot sb i k ≠ 0) :
    sb.nmeta ≤ s.slot sb i k :=
  le_of_not_gt (h.apart (i, k) _ (holds_eq_some.2 ⟨hi, hk, rfl, hb⟩))

theorem used_slot (h : s.Owned sb) (hi : s.Live sb i) (hk : k < NSLOT) (hb : s.slot sb i k ≠ 0) :
    s.used sb (s.slot sb i k) = true :=
  h.used_of_holds (x := (i, k)) (holds_eq_some.2 ⟨hi, hk, rfl, hb⟩)

theorem slot_lt (h : s.Owned sb) (hi : s.Live sb i) (hk : k < NSLOT) (hb : s.slot sb i k ≠ 0) :
    s.slot sb i k < sb.size :=
  of_decide_eq_true (Bool.and_eq_true_iff.1 (h.used_slot hi hk hb)).1

theorem slot_inj (h : s.Owned sb) (hi : s.Live sb i) (hj : s.Live sb j) (hk : k < NSLOT) (hl : l < NSLOT)
    (heq : s.slot sb i k = s.slot sb j l) (hb : s.slot sb i k ≠ 0) : i = j ∧ k = l :=
  Prod.mk.inj (h.inj (i, k) (j, l) _ (holds_eq_some.2 ⟨hi, hk, rfl, hb⟩)
    (holds_eq_some.2 ⟨hj, hl, heq.symm, hb⟩))

/-- A block that is not marked is in no slot. -/
theorem slot_ne (h : s.Owned sb) (hb : s.used sb b = false) (hi : s.Live sb i) (hk : k < NSLOT)
    (hne : s.slot sb i k ≠ 0) : s.slot sb i k ≠ b := fun heq => by
  rw [← heq, h.used_slot hi hk hne] at hb
  cases hb

/-- A block that is not marked is a data block. -/
theorem nmeta_le_of_unused (h : s.Owned sb) (hb : s.used sb b = false) : sb.nmeta ≤ b := by
  by_contra hlt
  rw [(h.marked b).2 (.inl (lt_of_not_ge hlt))] at hb
  cases hb

/-- **A free block is put into an empty slot.** -/
theorem grow (h : s.Owned sb) (hlive : ∀ j, t.Live sb j ↔ s.Live sb j)
    (hslot : ∀ j l, s.Live sb j → l < NSLOT →
      t.slot sb j l = if j = i ∧ l = k then b else s.slot sb j l)
    (hused : t.used sb = update (s.used sb) b true) (hi : s.Live sb i) (hk : k < NSLOT)
    (hempty : s.slot sb i k = 0) (hb : s.used sb b = false) (hb0 : b ≠ 0) : t.Owned sb := by
  have hholds : t.holds sb = update (s.holds sb) (i, k) (some b) := by
    funext ⟨j, l⟩
    rcases eq_or_ne (j, l) (i, k) with heq | hne
    · obtain ⟨rfl, rfl⟩ := Prod.mk.inj heq
      rw [update_self]
      exact holds_eq_some.2 ⟨(hlive j).2 hi, hk, by rw [hslot j l hi hk, if_pos ⟨rfl, rfl⟩], hb0⟩
    · rw [update_of_ne hne]
      refine Option.ext fun c => ?_
      rw [holds_eq_some, holds_eq_some, hlive]
      refine and_congr_right fun hj => and_congr_right fun hl => ?_
      rw [hslot j l hj hl, if_neg fun h => hne (Prod.ext h.1 h.2)]
  rw [Owned, hholds, hused]
  exact h.acquire (holds_eq_none hempty) hb

end Owned

/-! ## Allocating a block -/

/-- A state after `balloc` has returned `b`. -/
def alloced (sb : Superblock) (s : Fs) (b : ℕ) : Fs :=
  { s with disk := sb.markUsed s.disk b }.setBlock b (Bytes.fill BSIZE 0)

theorem balloc_spec (s : Fs) (h : s.Owned sb) (hsb : sb.Ok) :
    Ensures (balloc sb) s
      (fun b t => (b = 0 ∧ t = s ∧ s.Full sb) ∨
        (b ≠ 0 ∧ b < sb.size ∧ s.used sb b = false ∧ sb.nmeta ≤ b ∧ t = s.alloced sb b)) := by
  unfold balloc
  rw [get_bind_iff]
  split
  case h_1 hnone =>
    refine .pure (.inl ⟨rfl, rfl, fun b hb => ?_⟩)
    have hbit := List.find?_eq_none.1 hnone b (List.mem_range.2 hb)
    simp only [Bool.not_eq_true', Bool.not_eq_false] at hbit
    rw [used, hbit, decide_eq_true hb, Bool.and_self]
  case h_2 b hfind =>
    have hlt : b < sb.size := List.mem_range.1 (List.mem_of_find?_eq_some hfind)
    have hbit : sb.bitAt s.disk b = false := by simpa using List.find?_some hfind
    have hb : s.used sb b = false := by rw [used, hbit, Bool.and_false]
    have hdata := h.nmeta_le_of_unused hb
    have hpos : 0 < sb.nmeta := zero_le.trans_lt (hsb.bitmap b hlt)
    rw [bind_iff, set_iff, pure_iff]
    exact .inr ⟨by omega, hlt, hb, hdata, rfl⟩

section Alloced

variable (hsb : sb.Ok) (hb : b < sb.size) (hdata : sb.nmeta ≤ b)

include hsb hdata in
theorem inodeAt_alloced {i : ℕ} (hi : i < sb.ninodes) :
    sb.inodeAt (s.alloced sb b).disk i = sb.inodeAt s.disk i := by
  rw [alloced, disk_setBlock, sb.inodeAt_update hsb hdata hi, Superblock.markUsed,
    Superblock.inodeAt_putByte hsb hi]

include hsb hb hdata in
theorem used_alloced : (s.alloced sb b).used sb = update (s.used sb) b true := by
  funext c
  by_cases hc : c < sb.size
  · rw [used, alloced, disk_setBlock, sb.bitAt_update hsb hdata hc, sb.bitAt_markUsed]
    rcases eq_or_ne c b with rfl | hcb
    · simp [hc]
    · simp [hcb, used]
  · have hcb : c ≠ b := by omega
    simp [used, hc, hcb]

include hsb hb in
theorem disk_alloced_of_ne {c : ℕ} (hc : sb.nmeta ≤ c) (hcb : c ≠ b) :
    (s.alloced sb b).disk c = s.disk c := by
  rw [alloced, disk_setBlock, update_of_ne hcb]
  exact Superblock.putByte_of_le hsb hb hc _

theorem disk_alloced_self : (s.alloced sb b).disk b = Bytes.fill BSIZE 0 := by
  rw [alloced, disk_setBlock, update_self]

end Alloced

/-! ## Growing a file

What work on one inode leaves of all the others, as a relation that composes. -/

/-- **`t` comes from `s` by work on inode `i`**: blocks were added to it, and blocks of it were
written. -/
structure Edits (sb : Superblock) (i : ℕ) (s t : Fs) : Prop where
  other : ∀ j, j ≠ i → t.itable j = s.itable j
  ref : (t.itable i).ref = (s.itable i).ref
  valid : (t.itable i).valid = (s.itable i).valid
  fields : ∃ addrs, (t.itable i).din = { (s.itable i).din with addrs := addrs }
  inodes : ∀ j < sb.ninodes, sb.inodeAt t.disk j = sb.inodeAt s.disk j
  slot : ∀ j k, s.Live sb j → k < NSLOT → s.slot sb j k ≠ 0 → t.slot sb j k = s.slot sb j k
  bytes : ∀ j bn, j ≠ i → s.Live sb j → bn < MAXFILE → s.block sb j bn ≠ 0 →
    t.disk (s.block sb j bn) = s.disk (s.block sb j bn)

/-- **`t` comes from `s` by giving inode `i` more blocks.** -/
structure Grows (sb : Superblock) (i : ℕ) (s t : Fs) : Prop extends Edits sb i s t where
  own : ∀ bn, s.Live sb i → bn < MAXFILE → s.block sb i bn ≠ 0 →
    t.disk (s.block sb i bn) = s.disk (s.block sb i bn)

/-- The state is consistent, and inode `i` is allocated and locked. -/
structure Locked (sb : Superblock) (s : Fs) (i : ℕ) : Prop where
  owned : s.Owned sb
  noHoles : s.NoHoles sb
  live : s.Live sb i
  valid : (s.itable i).valid = true

/-- The free map is exact, and inode `i` is allocated and locked. -/
structure Opened (sb : Superblock) (s : Fs) (i : ℕ) : Prop where
  owned : s.Owned sb
  live : s.Live sb i
  valid : (s.itable i).valid = true

theorem Locked.opened (h : s.Locked sb i) : s.Opened sb i := ⟨h.owned, h.live, h.valid⟩

theorem cur_of_valid (h : (s.itable i).valid = true) : s.cur sb i = (s.itable i).din := if_pos h

theorem sizeOf_of_valid (sb : Superblock) (h : (s.itable i).valid = true) :
    s.sizeOf sb i = (s.itable i).din.size.toNat := by rw [sizeOf, cur_of_valid h]

namespace Edits

theorem refl (i : ℕ) (s : Fs) : Edits sb i s s :=
  ⟨fun _ _ => rfl, rfl, rfl, ⟨_, rfl⟩, fun _ _ => rfl, fun _ _ _ _ _ => rfl, fun _ _ _ _ _ _ => rfl⟩

variable (h : Edits sb i s t)
include h

theorem cur_of_ne (hj : j < sb.ninodes) (hji : j ≠ i) : t.cur sb j = s.cur sb j := by
  rw [cur, cur, h.other j hji, h.inodes j hj]

theorem cur_eq (hj : j < sb.ninodes) :
    ∃ addrs, t.cur sb j = { s.cur sb j with addrs := addrs } := by
  rcases eq_or_ne j i with rfl | hji
  · cases hv : (s.itable j).valid with
    | true =>
      rw [cur_of_valid (h.valid.trans hv), cur_of_valid hv]
      exact h.fields
    | false =>
      have hv' := h.valid.trans hv
      rw [cur, cur, hv, hv', if_neg Bool.false_ne_true, if_neg Bool.false_ne_true, h.inodes j hj]
      exact ⟨_, rfl⟩
  · exact ⟨_, h.cur_of_ne hj hji⟩

theorem live_iff (j : ℕ) : t.Live sb j ↔ s.Live sb j := by
  refine and_congr_right fun hj => ?_
  obtain ⟨addrs, heq⟩ := h.cur_eq hj
  rw [heq]

theorem sizeOf_eq (hj : j < sb.ninodes) : t.sizeOf sb j = s.sizeOf sb j := by
  obtain ⟨addrs, heq⟩ := h.cur_eq hj
  rw [sizeOf, heq, sizeOf]

theorem block_eq (hj : s.Live sb j) (hbn : bn < MAXFILE)
    (hne : s.block sb j bn ≠ 0) : t.block sb j bn = s.block sb j bn :=
  h.slot j _ hj (slotIndex_lt hbn) hne

/-- A file does not get holes. -/
theorem holeFree (hj : s.Live sb j) (hs : s.HoleFree sb j) : t.HoleFree sb j := by
  have hsize := h.sizeOf_eq hj.1
  refine ⟨hsize ▸ hs.size_le, fun bn hbn => ?_⟩
  rw [hsize] at hbn
  have hne := hs.mapped bn hbn
  rwa [h.block_eq hj (Nat.lt_of_mul_lt_mul_right (hbn.trans_le hs.size_le)) hne]

theorem trans (h' : Edits sb i t u) : Edits sb i s u where
  other j hj := (h'.other j hj).trans (h.other j hj)
  ref := h'.ref.trans h.ref
  valid := h'.valid.trans h.valid
  fields := by
    obtain ⟨addrs, heq⟩ := h.fields
    obtain ⟨addrs', heq'⟩ := h'.fields
    exact ⟨addrs', by rw [heq', heq]⟩
  inodes j hj := (h'.inodes j hj).trans (h.inodes j hj)
  slot j k hj hk hne := by
    have heq := h.slot j k hj hk hne
    rw [h'.slot j k ((h.live_iff j).2 hj) hk (heq ▸ hne), heq]
  bytes j bn hji hj hbn hne := by
    have heq := h.block_eq hj hbn hne
    have := h'.bytes j bn hji ((h.live_iff j).2 hj) hbn (heq ▸ hne)
    rw [heq] at this
    rw [this, h.bytes j bn hji hj hbn hne]

end Edits

namespace Grows

theorem refl (i : ℕ) (s : Fs) : Grows sb i s s := ⟨Edits.refl i s, fun _ _ _ _ => rfl⟩

theorem trans (h : Grows sb i s t) (h' : Grows sb i t u) : Grows sb i s u where
  toEdits := h.toEdits.trans h'.toEdits
  own bn hi hbn hne := by
    have heq := h.block_eq hi hbn hne
    have := h'.own bn ((h.live_iff i).2 hi) hbn (heq ▸ hne)
    rw [heq] at this
    rw [this, h.own bn hi hbn hne]

end Grows

/-- **A free block goes to an empty slot of a locked inode.** -/
theorem Opened.acquire (h : s.Opened sb i) (hk : k < NSLOT) (hempty : s.slot sb i k = 0)
    (hb : s.used sb b = false) (hb0 : b ≠ 0) (hother : ∀ j, j ≠ i → t.itable j = s.itable j)
    (href : (t.itable i).ref = (s.itable i).ref) (hvalid : (t.itable i).valid = (s.itable i).valid)
    (hfields : ∃ addrs, (t.itable i).din = { (s.itable i).din with addrs := addrs })
    (hinodes : ∀ j < sb.ninodes, sb.inodeAt t.disk j = sb.inodeAt s.disk j)
    (hslot : ∀ j l, s.Live sb j → l < NSLOT →
      t.slot sb j l = if j = i ∧ l = k then b else s.slot sb j l)
    (hused : t.used sb = update (s.used sb) b true)
    (hbytes : ∀ j bn, s.Live sb j → bn < MAXFILE → s.block sb j bn ≠ 0 →
      t.disk (s.block sb j bn) = s.disk (s.block sb j bn)) :
    t.Opened sb i ∧ Grows sb i s t ∧ t.slot sb i k = b := by
  have hgrows : Grows sb i s t := by
    refine ⟨⟨hother, href, hvalid, hfields, hinodes, fun j l hj hl hne => ?_, fun j bn _ => hbytes j bn⟩,
      hbytes i⟩
    rw [hslot j l hj hl, if_neg]
    rintro ⟨rfl, rfl⟩
    exact hne hempty
  exact ⟨⟨h.owned.grow hgrows.live_iff hslot hused h.live hk hempty hb hb0, (hgrows.live_iff i).2 h.live,
    hvalid.trans h.valid⟩, hgrows, by rw [hslot i k h.live hk, if_pos ⟨rfl, rfl⟩]⟩

/-- The slots of other inodes do not see a store to a block that they do not have. -/
theorem slotOf_congr {disk disk' : Disk} {ip : Dinode}
    (h : ip.addr NDIRECT ≠ 0 → disk' (ip.addr NDIRECT) = disk (ip.addr NDIRECT)) (k : ℕ) :
    slotOf disk' ip k = slotOf disk ip k := by
  rw [slotOf, slotOf]
  split_ifs with hk hz
  · rfl
  · rfl
  · rw [h hz]

theorem slot_of_lt (hk : k < NDIRECT + 1) : s.slot sb i k = (s.cur sb i).addr k := if_pos hk

theorem slot_NDIRECT : s.slot sb i NDIRECT = (s.cur sb i).addr NDIRECT :=
  slot_of_lt (Nat.lt_succ_self NDIRECT)

theorem NDIRECT_lt : NDIRECT < NSLOT := by decide

/-- Zeroing a fresh block is not seen by the files. -/
theorem Opened.disk_alloced (h : s.Opened sb i) (hsb : sb.Ok) (hlt : b < sb.size)
    (hb : s.used sb b = false) (hj : s.Live sb j) (hl : l < NSLOT) (hne : s.slot sb j l ≠ 0) :
    (s.alloced sb b).disk (s.slot sb j l) = s.disk (s.slot sb j l) :=
  disk_alloced_of_ne hsb hlt (h.owned.nmeta_le hj hl hne) (h.owned.slot_ne hb hj hl hne)

theorem Opened.acquire_addr (h : s.Opened sb i) (hsb : sb.Ok) (hk : k < NDIRECT + 1)
    (hempty : (s.itable i).din.addr k = 0) (hlt : b < sb.size) (hb : s.used sb b = false) (hb0 : b ≠ 0)
    (ht : t = (s.alloced sb b).setEntry i { s.itable i with din := (s.itable i).din.setAddr k b }) :
    t.Opened sb i ∧ Grows sb i s t ∧ t.slot sb i k = b := by
  have hdata := h.owned.nmeta_le_of_unused hb
  have hkslot : k < NSLOT := hk.trans_le (by decide)
  have hcur : s.cur sb i = (s.itable i).din := cur_of_valid h.valid
  have hb32 : b < 2 ^ 32 := hlt.trans (hsb.size_lt.trans (by norm_num))
  have hentry : t.itable i = { s.itable i with din := (s.itable i).din.setAddr k b } := by
    rw [ht, itable_setEntry, update_self]
  have hcurt : t.cur sb i = (s.itable i).din.setAddr k b := by
    rw [cur, hentry, if_pos h.valid]
  have hother : ∀ j, j ≠ i → t.itable j = s.itable j := fun j hj => by
    rw [ht, itable_setEntry, update_of_ne hj]
    rfl
  have hinodes : ∀ j < sb.ninodes, sb.inodeAt t.disk j = sb.inodeAt s.disk j := fun j hj => by
    rw [ht, disk_setEntry]
    exact inodeAt_alloced hsb hdata hj
  have hdisk : ∀ j l, s.Live sb j → l < NSLOT → s.slot sb j l ≠ 0 →
      t.disk (s.slot sb j l) = s.disk (s.slot sb j l) := fun j l hj hl hne => by
    rw [ht, disk_setEntry]
    exact h.disk_alloced hsb hlt hb hj hl hne
  refine h.acquire hkslot ?_ hb hb0 hother (by rw [hentry]) (by rw [hentry])
    ⟨_, by rw [hentry]; rfl⟩ hinodes (fun j l hj hl => ?_) ?_ fun j bn hj hbn =>
      hdisk j _ hj (slotIndex_lt hbn)
  · rw [slot, slotOf, if_pos hk, hcur, hempty]
  · rcases eq_or_ne j i with rfl | hji
    · rw [slot, hcurt, slot, hcur]
      by_cases hl' : l < NDIRECT + 1
      · rw [slotOf, slotOf, if_pos hl', if_pos hl', Dinode.addr_setAddr hk hb32]
        simp only [true_and]
      · have hlk : l ≠ k := by omega
        rw [if_neg fun h => hlk h.2]
        rcases eq_or_ne NDIRECT k with rfl | hkd
        · -- a fresh indirect block has no entries
          have hfresh : t.disk b = Bytes.fill BSIZE 0 := by
            rw [ht, disk_setEntry]
            exact disk_alloced_self
          rw [slotOf, slotOf, if_neg hl', if_neg hl', Dinode.addr_setAddr hk hb32, if_pos rfl, if_neg hb0,
            hempty, if_pos rfl, hfresh]
          exact Bytes.getLE_fill_zero _ _
        · rw [slotOf, slotOf, if_neg hl', if_neg hl', Dinode.addr_setAddr hk hb32, if_neg hkd]
          split_ifs with hz
          · rfl
          · have hd := hdisk j NDIRECT hj NDIRECT_lt
            rw [slot_NDIRECT, hcur] at hd
            rw [hd hz]
    · rw [if_neg fun h => hji h.1, slot, slot, cur, cur, hother j hji, hinodes j hj.1]
      refine slotOf_congr (fun hne => ?_) l
      exact hdisk j NDIRECT hj NDIRECT_lt (by rw [slot_NDIRECT]; exact hne)
  · rw [← used_alloced hsb hlt hdata, ht]
    rfl

theorem Opened.acquire_indirect (h : s.Opened sb i) (hsb : sb.Ok) {a : ℕ}
    (ha : (s.itable i).din.addr NDIRECT = a) (ha0 : a ≠ 0) (hbn : bn < NINDIRECT)
    (hempty : indirect (s.disk a) bn = 0) (hlt : b < sb.size) (hb : s.used sb b = false) (hb0 : b ≠ 0)
    (ht : t = (s.alloced sb b).setBlock a (((s.alloced sb b).disk a).putLE (4 * bn) 4 b)) :
    t.Opened sb i ∧ Grows sb i s t ∧ t.slot sb i (NDIRECT + 1 + bn) = b := by
  have hdata := h.owned.nmeta_le_of_unused hb
  have hk : NDIRECT + 1 + bn < NSLOT := Nat.add_lt_add_left hbn _
  have hcur : s.cur sb i = (s.itable i).din := cur_of_valid h.valid
  have haslot : s.slot sb i NDIRECT = a := by rw [slot_NDIRECT, hcur, ha]
  have hadata : sb.nmeta ≤ a := haslot ▸ h.owned.nmeta_le h.live NDIRECT_lt (haslot ▸ ha0)
  have hab : a ≠ b := haslot ▸ h.owned.slot_ne hb h.live NDIRECT_lt (haslot ▸ ha0)
  have htable : t.itable = s.itable := by rw [ht]; rfl
  have hinodes : ∀ j < sb.ninodes, sb.inodeAt t.disk j = sb.inodeAt s.disk j := fun j hj => by
    rw [ht, disk_setBlock, sb.inodeAt_update hsb hadata hj]
    exact inodeAt_alloced hsb hdata hj
  have hcurt : ∀ j < sb.ninodes, t.cur sb j = s.cur sb j := fun j hj => by
    rw [cur, cur, htable, hinodes j hj]
  -- apart from the indirect block itself, the blocks of the files are as before
  have hdisk : ∀ j l, s.Live sb j → l < NSLOT → s.slot sb j l ≠ 0 → ¬(j = i ∧ l = NDIRECT) →
      t.disk (s.slot sb j l) = s.disk (s.slot sb j l) := fun j l hj hl hne hjl => by
    have hsa : s.slot sb j l ≠ a := fun heq =>
      hjl (h.owned.slot_inj hj h.live hl NDIRECT_lt (heq.trans haslot.symm) hne)
    rw [ht, disk_setBlock, update_of_ne hsa]
    exact h.disk_alloced hsb hlt hb hj hl hne
  have hdiska : t.disk a = (s.disk a).putLE (4 * bn) 4 b := by
    rw [ht, disk_setBlock, update_self, disk_alloced_of_ne hsb hlt hadata hab]
  refine h.acquire hk ?_ hb hb0 (fun j _ => by rw [htable]) (by rw [htable]) (by rw [htable])
    ⟨_, by rw [htable]⟩ hinodes (fun j l hj hl => ?_) ?_ fun j m hj hm hne =>
      hdisk j _ hj (slotIndex_lt hm) hne fun h => slotIndex_ne m h.2
  · rw [slot, slotOf, if_neg (by omega), hcur, ha, if_neg ha0, Nat.add_sub_cancel_left, hempty]
  · rw [slot, slot, hcurt j hj.1]
    rcases eq_or_ne j i with rfl | hji
    · rw [hcur, slotOf, slotOf, ha, if_neg ha0]
      split_ifs with hl' heq heq
      · omega
      · rfl
      · rw [heq.2, Nat.add_sub_cancel_left, hdiska, indirect,
          Bytes.getLE_putLE_same _ _ (by simp only [NINDIRECT, BSIZE] at *; omega)]
        exact Nat.mod_eq_of_lt (hlt.trans (hsb.size_lt.trans (by norm_num)))
      · have hne : l - (NDIRECT + 1) ≠ bn := fun hlb => heq ⟨rfl, by omega⟩
        rw [hdiska, indirect, indirect, Bytes.getLE_putLE_disjoint _ _ (by omega)]
    · rw [if_neg fun h => hji h.1]
      exact slotOf_congr (fun hne => hdisk j NDIRECT hj NDIRECT_lt (by rw [slot_NDIRECT]; exact hne)
        fun h => hji h.1) l
  · funext c
    rw [← used_alloced hsb hlt hdata, used, used, ht, disk_setBlock]
    by_cases hc : c < sb.size
    · rw [sb.bitAt_update hsb hadata hc]
    · simp [hc]

/-! ## `bmap` -/

theorem addrBlock_spec (h : s.Opened sb i) (hsb : sb.Ok) (hk : k < NDIRECT + 1) :
    Ensures (addrBlock sb i k) s
      (fun a t => t.Opened sb i ∧ Grows sb i s t ∧ (a ≠ 0 → t.slot sb i k = a) ∧ (a = 0 → t.Full sb)) := by
  have hcur : s.slot sb i k = (s.itable i).din.addr k := by rw [slot_of_lt hk, cur_of_valid h.valid]
  unfold addrBlock inode
  simp only [bind_assoc, pure_bind]
  rw [get_bind_iff]
  split_ifs with hne
  · exact .pure ⟨h, .refl i s, fun _ => hcur, fun h0 => absurd h0 hne⟩
  refine (balloc_spec s h.owned hsb).bind fun b t hb => ?_
  rcases hb with ⟨rfl, rfl, hfull⟩ | ⟨hb0, hlt, hb, -, rfl⟩
  · rw [if_pos rfl]
    exact .pure ⟨h, .refl i t, fun h0 => absurd rfl h0, fun _ => hfull⟩
  · rw [if_neg hb0, setInode, bind_iff, modify_iff, pure_iff]
    obtain ⟨hl, hg, hs⟩ := h.acquire_addr hsb hk (not_not.1 hne) hlt hb hb0 rfl
    exact ⟨hl, hg, fun _ => hs, fun h0 => absurd h0 hb0⟩

theorem addrBlock_mapped (hne : (s.itable i).din.addr k ≠ 0) :
    addrBlock sb i k s = .ok ((s.itable i).din.addr k, s) := by
  rw [addrBlock, Exec.bind_ok (inode_run i s), if_pos hne]
  rfl

theorem block_of_direct (hv : (s.itable i).valid = true) (hbn : bn < NDIRECT) :
    s.block sb i bn = (s.itable i).din.addr bn := by
  rw [block, slotIndex, if_pos hbn, slot_of_lt (Nat.lt_succ_of_lt hbn), cur_of_valid hv]

theorem block_of_indirect (hv : (s.itable i).valid = true) (hbn : NDIRECT ≤ bn) :
    s.block sb i bn = if (s.itable i).din.addr NDIRECT = 0 then 0
      else indirect (s.disk ((s.itable i).din.addr NDIRECT)) (bn - NDIRECT) := by
  rw [block, slotIndex, if_neg (not_lt.2 hbn), slot, slotOf, if_neg (by omega), cur_of_valid hv,
    show bn + 1 - (NDIRECT + 1) = bn - NDIRECT by omega]

/-- **`bmap` on a mapped block is pure.** -/
theorem bmap_mapped (hv : (s.itable i).valid = true) (hbn : bn < MAXFILE) (hne : s.block sb i bn ≠ 0) :
    bmap sb i bn s = .ok (s.block sb i bn, s) := by
  rw [bmap]
  split_ifs with hd hi
  · rw [block_of_direct hv hd] at hne ⊢
    exact addrBlock_mapped hne
  · have hb : s.block sb i bn = _ := block_of_indirect hv (le_of_not_gt hd)
    have ha : (s.itable i).din.addr NDIRECT ≠ 0 := fun h0 => hne (by rw [hb, if_pos h0])
    rw [if_neg ha] at hb
    rw [hb] at hne ⊢
    rw [Exec.bind_ok (addrBlock_mapped ha), if_neg ha, Exec.bind_ok (Exec.get_run s), if_pos hne]
    rfl
  · exact absurd hbn (by simp only [MAXFILE]; omega)

theorem bmap_grows (h : s.Opened sb i) (hsb : sb.Ok) (hbn : bn < MAXFILE) :
    Ensures (bmap sb i bn) s
      (fun a t => t.Opened sb i ∧ Grows sb i s t ∧ (a ≠ 0 → t.block sb i bn = a) ∧ (a = 0 → t.Full sb)) := by
  unfold bmap
  split_ifs with hd hi
  · have hidx : slotIndex bn = bn := if_pos hd
    simp only [block, hidx]
    exact addrBlock_spec h hsb (Nat.lt_succ_of_lt hd)
  · have hidx : slotIndex bn = NDIRECT + 1 + (bn - NDIRECT) := by
      rw [slotIndex, if_neg hd]
      omega
    refine (addrBlock_spec h hsb (Nat.lt_succ_self _)).bind fun a t ⟨hl, hg, ha, hfull⟩ => ?_
    split_ifs with ha0
    · exact .pure ⟨hl, hg, fun h0 => absurd rfl h0, fun _ => hfull ha0⟩
    have hat : (t.itable i).din.addr NDIRECT = a := by
      rw [← ha ha0, slot_NDIRECT, cur_of_valid hl.valid]
    have hword : t.block sb i bn = indirect (t.disk a) (bn - NDIRECT) := by
      rw [block, hidx, slot, slotOf, if_neg (by omega), cur_of_valid hl.valid, hat, if_neg ha0,
        Nat.add_sub_cancel_left]
    rw [get_bind_iff]
    split_ifs with hw
    · exact .pure ⟨hl, hg, fun _ => hword, fun h0 => absurd h0 hw⟩
    refine (balloc_spec t hl.owned hsb).bind fun b u hb => ?_
    rcases hb with ⟨rfl, rfl, hfull⟩ | ⟨hb0, hlt, hb, -, rfl⟩
    · rw [if_pos rfl]
      exact .pure ⟨hl, hg, fun h0 => absurd rfl h0, fun _ => hfull⟩
    · rw [if_neg hb0, bind_iff, modify_iff, pure_iff]
      obtain ⟨hl', hg', hs'⟩ := hl.acquire_indirect hsb hat ha0 hi (not_not.1 hw) hlt hb hb0 rfl
      exact ⟨hl', hg.trans hg', fun _ => by rw [block, hidx, hs'], fun h0 => absurd h0 hb0⟩
  · exact absurd hbn (by simp only [MAXFILE]; omega)

/-- **`bmap` gives a locked inode the block it asks for**, or 0 if it was not mapped and none is
free. -/
theorem bmap_spec (h : s.Opened sb i) (hsb : sb.Ok) (hbn : bn < MAXFILE) :
    Ensures (bmap sb i bn) s
      (fun a t => t.Opened sb i ∧ Grows sb i s t ∧ (a ≠ 0 → t.block sb i bn = a) ∧
        (a = 0 → s.block sb i bn = 0 ∧ t.Full sb)) := by
  by_cases hne : s.block sb i bn = 0
  · exact (bmap_grows h hsb hbn).imp fun a t ⟨hl, hg, ha, hfull⟩ => ⟨hl, hg, ha, fun h0 => ⟨hne, hfull h0⟩⟩
  · rw [ok_iff (bmap_mapped h.valid hbn hne)]
    exact ⟨h, .refl i s, fun _ => rfl, fun h0 => absurd h0 hne⟩

/-! ## Writing a block of a file -/

theorem Owned.congr (h : s.Owned sb) (hlive : ∀ j, t.Live sb j ↔ s.Live sb j)
    (hslot : ∀ j l, s.Live sb j → l < NSLOT → t.slot sb j l = s.slot sb j l)
    (hused : t.used sb = s.used sb) : t.Owned sb := by
  have hholds : t.holds sb = s.holds sb := by
    funext ⟨j, l⟩
    refine Option.ext fun c => ?_
    rw [holds_eq_some, holds_eq_some, hlive]
    exact and_congr_right fun hj => and_congr_right fun hl => by rw [hslot j l hj hl]
  rw [Owned, hholds, hused]
  exact h

section SetBlock

variable (h : s.Opened sb i) (hsb : sb.Ok) (hbn : bn < MAXFILE) (hne : s.block sb i bn ≠ 0) (x : Block)
include h hsb hbn hne

theorem cur_setBlock (hj : j < sb.ninodes) : (s.setBlock (s.block sb i bn) x).cur sb j = s.cur sb j := by
  have hdata : sb.nmeta ≤ s.block sb i bn := h.owned.nmeta_le h.live (slotIndex_lt hbn) hne
  rw [cur, cur, disk_setBlock, sb.inodeAt_update hsb hdata hj]
  rfl

theorem slot_setBlock (hj : s.Live sb j) (k : ℕ) :
    (s.setBlock (s.block sb i bn) x).slot sb j k = s.slot sb j k := by
  rw [slot, cur_setBlock h hsb hbn hne x hj.1]
  refine slotOf_congr (fun hz => update_of_ne (fun heq => ?_) _ _) k
  have hslot : s.slot sb j NDIRECT = s.slot sb i (slotIndex bn) := slot_NDIRECT.trans heq
  exact slotIndex_ne bn (h.owned.slot_inj hj h.live NDIRECT_lt (slotIndex_lt hbn) hslot
    (by rw [slot_NDIRECT]; exact hz)).2.symm

theorem block_setBlock (hj : s.Live sb j) (m : ℕ) :
    (s.setBlock (s.block sb i bn) x).block sb j m = s.block sb j m :=
  slot_setBlock h hsb hbn hne x hj _

theorem live_setBlock (j : ℕ) : (s.setBlock (s.block sb i bn) x).Live sb j ↔ s.Live sb j :=
  and_congr_right fun hj => by rw [cur_setBlock h hsb hbn hne x hj]

/-- **A block of a locked file is written.** -/
theorem Opened.setBlock : (s.setBlock (s.block sb i bn) x).Opened sb i ∧
    Edits sb i s (s.setBlock (s.block sb i bn) x) := by
  have hdata : sb.nmeta ≤ s.block sb i bn := h.owned.nmeta_le h.live (slotIndex_lt hbn) hne
  have hlive := live_setBlock h hsb hbn hne x
  have hslot : ∀ j l, s.Live sb j → l < NSLOT →
      (s.setBlock (s.block sb i bn) x).slot sb j l = s.slot sb j l :=
    fun j l hj _ => slot_setBlock h hsb hbn hne x hj l
  refine ⟨⟨h.owned.congr hlive hslot ?_, (hlive i).2 h.live, h.valid⟩, ?_⟩
  · funext c
    rw [used, used, disk_setBlock]
    by_cases hc : c < sb.size
    · rw [sb.bitAt_update hsb hdata hc]
    · simp [hc]
  · refine ⟨fun _ _ => rfl, rfl, rfl, ⟨_, rfl⟩, fun j hj => sb.inodeAt_update hsb hdata hj,
      fun j k hj hk _ => hslot j k hj hk, fun j bm hji hj hbm hnz => update_of_ne (fun heq => ?_) _ _⟩
    exact hji (h.owned.slot_inj hj h.live (slotIndex_lt hbm) (slotIndex_lt hbn) heq hnz).1

end SetBlock

end Fs

end Xv6

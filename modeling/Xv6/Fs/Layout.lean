import Xv6.Param
import Mathlib.Data.Fintype.Basic

/-!
# Fs/Layout — the on-disk format of `kernel/fs.h`

An inode is 64 bytes of an inode block, a bit of the free map is a bit of a byte of a bitmap block.
`Superblock.Ok` is the order of the areas: inode blocks, free map, data blocks.
-/

namespace Xv6

open Machinery Function List Nat

/-! ## Constants -/

def NDIRECT : ℕ := 12

def NINDIRECT : ℕ := BSIZE / 4

def MAXFILE : ℕ := NDIRECT + NINDIRECT

def IPB : ℕ := BSIZE / 64

def BPB : ℕ := BSIZE * 8

def DIRSIZ : ℕ := 14

def T_DIR : BitVec 16 := 1
def T_FILE : BitVec 16 := 2
/-- `struct superblock`; the magic number is checked by `fsinit`, the log is not used here. -/
structure Superblock where
  size : ℕ
  nblocks : ℕ
  ninodes : ℕ
  inodestart : ℕ
  bmapstart : ℕ
  deriving DecidableEq, Repr

/-- `struct dinode`, and the fields of `struct inode` that are copies of it. -/
@[ext] structure Dinode where
  type : BitVec 16
  major : BitVec 16
  minor : BitVec 16
  nlink : BitVec 16
  size : BitVec 32
  addrs : Fin (NDIRECT + 1) → BitVec 32
  deriving DecidableEq

namespace Dinode

/-- `memset(dip, 0, sizeof(*dip))`. -/
def zero : Dinode := ⟨0, 0, 0, 0, 0, fun _ => 0⟩

/-- `addrs[k]`. -/
def addr (d : Dinode) (k : ℕ) : ℕ := if h : k < NDIRECT + 1 then (d.addrs ⟨k, h⟩).toNat else 0

/-- `addrs[k] = a`. -/
def setAddr (d : Dinode) (k a : ℕ) : Dinode :=
  { d with addrs := fun j => if j.1 = k then BitVec.ofNat 32 a else d.addrs j }

theorem addr_of_le {d : Dinode} {k : ℕ} (h : NDIRECT + 1 ≤ k) : d.addr k = 0 := dif_neg (not_lt.2 h)

theorem addr_setAddr {d : Dinode} {k a j : ℕ} (hk : k < NDIRECT + 1) (ha : a < 2 ^ 32) :
    (d.setAddr k a).addr j = if j = k then a else d.addr j := by
  rcases eq_or_ne j k with rfl | hj
  · rw [if_pos rfl, addr, dif_pos hk, setAddr]
    simp only [if_pos, BitVec.toNat_ofNat, mod_eq_of_lt ha]
  · simp [addr, setAddr, hj]

/-- The bytes of a `struct dinode`. -/
def bytes (d : Dinode) : List Byte :=
  leBytes 2 d.type.toNat ++ (leBytes 2 d.major.toNat ++ (leBytes 2 d.minor.toNat ++
    (leBytes 2 d.nlink.toNat ++ (leBytes 4 d.size.toNat ++
      leWords 4 (List.ofFn fun k => (d.addrs k).toNat)))))

@[simp] theorem length_bytes (d : Dinode) : d.bytes.length = 64 := by
  simp [bytes, NDIRECT]

/-- The `struct dinode` that some bytes are. -/
def ofBytes (l : List Byte) : Dinode where
  type := BitVec.ofNat 16 (leNat (l.take 2))
  major := BitVec.ofNat 16 (leNat ((l.drop 2).take 2))
  minor := BitVec.ofNat 16 (leNat ((l.drop 4).take 2))
  nlink := BitVec.ofNat 16 (leNat ((l.drop 6).take 2))
  size := BitVec.ofNat 32 (leNat ((l.drop 8).take 4))
  addrs k := BitVec.ofNat 32 (leNat (((l.drop 12).drop (4 * k)).take 4))

theorem leNat_field (pre post : List Byte) (w v i : ℕ) (h : pre.length = i) :
    leNat (((pre ++ (leBytes w v ++ post)).drop i).take w) = v % 256 ^ w := by
  rw [drop_left' h, take_left' (length_leBytes w v), leNat_leBytes]

theorem ofNat_toNat_mod16 (x : BitVec 16) : BitVec.ofNat 16 (x.toNat % 256 ^ 2) = x := by
  rw [show 256 ^ 2 = 2 ^ 16 by norm_num, mod_eq_of_lt x.isLt, BitVec.ofNat_toNat,
    BitVec.setWidth_eq]

theorem ofNat_toNat_mod32 (x : BitVec 32) : BitVec.ofNat 32 (x.toNat % 256 ^ 4) = x := by
  rw [show 256 ^ 4 = 2 ^ 32 by norm_num, mod_eq_of_lt x.isLt, BitVec.ofNat_toNat,
    BitVec.setWidth_eq]

/-- **What was stored is read back.** -/
theorem ofBytes_bytes (d : Dinode) : ofBytes d.bytes = d := by
  have haddrs : d.bytes.drop 12 = leWords 4 (List.ofFn fun k => (d.addrs k).toNat) := by
    simp only [bytes, ← append_assoc]
    rw [drop_left' (by simp)]
  ext1
  case type =>
    exact (congrArg _ (leNat_field [] _ 2 _ 0 rfl)).trans (ofNat_toNat_mod16 _)
  case major =>
    exact (congrArg _ (leNat_field (leBytes 2 d.type.toNat) _ 2 _ 2 (by simp))).trans (ofNat_toNat_mod16 _)
  case minor =>
    have h := leNat_field (leBytes 2 d.type.toNat ++ leBytes 2 d.major.toNat)
      (leBytes 2 d.nlink.toNat ++ (leBytes 4 d.size.toNat ++ d.bytes.drop 12)) 2 d.minor.toNat 4 (by simp)
    rw [haddrs] at h
    simp only [append_assoc] at h
    exact (congrArg _ h).trans (ofNat_toNat_mod16 _)
  case nlink =>
    have h := leNat_field (leBytes 2 d.type.toNat ++ (leBytes 2 d.major.toNat ++
      leBytes 2 d.minor.toNat)) (leBytes 4 d.size.toNat ++ d.bytes.drop 12) 2 d.nlink.toNat 6 (by simp)
    rw [haddrs] at h
    simp only [append_assoc] at h
    exact (congrArg _ h).trans (ofNat_toNat_mod16 _)
  case size =>
    have h := leNat_field (leBytes 2 d.type.toNat ++ (leBytes 2 d.major.toNat ++
      (leBytes 2 d.minor.toNat ++ leBytes 2 d.nlink.toNat))) (d.bytes.drop 12) 4 d.size.toNat 8 (by simp)
    rw [haddrs] at h
    simp only [append_assoc] at h
    exact (congrArg _ h).trans (ofNat_toNat_mod32 _)
  case addrs =>
    funext k
    simp only [ofBytes, haddrs]
    rw [take_drop_leWords (by rw [length_ofFn]; exact k.isLt), leNat_leBytes, get_ofFn]
    exact ofNat_toNat_mod32 _

/-- The `struct dinode` at an offset of a block. -/
def decode (b : Block) (off : ℕ) : Dinode := ofBytes (b.slice off 64)

theorem decode_fill_zero (off : ℕ) : decode (Bytes.fill BSIZE 0) off = zero := by
  rw [decode, Bytes.slice_fill_zero]
  exact Dinode.ext (by decide) (by decide) (by decide) (by decide) (by decide) (funext (by decide))

theorem decode_splice_same (b : Block) {off : ℕ} (d : Dinode) (h : off + 64 ≤ BSIZE) :
    decode (b.splice off d.bytes) off = d := by
  have hslice := Bytes.slice_splice_same b off d.bytes (by simpa using h)
  rw [length_bytes] at hslice
  rw [decode, hslice, ofBytes_bytes]

/-- A store elsewhere is not seen. -/
theorem decode_splice_disjoint (b : Block) {off off' : ℕ} (l : List Byte)
    (h : off + 64 ≤ off' ∨ off' + l.length ≤ off) :
    decode (b.splice off' l) off = decode b off := by
  rw [decode, decode, Bytes.slice_splice_disjoint b l h]

end Dinode

/-! ## Inodes and the free map on the disk -/

namespace Superblock

def nmeta (sb : Superblock) : ℕ := sb.size - sb.nblocks

/-- `IBLOCK(i, sb)`. -/
def iblock (sb : Superblock) (i : ℕ) : ℕ := i / IPB + sb.inodestart

/-- `BBLOCK(b, sb)`. -/
def bblock (sb : Superblock) (b : ℕ) : ℕ := b / BPB + sb.bmapstart

/-- The areas of the disk: inode blocks, free map, data blocks. -/
structure Ok (sb : Superblock) : Prop where
  inodes : ∀ i < sb.ninodes, sb.iblock i < sb.bmapstart
  iblock_lt : ∀ i < sb.ninodes, sb.iblock i < sb.nmeta
  bitmap : ∀ b < sb.size, sb.bblock b < sb.nmeta
  start : 0 < sb.inodestart
  size_lt : sb.size < 2 ^ 31
  ninodes_le : sb.ninodes ≤ 2 ^ 16

/-- The on-disk inode `i`: `(struct dinode*)bp->data + i%IPB`. -/
def inodeAt (sb : Superblock) (d : Disk) (i : ℕ) : Dinode :=
  .decode (d (sb.iblock i)) (64 * (i % IPB))

/-- Store the on-disk inode `i`. -/
def putInode (sb : Superblock) (d : Disk) (i : ℕ) (din : Dinode) : Disk :=
  update d (sb.iblock i) ((d (sb.iblock i)).splice (64 * (i % IPB)) din.bytes)

/-- The byte of the free map with the bit of block `b`, and the mask `m`. -/
def mapByte (sb : Superblock) (d : Disk) (b : ℕ) : Byte := (d (sb.bblock b)).byteAt (b % BPB / 8)

def mask (b : ℕ) : Byte := (1 : Byte) <<< (b % BPB % 8)

/-- `bp->data[bi/8] & m`. -/
def bitAt (sb : Superblock) (d : Disk) (b : ℕ) : Bool := decide (sb.mapByte d b &&& mask b ≠ 0)

def putByte (sb : Superblock) (d : Disk) (b : ℕ) (v : Byte) : Disk :=
  update d (sb.bblock b) ((d (sb.bblock b)).splice (b % BPB / 8) [v])

/-- `bp->data[bi/8] |= m`. -/
def markUsed (sb : Superblock) (d : Disk) (b : ℕ) : Disk := sb.putByte d b (sb.mapByte d b ||| mask b)

/-- `bp->data[bi/8] &= ~m`. -/
def markFree (sb : Superblock) (d : Disk) (b : ℕ) : Disk := sb.putByte d b (sb.mapByte d b &&& ~~~mask b)

variable {sb : Superblock} {d : Disk} {i j b c : ℕ} {din : Dinode} {x : Block}

/-! ## What a store does to the inodes -/

theorem inodeAt_update_of_ne (h : b ≠ sb.iblock i) : sb.inodeAt (update d b x) i = sb.inodeAt d i := by
  rw [inodeAt, inodeAt, update_of_ne h.symm]

theorem inodeAt_putInode (sb : Superblock) (d : Disk) (i : ℕ) (din : Dinode) :
    sb.inodeAt (sb.putInode d i din) = update (sb.inodeAt d) i din := by
  have hmod : ∀ j, 64 * (j % IPB) + 64 ≤ BSIZE := fun j => by
    have : j % IPB < IPB := mod_lt _ (by decide)
    simp only [IPB, BSIZE] at *
    omega
  funext j
  rcases eq_or_ne j i with rfl | hj
  · rw [update_self, inodeAt, putInode, update_self, Dinode.decode_splice_same _ _ (hmod j)]
  · rw [update_of_ne hj, inodeAt, inodeAt, putInode]
    by_cases hb : sb.iblock j = sb.iblock i
    · -- another slot of the same block
      have hslot : j % IPB ≠ i % IPB := by
        intro heq
        simp only [iblock] at hb
        exact hj (by rw [← div_add_mod j IPB, ← div_add_mod i IPB, heq,
          show j / IPB = i / IPB by omega])
      rw [hb, update_self, Dinode.decode_splice_disjoint]
      rw [Dinode.length_bytes]
      omega
    · rw [update_of_ne hb]

theorem inodeAt_update (h : sb.Ok) (hb : sb.nmeta ≤ b) (hi : i < sb.ninodes) :
    sb.inodeAt (update d b x) i = sb.inodeAt d i :=
  inodeAt_update_of_ne (by have := h.iblock_lt i hi; omega)

theorem inodeAt_putByte (h : sb.Ok) (hi : i < sb.ninodes) (v : Byte) :
    sb.inodeAt (sb.putByte d b v) i = sb.inodeAt d i :=
  inodeAt_update_of_ne ((h.inodes i hi).trans_le (Nat.le_add_left _ _)).ne'

/-! ## What a store does to the free map -/

theorem bitAt_update_of_ne (h : b ≠ sb.bblock c) : sb.bitAt (update d b x) c = sb.bitAt d c := by
  rw [bitAt, bitAt, mapByte, mapByte, update_of_ne h.symm]

theorem bitAt_update (h : sb.Ok) (hb : sb.nmeta ≤ b) (hc : c < sb.size) :
    sb.bitAt (update d b x) c = sb.bitAt d c :=
  bitAt_update_of_ne (by have := h.bitmap c hc; omega)

theorem bitAt_putInode (h : sb.Ok) (hi : i < sb.ninodes) : sb.bitAt (sb.putInode d i din) c = sb.bitAt d c :=
  bitAt_update_of_ne ((h.inodes i hi).trans_le (Nat.le_add_left _ _)).ne

theorem mapByte_putByte (d : Disk) (b c : ℕ) (v : Byte) : sb.mapByte (sb.putByte d b v) c =
    if sb.bblock c = sb.bblock b ∧ c % BPB / 8 = b % BPB / 8 then v else sb.mapByte d c := by
  have hlt : c % BPB / 8 < BSIZE := by
    have : c % BPB < BPB := mod_lt _ (by decide)
    simp only [BPB, BSIZE] at *
    omega
  rw [mapByte, mapByte, putByte]
  by_cases hb : sb.bblock c = sb.bblock b
  · rw [hb, update_self, Bytes.byteAt_splice _ _ _ hlt]
    by_cases hoff : c % BPB / 8 = b % BPB / 8
    · simp [hoff]
    · rw [if_neg (by simp only [length_singleton]; omega), if_neg (fun h => hoff h.2)]
  · rw [update_of_ne hb, if_neg (fun h => hb h.1)]

theorem getLsbD_mask (b : ℕ) {k : ℕ} (hk : k < 8) : (mask b).getLsbD k = decide (k = b % BPB % 8) := by
  have hall : ∀ m k : Fin 8, ((1 : Byte) <<< m.1).getLsbD k.1 = decide (k.1 = m.1) := by decide
  exact hall ⟨b % BPB % 8, mod_lt _ (by decide)⟩ ⟨k, hk⟩

theorem bitAt_eq (d : Disk) (b : ℕ) : sb.bitAt d b = (sb.mapByte d b).getLsbD (b % BPB % 8) := by
  have hb : b % BPB % 8 < 8 := mod_lt _ (by decide)
  have hand : ∀ k < 8, (sb.mapByte d b &&& mask b).getLsbD k =
      ((sb.mapByte d b).getLsbD k && decide (k = b % BPB % 8)) := fun k hk => by
    rw [BitVec.getLsbD_and, getLsbD_mask b hk]
  cases hbit : (sb.mapByte d b).getLsbD (b % BPB % 8) with
  | true =>
    refine decide_eq_true fun hzero => ?_
    have := hand _ hb
    rw [hzero, hbit] at this
    simp at this
  | false =>
    refine decide_eq_false (not_not.2 (BitVec.eq_of_getLsbD_eq fun k hk => ?_))
    rw [hand k hk]
    rcases eq_or_ne k (b % BPB % 8) with rfl | hne
    · simp [hbit]
    · simp [hne]

theorem eq_of_bit (hblock : sb.bblock c = sb.bblock b) (hbyte : c % BPB / 8 = b % BPB / 8)
    (hbit : c % BPB % 8 = b % BPB % 8) : c = b := by
  have hdiv : c / BPB = b / BPB := Nat.add_right_cancel hblock
  have hmod : c % BPB = b % BPB := by omega
  rw [← div_add_mod c BPB, ← div_add_mod b BPB, hdiv, hmod]

theorem bitAt_putByte (d : Disk) (b c : ℕ) (v : Byte)
    (hother : ∀ k < 8, k ≠ b % BPB % 8 → v.getLsbD k = (sb.mapByte d b).getLsbD k) :
    sb.bitAt (sb.putByte d b v) c = if c = b then v.getLsbD (b % BPB % 8) else sb.bitAt d c := by
  rw [bitAt_eq, bitAt_eq, mapByte_putByte]
  rcases eq_or_ne c b with rfl | hc
  · simp
  rw [if_neg hc]
  split_ifs with hsame
  · obtain ⟨hblock, hbyte⟩ := hsame
    rw [hother _ (mod_lt _ (by decide)) fun hbit => hc (eq_of_bit hblock hbyte hbit)]
    rw [mapByte, mapByte, hblock, hbyte]
  · rfl

/-- **Marking a block as used.** -/
theorem bitAt_markUsed (d : Disk) (b : ℕ) : sb.bitAt (sb.markUsed d b) = update (sb.bitAt d) b true := by
  have hb : b % BPB % 8 < 8 := mod_lt _ (by decide)
  funext c
  rw [markUsed, bitAt_putByte, update_apply]
  · simp [BitVec.getLsbD_or, getLsbD_mask b hb]
  · intro k hk hne
    simp [BitVec.getLsbD_or, getLsbD_mask b hk, hne]

/-- **Marking a block as free.** -/
theorem bitAt_markFree (d : Disk) (b : ℕ) : sb.bitAt (sb.markFree d b) = update (sb.bitAt d) b false := by
  have hb : b % BPB % 8 < 8 := mod_lt _ (by decide)
  funext c
  rw [markFree, bitAt_putByte, update_apply]
  · simp [BitVec.getLsbD_and, getLsbD_mask b hb]
  · intro k hk hne
    rw [BitVec.getLsbD_and, BitVec.getLsbD_not, getLsbD_mask b hk]
    simp [hne, hk]

/-! ## What a store does to the data blocks -/

theorem putByte_of_le (h : sb.Ok) (hb : b < sb.size) (hc : sb.nmeta ≤ c) (v : Byte) :
    sb.putByte d b v c = d c :=
  update_of_ne ((h.bitmap b hb).trans_le hc).ne' _ _

theorem putInode_of_le (h : sb.Ok) (hi : i < sb.ninodes) (hc : sb.nmeta ≤ c) :
    sb.putInode d i din c = d c :=
  update_of_ne ((h.iblock_lt i hi).trans_le hc).ne' _ _

end Superblock

end Xv6

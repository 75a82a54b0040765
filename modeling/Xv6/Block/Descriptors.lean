import Xv6.Machinery.Ring
import Xv6.Param
import Mathlib.Data.List.Nodup

/-!
# Block/Descriptors — the descriptors and rings that the driver shares with the disk

The `struct disk` of `kernel/virtio_disk.c`, its allocator, and the part of `virtio_disk_rw` that
formats a request.  A panic is an `Except.error`.  Arrays of `NUM` elements are functions on `ℕ`;
only `free_desc` compares its index with `NUM`.
-/

namespace Xv6

open Machinery Function List

def NUM : ℕ := 8

def VRING_DESC_F_NEXT : ℕ := 1
def VRING_DESC_F_WRITE : ℕ := 2
def VIRTIO_BLK_T_IN : ℕ := 0
def VIRTIO_BLK_T_OUT : ℕ := 1

/-- Incrementing a `uint16`. -/
def incr16 (i : ℕ) : ℕ := (i + 1) % 2 ^ 16

theorem incr16_lt (i : ℕ) : incr16 i < 2 ^ 16 := Nat.mod_lt _ (Nat.two_pow_pos 16)

/-- What a descriptor points to. -/
inductive DmaAddr (Buf : Type)
  | null
  /-- `&disk.ops[i]`. -/
  | op (i : ℕ)
  /-- `b->data`. -/
  | data (b : Buf)
  /-- `&disk.info[i].status`. -/
  | status (i : ℕ)
  deriving DecidableEq, Repr

/-- `struct virtq_desc`. -/
structure VirtqDesc (Buf : Type) where
  addr : DmaAddr Buf
  len : ℕ
  flags : ℕ
  next : ℕ
  deriving DecidableEq, Repr

/-- `struct virtq_avail` and `struct virtq_used`: a `uint16` counter and descriptor numbers. -/
structure VirtqRing where
  idx : ℕ
  ring : ℕ → ℕ

/-- Write the entry that `idx` is at. -/
def VirtqRing.put (v : VirtqRing) (i : ℕ) : VirtqRing := { v with ring := update v.ring (v.idx % NUM) i }

/-- Increment `idx`. -/
def VirtqRing.advance (v : VirtqRing) : VirtqRing := { v with idx := incr16 v.idx }

/-- The entries from counter `i` to `idx`. -/
def VirtqRing.pending (v : VirtqRing) (i : ℕ) : List ℕ := Ring.contents (2 ^ 16) NUM v.ring i v.idx

/-- `struct virtio_blk_req`. -/
structure VirtioBlkReq where
  type : ℕ
  reserved : ℕ
  sector : ℕ
  deriving DecidableEq, Repr

/-- `disk.info[i]`. -/
structure DiskInfo (Buf : Type) where
  b : Option Buf
  status : ℕ

/-- `struct disk`, with the queue memory. -/
structure VirtioDisk (Buf : Type) where
  desc : ℕ → VirtqDesc Buf
  avail : VirtqRing
  used : VirtqRing
  free : ℕ → Bool
  usedIdx : ℕ
  info : ℕ → DiskInfo Buf
  ops : ℕ → VirtioBlkReq

/-- The arguments of `virtio_disk_rw` and its `idx[3]`. -/
structure DiskReq (Buf : Type) where
  b : Buf
  write : Bool
  head : ℕ
  data : ℕ
  status : ℕ
  deriving DecidableEq, Repr

/-- The array `idx`. -/
def DiskReq.idx {Buf : Type} (r : DiskReq Buf) : List ℕ := [r.head, r.data, r.status]

theorem DiskReq.head_mem {Buf : Type} (r : DiskReq Buf) : r.head ∈ r.idx := mem_cons_self

namespace VirtqRing

variable {v : VirtqRing} {i : ℕ}

theorem ring_put (v : VirtqRing) (i : ℕ) : (v.put i).ring (v.idx % NUM) = i := by
  simp [put]

theorem pending_eq_nil (hi : i < 2 ^ 16) (hv : v.idx < 2 ^ 16) : v.pending i = [] ↔ i = v.idx := by
  rw [← Ring.count_eq_zero hi hv, ← length_eq_zero_iff, pending, Ring.length_contents]

theorem pending_put (hi : i < 2 ^ 16) (hv : v.idx < 2 ^ 16) (hlt : (v.pending i).length < NUM) (j : ℕ) :
    (v.put j).pending i = v.pending i :=
  Ring.contents_write _ (by norm_num [NUM]) hi hv (Ring.length_contents ▸ hlt) j

theorem pending_advance (hi : i < 2 ^ 16) (hv : v.idx < 2 ^ 16) (hle : (v.pending i).length ≤ NUM) :
    v.advance.pending i = v.pending i ++ [v.ring (v.idx % NUM)] := by
  rw [pending, Ring.length_contents] at hle
  exact Ring.contents_advance _ (by norm_num [NUM]) hi hv
    (lt_of_le_of_lt (Nat.succ_le_succ hle) (by norm_num [NUM]))

theorem pending_pop (hi : i < 2 ^ 16) (hv : v.idx < 2 ^ 16) (hne : v.pending i ≠ []) :
    v.pending i = v.ring (i % NUM) :: v.pending (incr16 i) :=
  Ring.contents_pop _ (by norm_num [NUM]) hi hv (mt (pending_eq_nil hi hv).2 hne)

end VirtqRing

namespace VirtioDisk

variable {Buf : Type} {d d' : VirtioDisk Buf} {i : ℕ} {idx : List ℕ}

/-- After `virtio_disk_init`. -/
def start : VirtioDisk Buf where
  desc _ := ⟨.null, 0, 0, 0⟩
  avail := ⟨0, fun _ => 0⟩
  used := ⟨0, fun _ => 0⟩
  free i := decide (i < NUM)
  usedIdx := 0
  info _ := ⟨none, 0⟩
  ops _ := ⟨0, 0, 0⟩

/-! ## Allocating and freeing -/

def allocDesc (d : VirtioDisk Buf) : Option (ℕ × VirtioDisk Buf) :=
  ((List.range NUM).find? d.free).map fun i => (i, { d with free := update d.free i false })

def freeDesc (d : VirtioDisk Buf) (i : ℕ) : Except String (VirtioDisk Buf) :=
  if NUM ≤ i then .error "free_desc 1"
  else if d.free i then .error "free_desc 2"
  else .ok { d with desc := update d.desc i ⟨.null, 0, 0, 0⟩, free := update d.free i true }

/-- The loop of `free_chain`, and the descriptors it freed.  A second visit panics, so `NUM + 1`
rounds are enough. -/
def freeLoop : ℕ → VirtioDisk Buf → ℕ → Except String (VirtioDisk Buf × List ℕ)
  | 0, d, _ => .ok (d, [])
  | fuel + 1, d, i => do
    let flag := (d.desc i).flags
    let nxt := (d.desc i).next
    let d ← d.freeDesc i
    if flag &&& VRING_DESC_F_NEXT ≠ 0 then
      let (d, freed) ← freeLoop fuel d nxt
      return (d, i :: freed)
    else
      return (d, [i])

def freeChain (d : VirtioDisk Buf) (i : ℕ) : Except String (VirtioDisk Buf × List ℕ) :=
  freeLoop (NUM + 1) d i

/-- The loop of `alloc3_desc`, with `todo` iterations to come and `idx` allocated so far. -/
def allocLoop : ℕ → List ℕ → VirtioDisk Buf → Except String (VirtioDisk Buf × Option (List ℕ))
  | 0, idx, d => .ok (d, some idx)
  | todo + 1, idx, d =>
    match d.allocDesc with
    | some (i, d) => allocLoop todo (idx ++ [i]) d
    | none => do
      let d ← idx.foldlM freeDesc d
      return (d, none)

def alloc3Desc (d : VirtioDisk Buf) : Except String (VirtioDisk Buf × Option (List ℕ)) :=
  allocLoop 3 [] d

/-- `disk` after `free_desc` of each of `idx`. -/
def freed (d : VirtioDisk Buf) (idx : List ℕ) : VirtioDisk Buf :=
  { d with
    desc := fun i => if i ∈ idx then ⟨.null, 0, 0, 0⟩ else d.desc i
    free := fun i => d.free i || decide (i ∈ idx) }

/-- `disk` after `alloc_desc` has returned each of `idx`. -/
def taken (d : VirtioDisk Buf) (idx : List ℕ) : VirtioDisk Buf :=
  { d with free := fun i => d.free i && decide (i ∉ idx) }

theorem allocDesc_some (h : d.allocDesc = some (i, d')) :
    i < NUM ∧ d.free i = true ∧ d' = d.taken [i] := by
  obtain ⟨j, hj, heq⟩ := Option.map_eq_some_iff.1 h
  obtain ⟨rfl, rfl⟩ := Prod.mk.inj heq
  refine ⟨mem_range.1 (mem_of_find?_eq_some hj), List.find?_some hj, ?_⟩
  rw [taken]
  congr 1
  ext k
  by_cases hk : k = j <;> simp [hk]

theorem freeDesc_ok (hi : i < NUM) (hfree : d.free i = false) : d.freeDesc i = .ok (d.freed [i]) := by
  rw [freeDesc, if_neg (Nat.not_le.2 hi), if_neg (by simp [hfree]), freed]
  congr 2
  · ext k
    by_cases hk : k = i <;> simp [hk]
  · ext k
    by_cases hk : k = i <;> simp [hk]

theorem freed_freed (d : VirtioDisk Buf) (idx more : List ℕ) :
    (d.freed idx).freed more = d.freed (idx ++ more) := by
  simp only [freed, mk.injEq, and_self, true_and, and_true]
  constructor
  · ext k : 1
    by_cases hk : k ∈ more <;> simp [hk]
  · ext k
    simp [Bool.or_assoc]

theorem taken_taken (d : VirtioDisk Buf) (idx more : List ℕ) :
    (d.taken idx).taken more = d.taken (idx ++ more) := by
  simp only [taken, mk.injEq, and_self, true_and, and_true]
  ext k
  simp [Bool.and_assoc]

/-- Freeing distinct descriptors that are not free. -/
theorem foldlM_freeDesc (hnd : idx.Nodup) (hlt : ∀ i ∈ idx, i < NUM)
    (hfree : ∀ i ∈ idx, d.free i = false) : idx.foldlM freeDesc d = .ok (d.freed idx) := by
  induction idx generalizing d with
  | nil => simp [freed, pure, Except.pure]
  | cons i idx ih =>
    obtain ⟨hi, hnd⟩ := nodup_cons.1 hnd
    rw [foldlM_cons, freeDesc_ok (hlt i mem_cons_self) (hfree i mem_cons_self)]
    change idx.foldlM freeDesc (d.freed [i]) = _
    rw [ih hnd (fun j hj => hlt j (mem_cons_of_mem _ hj)), freed_freed, singleton_append]
    intro j hj
    have hji : j ≠ i := fun heq => hi (heq ▸ hj)
    simp [freed, hji, hfree j (mem_cons_of_mem _ hj)]

/-- The result of the loop of `alloc3_desc`: all or nothing. -/
inductive Allocated (d : VirtioDisk Buf) : VirtioDisk Buf × Option (List ℕ) → Prop
  | all {idx : List ℕ} (hnd : idx.Nodup) (hlen : idx.length = 3)
      (hfree : ∀ i ∈ idx, i < NUM ∧ d.free i = true) : Allocated d (d.taken idx, some idx)
  | nothing {idx : List ℕ} (hfree : ∀ i ∈ idx, d.free i = true) :
      Allocated d ((d.taken idx).freed idx, none)

theorem allocLoop_spec (todo : ℕ) (hnd : idx.Nodup) (hlen : idx.length + todo = 3)
    (hfree : ∀ i ∈ idx, i < NUM ∧ d.free i = true) :
    ∃ res, allocLoop todo idx (d.taken idx) = .ok res ∧ d.Allocated res := by
  induction todo generalizing idx with
  | zero => exact ⟨_, rfl, .all hnd hlen hfree⟩
  | succ todo ih =>
    rw [allocLoop]
    cases h : (d.taken idx).allocDesc with
    | none =>
      refine ⟨_, ?_, .nothing fun i hi => (hfree i hi).2⟩
      simp only
      rw [foldlM_freeDesc hnd fun i hi => (hfree i hi).1]
      · rfl
      · intro i hi
        simp [taken, hi]
    | some res =>
      obtain ⟨j, d'⟩ := res
      obtain ⟨hj, hjfree, rfl⟩ := allocDesc_some h
      obtain ⟨hjd, hji⟩ : d.free j = true ∧ j ∉ idx := by simpa [taken] using hjfree
      simp only
      rw [taken_taken]
      refine ih (nodup_append.2 ⟨hnd, nodup_singleton _, ?_⟩) ?_ ?_
      · rintro i hi _ hmem rfl
        exact hji (mem_singleton.1 hmem ▸ hi)
      · simp only [length_append, length_singleton]
        omega
      · intro i hi
        rcases mem_append.1 hi with hi | hi
        · exact hfree i hi
        · exact mem_singleton.1 hi ▸ ⟨hj, hjd⟩

theorem taken_nil (d : VirtioDisk Buf) : d.taken [] = d := by
  simp [taken]

/-- **`alloc3_desc` never panics**, and takes three descriptors or none. -/
theorem alloc3Desc_spec (d : VirtioDisk Buf) : ∃ res, d.alloc3Desc = .ok res ∧ d.Allocated res := by
  have := allocLoop_spec (d := d) 3 nodup_nil rfl (by simp)
  rwa [taken_nil] at this

theorem free_freed_taken (hfree : ∀ i ∈ idx, d.free i = true) :
    ((d.taken idx).freed idx).free = d.free := by
  ext k
  by_cases hk : k ∈ idx <;> simp [freed, taken, hk, hfree]

/-! ## Formatting a request -/

/-- The descriptors, `ops` and `info` of a request, and its entry of the avail ring, not announced
yet. -/
def format (blockno : Buf → ℕ) (d : VirtioDisk Buf) (r : DiskReq Buf) : VirtioDisk Buf :=
  { d with
    ops := update d.ops r.head
      { type := if r.write then VIRTIO_BLK_T_OUT else VIRTIO_BLK_T_IN
        reserved := 0
        sector := blockno r.b * (BSIZE / 512) % 2 ^ 32 }
    desc := update (update (update d.desc
        r.head ⟨.op r.head, 16, VRING_DESC_F_NEXT, r.data⟩)
        r.data ⟨.data r.b, BSIZE, (if r.write then 0 else VRING_DESC_F_WRITE) ||| VRING_DESC_F_NEXT,
          r.status⟩)
        r.status ⟨.status r.head, 1, VRING_DESC_F_WRITE, 0⟩
    info := update d.info r.head ⟨some r.b, 0xff⟩
    avail := d.avail.put r.head }

/-- **The three descriptors of a request**, linked: header, data, status byte. -/
structure Linked (d : VirtioDisk Buf) (r : DiskReq Buf) : Prop where
  head : d.desc r.head = ⟨.op r.head, 16, VRING_DESC_F_NEXT, r.data⟩
  data : d.desc r.data = ⟨.data r.b, BSIZE,
    (if r.write then 0 else VRING_DESC_F_WRITE) ||| VRING_DESC_F_NEXT, r.status⟩
  status : d.desc r.status = ⟨.status r.head, 1, VRING_DESC_F_WRITE, 0⟩

/-- The descriptors of a request with its header and `info[idx[0]].b`. -/
structure Chain (blockno : Buf → ℕ) (d : VirtioDisk Buf) (r : DiskReq Buf) : Prop
    extends Linked d r where
  op : d.ops r.head = ⟨if r.write then VIRTIO_BLK_T_OUT else VIRTIO_BLK_T_IN, 0,
    blockno r.b * (BSIZE / 512) % 2 ^ 32⟩
  buf : (d.info r.head).b = some r.b

variable {blockno : Buf → ℕ} {r q : DiskReq Buf}

theorem chain_format (hnd : r.idx.Nodup) : Chain blockno (d.format blockno r) r := by
  obtain ⟨hhd, hhs, hds⟩ : r.head ≠ r.data ∧ r.head ≠ r.status ∧ r.data ≠ r.status := by
    simpa [DiskReq.idx, and_assoc] using hnd
  exact ⟨⟨by simp [format, hhd, hhs], by simp [format, hds], by simp [format]⟩, by simp [format],
    by simp [format]⟩

theorem Chain.congr (h : Chain blockno d q) (hdesc : ∀ i ∈ q.idx, d'.desc i = d.desc i)
    (hops : d'.ops q.head = d.ops q.head) (hinfo : (d'.info q.head).b = (d.info q.head).b) :
    Chain blockno d' q :=
  ⟨⟨(hdesc _ q.head_mem).trans h.head, (hdesc _ (by simp [DiskReq.idx])).trans h.data,
    (hdesc _ (by simp [DiskReq.idx])).trans h.status⟩, hops.trans h.op, hinfo.trans h.buf⟩

theorem Chain.format (h : Chain blockno d q) (hdisj : ∀ i ∈ q.idx, i ∉ r.idx) :
    Chain blockno (d.format blockno r) q := by
  have hne : ∀ i ∈ q.idx, i ≠ r.head ∧ i ≠ r.data ∧ i ≠ r.status := fun i hi => by
    simpa [DiskReq.idx] using hdisj i hi
  have hhead : q.head ≠ r.head := (hne _ q.head_mem).1
  refine h.congr (fun i hi => ?_) (update_of_ne hhead _ _) ?_
  · obtain ⟨h1, h2, h3⟩ := hne i hi
    simp [VirtioDisk.format, h1, h2, h3]
  · simp [VirtioDisk.format, hhead]

/-- **`free_chain` frees the three descriptors of its request.** -/
theorem freeChain_spec (h : Linked d r) (hnd : r.idx.Nodup) (hlt : ∀ i ∈ r.idx, i < NUM)
    (hfree : ∀ i ∈ r.idx, d.free i = false) : d.freeChain r.head = .ok (d.freed r.idx, r.idx) := by
  obtain ⟨hhd, hhs, hds⟩ : r.head ≠ r.data ∧ r.head ≠ r.status ∧ r.data ≠ r.status := by
    simpa [DiskReq.idx, and_assoc] using hnd
  have hhead := freeDesc_ok (hlt _ r.head_mem) (hfree _ r.head_mem)
  have hdata : (d.freed [r.head]).freeDesc r.data = .ok (d.freed [r.head, r.data]) := by
    rw [freeDesc_ok (hlt r.data (by simp [DiskReq.idx])), freed_freed]
    · rfl
    · simp [freed, hhd.symm, hfree r.data (by simp [DiskReq.idx])]
  have hstatus : (d.freed [r.head, r.data]).freeDesc r.status = .ok (d.freed r.idx) := by
    rw [freeDesc_ok (hlt r.status (by simp [DiskReq.idx])), freed_freed]
    · rfl
    · simp [freed, hhs.symm, hds.symm, hfree r.status (by simp [DiskReq.idx])]
  have hdesc1 : (d.freed [r.head]).desc r.data = d.desc r.data := by simp [freed, hhd.symm]
  have hdesc2 : (d.freed [r.head, r.data]).desc r.status = d.desc r.status := by
    simp [freed, hhs.symm, hds.symm]
  have hflag : ((if r.write then 0 else VRING_DESC_F_WRITE) ||| VRING_DESC_F_NEXT) &&&
      VRING_DESC_F_NEXT ≠ 0 := by
    cases r.write <;> decide
  have hlast : ¬ VRING_DESC_F_WRITE &&& VRING_DESC_F_NEXT ≠ 0 := by decide
  have hfirst : VRING_DESC_F_NEXT &&& VRING_DESC_F_NEXT ≠ 0 := by decide
  simp only [freeChain, NUM, freeLoop, bind, Except.bind, pure, Except.pure, hhead, h.head, hdesc1,
    h.data, hdata, hdesc2, h.status, hstatus, if_pos hflag, if_neg hlast, if_pos hfirst, DiskReq.idx]

end VirtioDisk

end Xv6

import Xv6.Fs.Owner

/-!
# Fs/Content — what `readi` and `writei` do to files

`Fs.node` is what a program can see of an inode.  `readi` returns a piece of its bytes and leaves
the state alone; `writei` replaces bytes of one inode and leaves all others alone.
-/

namespace Xv6

open Machinery Function Ensures List Exec Superblock

/-- What a program can see of an inode. -/
@[ext] structure Node where
  type : BitVec 16
  major : BitVec 16
  minor : BitVec 16
  nlink : BitVec 16
  data : List Byte

namespace Fs

variable (sb : Superblock) (s : Fs)

def byteOf (i off : ℕ) : Byte := (s.disk (s.block sb i (off / BSIZE))).byteAt (off % BSIZE)

def dataOf (i : ℕ) : List Byte := (List.range (s.sizeOf sb i)).map (s.byteOf sb i)

/-- The inode with number `i`, if it is allocated. -/
def node (i : ℕ) : Option Node :=
  if s.Live sb i then
    some ⟨(s.cur sb i).type, (s.cur sb i).major, (s.cur sb i).minor, (s.cur sb i).nlink, s.dataOf sb i⟩
  else none

/-- The valid in-memory inodes are allocated and agree with the disk. -/
def Synced : Prop := ∀ i, (s.itable i).valid = true → s.Live sb i ∧ sb.inodeAt s.disk i = (s.itable i).din

variable {sb s} {t u : Fs} {i j off n tot : ℕ}

@[simp] theorem length_dataOf : (s.dataOf sb i).length = s.sizeOf sb i := by simp [dataOf]

theorem node_of_live (h : s.Live sb i) : s.node sb i =
    some ⟨(s.cur sb i).type, (s.cur sb i).major, (s.cur sb i).minor, (s.cur sb i).nlink, s.dataOf sb i⟩ :=
  if_pos h

theorem node_eq_none : s.node sb i = none ↔ ¬s.Live sb i := by
  rw [node]
  split_ifs with h
  · exact iff_of_false nofun (not_not.2 h)
  · exact iff_of_true rfl h

theorem HoleFree.mapped_div (h : s.HoleFree sb i) (hoff : off < s.sizeOf sb i) :
    off / BSIZE < MAXFILE ∧ s.block sb i (off / BSIZE) ≠ 0 := by
  have hle := h.size_le
  have hdiv : off / BSIZE * BSIZE ≤ off := Nat.div_mul_le_self _ _
  exact ⟨Nat.div_lt_of_lt_mul (by rw [mul_comm]; omega), h.mapped _ (by omega)⟩

theorem NoHoles.mapped_div (h : s.NoHoles sb) (hi : s.Live sb i) (hoff : off < s.sizeOf sb i) :
    off / BSIZE < MAXFILE ∧ s.block sb i (off / BSIZE) ≠ 0 :=
  (h.holeFree hi).mapped_div hoff

theorem div_mod_add {k : ℕ} (h : off % BSIZE + k < BSIZE) :
    (off + k) / BSIZE = off / BSIZE ∧ (off + k) % BSIZE = off % BSIZE + k := by
  simp only [BSIZE] at *
  omega

theorem slice_block (h : off % BSIZE + n ≤ BSIZE) (hsize : off + n ≤ s.sizeOf sb i) :
    (s.disk (s.block sb i (off / BSIZE))).slice (off % BSIZE) n = ((s.dataOf sb i).drop off).take n := by
  refine ext_getElem (by simp; omega) fun k h1 h2 => ?_
  rw [Bytes.length_slice] at h1
  obtain ⟨hdiv, hmod⟩ := div_mod_add (show off % BSIZE + k < BSIZE by omega)
  simp only [Bytes.slice, dataOf, getElem_map, getElem_range, getElem_take, getElem_drop]
  rw [byteOf, hdiv, hmod]

/-! ## `readi` -/

theorem readLoop_spec (hv : (s.itable i).valid = true) (fault : ℕ → ℕ → Bool) (fuel off tot : ℕ)
    (got : List Byte) (hfuel : n - tot ≤ fuel) (htot : tot ≤ n) (hsize : off + (n - tot) ≤ s.sizeOf sb i)
    (hmapped : ∀ x, off ≤ x → x < off + (n - tot) → x / BSIZE < MAXFILE ∧ s.block sb i (x / BSIZE) ≠ 0) :
    ∃ r, readLoop sb i fault fuel off n tot got s = .ok (r, s) ∧
      ((∀ tot m, fault tot m = false) →
        r = ((n : ℤ), got ++ ((s.dataOf sb i).drop off).take (n - tot))) := by
  induction fuel generalizing off tot got with
  | zero =>
    obtain rfl : tot = n := by omega
    exact ⟨_, rfl, fun _ => by simp⟩
  | succ fuel ih =>
    rw [readLoop]
    by_cases hlt : tot < n
    · obtain ⟨hmax, hne⟩ := hmapped off le_rfl (by omega)
      have hmod : off % BSIZE < BSIZE := Nat.mod_lt _ (by decide)
      rw [if_pos hlt, bind_ok (bmap_mapped hv hmax hne), if_neg hne, bind_ok (get_run s)]
      have hm : piece off n tot = min (n - tot) (BSIZE - off % BSIZE) := rfl
      generalize piece off n tot = m at *
      by_cases hf : fault tot m = true
      · rw [if_pos hf]
        exact ⟨_, rfl, fun hno => by rw [hno] at hf; cases hf⟩
      · rw [if_neg hf]
        have hm1 : 1 ≤ m := by omega
        obtain ⟨r, hr, hval⟩ := ih (off + m) (tot + m)
          (got ++ (s.disk (s.block sb i (off / BSIZE))).slice (off % BSIZE) m) (by omega) (by omega)
          (by omega) fun x h1 h2 => hmapped x (by omega) (by omega)
        refine ⟨r, hr, fun hno => ?_⟩
        rw [hval hno, slice_block (by omega) (by omega), append_assoc,
          show n - tot = m + (n - (tot + m)) by omega, take_add, drop_drop]
    · obtain rfl : tot = n := by omega
      rw [if_neg hlt]
      exact ⟨_, rfl, fun _ => by simp⟩

/-- Reading mapped blocks is pure, wherever copying faults; without a fault it returns the bytes. -/
theorem readi_mapped (hv : (s.itable i).valid = true) (fault : ℕ → ℕ → Bool) (hoff : off < 2 ^ 32)
    (hn : n < 2 ^ 32) (hmapped : ∀ x, off ≤ x → x < off + n → x < s.sizeOf sb i →
      x / BSIZE < MAXFILE ∧ s.block sb i (x / BSIZE) ≠ 0) :
    ∃ r, readi sb i fault off n s = .ok (r, s) ∧ ((∀ tot m, fault tot m = false) →
      r = if s.sizeOf sb i < off ∨ 2 ^ 32 ≤ off + n then (0, [])
        else (((min n (s.sizeOf sb i - off) : ℕ) : ℤ), ((s.dataOf sb i).drop off).take n)) := by
  have hsize := sizeOf_of_valid sb hv
  have hover : (off + n) % 2 ^ 32 < off ↔ 2 ^ 32 ≤ off + n := by omega
  rw [readi, bind_ok (inode_run i s), ← hsize]
  by_cases hout : s.sizeOf sb i < off ∨ 2 ^ 32 ≤ off + n
  · rw [if_pos (hout.imp_right hover.2)]
    exact ⟨_, rfl, fun _ => by rw [if_pos hout]⟩
  · rw [if_neg (mt (Or.imp_right hover.1) hout)]
    have hn' : (if s.sizeOf sb i < (off + n) % 2 ^ 32 then s.sizeOf sb i - off else n) =
        min n (s.sizeOf sb i - off) := by
      split_ifs <;> omega
    rw [hn']
    obtain ⟨r, hr, hval⟩ := readLoop_spec hv fault (min n (s.sizeOf sb i - off)) off 0 []
      (le_of_eq (Nat.sub_zero _)) zero_le (by omega)
      fun x h1 h2 => hmapped x h1 (by omega) (by omega)
    refine ⟨r, hr, fun hno => ?_⟩
    rw [if_neg hout, hval hno, nil_append, Nat.sub_zero, ← take_take]
    have hlen : (((s.dataOf sb i).drop off).take (s.sizeOf sb i - off)) = (s.dataOf sb i).drop off :=
      take_of_length_le (by simp)
    rw [hlen]

/-- **Reading a file is pure**, wherever copying faults; without a fault it returns the bytes. -/
theorem readi_pure (h : s.Locked sb i) (fault : ℕ → ℕ → Bool) (hoff : off < 2 ^ 32) (hn : n < 2 ^ 32) :
    ∃ r, readi sb i fault off n s = .ok (r, s) ∧ ((∀ tot m, fault tot m = false) →
      r = if s.sizeOf sb i < off ∨ 2 ^ 32 ≤ off + n then (0, [])
        else (((min n (s.sizeOf sb i - off) : ℕ) : ℤ), ((s.dataOf sb i).drop off).take n)) :=
  readi_mapped h.valid fault hoff hn fun _ _ _ hx => h.noHoles.mapped_div h.live hx

/-! ## Updating an inode -/

/-- The state after the fields of `*ip` are assigned and `iupdate(ip)`. -/
def store (sb : Superblock) (s : Fs) (i : ℕ) (ip : Dinode) : Fs :=
  { s.setEntry i { s.itable i with din := ip } with disk := sb.putInode s.disk i ip }

variable {ip : Dinode} {len all : ℕ}

theorem update_inode {α : Type} {x : FsM α} {Q : α → Fs → Prop} {E : FsPanic → Prop} :
    Ensures (do setInode i ip; iupdate sb i; x) s Q E ↔ Ensures x (s.store sb i ip) Q E := by
  rw [bind_iff, setInode, modify_iff, bind_iff, iupdate, modify_iff, itable_setEntry, update_self]
  rfl

theorem update_inode_end {Q : PUnit → Fs → Prop} {E : FsPanic → Prop} :
    Ensures (do setInode i ip; iupdate sb i) s Q E ↔ Q ⟨⟩ (s.store sb i ip) := by
  rw [bind_iff, setInode, modify_iff, iupdate, modify_iff, itable_setEntry, update_self]
  rfl

section Store

variable (hsb : sb.Ok) {ip : Dinode}

theorem itable_store : (s.store sb i ip).itable = update s.itable i { s.itable i with din := ip } := rfl

theorem itable_store_of_ne (hj : j ≠ i) : (s.store sb i ip).itable j = s.itable j := update_of_ne hj _ _

theorem cur_store_self : (s.store sb i ip).cur sb i = ip := by
  rw [cur, itable_store, update_self, store, inodeAt_putInode, update_self, ite_self]

theorem cur_store_of_ne (hj : j ≠ i) : (s.store sb i ip).cur sb j = s.cur sb j := by
  rw [cur, itable_store_of_ne hj, store, inodeAt_putInode, update_of_ne hj, cur]

include hsb in
theorem disk_store {b : ℕ} (hi : i < sb.ninodes) (hb : sb.nmeta ≤ b) : (s.store sb i ip).disk b = s.disk b :=
  putInode_of_le hsb hi hb

include hsb in
theorem used_store (hi : i < sb.ninodes) : (s.store sb i ip).used sb = s.used sb := by
  funext b
  rw [used, used, store, bitAt_putInode hsb hi]

variable (h : s.Owned sb) (hi : s.Live sb i)
include hsb h hi

theorem slot_store_of_ne {k : ℕ} (hj : s.Live sb j) (hji : j ≠ i) :
    (s.store sb i ip).slot sb j k = s.slot sb j k := by
  rw [slot, cur_store_of_ne hji]
  refine slotOf_congr (fun hz => disk_store hsb hi.1 ?_) k
  rw [← slot_NDIRECT] at hz ⊢
  exact h.nmeta_le hj NDIRECT_lt hz

variable (haddrs : ip.addrs = (s.cur sb i).addrs)
include haddrs

theorem slot_store_self (k : ℕ) : (s.store sb i ip).slot sb i k = s.slot sb i k := by
  have haddr : ∀ k, ip.addr k = (s.cur sb i).addr k := fun k => by rw [Dinode.addr, Dinode.addr, haddrs]
  have hslot : slotOf s.disk ip k = s.slot sb i k := by
    simp only [slot, slotOf, haddr]
  rw [← hslot, slot, cur_store_self]
  refine slotOf_congr (fun hz => disk_store hsb hi.1 ?_) k
  rw [haddr, ← slot_NDIRECT] at hz ⊢
  exact h.nmeta_le hi NDIRECT_lt hz

theorem slot_store (hj : s.Live sb j) (k : ℕ) : (s.store sb i ip).slot sb j k = s.slot sb j k := by
  rcases eq_or_ne j i with rfl | hji
  · exact slot_store_self hsb h hi haddrs k
  · exact slot_store_of_ne hsb h hi hj hji

theorem byteOf_store (hj : s.Live sb j) {x : ℕ} (hx : x / BSIZE < MAXFILE)
    (hne : s.block sb j (x / BSIZE) ≠ 0) : (s.store sb i ip).byteOf sb j x = s.byteOf sb j x := by
  have hblock : (s.store sb i ip).block sb j (x / BSIZE) = s.block sb j (x / BSIZE) :=
    slot_store hsb h hi haddrs hj _
  have hdata : sb.nmeta ≤ s.block sb j (x / BSIZE) := h.nmeta_le hj (slotIndex_lt hx) hne
  rw [byteOf, hblock, disk_store hsb hi.1 hdata, byteOf]

variable (htype : ip.type ≠ 0)
include htype

omit hsb h haddrs in
theorem live_store (j : ℕ) : (s.store sb i ip).Live sb j ↔ s.Live sb j := by
  rcases eq_or_ne j i with rfl | hji
  · exact iff_of_true ⟨hi.1, by rwa [cur_store_self]⟩ hi
  · rw [Live, Live, cur_store_of_ne hji]

theorem Owned.store : (s.store sb i ip).Owned sb :=
  h.congr (live_store hi htype) (fun _ k hj _ => slot_store hsb h hi haddrs hj k) (used_store hsb hi.1)

omit htype in
theorem dataOf_store (hj : s.Live sb j) (hs : (s.store sb i ip).HoleFree sb j) :
    (s.store sb i ip).dataOf sb j = (List.range ((s.store sb i ip).sizeOf sb j)).map (s.byteOf sb j) := by
  refine map_congr_left fun x hx => ?_
  obtain ⟨hmax, hne⟩ := hs.mapped_div (mem_range.1 hx)
  have hblock : (s.store sb i ip).block sb j (x / BSIZE) = s.block sb j (x / BSIZE) :=
    slot_store hsb h hi haddrs hj _
  exact byteOf_store hsb h hi haddrs hj hmax (hblock ▸ hne)

omit htype in
theorem HoleFree.store_of_ne (hj : s.Live sb j) (hji : j ≠ i) (hs : s.HoleFree sb j) :
    (s.store sb i ip).HoleFree sb j := by
  have hsize : (s.store sb i ip).sizeOf sb j = s.sizeOf sb j := by rw [sizeOf, cur_store_of_ne hji, sizeOf]
  refine ⟨hsize ▸ hs.size_le, fun bn hbn => ?_⟩
  have hblock : (s.store sb i ip).block sb j bn = s.block sb j bn := slot_store hsb h hi haddrs hj _
  rw [hblock]
  exact hs.mapped bn (hsize ▸ hbn)

/-- `iupdate` does not change the other inodes. -/
theorem node_store_of_ne (hji : j ≠ i) (hs : s.Live sb j → s.HoleFree sb j) :
    (s.store sb i ip).node sb j = s.node sb j := by
  by_cases hj : s.Live sb j
  · have hdata := dataOf_store hsb h hi haddrs hj ((hs hj).store_of_ne hsb h hi haddrs hj hji)
    rw [node_of_live ((live_store hi htype j).2 hj), node_of_live hj, cur_store_of_ne hji, hdata, sizeOf,
      cur_store_of_ne hji, dataOf, sizeOf]
  · rw [node_eq_none.2 hj, node_eq_none.2 (mt (live_store hi htype j).1 hj)]

variable (hsize : ip.size.toNat ≤ MAXFILE * BSIZE)
  (hmapped : ∀ bn, bn * BSIZE < ip.size.toNat → s.block sb i bn ≠ 0)
include hsize hmapped

omit htype in
theorem holeFree_store_self : (s.store sb i ip).HoleFree sb i := by
  have hself : (s.store sb i ip).sizeOf sb i = ip.size.toNat := by rw [sizeOf, cur_store_self]
  refine ⟨hself ▸ hsize, fun bn hbn => ?_⟩
  have hblock : (s.store sb i ip).block sb i bn = s.block sb i bn := slot_store hsb h hi haddrs hi _
  rw [hblock]
  exact hmapped bn (hself ▸ hbn)

theorem node_store_self : (s.store sb i ip).node sb i =
    some ⟨ip.type, ip.major, ip.minor, ip.nlink, (List.range ip.size.toNat).map (s.byteOf sb i)⟩ := by
  have hdata := dataOf_store hsb h hi haddrs hi (holeFree_store_self hsb h hi haddrs hsize hmapped)
  rw [node_of_live ((live_store hi htype i).2 hi), cur_store_self, hdata, sizeOf, cur_store_self]

theorem NoHoles.store (hs : s.NoHoles sb) : (s.store sb i ip).NoHoles sb := by
  refine noHoles_iff.2 fun j hj => ?_
  have hj := (live_store hi htype j).1 hj
  rcases eq_or_ne j i with rfl | hji
  · exact holeFree_store_self hsb h hi haddrs hsize hmapped
  · exact (hs.holeFree hj).store_of_ne hsb h hi haddrs hj hji

end Store

/-! ## `writei` -/

theorem byteOf_setBlock (h : s.Opened sb i) (hsb : sb.Ok) (hoff : off / BSIZE < MAXFILE)
    (hne : s.block sb i (off / BSIZE) ≠ 0) {l : List Byte} (hl : off % BSIZE + l.length ≤ BSIZE) {x : ℕ}
    (hx : x / BSIZE < MAXFILE) (hxne : s.block sb i (x / BSIZE) ≠ 0) :
    (s.setBlock (s.block sb i (off / BSIZE))
      ((s.disk (s.block sb i (off / BSIZE))).splice (off % BSIZE) l)).byteOf sb i x =
    if off ≤ x ∧ x < off + l.length then l.getD (x - off) 0 else s.byteOf sb i x := by
  have hmod : x % BSIZE < BSIZE := Nat.mod_lt _ (by decide)
  rw [byteOf, block_setBlock h hsb hoff hne _ h.live, disk_setBlock, byteOf]
  by_cases heq : x / BSIZE = off / BSIZE
  · rw [heq, update_self, Bytes.byteAt_splice _ _ _ hmod]
    have hcond : off % BSIZE ≤ x % BSIZE ∧ x % BSIZE < off % BSIZE + l.length ↔
        off ≤ x ∧ x < off + l.length := by
      simp only [BSIZE] at *
      omega
    have hsub : off ≤ x → x % BSIZE - off % BSIZE = x - off := by
      simp only [BSIZE] at *
      omega
    by_cases hc : off ≤ x ∧ x < off + l.length
    · rw [if_pos hc, if_pos (hcond.2 hc), hsub hc.1]
    · rw [if_neg hc, if_neg (mt hcond.1 hc)]
  · have hblock : s.block sb i (x / BSIZE) ≠ s.block sb i (off / BSIZE) := fun hb =>
      heq (slotIndex_inj (h.owned.slot_inj h.live h.live (slotIndex_lt hx) (slotIndex_lt hoff) hb hxne).2)
    rw [update_of_ne hblock, if_neg]
    simp only [BSIZE] at *
    omega

/-- The loop of `writei` has written `len` bytes from `off` on, and `all` with those before a
fault. -/
structure Wrote (sb : Superblock) (i : ℕ) (src : UserSrc) (off tot len all : ℕ) (s t : Fs) : Prop where
  opened : t.Opened sb i
  edits : Edits sb i s t
  le : len ≤ all
  mapped : ∀ x, off ≤ x → x < off + len → t.block sb i (x / BSIZE) ≠ 0
  bytes : ∀ x, x / BSIZE < MAXFILE → (s.block sb i (x / BSIZE) ≠ 0 ∨ off ≤ x ∧ x < off + len) →
    t.byteOf sb i x = if off ≤ x ∧ x < off + all then src.byte (tot + (x - off)) else s.byteOf sb i x

namespace Wrote

variable {src : UserSrc} {len all m : ℕ}

theorem refl (h : s.Opened sb i) (src : UserSrc) (off tot : ℕ) : Wrote sb i src off tot 0 0 s s :=
  ⟨h, .refl i s, le_rfl, fun x h1 h2 => absurd h2 (by omega), fun x _ _ => by rw [if_neg (by omega)]⟩

theorem grow (h : Grows sb i s t) (hs : s.Opened sb i) (hw : Wrote sb i src off tot len all t u) :
    Wrote sb i src off tot len all s u where
  opened := hw.opened
  edits := h.toEdits.trans hw.edits
  le := hw.le
  mapped := hw.mapped
  bytes x hx hcond := by
    by_cases hne : s.block sb i (x / BSIZE) = 0
    · have hr := hcond.resolve_left (not_not.2 hne)
      rw [hw.bytes x hx (.inr hr), if_pos ⟨hr.1, hr.2.trans_le (Nat.add_le_add_left hw.le _)⟩,
        if_pos ⟨hr.1, hr.2.trans_le (Nat.add_le_add_left hw.le _)⟩]
    · have heq := h.block_eq hs.live hx hne
      rw [hw.bytes x hx (.inl (heq ▸ hne)), byteOf, heq, h.own _ hs.live hx hne, ← byteOf]

theorem store (h : s.Opened sb i) (hsb : sb.Ok) (hoff : off / BSIZE < MAXFILE)
    (hne : s.block sb i (off / BSIZE) ≠ 0) (hm : off % BSIZE + m ≤ BSIZE)
    (ht : t = s.setBlock (s.block sb i (off / BSIZE))
      ((s.disk (s.block sb i (off / BSIZE))).splice (off % BSIZE) (src.bytes tot m)))
    (hw : Wrote sb i src (off + m) (tot + m) len all t u) :
    Wrote sb i src off tot (m + len) (m + all) s u := by
  have hblock : ∀ y, t.block sb i y = s.block sb i y := fun y => by
    rw [ht, block_setBlock h hsb hoff hne _ h.live]
  have hedits : Edits sb i s t := ht ▸ (h.setBlock hsb hoff hne _).2
  have hlive := (hedits.live_iff i).2 h.live
  -- the positions of this piece are in its block
  have hin : ∀ x, off ≤ x → x < off + m → x / BSIZE = off / BSIZE := by
    simp only [BSIZE] at *
    omega
  refine ⟨hw.opened, hedits.trans hw.edits, Nat.add_le_add_left hw.le m, fun x h1 h2 => ?_,
    fun x hx hcond => ?_⟩
  · by_cases hxm : x < off + m
    · have hnz : t.block sb i (x / BSIZE) ≠ 0 := by rwa [hblock, hin x h1 hxm]
      rw [hw.edits.block_eq hlive (by rwa [hin x h1 hxm]) hnz]
      exact hnz
    · exact hw.mapped x (by omega) (by omega)
  · by_cases hxr : off + m ≤ x ∧ x < off + m + all
    · have hcond' : t.block sb i (x / BSIZE) ≠ 0 ∨ off + m ≤ x ∧ x < off + m + len := by
        rw [hblock]
        rcases hcond with hc | hc
        · exact .inl hc
        · exact .inr ⟨hxr.1, by omega⟩
      rw [hw.bytes x hx hcond', if_pos hxr, if_pos (by omega)]
      congr 1
      omega
    · have hnz : s.block sb i (x / BSIZE) ≠ 0 := by
        rcases hcond with hc | hc
        · exact hc
        · have := hw.le
          rwa [hin x hc.1 (by omega)]
      rw [hw.bytes x hx (.inl (by rwa [hblock])), if_neg hxr, ht,
        byteOf_setBlock h hsb hoff hne (by simpa [UserSrc.bytes] using hm) hx hnz]
      have hlen : (src.bytes tot m).length = m := by simp [UserSrc.bytes]
      rw [hlen]
      by_cases hc : off ≤ x ∧ x < off + m
      · have hlt : x - off < m := by omega
        rw [if_pos hc, if_pos (by omega)]
        simp [UserSrc.bytes, hlt]
      · rw [if_neg hc, if_neg (by omega)]

theorem cut (h : s.Opened sb i) (hsb : sb.Ok) (hoff : off / BSIZE < MAXFILE)
    (hne : s.block sb i (off / BSIZE) ≠ 0) (hm : off % BSIZE + m ≤ BSIZE)
    (ht : t = s.setBlock (s.block sb i (off / BSIZE))
      ((s.disk (s.block sb i (off / BSIZE))).splice (off % BSIZE) (src.bytes tot m))) :
    Wrote sb i src off tot 0 m s t := by
  have hopened : t.Opened sb i := ht ▸ (h.setBlock hsb hoff hne _).1
  have hw := store h hsb hoff hne hm ht (refl hopened src (off + m) (tot + m))
  exact ⟨hw.opened, hw.edits, zero_le, fun x h1 h2 => absurd h2 (by omega), fun x hx hcond =>
    hw.bytes x hx (hcond.imp_right fun hc => absurd hc (by omega))⟩

end Wrote

/-- Why the loop of `writei` stops after `len` bytes, where a block begins. -/
structure Stop (sb : Superblock) (i : ℕ) (src : UserSrc) (off n tot len all : ℕ) (s t : Fs) : Prop where
  aligned : tot + len = n ∨ len = 0 ∨ (off + len) % BSIZE = 0
  reads : ∀ k, tot ≤ k → k < tot + len → src.Reads k
  why : (tot + len = n ∧ all = len) ∨
    (tot + len < n ∧ all = len ∧ t.Full sb ∧ s.block sb i ((off + len) / BSIZE) = 0) ∨
    (tot + len < n ∧ ∃ j, src.fault (tot + len) (piece (off + len) n (tot + len)) = some j ∧
      all = len + min j (piece (off + len) n (tot + len)))

namespace Stop

variable {src : UserSrc} {len all m : ℕ}

theorem done (s t : Fs) (i off tot : ℕ) : Stop sb i src off tot tot 0 0 s t :=
  ⟨.inl rfl, fun _ _ _ => by omega, .inl ⟨rfl, rfl⟩⟩

theorem full (h : Stop sb i src off n tot len all s t) (hno : ∀ tot m, tot + m ≤ n → src.fault tot m = none) :
    all = len ∧ (tot + len ≠ n → t.Full sb ∧ s.block sb i ((off + len) / BSIZE) = 0) := by
  rcases h.why with ⟨h1, h2⟩ | ⟨-, h2, h3⟩ | ⟨hlt, j, hj, -⟩
  · exact ⟨h2, fun hne => absurd h1 hne⟩
  · exact ⟨h2, fun _ => h3⟩
  · have hle : piece (off + len) n (tot + len) ≤ n - (tot + len) := min_le_left _ _
    rw [hno _ _ (by omega)] at hj
    cases hj

theorem store (hm : m = piece off n tot) (hle : tot ≤ n) (hf : src.fault tot m = none)
    (hblock : ∀ bn, bn * BSIZE < off + (n - tot) → u.block sb i bn = 0 → s.block sb i bn = 0)
    (h : Stop sb i src (off + m) n (tot + m) len all u t) :
    Stop sb i src off n tot (m + len) (m + all) s t := by
  refine ⟨?_, fun k h1 h2 => ?_, ?_⟩
  · -- a piece ends where the bytes end or where the block ends
    have hend : tot + m = n ∨ (off + m) % BSIZE = 0 := by
      simp only [piece, BSIZE] at *
      omega
    rcases h.aligned with h1 | rfl | h3
    · exact .inl (by omega)
    · rcases hend with h1 | h2
      · exact .inl h1
      · exact .inr (.inr h2)
    · exact .inr (.inr (by rwa [← add_assoc]))
  · by_cases hk : k < tot + m
    · exact ⟨tot, m, h1, hk, hf⟩
    · exact h.reads k (by omega) (by omega)
  · simp only [← add_assoc]
    rcases h.why with ⟨h1, rfl⟩ | ⟨h1, rfl, h3, h4⟩ | ⟨h1, j, hj, rfl⟩
    · exact .inl ⟨h1, rfl⟩
    · have hdiv : (off + m + all) / BSIZE * BSIZE ≤ off + m + all := Nat.div_mul_le_self _ _
      exact .inr (.inl ⟨h1, rfl, h3, hblock _ (by omega) h4⟩)
    · exact .inr (.inr ⟨h1, j, hj, (add_assoc _ _ _).symm⟩)

end Stop

/-- **What the loop of `writei` does**, and why it stops. -/
theorem writeLoop_spec (h : s.Opened sb i) (hsb : sb.Ok) (src : UserSrc) (fuel : ℕ)
    (hfuel : n - tot ≤ fuel) (htot : tot ≤ n) (hmax : off + (n - tot) ≤ MAXFILE * BSIZE) :
    Ensures (writeLoop sb i src fuel off n tot) s
      (fun r t => ∃ len all, r = (off + len, tot + len) ∧ tot + all ≤ n ∧
        Wrote sb i src off tot len all s t ∧ Stop sb i src off n tot len all s t) := by
  induction fuel generalizing off tot s with
  | zero =>
    obtain rfl : tot = n := by omega
    exact .pure ⟨0, 0, rfl, le_rfl, .refl h src off tot, .done s s i off tot⟩
  | succ fuel ih =>
    rw [writeLoop]
    split_ifs with hlt
    · have hpos : 0 < BSIZE := by decide
      have hmod : off % BSIZE < BSIZE := Nat.mod_lt _ hpos
      have hbn : off / BSIZE < MAXFILE := Nat.div_lt_of_lt_mul (by rw [mul_comm]; omega)
      refine (bmap_spec h hsb hbn).bind fun a t ⟨hl, hg, ha, hzero⟩ => ?_
      split_ifs with ha0
      · obtain ⟨hempty, hfull⟩ := hzero ha0
        exact .pure ⟨0, 0, rfl, htot, (Wrote.refl hl src off tot).grow hg h, .inr (.inl rfl),
          fun _ _ _ => by omega, .inr (.inl ⟨hlt, rfl, hfull, hempty⟩)⟩
      obtain rfl := ha ha0
      have hm : piece off n tot = min (n - tot) (BSIZE - off % BSIZE) := rfl
      cases hj : src.fault tot (piece off n tot) with
      | some j =>
        rw [bind_iff, modify_iff, pure_iff]
        exact ⟨0, min j (piece off n tot), rfl, by omega,
          (Wrote.cut hl hsb hbn ha0 (by omega) rfl).grow hg h, .inr (.inl rfl), fun _ _ _ => by omega,
          .inr (.inr ⟨hlt, j, hj, (zero_add _).symm⟩)⟩
      | none =>
        rw [bind_iff, modify_iff]
        have hopened := (hl.setBlock hsb hbn ha0 ((t.disk (t.block sb i (off / BSIZE))).splice
          (off % BSIZE) (src.bytes tot (piece off n tot)))).1
        refine (ih hopened (by omega) (by omega) (by omega)).imp ?_
        rintro r u ⟨len, all, rfl, hall, hw, hstop⟩
        refine ⟨_ + len, _ + all, by simp only [add_assoc], by omega,
          (Wrote.store hl hsb hbn ha0 (by omega) rfl hw).grow hg h, .store rfl htot hj (fun bn hbn' hz => ?_) hstop⟩
        -- a block that is still missing was missing before
        rw [block_setBlock hl hsb hbn ha0 _ hl.live] at hz
        by_contra hne
        have hlt' : bn < MAXFILE := Nat.lt_of_mul_lt_mul_right (hbn'.trans_le hmax)
        rw [hg.block_eq h.live hlt' hne] at hz
        exact hne hz
    · obtain rfl : tot = n := by omega
      exact .pure ⟨0, 0, rfl, le_rfl, .refl h src off tot, .done s s i off tot⟩

/-- The bytes of a file when `w` was stored at `off` and the size includes `len` bytes of it. -/
def written (d : List Byte) (off len : ℕ) (w : List Byte) : List Byte :=
  (d.take off ++ (w ++ d.drop (off + w.length))).take (max d.length (off + len))

theorem written_nil (d : List Byte) (off : ℕ) : written d off 0 [] = d := by
  rw [written, nil_append, length_nil, add_zero, take_append_drop]
  exact take_of_length_le (le_max_left _ _)

theorem bytes_kernel (l : List Byte) : (UserSrc.kernel l).bytes 0 l.length = l := by
  refine ext_getElem (by simp [UserSrc.bytes]) fun k h1 h2 => ?_
  simp [UserSrc.bytes, UserSrc.kernel, h2]

theorem map_range_written {d w : List Byte} {off : ℕ} {f : ℕ → Byte} (hoff : off ≤ d.length)
    (hlen : len ≤ w.length) (hf : ∀ x < max d.length (off + len), f x =
      if off ≤ x ∧ x < off + w.length then w.getD (x - off) 0 else d.getD x 0) :
    (List.range (max d.length (off + len))).map f = written d off len w := by
  refine ext_getElem (by simp [written]; omega) fun x h1 h2 => ?_
  have hx : x < max d.length (off + len) := by simpa using h1
  rw [getElem_map, getElem_range, hf x hx]
  simp only [written, getElem_take, getElem_append, length_take, Nat.min_eq_left hoff, getElem_drop]
  split_ifs with hin h3 h4 h5 h6
  · omega
  · rw [getD_eq_getElem]
  · omega
  · rw [getD_eq_getElem]
  · omega
  · rw [getD_eq_getElem _ _ (by omega)]
    congr 1
    omega

/-- The inodes other than `i` do not see work on the contents of inode `i`. -/
theorem Edits.node_of_ne (h : Edits sb i s t) (hj : j ≠ i) (hs : s.Live sb j → s.HoleFree sb j) :
    t.node sb j = s.node sb j := by
  by_cases hl : s.Live sb j
  · have hcur := h.cur_of_ne hl.1 hj
    have hdata : t.dataOf sb j = s.dataOf sb j := by
      rw [dataOf, dataOf, h.sizeOf_eq hl.1]
      refine map_congr_left fun x hx => ?_
      obtain ⟨hmax, hne⟩ := (hs hl).mapped_div (mem_range.1 hx)
      rw [byteOf, h.block_eq hl hmax hne, h.bytes j _ hj hl hmax hne, byteOf]
    rw [node_of_live hl, node_of_live ((h.live_iff j).2 hl), hcur, hdata]
  · rw [node_eq_none.2 hl, node_eq_none.2 (mt (h.live_iff j).1 hl)]

/-- The state is consistent. -/
structure Wf (sb : Superblock) (s : Fs) : Prop where
  owned : s.Owned sb
  noHoles : s.NoHoles sb
  synced : s.Synced sb

theorem Wf.locked (h : s.Wf sb) (hv : (s.itable i).valid = true) : s.Locked sb i :=
  ⟨h.owned, h.noHoles, (h.synced i hv).1, hv⟩

theorem Synced.store (hsync : ∀ j, j ≠ i → (s.itable j).valid = true →
      s.Live sb j ∧ sb.inodeAt s.disk j = (s.itable j).din) (hi : s.Live sb i)
    (htype : ip.type ≠ 0) : (s.store sb i ip).Synced sb := by
  intro j hv
  rcases eq_or_ne j i with rfl | hji
  · refine ⟨(live_store hi htype j).2 hi, ?_⟩
    rw [itable_store, update_self, Fs.store, inodeAt_putInode, update_self]
  · rw [itable_store_of_ne hji] at hv ⊢
    obtain ⟨hl, heq⟩ := hsync j hji hv
    refine ⟨(live_store hi htype j).2 hl, ?_⟩
    rw [Fs.store, inodeAt_putInode, update_of_ne hji, heq]

theorem Edits.synced_of_ne (h : Edits sb i s t) (hs : s.Synced sb) (hj : j ≠ i)
    (hv : (t.itable j).valid = true) : t.Live sb j ∧ sb.inodeAt t.disk j = (t.itable j).din := by
  rw [h.other j hj] at hv ⊢
  obtain ⟨hl, heq⟩ := hs j hv
  exact ⟨(h.live_iff j).2 hl, by rw [h.inodes j hl.1, heq]⟩

/-- What `writei` has done when it has stored `w` at `off` and returned `len`. -/
structure Written (sb : Superblock) (i off len : ℕ) (w : List Byte) (s t : Fs) : Prop where
  wf : t.Wf sb
  node : ∀ f, s.node sb i = some f →
    t.node sb = update (s.node sb) i (some { f with data := written f.data off len w })
  ref : ∀ j, (t.itable j).ref = (s.itable j).ref
  valid : ∀ j, (t.itable j).valid = (s.itable j).valid

/-- What `writei` has done to a file without holes: other such files are as before. -/
structure Stored (sb : Superblock) (i off len : ℕ) (w : List Byte) (s t : Fs) : Prop where
  owned : t.Owned sb
  live : ∀ j, t.Live sb j ↔ s.Live sb j
  holeFree : ∀ j, s.Live sb j → s.HoleFree sb j → t.HoleFree sb j
  synced : s.Synced sb → t.Synced sb
  stored : (t.itable i).valid = true ∧ sb.inodeAt t.disk i = (t.itable i).din
  node : ∀ f, s.node sb i = some f → t.node sb i = some { f with data := written f.data off len w }
  other : ∀ j, j ≠ i → (s.Live sb j → s.HoleFree sb j) → t.node sb j = s.node sb j
  ref : ∀ j, (t.itable j).ref = (s.itable j).ref
  valid : ∀ j, (t.itable j).valid = (s.itable j).valid

theorem Stored.written {w : List Byte} (h : Stored sb i off len w s t) (hs : s.Wf sb) :
    Written sb i off len w s t := by
  refine ⟨⟨h.owned, noHoles_iff.2 fun j hj => ?_, h.synced hs.synced⟩, fun f hf => funext fun j => ?_, h.ref,
    h.valid⟩
  · have hj := (h.live j).1 hj
    exact h.holeFree j hj (hs.noHoles.holeFree hj)
  · rcases eq_or_ne j i with rfl | hji
    · rw [update_self, h.node f hf]
    · rw [update_of_ne hji, h.other j hji hs.noHoles.holeFree]

theorem Wrote.dataOf_eq {src : UserSrc} (h : Wrote sb i src off 0 len all s t)
    (hs : s.HoleFree sb i) (hoff : off ≤ s.sizeOf sb i) (hlen : off + len ≤ MAXFILE * BSIZE) :
    (List.range (max (s.sizeOf sb i) (off + len))).map (t.byteOf sb i) =
      Fs.written (s.dataOf sb i) off len (src.bytes 0 all) := by
  have hbound := hs.size_le
  have hall := h.le
  have hall' : (src.bytes 0 all).length = all := by simp [UserSrc.bytes]
  rw [← length_dataOf]
  refine map_range_written (by rwa [length_dataOf]) (by rwa [hall']) fun x hx => ?_
  rw [length_dataOf] at hx
  have hxmax : x / BSIZE < MAXFILE := Nat.div_lt_of_lt_mul (by rw [mul_comm]; omega)
  have hcond : s.block sb i (x / BSIZE) ≠ 0 ∨ off ≤ x ∧ x < off + len := by
    by_cases hxs : x < s.sizeOf sb i
    · exact .inl (hs.mapped_div hxs).2
    · exact .inr (by omega)
  rw [h.bytes x hxmax hcond, hall', zero_add]
  by_cases hin : off ≤ x ∧ x < off + all
  · have hlt : x - off < all := by omega
    rw [if_pos hin, if_pos hin]
    simp [UserSrc.bytes, hlt]
  · have hlt : x < s.sizeOf sb i := by omega
    rw [if_neg hin, if_neg hin]
    simp [dataOf, hlt]

theorem Wrote.finish {src : UserSrc} (h : Wrote sb i src off 0 len all s t)
    (hs : s.HoleFree sb i) (hsb : sb.Ok) (hlive : s.Live sb i) (hoff : off ≤ s.sizeOf sb i)
    (hlen : off + len ≤ MAXFILE * BSIZE)
    (hip : ip = { (t.itable i).din with size := BitVec.ofNat 32 (max (s.sizeOf sb i) (off + len)) }) :
    Stored sb i off len (src.bytes 0 all) s (t.store sb i ip) := by
  obtain ⟨howned, htlive, htvalid⟩ := h.opened
  have hcur : t.cur sb i = (t.itable i).din := cur_of_valid htvalid
  have hbound := hs.size_le
  have hsize : ip.size.toNat = max (s.sizeOf sb i) (off + len) := by
    have h32 : MAXFILE * BSIZE < 2 ^ 32 := by decide
    rw [hip]
    exact Nat.mod_eq_of_lt (by omega)
  have haddrs : ip.addrs = (t.cur sb i).addrs := by rw [hip, hcur]
  have htype : ip.type ≠ 0 := by
    have hne := htlive.2
    rw [hcur] at hne
    rw [hip]
    exact hne
  have hmapped : ∀ bn, bn * BSIZE < ip.size.toNat → t.block sb i bn ≠ 0 := fun bn hbn => by
    by_cases hold : bn * BSIZE < s.sizeOf sb i
    · exact (h.edits.holeFree hlive hs).mapped bn (by rwa [h.edits.sizeOf_eq hlive.1])
    · have hx := h.mapped (bn * BSIZE) (by omega) (by omega)
      rwa [Nat.mul_div_cancel _ (by decide)] at hx
  have hle : ip.size.toNat ≤ MAXFILE * BSIZE := by omega
  have hlive_iff : ∀ j, t.Live sb j ↔ s.Live sb j := h.edits.live_iff
  refine ⟨howned.store hsb htlive haddrs htype, fun j => (live_store htlive htype j).trans (hlive_iff j),
    fun j hj hsj => ?_,
    fun hsync => Synced.store (fun j hj hvj => h.edits.synced_of_ne hsync hj hvj) htlive htype,
    ⟨?_, ?_⟩, fun f hf => ?_, fun j hji hsj => ?_, fun j => ?_, fun j => ?_⟩
  · rcases eq_or_ne j i with rfl | hji
    · exact holeFree_store_self hsb howned htlive haddrs hle hmapped
    · exact (h.edits.holeFree hj hsj).store_of_ne hsb howned htlive haddrs ((hlive_iff j).2 hj) hji
  · rw [itable_store, update_self]
    exact htvalid
  · rw [itable_store, update_self, Fs.store, inodeAt_putInode, update_self]
  · obtain ⟨addrs, heq⟩ := h.edits.cur_eq hlive.1
    rw [node_of_live hlive, Option.some_inj] at hf
    obtain rfl := hf
    rw [hcur] at heq
    rw [node_store_self hsb howned htlive haddrs htype hle hmapped, hsize, hip, heq, Option.some_inj]
    exact Node.ext rfl rfl rfl rfl (h.dataOf_eq hs hoff hlen)
  · rw [node_store_of_ne hsb howned htlive haddrs htype hji fun hj =>
      h.edits.holeFree ((hlive_iff j).1 hj) (hsj ((hlive_iff j).1 hj)), h.edits.node_of_ne hji hsj]
  · rcases eq_or_ne j i with rfl | hji
    · rw [itable_store, update_self]
      exact h.edits.ref
    · rw [itable_store_of_ne hji, h.edits.other j hji]
  · rcases eq_or_ne j i with rfl | hji
    · rw [itable_store, update_self]
      exact h.edits.valid
    · rw [itable_store_of_ne hji, h.edits.other j hji]

/-- **`writei` stores a part of the bytes and returns its length, or returns -1 and does
nothing.** -/
theorem writei_stops (ho : s.Opened sb i) (hs : s.HoleFree sb i) (hsb : sb.Ok) (src : UserSrc)
    (hoff : off < 2 ^ 32) (hn : n < 2 ^ 32) :
    Ensures (writei sb i src off n) s
      (fun r t => (r = -1 ∧ t = s ∧ (s.sizeOf sb i < off ∨ MAXFILE * BSIZE < off + n)) ∨
        off ≤ s.sizeOf sb i ∧ off + n ≤ MAXFILE * BSIZE ∧ ∃ len all : ℕ, r = len ∧ len ≤ all ∧ all ≤ n ∧
          Stored sb i off len (src.bytes 0 all) s t ∧ Stop sb i src off n 0 len all s t) := by
  have hsize := sizeOf_of_valid sb ho.valid
  have hover : (off + n) % 2 ^ 32 < off ↔ 2 ^ 32 ≤ off + n := by omega
  have h32 : MAXFILE * BSIZE < 2 ^ 32 := by decide
  unfold writei inode
  simp only [bind_assoc, pure_bind]
  rw [get_bind_iff, ← hsize]
  split_ifs with h1 h2
  · refine .pure (.inl ⟨rfl, rfl, h1.imp_right fun h => ?_⟩)
    have := hover.1 h
    omega
  · refine .pure (.inl ⟨rfl, rfl, .inr ?_⟩)
    have := Nat.mod_le (off + n) (2 ^ 32)
    omega
  · have hlt : off + n < 2 ^ 32 := by
      by_contra hge
      exact h1 (.inr (hover.2 (by omega)))
    rw [Nat.mod_eq_of_lt hlt] at h1 h2
    have hle : off ≤ s.sizeOf sb i := by omega
    refine (writeLoop_spec ho hsb src n (le_of_eq (Nat.sub_zero n)) (Nat.zero_le n)
      (by omega)).bind ?_
    rintro ⟨off', tot⟩ t ⟨len, all, heq, hall, hw, hstop⟩
    obtain ⟨rfl, rfl⟩ := Prod.mk.inj heq
    have hlen := hw.le
    have hsizet : (t.itable i).din.size.toNat = s.sizeOf sb i := by
      have hcur : t.cur sb i = (t.itable i).din := cur_of_valid hw.opened.valid
      rw [← hcur]
      exact hw.edits.sizeOf_eq ho.live.1
    have hend : ∀ ip : Dinode, ip = { (t.itable i).din with size := BitVec.ofNat 32 (max (s.sizeOf sb i)
          (off + len)) } → Stored sb i off len (src.bytes 0 all) s (t.store sb i ip) ∧
        Stop sb i src off n 0 len all s (t.store sb i ip) := fun ip hip => by
      have hused : (t.store sb i ip).used sb = t.used sb := used_store hsb hw.opened.live.1
      exact ⟨hw.finish hs hsb ho.live hle (by omega) hip, hstop.aligned, hstop.reads,
        hstop.why.imp_right (.imp_left fun h => ⟨h.1, h.2.1, fun x hx => hused ▸ h.2.2.1 x hx, h.2.2.2⟩)⟩
    rw [get_bind_iff]
    split_ifs with hgrow
    · rw [update_inode, pure_iff]
      refine .inr ⟨hle, by omega, len, all, by rw [zero_add], hlen, by omega, hend _ ?_⟩
      have hmax : max (s.sizeOf sb i) (off + len) = off + len := Nat.max_eq_right (hsizet ▸ hgrow.le)
      rw [hmax]
    · rw [bind_iff, iupdate, modify_iff, pure_iff]
      have hstore : t.store sb i (t.itable i).din = { t with disk := sb.putInode t.disk i (t.itable i).din } := by
        rw [store, setEntry, update_eq_self]
      refine .inr ⟨hle, by omega, len, all, by rw [zero_add], hlen, by omega, hstore ▸ hend _ ?_⟩
      have hmax : max (s.sizeOf sb i) (off + len) = s.sizeOf sb i :=
        Nat.max_eq_left (hsizet ▸ le_of_not_gt hgrow)
      rw [hmax, ← hsizet, BitVec.ofNat_toNat, BitVec.setWidth_eq]

/-- **`writei` in a consistent state.**  Without a fault no more is stored than is returned; bytes
in one block are stored all or not at all, bytes below the size are stored, and it stops early for
want of a block. -/
theorem writei_spec (h : s.Wf sb) (hsb : sb.Ok) (hv : (s.itable i).valid = true) (src : UserSrc)
    (hoff : off < 2 ^ 32) (hn : n < 2 ^ 32) :
    Ensures (writei sb i src off n) s
      (fun r t => (r = -1 ∧ t = s ∧ (s.sizeOf sb i < off ∨ MAXFILE * BSIZE < off + n)) ∨
        off ≤ s.sizeOf sb i ∧ ∃ len all : ℕ, r = len ∧ len ≤ all ∧ all ≤ n ∧
          Written sb i off len (src.bytes 0 all) s t ∧
          ((∀ tot m, src.fault tot m = none) → all = len ∧
            (off % BSIZE + n ≤ BSIZE → len = 0 ∨ len = n) ∧ (off + n ≤ s.sizeOf sb i → len = n) ∧
            (len ≠ n → t.Full sb ∧ s.block sb i ((off + len) / BSIZE) = 0))) := by
  have hlocked := h.locked hv
  have hfree := h.noHoles.holeFree hlocked.live
  refine (writei_stops hlocked.opened hfree hsb src hoff hn).imp fun r t hr => ?_
  refine hr.imp_right fun ⟨hle, _, len, all, hrl, hlen, hall, hst, hstop⟩ =>
    ⟨hle, len, all, hrl, hlen, hall, hst.written h, fun hno => ?_⟩
  obtain ⟨heq, hfull⟩ := hstop.full fun tot m _ => hno tot m
  rw [zero_add] at hfull
  refine ⟨heq, fun hone => ?_, fun hin => ?_, hfull⟩
  · have haligned := hstop.aligned
    simp only [BSIZE] at *
    omega
  · by_contra hne
    exact (hfree.mapped_div (by omega)).2 (hfull hne).2

end Fs

end Xv6

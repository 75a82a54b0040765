import Xv6.Fs.Name
import Xv6.Fs.View

/-!
# Fs/Dir — directories (`kernel/fs.c`)

`dirlookup` and `dirlink` read the slots of a directory one by one through `readi`; in a consistent
state they compute `findSlot` and its like, and `dirlink` and `sys_unlink` assign one slot.
-/

namespace Xv6

open Machinery Function Ensures Exec

variable (sb : Superblock)

/-! ## The code -/

/-- A loop over the entries of a directory from `off` on; the offset of the first for which `stop`
holds. -/
def scan (short : FsPanic) (stop : Dirent → Bool) (i : ℕ) : (fuel off : ℕ) → FsM (ℕ × Option Dirent)
  | 0, off => return (off, none)
  | fuel + 1, off => do
    let dp ← inode i
    if off < dp.size.toNat then
      let (r, l) ← readi sb i (fun _ _ => false) off DIRENT
      if r ≠ DIRENT then throw short
      else if stop (.ofBytes l) then return (off, some (.ofBytes l))
      else scan short stop i fuel (off + DIRENT)
    else return (off, none)

def Dirent.hits (name : List Byte) (de : Dirent) : Bool :=
  decide (de.inum ≠ 0) && decide (namecmp name de.name = 0)

/-- `dirlookup`: the inode, referenced, and `*poff`. -/
def dirlookup (i : ℕ) (name : List Byte) : FsM (Option (ℕ × ℕ)) := do
  let dp ← inode i
  if dp.type ≠ T_DIR then throw .dirlookupNotDir
  else
    match ← scan sb .dirlookupRead (Dirent.hits name) i (dp.size.toNat + 1) 0 with
    | (_, none) => return none
    | (off, some de) =>
      iget de.inum
      return some (de.inum, off)

def dirlink (i : ℕ) (name : List Byte) (inum : ℕ) : FsM ℤ := do
  match ← dirlookup sb i name with
  | some (ip, _) =>
    iput sb ip
    return -1
  | none =>
    let dp ← inode i
    let (off, _) ← scan sb .dirlinkRead (fun de => decide (de.inum = 0)) i (dp.size.toNat + 1) 0
    let r ← writei sb i (.kernel (Dirent.bytes ⟨inum, strncpy name DIRSIZ⟩)) off DIRENT
    if r ≠ DIRENT then return -1 else return 0

/-- The store of a zero entry by `sys_unlink`. -/
def zeroEntry (i off : ℕ) : FsM Unit := do
  let r ← writei sb i (.kernel Dirent.zero.bytes) off DIRENT
  if r ≠ DIRENT then throw .unlinkWritei

namespace Fs

variable {sb} {s t : Fs} {i k l n : ℕ} {short : FsPanic} {stop : Dirent → Bool}

/-! ## The loops -/

/-- The first `n` bytes of an inode are in mapped blocks. -/
def Mapped (sb : Superblock) (s : Fs) (i n : ℕ) : Prop :=
  ∀ x < n, x / BSIZE < MAXFILE ∧ s.block sb i (x / BSIZE) ≠ 0

theorem Locked.mapped (h : s.Locked sb i) : s.Mapped sb i (s.sizeOf sb i) := fun _ hx =>
  h.noHoles.mapped_div h.live hx

theorem sizeOf_lt (s : Fs) : s.sizeOf sb i < 2 ^ 32 := (s.cur sb i).size.isLt

theorem readi_slot (hv : (s.itable i).valid = true) (hmap : s.Mapped sb i (DIRENT * k + DIRENT))
    (hsize : DIRENT * k + DIRENT ≤ s.sizeOf sb i) :
    readi sb i (fun _ _ => false) (DIRENT * k) DIRENT s =
      .ok (((DIRENT : ℕ), ((s.dataOf sb i).drop (DIRENT * k)).take DIRENT), s) := by
  have hlt : s.sizeOf sb i < 2 ^ 32 := sizeOf_lt s
  obtain ⟨r, hr, hval⟩ := readi_mapped hv (fun _ _ => false) (show DIRENT * k < 2 ^ 32 by omega)
    (show DIRENT < 2 ^ 32 by decide) fun x _ hx _ => hmap x hx
  rw [hr, hval fun _ _ => rfl, if_neg (by omega), Nat.min_eq_left (by omega)]

theorem scan_succ (hv : (s.itable i).valid = true) (hmap : s.Mapped sb i (DIRENT * k + DIRENT))
    (hsize : DIRENT * k + DIRENT ≤ s.sizeOf sb i) (fuel : ℕ) :
    scan sb short stop i (fuel + 1) (DIRENT * k) s =
      if stop (slotAt (s.dataOf sb i) k) then .ok ((DIRENT * k, some (slotAt (s.dataOf sb i) k)), s)
      else scan sb short stop i fuel (DIRENT * (k + 1)) s := by
  have hpos : 0 < DIRENT := by decide
  rw [scan, bind_ok (inode_run i s), ← sizeOf_of_valid sb hv, if_pos (by omega), bind_ok (readi_slot hv hmap hsize)]
  simp only [ne_eq, not_true_eq_false, if_false]
  rw [← slotAt]
  split_ifs
  · rfl
  · rfl

theorem scan_found (short : FsPanic) (stop : Dirent → Bool) (fuel : ℕ) (hv : (s.itable i).valid = true) (hkl : k ≤ l)
    (hmap : s.Mapped sb i (DIRENT * l + DIRENT)) (hsize : DIRENT * l + DIRENT ≤ s.sizeOf sb i)
    (hstop : stop (slotAt (s.dataOf sb i) l) = true)
    (hgo : ∀ j, k ≤ j → j < l → stop (slotAt (s.dataOf sb i) j) = false) (hfuel : l - k < fuel) :
    scan sb short stop i fuel (DIRENT * k) s = .ok ((DIRENT * l, some (slotAt (s.dataOf sb i) l)), s) := by
  induction fuel generalizing k with
  | zero => exact absurd hfuel (Nat.not_lt_zero _)
  | succ fuel ih =>
    have hle : DIRENT * k + DIRENT ≤ DIRENT * l + DIRENT := Nat.add_le_add_right (Nat.mul_le_mul_left _ hkl) _
    rw [scan_succ hv (fun x hx => hmap x (hx.trans_le hle)) (hle.trans hsize)]
    rcases hkl.eq_or_lt with rfl | hlt
    · rw [if_pos hstop]
    · rw [hgo k le_rfl hlt, if_neg Bool.false_ne_true]
      exact ih hlt (fun j hj => hgo j (Nat.le_of_succ_le hj)) (by omega)

theorem scan_none (short : FsPanic) (stop : Dirent → Bool) (fuel : ℕ)
    (hv : (s.itable i).valid = true) (hmap : s.Mapped sb i (DIRENT * n))
    (hsize : s.sizeOf sb i = DIRENT * n) (hkn : k ≤ n)
    (hgo : ∀ j, k ≤ j → j < n → stop (slotAt (s.dataOf sb i) j) = false) (hfuel : n - k < fuel) :
    scan sb short stop i fuel (DIRENT * k) s = .ok ((DIRENT * n, none), s) := by
  induction fuel generalizing k with
  | zero => exact absurd hfuel (Nat.not_lt_zero _)
  | succ fuel ih =>
    rcases hkn.eq_or_lt with rfl | hlt
    · rw [scan, bind_ok (inode_run i s), ← sizeOf_of_valid sb hv, if_neg (by omega)]
      rfl
    · have hle : DIRENT * k + DIRENT ≤ DIRENT * n := by
        rw [← Nat.mul_succ]
        exact Nat.mul_le_mul_left _ hlt
      rw [scan_succ hv (fun x hx => hmap x (hx.trans_le hle)) (hsize ▸ hle), hgo k le_rfl hlt,
        if_neg Bool.false_ne_true]
      exact ih hlt (fun j hj => hgo j (Nat.le_of_succ_le hj)) (by omega)

/-! ## What the functions do -/

theorem written_slot {d : List Byte} {de : Dirent} (hd : d.length % DIRENT = 0) (hk : k ≤ nslots d)
    (hname : de.name.length = DIRSIZ) :
    written d (DIRENT * k) DIRENT ((UserSrc.kernel de.bytes).bytes 0 DIRENT) = putSlot d k de := by
  have hlen := Dirent.length_bytes hname
  have hbytes : (UserSrc.kernel de.bytes).bytes 0 DIRENT = de.bytes := by
    rw [← hlen, bytes_kernel]
  rw [hbytes, written, hlen, ← putSlot]
  refine List.take_of_length_le ?_
  rw [length_putSlot hd hk hname, length_eq hd, ← Nat.mul_succ, ← Nat.mul_max_mul_left]

theorem hits_slotAt (d name : List Byte) (j : ℕ) :
    Dirent.hits name (slotAt d j) = decide (Names d (nameKey name) j) := by
  rw [Dirent.hits, ← Bool.decide_and]
  refine decide_eq_decide.2 (and_congr_right fun _ => ?_)
  rw [namecmp_eq_zero, eq_comm]

theorem dirlookup_found {name : List Byte} (hv : (s.itable i).valid = true)
    (htype : (s.itable i).din.type = T_DIR) (hmap : s.Mapped sb i (DIRENT * k + DIRENT))
    (hsize : DIRENT * k + DIRENT ≤ s.sizeOf sb i) (hnames : Names (s.dataOf sb i) (nameKey name) k)
    (hfirst : ∀ j < k, ¬Names (s.dataOf sb i) (nameKey name) j) :
    dirlookup sb i name s = (do
      iget (slotAt (s.dataOf sb i) k).inum
      return some ((slotAt (s.dataOf sb i) k).inum, DIRENT * k)) s := by
  have hfuel : k - 0 < s.sizeOf sb i + 1 := by
    have : k ≤ DIRENT * k := Nat.le_mul_of_pos_left k (by decide)
    omega
  have hscan := scan_found .dirlookupRead (Dirent.hits name) _ hv (Nat.zero_le k) hmap hsize
    ((hits_slotAt _ name k).trans (decide_eq_true hnames))
    (fun j _ hj => (hits_slotAt _ name j).trans (decide_eq_false (hfirst j hj))) hfuel
  rw [dirlookup, bind_ok (inode_run i s), if_neg (not_not.2 htype), ← sizeOf_of_valid sb hv]
  exact bind_ok hscan

/-- The state is consistent and inode `i` is a locked directory. -/
structure DirLocked (sb : Superblock) (s : Fs) (i : ℕ) (f : Node) : Prop where
  wf : s.Wf sb
  valid : (s.view sb).valid i = true
  node : s.node sb i = some f
  type : f.type = T_DIR
  size : f.data.length % DIRENT = 0

/-- There is no room behind the end of the directory `f`: it is as large as files can be, or its last
block is full and so is the disk. -/
def Crammed (sb : Superblock) (f : Node) (t : Fs) : Prop :=
  MAXFILE * BSIZE < f.data.length + DIRENT ∨ f.data.length % BSIZE = 0 ∧ t.Full sb

namespace DirLocked

variable {f : Node} {name : List Byte} (h : s.DirLocked sb i f)
include h

theorem itable_valid : (s.itable i).valid = true := (view_valid.1 h.valid).2

theorem din_type : (s.itable i).din.type = T_DIR := (Fs.din_type h.wf h.itable_valid h.node).trans h.type

theorem sizeOf_eq : s.sizeOf sb i = DIRENT * nslots f.data := by
  rw [size_of_node h.node, ← length_eq h.size]

theorem mapped : s.Mapped sb i (DIRENT * nslots f.data) := by
  rw [← h.sizeOf_eq]
  exact (h.wf.locked h.itable_valid).mapped

theorem mapped_slot (hk : k < nslots f.data) : s.Mapped sb i (DIRENT * k + DIRENT) := fun x hx =>
  h.mapped x (hx.trans_le (by rw [← Nat.mul_succ]; exact Nat.mul_le_mul_left _ hk))

theorem le_size (hk : k < nslots f.data) : DIRENT * k + DIRENT ≤ s.sizeOf sb i := by
  rw [h.sizeOf_eq, ← Nat.mul_succ]
  exact Nat.mul_le_mul_left _ hk

theorem fuel_lt (hk : k ≤ nslots f.data) (l : ℕ) : k - l < (s.itable i).din.size.toNat + 1 := by
  have hle : nslots f.data ≤ DIRENT * nslots f.data := Nat.le_mul_of_pos_left _ (by decide)
  rw [din_size h.itable_valid h.node, length_eq h.size]
  omega

/-- **`dirlookup` finds the first slot with the key**, and refers to its inode; it panics if the table
of inodes is full. -/
theorem dirlookup_spec (name : List Byte) :
    Ensures (dirlookup sb i name) s
      (fun r t => (findSlot f.data (nameKey name) = none ∧ r = none ∧ t = s) ∨
        ∃ k, findSlot f.data (nameKey name) = some k ∧
          r = some ((slotAt f.data k).inum, DIRENT * k) ∧ t.Wf sb ∧
          t.view sb = (s.view sb).get (slotAt f.data k).inum)
      fun e => e = .igetNoInodes ∧ NINODE ≤ s.active := by
  have hdata := dataOf_of_node h.node
  cases hfind : findSlot f.data (nameKey name) with
  | none =>
    have hnot := findSlot_eq_none.1 hfind
    have hscan := scan_none .dirlookupRead (Dirent.hits name) _ h.itable_valid h.mapped h.sizeOf_eq zero_le
      (fun j _ hj => (hits_slotAt _ name j).trans (decide_eq_false (hdata ▸ hnot j hj))) (h.fuel_lt le_rfl 0)
    have hres : dirlookup sb i name s = .ok (none, s) := by
      rw [dirlookup, bind_ok (inode_run i s), if_neg (not_not.2 h.din_type)]
      exact bind_ok hscan
    exact (ok_iff hres).2 (.inl ⟨rfl, rfl, rfl⟩)
  | some k =>
    obtain ⟨hk, hnames, hfirst⟩ := findSlot_eq_some.1 hfind
    rw [← hdata] at hnames hfirst
    rw [Ensures.congr_run (dirlookup_found h.itable_valid h.din_type (h.mapped_slot hk) (h.le_size hk)
      hnames hfirst), hdata]
    exact (iget_spec h.wf _).bind fun _ t ⟨hwf, hview⟩ => .pure (.inr ⟨k, rfl, rfl, hwf, hview⟩)

/-- **A slot of a directory is assigned**, but for one behind its end that there is no room for. -/
theorem writei_slot (hsb : sb.Ok) (de : Dirent) (hname : de.name.length = DIRSIZ) (hk : k ≤ nslots f.data) :
    Ensures (writei sb i (.kernel de.bytes) (DIRENT * k) DIRENT) s
      (fun r t => t.Wf sb ∧ ((r ≠ DIRENT ∧ k = nslots f.data ∧ Crammed sb f t ∧ t.view sb = s.view sb) ∨
        (r = DIRENT ∧ t.view sb = (s.view sb).setNode i { f with data := putSlot f.data k de }))) := by
  have hlt : s.sizeOf sb i < 2 ^ 32 := sizeOf_lt s
  have hoff : DIRENT * k ≤ s.sizeOf sb i := by
    rw [h.sizeOf_eq]
    exact Nat.mul_le_mul_left _ hk
  have hlen := Dirent.length_bytes hname
  refine (writei_spec h.wf hsb h.itable_valid (.kernel de.bytes) (by omega) (by decide)).imp ?_
  rintro r t (⟨rfl, rfl, hout⟩ | ⟨-, len, all, rfl, -, -, hw, hno⟩)
  · have hbig : MAXFILE * BSIZE < DIRENT * k + DIRENT := hout.resolve_left (not_lt_of_ge hoff)
    have hend : k = nslots f.data := by
      refine hk.antisymm (le_of_not_gt fun hlt' => ?_)
      have hle := h.le_size hlt'
      have hmax := h.wf.noHoles.size_le i (h.wf.locked h.itable_valid).live
      omega
    refine ⟨h.wf, .inl ⟨by decide, hend, .inl ?_, rfl⟩⟩
    rwa [length_eq h.size, ← hend]
  · obtain ⟨rfl, hone, hin, hfull⟩ := hno fun _ _ => rfl
    have hblock : DIRENT * k % BSIZE + DIRENT ≤ BSIZE := by
      simp only [DIRENT, DIRSIZ, BSIZE]
      omega
    refine ⟨hw.wf, ?_⟩
    have hview := hw.view_eq h.node
    rcases hone hblock with rfl | rfl
    · have hend : k = nslots f.data :=
        hk.antisymm (le_of_not_gt fun hlt' => absurd (hin (h.le_size hlt')) (by decide))
      refine .inl ⟨by decide, hend, .inr ?_, ?_⟩
      · obtain ⟨hf, hzero⟩ := hfull (by decide)
        refine ⟨by_contra fun hmod => ?_, hf⟩
        -- the block of the last byte is that of the new slot
        have hdiv : (DIRENT * k + 0) / BSIZE = (f.data.length - 1) / BSIZE := by
          rw [length_eq h.size, ← hend] at hmod ⊢
          simp only [BSIZE] at *
          omega
        rw [hdiv] at hzero
        refine (h.mapped _ ?_).2 hzero
        rw [← length_eq h.size]
        exact Nat.sub_one_lt fun h0 => hmod (by rw [h0]; rfl)
      · have hdata : written f.data (DIRENT * k) 0 ((UserSrc.kernel de.bytes).bytes 0 0) = f.data :=
          written_nil _ _
        rw [hview, hdata]
        exact View.ext (update_eq_self_iff.2 h.node.symm) rfl rfl
    · refine .inr ⟨rfl, ?_⟩
      rw [hview, written_slot h.size hk hname]

theorem zeroEntry_spec (hsb : sb.Ok) (hk : k < nslots f.data) :
    Ensures (zeroEntry sb i (DIRENT * k)) s
      (fun _ t => t.Wf sb ∧ t.view sb = (s.view sb).setNode i { f with data := putSlot f.data k .zero }) := by
  refine (h.writei_slot hsb .zero (by decide) hk.le).bind ?_
  rintro r t ⟨hwf, ⟨-, hend, -⟩ | ⟨rfl, hview⟩⟩
  · exact absurd hk (by omega)
  · rw [if_neg (not_not.2 rfl)]
    exact .pure ⟨hwf, hview⟩

theorem scan_free : ∃ k o, FreeSlot f.data k ∧
    scan sb .dirlinkRead (fun de => decide (de.inum = 0)) i ((s.itable i).din.size.toNat + 1) 0 s =
      .ok ((DIRENT * k, o), s) := by
  have hdata := dataOf_of_node h.node
  by_cases hex : ∃ k, k < nslots f.data ∧ (slotAt f.data k).inum = 0
  · obtain ⟨hk, hzero⟩ := Nat.find_spec hex
    have hmin : ∀ l < Nat.find hex, (slotAt f.data l).inum ≠ 0 := fun l hl h0 =>
      Nat.find_min hex hl ⟨hl.trans hk, h0⟩
    exact ⟨_, _, ⟨hk.le, fun _ => hzero, hmin⟩, scan_found .dirlinkRead (fun de => decide (de.inum = 0)) _
      h.itable_valid zero_le (h.mapped_slot hk) (h.le_size hk) (decide_eq_true (hdata.symm ▸ hzero))
      (fun j _ hj => decide_eq_false (hdata.symm ▸ hmin j hj)) (h.fuel_lt hk.le 0)⟩
  · have hall : ∀ k < nslots f.data, (slotAt f.data k).inum ≠ 0 := fun k hk h0 => hex ⟨k, hk, h0⟩
    exact ⟨_, _, ⟨le_rfl, fun hlt => absurd hlt (Nat.lt_irrefl _), hall⟩, scan_none .dirlinkRead
      (fun de => decide (de.inum = 0)) _ h.itable_valid h.mapped h.sizeOf_eq zero_le
      (fun j _ hj => decide_eq_false (hdata.symm ▸ hall j hj)) (h.fuel_lt le_rfl 0)⟩

/-- **`dirlink` fills the first free slot, or fails and changes nothing**: because the key is there, or
because all slots are in use and the directory cannot grow. -/
theorem dirlink_spec (hsb : sb.Ok) (name : List Byte) (inum : ℕ) :
    Ensures (dirlink sb i name inum) s
      (fun r t => t.Wf sb ∧ ((r = -1 ∧ t.view sb = s.view sb ∧ (findSlot f.data (nameKey name) ≠ none ∨
            FreeSlot f.data (nslots f.data) ∧ Crammed sb f t)) ∨
        (r = 0 ∧ findSlot f.data (nameKey name) = none ∧ ∃ k, FreeSlot f.data k ∧
          t.view sb = (s.view sb).setNode i
            { f with data := putSlot f.data k ⟨inum, strncpy name DIRSIZ⟩ })))
      fun e => e = .igetNoInodes ∧ NINODE ≤ s.active := by
  unfold dirlink
  refine (h.dirlookup_spec name).bind ?_
  rintro r t (⟨hnone, rfl, rfl⟩ | ⟨k, hsome, rfl, hwf, hview⟩)
  · obtain ⟨k, o, hfree, hscan⟩ := h.scan_free
    unfold inode
    simp only [bind_assoc, pure_bind]
    rw [get_bind_iff, bind_iff, ok_iff hscan]
    refine Ensures.bind ((h.writei_slot hsb ⟨inum, strncpy name DIRSIZ⟩ (length_strncpy _ _) hfree.le).mono
      (fun _ _ hr => hr) fun _ => False.elim) ?_
    rintro r u ⟨hwf, ⟨hne, rfl, hcram, hview⟩ | ⟨rfl, hview⟩⟩
    · rw [if_pos hne]
      exact .pure ⟨hwf, .inl ⟨rfl, hview, .inr ⟨hfree, hcram⟩⟩⟩
    · rw [if_neg (not_not.2 rfl)]
      exact .pure ⟨hwf, .inr ⟨rfl, hnone, k, hfree, hview⟩⟩
  · -- the reference to the inode that has the name is dropped again
    generalize (slotAt f.data k).inum = j at *
    have href : (t.itable j).ref = (s.itable j).ref + 1 := by
      have := congrArg (fun v => v.ref j) hview
      simpa [View.get] using this
    refine Ensures.bind ((iput_spec hwf hsb (by omega)).total) ?_
    rintro _ u ⟨hwfu, hput⟩
    refine .pure ⟨hwfu, .inl ⟨rfl, ?_, .inl (by simp [hsome])⟩⟩
    have hdrop : ((s.view sb).get j).drop j = s.view sb := View.drop_get fun hv => (view_valid.1 hv).1
    rcases hput with ⟨⟨hone, hvalid, -⟩, -⟩ | ⟨-, hdropped⟩
    · rw [hview, View.get_valid] at hvalid
      have := (view_valid.1 hvalid).1
      rw [view_ref] at hone
      omega
    · rw [hdropped, hview, hdrop]

end DirLocked

end Fs

end Xv6

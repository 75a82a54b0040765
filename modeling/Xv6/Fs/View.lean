import Xv6.Fs.Free

/-!
# Fs/View — the file system as its users see it

A `View` has the allocated inodes with their contents, the references to them, and which are in
memory.  Every function of `fs.c` below the directories does one simple thing to it and keeps the
state consistent.
-/

namespace Xv6

open Machinery Function Ensures Superblock

/-- The file system as its users see it. -/
@[ext] structure View where
  node : ℕ → Option Node
  ref : ℕ → ℕ
  valid : ℕ → Bool

namespace View

variable (v : View) (i : ℕ)

def get : View := { v with ref := update v.ref i (v.ref i + 1) }

def lock : View := { v with valid := update v.valid i true }

/-- Inode `i` is `f` from now on. -/
def setNode (f : Node) : View := { v with node := update v.node i (some f) }

/-- The next `iput` frees the inode. -/
def Dying : Prop := v.ref i = 1 ∧ v.valid i = true ∧ ∃ f, v.node i = some f ∧ f.nlink = 0

def drop : View where
  node := v.node
  ref := update v.ref i (v.ref i - 1)
  valid := update v.valid i (v.valid i && decide (1 < v.ref i))

def free : View where
  node := update v.node i none
  ref := update v.ref i 0
  valid := update v.valid i false

section Fields

variable {v : View} {i j : ℕ} {f : Node}

@[simp] theorem get_valid : (v.get i).valid = v.valid := rfl
@[simp] theorem lock_node : (v.lock i).node = v.node := rfl
@[simp] theorem setNode_valid : (v.setNode i f).valid = v.valid := rfl
theorem get_ref : (v.get i).ref j = if j = i then v.ref i + 1 else v.ref j := update_apply ..

theorem setNode_node : (v.setNode i f).node j = if j = i then some f else v.node j := update_apply ..

end Fields

theorem drop_get {v : View} {i : ℕ} (h : v.valid i = true → 0 < v.ref i) : (v.get i).drop i = v := by
  refine View.ext rfl (funext fun j => ?_) (funext fun j => ?_) <;> rcases eq_or_ne j i with rfl | hji
  · simp [drop, get]
  · simp [drop, get]
  · cases hv : v.valid j with
    | false => simp [drop, get, hv]
    | true => simp [drop, get, hv, h hv]
  · simp [drop, get, hji]

/-- An inode as `ialloc` makes it. -/
def fresh (type : BitVec 16) : Node := ⟨type, 0, 0, 0, []⟩

end View

namespace Fs

def view (sb : Superblock) (s : Fs) : View where
  node := s.node sb
  ref i := (s.itable i).ref
  valid i := decide (0 < (s.itable i).ref) && (s.itable i).valid

variable {sb : Superblock} {s t : Fs} {i j : ℕ}

@[simp] theorem view_node : (s.view sb).node = s.node sb := rfl

@[simp] theorem view_ref (i : ℕ) : (s.view sb).ref i = (s.itable i).ref := rfl

theorem view_valid : (s.view sb).valid i = true ↔ 0 < (s.itable i).ref ∧ (s.itable i).valid = true := by
  rw [view, Bool.and_eq_true_iff, decide_eq_true_iff]

theorem dataOf_of_node {f : Node} (hf : s.node sb i = some f) : s.dataOf sb i = f.data := by
  have hl : s.Live sb i := by
    by_contra hl
    rw [node_eq_none.2 hl] at hf
    cases hf
  rw [node_of_live hl, Option.some_inj] at hf
  rw [← hf]

theorem node_ne_none : s.node sb i ≠ none ↔ s.Live sb i := by
  rw [Ne, node_eq_none, not_not]

/-! ## The in-memory copy -/

theorem node_of_valid (h : s.Wf sb) (hv : (s.itable i).valid = true) : s.node sb i =
    some ⟨(s.itable i).din.type, (s.itable i).din.major, (s.itable i).din.minor, (s.itable i).din.nlink,
      s.dataOf sb i⟩ := by
  rw [node_of_live (h.synced i hv).1, cur_of_valid hv]

theorem size_of_node {f : Node} (hf : s.node sb i = some f) : s.sizeOf sb i = f.data.length := by
  rw [← dataOf_of_node hf, length_dataOf]

section Fields

variable (h : s.Wf sb) (hv : (s.itable i).valid = true) {f : Node} (hf : s.node sb i = some f)
include h hv hf

theorem din_type : (s.itable i).din.type = f.type := by
  rw [node_of_valid h hv, Option.some_inj] at hf
  rw [← hf]

theorem din_nlink : (s.itable i).din.nlink = f.nlink := by
  rw [node_of_valid h hv, Option.some_inj] at hf
  rw [← hf]

omit h in
theorem din_size : (s.itable i).din.size.toNat = f.data.length := by
  rw [← size_of_node hf, sizeOf, cur_of_valid hv]

end Fields

theorem Wf.cur_eq (h : s.Wf sb) (j : ℕ) : s.cur sb j = sb.inodeAt s.disk j := by
  rw [cur]
  split_ifs with hv
  · exact (h.synced j hv).2.symm
  · rfl

theorem Wf.congr_disk (h : s.Wf sb) (hdisk : t.disk = s.disk)
    (hsync : ∀ j, (t.itable j).valid = true → s.Live sb j ∧ (t.itable j).din = sb.inodeAt s.disk j) :
    t.Wf sb ∧ t.node sb = s.node sb := by
  have hcur : ∀ j, t.cur sb j = s.cur sb j := fun j => by
    rw [cur, hdisk, h.cur_eq]
    split_ifs with hv
    · exact (hsync j hv).2
    · rfl
  have halike : ∀ j, Alike sb j s t := fun j => ⟨fun _ => hcur j, fun b _ => by rw [hdisk]⟩
  refine ⟨⟨h.owned.congr (fun j => (halike j).live_iff) (fun j k hj _ => (halike j).slot_eq h.owned hj k) ?_,
    noHoles_iff.2 fun j hj => (halike j).holeFree h ((halike j).live_iff.1 hj), fun j hv => ?_⟩,
    funext fun j => (halike j).node_eq h⟩
  · funext b
    rw [used, used, hdisk]
  · obtain ⟨hl, heq⟩ := hsync j hv
    exact ⟨(halike j).live_iff.2 hl, by rw [heq, hdisk]⟩

/-- An entry of `itable` is assigned a copy of the disk, or one that is not valid. -/
theorem Wf.setEntry (h : s.Wf sb) {e : InodeEntry}
    (he : e.valid = true → s.Live sb i ∧ e.din = sb.inodeAt s.disk i) :
    (s.setEntry i e).Wf sb ∧ (s.setEntry i e).node sb = s.node sb := by
  refine h.congr_disk rfl fun j hv => ?_
  rcases eq_or_ne j i with rfl | hji
  · rw [itable_setEntry, update_self] at hv ⊢
    exact he hv
  · rw [itable_setEntry, update_of_ne hji] at hv ⊢
    obtain ⟨hl, heq⟩ := h.synced j hv
    exact ⟨hl, heq.symm⟩

theorem view_setEntry {e : InodeEntry} (hnode : (s.setEntry i e).node sb = s.node sb) :
    (s.setEntry i e).view sb =
      ⟨s.node sb, update (s.view sb).ref i e.ref, update (s.view sb).valid i (decide (0 < e.ref) && e.valid)⟩ := by
  refine View.ext hnode (funext fun j => ?_) (funext fun j => ?_) <;>
    rcases eq_or_ne j i with rfl | hji
  · simp [view]
  · simp [view, hji]
  · simp [view]
  · simp [view, hji]

theorem Wf.of_empty (haddr : ∀ i, s.Live sb i → ∀ k, (s.cur sb i).addr k = 0)
    (hsize : ∀ i, s.Live sb i → s.sizeOf sb i = 0) (hused : ∀ b, s.used sb b = true ↔ b < sb.nmeta)
    (hsync : s.Synced sb) : s.Wf sb := by
  have hslot : ∀ i k, s.Live sb i → s.slot sb i k = 0 := fun i k hi => by
    rw [slot, slotOf, haddr i hi, haddr i hi, if_pos rfl, ite_self]
  have hholds : ∀ x, s.holds sb x = none := fun x => if_neg fun h => h.2.2 (hslot x.1 x.2 h.1)
  refine ⟨⟨fun x y b hx => ?_, fun x b hx => ?_, fun b => ?_⟩, ⟨fun i hi => ?_, fun i bn hi hbn => ?_⟩, hsync⟩
  · rw [hholds] at hx
    cases hx
  · rw [hholds] at hx
    cases hx
  · rw [hused b]
    refine (or_iff_left ?_).symm
    rintro ⟨x, hx⟩
    rw [hholds] at hx
    cases hx
  · rw [hsize i hi]
    exact zero_le
  · rw [hsize i hi] at hbn
    exact absurd hbn (Nat.not_lt_zero _)

/-! ## References and locks -/

theorem active_congr (h : ∀ j, (t.itable j).ref = (s.itable j).ref) : t.active = s.active := by
  simp only [active, h]

/-- **No more entries are in use than inodes are referenced.** -/
theorem active_le (l : List ℕ) (h : ∀ j, 0 < (s.itable j).ref → j ∈ l) : s.active ≤ l.length := by
  rw [active, List.countP_eq_length_filter]
  refine ((List.nodup_range.filter _).subperm fun j hj => h j ?_).length_le
  exact of_decide_eq_true (List.mem_filter.1 hj).2

theorem Wf.addRef (h : s.Wf sb) (href : 0 < (s.itable i).ref) :
    (s.setEntry i { s.itable i with ref := (s.itable i).ref + 1 }).Wf sb ∧
      (s.setEntry i { s.itable i with ref := (s.itable i).ref + 1 }).view sb = (s.view sb).get i := by
  obtain ⟨hwf, hnode⟩ := h.setEntry (e := { s.itable i with ref := (s.itable i).ref + 1 })
    fun hv => ⟨(h.synced i hv).1, (h.synced i hv).2.symm⟩
  refine ⟨hwf, ?_⟩
  rw [view_setEntry hnode]
  refine View.ext rfl rfl (update_eq_iff.2 ⟨?_, fun _ _ => rfl⟩)
  simp [View.get, view, href]

/-- **`iget` takes a reference**, and panics if the inode has none and the table is full. -/
theorem iget_spec (h : s.Wf sb) (i : ℕ) :
    Ensures (iget i) s (fun _ t => t.Wf sb ∧ t.view sb = (s.view sb).get i)
      fun e => e = .igetNoInodes ∧ NINODE ≤ s.active := by
  rw [iget, get_bind_iff]
  split_ifs with href hroom
  · exact set_iff.2 (h.addRef href)
  · rw [set_iff]
    obtain ⟨hwf, hnode⟩ := h.setEntry (e := { s.itable i with ref := 1, valid := false }) fun hv => by cases hv
    refine ⟨hwf, ?_⟩
    rw [view_setEntry hnode]
    refine View.ext rfl ?_ (update_eq_iff.2 ⟨?_, fun _ _ => rfl⟩)
    · rw [View.get, view_ref, Nat.eq_zero_of_not_pos href]
    · simp [View.get, view, href]
  · exact throw_iff.2 ⟨rfl, le_of_not_gt hroom⟩

/-- **`ilock` reads an allocated inode from the disk and panics on one that is not.** -/
theorem ilock_spec (h : s.Wf sb) (hi : i < sb.ninodes) (href : 0 < (s.itable i).ref) :
    Ensures (ilock sb i) s
      (fun _ t => t.Wf sb ∧ t.view sb = (s.view sb).lock i ∧ (t.itable i).valid = true ∧
        s.node sb i ≠ none)
      fun e => e = .ilockNoType ∧ s.node sb i = none := by
  unfold ilock
  rw [get_bind_iff, if_neg (by omega)]
  split_ifs with hv htype
  · rw [pure_iff]
    refine ⟨h, View.ext rfl rfl ?_, hv, node_ne_none.2 (h.synced i hv).1⟩
    exact (update_eq_self_iff.2 (view_valid.2 ⟨href, hv⟩).symm).symm
  · rw [bind_iff, set_iff, throw_iff]
    refine ⟨rfl, node_eq_none.2 fun hl => hl.2 ?_⟩
    rw [cur, if_neg hv, htype]
  · rw [bind_iff, set_iff, pure_iff]
    have hl : s.Live sb i := ⟨hi, by rwa [cur, if_neg hv]⟩
    obtain ⟨hwf, hnode⟩ := h.setEntry (e := { s.itable i with valid := true, din := sb.inodeAt s.disk i })
      fun _ => ⟨hl, rfl⟩
    refine ⟨hwf, ?_, by rw [itable_setEntry, update_self], node_ne_none.2 hl⟩
    rw [view_setEntry hnode]
    refine View.ext rfl (update_eq_self i _) ?_
    simp [View.lock, href]

theorem iunlock_spec (href : 0 < (s.itable i).ref) : Ensures (iunlock i) s (fun _ t => t = s) := by
  unfold iunlock
  rw [get_bind_iff, if_neg (by omega), pure_iff]

/-! ## Allocating and freeing inodes -/

/-- **An inode without blocks is written to the disk**: it is allocated or freed. -/
theorem Wf.putInode (h : s.Wf sb) (hsb : sb.Ok) (ip : Dinode) (hi : i < sb.ninodes)
    (hold : ∀ k, s.Live sb i → s.slot sb i k = 0) (haddr : ∀ k, ip.addr k = 0) (hsize : ip.size.toNat = 0)
    (hdisk : t.disk = sb.putInode s.disk i ip) (hother : ∀ j, j ≠ i → t.itable j = s.itable j)
    (hvalid : (t.itable i).valid = false) :
    t.Wf sb ∧ t.node sb = update (s.node sb) i
      (if ip.type = 0 then none else some ⟨ip.type, ip.major, ip.minor, ip.nlink, []⟩) := by
  have hcuri : t.cur sb i = ip := by
    rw [cur, hvalid, if_neg Bool.false_ne_true, hdisk, inodeAt_putInode, update_self]
  have halike : ∀ j, j ≠ i → Alike sb j s t := fun j hji =>
    ⟨fun _ => by rw [cur, hother j hji, hdisk, inodeAt_putInode, update_of_ne hji, cur],
      fun b hb => by rw [hdisk, putInode_of_le hsb hi hb]⟩
  have hempty : ∀ k, t.slot sb i k = 0 := fun k => by
    rw [slot, hcuri, slotOf, haddr, haddr, if_pos rfl, ite_self]
  have hsizei : t.sizeOf sb i = 0 := by rw [sizeOf, hcuri, hsize]
  refine ⟨⟨?_, h.noHoles_of_alike halike hsizei, fun j hvj => ?_⟩, ?_⟩
  · have hholds : t.holds sb = s.holds sb := by
      funext x
      obtain ⟨j, k⟩ := x
      rcases eq_or_ne j i with rfl | hji
      · rw [holds_eq_none (hempty k)]
        by_cases hl : s.Live sb j
        · rw [holds_eq_none (hold k hl)]
        · exact (if_neg fun hh => hl hh.1).symm
      · exact (halike j hji).holds_eq h.owned k
    have hused : t.used sb = s.used sb := by
      funext b
      rw [used, used, hdisk, bitAt_putInode hsb hi]
    rw [Owned, hholds, hused]
    exact h.owned
  · rcases eq_or_ne j i with rfl | hji
    · rw [hvalid] at hvj
      cases hvj
    · rw [hother j hji] at hvj ⊢
      obtain ⟨hl, heq⟩ := h.synced j hvj
      refine ⟨(halike j hji).live_iff.2 hl, ?_⟩
      rw [hdisk, inodeAt_putInode, update_of_ne hji, heq]
  · funext j
    rcases eq_or_ne j i with rfl | hji
    · rw [update_self]
      split_ifs with htype
      · exact node_eq_none.2 fun hl => hl.2 (by rw [hcuri, htype])
      · rw [node_of_live ⟨hi, by rwa [hcuri]⟩, hcuri, dataOf, hsizei]
        rfl
    · rw [update_of_ne hji, (halike j hji).node_eq h]

/-- **`ialloc` gives a free inode the type**, or there is none; it panics if the table is full. -/
theorem ialloc_spec (h : s.Wf sb) (hsb : sb.Ok) {type : BitVec 16} (htype : type ≠ 0) :
    Ensures (ialloc sb type) s
      (fun r t => (r = none ∧ t = s ∧ ∀ i, 0 < i → i < sb.ninodes → s.node sb i ≠ none) ∨
        ∃ i, r = some i ∧ 0 < i ∧ i < sb.ninodes ∧ s.node sb i = none ∧
          t.Wf sb ∧ t.view sb = ((s.view sb).setNode i (View.fresh type)).get i)
      fun e => e = .igetNoInodes ∧ NINODE ≤ s.active := by
  unfold ialloc
  rw [get_bind_iff]
  cases hfind : (List.range' 1 (sb.ninodes - 1)).find? fun i => (sb.inodeAt s.disk i).type = 0 with
  | none =>
    refine .pure (.inl ⟨rfl, rfl, fun i hpos hi => node_ne_none.2 ⟨hi, ?_⟩⟩)
    have hused := List.find?_eq_none.1 hfind i (List.mem_range'_1.2 (by omega))
    rw [h.cur_eq]
    simpa using hused
  | some i =>
    have hmem := List.mem_range'_1.1 (List.mem_of_find?_eq_some hfind)
    have hi : i < sb.ninodes := by omega
    have hfree : (sb.inodeAt s.disk i).type = 0 := by simpa using List.find?_some hfind
    have hdead : ¬s.Live sb i := fun hl => hl.2 (by rw [h.cur_eq, hfree])
    have hv : (s.itable i).valid = false := Bool.eq_false_iff.2 fun hv => hdead (h.synced i hv).1
    obtain ⟨hwf, hnode⟩ := h.putInode (t := { s with disk := sb.putInode s.disk i { Dinode.zero with type := type } })
      hsb { Dinode.zero with type := type } hi (fun _ hl => absurd hl hdead)
      (fun k => by simp [Dinode.addr, Dinode.zero]) rfl rfl (fun _ _ => rfl) hv
    rw [bind_iff, set_iff, bind_iff]
    refine (iget_spec hwf i).imp ?_
    rintro _ t ⟨hwft, hview⟩
    refine .pure (.inr ⟨i, rfl, hmem.1, hi,
      node_eq_none.2 hdead, hwft, hview.trans ?_⟩)
    rw [View.get, View.get, View.setNode]
    refine View.ext ?_ rfl rfl
    rw [view_node, hnode, if_neg htype]
    rfl

/-- **`iput` drops a reference**, and frees an inode without links that loses its last one. -/
theorem iput_spec (h : s.Wf sb) (hsb : sb.Ok) (href : 0 < (s.itable i).ref) :
    Ensures (iput sb i) s
      (fun _ t => t.Wf sb ∧ (((s.view sb).Dying i ∧ t.view sb = (s.view sb).free i) ∨
        (¬(s.view sb).Dying i ∧ t.view sb = (s.view sb).drop i))) := by
  have hdying : (s.itable i).ref = 1 ∧ (s.itable i).valid = true ∧ (s.itable i).din.nlink = 0 ↔
      (s.view sb).Dying i := by
    refine and_congr_right fun h1 => ?_
    rw [view_valid, h1]
    constructor
    · rintro ⟨hv, hn⟩
      exact ⟨⟨Nat.one_pos, hv⟩, _, node_of_valid h hv, hn⟩
    · rintro ⟨⟨-, hv⟩, f, hf, hn⟩
      exact ⟨hv, (din_nlink h hv hf).trans hn⟩
  unfold iput
  rw [get_bind_iff]
  split_ifs with hc
  · have hdie := hdying.1 hc
    obtain ⟨h1, hv, -⟩ := hc
    have hi := (h.synced i hv).1.1
    have hs := node_of_valid h hv
    refine (itrunc_spec h hsb hv).bind fun _ t ht => ?_
    have hvt : (t.itable i).valid = true := (ht.valid i).trans hv
    have hnode := ht.node _ hs
    have hti : t.node sb i = some _ := (congrFun hnode i).trans (update_self ..)
    simp only [inode, bind_assoc, pure_bind]
    rw [get_bind_iff, update_inode, bind_iff, modify_iff, modify_iff]
    generalize hip : { (t.itable i).din with type := 0 } = ip
    have haddr : ∀ k, ip.addr k = 0 := fun k => by
      rcases lt_or_ge k (NDIRECT + 1) with hk | hk
      · have hz := ht.empty k
        rw [slot_of_lt hk, cur_of_valid hvt] at hz
        rw [← hip]
        exact hz
      · exact Dinode.addr_of_le hk
    have hsize : ip.size.toNat = 0 := by
      rw [← hip]
      exact din_size hvt hti
    generalize hu : ((t.store sb i ip).setEntry i { (t.store sb i ip).itable i with valid := false }).setEntry i
      { ((t.store sb i ip).setEntry i { (t.store sb i ip).itable i with valid := false }).itable i with
        ref := (((t.store sb i ip).setEntry i { (t.store sb i ip).itable i with valid := false }).itable i).ref - 1 } = u
    have hui : (u.itable i).ref = 0 ∧ (u.itable i).valid = false := by
      rw [← hu]
      simp [itable_store, ht.ref, h1]
    have huj : ∀ j, j ≠ i → u.itable j = t.itable j := fun j hj => by
      rw [← hu, itable_setEntry, update_of_ne hj, itable_setEntry, update_of_ne hj, itable_store_of_ne hj]
    obtain ⟨hwf, hnodeu⟩ := ht.wf.putInode (t := u) hsb ip hi (fun k _ => ht.empty k) haddr hsize
      (by rw [← hu]; rfl) huj hui.2
    have htype : ip.type = 0 := by rw [← hip]
    refine ⟨hwf, .inl ⟨hdie, View.ext ?_ (funext fun j => ?_) (funext fun j => ?_)⟩⟩
    · rw [view_node, hnodeu, if_pos htype, hnode, update_idem]
      rfl
    · rcases eq_or_ne j i with rfl | hji
      · simp [View.free, hui.1]
      · simp [View.free, hji, huj j hji, ht.ref]
    · rcases eq_or_ne j i with rfl | hji
      · simp [View.free, view, hui.2]
      · simp [View.free, view, hji, huj j hji, ht.ref, ht.valid]
  · rw [modify_iff]
    obtain ⟨hwf, hnode⟩ := h.setEntry (e := { s.itable i with ref := (s.itable i).ref - 1 })
      fun hv => ⟨(h.synced i hv).1, (h.synced i hv).2.symm⟩
    refine ⟨hwf, .inr ⟨mt hdying.2 hc, ?_⟩⟩
    rw [view_setEntry hnode]
    refine View.ext rfl rfl (congrArg (update (s.view sb).valid i) ?_)
    by_cases h1 : 1 < (s.itable i).ref
    · simp [view, h1, href]
    · simp [view, h1]

/-! ## Contents -/

theorem Written.view_eq {off len : ℕ} {w : List Byte} (h : Written sb i off len w s t) {f : Node}
    (hf : s.node sb i = some f) :
    t.view sb = (s.view sb).setNode i { f with data := written f.data off len w } := by
  refine View.ext (h.node f hf) (funext h.ref) (funext fun j => ?_)
  simp [view, View.setNode, h.ref, h.valid]

end Fs

end Xv6

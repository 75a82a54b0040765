import Xv6.Fs.Dir

/-!
# Fs/DirMap — a directory is a finite map

`DirReach sb i s`: directory `i` was built by calls of `dirlink` and by the steps of `sys_unlink`,
with other work in between that leaves its contents alone.  In every such state no key occurs twice,
and `dirlookup`, `dirlink` and `sys_unlink` look up in, insert into and delete from a map.
-/

namespace Xv6

open Machinery Function Superblock Fs

variable (sb : Superblock) (i : ℕ)

/-- The step of `sys_unlink` on the directory: the entry found is zeroed. -/
def unlinkEntry (name : List Byte) : FsM Unit := do
  match ← dirlookup sb i name with
  | none => return
  | some (ip, off) =>
    zeroEntry sb i off
    iput sb ip

/-- **The states of a directory that `dirlink` and `sys_unlink` have built.** -/
inductive DirReach : Fs → Prop
  | fresh {s : Fs} {f : Node} (h : s.DirLocked sb i f) (hempty : f.data = []) : DirReach s
  | dirlink {s t : Fs} {name : List Byte} {inum : ℕ} {r : ℤ} (h : DirReach s) (hpos : 0 < inum)
      (hinum : inum < 2 ^ 16) (hrun : dirlink sb i name inum s = .ok (r, t)) : DirReach t
  | unlink {s t : Fs} {name : List Byte} (h : DirReach s) (hrun : unlinkEntry sb i name s = .ok ((), t)) :
      DirReach t
  | other {s t : Fs} (h : DirReach s) (hwf : t.Wf sb) (hvalid : (t.view sb).valid i = true)
      (hnode : t.node sb i = s.node sb i) : DirReach t

/-- The inode number that `dirlookup` returns. -/
def lookupOf (s : Fs) (name : List Byte) : Option ℕ :=
  match dirlookup sb i name s with
  | .ok (some (ip, _), _) => some ip
  | _ => none

namespace Fs

variable {sb} {i} {s t : Fs} {f : Node}

/-- A directory with different keys. -/
structure DirDistinct (sb : Superblock) (s : Fs) (i : ℕ) (f : Node) : Prop extends s.DirLocked sb i f where
  distinct : Distinct f.data

namespace DirDistinct

variable (h : s.DirDistinct sb i f)
include h

theorem lookupOf_eq (hroom : s.active < NINODE) (name : List Byte) :
    lookupOf sb i s name = dirMap f.data (nameKey name) := by
  obtain ⟨r, t, hrun, hr⟩ := (h.dirlookup_spec name).exists_ok fun _ he => he.2.not_gt hroom
  rw [lookupOf, hrun]
  rcases hr with ⟨hnone, rfl, -⟩ | ⟨k, hsome, rfl, -⟩
  · rw [dirMap, hnone]
    rfl
  · rw [dirMap, hsome]
    rfl

theorem setNode {d : List Byte} (hwf : t.Wf sb) (hview : t.view sb = (s.view sb).setNode i { f with data := d })
    (hsize : d.length % DIRENT = 0) (hd : Distinct d) : t.DirDistinct sb i { f with data := d } where
  wf := hwf
  valid := by
    rw [hview]
    exact h.valid
  node := by
    have hnode := congrArg (fun v => v.node i) hview
    simpa [View.setNode_node] using hnode
  type := h.type
  size := hsize
  distinct := hd

theorem view_eq (hwf : t.Wf sb) (hview : t.view sb = s.view sb) : t.DirDistinct sb i f where
  wf := hwf
  valid := by
    rw [hview]
    exact h.valid
  node := by
    have hnode := congrArg (fun v => v.node i) hview
    exact hnode.trans h.node
  type := h.type
  size := h.size
  distinct := h.distinct

/-- **`dirlink` inserts into the map**, unless the key is there or the directory cannot grow. -/
theorem dirlink_insert (hsb : sb.Ok) (name : List Byte) {inum : ℕ} (hpos : 0 < inum) (hinum : inum < 2 ^ 16) :
    Ensures (dirlink sb i name inum) s
      (fun r t => t.active = s.active ∧ ((r = -1 ∧ t.DirDistinct sb i f ∧
          (dirMap f.data (nameKey name) ≠ none ∨
            (∀ k < nslots f.data, (slotAt f.data k).inum ≠ 0) ∧ Crammed sb f t)) ∨
        (r = 0 ∧ dirMap f.data (nameKey name) = none ∧ ∃ g, t.DirDistinct sb i g ∧
          dirMap g.data = update (dirMap f.data) (nameKey name) (some inum))))
      fun e => e = .igetNoInodes ∧ NINODE ≤ s.active := by
  refine (h.dirlink_spec hsb name inum).imp ?_
  rintro r t ⟨hwf, ⟨rfl, hview, hwhy⟩ | ⟨rfl, hnone, k, hfree, hview⟩⟩
  · refine ⟨active_congr (congrFun (congrArg View.ref hview)), .inl ⟨rfl, h.view_eq hwf hview, hwhy.imp ?_ ?_⟩⟩
    · rw [dirMap, Ne, Ne, Option.map_eq_none_iff]
      exact id
    · exact fun hfull => ⟨hfull.1.first, hfull.2⟩
  · have hnew : dirMap f.data (nameKey name) = none := by rw [dirMap, hnone]; rfl
    have hkey : nameKey (strncpy name DIRSIZ) = nameKey name := strn_strncpy _ _
    obtain ⟨hdist, hmap⟩ := h.distinct.insert ⟨inum, strncpy name DIRSIZ⟩ h.size (length_strncpy _ _)
      hfree.le hfree.free hinum hpos.ne' (hkey.symm ▸ hnew)
    refine ⟨active_congr (congrFun (congrArg View.ref hview)), .inr ⟨rfl, hnew, _, h.setNode hwf hview
      (length_putSlot_mod h.size hfree.le (length_strncpy _ _)) hdist, ?_⟩⟩
    rw [hmap, hkey]

/-- **`sys_unlink` deletes from the map.** -/
theorem unlinkEntry_erase (hsb : sb.Ok) (name : List Byte) :
    Ensures (unlinkEntry sb i name) s
      (fun _ t => t.active = s.active ∧
        ∃ g, t.DirDistinct sb i g ∧ dirMap g.data = update (dirMap f.data) (nameKey name) none)
      fun e => e = .igetNoInodes ∧ NINODE ≤ s.active := by
  unfold unlinkEntry
  refine (h.dirlookup_spec name).bind ?_
  rintro r t (⟨hnone, rfl, rfl⟩ | ⟨k, hsome, rfl, hwf, hview⟩)
  · refine .pure ⟨rfl, f, h, (update_eq_self_iff.2 ?_).symm⟩
    rw [dirMap, hnone]
    rfl
  · obtain ⟨hk, hnames, -⟩ := findSlot_eq_some.1 hsome
    generalize (slotAt f.data k).inum = j at *
    have hnode : t.node sb i = some f := (congrFun (congrArg View.node hview) i).trans h.node
    have hl : t.DirLocked sb i f := ⟨hwf, by rw [hview]; exact h.valid, hnode, h.type, h.size⟩
    obtain ⟨hdist, hmap⟩ := h.distinct.erase .zero h.size (by decide) hk rfl hnames
    refine Ensures.bind ((hl.zeroEntry_spec hsb hk).total) ?_
    rintro _ u ⟨hwfu, hviewu⟩
    -- the reference that `dirlookup` took is dropped again
    have hcomm : u.view sb = ((s.view sb).setNode i { f with data := putSlot f.data k .zero }).get j := by
      rw [hviewu, hview]
      rfl
    have href : (u.view sb).ref j = (s.view sb).ref j + 1 := by rw [hcomm, View.get_ref, if_pos rfl]; rfl
    refine (iput_spec hwfu hsb (by rw [← view_ref, href]; exact Nat.succ_pos _)).mono ?_ fun _ => False.elim
    rintro _ w ⟨hwfw, ⟨⟨hone, hvalid, -⟩, -⟩ | ⟨-, hdrop⟩⟩
    · rw [hcomm, View.get_valid, View.setNode_valid] at hvalid
      have hpos := (view_valid.1 hvalid).1
      rw [href, view_ref] at hone
      omega
    · rw [hcomm, View.drop_get] at hdrop
      swap
      · exact fun hv : (s.view sb).valid j = true => (view_valid.1 hv).1
      exact ⟨active_congr (congrFun (congrArg View.ref hdrop)), _, h.setNode hwfw hdrop
        (length_putSlot_mod h.size hk.le (by decide)) hdist, hmap⟩

end DirDistinct

end Fs

theorem DirReach.exists_distinct {sb : Superblock} (hsb : sb.Ok) {i : ℕ} {s : Fs} (h : DirReach sb i s) :
    ∃ f, s.DirDistinct sb i f := by
  induction h with
  | fresh h hempty =>
    refine ⟨_, h, fun k hk => ?_⟩
    rw [nslots, hempty] at hk
    exact absurd hk (Nat.not_lt_zero k)
  | dirlink _ hpos hinum hrun ih =>
    obtain ⟨f, hf⟩ := ih
    rcases (hf.dirlink_insert hsb _ hpos hinum).of_ok hrun with ⟨-, ⟨-, ht, -⟩ | ⟨-, -, g, ht, -⟩⟩
    · exact ⟨f, ht⟩
    · exact ⟨g, ht⟩
  | unlink _ hrun ih =>
    obtain ⟨f, hf⟩ := ih
    obtain ⟨-, g, hg, -⟩ := (hf.unlinkEntry_erase hsb _).of_ok hrun
    exact ⟨g, hg⟩
  | other _ hwf hvalid hnode ih =>
    obtain ⟨f, hf⟩ := ih
    exact ⟨f, ⟨hwf, hvalid, hnode.trans hf.node, hf.type, hf.size⟩, hf.distinct⟩

theorem strncpy_of_le {n : ℕ} {name : List Byte} (hlen : n ≤ name.length) (h : ∀ b ∈ name.take n, b ≠ 0) :
    strncpy name n = name.take n := by
  induction n generalizing name with
  | zero => rfl
  | succ n ih =>
    cases name with
    | nil => exact absurd hlen (Nat.not_succ_le_zero n)
    | cons b name =>
      rw [List.take_succ_cons] at h ⊢
      rw [strncpy, List.headD_cons, if_pos (h b List.mem_cons_self), List.tail_cons,
        ih (Nat.le_of_succ_le_succ hlen) fun c hc => h c (List.mem_cons_of_mem b hc)]

/-- **A directory is a finite map keyed by the first `DIRSIZ` bytes of a name.**  In every state that
`dirlink` and `sys_unlink` have built and in which `iget` has an entry: no two live entries have equal names;
`dirlookup` returns; `dirlink` returns, and it fails if and only if the key is present or all slots are in use
and the directory cannot grow; if it fails nothing of the directory changes, and if it succeeds the lookup of the
key gives `inum` and of every other key what it gave before; the unlink of a name removes exactly its key.  A
name of `DIRSIZ` bytes or more is stored without a terminator and matched by its truncation. -/
theorem directory_is_map {sb : Superblock} (hsb : sb.Ok) {i : ℕ} {s : Fs} (h : DirReach sb i s)
    (hroom : s.active < NINODE) :
    ∃ f, s.node sb i = some f ∧
      (∀ k < nslots f.data, ∀ l < nslots f.data, (slotAt f.data k).inum ≠ 0 → (slotAt f.data l).inum ≠ 0 →
        namecmp (slotAt f.data k).name (slotAt f.data l).name = 0 → k = l) ∧
      (∀ name, ∃ r t, dirlookup sb i name s = .ok (r, t)) ∧
      (∀ name inum, 0 < inum → inum < 2 ^ 16 → ∃ r t, dirlink sb i name inum s = .ok (r, t) ∧
        t.active = s.active ∧ (lookupOf sb i s name ≠ none → r = -1) ∧
        (r = -1 ∧ t.node sb i = s.node sb i ∧ (lookupOf sb i s name ≠ none ∨
            (∀ k < nslots f.data, (slotAt f.data k).inum ≠ 0) ∧ Crammed sb f t) ∨
          r = 0 ∧ ∀ name', lookupOf sb i t name' =
            if nameKey name' = nameKey name then some inum else lookupOf sb i s name')) ∧
      (∀ name, ∃ t, unlinkEntry sb i name s = .ok ((), t) ∧ t.active = s.active ∧ ∀ name',
        lookupOf sb i t name' = if nameKey name' = nameKey name then none else lookupOf sb i s name') ∧
      (∀ name : List Byte, DIRSIZ ≤ name.length → (∀ b ∈ name.take DIRSIZ, b ≠ 0) →
        strncpy name DIRSIZ = name.take DIRSIZ ∧ nameKey name = name.take DIRSIZ) := by
  obtain ⟨f, hf⟩ := h.exists_distinct hsb
  have hnot : ∀ e : FsPanic, ¬ (e = .igetNoInodes ∧ NINODE ≤ s.active) := fun _ he => he.2.not_gt hroom
  refine ⟨f, hf.node, fun k hk l hl h1 h2 heq => hf.distinct k hk l hl h1 h2 (namecmp_eq_zero.1 heq),
    fun name => ?_, fun name inum hpos hinum => ?_, fun name => ?_, fun name hlen hne =>
    ⟨strncpy_of_le hlen hne, nameKey_of_le hne⟩⟩
  · obtain ⟨r, t, hrun, -⟩ := (hf.dirlookup_spec name).exists_ok hnot
    exact ⟨r, t, hrun⟩
  · obtain ⟨r, t, hrun, hact, hr⟩ := (hf.dirlink_insert hsb name hpos hinum).exists_ok hnot
    have hroom' : t.active < NINODE := hact.trans_lt hroom
    refine ⟨r, t, hrun, hact, ?_, ?_⟩ <;> rw [hf.lookupOf_eq hroom]
    · intro hpresent
      rcases hr with ⟨rfl, -⟩ | ⟨-, hnone, -⟩
      · rfl
      · exact absurd hnone hpresent
    · rcases hr with ⟨rfl, ht, hwhy⟩ | ⟨rfl, -, g, ht, hmap⟩
      · exact .inl ⟨rfl, ht.node.trans hf.node.symm, hwhy⟩
      · refine .inr ⟨rfl, fun name' => ?_⟩
        rw [ht.lookupOf_eq hroom', hf.lookupOf_eq hroom, hmap, update_apply]
  · obtain ⟨_, t, hrun, hact, g, ht, hmap⟩ := (hf.unlinkEntry_erase hsb name).exists_ok hnot
    refine ⟨t, hrun, hact, fun name' => ?_⟩
    rw [ht.lookupOf_eq (hact.trans_lt hroom), hf.lookupOf_eq hroom, hmap, update_apply]

/-- A disk of eight blocks: block 1 has the inodes, block 2 the free map. -/
def Superblock.tiny : Superblock := ⟨8, 5, 16, 1, 2⟩

def Dinode.emptyDir : Dinode := { Dinode.zero with type := T_DIR, nlink := 1 }

/-- A disk with an empty directory, inode 1, which is locked. -/
def Fs.tiny : Fs where
  disk := Superblock.tiny.putInode (update (fun _ => Bytes.fill BSIZE 0) 2 ((Bytes.fill BSIZE 0).splice 0 [7]))
    1 .emptyDir
  itable i := if i = 1 then ⟨1, true, .emptyDir⟩ else ⟨0, false, .zero⟩

theorem Superblock.tiny_ok : Superblock.tiny.Ok := by
  refine ⟨?_, ?_, ?_, ?_, ?_, ?_⟩ <;> decide

theorem Fs.tiny_cur {i : ℕ} (hi : i < 16) :
    Fs.tiny.cur .tiny i = if i = 1 then Dinode.emptyDir else Dinode.zero := by
  have hblock : Superblock.tiny.iblock i = 1 := by
    simp only [Superblock.iblock, Superblock.tiny, IPB, BSIZE]
    omega
  rcases eq_or_ne i 1 with rfl | hne
  · rfl
  · have hdisk : Superblock.tiny.inodeAt Fs.tiny.disk i = Dinode.zero := by
      rw [Fs.tiny, inodeAt_putInode, update_of_ne hne, Superblock.inodeAt, hblock,
        update_of_ne (by decide), Dinode.decode_fill_zero]
    rw [Fs.cur, if_neg hne, hdisk]
    simp [Fs.tiny, hne]

theorem Fs.tiny_live {i : ℕ} (h : Fs.tiny.Live .tiny i) : i = 1 := by
  by_contra hne
  refine h.2 ?_
  rw [tiny_cur h.1, if_neg hne]
  rfl

theorem Fs.tiny_dirLocked : Fs.tiny.DirLocked .tiny 1 ⟨T_DIR, 0, 0, 1, []⟩ := by
  have hlive : Fs.tiny.Live .tiny 1 := by decide
  have hused : ∀ b < 8, Fs.tiny.used .tiny b = decide (b < 3) := by decide
  refine ⟨.of_empty (fun i hi k => ?_) (fun i hi => ?_) (fun b => ?_) (fun i hi => ?_), by decide, ?_, rfl, rfl⟩
  · obtain rfl := tiny_live hi
    rcases lt_or_ge k (NDIRECT + 1) with hk | hk
    · rw [tiny_cur hi.1, if_pos rfl, Dinode.addr, dif_pos hk]
      rfl
    · exact Dinode.addr_of_le hk
  · obtain rfl := tiny_live hi
    rfl
  · by_cases hb : b < 8
    · rw [hused b hb, decide_eq_true_iff]
      rfl
    · refine iff_of_false ?_ (fun h3 : b < 3 => hb (by omega))
      simp [Fs.used, Superblock.tiny, hb]
  · have h1 : i = 1 := by
      by_contra hne
      simp [Fs.tiny, hne] at hi
    subst h1
    refine ⟨hlive, ?_⟩
    rw [Fs.tiny, inodeAt_putInode, update_self]
    rfl
  · exact node_of_live hlive

theorem Fs.tiny_active : Fs.tiny.active < NINODE := by
  refine (active_le [1] fun j hj => List.mem_singleton.2 ?_).trans_lt (by decide)
  by_contra hne
  simp [Fs.tiny, hne] at hj

/-- A name is linked into an empty directory; then it is there, cannot be linked again, and can be unlinked. -/
theorem directory_is_map_tiny : ∃ t, dirlink .tiny 1 [97] 1 Fs.tiny = .ok (0, t) ∧ DirReach .tiny 1 t ∧
    lookupOf .tiny 1 t [97] = some 1 ∧ (∃ u, dirlink .tiny 1 [97] 2 t = .ok (-1, u)) ∧
    ∃ u, unlinkEntry .tiny 1 [97] t = .ok ((), u) ∧ lookupOf .tiny 1 u [97] = none := by
  have hs : DirReach .tiny 1 Fs.tiny := .fresh Fs.tiny_dirLocked rfl
  have hzero : (dirlink .tiny 1 [97] 1 Fs.tiny).toOption.map Prod.fst = some 0 := by decide +kernel
  obtain ⟨⟨r, t⟩, hrun, rfl⟩ := Exec.exists_ok_of_map hzero
  obtain ⟨f, -, -, -, hlink, -⟩ := directory_is_map Superblock.tiny_ok hs Fs.tiny_active
  obtain ⟨r, t', hrun', hact, -, ⟨rfl, -⟩ | ⟨rfl, hlook⟩⟩ := hlink [97] 1 (by decide) (by decide)
  · exact absurd (hrun.symm.trans hrun') (by simp)
  obtain ⟨-, rfl⟩ := Prod.mk.inj (Except.ok.inj (hrun.symm.trans hrun'))
  have ht : DirReach .tiny 1 t := hs.dirlink (by decide) (by decide) hrun
  have hone : lookupOf .tiny 1 t [97] = some 1 := by rw [hlook, if_pos rfl]
  obtain ⟨g, -, -, -, hlink, hunlink, -⟩ := directory_is_map Superblock.tiny_ok ht (hact.trans_lt Fs.tiny_active)
  obtain ⟨r, u, hagain, -, hfail, -⟩ := hlink [97] 2 (by decide) (by decide)
  obtain ⟨w, herase, -, hgone⟩ := hunlink [97]
  obtain rfl := hfail (by rw [hone]; nofun)
  exact ⟨t, hrun, ht, hone, ⟨u, hagain⟩, w, herase, by rw [hgone, if_pos rfl]⟩

/-- The second inode of the disk is free. -/
theorem ialloc_spec_tiny : ∃ i t, ialloc .tiny T_FILE Fs.tiny = .ok (some i, t) ∧ t.Wf .tiny ∧
    t.node .tiny i = some (View.fresh T_FILE) := by
  obtain ⟨r, t, hrun, ⟨-, -, hnone⟩ | ⟨i, rfl, -, -, -, hwf, hview⟩⟩ := (Fs.ialloc_spec Fs.tiny_dirLocked.wf
    Superblock.tiny_ok (show T_FILE ≠ 0 by decide)).exists_ok fun _ he => he.2.not_gt Fs.tiny_active
  · exact absurd (node_eq_none.2 fun hl => absurd (Fs.tiny_live hl) (by decide)) (hnone 2 (by decide) (by decide))
  · refine ⟨i, t, hrun, hwf, ?_⟩
    rw [← view_node, hview, View.get, View.setNode_node, if_pos rfl]

end Xv6

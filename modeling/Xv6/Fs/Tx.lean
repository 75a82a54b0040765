import Mathlib.Data.Finset.Card
import Xv6.Fs.Shared

/-!
# Fs/Tx — the blocks that a `writei` logs

The functions below `writei` once more, with their calls of `log_write`; `writei_follows` connects
them to `Fs/Inode`.  `Spends c`: a part logs at most `c` blocks besides the indirect block and the
part of the free map it is marked in.  A piece of a write spends two, the first piece one if it
starts inside a block of the file.
-/

namespace Xv6

open Machinery Function Ensures List Exec UserSrc

/-- The same source, but a piece that faults leaves nothing behind. -/
def UserSrc.whole (src : UserSrc) : UserSrc :=
  { src with fault := fun tot m => (src.fault tot m).map fun _ => 0 }

theorem UserSrc.fault_whole (src : UserSrc) (tot m : ℕ) :
    src.whole.fault tot m = (src.fault tot m).map fun _ => 0 := rfl

/-- The file system, and the blocks given to `log_write` since `begin_op`. -/
structure Tx where
  fs : Fs
  logged : List ℕ

/-- A function of `fs.c` in a transaction. -/
abbrev TxM (α : Type) := Exec FsPanic Tx α

namespace Tx

def quiet {α : Type} (x : FsM α) : TxM α := x.zoom id Tx.fs fun t s => { t with fs := s }

/-- `log_write` of block `b`. -/
def logWrite (b : ℕ) : TxM Unit := modify fun t => { t with logged := b :: t.logged }

variable (sb : Superblock)

def bzero (b : ℕ) : TxM Unit := do
  quiet (modify fun s => s.setBlock b (Bytes.fill BSIZE 0))
  logWrite b

def balloc : TxM ℕ := do
  let t ← get
  match (List.range sb.size).find? fun b => !sb.bitAt t.fs.disk b with
  | none => return 0
  | some b =>
    quiet (modify fun s => { s with disk := sb.markUsed s.disk b })
    logWrite (sb.bblock b)
    bzero b
    return b

/-- `ip->addrs[k]`, allocated if it is 0. -/
def addrBlock (i k : ℕ) : TxM ℕ := do
  let ip ← quiet (inode i)
  if ip.addr k ≠ 0 then return ip.addr k
  else
    let addr ← balloc sb
    if addr = 0 then return 0
    else
      quiet (setInode i (ip.setAddr k addr))
      return addr

def bmap (i bn : ℕ) : TxM ℕ := do
  if bn < NDIRECT then addrBlock sb i bn
  else if bn - NDIRECT < NINDIRECT then
    let a ← addrBlock sb i NDIRECT
    if a = 0 then return 0
    else
      let t ← get
      if indirect (t.fs.disk a) (bn - NDIRECT) ≠ 0 then return indirect (t.fs.disk a) (bn - NDIRECT)
      else
        let addr ← balloc sb
        if addr = 0 then return 0
        else
          quiet (modify fun s => s.setBlock a ((s.disk a).putLE (4 * (bn - NDIRECT)) 4 addr))
          logWrite a
          return addr
  else throw .bmapRange

def iupdate (i : ℕ) : TxM Unit := do
  quiet (Xv6.iupdate sb i)
  logWrite (sb.iblock i)

/-- The loop of `writei`, and its `off` and `tot` at the end.  A piece that faults is not logged. -/
def writeLoop (i : ℕ) (src : UserSrc) : (fuel off n tot : ℕ) → TxM (ℕ × ℕ)
  | 0, off, _, tot => return (off, tot)
  | fuel + 1, off, n, tot =>
    if tot < n then do
      let addr ← bmap sb i (off / BSIZE)
      if addr = 0 then return (off, tot)
      else
        match src.fault tot (piece off n tot) with
        | some j =>
          quiet (modify fun s => s.setBlock addr
            ((s.disk addr).splice (off % BSIZE) (src.bytes tot (min j (piece off n tot)))))
          return (off, tot)
        | none =>
          quiet (modify fun s => s.setBlock addr
            ((s.disk addr).splice (off % BSIZE) (src.bytes tot (piece off n tot))))
          logWrite addr
          writeLoop i src fuel (off + piece off n tot) n (tot + piece off n tot)
    else return (off, tot)

def writei (i : ℕ) (src : UserSrc) (off n : ℕ) : TxM ℤ := do
  let ip ← quiet (inode i)
  if ip.size.toNat < off ∨ (off + n) % 2 ^ 32 < off then return -1
  else if MAXFILE * BSIZE < (off + n) % 2 ^ 32 then return -1
  else
    let (off, tot) ← writeLoop sb i src n off n 0
    let ip ← quiet (inode i)
    if ip.size.toNat < off then quiet (setInode i { ip with size := BitVec.ofNat 32 off })
    iupdate sb i
    return tot

/-! ## The account of a transaction -/

/-- The indirect block of inode `i`, or 0. -/
def indir (t : Tx) (i : ℕ) : ℕ := (t.fs.itable i).din.addr NDIRECT

/-- A part of a transaction on inode `i` has logged at most `c` blocks, besides the indirect block
and, if that is new, `bm` of the free map. -/
structure Spends (i c : ℕ) (t t' : Tx) : Prop where
  sub : t.logged ⊆ t'.logged
  keep : t.indir i ≠ 0 → t'.indir i = t.indir i
  cost : ∃ (l : List ℕ) (bm : ℕ), l.length ≤ c ∧ ∀ b ∈ t'.logged, b ∈ t.logged ∨ b ∈ l ∨
    t'.indir i ≠ 0 ∧ (b = t'.indir i ∨ t.indir i = 0 ∧ b = bm)

namespace Spends

variable {i c d : ℕ} {t t' t'' : Tx}

theorem refl (i : ℕ) (t : Tx) : Spends i 0 t t :=
  ⟨List.Subset.refl _, fun _ => rfl, [], 0, le_rfl, fun _ => .inl⟩

theorem mono (h : Spends i c t t') (hcd : c ≤ d) : Spends i d t t' := by
  obtain ⟨l, bm, hl, hb⟩ := h.cost
  exact ⟨h.sub, h.keep, l, bm, hl.trans hcd, hb⟩

/-- **Costs add up**, and the indirect block is allocated once. -/
theorem trans (h : Spends i c t t') (h' : Spends i d t' t'') : Spends i (c + d) t t'' := by
  obtain ⟨l, bm, hl, hb⟩ := h.cost
  obtain ⟨l', bm', hl', hb'⟩ := h'.cost
  refine ⟨List.Subset.trans h.sub h'.sub, fun h0 => ?_, l ++ l', if t'.indir i = 0 then bm' else bm, ?_,
    fun b hmem => ?_⟩
  · have h1 := h.keep h0
    rw [h'.keep (h1 ▸ h0), h1]
  · rw [length_append]
    exact Nat.add_le_add hl hl'
  rw [mem_append]
  by_cases h1 : t'.indir i = 0
  · have h0 : t.indir i = 0 := by
      by_contra h0
      exact h0 ((h.keep h0).symm.trans h1)
    rw [if_pos h1]
    rcases hb' b hmem with hm | hm | ⟨hne, hm⟩
    · rcases hb b hm with hm | hm | ⟨hne, -⟩
      · exact .inl hm
      · exact .inr (.inl (.inl hm))
      · exact absurd h1 hne
    · exact .inr (.inl (.inr hm))
    · exact .inr (.inr ⟨hne, hm.imp_right fun hm => ⟨h0, hm.2⟩⟩)
  · have h2 := h'.keep h1
    rw [if_neg h1, h2]
    rcases hb' b hmem with hm | hm | ⟨-, hm⟩
    · rcases hb b hm with hm | hm | hm
      · exact .inl hm
      · exact .inr (.inl (.inl hm))
      · exact .inr (.inr hm)
    · exact .inr (.inl (.inr hm))
    · rcases hm with hm | hm
      · exact .inr (.inr ⟨h1, .inl (hm.trans h2)⟩)
      · exact absurd hm.1 h1

theorem of_logged (hl : t'.logged = t.logged) (hi : t'.indir i = t.indir i) : Spends i 0 t t' :=
  ⟨hl ▸ List.Subset.refl _, fun _ => hi, [], 0, le_rfl, fun _ hb => .inl (hl ▸ hb)⟩

theorem logWrite (b : ℕ) (t : Tx) : Spends i 1 t { t with logged := b :: t.logged } :=
  ⟨subset_cons_self _ _, fun _ => rfl, [b], 0, le_rfl, fun _ hc =>
    (mem_cons.1 hc).elim (fun hc => .inr (.inl (mem_singleton.2 hc))) .inl⟩

theorem absorb {b : ℕ} (h : Spends i c t t') (hb : b ∈ t'.logged) :
    Spends i c t { t' with logged := b :: t'.logged } := by
  obtain ⟨l, bm, hl, hc⟩ := h.cost
  refine ⟨List.Subset.trans h.sub (subset_cons_self _ _), h.keep, l, bm, hl, fun x hx => ?_⟩
  rcases mem_cons.1 hx with rfl | hx
  · exact hc x hb
  · exact hc x hx

theorem indirect {s : Fs} (h0 : t.indir i ≠ 0) (hs : (s.itable i).din = (t.fs.itable i).din) :
    Spends i 0 t ⟨s, t.indir i :: t.logged⟩ := by
  have hind : indir ⟨s, t.indir i :: t.logged⟩ i = t.indir i := by
    rw [indir, hs]
    rfl
  refine ⟨subset_cons_self _ _, fun _ => hind, [], 0, le_rfl, fun b hb => ?_⟩
  rw [hind]
  rcases mem_cons.1 hb with hb | hb
  · exact .inr (.inr ⟨h0, .inl hb⟩)
  · exact .inl hb

theorem card_le (h : Spends i c t t') (h0 : t.logged = []) : t'.logged.toFinset.card ≤ c + 2 := by
  obtain ⟨l, bm, hl, hb⟩ := h.cost
  have hsub : t'.logged.toFinset ⊆ (t'.indir i :: bm :: l).toFinset := fun b hmem => by
    rw [mem_toFinset] at hmem ⊢
    rcases hb b hmem with hm | hm | ⟨-, hm | hm⟩
    · rw [h0] at hm
      exact absurd hm not_mem_nil
    · exact mem_cons_of_mem _ (mem_cons_of_mem _ hm)
    · exact hm ▸ mem_cons_self
    · exact hm.2 ▸ mem_cons_of_mem _ mem_cons_self
  calc t'.logged.toFinset.card ≤ (t'.indir i :: bm :: l).toFinset.card := Finset.card_le_card hsub
    _ ≤ (t'.indir i :: bm :: l).length := toFinset_card_le _
    _ ≤ c + 2 := Nat.add_le_add_right hl 2

end Spends

/-- Every block that has changed is logged. -/
structure Recorded (t t' : Tx) : Prop where
  sub : t.logged ⊆ t'.logged
  same : ∀ b, b ∉ t'.logged → t'.fs.disk b = t.fs.disk b

namespace Recorded

variable {t t' t'' : Tx}

theorem refl (t : Tx) : Recorded t t := ⟨List.Subset.refl _, fun _ _ => rfl⟩

theorem trans (h : Recorded t t') (h' : Recorded t' t'') : Recorded t t'' :=
  ⟨List.Subset.trans h.sub h'.sub, fun b hb => (h'.same b hb).trans (h.same b fun hm => hb (h'.sub hm))⟩

theorem setBlock (t : Tx) (a : ℕ) (x : Block) : Recorded t ⟨t.fs.setBlock a x, a :: t.logged⟩ := by
  refine ⟨subset_cons_self _ _, fun b hb => ?_⟩
  rw [mem_cons, not_or] at hb
  exact update_of_ne hb.1 _ _

end Recorded

section Follows

variable {sb : Superblock} {i k bn : ℕ} {t : Tx}

theorem inode_follows (t : Tx) :
    Follows Tx.fs (quiet (inode i)) (inode i) t fun ip t' => ip = (t.fs.itable i).din ∧ t' = t :=
  .run (t.fs.itable i).din t rfl rfl ⟨rfl, rfl⟩

theorem balloc_follows (t : Tx) :
    Follows Tx.fs (balloc sb) (Xv6.balloc sb) t fun b t' => (b = 0 ∧ t' = t) ∨
      b < sb.size ∧ t' = ⟨t.fs.alloced sb b, b :: sb.bblock b :: t.logged⟩ := by
  rw [balloc, Xv6.balloc]
  refine .get_bind ?_
  cases hfind : (List.range sb.size).find? fun b => !sb.bitAt t.fs.disk b with
  | none => exact .pure (.inl ⟨rfl, rfl⟩)
  | some b =>
    have hlt : b < sb.size := mem_range.1 (mem_of_find?_eq_some hfind)
    exact .run b ⟨t.fs.alloced sb b, b :: sb.bblock b :: t.logged⟩ rfl rfl
      (.inr ⟨hlt, rfl⟩)

theorem recorded_alloced (t : Tx) (b : ℕ) :
    Recorded t ⟨t.fs.alloced sb b, b :: sb.bblock b :: t.logged⟩ := by
  refine ⟨fun x hx => mem_cons_of_mem _ (mem_cons_of_mem _ hx), fun x hx => ?_⟩
  rw [mem_cons, mem_cons, not_or, not_or] at hx
  rw [Fs.alloced, Fs.disk_setBlock, update_of_ne hx.1]
  exact update_of_ne hx.2.1 _ _

theorem spends_alloced (i : ℕ) (t : Tx) (b : ℕ) :
    Spends i 2 t ⟨t.fs.alloced sb b, b :: sb.bblock b :: t.logged⟩ := by
  refine ⟨fun x hx => mem_cons_of_mem _ (mem_cons_of_mem _ hx), fun _ => rfl,
    [b, sb.bblock b], 0, le_rfl, fun x hx => ?_⟩
  rcases mem_cons.1 hx with rfl | hx
  · exact .inr (.inl mem_cons_self)
  rcases mem_cons.1 hx with rfl | hx
  · exact .inr (.inl (mem_cons_of_mem _ mem_cons_self))
  · exact .inl hx

/-- What it costs to get the block `a`: nothing, or two blocks of which `a` is one. -/
def Bought (i a : ℕ) (t t' : Tx) : Prop :=
  Spends i 0 t t' ∨ Spends i 2 t t' ∧ (a ≠ 0 → a ∈ t'.logged)

theorem Bought.write {a : ℕ} {t' : Tx} (h : Bought i a t t') (ha : a ≠ 0) (s : Fs)
    (hs : (s.itable i).din = (t'.fs.itable i).din) : Spends i 2 t ⟨s, a :: t'.logged⟩ := by
  have hquiet : Spends i 0 t' ⟨s, t'.logged⟩ := .of_logged rfl (by rw [indir, hs, indir])
  rcases h with h | ⟨h, hmem⟩
  · exact ((h.trans hquiet).trans (.logWrite a _)).mono (by norm_num)
  · exact (h.trans hquiet).absorb (hmem ha)

theorem addrBlock_follows (h32 : sb.size < 2 ^ 32) (hk : k < NDIRECT + 1) (t : Tx) :
    Follows Tx.fs (addrBlock sb i k) (Xv6.addrBlock sb i k) t fun a t' => Recorded t t' ∧
      (k ≠ NDIRECT → Bought i a t t') ∧
      (k = NDIRECT → (a = 0 → Spends i 2 t t') ∧ (a ≠ 0 → Spends i 0 t t' ∧ t'.indir i = a)) := by
  refine (inode_follows t).bind fun ip t0 ⟨hip, ht0⟩ => ?_
  subst hip ht0
  refine .ite (fun hne => .pure ⟨.refl t0, fun _ => .inl (.refl i t0), fun hkd => ?_⟩) fun hzero => ?_
  · subst hkd
    exact ⟨fun h0 => absurd h0 hne, fun _ => ⟨.refl i t0, rfl⟩⟩
  refine (balloc_follows t0).bind fun b t1 hb => ?_
  rcases hb with ⟨rfl, rfl⟩ | ⟨hlt, ht1⟩
  · rw [if_pos rfl, if_pos rfl]
    exact .pure ⟨.refl t1, fun _ => .inl (.refl i t1), fun _ =>
      ⟨fun _ => (Spends.refl i t1).mono (Nat.zero_le 2), absurd rfl⟩⟩
  · have hrec : Recorded t0 t1 := ht1 ▸ recorded_alloced t0 b
    have hspend : Spends i 2 t0 t1 := ht1 ▸ spends_alloced i t0 b
    refine .ite (fun hb0 => .pure ⟨hrec, fun _ => .inr ⟨hspend, absurd rfl⟩, fun _ =>
      ⟨fun _ => hspend, absurd rfl⟩⟩) fun hb0 => ?_
    let din := (t0.fs.itable i).din.setAddr k b
    let t2 : Tx := { t1 with fs := t1.fs.setEntry i { t1.fs.itable i with din := din } }
    have hind : t2.indir i = if NDIRECT = k then b else t0.indir i := by
      simp only [indir, t2, Fs.itable_setEntry, update_self, din]
      exact Dinode.addr_setAddr hk (hlt.trans h32)
    have hmem : ∀ x, x ∈ t2.logged ↔ x = b ∨ x = sb.bblock b ∨ x ∈ t0.logged := fun x => by
      simp only [t2, ht1, mem_cons]
    refine .run b t2 rfl rfl ⟨hrec.trans ⟨List.Subset.refl _, fun _ _ => rfl⟩,
      fun hkd => .inr ⟨?_, fun _ => (hmem b).2 (.inl rfl)⟩, fun hkd => ⟨(absurd · hb0), fun _ => ?_⟩⟩
    · rw [if_neg (Ne.symm hkd)] at hind
      have hquiet : Spends i 0 t1 t2 := .of_logged rfl (hind.trans (by rw [ht1]; rfl))
      exact hspend.trans hquiet
    · rw [if_pos hkd.symm] at hind
      have hnone : t0.indir i = 0 := by
        rw [indir, ← hkd]
        exact not_not.1 hzero
      refine ⟨⟨fun x hx => (hmem x).2 (.inr (.inr hx)), absurd hnone, [], sb.bblock b, le_rfl, fun x hx => ?_⟩,
        hind⟩
      rw [hind]
      rcases (hmem x).1 hx with hx | hx | hx
      · exact .inr (.inr ⟨hb0, .inl hx⟩)
      · exact .inr (.inr ⟨hb0, .inr ⟨hnone, hx⟩⟩)
      · exact .inl hx

theorem bmap_buys (h32 : sb.size < 2 ^ 32) (t : Tx) :
    Follows Tx.fs (bmap sb i bn) (Xv6.bmap sb i bn) t fun a t' => Recorded t t' ∧ Bought i a t t' := by
  refine .ite (fun hd => ?_) fun hd => .ite (fun hi => ?_) fun hi => ?_
  · exact (addrBlock_follows h32 (Nat.lt_succ_of_lt hd) t).imp fun a t' ⟨hr, hb, _⟩ => ⟨hr, hb hd.ne⟩
  · refine (addrBlock_follows h32 (Nat.lt_succ_self _) t).bind fun a t1 ⟨hr1, _, hind⟩ => ?_
    obtain ⟨hzero, hpos⟩ := hind rfl
    refine .ite (fun ha => .pure ⟨hr1, .inr ⟨hzero ha, absurd rfl⟩⟩) fun ha => .get_bind ?_
    obtain ⟨hs1, ha1⟩ := hpos ha
    refine .ite (fun _ => .pure ⟨hr1, .inl hs1⟩) fun _ => ?_
    refine (balloc_follows t1).bind fun b t2 hb => ?_
    rcases hb with ⟨rfl, rfl⟩ | ⟨hlt, ht2⟩
    · rw [if_pos rfl, if_pos rfl]
      exact .pure ⟨hr1, .inl hs1⟩
    · have hr2 : Recorded t t2 := hr1.trans (ht2 ▸ recorded_alloced t1 b)
      have hs2 : Spends i 2 t t2 := (hs1.trans (ht2 ▸ spends_alloced i t1 b)).mono (by norm_num)
      refine .ite (fun _ => .pure ⟨hr2, .inr ⟨hs2, absurd rfl⟩⟩) fun hb0 => ?_
      have ha2 : t2.indir i = a := by
        rw [ht2]
        exact ha1
      let s := t2.fs.setBlock a ((t2.fs.disk a).putLE (4 * (bn - NDIRECT)) 4 b)
      have hs3 : Spends i 0 t2 ⟨s, t2.indir i :: t2.logged⟩ := .indirect (ha2 ▸ ha) rfl
      rw [ha2] at hs3
      refine .run b ⟨s, a :: t2.logged⟩ rfl rfl
        ⟨hr2.trans (.setBlock _ _ _), .inr ⟨hs2.trans hs3, fun _ => mem_cons_of_mem _ ?_⟩⟩
      rw [ht2]
      exact mem_cons_self
  · exact .throw rfl

theorem addrBlock_mapped (hne : (t.fs.itable i).din.addr k ≠ 0) :
    addrBlock sb i k t = .ok ((t.fs.itable i).din.addr k, t) := by
  have hrun : quiet (inode i) t = .ok ((t.fs.itable i).din, t) := rfl
  rw [addrBlock, bind_ok hrun, if_pos hne]
  rfl

theorem bmap_mapped (hv : (t.fs.itable i).valid = true) (hbn : bn < MAXFILE) (hne : t.fs.block sb i bn ≠ 0) :
    bmap sb i bn t = .ok (t.fs.block sb i bn, t) := by
  rw [bmap]
  split_ifs with hd hi
  · rw [Fs.block_of_direct hv hd] at hne ⊢
    exact addrBlock_mapped hne
  · have hb : t.fs.block sb i bn = _ := Fs.block_of_indirect hv (le_of_not_gt hd)
    have ha : (t.fs.itable i).din.addr NDIRECT ≠ 0 := fun h0 => hne (by rw [hb, if_pos h0])
    rw [if_neg ha] at hb
    rw [hb] at hne ⊢
    rw [bind_ok (addrBlock_mapped ha), if_neg ha, bind_ok (get_run t), if_pos hne]
    rfl
  · exact absurd hbn (by simp only [MAXFILE]; omega)

/-- Block `bn` of inode `i` is there. -/
structure Mapped (sb : Superblock) (s : Fs) (i bn : ℕ) : Prop where
  valid : (s.itable i).valid = true
  lt : bn < MAXFILE
  ne : s.block sb i bn ≠ 0

/-- **What `bmap` costs**: nothing for a block that is there. -/
theorem bmap_follows (h32 : sb.size < 2 ^ 32) (t : Tx) :
    Follows Tx.fs (bmap sb i bn) (Xv6.bmap sb i bn) t fun a t' => Recorded t t' ∧ Bought i a t t' ∧
      (Mapped sb t.fs i bn → t' = t) := by
  by_cases hm : Mapped sb t.fs i bn
  · exact .run _ t (bmap_mapped hm.valid hm.lt hm.ne) (Fs.bmap_mapped hm.valid hm.lt hm.ne)
      ⟨.refl t, .inl (.refl i t), fun _ => rfl⟩
  · exact (bmap_buys h32 t).imp fun _ _ ⟨hr, hb⟩ => ⟨hr, hb, fun h => absurd h hm⟩

/-- How many blocks the bytes from `tot` on lie in. -/
def pieces (off n tot : ℕ) : ℕ := if tot < n then (off % BSIZE + (n - tot) + (BSIZE - 1)) / BSIZE else 0

theorem pieces_succ {off n tot : ℕ} (h : tot < n) :
    pieces off n tot = 1 + pieces (off + piece off n tot) n (tot + piece off n tot) := by
  have hm : piece off n tot = min (n - tot) (BSIZE - off % BSIZE) := rfl
  generalize piece off n tot = m at *
  rw [pieces, if_pos h, pieces]
  simp only [BSIZE] at *
  split_ifs <;> omega

/-- What a fault has left behind in a block: `u` is what the state `s` would be without. -/
def Strays (u s : Fs) : Prop := u.itable = s.itable ∧ ∃ a, ∀ b, b ≠ a → s.disk b = u.disk b

/-- **What the loop of `writei` costs**: two blocks a piece, one less if the first is there.  All
changes are logged but what a fault has left behind. -/
theorem writeLoop_follows (h32 : sb.size < 2 ^ 32) (src : UserSrc) (fuel off n tot : ℕ) (t : Tx) :
    Follows Tx.fs (writeLoop sb i src fuel off n tot) (Xv6.writeLoop sb i src fuel off n tot) t
      fun r t' => Spends i (2 * pieces off n tot) t t' ∧
        (tot < n → Mapped sb t.fs i (off / BSIZE) → Spends i (2 * pieces off n tot - 1) t t') ∧
        ∃ u, Xv6.writeLoop sb i src.whole fuel off n tot t.fs = .ok (r, u) ∧
          Recorded t ⟨u, t'.logged⟩ ∧ Strays u t'.fs := by
  have hstop : ∀ t : Tx, Spends i (2 * pieces off n tot) t t := fun t =>
    (Spends.refl i t).mono zero_le
  induction fuel generalizing off tot t with
  | zero => exact .pure ⟨hstop t, fun _ _ => (Spends.refl i t).mono zero_le, t.fs, rfl, .refl t, rfl, 0,
      fun _ _ => rfl⟩
  | succ fuel ih =>
    rw [writeLoop, Xv6.writeLoop, Xv6.writeLoop]
    by_cases hlt : tot < n
    · rw [if_pos hlt, if_pos hlt, if_pos hlt, pieces_succ hlt, mul_add, Nat.mul_one]
      refine (bmap_follows h32 t).ran.bind ?_
      rintro a t1 ⟨hrun, hr, hb, hmapped⟩
      rw [bind_ok hrun]
      have hb1 : Spends i 2 t t1 := hb.elim (fun h => h.mono (Nat.zero_le 2)) (·.1)
      have hm1 : Mapped sb t.fs i (off / BSIZE) → Spends i 0 t t1 := fun hm => hmapped hm ▸ .refl i t
      refine .ite (fun ha => .pure ⟨hb1.mono (Nat.le_add_right 2 _), fun _ hm => (hm1 hm).mono zero_le,
        t1.fs, ?_, hr, rfl, 0, fun _ _ => rfl⟩) fun ha => ?_
      · rw [if_pos ha]
        rfl
      rw [if_neg ha]
      cases hf : src.fault tot (piece off n tot) with
      | some j =>
        rw [show src.whole.fault tot (piece off n tot) = some 0 by rw [fault_whole, hf, Option.map_some]]
        let s := t1.fs.setBlock a
          ((t1.fs.disk a).splice (off % BSIZE) (src.bytes tot (min j (piece off n tot))))
        have hquiet : Spends i 0 t1 ⟨s, t1.logged⟩ := .of_logged rfl rfl
        refine .run (off, tot) ⟨s, t1.logged⟩ rfl rfl ⟨(hb1.trans hquiet).mono (Nat.le_add_right 2 _),
          fun _ hm => ((hm1 hm).trans hquiet).mono zero_le, t1.fs, ?_, hr, rfl, a,
          fun b hb => update_of_ne hb _ _⟩
        have hnil : t1.fs.setBlock a ((t1.fs.disk a).splice (off % BSIZE)
            (src.bytes tot (min 0 (piece off n tot)))) = t1.fs := by
          rw [Nat.zero_min, UserSrc.bytes, range_zero, map_nil, Bytes.splice_nil, Fs.setBlock,
            update_eq_self]
        exact congrArg (fun s => Except.ok ((off, tot), s)) hnil
      | none =>
        rw [show src.whole.fault tot (piece off n tot) = none by rw [fault_whole, hf, Option.map_none]]
        let s := t1.fs.setBlock a ((t1.fs.disk a).splice (off % BSIZE) (src.bytes tot (piece off n tot)))
        have hpay : Spends i 2 t ⟨s, a :: t1.logged⟩ := hb.write ha s rfl
        have hpay' : Mapped sb t.fs i (off / BSIZE) → Spends i 1 t ⟨s, a :: t1.logged⟩ := fun hm =>
          have hquiet : Spends i 0 t1 ⟨s, t1.logged⟩ := .of_logged rfl rfl
          ((hm1 hm).trans hquiet).trans (.logWrite a ⟨s, t1.logged⟩)
        have hstep : Follows Tx.fs
            (quiet (modify fun s => s.setBlock a
              ((s.disk a).splice (off % BSIZE) (src.bytes tot (piece off n tot)))) >>= fun _ => logWrite a)
            (modify fun s : Fs => s.setBlock a
              ((s.disk a).splice (off % BSIZE) (src.bytes tot (piece off n tot))))
            t1 fun _ t' => t' = ⟨s, a :: t1.logged⟩ :=
          .run () ⟨s, a :: t1.logged⟩ rfl rfl rfl
        rw [← bind_assoc]
        refine hstep.bind fun _ t2 ht2 => ?_
        subst ht2
        refine (ih _ _ _ fun t => (Spends.refl i t).mono zero_le).imp ?_
        rintro r t' ⟨hs, _, u, hu, hru, hstray⟩
        refine ⟨hpay.trans hs, fun _ hm => ((hpay' hm).trans hs).mono ?_,
            u, hu, hr.trans ((Recorded.setBlock t1 a _).trans hru), hstray⟩
        omega
    · rw [if_neg hlt, if_neg hlt, if_neg hlt]
      exact .pure ⟨hstop t, fun h => absurd h hlt, t.fs, rfl, .refl t, rfl, 0, fun _ _ => rfl⟩

/-- What is on the disk after the commit, if `d` was there before. -/
def committed (d : Disk) (t : Tx) : Disk := fun b => if b ∈ t.logged then t.fs.disk b else d b

/-- **What is on the disk after the commit**: the buffers, with or without what a fault left
behind. -/
theorem committed_store {u : Fs} {t' : Tx} (hr : Recorded t ⟨u, t'.logged⟩) (hs : Strays u t'.fs) (din : Dinode)
    {t'' : Tx} (ht'' : t'' = ⟨t'.fs.store sb i din, sb.iblock i :: t'.logged⟩) :
    committed t.fs.disk t'' = t''.fs.disk ∨ committed t.fs.disk t'' = (u.store sb i din).disk := by
  obtain ⟨-, a, ha⟩ := hs
  have hother : ∀ s : Fs, ∀ b, b ≠ sb.iblock i → (s.store sb i din).disk b = s.disk b := fun s b hb =>
    update_of_ne hb _ _
  have hmem : ∀ b, b ∈ t''.logged ↔ b = sb.iblock i ∨ b ∈ t'.logged := fun b => by
    rw [ht'']
    exact mem_cons
  have hsame : ∀ b, b ∉ t''.logged → u.disk b = t.fs.disk b := fun b hb =>
    hr.same b fun hm => hb ((hmem b).2 (.inr hm))
  have hfs : t''.fs = t'.fs.store sb i din := by rw [ht'']
  by_cases hlog : a ∈ t''.logged
  · refine .inl (funext fun b => ?_)
    rw [committed]
    split_ifs with hb
    · rfl
    · have hba : b ≠ a := fun he => hb (he ▸ hlog)
      rw [hfs, hother _ b fun he => hb ((hmem b).2 (.inl he)), ha b hba, hsame b hb]
  · refine .inr (funext fun b => ?_)
    rw [committed]
    split_ifs with hb
    · have hba : b ≠ a := fun he => hlog (he ▸ hb)
      by_cases hi : b = sb.iblock i
      · subst hi
        rw [hfs]
        change sb.putInode t'.fs.disk i din _ = sb.putInode u.disk i din _
        rw [Superblock.putInode, Superblock.putInode, update_self, update_self, ha _ hba]
      · rw [hfs, hother _ b hi, hother _ b hi, ha b hba]
    · rw [hother _ b fun he => hb ((hmem b).2 (.inl he)), hsame b hb]

/-- The inode of a file that has been written up to `off`. -/
def grownTo (din : Dinode) (off : ℕ) : Dinode :=
  if din.size.toNat < off then { din with size := BitVec.ofNat 32 off } else din

theorem store_self (s : Fs) : s.store sb i (s.itable i).din =
    { s with disk := sb.putInode s.disk i (s.itable i).din } := by
  rw [Fs.store, Fs.setEntry, update_eq_self]

theorem writeEnd_run (s : Fs) (off tot : ℕ) :
    (do
      let ip ← inode i
      if ip.size.toNat < off then setInode i { ip with size := BitVec.ofNat 32 off }
      Xv6.iupdate sb i
      return (tot : ℤ) : FsM ℤ) s = .ok ((tot : ℤ), s.store sb i (grownTo (s.itable i).din off)) := by
  have hset : ∀ din, setInode i din s = .ok ((), s.setEntry i { s.itable i with din := din }) := fun _ => rfl
  have hup : ∀ s : Fs, (do Xv6.iupdate sb i; return (tot : ℤ) : FsM ℤ) s =
      .ok ((tot : ℤ), { s with disk := sb.putInode s.disk i (s.itable i).din }) := fun _ => rfl
  rw [bind_ok (inode_run i s), grownTo]
  split_ifs
  · refine (bind_ok (hset _)).trans ((hup _).trans ?_)
    rw [Fs.itable_setEntry, update_self]
    rfl
  · exact (hup s).trans (by rw [store_self])

theorem writeEnd_follows (t : Tx) (off tot : ℕ) :
    Follows Tx.fs (do
        let ip ← quiet (inode i)
        if ip.size.toNat < off then quiet (setInode i { ip with size := BitVec.ofNat 32 off })
        iupdate sb i
        return (tot : ℤ))
      (do
        let ip ← inode i
        if ip.size.toNat < off then setInode i { ip with size := BitVec.ofNat 32 off }
        Xv6.iupdate sb i
        return (tot : ℤ)) t fun r t' => r = tot ∧
          t' = ⟨t.fs.store sb i (grownTo (t.fs.itable i).din off), sb.iblock i :: t.logged⟩ := by
  have hset : ∀ din, quiet (setInode i din) t =
      .ok ((), { t with fs := t.fs.setEntry i { t.fs.itable i with din := din } }) := fun _ => rfl
  have hup : ∀ t : Tx, (do iupdate sb i; return (tot : ℤ) : TxM ℤ) t = .ok ((tot : ℤ),
      ⟨{ t.fs with disk := sb.putInode t.fs.disk i (t.fs.itable i).din }, sb.iblock i :: t.logged⟩) :=
    fun _ => rfl
  have hinode : quiet (inode i) t = .ok ((t.fs.itable i).din, t) := rfl
  refine .run tot _ ?_ (writeEnd_run t.fs off tot) ⟨rfl, rfl⟩
  rw [bind_ok hinode, grownTo]
  split_ifs
  · refine (bind_ok (hset _)).trans ((hup _).trans ?_)
    simp only [Fs.itable_setEntry, update_self]
    rfl
  · exact (hup t).trans (by rw [store_self])

/-- **What `writei` logs.** -/
theorem writei_follows (h32 : sb.size < 2 ^ 32) (src : UserSrc) (off n : ℕ) (t : Tx) :
    Follows Tx.fs (writei sb i src off n) (Xv6.writei sb i src off n) t fun r t' =>
      Spends i (2 * pieces off n 0 + 1) t t' ∧
        (0 < n → Mapped sb t.fs i (off / BSIZE) → Spends i (2 * pieces off n 0) t t') ∧
        ∃ u, Xv6.writei sb i src.whole off n t.fs = .ok (r, u) ∧
          (committed t.fs.disk t' = t'.fs.disk ∨ committed t.fs.disk t' = u.disk) := by
  have hsame : committed t.fs.disk t = t.fs.disk := funext fun b => ite_self _
  have hfail : ∀ c, Spends i c t t := fun c => (Spends.refl i t).mono (Nat.zero_le c)
  rw [writei, Xv6.writei, Xv6.writei]
  refine (inode_follows t).bind fun ip t0 ⟨hip, ht0⟩ => ?_
  subst hip ht0
  rw [bind_ok (inode_run i t0.fs)]
  refine .ite (fun h1 => .pure ⟨hfail _, fun _ _ => hfail _, t0.fs, by rw [if_pos h1]; rfl, .inl hsame⟩)
    fun h1 => ?_
  rw [if_neg h1]
  refine .ite (fun h2 => .pure ⟨hfail _, fun _ _ => hfail _, t0.fs, by rw [if_pos h2]; rfl, .inl hsame⟩)
    fun h2 => ?_
  rw [if_neg h2]
  refine (writeLoop_follows h32 src n off n 0 t0).bind fun ⟨off', tot⟩ t1 ⟨hs, hs', u, hu, hr, hstray⟩ => ?_
  refine (writeEnd_follows t1 off' tot).imp fun r t2 ⟨hrt, ht2⟩ => ?_
  have hpay : Spends i 1 t1 t2 := by
    have hquiet : Spends i 0 t1 ⟨t2.fs, t1.logged⟩ := .of_logged rfl (by
      rw [indir, ht2, Fs.itable_store, update_self, grownTo]
      split_ifs <;> rfl)
    have hlog := hquiet.trans (.logWrite (sb.iblock i) ⟨t2.fs, t1.logged⟩)
    rw [ht2] at hlog ⊢
    exact hlog
  refine ⟨hs.trans hpay, fun h0 hm => ((hs' h0 hm).trans hpay).mono ?_, u.store sb i _, ?_,
    committed_store hr hstray _ ht2⟩
  · have hpos : pieces off n 0 = _ := pieces_succ h0
    omega
  · rw [bind_ok hu, hrt, ← hstray.1]
    exact writeEnd_run u off' tot

end Follows

/-! ## The budget of `filewrite`

`filewrite` cuts a write into chunks of three blocks' worth of bytes. -/

section Budget

variable {sb : Superblock} {s : Fs} {i off n : ℕ}

theorem mapped_of_mod (h : s.HoleFree sb i) (hv : (s.itable i).valid = true)
    (hoff : off ≤ s.sizeOf sb i) (hmod : off % BSIZE ≠ 0) : Mapped sb s i (off / BSIZE) := by
  have hlt : off / BSIZE * BSIZE < s.sizeOf sb i := by
    simp only [BSIZE] at *
    omega
  exact ⟨hv, Nat.lt_of_mul_lt_mul_right (hlt.trans_le h.size_le), h.mapped _ hlt⟩

/-- `x` does not panic. -/
abbrev Total {α : Type} (x : FsM α) : Prop := Respects (fun _ _ => True) x fun _ => False

theorem inode_total (i : ℕ) : Total (inode i) := .get_bind fun _ => .pure _

theorem balloc_total (sb : Superblock) : Total (Xv6.balloc sb) := .get_bind fun s => by
  split
  · exact .pure _
  · exact fun _ => bind_iff.2 (set_iff.2 (.pure trivial))

theorem addrBlock_total (sb : Superblock) (i k : ℕ) : Total (Xv6.addrBlock sb i k) :=
  (inode_total i).bind fun _ => .ite (.pure _) <| (balloc_total sb).bind fun _ => .ite (.pure _) <|
    .bind (.modify fun _ => trivial) fun _ => .pure _

/-- `bmap` of a block that a file can have does not panic. -/
theorem bmap_total (sb : Superblock) (i : ℕ) {bn : ℕ} (hbn : bn < MAXFILE) : Total (Xv6.bmap sb i bn) := by
  rw [Xv6.bmap]
  split_ifs with hd hi
  · exact addrBlock_total sb i bn
  · exact (addrBlock_total sb i NDIRECT).bind fun _ => .ite (.pure _) <| .get_bind fun _ =>
      .ite (.pure _) <| (balloc_total sb).bind fun _ => .ite (.pure _) <|
        .bind (.modify fun _ => trivial) fun _ => .pure _
  · exact absurd hbn (by simp only [MAXFILE]; omega)

theorem writeLoop_total (sb : Superblock) (i : ℕ) (src : UserSrc) (fuel : ℕ) {off n tot : ℕ}
    (hmax : off + (n - tot) ≤ MAXFILE * BSIZE) : Total (Xv6.writeLoop sb i src fuel off n tot) := by
  induction fuel generalizing off tot with
  | zero => exact .pure _
  | succ fuel ih =>
    rw [Xv6.writeLoop]
    split_ifs with hlt
    · have hbn : off / BSIZE < MAXFILE := Nat.div_lt_of_lt_mul (by rw [mul_comm]; omega)
      refine (bmap_total sb i hbn).bind fun a => .ite (.pure _) ?_
      split
      · exact .bind (.modify fun _ => trivial) fun _ => .pure _
      · refine .bind (.modify fun _ => trivial) fun _ => ih ?_
        have hle : piece off n tot ≤ n - tot := min_le_left _ _
        omega
    · exact .pure _

/-- `writei` does not panic. -/
theorem writei_total (sb : Superblock) (i : ℕ) (src : UserSrc) (hn : n < 2 ^ 32) :
    Total (Xv6.writei sb i src off n) := by
  refine (inode_total i).bind fun ip => ?_
  split_ifs with h1 h2
  · exact .pure _
  · exact .pure _
  · exact (writeLoop_total sb i src n (by omega)).bind fun r t => (ok_iff (writeEnd_run t r.1 r.2)).2 trivial

/-- **A write chunk fits one transaction**: at any offset up to the size of a file without holes, and whatever
blocks are free, `writei` of at most the `max` of `filewrite` bytes logs at most `MAXOPBLOCKS` blocks. -/
theorem write_chunk_fits (h32 : sb.size < 2 ^ 32) (h : s.HoleFree sb i) (hv : (s.itable i).valid = true)
    (src : UserSrc) (hoff : off ≤ s.sizeOf sb i) (hn : n ≤ (MAXOPBLOCKS - 1 - 1 - 2) / 2 * BSIZE) :
    ∃ r t', writei sb i src off n ⟨s, []⟩ = .ok (r, t') ∧ Xv6.writei sb i src off n s = .ok (r, t'.fs) ∧
      t'.logged.toFinset.card ≤ MAXOPBLOCKS := by
  have hmax : (MAXOPBLOCKS - 1 - 1 - 2) / 2 * BSIZE = 3 * BSIZE := by decide
  rw [hmax] at hn
  have hsize := h.size_le
  have hbound : MAXFILE * BSIZE + 3 * BSIZE < 2 ^ 32 := by decide
  have hbill : Follows Tx.fs (writei sb i src off n) (Xv6.writei sb i src off n) ⟨s, []⟩ fun _ t' =>
      t'.logged.toFinset.card ≤ MAXOPBLOCKS := by
    refine (writei_follows h32 src off n ⟨s, []⟩).imp fun r t' ⟨hs, hs', _⟩ => ?_
    rw [show MAXOPBLOCKS = 10 from rfl]
    by_cases hmod : off % BSIZE = 0
    · -- the chunk lies in three blocks
      have hp : pieces off n 0 ≤ 3 := by
        rw [pieces, hmod]
        simp only [BSIZE] at *
        split_ifs <;> omega
      exact (hs.card_le rfl).trans (by omega)
    · -- it lies in four blocks, and the first is there
      have hp : pieces off n 0 ≤ 4 := by
        rw [pieces]
        simp only [BSIZE] at *
        split_ifs <;> omega
      by_cases h0 : 0 < n
      · exact ((hs' h0 (mapped_of_mod h hv hoff hmod)).card_le rfl).trans (by omega)
      · have hp0 : pieces off n 0 = 0 := if_neg h0
        exact (hs.card_le rfl).trans (by omega)
  obtain ⟨r, t', hrun, hy, hcard⟩ := Ensures.exists_ok
    (Ensures.mono hbill (fun _ _ h => h) fun e he => (writei_total sb i src (by omega) s).of_error he)
  exact ⟨r, t', hrun, hy, hcard⟩

end Budget

/-- Two bytes at the start of an empty file. -/
theorem write_chunk_fits_two : ∃ r t', writei .tiny 1 (.kernel [7, 8]) 0 2 ⟨twoWriters.sys.fs, []⟩ = .ok (r, t') ∧
    Xv6.writei .tiny 1 (.kernel [7, 8]) 0 2 twoWriters.sys.fs = .ok (r, t'.fs) ∧
    t'.logged.toFinset.card ≤ MAXOPBLOCKS :=
  write_chunk_fits (by decide) ⟨by decide, fun bn hbn => absurd hbn (Nat.not_lt_zero _)⟩ rfl _ (Nat.zero_le _)
    (by decide)

end Tx

end Xv6

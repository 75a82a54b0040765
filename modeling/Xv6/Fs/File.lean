import Xv6.Fs.Tx
import Xv6.Vm.Bytewise

/-!
# Fs/File — files as byte arrays, and writes that stop in the middle

On a file without holes `readi` and `writei` are a slice and an update.  A `writei` from user memory
that stops at an unreadable byte counts whole pieces, but `copyin` has stored the first bytes of the
next piece in the buffer of the block: `readi` finds them, and so does a reboot if the block is
logged.
-/

namespace Xv6

open Machinery Function List Option UserSrc Fs

/-! ## What a write leaves of a file -/

namespace Fs

variable {sb : Superblock} {s t : Fs} {i off n : ℕ} {src : UserSrc}

theorem length_bytes (src : UserSrc) (tot m : ℕ) : (src.bytes tot m).length = m := by simp [UserSrc.bytes]

variable {d w : List Byte}

theorem getElem?_written {off : ℕ} (hoff : off ≤ d.length) (len x : ℕ) :
    (written d off len w)[x]? = if max d.length (off + len) ≤ x then none
      else if off ≤ x ∧ x < off + w.length then w[x - off]? else d[x]? := by
  rw [written, List.getElem?_take, List.getElem?_append, List.getElem?_append, List.getElem?_take,
    List.getElem?_drop, length_take, Nat.min_eq_left hoff]
  split_ifs with h1 h2 h3 h4 h5 h6
  all_goals first
    | rfl
    | omega
    | (congr 1; omega)

theorem written_exact {off : ℕ} (hoff : off ≤ d.length) :
    written d off w.length w = d.take off ++ w ++ d.drop (off + w.length) := by
  rw [written, append_assoc]
  refine take_of_length_le ?_
  simp only [length_append, length_take, length_drop]
  omega

theorem node_data (h : s.Live sb i) {f : Node} (hf : s.node sb i = some f) : f.data = s.dataOf sb i := by
  rw [node_of_live h, some_inj] at hf
  rw [← hf]

/-- **`readi` and `writei` implement byte arrays.**  A write of a readable source replaces a range of the bytes,
all of it unless no block is left, and no other file changes; a read returns the range asked for, up to the
end of the file. -/
theorem file_is_array (hsb : sb.Ok) (ho : s.Opened sb i) (hs : s.HoleFree sb i) {f : Node}
    (hf : s.node sb i = some f) :
    (∀ (src : UserSrc) (off n : ℕ), (∀ tot m, tot + m ≤ n → src.fault tot m = none) → off ≤ f.data.length →
      off + n ≤ MAXFILE * BSIZE →
      ∃ (r : ℕ) (t : Fs), writei sb i src off n s = .ok ((r : ℤ), t) ∧ r ≤ n ∧ (r ≠ n → t.Full sb) ∧
        t.node sb i = some { f with data := f.data.take off ++ src.bytes 0 r ++ f.data.drop (off + r) } ∧
        t.sizeOf sb i = max (s.sizeOf sb i) (off + r) ∧
        ∀ j, j ≠ i → (s.Live sb j → s.HoleFree sb j) → t.node sb j = s.node sb j) ∧
    ∀ (fault : ℕ → ℕ → Bool) (off n : ℕ), (∀ tot m, fault tot m = false) → off + n < 2 ^ 32 →
      readi sb i fault off n s =
        .ok ((((f.data.drop off).take n).length, (f.data.drop off).take n), s) := by
  have hdata := node_data ho.live hf
  have hlength : f.data.length = s.sizeOf sb i := by rw [hdata, length_dataOf]
  have h32 : MAXFILE * BSIZE < 2 ^ 32 := by decide
  refine ⟨fun src off n hno hoff hmax => ?_, fun fault off n hno hlt => ?_⟩
  · have hspec : Ensures (writei sb i src off n) s _ _ := writei_stops ho hs hsb src (by omega) (by omega)
    obtain ⟨r, t, hrun, hr⟩ := hspec.exists_ok
    obtain ⟨-, -, hbad⟩ | ⟨-, -, len, all, rfl, -, hle, hst, hstop⟩ := hr
    · omega
    obtain ⟨rfl, hfull⟩ := hstop.full hno
    have hnode := hst.node f hf
    have hlen := length_bytes src 0 all
    have hsize : t.sizeOf sb i = max (s.sizeOf sb i) (off + all) := by
      rw [← length_dataOf, ← node_data ((hst.live i).2 ho.live) hnode, ← hlength]
      simp only [written, List.length_take, List.length_append, List.length_drop, hlen]
      omega
    have hexact := written_exact (w := src.bytes 0 all) hoff
    rw [hlen] at hexact
    rw [hexact] at hnode
    exact ⟨all, t, hrun, hle, fun hne => (hfull (by rwa [Nat.zero_add])).1, hnode, hsize, hst.other⟩
  · have hread : ∃ r, readi sb i fault off n s = .ok (r, s) ∧ _ :=
      readi_mapped ho.valid fault (by omega) (by omega) fun x _ _ hx => hs.mapped_div hx
    obtain ⟨r, hrun, hr⟩ := hread
    rw [hrun, hr hno, hdata]
    split_ifs with hout
    · rw [List.drop_of_length_le (by rw [length_dataOf]; omega), List.take_nil]
      rfl
    · rw [List.length_take, List.length_drop, length_dataOf]

end Fs

/-- Two bytes written to an empty file. -/
theorem file_is_array_two : ∃ (r : ℕ) (t : Fs), writei .tiny 1 (.kernel [7, 8]) 0 2 twoWriters.sys.fs =
      .ok ((r : ℤ), t) ∧ (r ≠ 2 → t.Full .tiny) ∧
    t.node .tiny 1 = some ⟨T_FILE, 0, 0, 1, (UserSrc.kernel [7, 8]).bytes 0 r⟩ := by
  have hwf := twoWriters_ready.wf
  have hlocked := hwf.locked (i := 1) rfl
  obtain ⟨r, t, hrun, -, hfull, hnode, -, -⟩ := (Fs.file_is_array Superblock.tiny_ok hlocked.opened
    (hwf.noHoles.holeFree hlocked.live) twoWriters_ready.node).1 (.kernel [7, 8]) 0 2 (fun _ _ _ => rfl)
    (Nat.zero_le _) (by decide)
  refine ⟨r, t, hrun, hfull, hnode.trans ?_⟩
  simp

/-! ## Bytes from user memory -/

/-- The bytes from the user address `addr` on, and where `copyin` of a piece of them stops. -/
def UserSrc.user (m : ℕ → Page) (root addr : ℕ) : UserSrc where
  byte k := peek m root (addr + k)
  fault tot len := if reach m root (addr + tot) len = len then none else some (reach m root (addr + tot) len)

section User

variable {m : ℕ → Page} {root addr : ℕ} {σ : Phys}

theorem fault_user (tot len : ℕ) : (UserSrc.user m root addr).fault tot len =
    if reach m root (addr + tot) len = len then none else some (reach m root (addr + tot) len) := rfl

/-- **The source is what `copyin` makes of it**: the bytes stored, and whether it fails. -/
theorem copyinDst_user (tot len : ℕ) : copyinDstLoop root len (addr + tot) len σ =
    .ok (((UserSrc.user σ.mem root addr).bytes tot (((UserSrc.user σ.mem root addr).fault tot len).getD len),
      ((UserSrc.user σ.mem root addr).fault tot len).isNone), σ) := by
  have hbytes : ∀ k, (UserSrc.user σ.mem root addr).bytes tot k =
      (List.range k).map fun i => peek σ.mem root (addr + tot + i) := fun k => by
    simp only [UserSrc.bytes, UserSrc.user, add_assoc]
  rw [copyinDstLoop_run len le_rfl, hbytes, fault_user]
  by_cases hreach : reach σ.mem root (addr + tot) len = len
  · rw [if_pos hreach, hreach, decide_eq_true rfl]
    rfl
  · rw [if_neg hreach, decide_eq_false hreach]
    rfl

variable {len tot j : ℕ}

theorem fault_user_none (h : (UserSrc.user m root addr).fault tot len = none) :
    reach m root (addr + tot) len = len := by
  rw [fault_user] at h
  split_ifs at h with hreach
  exact hreach

theorem fault_user_some (h : (UserSrc.user m root addr).fault tot len = some j) :
    reach m root (addr + tot) len = j ∧ j < len := by
  rw [fault_user] at h
  split_ifs at h with hreach
  obtain rfl := some.inj h
  exact ⟨rfl, lt_of_le_of_ne (reach_le _ _) hreach⟩

theorem reads_user {k : ℕ} (h : (UserSrc.user m root addr).Reads k) : userPage m root (addr + k) ≠ none := by
  obtain ⟨tot, len, hle, hlt, hf⟩ := h
  have hpage := reach_eq_iff.1 (fault_user_none hf) (k - tot) (by omega)
  rwa [show addr + tot + (k - tot) = addr + k by omega] at hpage

theorem reach_of_fault {r n p : ℕ} (hreads : ∀ k < r, (UserSrc.user m root addr).Reads k)
    (hf : (UserSrc.user m root addr).fault r p = some j) (hp : r + p ≤ n) : reach m root addr n = r + j := by
  obtain ⟨rfl, hj⟩ := fault_user_some hf
  have hadd := reach_add (n - r) fun k hk => reads_user (hreads k hk)
  rw [show r + (n - r) = n by omega] at hadd
  rw [hadd, reach_of_lt hj (by omega)]

end User

/-! ## Writes that fail -/

namespace Fs

variable {sb : Superblock} {s t : Fs} {i off n : ℕ}

def reboot (d : Disk) : Fs := ⟨d, fun _ => ⟨0, false, .zero⟩⟩

theorem dataOf_congr (hdisk : t.disk = s.disk) (hcur : t.cur sb i = s.cur sb i) :
    t.dataOf sb i = s.dataOf sb i := by
  rw [dataOf, sizeOf, hcur, dataOf, sizeOf]
  refine map_congr_left fun x _ => ?_
  rw [byteOf, block, slot, hcur, hdisk, byteOf, block, slot]

theorem dataOf_reboot (h : (t.itable i).valid = true ∧ sb.inodeAt t.disk i = (t.itable i).din) :
    (reboot t.disk).dataOf sb i = t.dataOf sb i :=
  dataOf_congr rfl (h.2.trans (cur_of_valid h.1).symm)

/-- The bytes outside the range are the same. -/
def SameOutside (d d' : List Byte) (off r : ℕ) : Prop := ∀ x, ¬(off ≤ x ∧ x < off + r) → d'[x]? = d[x]?

theorem sameOutside_written {d w : List Byte} (hoff : off ≤ d.length) (r : ℕ) :
    SameOutside d (written d off r w) off r ↔
      ∀ k, r ≤ k → k < w.length → off + k < d.length → w[k]? = d[off + k]? := by
  constructor
  · intro h k hrk hk hlt
    have hx := h (off + k) (by omega)
    rwa [getElem?_written hoff, if_neg (by omega), if_pos (by omega), Nat.add_sub_cancel_left] at hx
  · intro h x hx
    rw [getElem?_written hoff]
    split_ifs with h1 h2
    · rw [List.getElem?_eq_none (by omega)]
    · have hk := h (x - off) (by omega) (by omega) (by omega)
      rwa [show off + (x - off) = x by omega] at hk
    · rfl

theorem Stored.dataOf_eq {len : ℕ} {w : List Byte} (h : Stored sb i off len w s t) (hi : s.Live sb i) :
    t.dataOf sb i = Fs.written (s.dataOf sb i) off len w :=
  (node_data ((h.live i).2 hi) (h.node _ (node_of_live hi))).symm

theorem Stop.all_whole {src : UserSrc} {len all : ℕ} (h : Stop sb i src.whole off n 0 len all s t) :
    all = len := by
  rcases h.why with ⟨-, h⟩ | ⟨-, h, -⟩ | ⟨-, j, hj, h⟩
  · exact h
  · exact h
  · rw [fault_whole] at hj
    obtain ⟨_, -, rfl⟩ := map_eq_some_iff.1 hj
    rw [h, Nat.zero_min, add_zero]

end Fs

section Failed

variable {sb : Superblock} {s : Fs} {i off n r all root addr : ℕ} {m : ℕ → Page}

/-- What a write that has stopped leaves behind, in the block where the unreadable byte would go. -/
theorem Fs.Stop.user {t : Fs} (h : Fs.Stop sb i (.user m root addr) off n 0 r all s t)
    (hs : s.HoleFree sb i) (hr : r < n) :
    (∀ k, r ≤ k → k < all → off + k < s.sizeOf sb i → peek m root (addr + k) = s.byteOf sb i (off + k)) ↔
      ∀ k < reach m root addr n, reach m root addr n < n →
        (off + k) / BSIZE = (off + reach m root addr n) / BSIZE → off + k < s.sizeOf sb i →
        peek m root (addr + k) = s.byteOf sb i (off + k) := by
  have hreads : ∀ k < r, (UserSrc.user m root addr).Reads k := fun k hk => h.reads k (Nat.zero_le k) (by omega)
  -- the positions before `off + r` are in other blocks than those behind it
  have hblock : ∀ k j, r ≤ j → (off + k) / BSIZE = (off + j) / BSIZE → r ≤ k := fun k j hrj hk => by
    have := h.aligned
    simp only [BSIZE] at *
    omega
  rcases h.why with ⟨h1, -⟩ | ⟨-, rfl, -, hempty⟩ | ⟨hlt, j, hj, hall⟩
  · omega
  · -- no block is free for the next byte, which is behind the end of the file
    have hend : s.sizeOf sb i ≤ off + all := by
      by_contra hin
      exact (hs.mapped_div (lt_of_not_ge hin)).2 hempty
    have hreach : all ≤ reach m root addr n := by
      have hadd : reach m root addr (all + (n - all)) = _ := reach_add (n - all) fun k hk => reads_user (hreads k hk)
      rw [show all + (n - all) = n by omega] at hadd
      omega
    refine iff_of_true (fun k h1 h2 _ => by omega) fun k hk _ hsame hsize => ?_
    have := hblock k _ hreach hsame
    omega
  · rw [zero_add] at hj hlt hall
    obtain ⟨-, hjp⟩ := fault_user_some hj
    have hp : piece (off + r) n r = min (n - r) (BSIZE - (off + r) % BSIZE) := rfl
    have hreach := reach_of_fault hreads hj (show r + piece (off + r) n r ≤ n by omega)
    rw [hreach, hall, Nat.min_eq_left hjp.le]
    constructor
    · intro hold k hk _ hsame hsize
      exact hold k (hblock k _ (Nat.le_add_right r j) hsame) hk hsize
    · intro hold k hrk hk hsize
      refine hold k hk (by omega) ?_ hsize
      simp only [BSIZE] at *
      omega

/-- **What a write that fails leaves of the file**: the bytes outside the range that it counts are as before, for
`readi` and after a reboot, iff the source has there what the file has. -/
theorem failed_write (hsb : sb.Ok) (ho : s.Opened sb i) (hs : s.HoleFree sb i) (σ : Phys) (root addr : ℕ)
    (hoff : off < 2 ^ 32) (hn : n < 2 ^ 32) {r : ℕ} {t : Tx}
    (hrun : Tx.writei sb i (.user σ.mem root addr) off n ⟨s, []⟩ = .ok ((r : ℤ), t)) (hr : r < n) :
    (Fs.SameOutside (s.dataOf sb i) (t.fs.dataOf sb i) off r ∧
      Fs.SameOutside (s.dataOf sb i) ((Fs.reboot (Tx.committed s.disk t)).dataOf sb i) off r) ↔
    ∀ k < reach σ.mem root addr n, reach σ.mem root addr n < n →
      (off + k) / BSIZE = (off + reach σ.mem root addr n) / BSIZE → off + k < s.sizeOf sb i →
      peek σ.mem root (addr + k) = s.byteOf sb i (off + k) := by
  have hfollows := Ensures.of_ok (Tx.writei_follows (hsb.size_lt.trans (by norm_num))
    (.user σ.mem root addr) off n ⟨s, []⟩) hrun
  obtain ⟨hplain, -, -, u, hwhole, hdisk⟩ := hfollows
  obtain ⟨hbad, -⟩ | ⟨hle, -, len, all, hlen, -, -, hst, hstop⟩ :=
    (Fs.writei_stops ho hs hsb _ hoff hn).of_ok hplain
  · omega
  obtain rfl : r = len := Int.ofNat_inj.1 hlen
  obtain ⟨hbad, -⟩ | ⟨-, -, len, all', hlen', -, -, hst', hstop'⟩ :=
    (Fs.writei_stops ho hs hsb _ hoff hn).of_ok hwhole
  · omega
  obtain rfl : r = len := Int.ofNat_inj.1 hlen'
  obtain rfl := hstop'.all_whole
  have hle' : off ≤ (s.dataOf sb i).length := by rwa [Fs.length_dataOf]
  have hsame' : Fs.SameOutside (s.dataOf sb i) (u.dataOf sb i) off all' := by
    rw [hst'.dataOf_eq ho.live, Fs.sameOutside_written hle', Fs.length_bytes]
    exact fun k h1 h2 => absurd h2 (Nat.not_lt.2 h1)
  rw [← hstop.user hs hr, and_iff_left_of_imp fun hsame => ?_, hst.dataOf_eq ho.live,
    Fs.sameOutside_written hle', Fs.length_bytes, Fs.length_dataOf]
  · refine forall_congr' fun k => imp_congr_right fun _ => forall₂_congr fun hk hsize => ?_
    rw [UserSrc.bytes, List.getElem?_map, List.getElem?_range hk, Fs.dataOf, List.getElem?_map,
      List.getElem?_range hsize, Option.map_some, Option.map_some, Option.some_inj, Nat.zero_add]
    rfl
  · -- a reboot finds what is in the buffers, or the file without the bytes before the fault
    rcases hdisk with hdisk | hdisk
    · rw [hdisk, Fs.dataOf_reboot hst.stored]
      exact hsame
    · rw [hdisk, Fs.dataOf_reboot hst'.stored]
      exact hsame'

end Failed

/-- A write to a file of one byte, from an address that cannot be read. -/
theorem failed_write_one : ∃ t, Tx.writei .tiny 1 (.user (lastTwo 0 0).mem 1 0) 0 1 ⟨oneByte, []⟩ =
      .ok ((0 : ℕ), t) ∧ Fs.SameOutside [7] (t.fs.dataOf .tiny 1) 0 0 ∧
    Fs.SameOutside [7] ((Fs.reboot (Tx.committed oneByte.disk t)).dataOf .tiny 1) 0 0 := by
  have hzero : (Tx.writei .tiny 1 (.user (lastTwo 0 0).mem 1 0) 0 1 ⟨oneByte, []⟩).toOption.map Prod.fst =
      some ((0 : ℕ) : ℤ) := by decide +kernel
  obtain ⟨⟨r, t⟩, hrun, rfl⟩ := Exec.exists_ok_of_map hzero
  refine ⟨t, hrun, dataOf_oneByte ▸ (failed_write Superblock.tiny_ok oneByte_locked.opened
    (oneByte_wf.noHoles.holeFree oneByte_locked.live) (lastTwo 0 0) 1 0 (by decide) (by decide) hrun
    (by decide)).2 fun k hk => ?_⟩
  have hreach : reach (lastTwo 0 0).mem 1 0 1 = 0 := by decide +kernel
  omega

/-- A file of one byte, and a write of two bytes of which the second cannot be read: it returns 0, and the byte
of the file is another. -/
theorem failed_write_tears : ∃ s t, s.Wf .tiny ∧ s.dataOf .tiny 1 = [7] ∧
    Tx.writei .tiny 1 (.user (lastTwo (mkPte 4 22) 0).mem 1 (510 * PGSIZE + 4095)) 0 2 ⟨s, []⟩ = .ok ((0 : ℕ), t) ∧
    ¬Fs.SameOutside (s.dataOf .tiny 1) (t.fs.dataOf .tiny 1) 0 0 := by
  have htears : (Tx.writei .tiny 1 (.user (lastTwo (mkPte 4 22) 0).mem 1 (510 * PGSIZE + 4095)) 0 2
      ⟨oneByte, []⟩).toOption.map (fun q => (q.1, q.2.fs.dataOf .tiny 1)) = some (((0 : ℕ) : ℤ), [0]) := by
    decide +kernel
  obtain ⟨⟨r, t⟩, hrun, heq⟩ := Exec.exists_ok_of_map htears
  obtain ⟨rfl, hafter⟩ := Prod.mk.inj heq
  refine ⟨oneByte, t, oneByte_wf, dataOf_oneByte, hrun, fun hsame => ?_⟩
  have hbyte := hsame 0 (by omega)
  rw [dataOf_oneByte, hafter] at hbyte
  exact absurd hbyte (by decide)

end Xv6

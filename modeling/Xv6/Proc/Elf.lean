import Xv6.Proc.Program

/-!
# Proc/Elf — the image that an ELF file describes

An offset in an ELF file has 64 bits; `exec` reads the file through `uint` offsets.  Where one does
not fit, `exec` loads other bytes, or takes other bytes for the program headers, and succeeds.
-/

namespace Xv6

open Machinery Function List Nat

variable {im : Image} {f : Reader} {c : List Byte} {tf root n off sz k : ℕ} {m : ℕ → Page} {hs : List ProgHdr}
variable {h : ProgHdr}

/-! ## What the file says -/

/-- The program headers that the file describes and has. -/
def described (c : List Byte) : List ProgHdr :=
  ((List.range (elfHdr (.file c)).phnum).filter fun i =>
    (elfHdr (.file c)).phoff + i * ProgHdr.size + ProgHdr.size ≤ c.length).map
      fun i => ProgHdr.parse ((c.drop ((elfHdr (.file c)).phoff + i * ProgHdr.size)).take ProgHdr.size)

/-- Each segment starts on a page above those before it. -/
def Ascending (hs : List ProgHdr) : Prop := hs.Pairwise fun g h => npages g.top ≤ h.vaddr / PGSIZE

/-- The memory under `root` is the image of the file `c`, but for the stack above page `n`. -/
structure ImageOf (c : List Byte) (m : ℕ → Page) (root n : ℕ) : Prop where
  /-- The bytes of a segment are in the file, and in memory. -/
  bytes : ∀ h ∈ loads (described c), ∀ i < h.filesz,
    h.off + i < c.length ∧ userByte m root (h.vaddr + i) = some (c.getD (h.off + i) 0)
  /-- The rest of the segment is zero. -/
  zeros : ∀ h ∈ loads (described c), ∀ i, h.filesz ≤ i → i < h.memsz →
    userByte m root (h.vaddr + i) = some 0
  /-- Its pages can be read, and written or executed as its flags say. -/
  flags : ∀ h ∈ loads (described c), ∀ w, h.vaddr / PGSIZE ≤ w → w < npages h.top →
    ∃ e, leaf m root w = some e ∧ e / PTE_U % 2 = 1 ∧ e / PTE_R % 2 = 1 ∧
      (e / PTE_W % 2 = 1 ↔ h.flags / 2 % 2 = 1) ∧ (e / PTE_X % 2 = 1 ↔ h.flags % 2 = 1)
  /-- Everything else is zero. -/
  rest : ∀ y b, userByte m root y = some b → (∀ h ∈ loads (described c), ¬ (h.vaddr ≤ y ∧ y < h.top)) →
    y / PGSIZE ≠ n + 1 → b = 0

/-- The offsets of the segments fit into a `uint`; and if that of the program headers does not, what
is taken for them describes an empty image. -/
structure OffsetsFit (c : List Byte) : Prop where
  off : ∀ h ∈ loads (described c), 0 < h.filesz → h.off < 2 ^ 32
  phoff : 2 ^ 32 ≤ (elfHdr (.file c)).phoff →
    ∀ y, imageByte (.file c) (loads (fileHeaders (.file c))) y = 0

/-! ## Reading a file -/

theorem Reader.read_file_full {len : ℕ} (hlen : 0 < len) (h : ((Reader.file c).read off len).length = len) :
    off + len ≤ c.length ∧ (Reader.file c).read off len = (c.drop off).take len := by
  rw [read_file] at h ⊢
  split_ifs at h ⊢ with hout
  · rw [length_nil] at h
    omega
  · rw [length_take, length_drop] at h
    exact ⟨by omega, rfl⟩

theorem ReadsAll.piece (hc : c.length < 2 ^ 32) (hoff : off < 2 ^ 32) (h : ReadsAll (.file c) off sz) {j : ℕ}
    (hj : j * PGSIZE < sz) : off + j * PGSIZE + min (sz - j * PGSIZE) PGSIZE ≤ c.length ∧
      segPiece (.file c) off sz j = (c.drop (off + j * PGSIZE)).take (min (sz - j * PGSIZE) PGSIZE) := by
  have hstart : off + j * PGSIZE < 2 ^ 32 := by
    induction j with
    | zero => omega
    | succ j ih =>
      rw [succ_mul] at hj
      have hlt := ih (by omega)
      -- the piece before is a whole page of the file
      have hprev := h j (by omega)
      rw [segPiece, mod_eq_of_lt hlt] at hprev
      have := (Reader.read_file_full (by unfold PGSIZE at *; omega) hprev).1
      rw [succ_mul]
      omega
  have hfull := h j hj
  rw [segPiece, mod_eq_of_lt hstart] at hfull ⊢
  exact Reader.read_file_full (by unfold PGSIZE at *; omega) hfull

/-- **The bytes that `loadseg` loads are bytes of the file.** -/
theorem ReadsAll.byte (hc : c.length < 2 ^ 32) (hoff : off < 2 ^ 32) (h : ReadsAll (.file c) off sz) {i : ℕ}
    (hi : i < sz) : off + i < c.length ∧ segByte (.file c) off sz i = c.getD (off + i) 0 := by
  have hmod : i / PGSIZE * PGSIZE + i % PGSIZE = i := div_add_mod' i PGSIZE
  have hlt : i % PGSIZE < PGSIZE := mod_lt _ (by decide)
  obtain ⟨hle, hpiece⟩ := h.piece hc hoff (j := i / PGSIZE) (by omega)
  refine ⟨by omega, ?_⟩
  rw [segByte, hpiece, getD_eq_getElem _ _ (by rw [length_take, length_drop]; omega),
    getD_eq_getElem _ _ (by omega), getElem_take, getElem_drop]
  congr 1
  omega

theorem headersAt_file (hc : c.length < 2 ^ 32) (hoff : off < 2 ^ 32) (h : ReadsHeaders (.file c) off k) :
    (∀ i < k, off + i * ProgHdr.size + ProgHdr.size ≤ c.length) ∧ headersAt (.file c) off k =
      (List.range k).map fun i => ProgHdr.parse ((c.drop (off + i * ProgHdr.size)).take ProgHdr.size) := by
  induction k generalizing off with
  | zero => exact ⟨fun i hi => by omega, rfl⟩
  | succ k ih =>
    have hfirst := h 0 (by omega)
    rw [zero_mul, add_zero, mod_eq_of_lt hoff] at hfirst
    obtain ⟨hle, hread⟩ := Reader.read_file_full (by decide) hfirst
    obtain ⟨hall, hmap⟩ := ih (by omega) h.tail
    refine ⟨fun i hi => ?_, ?_⟩
    · cases i with
      | zero => omega
      | succ i =>
        have := hall i (by omega)
        rw [succ_mul]
        omega
    · rw [headersAt, mod_eq_of_lt hoff, hread, hmap, range_succ_eq_map, map_cons, map_map,
        zero_mul, add_zero]
      refine congrArg _ (map_congr_left fun i _ => ?_)
      rw [Function.comp_apply, succ_mul, add_comm (i * _), ← add_assoc]

theorem described_eq (hc : c.length < 2 ^ 32) (hoff : (elfHdr (.file c)).phoff < 2 ^ 32)
    (h : ReadsHeaders (.file c) ((elfHdr (.file c)).phoff % 2 ^ 32) (elfHdr (.file c)).phnum) :
    fileHeaders (.file c) = described c := by
  rw [mod_eq_of_lt hoff] at h
  obtain ⟨hall, hmap⟩ := headersAt_file hc hoff h
  rw [fileHeaders, ← elfHdr, mod_eq_of_lt hoff, hmap, described, filter_eq_self.2 fun i hi => ?_]
  simpa using hall i (mem_range.1 hi)

/-- If it does not, the file has none. -/
theorem described_nil (hc : c.length < 2 ^ 32) (hoff : 2 ^ 32 ≤ (elfHdr (.file c)).phoff) : described c = [] := by
  rw [described, filter_eq_nil_iff.2 fun i _ => ?_, map_nil]
  simp only [decide_eq_true_eq]
  omega

/-! ## Ascending segments

Such segments share no page, so that a byte of one is overwritten by no other. -/

/-- A byte of a segment is not overwritten. -/
theorem imageByte_of_mem (hasc : Ascending hs) (hsz : ∀ g ∈ hs, g.filesz ≤ g.memsz) (hh : h ∈ hs) {y : ℕ}
    (hy : h.vaddr ≤ y ∧ y < h.vaddr + h.filesz % 2 ^ 32) :
    imageByte f hs y = segByte f (h.off % 2 ^ 32) (h.filesz % 2 ^ 32) (y - h.vaddr) := by
  induction hs using List.reverseRecOn with
  | nil => exact absurd hh not_mem_nil
  | append_singleton hs g ih =>
    obtain ⟨hasc, -, hlast⟩ := pairwise_append.1 hasc
    rw [imageByte_concat, ProgHdr.lay]
    rcases mem_append.1 hh with hh | hh
    · -- the last segment lies above
      have hle := hlast h hh g (mem_singleton_self g)
      have := hsz h (mem_append.2 (.inl hh))
      have := mod_le h.filesz (2 ^ 32)
      rw [ProgHdr.top] at hle
      rw [if_neg (by unfold npages PGSIZE at hle; omega)]
      exact ih hasc (fun g' hg' => hsz g' (mem_append.2 (.inl hg'))) hh
    · obtain rfl := mem_singleton.1 hh
      rw [if_pos hy]

theorem imageByte_rest (hasc : Ascending hs) (hsz : ∀ g ∈ hs, g.filesz ≤ g.memsz) (hh : h ∈ hs) {y : ℕ}
    (hlo : h.vaddr + h.filesz ≤ y) (hhi : y < h.top) : imageByte f hs y = 0 := by
  refine imageByte_eq_zero fun g hg hin => ?_
  have hmod := mod_le g.filesz (2 ^ 32)
  have hle := hsz g hg
  obtain ⟨i, hi, rfl⟩ := getElem_of_mem hg
  obtain ⟨j, hj, rfl⟩ := getElem_of_mem hh
  rw [Ascending, pairwise_iff_getElem] at hasc
  rw [ProgHdr.top] at hhi
  rcases lt_trichotomy i j with hij | rfl | hji
  · have := hasc i j hi hj hij
    rw [ProgHdr.top] at this
    unfold npages PGSIZE at this
    omega
  · omega
  · have := hasc j i hj hi hji
    rw [ProgHdr.top] at this
    unfold npages PGSIZE at this
    omega

theorem find_of_mem (hasc : Ascending hs) (hh : h ∈ hs) {w : ℕ} (hlo : h.vaddr / PGSIZE ≤ w)
    (hhi : w < npages h.top) : hs.find? (fun g => w < npages g.top) = some h := by
  obtain ⟨g, hg⟩ := Option.isSome_iff_exists.1
    (List.find?_isSome.2 ⟨h, hh, by simpa using hhi⟩ : (hs.find? fun g => w < npages g.top).isSome)
  obtain ⟨hlt, l, r, rfl, hbefore⟩ := List.find?_eq_some_iff_append.1 hg
  rw [hg]
  rcases mem_append.1 hh with hh | hh
  · exact absurd (hbefore h hh) (by simpa using hhi)
  · rcases mem_cons.1 hh with rfl | hh
    · rfl
    · have := (pairwise_cons.1 (pairwise_append.1 hasc).2.1).1 h hh
      simp only [decide_eq_true_eq] at hlt
      omega

theorem perm_bits {x : ℕ} (fl : ℕ) : mkPte x (PTE_R ||| PTE_U ||| flags2perm fl) / PTE_U % 2 = 1 ∧
    mkPte x (PTE_R ||| PTE_U ||| flags2perm fl) / PTE_R % 2 = 1 ∧
    (mkPte x (PTE_R ||| PTE_U ||| flags2perm fl) / PTE_W % 2 = 1 ↔ fl / 2 % 2 = 1) ∧
    (mkPte x (PTE_R ||| PTE_U ||| flags2perm fl) / PTE_X % 2 = 1 ↔ fl % 2 = 1) := by
  have hm := mkPte_mod (n := x) (userPerm_lt (flags2perm_lt fl))
  have hbits : (PTE_R ||| PTE_U ||| flags2perm fl) ||| 1 = 19 + 8 * (fl % 2) + 4 * (fl / 2 % 2) := by
    rw [flags2perm]
    rcases mod_two_eq_zero_or_one fl with hx | hx <;>
      rcases mod_two_eq_zero_or_one (fl / 2) with hw | hw <;> rw [hx, hw] <;> rfl
  rw [hbits] at hm
  generalize mkPte x (PTE_R ||| PTE_U ||| flags2perm fl) = e at hm ⊢
  have hx := mod_lt fl two_pos
  have hw := mod_lt (fl / 2) two_pos
  generalize fl % 2 = x at hm hx ⊢
  generalize fl / 2 % 2 = w at hm hw ⊢
  unfold PTE_R PTE_U PTE_W PTE_X
  omega

/-! ## What `exec` leaves in memory -/

/-- The pages below the guard page are full; above it there is only the stack. -/
theorem Imaged.div_lt (hi : Imaged im f m root tf n hs) {y : ℕ} {b : Byte} (hy : userByte m root y = some b)
    (hne : y / PGSIZE ≠ n + 1) : y / PGSIZE < n := by
  obtain ⟨x, hx, -⟩ := Option.map_eq_some_iff.1 hy
  obtain ⟨e, he, -, hlt⟩ := leaf_of_userPage hi.space.guarded hx
  have := (hi.space.sized _ hlt).1 (by rw [he]; exact Option.some_ne_none e)
  have hguard : y / PGSIZE ≠ n := fun heq => by
    rw [hi.guard y heq] at hx
    exact nomatch hx
  omega

theorem Imaged.top_le (hi : Imaged im f m root tf n hs) (hh : h ∈ hs) : h.top ≤ n * PGSIZE := by
  have := hi.laid.paged.below h hh
  unfold npages PGSIZE at *
  omega

theorem Imaged.blank_iff (hi : Imaged im f m root tf n hs) :
    (∀ y b, userByte m root y = some b → y / PGSIZE ≠ n + 1 → b = 0) ↔ ∀ y, imageByte f hs y = 0 := by
  refine ⟨fun h y => ?_, fun h y b hy hne => ?_⟩
  · by_cases hy : y / PGSIZE < n
    · exact h y _ (hi.laid.filled y hy) (by omega)
    · refine imageByte_eq_zero fun g hg hin => hy ?_
      have := hi.top_le hg
      have := (hi.laid.good g hg).filesz
      have := mod_le g.filesz (2 ^ 32)
      rw [ProgHdr.top] at *
      unfold PGSIZE at *
      omega
  · rw [hi.laid.filled y (hi.div_lt hy hne)] at hy
    rw [← Option.some.inj hy, h y]

/-- **The image is that of the file, if the offsets of the segments fit.** -/
theorem Imaged.imageOf (hi : Imaged im (.file c) m root tf n (loads (described c))) (hc : c.length < 2 ^ 32)
    (hn : n ≤ 2 ^ 15) (hasc : Ascending (loads (described c)))
    (hoff : ∀ h ∈ loads (described c), 0 < h.filesz → h.off < 2 ^ 32) : ImageOf c m root n := by
  have hsz : ∀ g ∈ loads (described c), g.filesz ≤ g.memsz := fun g hg => (hi.laid.good g hg).filesz
  have hin : ∀ h ∈ loads (described c), ∀ y < h.top, y / PGSIZE < n := fun h hh y hy => by
    have := hi.top_le hh
    unfold PGSIZE at *
    omega
  refine ⟨fun h hh i hlt => ?_, fun h hh i hlo hhi => ?_, fun h hh w hlo hhi => ?_, fun y b hy hout hne => ?_⟩
  · have hle := hsz h hh
    have htop := hi.top_le hh
    have hfit : h.filesz % 2 ^ 32 = h.filesz := mod_eq_of_lt (by
      rw [ProgHdr.top] at htop
      unfold PGSIZE at htop
      omega)
    have hread := (hi.laid.good h hh).read
    rw [hfit, mod_eq_of_lt (hoff h hh (by omega))] at hread
    obtain ⟨hlen, hbyte⟩ := hread.byte hc (hoff h hh (by omega)) hlt
    refine ⟨hlen, ?_⟩
    rw [hi.laid.filled _ (hin h hh _ (by rw [ProgHdr.top]; omega)),
      imageByte_of_mem hasc hsz hh ⟨le_self_add, by omega⟩, hfit,
      mod_eq_of_lt (hoff h hh (by omega)), Nat.add_sub_cancel_left, hbyte]
  · have htop : h.vaddr + i < h.top := Nat.add_lt_add_left hhi _
    rw [hi.laid.filled _ (hin h hh _ htop), imageByte_rest hasc hsz hh (Nat.add_le_add_left hlo _) htop]
  · have := hi.laid.paged.below h hh
    obtain ⟨g, x, hfind, -, hleaf⟩ := hi.laid.paged.page w (by omega)
    obtain rfl : h = g := Option.some.inj ((find_of_mem hasc hh hlo hhi).symm.trans hfind)
    exact ⟨_, hleaf, perm_bits h.flags⟩
  · rw [hi.laid.filled y (hi.div_lt hy hne), imageByte_eq_zero fun g hg hg' => hout g hg ⟨hg'.1, ?_⟩] at hy
    · exact (Option.some.inj hy).symm
    · have := hsz g hg
      have := mod_le g.filesz (2 ^ 32)
      rw [ProgHdr.top]
      omega

namespace Kernel

variable {k k' : Kernel}

/-- **A program that `exec` starts has the image that the file describes just when its offsets fit** into the
`uint` through which `exec` reads it. -/
theorem exec_image_iff (im : Image) (k : Kernel) (h : Inv im k) (p : Slot) (tf old : ℕ)
    (htf : (k.proc p).trapframe = some tf) (hold : (k.proc p).pagetable = some old) (c : List Byte)
    (hc : c.length < 2 ^ 32) (argv : List ℕ) (r : ℤ) (k' : Kernel)
    (hrun : exec im p (some (.file c)) argv k = .ok (r, k')) (hr : r ≠ -1)
    (hasc : Ascending (loads (described c))) :
    ∃ root n, (k'.proc p).pagetable = some root ∧ (k'.proc p).sz = (n + 2) * PGSIZE ∧
      (ImageOf c k'.phys.mem root n ↔ OffsetsFit c) := by
  obtain ⟨root, n, hs⟩ := ((exec_started h htf hold (.file c) argv).of_ok hrun).2 hr
  refine ⟨root, n, hs.pagetable, hs.sz, ⟨fun hi => ⟨fun g hg hpos => ?_, fun hbig => ?_⟩, fun hfit => ?_⟩⟩
  · have := (hi.bytes g hg 0 hpos).1
    omega
  · refine hs.imaged.blank_iff.1 fun y b hy hne => hi.rest y b hy (fun g hg => ?_) hne
    rw [described_nil hc hbig] at hg
    exact absurd hg List.not_mem_nil
  · rcases Nat.lt_or_ge (elfHdr (.file c)).phoff (2 ^ 32) with hlt | hbig
    · have himg := hs.imaged
      rw [described_eq hc hlt hs.headers] at himg
      have hsp := (hs.inv.space hs.pagetable).sized_le himg.space.sized himg.space.le
      exact himg.imageOf hc (by omega) hasc hfit.off
    · have hnil : loads (described c) = [] := by rw [described_nil hc hbig]; rfl
      refine ⟨fun g hg => ?_, fun g hg => ?_, fun g hg => ?_, fun y b hy _ hne =>
        hs.imaged.blank_iff.2 (hfit.phoff hbig) y b hy hne⟩ <;>
      · rw [hnil] at hg
        exact absurd hg List.not_mem_nil

theorem described_elfFile {off : ℕ} (hoff : off = 0 ∨ off = 2 ^ 32) :
    loads (described (elfFile off)) = [elfSegment off] ∧ (elfFile off).length = 120 := by
  rcases hoff with rfl | rfl <;> decide +kernel

/-- A program whose segment starts the file. -/
theorem exec_image_elfFile : ∃ k k' root n, (bootable roomyImage).Reachable k ∧
    exec roomyImage initSlot (some (.file (elfFile 0))) [] k = .ok (0, k') ∧
    (k'.proc initSlot).pagetable = some root ∧ ImageOf (elfFile 0) k'.phys.mem root n := by
  obtain ⟨k, k', tf, old, uargv, hk, hI, -, htf, hold, hrun⟩ := @exists_starts 0 (.inl rfl)
  obtain ⟨hd, hlen⟩ := @described_elfFile 0 (.inl rfl)
  obtain ⟨root, n, hr, -, hiff⟩ := exec_image_iff roomyImage k hI initSlot tf old htf hold (elfFile 0)
    (by rw [hlen]; norm_num) [] 0 k' hrun (by decide) (by rw [hd]; exact List.pairwise_singleton _ _)
  refine ⟨k, k', root, n, hk, hrun, hr, hiff.2 ⟨fun g hg _ => ?_, fun hbig => ?_⟩⟩
  · rw [hd] at hg
    obtain rfl := List.mem_singleton.1 hg
    exact Nat.two_pow_pos 32
  · rw [(@elfHdr_elfFile 0 (.inl rfl)).1] at hbig
    exact absurd hbig (by decide)

/-- A program whose segment is not in the file: `exec` starts it, with other bytes. -/
theorem exec_loads_other_bytes : ∃ k k' root n, (bootable roomyImage).Reachable k ∧
    exec roomyImage initSlot (some (.file (elfFile (2 ^ 32)))) [] k = .ok (0, k') ∧
    (k'.proc initSlot).pagetable = some root ∧ (k'.proc initSlot).sz = (n + 2) * PGSIZE ∧
    Ascending (loads (described (elfFile (2 ^ 32)))) ∧ ¬ ImageOf (elfFile (2 ^ 32)) k'.phys.mem root n := by
  obtain ⟨k, k', tf, old, uargv, hk, hI, -, htf, hold, hrun⟩ := @exists_starts (2 ^ 32) (.inr rfl)
  obtain ⟨hd, hlen⟩ := @described_elfFile (2 ^ 32) (.inr rfl)
  obtain ⟨root, n, hs⟩ := ((exec_started hI htf hold _ []).of_ok hrun).2 (by decide)
  refine ⟨k, k', root, n, hk, hrun, hs.pagetable, hs.sz, by rw [hd]; exact List.pairwise_singleton _ _, fun hi => ?_⟩
  have := (hi.bytes (elfSegment (2 ^ 32)) (by rw [hd]; exact List.mem_singleton_self _) 0 (by decide)).1
  rw [hlen] at this
  exact absurd this (by decide)

end Kernel

end Xv6

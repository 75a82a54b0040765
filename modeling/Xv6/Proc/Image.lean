import Xv6.Vm.Store
import Xv6.Proc.Load

/-!
# Proc/Image — `exec` builds an address space from a file

The segments are laid over zeroed memory one after the other (`imageByte`), with the permissions of
the first one that reaches a page (`Paged`), also if they overlap.  Above them are a guard page and
the stack.
-/

namespace Xv6

open Machinery Function Ensures List Option Nat

/-! ## What the headers describe -/

/-- The program headers that `exec` reads, `k` of them from `off` on. -/
def headersAt (f : Reader) : ℕ → ℕ → List ProgHdr
  | _, 0 => []
  | off, k + 1 => ProgHdr.parse (f.read (off % 2 ^ 32) ProgHdr.size) :: headersAt f (off + ProgHdr.size) k

def loads (hs : List ProgHdr) : List ProgHdr := hs.filter fun h => h.type = ELF_PROG_LOAD

/-- The piece of a segment of `sz` bytes at `off` that goes to page `j`. -/
def segPiece (f : Reader) (off sz j : ℕ) : List Byte :=
  f.read ((off + j * PGSIZE) % 2 ^ 32) (min (sz - j * PGSIZE) PGSIZE)

/-- The byte `i` of a segment. -/
def segByte (f : Reader) (off sz i : ℕ) : Byte := (segPiece f off sz (i / PGSIZE)).getD (i % PGSIZE) 0

/-- Every `readi` of `loadseg` gives all it is asked for. -/
def ReadsAll (f : Reader) (off sz : ℕ) : Prop :=
  ∀ j, j * PGSIZE < sz → (segPiece f off sz j).length = min (sz - j * PGSIZE) PGSIZE

namespace ProgHdr

def top (h : ProgHdr) : ℕ := h.vaddr + h.memsz

/-- The segment of `h` laid over the memory `b`; `loadseg` takes `off` and `filesz` as `uint`. -/
def lay (f : Reader) (h : ProgHdr) (b : ℕ → Byte) (va : ℕ) : Byte :=
  if h.vaddr ≤ va ∧ va < h.vaddr + h.filesz % 2 ^ 32 then
    segByte f (h.off % 2 ^ 32) (h.filesz % 2 ^ 32) (va - h.vaddr)
  else b va

/-- A header that passes the checks of `exec`. -/
structure Good (f : Reader) (h : ProgHdr) : Prop where
  filesz : h.filesz ≤ h.memsz
  top : h.top < 2 ^ 64
  aligned : h.vaddr % PGSIZE = 0
  read : ReadsAll f (h.off % 2 ^ 32) (h.filesz % 2 ^ 32)

end ProgHdr

/-- The memory that the segments of `hs` leave, in this order. -/
def imageByte (f : Reader) (hs : List ProgHdr) : ℕ → Byte := hs.foldl (fun b h => h.lay f b) fun _ => 0

theorem imageByte_concat (f : Reader) (hs : List ProgHdr) (h : ProgHdr) :
    imageByte f (hs ++ [h]) = h.lay f (imageByte f hs) := by
  rw [imageByte, foldl_append]
  rfl

variable {va w c x n' y lo off sz k : ℕ}

theorem imageByte_eq_zero {f : Reader} {hs : List ProgHdr}
    (h : ∀ g ∈ hs, ¬ (g.vaddr ≤ va ∧ va < g.vaddr + g.filesz % 2 ^ 32)) : imageByte f hs va = 0 := by
  induction hs using List.reverseRecOn with
  | nil => rfl
  | append_singleton hs g ih =>
    rw [imageByte_concat, ProgHdr.lay, if_neg (h g (by simp))]
    exact ih fun g' hg => h g' (by simp [hg])

variable {im : Image} {f : Reader} {root tf n : ℕ} {σ σ' : Phys} {rest : Multiset ℕ} {m m' : ℕ → Page}
variable {hs : List ProgHdr} {h : ProgHdr}

/-! ## Pages open to the user -/

/-- The first `n` pages are open to the user. -/
def Open (m : ℕ → Page) (root n : ℕ) : Prop :=
  ∀ w < n, ∃ e, leaf m root w = some e ∧ e / 16 % 2 = 1 ∧ pte2page e ≠ 0

theorem Open.congr (h : Open m root n) (hs : SameTable root m m') : Open m' root n := fun w hw => by
  rw [hs.leaf]
  exact h w hw

theorem Open.userPage (h : Open m root n) (hw : w < n) (hn : n ≤ USERTOP) :
    ∃ c, userPage m root (w * PGSIZE) = some c := by
  obtain ⟨e, he, hu⟩ := h w hw
  have htop := USERTOP_eq
  refine ⟨pte2page e, ?_⟩
  rw [Xv6.userPage, if_pos (by unfold PGSIZE MAXVA; omega),
    Nat.mul_div_cancel _ PGSIZE_pos, he, bind_some, if_pos hu]

theorem flags2perm_lt (flags : ℕ) : flags2perm flags < 1024 := by
  refine or_lt_two_pow (n := 10) ?_ ?_ <;> split <;> decide

theorem userPerm_open (hx : x < 1024) (hc : InPool im c) :
    mkPte c (PTE_R ||| PTE_U ||| x) / 16 % 2 = 1 ∧ pte2page (mkPte c (PTE_R ||| PTE_U ||| x)) ≠ 0 := by
  constructor
  · have hm := mkPte_mod (n := c) (userPerm_lt hx)
    have hbit : (PTE_R ||| PTE_U ||| x ||| 1).testBit 4 = true := by
      rw [testBit_or, testBit_or]
      rfl
    rw [testBit_eq_decide_div_mod_eq, decide_eq_true_iff] at hbit
    omega
  · rw [pte2page_mkPte (userPerm_lt hx) hc.lt]
    have := Finset.mem_Ico.1 hc.mem_range
    omega

theorem Open.grow (hx : x < 1024) (h : Open m root n)
    (hn : n' ≤ USERTOP) (hout : SameOutside n root m m')
    (hz : Zeroed im (PTE_R ||| PTE_U ||| x) n n' root m') : Open m' root n' := by
  have htop := USERTOP_eq
  intro w hw
  by_cases hlt : w < n
  · rw [hout.leaf w (by omega) (.inl hlt)]
    exact h w hlt
  · obtain ⟨c, hpool, hl, -⟩ := hz w (not_lt.1 hlt) hw
    exact ⟨_, hl, userPerm_open hx hpool⟩

theorem userPage_mkPte (hx : x < 1024) (hc : InPool im c) (hw : w < USERTOP)
    (hl : leaf m root w = some (mkPte c (PTE_R ||| PTE_U ||| x))) (hy : y / PGSIZE = w) :
    userPage m root y = some c := by
  have hU := USERTOP_eq
  have hmax : y < MAXVA := by
    unfold MAXVA
    unfold PGSIZE at hy
    omega
  rw [userPage, if_pos hmax, hy, hl, bind_some, if_pos (userPerm_open hx hc),
    pte2page_mkPte (userPerm_lt hx) hc.lt]

theorem userByte_zeroed {hi : ℕ} (hx : x < 1024)
    (hz : Zeroed im (PTE_R ||| PTE_U ||| x) lo hi root m) (hlo : lo ≤ w) (hhi : w < hi)
    (htop : hi ≤ USERTOP) (hy : y / PGSIZE = w) : userByte m root y = some 0 := by
  obtain ⟨c, hpool, hl, hc⟩ := hz w hlo hhi
  rw [userByte, userPage_mkPte hx hpool (by omega) hl hy, map_some, hc, Bytes.byteAt]
  split_ifs <;> rfl

theorem userByte_congr (hl : leaf m' root (y / PGSIZE) = leaf m root (y / PGSIZE))
    (hc : ∀ e, leaf m root (y / PGSIZE) = some e → m' (pte2page e) = m (pte2page e)) :
    userByte m' root y = userByte m root y := by
  have hpage : userPage m' root y = userPage m root y := by rw [userPage, userPage, hl]
  rw [userByte, userByte, hpage]
  refine map_congr fun c hcp => ?_
  rw [userPage] at hcp
  split at hcp
  · obtain ⟨e, he, hif⟩ := bind_eq_some_iff.1 hcp
    split at hif
    · rw [← some.inj hif, hc e he]
    · cases hif
  · cases hcp

theorem SameOutside.userByte (h : SameOutside lo root m m') (hlo : lo ≤ USERTOP)
    (hy : y / PGSIZE < lo) : userByte m' root y = userByte m root y := by
  have htop := USERTOP_eq
  exact userByte_congr (h.leaf _ (by omega) (.inl hy)) (h.content _ (by omega) hy)

/-! ## `loadseg` -/

theorem segPiece_succ (f : Reader) (off sz j : ℕ) :
    segPiece f (off + PGSIZE) (sz - PGSIZE) j = segPiece f off sz (j + 1) := by
  rw [segPiece, segPiece, succ_mul, Nat.sub_sub, add_comm PGSIZE (j * PGSIZE), add_assoc off,
    add_comm PGSIZE]

theorem segByte_sub (f : Reader) (off sz : ℕ) {i : ℕ} (hi : PGSIZE ≤ i) :
    segByte f (off + PGSIZE) (sz - PGSIZE) (i - PGSIZE) = segByte f off sz i := by
  have hdiv : (i - PGSIZE) / PGSIZE + 1 = i / PGSIZE := by
    unfold PGSIZE at *
    omega
  have hmod : (i - PGSIZE) % PGSIZE = i % PGSIZE := by
    unfold PGSIZE at *
    omega
  rw [segByte, segByte, segPiece_succ, hdiv, hmod]

/-- **`loadseg` lays a segment over user memory**, if it is all there. -/
theorem loadsegLoop_spec (k : ℕ) {v : ℕ} (hk : k = npages sz) (hv : v + k ≤ n) (hn : n ≤ USERTOP)
    (h : Space im USERTOP root rest σ) (hg : Guarded σ.mem root) (ho : Open σ.mem root n) :
    Ensures (loadsegLoop f root k (v * PGSIZE) off sz) σ
      (fun ok σ' => Stored root σ σ' ∧ (ok = true ↔ ReadsAll f off sz) ∧ (ok = true → ∀ y,
        userByte σ'.mem root y = if v * PGSIZE ≤ y ∧ y < v * PGSIZE + sz
          then some (segByte f off sz (y - v * PGSIZE)) else userByte σ.mem root y)) := by
  induction k generalizing v off sz σ with
  | zero =>
    have hsz : sz = 0 := by
      unfold npages PGSIZE at hk
      omega
    subst hsz
    rw [loadsegLoop]
    exact .pure ⟨⟨rfl, fun _ _ => rfl, rfl⟩, ⟨fun _ j hj => by omega, fun _ => rfl⟩,
      fun _ y => by rw [if_neg (by omega)]⟩
  | succ k ih =>
    obtain ⟨c, hc⟩ := ho.userPage (w := v) (by omega) hn
    have hpos : 0 < sz := by
      by_contra h0
      rw [Nat.eq_zero_of_not_pos h0] at hk
      unfold npages PGSIZE at hk
      omega
    have hmod : v * PGSIZE % PGSIZE = 0 := mul_mod_left _ _
    rw [loadsegLoop, bind_iff, ok_iff (walkaddr_run _ _ _), hc]
    simp only
    rw [bind_iff, modify_iff]
    generalize hbs : f.read (off % 2 ^ 32) (min sz PGSIZE) = bs
    have hpiece : segPiece f off sz 0 = bs := by rw [segPiece, zero_mul, add_zero, Nat.sub_zero, hbs]
    have hle : bs.length ≤ min sz PGSIZE := hbs ▸ f.length_le _ _
    have hs : Stored root σ (σ.put c ((σ.mem c).splice 0 bs)) := .put (mem_mapped_of_userPage hg hc) _
    have hbytes := userByte_put h hg hc (l := bs) (by rw [hmod]; omega)
    rw [hmod] at hbytes
    have hzero : ReadsAll f off sz → bs.length = min sz PGSIZE := fun hall => by
      have := hall 0 (by omega)
      rwa [hpiece, zero_mul, Nat.sub_zero] at this
    split
    · rename_i hlen
      exact .pure ⟨hs, ⟨nofun, fun hall => absurd (hzero hall) hlen⟩, nofun⟩
    · rename_i hlen
      have hsame := hs.sameTable h
      rw [show v * PGSIZE + PGSIZE = (v + 1) * PGSIZE by ring]
      have hk' : k = npages (sz - PGSIZE) := by
        unfold npages PGSIZE at *
        omega
      refine (ih hk' (by omega) (h.of_kept (hs.kept h))
        (hg.congr hsame) (ho.congr hsame)).imp fun ok σ' ⟨hs', hiff, hb⟩ =>
          ⟨hs.trans hs' h, hiff.trans ⟨fun hall j hj => ?_, fun hall j hj => ?_⟩, fun hok y => ?_⟩
      · cases j with
        | zero =>
          rw [hpiece, zero_mul, Nat.sub_zero]
          exact not_not.1 hlen
        | succ j =>
          rw [succ_mul] at hj ⊢
          rw [← segPiece_succ, hall j (by omega), Nat.sub_sub, add_comm PGSIZE]
      · rw [segPiece_succ, hall (j + 1) (by rw [succ_mul]; omega), succ_mul, Nat.sub_sub,
          add_comm PGSIZE]
      · rw [hb hok, hbytes, overlay, succ_mul]
        by_cases hlast : v * PGSIZE + PGSIZE ≤ y ∧ y < v * PGSIZE + PGSIZE + (sz - PGSIZE)
        · rw [if_pos hlast, if_pos (by omega), ← segByte_sub f off sz (by omega), Nat.sub_sub]
        · rw [if_neg hlast]
          by_cases hin : v * PGSIZE ≤ y ∧ y < v * PGSIZE + sz
          · have hlt : y - v * PGSIZE < PGSIZE := by omega
            rw [if_pos hin, if_pos (by omega), segByte, div_eq_of_lt hlt, mod_eq_of_lt hlt, hpiece]
          · rw [if_neg hin, if_neg (by omega)]

theorem field_lt (bs : List Byte) (off w : ℕ) : field bs off w < 256 ^ w := by
  refine (leNat_lt _).trans_le (Nat.pow_le_pow_right (by norm_num) ?_)
  rw [length_take]
  exact min_le_left _ _

/-! ## The image so far

The loop over the headers extends the address space by what a segment needs and then loads it. -/

/-- An address space under construction: `n` pages, all open to the user. -/
structure Building (im : Image) (m : ℕ → Page) (root tf n : ℕ) : Prop where
  space : UserSpace im m root tf n
  opened : Open m root n

theorem Building.stored (h : Building im σ.mem root tf n) (hs : Stored root σ σ')
    (hsp : Space im USERTOP root rest σ) : Building im σ'.mem root tf n :=
  ⟨h.space.congr (hs.sameTable hsp), h.opened.congr (hs.sameTable hsp)⟩

/-- The segments of `hs` are in the first `n` pages, each with the permissions of the first that
reaches it. -/
structure Paged (im : Image) (m : ℕ → Page) (root : ℕ) (hs : List ProgHdr) (n : ℕ) : Prop where
  below : ∀ g ∈ hs, npages g.top ≤ n
  page : ∀ w < n, ∃ g c, hs.find? (fun g => w < npages g.top) = some g ∧ InPool im c ∧
    leaf m root w = some (mkPte c (PTE_R ||| PTE_U ||| flags2perm g.flags))

/-- The first `n` pages hold the segments of `hs`. -/
def Filled (f : Reader) (m : ℕ → Page) (root : ℕ) (hs : List ProgHdr) (n : ℕ) : Prop :=
  ∀ y, y / PGSIZE < n → userByte m root y = some (imageByte f hs y)

theorem Paged.congr (hp : Paged im m root hs n) (hl : ∀ w < n, leaf m' root w = leaf m root w) :
    Paged im m' root hs n where
  below := hp.below
  page w hw := by
    rw [hl w hw]
    exact hp.page w hw

theorem Paged.grow (hp : Paged im m root hs n) (hn : n' = max n (npages h.top)) (htop : n' ≤ USERTOP)
    (hout : SameOutside n root m m') (hz : Zeroed im (PTE_R ||| PTE_U ||| flags2perm h.flags) n n' root m') :
    Paged im m' root (hs ++ [h]) n' where
  below g hg := by
    rcases mem_append.1 hg with hg | hg
    · exact (hp.below g hg).trans (by omega)
    · rw [mem_singleton.1 hg]
      omega
  page w hw := by
    have hU := USERTOP_eq
    by_cases hlt : w < n
    · obtain ⟨g, c, hg, hc⟩ := hp.page w hlt
      refine ⟨g, c, by rw [List.find?_append, hg, some_or], ?_⟩
      rwa [hout.leaf w (by omega) (.inl hlt)]
    · obtain ⟨c, hpool, hl, -⟩ := hz w (not_lt.1 hlt) hw
      have hnone : hs.find? (fun g => w < npages g.top) = none := by
        refine List.find?_eq_none.2 fun g hg => ?_
        have := hp.below g hg
        simp only [decide_eq_true_eq]
        omega
      refine ⟨h, c, ?_, hpool, hl⟩
      rw [List.find?_append, hnone, none_or, List.find?_singleton, if_pos]
      simp only [decide_eq_true_eq]
      omega

theorem Filled.grow (hx : x < 1024) (hf : Filled f m root hs n) (hp : Paged im m root hs n)
    (hgood : ∀ g ∈ hs, g.Good f) (hn : n ≤ USERTOP) (htop : n' ≤ USERTOP) (hout : SameOutside n root m m')
    (hz : Zeroed im (PTE_R ||| PTE_U ||| x) n n' root m') : Filled f m' root hs n' := by
  intro y hy
  by_cases hlt : y / PGSIZE < n
  · rw [hout.userByte hn hlt, hf y hlt]
  · rw [userByte_zeroed hx hz (not_lt.1 hlt) hy htop rfl, imageByte_eq_zero fun g hg => ?_]
    -- segments end below page `n`
    have hbelow := hp.below g hg
    have hsz := (hgood g hg).filesz
    have hmod := mod_le g.filesz (2 ^ 32)
    rw [ProgHdr.top] at hbelow
    unfold npages PGSIZE at hbelow
    unfold PGSIZE at hlt
    omega

theorem Building.uvmalloc {newsz : ℕ} (hx : x < 1024) (h : Building im σ.mem root tf (npages sz))
    (hsp : Space im USERTOP root rest σ) : Ensures (uvmalloc im root sz newsz x) σ
      (fun r σ' => Kept USERTOP root σ σ' ∧ SameOutside (npages sz) root σ.mem σ'.mem ∧
        Building im σ'.mem root tf (npages (if r = 0 then sz else r)) ∧
        (r = 0 ∧ (max sz newsz = 0 ∨ σ.freelist.length < 3 * (npages (max sz newsz) - npages sz)) ∨
          r ≠ 0 ∧ r = max sz newsz ∧ Zeroed im (PTE_R ||| PTE_U ||| x) (npages sz) (npages r) root σ'.mem ∧
            σ.freelist.length ≤ σ'.freelist.length + 3 * (npages (max sz newsz) - npages sz))) := by
  have hcost := growPages_le σ.mem root (npages sz) (npages newsz)
  have hmono := npages_mono (le_max_right sz newsz)
  refine (uvmalloc_spec hx h.space.le hsp h.space.sized).imp fun r σ' ⟨hk, hout, hr⟩ => ⟨hk, hout, ?_⟩
  rcases hr with ⟨rfl, hs, hshort⟩ | ⟨hr, hle, hs, hz, hpaid⟩
  · have htop := USERTOP_eq
    refine ⟨⟨h.space.resize hk.proper hout hs h.space.le, fun w hw => ?_⟩, .inl ⟨rfl, .inr (by omega)⟩⟩
    have hle := h.space.le
    rw [if_pos rfl] at hw
    rw [hout.leaf w (by omega) (.inl hw)]
    exact h.opened w hw
  · by_cases h0 : r = 0
    · have hsz : sz = 0 := by omega
      rw [if_pos h0, hsz]
      rw [h0] at hle hs hz
      exact ⟨⟨h.space.resize hk.proper hout hs hle, h.opened.grow hx hle hout hz⟩, .inl ⟨h0, .inl (by omega)⟩⟩
    · rw [if_neg h0]
      exact ⟨⟨h.space.resize hk.proper hout hs hle, h.opened.grow hx hle hout hz⟩, .inr ⟨h0, hr, hz, by omega⟩⟩

theorem Building.loadseg {len : ℕ} (h : Building im σ.mem root tf (npages sz))
    (hsp : Space im USERTOP root rest σ) (hva : va % PGSIZE = 0) (hlen : va + len % 2 ^ 32 ≤ sz) :
    Ensures (loadseg f root va off len) σ
      (fun ok σ' => Stored root σ σ' ∧ (ok = true ↔ ReadsAll f (off % 2 ^ 32) (len % 2 ^ 32)) ∧
        (ok = true → ∀ y, userByte σ'.mem root y = if va ≤ y ∧ y < va + len % 2 ^ 32
          then some (segByte f (off % 2 ^ 32) (len % 2 ^ 32) (y - va)) else userByte σ.mem root y)) := by
  obtain ⟨v, rfl⟩ : ∃ v, va = v * PGSIZE := ⟨va / PGSIZE, by unfold PGSIZE at *; omega⟩
  refine loadsegLoop_spec _ rfl ?_ h.space.le hsp h.space.guarded h.opened
  unfold npages PGSIZE at *
  omega

/-- The size after the segments of `hs`. -/
def imageEnd (sz : ℕ) (hs : List ProgHdr) : ℕ := hs.foldl (fun s h => max s h.top) sz

theorem le_imageEnd (sz : ℕ) (hs : List ProgHdr) : sz ≤ imageEnd sz hs := by
  induction hs generalizing sz with
  | nil => exact le_rfl
  | cons h hs ih => exact (le_max_left _ _).trans (ih _)

theorem npages_max (a b : ℕ) : npages (max a b) = max (npages a) (npages b) := by
  rcases le_total a b with hab | hab
  · rw [max_eq_right hab, max_eq_right (npages_mono hab)]
  · rw [max_eq_left hab, max_eq_left (npages_mono hab)]

/-- The headers `hs` have been loaded into the first `n` pages. -/
structure Laid (im : Image) (f : Reader) (m : ℕ → Page) (root : ℕ) (hs : List ProgHdr) (n : ℕ) : Prop where
  good : ∀ g ∈ hs, g.Good f
  paged : Paged im m root hs n
  filled : Filled f m root hs n

theorem Laid.congr (hl : Laid im f m root hs n) (hn : n ≤ USERTOP) (hout : SameOutside n root m m') :
    Laid im f m' root hs n := by
  have htop := USERTOP_eq
  refine ⟨hl.good, hl.paged.congr fun w hw => hout.leaf w (by omega) (.inl hw), fun y hy => ?_⟩
  rw [hout.userByte hn hy, hl.filled y hy]

/-- The file has all of the `k` headers. -/
def ReadsHeaders (f : Reader) (off k : ℕ) : Prop :=
  ∀ i < k, (f.read ((off + i * ProgHdr.size) % 2 ^ 32) ProgHdr.size).length = ProgHdr.size

theorem ReadsHeaders.succ (h0 : (f.read (off % 2 ^ 32) ProgHdr.size).length = ProgHdr.size)
    (h : ReadsHeaders f (off + ProgHdr.size) k) : ReadsHeaders f off (k + 1) := by
  intro i hi
  cases i with
  | zero => rwa [zero_mul, add_zero]
  | succ i =>
    rw [succ_mul, add_comm (i * _), ← add_assoc]
    exact h i (by omega)

theorem ReadsHeaders.tail (h : ReadsHeaders f off (k + 1)) :
    ReadsHeaders f (off + ProgHdr.size) k := fun i hi => by
  have := h (i + 1) (by omega)
  rwa [succ_mul, add_comm (i * _), ← add_assoc] at this

/-- `k` headers at `off` are there and describe segments that can be loaded. -/
def LoadsWell (f : Reader) (off k : ℕ) : Prop :=
  ReadsHeaders f off k ∧ ∀ g ∈ loads (headersAt f off k), g.Good f ∧ 0 < g.top

/-- What the loop over `k` headers at `off` has done to an address space of `sz` bytes. -/
structure LoadPost (im : Image) (f : Reader) (root tf : ℕ) (hs : List ProgHdr) (off k sz : ℕ) (σ : Phys)
    (r : ℕ × Bool) (σ' : Phys) : Prop where
  kept : Kept USERTOP root σ σ'
  building : Building im σ'.mem root tf (npages r.1)
  ok : r.2 = true → ReadsHeaders f off k ∧ r.1 = imageEnd sz (loads (headersAt f off k)) ∧
    Laid im f σ'.mem root (hs ++ loads (headersAt f off k)) (npages r.1) ∧
    σ.freelist.length ≤ σ'.freelist.length + 3 * (npages r.1 - npages sz)
  bad : r.2 = false → LoadsWell f off k →
    σ.freelist.length < 3 * (npages (imageEnd sz (loads (headersAt f off k))) - npages sz)

/-- **The loop over the headers lays the segments over memory one by one.** -/
theorem loadLoop_spec (k : ℕ) (hb : Building im σ.mem root tf (npages sz))
    (hlaid : Laid im f σ.mem root hs (npages sz)) (hsp : Space im USERTOP root rest σ) :
    Ensures (loadLoop im f root k off sz) σ (LoadPost im f root tf hs off k sz σ) := by
  induction k generalizing off sz σ hs with
  | zero =>
    rw [loadLoop]
    refine .pure ⟨.refl hsp.proper, hb, fun _ => ⟨fun i hi => by omega, rfl, ?_, by omega⟩, nofun⟩
    rwa [headersAt, loads, filter_nil, append_nil]
  | succ k ih =>
    have hstop : ¬ LoadsWell f off (k + 1) → Ensures (pure (sz, false) : Exec KPanic Phys (ℕ × Bool)) σ
        (LoadPost im f root tf hs off (k + 1) sz σ) := fun hno =>
      .pure ⟨.refl hsp.proper, hb, nofun, fun _ hw => absurd hw hno⟩
    rw [loadLoop]
    generalize hbs : f.read (off % 2 ^ 32) ProgHdr.size = bs
    have hread : ReadsHeaders f off (k + 1) → bs.length = ProgHdr.size := fun h => by
      have := h 0 (by omega)
      rwa [zero_mul, add_zero, hbs] at this
    have hcons : headersAt f off (k + 1) = ProgHdr.parse bs :: headersAt f (off + ProgHdr.size) k := by
      rw [headersAt, hbs]
    have h1 : (ProgHdr.parse bs).vaddr < 256 ^ 8 := field_lt _ _ _
    have h2 : (ProgHdr.parse bs).memsz < 256 ^ 8 := field_lt _ _ _
    generalize ProgHdr.parse bs = ph at hcons h1 h2
    simp only
    split
    · rename_i hlen
      exact hstop fun hw => hlen (hread hw.1)
    rename_i hlen
    rw [← hbs, not_not] at hlen
    split
    · rename_i htype
      have hloads : loads (headersAt f off (k + 1)) = loads (headersAt f (off + ProgHdr.size) k) := by
        rw [hcons, loads, filter_cons_of_neg (by simpa using htype), ← loads]
      refine (ih hb hlaid hsp).imp fun r σ' h => ⟨h.kept, h.building, fun hr => ?_, fun hr hw => ?_⟩
      · obtain ⟨hreads, hok⟩ := h.ok hr
        rw [hloads]
        exact ⟨hreads.succ hlen, hok⟩
      · rw [LoadsWell, hloads] at hw
        rw [hloads]
        exact h.bad hr ⟨hw.1.tail, hw.2⟩
    rename_i htype
    have hloads : loads (headersAt f off (k + 1)) = ph :: loads (headersAt f (off + ProgHdr.size) k) := by
      rw [hcons, loads, filter_cons_of_pos (by simpa using htype), ← loads]
    have hgood : LoadsWell f off (k + 1) → ph.Good f ∧ 0 < ph.top := fun hw =>
      hw.2 ph (hloads ▸ mem_cons_self)
    split
    · rename_i hmem
      exact hstop fun hw => absurd (hgood hw).1.filesz (by omega)
    rename_i hmem
    split
    · rename_i hwrap
      refine hstop fun hw => ?_
      have := (hgood hw).1.top
      rw [ProgHdr.top] at this
      omega
    rename_i hwrap
    split
    · rename_i hal
      exact hstop fun hw => hal (hgood hw).1.aligned
    rename_i hal
    -- the end of the segment does not wrap
    have htop : (ph.vaddr + ph.memsz) % 2 ^ 64 = ph.top ∧ ph.top < 2 ^ 64 := by
      rw [ProgHdr.top]
      omega
    rw [htop.1]
    have hend : imageEnd sz (ph :: loads (headersAt f (off + ProgHdr.size) k)) =
        imageEnd (max sz ph.top) (loads (headersAt f (off + ProgHdr.size) k)) := rfl
    have hmono := npages_mono (le_imageEnd (max sz ph.top) (loads (headersAt f (off + ProgHdr.size) k)))
    refine (hb.uvmalloc (flags2perm_lt _) hsp).bind fun r σ1 ⟨hk, hout, hb1, hr⟩ => ?_
    have hsp1 := hsp.of_kept hk
    rcases hr with ⟨h0, hshort⟩ | ⟨h0, hmax, hz, hpaid⟩
    · rw [if_pos h0]
      rw [if_pos h0] at hb1
      refine .pure ⟨hk, hb1, nofun, fun _ hw => ?_⟩
      have := (hgood hw).2
      rw [hloads, hend]
      omega
    rw [if_neg h0]
    rw [if_neg h0] at hb1
    have hmod := mod_le ph.filesz (2 ^ 32)
    have hfit : ph.vaddr + ph.filesz % 2 ^ 32 ≤ r := by
      have := le_max_right sz ph.top
      rw [← hmax, ProgHdr.top] at this
      omega
    have hn : npages r = max (npages sz) (npages ph.top) := by rw [hmax, npages_max]
    have hpaged := hlaid.paged.grow hn hb1.space.le hout hz
    have hfilled := hlaid.filled.grow (flags2perm_lt _) hlaid.paged hlaid.good hb.space.le hb1.space.le hout hz
    refine (hb1.loadseg hsp1 (not_not.1 hal) hfit).bind fun ok σ2 ⟨hst, hall, hbytes⟩ => ?_
    have hk2 := hk.trans (hst.kept hsp1)
    have hb2 := hb1.stored hst hsp1
    cases ok with
    | false =>
      rw [if_neg Bool.false_ne_true]
      exact .pure ⟨hk2, hb2, nofun, fun _ hw => nomatch hall.2 (hgood hw).1.read⟩
    | true =>
      have hlaid2 : Laid im f σ2.mem root (hs ++ [ph]) (npages r) := by
        refine ⟨fun g hg => ?_, hpaged.congr fun w _ => (hst.sameTable hsp1).leaf w, fun y hy => ?_⟩
        · rcases mem_append.1 hg with hg | hg
          · exact hlaid.good g hg
          · rw [mem_singleton.1 hg]
            exact ⟨not_lt.1 hmem, htop.2, not_not.1 hal, hall.1 rfl⟩
        · rw [hbytes rfl, imageByte_concat, ProgHdr.lay]
          split_ifs
          · rfl
          · exact hfilled y hy
      have hfree : σ2.freelist.length = σ1.freelist.length := by rw [hst.freelist]
      rw [if_pos rfl]
      refine (ih hb2 hlaid2 (hsp.of_kept hk2)).imp fun r' σ' h =>
        ⟨hk2.trans h.kept, h.building, fun hr' => ?_, fun hr' hw => ?_⟩
      · obtain ⟨hreads, hsz, hl, hcost⟩ := h.ok hr'
        rw [append_assoc, singleton_append] at hl
        rw [hloads, hend, ← hmax]
        refine ⟨hreads.succ hlen, hsz, hl, ?_⟩
        have := npages_mono (le_imageEnd r (loads (headersAt f (off + ProgHdr.size) k)))
        rw [← hsz] at this
        rw [← hmax] at hpaid
        omega
      · have hw' : LoadsWell f (off + ProgHdr.size) k :=
          ⟨hw.1.tail, fun g hg => hw.2 g (hloads ▸ mem_cons_of_mem _ hg)⟩
        have := h.bad hr' hw'
        rw [hloads, hend, ← hmax]
        rw [← hmax] at hpaid hmono
        omega

/-! ## The image with its stack -/

/-- The address space that `exec` builds: the image of `hs` in `n` pages, a guard page, and the
stack. -/
structure Imaged (im : Image) (f : Reader) (m : ℕ → Page) (root tf n : ℕ) (hs : List ProgHdr) : Prop where
  space : UserSpace im m root tf (n + 2)
  laid : Laid im f m root hs n
  guard : ∀ y, y / PGSIZE = n → userPage m root y = none

theorem Imaged.congr (hi : Imaged im f m root tf n hs) (ht : SameTable root m m')
    (hc : ∀ w < n, ∀ e, leaf m root w = some e → m' (pte2page e) = m (pte2page e)) :
    Imaged im f m' root tf n hs where
  space := hi.space.congr ht
  laid := ⟨hi.laid.good, hi.laid.paged.congr fun w _ => ht.leaf w, fun y hy => by
    rw [userByte_congr (ht.leaf _) (hc _ hy), hi.laid.filled y hy]⟩
  guard y hy := by rw [userPage_congr ht, hi.guard y hy]

/-- …and before it pushes the arguments, the stack is zero. -/
structure Prepared (im : Image) (f : Reader) (m : ℕ → Page) (root tf n : ℕ) (hs : List ProgHdr) : Prop
    extends Imaged im f m root tf n hs where
  stack : ∃ c, InPool im c ∧ leaf m root (n + 1) = some (mkPte c (PTE_R ||| PTE_U ||| PTE_W)) ∧
    m c = .fill PGSIZE 0

/-- The headers of the file, as `exec` reads them. -/
def fileHeaders (f : Reader) : List ProgHdr :=
  headersAt f ((ElfHdr.parse (f.read 0 ElfHdr.size)).phoff % 2 ^ 32) (ElfHdr.parse (f.read 0 ElfHdr.size)).phnum

theorem Prepared.of_uvmclear (hl : Laid im f σ.mem root hs n)
    (hu : UserSpace im σ.mem root tf (n + 2)) (hsp : Space im USERTOP root rest σ)
    (hz : Zeroed im (PTE_R ||| PTE_U ||| PTE_W) n (n + 2) root σ.mem) :
    Ensures (uvmclear root (n * PGSIZE)) σ
      (fun _ σ' => Kept USERTOP root σ σ' ∧ Prepared im f σ'.mem root tf n hs) := by
  have htop := USERTOP_eq
  have hle := hu.le
  obtain ⟨e, he⟩ := ne_none_iff_exists'.1 ((hu.sized n (by omega)).2 (by omega))
  refine (uvmclear_spec (by omega) hsp he).imp fun _ σ' ⟨hk, hcont, hleaf⟩ => ⟨hk, ?_⟩
  have hsame : ∀ w < 2 ^ 27, w ≠ n → leaf σ'.mem root w = leaf σ.mem root w := fun w hw hne => by
    rw [hleaf w hw, if_neg hne]
  refine ⟨⟨⟨hk.proper, fun w hw => ?_, hle, fun w hw hlt => ?_⟩, ⟨hl.good,
    hl.paged.congr fun w hw => hsame w (by omega) (by omega), fun y hy => ?_⟩, fun y hy => ?_⟩, ?_⟩
  · rw [← hu.sized w hw]
    by_cases hwn : w = n
    · rw [hleaf w (by omega), if_pos hwn, hwn, he]
      simp
    · rw [hsame w (by omega) hwn]
  · rw [hsame w hlt (by omega), hu.upper w hw hlt]
  · rw [userByte_congr (hsame _ (by omega) (by omega)) fun e' he' => hcont _ (by omega) e' he']
    exact hl.filled y hy
  · have hbit : clearUser e / 16 % 2 = 0 := by
      rw [clearUser]
      unfold PTE_U
      split <;> omega
    rw [userPage, hy, hleaf n (by omega), if_pos rfl, bind_some]
    split_ifs with hva hu'
    · omega
    · rfl
    · rfl
  · obtain ⟨c, hpool, hc, hzero⟩ := hz (n + 1) (by omega) (by omega)
    refine ⟨c, hpool, by rw [hsame _ (by omega) (by omega), hc], ?_⟩
    have := hcont (n + 1) (by omega) _ hc
    rw [pte2page_mkPte (userPerm_lt (by decide)) hpool.lt] at this
    rw [this, hzero]

def elfHdr (f : Reader) : ElfHdr := ElfHdr.parse (f.read 0 ElfHdr.size)

/-- A file that `exec` can load. -/
structure Loadable (f : Reader) : Prop where
  header : (f.read 0 ElfHdr.size).length = ElfHdr.size
  magic : (elfHdr f).magic = ELF_MAGIC
  loads : LoadsWell f ((elfHdr f).phoff % 2 ^ 32) (elfHdr f).phnum

def loadPages (f : Reader) : ℕ := 9 + 3 * npages (imageEnd 0 (loads (fileHeaders f)))

/-- **The first half of `exec` prepares an address space, or hands everything back.** -/
theorem execImage_spec (htf : tf < 2 ^ 52) (h : Stock im rest σ) :
    Ensures (execImage im f tf) σ
      (fun r σ' => (r = none → Moved σ σ' 0 0 ∧ (Loadable f → σ.freelist.length < loadPages f)) ∧
        ∀ root sz entry, r = some (root, sz, entry) →
          ∃ n, sz = (n + 2) * PGSIZE ∧ Moved σ σ' 0 (owned σ'.mem USERTOP root) ∧
            Prepared im f σ'.mem root tf n (loads (fileHeaders f)) ∧ entry = (elfHdr f).entry ∧
            ReadsHeaders f ((elfHdr f).phoff % 2 ^ 32) (elfHdr f).phnum) := by
  have htop := USERTOP_eq
  have hz : npages 0 = 0 := by decide
  rw [execImage, loadPages]
  change Ensures (if (f.read 0 ElfHdr.size).length ≠ ElfHdr.size then _ else
    if (elfHdr f).magic ≠ ELF_MAGIC then _ else _) _ _ _
  split
  · rename_i hlen
    exact .pure ⟨fun _ => ⟨.refl σ 0, fun hl => absurd hl.header hlen⟩, by simp⟩
  split
  · rename_i hmagic
    exact .pure ⟨fun _ => ⟨.refl σ 0, fun hl => absurd hl.magic hmagic⟩, by simp⟩
  refine (procPagetable_spec htf h).bind fun r σ1 hr => ?_
  cases r with
  | none => exact .pure ⟨fun _ => ⟨hr.1, fun _ => by omega⟩, by simp⟩
  | some root =>
    obtain ⟨⟨hm, hu⟩, hlen1, -⟩ := hr
    have hsp : Space im USERTOP root rest σ1 := by
      rw [← zero_add rest] at h
      exact (h.of_moved hm).space hu.proper
    -- a failure from here on frees the table that has been built
    have hbad : ∀ {σ2 : Phys} {sz : ℕ}, Kept USERTOP root σ1 σ2 →
        UserSpace im σ2.mem root tf (npages sz) →
        Ensures (procFreepagetable im root sz) σ2 (fun _ σ' => Moved σ σ' 0 0) :=
      fun hk hu2 => (procFreepagetable_spec (hsp.of_kept hk) hu2).imp fun _ σ' hf =>
        (hm.trans hk.toMoved).trans hf
    have hb : Building im σ1.mem root tf (npages 0) := by
      rw [hz]
      exact ⟨hu, fun w hw => by omega⟩
    have hlaid : Laid im f σ1.mem root [] (npages 0) := by
      refine ⟨by simp, ⟨by simp, fun w hw => ?_⟩, fun y hy => ?_⟩
      · rw [hz] at hw
        exact absurd hw (Nat.not_lt_zero _)
      · rw [hz] at hy
        exact absurd hy (Nat.not_lt_zero _)
    refine (loadLoop_spec _ hb hlaid hsp).bind fun r σ2 hpost => ?_
    obtain ⟨hk2, hb2, hok2, hbad2⟩ := hpost
    obtain ⟨sz, ok⟩ := r
    change _ → _ → _ < 3 * (npages (imageEnd 0 (loads (fileHeaders f))) - _) at hbad2
    simp only at hb2 hok2 hbad2 ⊢
    split
    · rename_i hok
      refine (hbad hk2 hb2.space).bind fun _ σ' hf => .pure ⟨fun _ => ⟨hf, fun hl => ?_⟩, by simp⟩
      have := hbad2 hok hl.loads
      omega
    rename_i hok
    obtain ⟨hreads, hsz, hl2, hpaid2⟩ := hok2 (by simpa using hok)
    change sz = imageEnd 0 (loads (fileHeaders f)) at hsz
    rw [nil_append] at hl2
    rw [pgRoundUp_eq hb2.space.le, ← hsz]
    generalize npages sz = n at hb2 hl2 hpaid2
    have hb2' : Building im σ2.mem root tf (npages (n * PGSIZE)) := by rwa [npages_mul]
    have hmax : max (n * PGSIZE) (n * PGSIZE + 2 * PGSIZE) = (n + 2) * PGSIZE := by
      rw [add_mul]
      exact max_eq_right le_self_add
    refine (hb2'.uvmalloc (by decide) (hsp.of_kept hk2)).bind ?_
    rintro r σ3 ⟨hk3, hout3, hb3, hr⟩
    have hk3' := hk2.trans hk3
    have hsp3 := hsp.of_kept hk3'
    rw [hmax, npages_mul, npages_mul] at hr
    rcases hr with ⟨h0, hshort⟩ | ⟨h0, hr', hz3, -⟩
    · rw [if_pos h0] at hb3 ⊢
      refine (hbad hk3' hb3.space).bind fun _ σ' hf => .pure ⟨fun _ => ⟨hf, fun hl => ?_⟩, by simp⟩
      have : (n + 2) * PGSIZE ≠ 0 := by
        unfold PGSIZE
        omega
      omega
    · have hclr : r - 2 * PGSIZE = n * PGSIZE := by
        rw [hr', add_mul]
        omega
      rw [if_neg h0, hr', npages_mul] at hb3
      rw [hr', npages_mul] at hz3
      rw [npages_mul] at hout3
      rw [if_neg h0, hclr]
      refine (Prepared.of_uvmclear (hl2.congr hb2.space.le hout3) hb3.space hsp3 hz3).bind ?_
      rintro _ σ4 ⟨hk4, hprep⟩
      refine .pure ⟨by simp, ?_⟩
      rintro _ _ _ hsome
      obtain ⟨rfl, rfl, rfl⟩ := by simpa using hsome
      exact ⟨n, hr', hm.trans (hk3'.trans hk4).toMoved, hprep, rfl, hreads⟩

end Xv6

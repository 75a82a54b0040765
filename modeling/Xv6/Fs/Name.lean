import Mathlib.Data.List.TakeWhile
import Xv6.Fs.Layout

/-!
# Fs/Name — names and directory entries

A name in memory is the list of the bytes from its address on, then zeros.  Its *key* is what
`namecmp` sees: the first `DIRSIZ` bytes, up to a NUL.
-/

namespace Xv6

open Machinery Function List Option

/-! ## `kernel/string.c` -/

def strncmp (p q : List Byte) : ℕ → ℤ
  | 0 => 0
  | n + 1 =>
    if p.headD 0 ≠ 0 ∧ p.headD 0 = q.headD 0 then strncmp p.tail q.tail n
    else ((p.headD 0).toNat : ℤ) - (q.headD 0).toNat

def strncpy (t : List Byte) : ℕ → List Byte
  | 0 => []
  | n + 1 => if t.headD 0 ≠ 0 then t.headD 0 :: strncpy t.tail n else 0 :: List.replicate n 0

def namecmp (s t : List Byte) : ℤ := strncmp s t DIRSIZ

/-- The string of at most `n` bytes at an address. -/
def strn (n : ℕ) (p : List Byte) : List Byte := (p.take n).takeWhile (· ≠ 0)

def nameKey (name : List Byte) : List Byte := strn DIRSIZ name

theorem strn_succ (n : ℕ) (p : List Byte) :
    strn (n + 1) p = if p.headD 0 ≠ 0 then p.headD 0 :: strn n p.tail else [] := by
  cases p with
  | nil => rfl
  | cons b p => simp [strn, takeWhile_cons]

theorem strncmp_eq_zero {n : ℕ} {p q : List Byte} : strncmp p q n = 0 ↔ strn n p = strn n q := by
  induction n generalizing p q with
  | zero => simp [strncmp, strn]
  | succ n ih =>
    rw [strncmp, strn_succ, strn_succ]
    by_cases heq : p.headD 0 = q.headD 0
    · by_cases hp : p.headD 0 = 0
      · rw [if_neg fun h => h.1 hp, ← heq, hp, sub_self, if_neg (not_not.2 rfl), if_neg (not_not.2 rfl)]
        exact iff_of_true rfl rfl
      · rw [if_pos ⟨hp, heq⟩, ih, if_pos hp, if_pos (heq ▸ hp), heq, cons_inj_right]
    · rw [if_neg fun h => heq h.2]
      have hne : (p.headD 0).toNat ≠ (q.headD 0).toNat := mt BitVec.eq_of_toNat_eq heq
      refine iff_of_false (by omega) fun h => ?_
      split_ifs at h with h1 h2 h2
      · exact heq (cons_eq_cons.1 h).1
      · exact heq ((not_not.1 h1).trans (not_not.1 h2).symm)

theorem namecmp_eq_zero {s t : List Byte} : namecmp s t = 0 ↔ nameKey s = nameKey t := strncmp_eq_zero

@[simp] theorem length_strncpy (t : List Byte) (n : ℕ) : (strncpy t n).length = n := by
  induction n generalizing t with
  | zero => rfl
  | succ n ih =>
    rw [strncpy]
    split_ifs
    · rw [length_cons, ih]
    · simp

@[simp] theorem strn_strncpy (t : List Byte) (n : ℕ) : strn n (strncpy t n) = strn n t := by
  induction n generalizing t with
  | zero => simp [strn]
  | succ n ih =>
    rw [strn_succ n t, strn_succ, strncpy]
    split_ifs with h1 h2 h2
    · rw [tail_cons, ih, headD_cons]
    · exact absurd h1 h2
    · exact absurd rfl h2
    · rfl

theorem nameKey_of_le {name : List Byte} (h : ∀ b ∈ name.take DIRSIZ, b ≠ 0) :
    nameKey name = name.take DIRSIZ := by
  exact takeWhile_eq_self_iff.2 fun b hb => decide_eq_true (h b hb)

/-! ## `struct dirent` -/

/-- `struct dirent`. -/
@[ext] structure Dirent where
  inum : ℕ
  name : List Byte
  deriving DecidableEq, Repr

/-- `sizeof(struct dirent)`. -/
def DIRENT : ℕ := 2 + DIRSIZ

namespace Dirent

def bytes (de : Dirent) : List Byte := leBytes 2 de.inum ++ de.name

def ofBytes (l : List Byte) : Dirent := ⟨leNat (l.take 2), (l.drop 2).take DIRSIZ⟩

theorem length_bytes {de : Dirent} (h : de.name.length = DIRSIZ) : de.bytes.length = DIRENT := by
  rw [bytes, length_append, length_leBytes, h, DIRENT]

theorem ofBytes_bytes {de : Dirent} (hinum : de.inum < 2 ^ 16) (h : de.name.length = DIRSIZ) :
    ofBytes de.bytes = de := by
  refine Dirent.ext ?_ ?_
  · rw [ofBytes, bytes, take_left' (length_leBytes _ _), leNat_leBytes]
    exact Nat.mod_eq_of_lt (hinum.trans_eq (by norm_num))
  · rw [ofBytes, bytes, drop_left' (length_leBytes _ _), take_of_length_le h.le]

end Dirent

/-- The entry that `sys_unlink` writes. -/
def Dirent.zero : Dirent := ⟨0, List.replicate DIRSIZ 0⟩

/-! ## The entries of a directory

As long as no key occurs twice, filling or emptying a slot changes the map at one key. -/

/-- Slot `k` of the contents of a directory. -/
def slotAt (d : List Byte) (k : ℕ) : Dirent := .ofBytes ((d.drop (DIRENT * k)).take DIRENT)

def nslots (d : List Byte) : ℕ := d.length / DIRENT

/-- Slot `k` has the entry with a key. -/
def Names (d : List Byte) (key : List Byte) (k : ℕ) : Prop :=
  (slotAt d k).inum ≠ 0 ∧ nameKey (slotAt d k).name = key

instance (d key : List Byte) (k : ℕ) : Decidable (Names d key k) := inferInstanceAs (Decidable (_ ∧ _))

def findSlot (d key : List Byte) : Option ℕ := (List.range (nslots d)).find? fun k => Names d key k

/-- A directory as a map from keys to inode numbers. -/
def dirMap (d key : List Byte) : Option ℕ := (findSlot d key).map fun k => (slotAt d k).inum

/-- No two slots have the same key. -/
def Distinct (d : List Byte) : Prop :=
  ∀ k < nslots d, ∀ l < nslots d, (slotAt d k).inum ≠ 0 → (slotAt d l).inum ≠ 0 →
    nameKey (slotAt d k).name = nameKey (slotAt d l).name → k = l

/-- The first free slot; one past the end if there is none. -/
structure FreeSlot (d : List Byte) (k : ℕ) : Prop where
  le : k ≤ nslots d
  free : k < nslots d → (slotAt d k).inum = 0
  first : ∀ l < k, (slotAt d l).inum ≠ 0

/-- Assign slot `k`, at most one past the end. -/
def putSlot (d : List Byte) (k : ℕ) (de : Dirent) : List Byte :=
  d.take (DIRENT * k) ++ (de.bytes ++ d.drop (DIRENT * k + DIRENT))

section PutSlot

variable {d key : List Byte} {k l : ℕ} {de : Dirent}

theorem length_eq (hd : d.length % DIRENT = 0) : d.length = DIRENT * nslots d := by
  rw [nslots, Nat.mul_div_cancel' (Nat.dvd_of_mod_eq_zero hd)]

variable (hd : d.length % DIRENT = 0) (hk : k ≤ nslots d) (hname : de.name.length = DIRSIZ)
include hd hk hname

theorem length_putSlot : (putSlot d k de).length = DIRENT * max (nslots d) (k + 1) := by
  have hlen := length_eq hd
  have hde := Dirent.length_bytes hname
  simp only [putSlot, length_append, length_take, length_drop, hde, hlen]
  simp only [DIRENT, DIRSIZ]
  omega

theorem nslots_putSlot : nslots (putSlot d k de) = max (nslots d) (k + 1) := by
  rw [nslots, length_putSlot hd hk hname, Nat.mul_div_cancel_left _ (by decide)]

theorem length_putSlot_mod : (putSlot d k de).length % DIRENT = 0 := by
  rw [length_putSlot hd hk hname, Nat.mul_mod_right]

theorem slotAt_putSlot (hinum : de.inum < 2 ^ 16) :
    slotAt (putSlot d k de) l = if l = k then de else slotAt d l := by
  have hlen := length_eq hd
  have hde := Dirent.length_bytes hname
  have hle : DIRENT * k ≤ d.length := by
    rw [hlen]
    exact Nat.mul_le_mul_left _ hk
  have htake : (d.take (DIRENT * k)).length = DIRENT * k := by rw [length_take, Nat.min_eq_left hle]
  rcases Nat.lt_trichotomy l k with hlt | rfl | hgt
  · have hmul : DIRENT * l + DIRENT ≤ DIRENT * k := by
      rw [← Nat.mul_succ]
      exact Nat.mul_le_mul_left _ hlt
    rw [if_neg hlt.ne, slotAt, slotAt, putSlot, drop_append_of_le_length (by omega),
      take_append_of_le_length (by simp; omega), drop_take, take_take, Nat.min_eq_left (by omega)]
  · rw [if_pos rfl, slotAt, putSlot, drop_left' htake, take_left' hde,
      Dirent.ofBytes_bytes hinum hname]
  · have hmul : DIRENT * k + DIRENT ≤ DIRENT * l := by
      rw [← Nat.mul_succ]
      exact Nat.mul_le_mul_left _ hgt
    have hdrop : (putSlot d k de).drop (DIRENT * l) = d.drop (DIRENT * l) := by
      rw [putSlot, ← append_assoc, drop_append,
        drop_of_length_le (by rw [length_append, htake, hde]; exact hmul), nil_append,
        length_append, htake, hde, drop_drop]
      congr 1
      omega
    rw [if_neg hgt.ne', slotAt, slotAt, hdrop]

end PutSlot

section Map

variable {d key : List Byte} {k n : ℕ}

theorem findSlot_eq_some : findSlot d key = some k ↔
    k < nslots d ∧ Names d key k ∧ ∀ l < k, ¬Names d key l := by
  rw [findSlot, List.find?_range_eq_some]
  simp [and_left_comm]

theorem findSlot_eq_none : findSlot d key = none ↔ ∀ k < nslots d, ¬Names d key k := by
  rw [findSlot, List.find?_range_eq_none]
  simp

theorem dirMap_eq_none : dirMap d key = none ↔ ∀ k < nslots d, ¬Names d key k := by
  rw [dirMap, map_eq_none_iff, findSlot_eq_none]

theorem Distinct.dirMap_eq_some (h : Distinct d) :
    dirMap d key = some n ↔ ∃ k < nslots d, Names d key k ∧ (slotAt d k).inum = n := by
  rw [dirMap, map_eq_some_iff]
  constructor
  · rintro ⟨k, hk, hn⟩
    obtain ⟨hlt, hnames, -⟩ := findSlot_eq_some.1 hk
    exact ⟨k, hlt, hnames, hn⟩
  · rintro ⟨k, hlt, hnames, hn⟩
    refine ⟨k, findSlot_eq_some.2 ⟨hlt, hnames, fun l hl hnl => ?_⟩, hn⟩
    have := h l (hl.trans hlt) k hlt hnl.1 hnames.1 (hnl.2.trans hnames.2.symm)
    omega

variable (h : Distinct d) (de : Dirent) (hd : d.length % DIRENT = 0) (hname : de.name.length = DIRSIZ)
include hd hname h

/-- **A new key in a free slot.** -/
theorem Distinct.insert (hk : k ≤ nslots d) (hfree : k < nslots d → (slotAt d k).inum = 0)
    (hinum : de.inum < 2 ^ 16) (hne : de.inum ≠ 0) (hnew : dirMap d (nameKey de.name) = none) :
    Distinct (putSlot d k de) ∧
      dirMap (putSlot d k de) = update (dirMap d) (nameKey de.name) (some de.inum) := by
  have hnew := dirMap_eq_none.1 hnew
  have hslot : ∀ l, slotAt (putSlot d k de) l = if l = k then de else slotAt d l := fun l =>
    slotAt_putSlot hd hk hname hinum
  have hn := nslots_putSlot hd hk hname
  have hold : ∀ l < nslots (putSlot d k de), l ≠ k → l < nslots d := fun l hl hlk => by omega
  have hdist : Distinct (putSlot d k de) := by
    intro a ha b hb
    rw [hslot, hslot]
    split_ifs with hak hbk hbk
    · exact fun _ _ _ => hak.trans hbk.symm
    · exact fun _ h2 heq => absurd ⟨h2, heq.symm⟩ (hnew b (hold b hb hbk))
    · exact fun h1 _ heq => absurd ⟨h1, heq⟩ (hnew a (hold a ha hak))
    · exact h a (hold a ha hak) b (hold b hb hbk)
  refine ⟨hdist, funext fun key => ext fun n => ?_⟩
  rw [hdist.dirMap_eq_some]
  constructor
  · rintro ⟨l, hl, hnames, hln⟩
    rw [Names, hslot] at hnames
    rw [hslot] at hln
    split_ifs at hnames hln with hlk
    · rw [hnames.2, update_self, hln]
    · have hnk : key ≠ nameKey de.name := fun heq => hnew l (hold l hl hlk) (heq ▸ hnames)
      rw [update_of_ne hnk, h.dirMap_eq_some]
      exact ⟨l, hold l hl hlk, hnames, hln⟩
  · intro hmap
    rcases eq_or_ne key (nameKey de.name) with rfl | hnk
    · rw [update_self, some_inj] at hmap
      refine ⟨k, by omega, ?_⟩
      rw [Names, hslot, if_pos rfl]
      exact ⟨⟨hne, rfl⟩, hmap⟩
    · rw [update_of_ne hnk, h.dirMap_eq_some] at hmap
      obtain ⟨l, hl, hnames, hln⟩ := hmap
      have hlk : l ≠ k := by
        rintro rfl
        exact hnames.1 (hfree hl)
      refine ⟨l, by omega, ?_⟩
      rw [Names, hslot, if_neg hlk]
      exact ⟨hnames, hln⟩

/-- **A slot is emptied.** -/
theorem Distinct.erase (hk : k < nslots d) (hzero : de.inum = 0) (hnames : Names d key k) :
    Distinct (putSlot d k de) ∧ dirMap (putSlot d k de) = update (dirMap d) key none := by
  have hslot : ∀ l, slotAt (putSlot d k de) l = if l = k then de else slotAt d l := fun l =>
    slotAt_putSlot hd hk.le hname (by rw [hzero]; decide)
  have hn : nslots (putSlot d k de) = nslots d := by
    rw [nslots_putSlot hd hk.le hname]
    omega
  have hdist : Distinct (putSlot d k de) := by
    intro a ha b hb
    rw [hn] at ha hb
    rw [hslot, hslot]
    split_ifs with hak hbk hbk
    · exact fun h1 => absurd hzero h1
    · exact fun h1 => absurd hzero h1
    · exact fun _ h2 => absurd hzero h2
    · exact h a ha b hb
  refine ⟨hdist, funext fun key' => ext fun n => ?_⟩
  rw [hdist.dirMap_eq_some, hn]
  constructor
  · rintro ⟨l, hl, hnl, hln⟩
    rw [Names, hslot] at hnl
    rw [hslot] at hln
    split_ifs at hnl hln with hlk
    · exact absurd hzero hnl.1
    · have hnk : key' ≠ key := fun heq =>
        hlk (h l hl k hk hnl.1 hnames.1 (hnl.2.trans (heq.trans hnames.2.symm)))
      rw [update_of_ne hnk, h.dirMap_eq_some]
      exact ⟨l, hl, hnl, hln⟩
  · intro hmap
    rcases eq_or_ne key' key with rfl | hnk
    · rw [update_self] at hmap
      cases hmap
    · rw [update_of_ne hnk, h.dirMap_eq_some] at hmap
      obtain ⟨l, hl, hnl, hln⟩ := hmap
      have hlk : l ≠ k := by
        rintro rfl
        exact hnk (hnl.2.symm.trans hnames.2)
      refine ⟨l, hl, ?_⟩
      rw [Names, hslot, if_neg hlk]
      exact ⟨hnl, hln⟩

end Map

end Xv6

import Xv6.Param

/-!
# Block/Cache — the disk behind the buffer cache

`kernel/bio.c` as the log sees it.  Which unreferenced buffer `bget` recycles is a parameter `lru`.
A client sees `contents` (what `bread` returns), `refs` and `disk`; every operation updates one of
them as long as unreferenced buffers agree with the disk (`Clean`).
-/

namespace Xv6

open Machinery Function

/-- A buffer of the cache: its data and its reference count. -/
structure Buf where
  data : Block
  refcnt : ℕ

/-- The buffers of the cache, by the block they hold. -/
abbrev Cache := ℕ → Option Buf

/-- The disk and the buffer cache, with the writes performed, in issue order. -/
structure Blocks where
  disk : Disk
  cache : Cache
  trace : List (ℕ × Block)

namespace Blocks

variable (lru : Cache → Option ℕ)

/-- `bget` on a miss: recycle an unreferenced buffer. -/
def recycle (c : Cache) : Cache :=
  match lru c with
  | none => c
  | some v => if (c v).map Buf.refcnt = some 0 then update c v none else c

/-- `bread`: return a referenced buffer with the contents of block `b`. -/
def bread (s : Blocks) (b : ℕ) : Blocks :=
  match s.cache b with
  | some buf => { s with cache := update s.cache b (some { buf with refcnt := buf.refcnt + 1 }) }
  | none => { s with cache := update (recycle lru s.cache) b (some ⟨s.disk b, 1⟩) }

/-- What `bread` returns for block `b`. -/
def contents (s : Blocks) (b : ℕ) : Block := ((s.cache b).map Buf.data).getD (s.disk b)

/-- The reference count of block `b`'s buffer. -/
def refs (s : Blocks) (b : ℕ) : ℕ := ((s.cache b).map Buf.refcnt).getD 0

/-- Overwrite `b->data`. -/
def memmove (s : Blocks) (b : ℕ) (v : Block) : Blocks :=
  { s with cache := update s.cache b ((s.cache b).map fun buf => { buf with data := v }) }

/-- `bwrite`: write `b`'s contents to disk. -/
def bwrite (s : Blocks) (b : ℕ) : Blocks :=
  { s with disk := update s.disk b (s.contents b), trace := s.trace ++ [(b, s.contents b)] }

/-- `brelse`: drop the reference `bread` took. -/
def brelse (s : Blocks) (b : ℕ) : Blocks :=
  { s with cache := update s.cache b ((s.cache b).map fun buf =>
      { buf with refcnt := buf.refcnt - 1 }) }

/-- `bpin`: keep `b` in the cache. -/
def bpin (s : Blocks) (b : ℕ) : Blocks :=
  { s with cache := update s.cache b ((s.cache b).map fun buf =>
      { buf with refcnt := buf.refcnt + 1 }) }

/-- `bunpin`: undo one `bpin`. -/
def bunpin (s : Blocks) (b : ℕ) : Blocks := s.brelse b

/-- **An unreferenced buffer agrees with the disk** — recycling it loses nothing. -/
def Clean (s : Blocks) : Prop := ∀ b, s.refs b = 0 → s.contents b = s.disk b

/-! ## The three readings, operation by operation -/

theorem refs_pos_iff {s : Blocks} {b : ℕ} :
    0 < s.refs b ↔ ∃ buf, s.cache b = some buf ∧ 0 < buf.refcnt := by
  cases h : s.cache b <;> simp [refs, h]

section bread

variable {lru} {s : Blocks} {b : ℕ}

@[simp] theorem bread_disk : (s.bread lru b).disk = s.disk := by
  unfold bread; split <;> rfl

@[simp] theorem bread_trace : (s.bread lru b).trace = s.trace := by
  unfold bread; split <;> rfl

theorem recycle_eq (lru : Cache → Option ℕ) (c : Cache) (x : ℕ) :
    recycle lru c x = c x ∨ (recycle lru c x = none ∧ (c x).map Buf.refcnt = some 0) := by
  cases hl : lru c with
  | none => exact Or.inl (by simp [recycle, hl])
  | some v =>
    by_cases h : (c v).map Buf.refcnt = some 0
    · by_cases hx : x = v
      · subst hx
        exact Or.inr ⟨by simp [recycle, hl, h], h⟩
      · exact Or.inl (by simp [recycle, hl, h, hx])
    · exact Or.inl (by simp only [recycle, hl, h, if_false])

theorem bread_refs : (s.bread lru b).refs = update s.refs b (s.refs b + 1) := by
  funext x
  by_cases hx : x = b
  · subst hx
    cases h : s.cache x <;> simp [bread, refs, h]
  · rw [update_of_ne hx]
    cases h : s.cache b with
    | some buf => simp [bread, refs, h, hx]
    | none =>
      rcases recycle_eq lru s.cache x with hr | ⟨hr, h0⟩
      · simp [bread, refs, h, hx, hr]
      · simp [bread, refs, h, hx, hr, h0]

theorem bread_contents (hc : s.Clean) : (s.bread lru b).contents = s.contents := by
  funext x
  by_cases hx : x = b
  · subst hx
    cases h : s.cache x <;> simp [bread, contents, h]
  · cases h : s.cache b with
    | some buf => simp [bread, contents, h, hx]
    | none =>
      rcases recycle_eq lru s.cache x with hr | ⟨hr, h0⟩
      · simp [bread, contents, h, hx, hr]
      · have := hc x (by simp [refs, h0])
        simp [bread, contents, h, hx, hr] at this ⊢
        exact this.symm

theorem bread_clean (hc : s.Clean) : (s.bread lru b).Clean := by
  intro x hx
  rw [bread_contents hc, bread_disk]
  rw [bread_refs] at hx
  by_cases h : x = b
  · subst h; simp at hx
  · exact hc x (by simpa [h] using hx)

end bread

section memmove

variable {s : Blocks} {b : ℕ} {v : Block}

@[simp] theorem memmove_disk : (s.memmove b v).disk = s.disk := rfl

@[simp] theorem memmove_trace : (s.memmove b v).trace = s.trace := rfl

theorem memmove_refs : (s.memmove b v).refs = s.refs := by
  funext x
  by_cases hx : x = b
  · subst hx
    cases h : s.cache x <;> simp [memmove, refs, h]
  · simp [memmove, refs, hx]

theorem memmove_contents (h : 0 < s.refs b) :
    (s.memmove b v).contents = update s.contents b v := by
  obtain ⟨buf, hb, -⟩ := refs_pos_iff.1 h
  funext x
  by_cases hx : x = b
  · subst hx
    simp [memmove, contents, hb]
  · simp [memmove, contents, hx]

theorem memmove_clean (hc : s.Clean) (h : 0 < s.refs b) : (s.memmove b v).Clean := by
  intro x hx
  rw [memmove_refs] at hx
  have hne : x ≠ b := fun e => by subst e; omega
  rw [memmove_contents h, update_of_ne hne]
  exact hc x hx

end memmove

section bwrite

variable {s : Blocks} {b : ℕ}

@[simp] theorem bwrite_disk : (s.bwrite b).disk = update s.disk b (s.contents b) := rfl

@[simp] theorem bwrite_trace : (s.bwrite b).trace = s.trace ++ [(b, s.contents b)] := rfl

@[simp] theorem bwrite_refs : (s.bwrite b).refs = s.refs := rfl

theorem bwrite_contents : (s.bwrite b).contents = s.contents := by
  funext x
  cases h : s.cache x with
  | some buf => simp [bwrite, contents, h]
  | none =>
    by_cases hx : x = b
    · subst hx; simp [bwrite, contents, h]
    · simp [bwrite, contents, h, hx]

end bwrite

section brelse

variable {s : Blocks} {b : ℕ}

@[simp] theorem brelse_disk : (s.brelse b).disk = s.disk := rfl

@[simp] theorem brelse_trace : (s.brelse b).trace = s.trace := rfl

theorem brelse_contents : (s.brelse b).contents = s.contents := by
  funext x
  by_cases hx : x = b
  · subst hx
    cases h : s.cache x <;> simp [brelse, contents, h]
  · simp [brelse, contents, hx]

theorem brelse_refs : (s.brelse b).refs = update s.refs b (s.refs b - 1) := by
  funext x
  by_cases hx : x = b
  · subst hx
    cases h : s.cache x <;> simp [brelse, refs, h]
  · simp [brelse, refs, hx]

theorem brelse_clean (hc : s.Clean) (h : s.refs b ≤ 1 → s.contents b = s.disk b) :
    (s.brelse b).Clean := by
  intro x hx
  rw [brelse_contents, brelse_disk]
  rw [brelse_refs] at hx
  by_cases hxb : x = b
  · subst hxb
    exact h (by simp at hx; omega)
  · exact hc x (by simpa [hxb] using hx)

end brelse

section bpin

variable {s : Blocks} {b : ℕ}

@[simp] theorem bpin_disk : (s.bpin b).disk = s.disk := rfl

theorem bpin_contents : (s.bpin b).contents = s.contents := by
  funext x
  by_cases hx : x = b
  · subst hx
    cases h : s.cache x <;> simp [bpin, contents, h]
  · simp [bpin, contents, hx]

theorem bpin_refs (h : 0 < s.refs b) : (s.bpin b).refs = update s.refs b (s.refs b + 1) := by
  obtain ⟨buf, hb, -⟩ := refs_pos_iff.1 h
  funext x
  by_cases hx : x = b
  · subst hx
    simp [bpin, refs, hb]
  · simp [bpin, refs, hx]

theorem bpin_clean (hc : s.Clean) (h : 0 < s.refs b) : (s.bpin b).Clean := by
  intro x hx
  rw [bpin_contents, bpin_disk]
  rw [bpin_refs h] at hx
  by_cases hxb : x = b
  · subst hxb; simp at hx
  · exact hc x (by simpa [hxb] using hx)

end bpin

end Blocks

end Xv6

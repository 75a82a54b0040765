import Xv6.Machinery.Dlist
import Xv6.Machinery.Runs
import Xv6.Machinery.Tally
import Xv6.Param

/-!
# Block/Lru — the buffer cache of `kernel/bio.c`, buffer by buffer

A *use* is what goes on between a `bread` and the end of its `brelse`; a process may have several.
The steps are the parts between which others can run: `bget` under `bcache.lock`, taking the sleep
lock, reading the block, and the two halves of `brelse`.

Ghosts: `last` is what was last stored to each block, `dirty` the buffers stored to and not written,
`fresh` and `old` count the pins without and with a write since.  `Coherent` is the invariant.
-/

namespace Xv6

open Machinery Function List Option

abbrev BlockId := ℕ × ℕ

/-- `struct buf`; `U` are the uses. -/
structure LruBuf (U : Type) where
  id : BlockId
  refcnt : ℕ
  valid : Bool
  data : Block
  /-- Who holds `b->lock`. -/
  holder : Option U

/-- How far a use is. -/
inductive Use
  | idle
  /-- `bget` has chosen the buffer and waits for its lock. -/
  | waiting (k : BlockId) (b : Fin NBUF)
  /-- `bread` has the lock. -/
  | locked (k : BlockId) (b : Fin NBUF)
  /-- `bread` has returned. -/
  | held (k : BlockId) (b : Fin NBUF)
  /-- `brelse` has released the lock. -/
  | releasing (k : BlockId) (b : Fin NBUF)
  deriving DecidableEq

/-- `bcache`, the disk and the uses of the cache. -/
structure Lru (U : Type) where
  buf : Fin NBUF → LruBuf U
  links : Links (Fin NBUF)
  disk : BlockId → Block
  use : U → Use
  last : BlockId → Block
  dirty : Fin NBUF → Bool
  fresh : Fin NBUF → ℕ
  old : Fin NBUF → ℕ

/-- The steps. -/
inductive CacheOp (U : Type)
  | bget (u : U) (k : BlockId)
  | lock (u : U)
  | fill (u : U)
  | store (u : U) (v : Block)
  | bwrite (u : U)
  | bpin (b : Fin NBUF)
  | bunpin (b : Fin NBUF)
  | unlock (u : U)
  | brelse (u : U)

def binit : Links (Fin NBUF) := (List.finRange NBUF).foldl Links.insert ⟨fun _ => none, fun _ => none⟩

namespace Lru

variable {U : Type}

/-- The cache after `binit`. -/
def boot (disk : BlockId → Block) : Lru U where
  buf _ := ⟨(0, 0), 0, false, .fill BSIZE 0, none⟩
  links := binit
  disk := disk
  use _ := .idle
  last := disk
  dirty _ := false
  fresh _ := 0
  old _ := 0

variable (s : Lru U)

/-- The buffer of a block: the first loop of `bget`. -/
def cached (k : BlockId) : Option (Fin NBUF) :=
  Links.scan s.links.next (fun b => (s.buf b).id = k) NBUF (s.links.next none)

/-- The least recently used buffer nobody uses: the second loop of `bget`. -/
def unused : Option (Fin NBUF) :=
  Links.scan s.links.prev (fun b => (s.buf b).refcnt = 0) NBUF (s.links.prev none)

/-- Change buffer `b`. -/
def modifyBuf (b : Fin NBUF) (f : LruBuf U → LruBuf U) : Lru U := { s with buf := update s.buf b (f (s.buf b)) }

/-- `bget` up to the sleep lock: the buffer and the new state; none is the panic. -/
def bget (k : BlockId) : Option (Fin NBUF × Lru U) :=
  match s.cached k with
  | some b => some (b, s.modifyBuf b fun x => { x with refcnt := x.refcnt + 1 })
  | none => s.unused.map fun b => (b, s.modifyBuf b fun x => { x with id := k, valid := false, refcnt := 1 })

/-- The links when the reference count of `b` has become `refcnt` in `brelse`. -/
def relink (b : Fin NBUF) (refcnt : ℕ) : Links (Fin NBUF) :=
  if refcnt = 0 then (s.links.remove b).insert b else s.links

variable [DecidableEq U]

/-- Use `u` goes on. -/
def setUse (u : U) (x : Use) : Lru U := { s with use := update s.use u x }

/-- One step; none if it is not the use's turn, or on a panic. -/
def next : CacheOp U → Option (Lru U)
  | .bget u k =>
    if s.use u = .idle then (s.bget k).map fun (b, t) => t.setUse u (.waiting k b) else none
  | .lock u =>
    match s.use u with
    | .waiting k b =>
      if (s.buf b).holder.isNone then
        some ((s.modifyBuf b fun x => { x with holder := some u }).setUse u (.locked k b))
      else none
    | _ => none
  | .fill u =>
    match s.use u with
    | .locked k b =>
      some ((if (s.buf b).valid then s
        else s.modifyBuf b fun x => { x with data := s.disk x.id, valid := true }).setUse u (.held k b))
    | _ => none
  | .store u v =>
    match s.use u with
    | .held _ b =>
      some { s.modifyBuf b fun x => { x with data := v } with
        last := update s.last (s.buf b).id v
        dirty := update s.dirty b true }
    | _ => none
  | .bwrite u =>
    match s.use u with
    | .held _ b =>
      some { s with
        disk := update s.disk (s.buf b).id (s.buf b).data
        dirty := update s.dirty b false
        fresh := update s.fresh b 0
        old := update s.old b (s.old b + s.fresh b) }
    | _ => none
  | .bpin b =>
    some { s.modifyBuf b fun x => { x with refcnt := x.refcnt + 1 } with
      fresh := update s.fresh b (s.fresh b + 1) }
  | .bunpin b =>
    some { s.modifyBuf b fun x => { x with refcnt := x.refcnt - 1 } with
      old := update s.old b (s.old b - 1) }
  | .unlock u =>
    match s.use u with
    | .held k b => some ((s.modifyBuf b fun x => { x with holder := none }).setUse u (.releasing k b))
    | _ => none
  | .brelse u =>
    match s.use u with
    | .releasing _ b =>
      some { (s.modifyBuf b fun x => { x with refcnt := x.refcnt - 1 }).setUse u .idle with
        links := s.relink b ((s.buf b).refcnt - 1) }
    | _ => none

/-- What is asked of the users: devices are not 0; a pinned buffer is in use; a pin is dropped after
a write; a buffer that was stored to is written or pinned before it is released. -/
def Careful (s : Lru U) : CacheOp U → Prop
  | .bget _ k => k.1 ≠ 0
  | .bpin b => 0 < (s.buf b).refcnt
  | .bunpin b => 0 < s.old b
  | .unlock u => ∀ k b, s.use u = .held k b → s.dirty b = true → 0 < s.fresh b
  | _ => True

end Lru

/-! ## The invariant

A reference count is the number of uses and pins, a sleep lock has one holder, a block one buffer.
-/

namespace Use

def place : Use → Option (BlockId × Fin NBUF)
  | .idle => none
  | .waiting k b => some (k, b)
  | .locked k b => some (k, b)
  | .held k b => some (k, b)
  | .releasing k b => some (k, b)

/-- The use has the sleep lock of `b`. -/
def Locks (x : Use) (b : Fin NBUF) : Prop := ∃ k, x = .locked k b ∨ x = .held k b

@[simp] theorem not_locks_idle (b : Fin NBUF) : ¬ Use.idle.Locks b := fun ⟨_, h⟩ => by simp at h

@[simp] theorem not_locks_waiting (k : BlockId) (b b' : Fin NBUF) : ¬ (Use.waiting k b).Locks b' :=
  fun ⟨_, h⟩ => by simp at h

@[simp] theorem not_locks_releasing (k : BlockId) (b b' : Fin NBUF) : ¬ (Use.releasing k b).Locks b' :=
  fun ⟨_, h⟩ => by simp at h

@[simp] theorem locks_locked (k : BlockId) (b b' : Fin NBUF) : (Use.locked k b).Locks b' ↔ b = b' := by
  simp [Locks]

@[simp] theorem locks_held (k : BlockId) (b b' : Fin NBUF) : (Use.held k b).Locks b' ↔ b = b' := by
  simp [Locks]

/-- How often a use counts in `refcnt` of `b`. -/
def refs (b : Fin NBUF) (x : Use) : ℕ := if x.place.map Prod.snd = some b then 1 else 0

theorem refs_of_place {x : Use} {k : BlockId} {b : Fin NBUF} (h : x.place = some (k, b)) (b' : Fin NBUF) :
    x.refs b' = if b' = b then 1 else 0 := by
  simp only [refs, h, map_some, some_inj, eq_comm]

@[simp] theorem refs_idle (b : Fin NBUF) : Use.idle.refs b = 0 := rfl

theorem Locks.place {x : Use} {b : Fin NBUF} (h : x.Locks b) : ∃ k, x.place = some (k, b) := by
  obtain ⟨k, rfl | rfl⟩ := h <;> exact ⟨k, rfl⟩

end Use

namespace Lru

variable {U : Type} [Fintype U]

/-- **The cache is coherent.** -/
structure Coherent (s : Lru U) : Prop where
  count : ∀ b, (s.buf b).refcnt = tally (Use.refs b) s.use + s.fresh b + s.old b
  holder : ∀ u b, (s.use u).Locks b ↔ (s.buf b).holder = some u
  ids : ∀ u k b, (s.use u).place = some (k, b) → (s.buf b).id = k ∧ k.1 ≠ 0
  unique : ∀ b b', (s.buf b).id = (s.buf b').id → (s.buf b).id.1 ≠ 0 → b = b'
  links : ∃ l, s.links.Rep l ∧ l.Perm (List.finRange NBUF)
  dirty : ∀ b, s.dirty b = true → (s.buf b).valid = true ∧ ((s.buf b).holder ≠ none ∨ 0 < s.fresh b)
  held : ∀ u k b, s.use u = .held k b → (s.buf b).valid = true
  valid : ∀ b, (s.buf b).valid = true → (s.buf b).data = s.last (s.buf b).id
  disk : ∀ k, (∀ b, (s.buf b).id = k → s.dirty b = false) → s.disk k = s.last k

theorem binit_rep : ∃ l, binit.Rep l ∧ l.Perm (List.finRange NBUF) := by
  have hfold : ∀ (m l : List (Fin NBUF)) (L : Links (Fin NBUF)), L.Rep l → (l ++ m).Nodup →
      ∃ l', (m.foldl Links.insert L).Rep l' ∧ l'.Perm (l ++ m) := by
    intro m
    induction m with
    | nil => exact fun l L h _ => ⟨l, h, by rw [append_nil]⟩
    | cons b m ih =>
      intro l L h hnd
      have hperm : (b :: l ++ m).Perm (l ++ b :: m) := perm_middle.symm
      have hb := (nodup_cons.1 (hperm.nodup_iff.2 hnd)).1
      obtain ⟨l', hrep, hl'⟩ := ih (b :: l) _ (h.insert fun hbl => hb (mem_append_left _ hbl))
        (hperm.nodup_iff.2 hnd)
      exact ⟨l', hrep, hl'.trans hperm⟩
  exact hfold _ [] _ ⟨⟨rfl, rfl⟩, nodup_nil⟩ (nodup_finRange NBUF)

theorem coherent_boot (disk : BlockId → Block) : (boot disk : Lru U).Coherent where
  count b := by simp [boot, tally]
  holder u b := by
    refine iff_of_false (fun h => ?_) (by rintro ⟨⟩)
    obtain ⟨k, hk⟩ := h.place
    cases hk
  ids := by rintro u k b ⟨⟩
  unique b b' _ h := absurd rfl h
  links := binit_rep
  dirty := by rintro b ⟨⟩
  held := by rintro u k b ⟨⟩
  valid := by rintro b ⟨⟩
  disk _ _ := rfl

section Steps

variable {s t : Lru U} {u : U} {k : BlockId} {b : Fin NBUF}

omit [Fintype U] in
theorem buf_modifyBuf (s : Lru U) (b b' : Fin NBUF) (f : LruBuf U → LruBuf U) :
    (s.modifyBuf b f).buf b' = if b' = b then f (s.buf b) else s.buf b' := update_apply ..

omit [Fintype U] in
theorem buf_refcnt (s : Lru U) (b b' : Fin NBUF) (g : ℕ → ℕ) :
    (s.modifyBuf b fun x => { x with refcnt := g x.refcnt }).buf b' =
      { s.buf b' with refcnt := if b' = b then g (s.buf b').refcnt else (s.buf b').refcnt } := by
  rw [buf_modifyBuf]
  split_ifs with e
  · rw [e]
  · rfl

omit [Fintype U] in
theorem buf_holder (s : Lru U) (b b' : Fin NBUF) (o : Option U) :
    (s.modifyBuf b fun x => { x with holder := o }).buf b' =
      { s.buf b' with holder := if b' = b then o else (s.buf b').holder } := by
  rw [buf_modifyBuf]
  split_ifs with e
  · rw [e]
  · rfl

namespace Coherent

variable (h : s.Coherent)
include h

theorem refcnt_pos (hp : (s.use u).place = some (k, b)) : 0 < (s.buf b).refcnt := by
  have hle := le_tally (Use.refs b) s.use u
  rw [Use.refs_of_place hp, if_pos rfl] at hle
  have := h.count b
  omega

theorem of_unused (h0 : (s.buf b).refcnt = 0) :
    (∀ u, (s.use u).place.map Prod.snd ≠ some b) ∧ (s.buf b).holder = none ∧ s.dirty b = false := by
  have huse : ∀ u, (s.use u).place.map Prod.snd ≠ some b := fun u hu => by
    obtain ⟨⟨k, b'⟩, hp, rfl⟩ := map_eq_some_iff.1 hu
    exact absurd (h.refcnt_pos hp) (by simp only at h0; omega)
  have hholder : (s.buf b).holder = none := by
    by_contra hne
    obtain ⟨u, hu⟩ := ne_none_iff_exists'.1 hne
    obtain ⟨k, hk⟩ := ((h.holder u b).2 hu).place
    exact huse u (by rw [hk]; rfl)
  refine ⟨huse, hholder, ?_⟩
  by_contra hd
  have hd' := h.dirty b (by simpa using hd)
  have := h.count b
  rcases hd'.2 with hne | hf
  · exact hne hholder
  · omega

theorem of_frame {r : Fin NBUF → ℕ} {o : Fin NBUF → Option U}
    (hbuf : ∀ b, t.buf b = { s.buf b with refcnt := r b, holder := o b })
    (hdisk : t.disk = s.disk) (hlast : t.last = s.last) (hdirty : t.dirty = s.dirty)
    (hcount : ∀ b, r b = tally (Use.refs b) t.use + t.fresh b + t.old b)
    (hholder : ∀ u b, (t.use u).Locks b ↔ o b = some u)
    (hids : ∀ u k b, (t.use u).place = some (k, b) → (s.buf b).id = k ∧ k.1 ≠ 0)
    (hlinks : ∃ l, t.links.Rep l ∧ l.Perm (List.finRange NBUF))
    (hsafe : ∀ b, s.dirty b = true → o b ≠ none ∨ 0 < t.fresh b)
    (hheld : ∀ u k b, t.use u = .held k b → (s.buf b).valid = true) : t.Coherent where
  count b := by rw [hbuf]; exact hcount b
  holder u b := by rw [hbuf]; exact hholder u b
  ids u k b hp := by rw [hbuf]; exact hids u k b hp
  unique b b' he h0 := by
    rw [hbuf] at h0
    rw [hbuf, hbuf] at he
    exact h.unique b b' he h0
  links := hlinks
  dirty b hd := by
    rw [hdirty] at hd
    rw [hbuf]
    exact ⟨(h.dirty b hd).1, hsafe b hd⟩
  held u k b hu := by rw [hbuf]; exact hheld u k b hu
  valid b hv := by
    rw [hbuf] at hv ⊢
    rw [hlast]
    exact h.valid b hv
  disk k hk := by
    rw [hdisk, hlast]
    refine h.disk k fun b hb => ?_
    rw [← hdirty]
    exact hk b (by rw [hbuf]; exact hb)

theorem bpin (b : Fin NBUF) : ({ s.modifyBuf b fun x => { x with refcnt := x.refcnt + 1 } with
      fresh := update s.fresh b (s.fresh b + 1) } : Lru U).Coherent := by
  refine h.of_frame (fun b' => buf_refcnt s b b' (· + 1)) rfl rfl rfl (fun b' => ?_) h.holder h.ids
    h.links (fun b' hd => (h.dirty b' hd).2.imp_right fun hf => ?_) h.held
  · have hc := h.count b'
    simp only [modifyBuf, update_apply]
    split_ifs with e
    · subst e
      omega
    · omega
  · simp only [update_apply]
    split_ifs <;> omega

theorem bunpin (hb : 0 < s.old b) : ({ s.modifyBuf b fun x => { x with refcnt := x.refcnt - 1 } with
      old := update s.old b (s.old b - 1) } : Lru U).Coherent := by
  refine h.of_frame (fun b' => buf_refcnt s b b' (· - 1)) rfl rfl rfl (fun b' => ?_) h.holder h.ids
    h.links (fun b' hd => (h.dirty b' hd).2) h.held
  have hc := h.count b'
  simp only [modifyBuf, update_apply]
  split_ifs with e
  · subst e
    omega
  · omega

theorem relink (b : Fin NBUF) (n : ℕ) :
    ∃ l, (s.relink b n).Rep l ∧ l.Perm (List.finRange NBUF) := by
  obtain ⟨l, hl, hperm⟩ := h.links
  unfold Lru.relink
  split_ifs
  · obtain ⟨l1, l2, rfl⟩ := append_of_mem (hperm.mem_iff.2 (mem_finRange b))
    have hb : b ∉ l1 ++ l2 := (nodup_cons.1 (perm_middle.nodup_iff.1 hl.nodup)).1
    exact ⟨b :: (l1 ++ l2), hl.remove.insert hb, perm_middle.symm.trans hperm⟩
  · exact ⟨l, hl, hperm⟩

theorem bwrite (hu : s.use u = .held k b) : ({ s with
      disk := update s.disk (s.buf b).id (s.buf b).data
      dirty := update s.dirty b false
      fresh := update s.fresh b 0
      old := update s.old b (s.old b + s.fresh b) } : Lru U).Coherent where
  count b' := by
    have hc := h.count b'
    simp only [update_apply]
    split_ifs with e
    · subst e
      omega
    · exact hc
  holder := h.holder
  ids := h.ids
  unique := h.unique
  links := h.links
  dirty b' hd := by
    simp only [update_apply] at hd ⊢
    split_ifs at hd ⊢ with e
    exact h.dirty b' hd
  held := h.held
  valid := h.valid
  disk k' hk := by
    simp only [update_apply] at hk ⊢
    split_ifs with e
    · rw [h.valid b (h.held u k b hu), e]
    · refine h.disk k' fun b' hb' => ?_
      have hne : b' ≠ b := fun hb => e (by rw [← hb, hb'])
      simpa [hne] using hk b' hb'

/-- A store to a buffer in use: no other buffer has the block. -/
theorem store (hu : s.use u = .held k b) (v : Block) :
    ({ s.modifyBuf b fun x => { x with data := v } with
      last := update s.last (s.buf b).id v
      dirty := update s.dirty b true } : Lru U).Coherent := by
  obtain ⟨hid, hk⟩ := h.ids u k b (by rw [hu]; rfl)
  have hbuf : ∀ b', (s.modifyBuf b fun x => { x with data := v }).buf b' =
      { s.buf b' with data := if b' = b then v else (s.buf b').data } := fun b' => by
    rw [buf_modifyBuf]
    split_ifs with e
    · rw [e]
    · rfl
  refine ⟨fun b' => ?_, fun u' b' => ?_, fun u' k' b' hp => ?_, fun b' b'' he h0 => ?_, h.links,
    fun b' hd => ?_, fun u' k' b' hu' => ?_, fun b' hv => ?_, fun k' hk' => ?_⟩
  · simp only [hbuf]
    exact h.count b'
  · simp only [hbuf]
    exact h.holder u' b'
  · simp only [hbuf]
    exact h.ids u' k' b' hp
  · simp only [hbuf] at he h0
    exact h.unique b' b'' he h0
  · simp only [hbuf, update_apply] at hd ⊢
    split_ifs at hd with e
    · subst e
      exact ⟨h.held u k b' hu, .inl (by rw [(h.holder u b').1 (by simp [hu])]; simp)⟩
    · exact h.dirty b' hd
  · simp only [hbuf]
    exact h.held u' k' b' hu'
  · simp only [hbuf, update_apply] at hv ⊢
    split_ifs with e1 e2 e2
    · rfl
    · exact absurd (by rw [e1]) e2
    · exact absurd (h.unique b' b e2 (by rw [e2, hid]; exact hk)) e1
    · exact h.valid b' hv
  · simp only [hbuf, update_apply] at hk' ⊢
    split_ifs with e
    · exact absurd (hk' b e.symm) (by simp)
    · refine h.disk k' fun b' hb' => ?_
      have hne : b' ≠ b := fun hb => e (by rw [← hb, hb'])
      simpa [hne] using hk' b' hb'

section Update

variable [DecidableEq U] {x y : Use}

theorem ids_update (hy : ∀ k b, y.place = some (k, b) → (s.buf b).id = k ∧ k.1 ≠ 0)
    (u' : U) (k : BlockId) (b : Fin NBUF) (hp : (update s.use u y u').place = some (k, b)) :
    (s.buf b).id = k ∧ k.1 ≠ 0 := by
  rw [update_apply] at hp
  split_ifs at hp with e
  · exact hy k b hp
  · exact h.ids u' k b hp

theorem held_update (hy : ∀ k b, y = .held k b → (s.buf b).valid = true)
    (u' : U) (k : BlockId) (b : Fin NBUF) (hu : update s.use u y u' = .held k b) :
    (s.buf b).valid = true := by
  rw [update_apply] at hu
  split_ifs at hu with e
  · exact hy k b hu
  · exact h.held u' k b hu

theorem holder_update (hy : ∀ b, y.Locks b ↔ (s.use u).Locks b) (u' : U) (b : Fin NBUF) :
    (update s.use u y u').Locks b ↔ (s.buf b).holder = some u' := by
  rw [update_apply]
  split_ifs with e
  · rw [hy, e]
    exact h.holder u b
  · exact h.holder u' b

theorem count_update (hy : y.place = (s.use u).place) (b : Fin NBUF) :
    (s.buf b).refcnt = tally (Use.refs b) (update s.use u y) + s.fresh b + s.old b := by
  have ht := tally_update (Use.refs b) s.use u y
  have hr : y.refs b = (s.use u).refs b := by rw [Use.refs, hy, Use.refs]
  have hc := h.count b
  omega

theorem hit (hu : s.use u = .idle) (hk : k.1 ≠ 0) (hid : (s.buf b).id = k) :
    ((s.modifyBuf b fun x => { x with refcnt := x.refcnt + 1 }).setUse u (.waiting k b)).Coherent := by
  refine h.of_frame (fun b' => buf_refcnt s b b' (· + 1)) rfl rfl rfl (fun b' => ?_)
    (h.holder_update fun b' => ?_) (h.ids_update ?_) h.links (fun b' hd => (h.dirty b' hd).2)
    (h.held_update nofun)
  · have ht := tally_update (Use.refs b') s.use u (.waiting k b)
    rw [hu, Use.refs_idle, Use.refs_of_place (x := .waiting k b) rfl] at ht
    have hc := h.count b'
    simp only [setUse, modifyBuf]
    split_ifs at ht ⊢ <;> omega
  · simp [hu]
  · rintro _ _ ⟨⟩
    exact ⟨hid, hk⟩

theorem lock (hu : s.use u = .waiting k b) (hb : (s.buf b).holder = none) :
    ((s.modifyBuf b fun x => { x with holder := some u }).setUse u (.locked k b)).Coherent := by
  have hplace : (Use.locked k b).place = (s.use u).place := by rw [hu]; rfl
  refine h.of_frame (fun b' => buf_holder s b b' (some u)) rfl rfl rfl (h.count_update hplace)
    (fun u' b' => ?_) (h.ids_update fun k' b' hp => h.ids u k' b' (hplace ▸ hp)) h.links
    (fun b' hd => ?_) (h.held_update nofun)
  · have hold := h.holder u' b'
    simp only [setUse, modifyBuf, update_apply]
    split_ifs with e1 e2 e2
    · subst e1 e2
      simp
    · subst e1
      rw [hu] at hold
      simp only [Use.not_locks_waiting, false_iff] at hold
      simp [hold, Ne.symm e2]
    · subst e2
      rw [hold, hb]
      simp [Ne.symm e1]
    · exact hold
  · split_ifs
    · exact .inl (some_ne_none u)
    · exact (h.dirty b' hd).2

theorem unlock (hu : s.use u = .held k b) (hsafe : s.dirty b = true → 0 < s.fresh b) :
    ((s.modifyBuf b fun x => { x with holder := none }).setUse u (.releasing k b)).Coherent := by
  have hplace : (Use.releasing k b).place = (s.use u).place := by rw [hu]; rfl
  refine h.of_frame (fun b' => buf_holder s b b' none) rfl rfl rfl (h.count_update hplace)
    (fun u' b' => ?_) (h.ids_update fun k' b' hp => h.ids u k' b' (hplace ▸ hp)) h.links
    (fun b' hd => ?_) (h.held_update nofun)
  · have hold := h.holder u' b'
    have hself : (s.buf b).holder = some u := (h.holder u b).1 (by simp [hu])
    simp only [setUse, modifyBuf, update_apply]
    split_ifs with e1 e2 e2
    · simp
    · subst e1
      rw [hu] at hold
      simp only [Use.not_locks_releasing, false_iff]
      rw [← hold, Use.locks_held]
      exact Ne.symm e2
    · subst e2
      rw [hold, hself]
      simp [Ne.symm e1]
    · exact hold
  · split_ifs with e
    · exact .inr (hsafe (e ▸ hd) |> fun hf => e ▸ hf)
    · exact (h.dirty b' hd).2

theorem fill_valid (hu : s.use u = .locked k b) (hv : (s.buf b).valid = true) :
    (s.setUse u (.held k b)).Coherent := by
  have hplace : (Use.held k b).place = (s.use u).place := by rw [hu]; rfl
  refine h.of_frame (fun _ => rfl) rfl rfl rfl (h.count_update hplace) (h.holder_update fun b' => ?_)
    (h.ids_update fun k' b' hp => h.ids u k' b' (hplace ▸ hp)) h.links (fun b' hd => (h.dirty b' hd).2)
    (h.held_update ?_)
  · simp [hu]
  · rintro _ _ ⟨⟩
    exact hv

theorem brelse (hu : s.use u = .releasing k b) :
    ({ (s.modifyBuf b fun x => { x with refcnt := x.refcnt - 1 }).setUse u .idle with
      links := s.relink b ((s.buf b).refcnt - 1) } : Lru U).Coherent := by
  refine h.of_frame (fun b' => buf_refcnt s b b' (· - 1)) rfl rfl rfl (fun b' => ?_)
    (h.holder_update fun b' => ?_) (h.ids_update nofun) (h.relink b _) (fun b' hd => (h.dirty b' hd).2)
    (h.held_update nofun)
  · have ht := tally_update (Use.refs b') s.use u .idle
    rw [hu, Use.refs_idle, Use.refs_of_place (x := .releasing k b) rfl] at ht
    have hc := h.count b'
    simp only [setUse, modifyBuf]
    split_ifs at ht ⊢ <;> omega
  · simp [hu]

/-- `bread` of a buffer that does not have the block yet: the disk is up to date. -/
theorem fill_invalid (hu : s.use u = .locked k b) (hv : (s.buf b).valid = false) :
    ((s.modifyBuf b fun x => { x with data := s.disk x.id, valid := true }).setUse u (.held k b)).Coherent := by
  obtain ⟨hid, hk⟩ := h.ids u k b (by rw [hu]; rfl)
  have hplace : (Use.held k b).place = (s.use u).place := by rw [hu]; rfl
  have hclean : s.disk (s.buf b).id = s.last (s.buf b).id := h.disk _ fun b' hb' => by
    obtain rfl := h.unique b' b hb' (by rw [hb', hid]; exact hk)
    by_contra hd
    have := (h.dirty b' (by simpa using hd)).1
    rw [hv] at this
    exact nomatch this
  have hbuf : ∀ b', (s.modifyBuf b fun x => { x with data := s.disk x.id, valid := true }).buf b' =
      { s.buf b' with
        data := if b' = b then s.disk (s.buf b').id else (s.buf b').data
        valid := if b' = b then true else (s.buf b').valid } := fun b' => by
    rw [buf_modifyBuf]
    split_ifs with e
    · rw [e]
    · rfl
  refine ⟨fun b' => ?_, fun u' b' => ?_, fun u' k' b' hp => ?_, fun b' b'' he h0 => ?_, h.links,
    fun b' hd => ?_, fun u' k' b' hu' => ?_, fun b' hv' => ?_, fun k' hk' => ?_⟩
  · simp only [setUse, hbuf]
    exact h.count_update hplace b'
  · simp only [setUse, hbuf]
    exact h.holder_update (by simp [hu]) u' b'
  · simp only [setUse, hbuf]
    exact h.ids_update (fun k' b' hp => h.ids u k' b' (hplace ▸ hp)) u' k' b' hp
  · simp only [setUse, hbuf] at he h0
    exact h.unique b' b'' he h0
  · simp only [setUse, hbuf]
    refine ⟨?_, (h.dirty b' hd).2⟩
    split_ifs
    · rfl
    · exact (h.dirty b' hd).1
  · simp only [setUse, hbuf, update_apply] at hu' ⊢
    split_ifs with e1
    · rfl
    · split_ifs at hu' with e2
      · cases hu'
        exact absurd rfl e1
      · exact h.held u' k' b' hu'
  · simp only [setUse, hbuf] at hv' ⊢
    split_ifs at hv' ⊢ with e
    · rw [e]
      exact hclean
    · exact h.valid b' hv'
  · refine h.disk k' fun b' hb' => hk' b' ?_
    simp only [setUse, hbuf]
    exact hb'

/-- `bget` of a block that is not cached: a buffer nobody uses is recycled. -/
theorem recycle (hu : s.use u = .idle) (hk : k.1 ≠ 0) (h0 : (s.buf b).refcnt = 0)
    (hmiss : ∀ b', (s.buf b').id ≠ k) :
    ((s.modifyBuf b fun x => { x with id := k, valid := false, refcnt := 1 }).setUse u
      (.waiting k b)).Coherent := by
  obtain ⟨huse, hholder, hclean⟩ := h.of_unused h0
  have hbuf : ∀ b', (s.modifyBuf b fun x => { x with id := k, valid := false, refcnt := 1 }).buf b' =
      { s.buf b' with
        id := if b' = b then k else (s.buf b').id
        valid := if b' = b then false else (s.buf b').valid
        refcnt := if b' = b then 1 else (s.buf b').refcnt } := fun b' => by
    rw [buf_modifyBuf]
    split_ifs with e
    · rw [e]
    · rfl
  have hother : ∀ u' k' b', (s.use u').place = some (k', b') → b' ≠ b := fun u' k' b' hp e =>
    huse u' (by rw [hp, e]; rfl)
  refine ⟨fun b' => ?_, fun u' b' => ?_, fun u' k' b' hp => ?_, fun b' b'' he hne => ?_, h.links,
    fun b' hd => ?_, fun u' k' b' hu' => ?_, fun b' hv' => ?_, fun k' hk' => ?_⟩
  · have ht := tally_update (Use.refs b') s.use u (.waiting k b)
    rw [hu, Use.refs_idle, Use.refs_of_place (x := .waiting k b) rfl] at ht
    have hc := h.count b'
    simp only [setUse, hbuf]
    simp only [modifyBuf]
    split_ifs at ht ⊢ with e
    · subst e
      omega
    · omega
  · simp only [setUse, hbuf]
    exact h.holder_update (by simp [hu]) u' b'
  · simp only [setUse, hbuf]
    simp only [setUse, modifyBuf, update_apply] at hp
    split_ifs at hp with e1
    · obtain ⟨rfl, rfl⟩ := Prod.mk.inj (Option.some.inj hp)
      rw [if_pos rfl]
      exact ⟨rfl, hk⟩
    · rw [if_neg (hother u' k' b' hp)]
      exact h.ids u' k' b' hp
  · simp only [setUse, hbuf] at he hne
    split_ifs at he hne with e1 e2 e2
    · rw [e1, e2]
    · exact absurd he.symm (hmiss b'')
    · exact absurd he (hmiss b')
    · exact h.unique b' b'' he hne
  · simp only [setUse, hbuf]
    have hne : b' ≠ b := by
      rintro rfl
      exact nomatch hclean.symm.trans hd
    rw [if_neg hne]
    exact h.dirty b' hd
  · simp only [setUse, hbuf]
    simp only [setUse, modifyBuf, update_apply] at hu'
    split_ifs at hu' with e2
    rw [if_neg (hother u' k' b' (by rw [hu']; rfl))]
    exact h.held u' k' b' hu'
  · simp only [setUse, hbuf] at hv' ⊢
    split_ifs at hv' ⊢ with e
    exact h.valid b' hv'
  · refine h.disk k' fun b' hb' => ?_
    by_cases e : b' = b
    · rw [e, hclean]
    · refine hk' b' ?_
      simp only [setUse, hbuf, if_neg e]
      exact hb'

end Update

end Coherent

/-! ## The two loops of `bget` -/

theorem Coherent.cached_eq (h : s.Coherent) {o : Option (Fin NBUF)} (ho : s.cached k = o) :
    (∀ b, o = some b → (s.buf b).id = k) ∧ (o = none → ∀ b, (s.buf b).id ≠ k) := by
  obtain ⟨l, hl, hperm⟩ := h.links
  rw [cached, hl.scan_next _ (by rw [hperm.length_eq, length_finRange])] at ho
  subst ho
  refine ⟨fun b hb => by simpa using List.find?_some hb, fun hnone b => ?_⟩
  simpa using List.find?_eq_none.1 hnone b (hperm.mem_iff.2 (mem_finRange b))

theorem Coherent.unused_eq (h : s.Coherent) {o : Option (Fin NBUF)} (ho : s.unused = o) :
    (∀ b, o = some b → (s.buf b).refcnt = 0) ∧ (o = none → ∀ b, 0 < (s.buf b).refcnt) := by
  obtain ⟨l, hl, hperm⟩ := h.links
  rw [unused, hl.scan_prev _ (by rw [hperm.length_eq, length_finRange])] at ho
  subst ho
  refine ⟨fun b hb => by simpa using List.find?_some hb, fun hnone b => ?_⟩
  have hb := List.find?_eq_none.1 hnone b (mem_reverse.2 (hperm.mem_iff.2 (mem_finRange b)))
  exact Nat.pos_of_ne_zero (by simpa using hb)

variable [DecidableEq U]

/-- **Every step keeps the cache coherent.** -/
theorem coherent_next (h : s.Coherent) {op : CacheOp U} (hc : s.Careful op) (hst : s.next op = some t) :
    t.Coherent := by
  cases op with
  | bget u k =>
    simp only [next] at hst
    split_ifs at hst with hu
    obtain ⟨⟨b, t'⟩, hb, rfl⟩ := map_eq_some_iff.1 hst
    unfold bget at hb
    split at hb
    next b' hb' =>
      cases hb
      exact h.hit hu hc ((h.cached_eq hb').1 _ rfl)
    next hnone =>
      obtain ⟨b', hb', he⟩ := map_eq_some_iff.1 hb
      cases he
      exact h.recycle hu hc ((h.unused_eq hb').1 _ rfl) ((h.cached_eq hnone).2 rfl)
  | lock u =>
    simp only [next] at hst
    split at hst
    next k b hu =>
      split_ifs at hst with hb
      cases hst
      exact h.lock hu (isNone_iff_eq_none.1 hb)
    next => exact nomatch hst
  | fill u =>
    simp only [next] at hst
    split at hst
    next k b hu =>
      cases hst
      split_ifs with hv
      · exact h.fill_valid hu hv
      · exact h.fill_invalid hu (by simpa using hv)
    next => exact nomatch hst
  | store u v =>
    simp only [next] at hst
    split at hst
    next k b hu =>
      cases hst
      exact h.store hu v
    next => exact nomatch hst
  | bwrite u =>
    simp only [next] at hst
    split at hst
    next k b hu =>
      cases hst
      exact h.bwrite hu
    next => exact nomatch hst
  | bpin b =>
    cases hst
    exact h.bpin b
  | bunpin b =>
    cases hst
    exact h.bunpin hc
  | unlock u =>
    simp only [next] at hst
    split at hst
    next k b hu =>
      cases hst
      exact h.unlock hu (hc k b hu)
    next => exact nomatch hst
  | brelse u =>
    simp only [next] at hst
    split at hst
    next k b hu =>
      cases hst
      exact h.brelse hu
    next => exact nomatch hst

/-- **A step gives a buffer that is in use to no other block.** -/
theorem id_next (h : s.Coherent) {op : CacheOp U} (hst : s.next op = some t) (hb : 0 < (s.buf b).refcnt) :
    (t.buf b).id = (s.buf b).id := by
  rcases op with ⟨u, k⟩ | u | u | ⟨u, v⟩ | u | b' | b' | u | u
  · simp only [next] at hst
    split_ifs at hst with hu
    obtain ⟨⟨b', t'⟩, hb', rfl⟩ := map_eq_some_iff.1 hst
    unfold bget at hb'
    split at hb'
    next =>
      cases hb'
      simp only [setUse, buf_refcnt s b' b (· + 1)]
    next =>
      obtain ⟨b1, h1, he⟩ := map_eq_some_iff.1 hb'
      cases he
      have hne : b ≠ b' := fun e => by
        have := (h.unused_eq h1).1 _ rfl
        rw [← e] at this
        omega
      simp only [setUse, buf_modifyBuf, if_neg hne]
  all_goals
    simp only [next] at hst
    repeat' split at hst
  -- the other steps assign no `dev` and no `blockno`
  all_goals
    cases hst
    try simp only [setUse, modifyBuf, update_apply]
    repeat' split
    all_goals simp_all

end Steps

/-! ## Runs -/

variable [DecidableEq U]

/-- The cache in use, from `binit` on. -/
def cache (disk : BlockId → Block) : System (Lru U) (CacheOp U) := .ofNext (· = boot disk) fun s op => s.next op

theorem coherent_of_reachable {disk : BlockId → Block} {s : Lru U}
    (h : ((cache disk).restrict Careful).Reachable s) : s.Coherent := by
  refine h.invariant ?_ fun s op t _ hs ⟨hc, hst⟩ => coherent_next hs hc hst
  rintro s rfl
  exact coherent_boot disk

/-- The buffer cache is coherent. -/
theorem cache_coherent {disk : BlockId → Block} {s : Lru U}
    (h : ((cache disk).restrict Careful).Reachable s) :
    (∀ b b', (s.buf b).id = (s.buf b').id → (s.buf b).id.1 ≠ 0 → b = b') ∧
    (∃ l, s.links.Rep l ∧ l.Perm (List.finRange NBUF)) ∧
    (∀ op t, (cache disk).step s op t → ∀ b, 0 < (s.buf b).refcnt → (t.buf b).id = (s.buf b).id) ∧
    (∀ u k b, s.use u = .held k b → (s.buf b).id = k ∧ (s.buf b).data = s.last k) := by
  have hs := coherent_of_reachable h
  refine ⟨hs.unique, hs.links, fun op t hst b hb => id_next hs hst hb, fun u k b hu => ?_⟩
  obtain ⟨hid, -⟩ := hs.ids u k b (by rw [hu]; rfl)
  exact ⟨hid, (hs.valid b (hs.held u k b hu)).trans (by rw [hid])⟩

/-- A use stores a block and writes it; the next one gets what was stored. -/
theorem cache_coherent_first : ∃ (s : Lru Bool) (b : Fin NBUF),
    ((cache fun _ => .fill BSIZE 7).restrict Careful).Reachable s ∧ s.use true = .held (1, 5) b ∧
    (s.buf b).data = .fill BSIZE 9 := by
  have h1 : ((cache (U := Bool) fun _ => .fill BSIZE 7).restrict Careful).Reachable _ :=
    .step (l := .bget false (1, 5)) (.init rfl) ⟨one_ne_zero, rfl⟩
  have h2 := h1.step (l := CacheOp.lock false) ⟨trivial, rfl⟩
  have h3 := h2.step (l := CacheOp.fill false) ⟨trivial, rfl⟩
  have h4 := h3.step (l := CacheOp.store false (.fill BSIZE 9)) ⟨trivial, rfl⟩
  have h5 := h4.step (l := CacheOp.bwrite false) ⟨trivial, rfl⟩
  have h6 := h5.step (l := CacheOp.unlock false) ⟨by rintro _ _ ⟨⟩ ⟨⟩, rfl⟩
  have h7 := h6.step (l := CacheOp.brelse false) ⟨trivial, rfl⟩
  have h8 := h7.step (l := CacheOp.bget true (1, 5)) ⟨one_ne_zero, rfl⟩
  have h9 := h8.step (l := CacheOp.lock true) ⟨trivial, rfl⟩
  have h10 := h9.step (l := CacheOp.fill true) ⟨trivial, rfl⟩
  obtain ⟨-, -, -, hdata⟩ := cache_coherent h10
  exact ⟨_, _, h10, rfl, (hdata true _ _ rfl).2⟩

end Lru

end Xv6

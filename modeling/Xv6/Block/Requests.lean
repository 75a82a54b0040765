import Xv6.Block.Virtio
import Mathlib.Data.List.Count
import Mathlib.Data.List.Perm.Subperm

/-!
# Block/Requests — the descriptors of the requests in flight

What holds between any two steps of the driver and its device: the requests have disjoint chains of
descriptors, the heads that the device knows are those of the announced requests whose buffers are
busy, and the trace is one that may happen to each descriptor.  Here are the steps that allocate and
free descriptors.
-/

namespace Xv6

open Machinery Function List Option Bool

namespace VirtioSys

variable {n : ℕ} {Buf : Type} [DecidableEq Buf]

/-- The heads that have been announced and not been processed. -/
def heads (s : VirtioSys n Buf) : List ℕ :=
  s.disk.avail.pending s.seen ++
    (s.fetched ++ (s.served ++ (s.posted.toList ++ s.disk.used.pending s.disk.usedIdx)))

def StageOf (s : VirtioSys n Buf) (i : ℕ) : DescStage Buf → Prop
  | .unused => ∀ p r, (s.pc p).req = some r → i ∉ r.idx
  | .queued r => ∃ p, (s.pc p).req = some r ∧ i ∈ r.idx ∧
      ((s.pc p).sent = some r → s.busy r.b = true)
  | .completed r => ∃ p, (s.pc p).sent = some r ∧ i ∈ r.idx ∧ s.busy r.b = false

/-- The requests have their own three descriptors each, and the others are free. -/
structure Disjoint (req : Fin n → Option (DiskReq Buf)) (free : ℕ → Bool) : Prop where
  nodup : ∀ p r, req p = some r → r.idx.Nodup
  lt : ∀ p r, req p = some r → ∀ i ∈ r.idx, i < NUM
  apart : ∀ p q r r' i, req p = some r → req q = some r' → i ∈ r.idx → i ∈ r'.idx → p = q
  free : ∀ i, free i = true ↔ i < NUM ∧ ∀ p r, req p = some r → i ∉ r.idx

/-- What holds between any two steps. -/
structure Inv (blockno : Buf → ℕ) (s : VirtioSys n Buf) : Prop
    extends Disjoint (fun p => (s.pc p).req) s.disk.free where
  lock : ∀ p, (s.pc p).locked = true → s.lock = .proc p
  flag : ∀ p b v, (s.pc p).buf = some b → (s.pc p).flag = some v → s.busy b = v
  calm : ∀ b, s.busy b = true → ∃ p, (s.pc p).buf = some b
  chain : ∀ p r, (s.pc p).ready = some r → s.disk.Chain blockno r
  entry : ∀ p r, s.pc p = .publish r → s.disk.avail.ring (s.disk.avail.idx % NUM) = r.head
  bufs : ∀ p q b, (s.pc p).buf = some b → (s.pc q).buf = some b → p = q
  heads_nodup : s.heads.Nodup
  heads_iff : ∀ h, h ∈ s.heads ↔ ∃ p r, (s.pc p).sent = some r ∧ r.head = h ∧ s.busy r.b = true
  status : ∀ h ∈ s.served ++ (s.posted.toList ++ s.disk.used.pending s.disk.usedIdx), (s.disk.info h).status = 0
  seen_lt : s.seen < 2 ^ 16
  avail_lt : s.disk.avail.idx < 2 ^ 16
  usedIdx_lt : s.disk.usedIdx < 2 ^ 16
  used_lt : s.disk.used.idx < 2 ^ 16
  posted : ∀ h, s.posted = some h → s.disk.used.ring (s.disk.used.idx % NUM) = h
  intr : s.lock = .intr true → s.disk.used.pending s.disk.usedIdx ≠ []
  panic : s.panic = none
  stage : ∀ i, ∃ st, replay i s.trace = some st ∧ s.StageOf i st

omit [DecidableEq Buf] in
/-- A function sees no change when the new place looks the same to it. -/
theorem update_view {β : Type*} (f : RwPc Buf → β) (pc : Fin n → RwPc Buf) (p : Fin n) (pc' : RwPc Buf)
    (hf : f pc' = f (pc p)) (q : Fin n) : f (update pc p pc' q) = f (pc q) := by
  rcases eq_or_ne q p with rfl | hq
  · rw [update_self, hf]
  · rw [update_of_ne hq]

theorem length_le_of_nodup {l : List ℕ} {N : ℕ} (hnd : l.Nodup) (hlt : ∀ i ∈ l, i < N) :
    l.length ≤ N := by
  have hsub : l ⊆ List.range N := fun i hi => mem_range.2 (hlt i hi)
  simpa using (subperm_of_subset hnd hsub).length_le

omit [DecidableEq Buf] in
/-- The requests with descriptor `i` stay; those announced are with their flags, and a new one's is
set. -/
theorem StageOf.congr {s t : VirtioSys n Buf} {i : ℕ} {st : DescStage Buf} (h : s.StageOf i st)
    (hreq : ∀ q r, i ∈ r.idx → ((t.pc q).req = some r ↔ (s.pc q).req = some r))
    (hsent : ∀ q r, i ∈ r.idx → (s.pc q).sent = some r →
      (t.pc q).sent = some r ∧ t.busy r.b = s.busy r.b)
    (hnew : ∀ q r, (t.pc q).sent = some r → (s.pc q).sent = some r ∨ t.busy r.b = true) :
    t.StageOf i st := by
  cases st with
  | unused => exact fun p r hr hi => h p r ((hreq p r hi).1 hr) hi
  | queued r =>
    obtain ⟨p, hr, hi, hb⟩ := h
    exact ⟨p, (hreq p r hi).2 hr, hi, fun hs =>
      (hnew p r hs).elim (fun hs => (hsent p r hi hs).2.trans (hb hs)) id⟩
  | completed r =>
    obtain ⟨p, hr, hi, hb⟩ := h
    exact ⟨p, (hsent p r hi hr).1, hi, (hsent p r hi hr).2.trans hb⟩

omit [DecidableEq Buf] in
theorem StageOf.eq_unused {s : VirtioSys n Buf} {i : ℕ} {st : DescStage Buf} (h : s.StageOf i st)
    (hi : ∀ p r, (s.pc p).req = some r → i ∉ r.idx) : st = .unused := by
  cases st with
  | unused => rfl
  | queued r =>
    obtain ⟨p, hr, hmem, -⟩ := h
    exact absurd hmem (hi p r hr)
  | completed r =>
    obtain ⟨p, hr, hmem, -⟩ := h
    exact absurd hmem (hi p r (RwPc.req_of_sent hr))

theorem replay_append {i : ℕ} {trace : List (DiskEvent Buf)} {st : DescStage Buf}
    (h : replay i trace = some st) (more : List (DiskEvent Buf)) :
    replay i (trace ++ more) = more.foldlM (DescStage.act i) st := by
  rw [replay, foldlM_append]
  change (replay i trace).bind _ = _
  rw [h, bind_some]

/-- Freeing other descriptors does not touch `i`. -/
theorem foldlM_free_of_notMem {i : ℕ} {idx : List ℕ} (hi : i ∉ idx) (st : DescStage Buf) :
    (idx.map DiskEvent.free).foldlM (DescStage.act i) st = some st := by
  induction idx with
  | nil => rfl
  | cons j idx ih =>
    obtain ⟨hji, hi⟩ := not_or.1 (mt mem_cons.2 hi)
    have hact : DescStage.act i st (.free j) = some st := by
      cases st <;> simp [DescStage.act, Ne.symm hji]
    rw [map_cons, foldlM_cons, hact]
    exact ih hi

theorem foldlM_free_of_mem {i : ℕ} {idx : List ℕ} (hnd : idx.Nodup) (hi : i ∈ idx) (r : DiskReq Buf) :
    (idx.map DiskEvent.free).foldlM (DescStage.act i) (.completed r) = some .unused := by
  induction idx with
  | nil => exact absurd hi not_mem_nil
  | cons j idx ih =>
    obtain ⟨hj, hnd⟩ := nodup_cons.1 hnd
    rw [map_cons, foldlM_cons]
    rcases eq_or_ne j i with rfl | hji
    · change Option.bind (some (if j = j then _ else _)) _ = _
      rw [if_pos rfl, bind_some]
      exact foldlM_free_of_notMem hj _
    · change Option.bind (some (if j = i then _ else _)) _ = _
      rw [if_neg hji, bind_some]
      exact ih hnd ((mem_cons.1 hi).resolve_left (Ne.symm hji))

omit [DecidableEq Buf] in
theorem mem_heads_of_done {s : VirtioSys n Buf} {i : ℕ}
    (hi : i ∈ s.served ++ (s.posted.toList ++ s.disk.used.pending s.disk.usedIdx)) : i ∈ s.heads :=
  mem_append_right _ (mem_append_right _ hi)

omit [DecidableEq Buf] in
theorem heads_start : (start : VirtioSys n Buf).heads = [] := by
  simp [heads, start, VirtioDisk.start, VirtqRing.pending, Ring.contents, Ring.count]

namespace Inv

variable {blockno : Buf → ℕ} {s t : VirtioSys n Buf} {p q : Fin n} {pc' : RwPc Buf}
  {lock' : VdiskLock n} {r r' : DiskReq Buf}

theorem start : Inv blockno (VirtioSys.start : VirtioSys n Buf) where
  lock _ h := nomatch h
  flag _ _ _ h := nomatch h
  calm _ h := nomatch h
  chain _ _ h := nomatch h
  entry _ _ h := nomatch h
  nodup _ _ h := nomatch h
  lt _ _ h := nomatch h
  apart _ _ _ _ _ h := nomatch h
  bufs _ _ _ h := nomatch h
  free i := ⟨fun h => ⟨of_decide_eq_true h, nofun⟩, fun h => decide_eq_true h.1⟩
  heads_nodup := by simp [heads_start]
  heads_iff h := ⟨fun hh => by simp [heads_start] at hh, fun ⟨_, _, hr, _⟩ => nomatch hr⟩
  status h hh := by simpa [heads_start] using mem_heads_of_done hh
  seen_lt := Nat.two_pow_pos 16
  avail_lt := Nat.two_pow_pos 16
  usedIdx_lt := Nat.two_pow_pos 16
  used_lt := Nat.two_pow_pos 16
  posted _ h := nomatch h
  intr h := nomatch h
  panic := rfl
  stage i := ⟨.unused, rfl, nofun⟩

variable {i : ℕ} (h : Inv blockno s)

include h

theorem req_eq (hp : (s.pc p).req = some r) (hq : (s.pc q).req = some r')
    (hi : i ∈ r.idx) (hi' : i ∈ r'.idx) : r = r' := by
  obtain rfl := h.apart p q r r' i hp hq hi hi'
  exact some.inj (hp.symm.trans hq)

theorem lt_of_mem_heads (hi : i ∈ s.heads) : i < NUM := by
  obtain ⟨p, r, hr, rfl, -⟩ := (h.heads_iff i).1 hi
  exact h.lt p r (RwPc.req_of_sent hr) _ r.head_mem

theorem lock_update (hlock : s.lock = .proc p) (q : Fin n)
    (hq : (update s.pc p pc' q).locked = true) : s.lock = .proc q := by
  rcases eq_or_ne q p with rfl | hne
  · exact hlock
  · exact h.lock q (by rwa [update_of_ne hne] at hq)

theorem flag_update (hp : ∀ b v, pc'.buf = some b → pc'.flag = some v → s.busy b = v)
    (q : Fin n) (b : Buf) (v : Bool) (hb : (update s.pc p pc' q).buf = some b)
    (hv : (update s.pc p pc' q).flag = some v) : s.busy b = v := by
  rcases eq_or_ne q p with rfl | hne
  · rw [update_self] at hb hv
    exact hp b v hb hv
  · rw [update_of_ne hne] at hb hv
    exact h.flag q b v hb hv

theorem ne_publish (hlock : s.lock = .proc p) (hq : q ≠ p) : s.pc q ≠ .publish r :=
  fun hr => hq (VdiskLock.proc.inj (hlock.symm.trans (h.lock q (by rw [hr]; rfl)))).symm

theorem entry_update (hpub : ∀ r, pc' ≠ .publish r) (q : Fin n) (r : DiskReq Buf)
    (hr : update s.pc p pc' q = .publish r) : s.disk.avail.ring (s.disk.avail.idx % NUM) = r.head := by
  rcases eq_or_ne q p with rfl | hne
  · rw [update_self] at hr
    exact absurd hr (hpub r)
  · rw [update_of_ne hne] at hr
    exact h.entry q r hr

theorem goto (hreq : pc'.req = (s.pc p).req) (hready : pc'.ready = (s.pc p).ready)
    (hsent : pc'.sent = (s.pc p).sent) (hpub : ∀ r, pc' ≠ .publish r)
    (hkeep : ∀ b, (s.pc p).buf = some b → pc'.buf = some b)
    (hnew : ∀ b q, pc'.buf = some b → (s.pc q).buf = some b → q = p)
    (hflag : ∀ b v, pc'.buf = some b → pc'.flag = some v → s.busy b = v)
    (hlock : pc'.locked = true → lock' = .proc p)
    (hother : ∀ q, q ≠ p → (s.pc q).locked = true → lock' = .proc q) (hintr : lock' ≠ .intr true) :
    Inv blockno (s.goto p pc' lock') := by
  have hreq := update_view RwPc.req s.pc p pc' hreq
  have hready := update_view RwPc.ready s.pc p pc' hready
  have hsent := update_view RwPc.sent s.pc p pc' hsent
  have hbuf : ∀ q b, (update s.pc p pc' q).buf = some b →
      (q = p ∧ pc'.buf = some b) ∨ (q ≠ p ∧ (s.pc q).buf = some b) := by
    intro q b hb
    rcases eq_or_ne q p with rfl | hq
    · exact .inl ⟨rfl, by rwa [update_self] at hb⟩
    · exact .inr ⟨hq, by rwa [update_of_ne hq] at hb⟩
  refine { h with
    lock := (forall_update_iff s.pc fun q pc => pc.locked = true → lock' = .proc q).2 ⟨hlock, hother⟩
    flag := h.flag_update hflag
    calm := fun b hb => ?_
    chain := fun q r hr => h.chain q r (hready q ▸ hr)
    entry := h.entry_update hpub
    toDisjoint := funext hreq ▸ h.toDisjoint
    bufs := fun q q' b hb hb' => ?_
    heads_iff := fun i => (h.heads_iff i).trans (exists₂_congr fun q r => by
      change _ ↔ (update s.pc p pc' q).sent = some r ∧ _
      rw [hsent]
      rfl)
    intr := fun hl => absurd hl hintr
    stage := fun i => ?_ }
  · obtain ⟨q, hq⟩ := h.calm b hb
    refine ⟨q, ?_⟩
    change (update s.pc p pc' q).buf = some b
    rcases eq_or_ne q p with rfl | hqp
    · rw [update_self]
      exact hkeep b hq
    · rwa [update_of_ne hqp]
  · rcases hbuf q b hb with ⟨hq, hqb⟩ | ⟨hq, hqb⟩ <;>
      rcases hbuf q' b hb' with ⟨hq', hqb'⟩ | ⟨hq', hqb'⟩
    · exact hq.trans hq'.symm
    · exact hq.trans (hnew b q' hqb hqb').symm
    · exact (hnew b q hqb' hqb).trans hq'.symm
    · exact h.bufs q q' b hqb hqb'
  · obtain ⟨st, hst, hof⟩ := h.stage i
    exact ⟨st, hst, hof.congr (fun q _ _ => iff_of_eq (congrArg (· = some _) (hreq q)))
      (fun q _ _ hr => ⟨(hsent q).trans hr, rfl⟩) fun q _ hr => .inl (hsent q ▸ hr)⟩

theorem not_locked (hp : s.lock = .proc p) (hq : q ≠ p) :
    (s.pc q).locked = false := by
  by_contra hl
  exact hq (VdiskLock.proc.inj (hp.symm.trans (h.lock q (of_not_eq_false hl)))).symm

theorem not_locked_of_free (hf : s.lock = .free) (q : Fin n) :
    (s.pc q).locked = false := by
  by_contra hl
  exact absurd (hf.symm.trans (h.lock q (of_not_eq_false hl))) (by simp)

theorem goto_same {a : RwPc Buf} (hpc : s.pc p = a) (hview : pc'.view = a.view)
    (hpub : ∀ r, pc' ≠ .publish r)
    (hflag : ∀ b v, pc'.buf = some b → pc'.flag = some v → s.busy b = v)
    (hlock : pc'.locked = true → lock' = .proc p) (hother : ∀ q, q ≠ p → (s.pc q).locked = false)
    (hintr : lock' ≠ .intr true) : Inv blockno (s.goto p pc' lock') := by
  subst hpc
  obtain ⟨hreq, hready, hsent, hbuf⟩ : _ ∧ _ ∧ _ ∧ _ := by simpa [RwPc.view] using hview
  exact h.goto hreq hready hsent hpub (fun _ hb => hbuf.trans hb)
    (fun b q hb hq => h.bufs q p b hq (hbuf ▸ hb)) hflag hlock
    (fun q hq hl => absurd hl (by rw [hother q hq]; exact false_ne_true)) hintr

/-! ## Descriptors are taken and freed -/

theorem refuse {idx : List ℕ} (hfree : ∀ i ∈ idx, s.disk.free i = true) :
    Inv blockno { s with disk := (s.disk.taken idx).freed idx } :=
  { h with
    chain := fun p r hr => (h.chain p r hr).congr
      (fun i hi => if_neg fun hmem =>
        ((h.free i).1 (hfree i hmem)).2 p r (RwPc.req_of_ready hr) hi) rfl rfl
    free := fun i => by
      change ((s.disk.taken idx).freed idx).free i = true ↔ _
      rw [VirtioDisk.free_freed_taken hfree]
      exact h.free i }

/-- **Three free descriptors become a request.** -/
theorem take (hpc : s.pc p = .alloc r.b r.write) (hnd : r.idx.Nodup)
    (hfree : ∀ i ∈ r.idx, i < NUM ∧ s.disk.free i = true) :
    Inv blockno { s.goto p (.format r) s.lock with
      disk := s.disk.taken r.idx
      trace := s.trace ++ [.submit r] } := by
  have hnone : (s.pc p).req = none := by rw [hpc]; rfl
  have hready := update_view RwPc.ready s.pc p (.format r) (by rw [hpc]; rfl)
  have hsent := update_view RwPc.sent s.pc p (.format r) (by rw [hpc]; rfl)
  have hbuf := update_view RwPc.buf s.pc p (.format r) (by rw [hpc]; rfl)
  -- a request after the step is the new one or an old one, which has none of its descriptors
  have hreq : ∀ q r', (update s.pc p (.format r) q).req = some r' →
      (q = p ∧ r' = r) ∨ (q ≠ p ∧ (s.pc q).req = some r' ∧ ∀ i ∈ r.idx, i ∉ r'.idx) := by
    intro q r' hr'
    rcases eq_or_ne q p with rfl | hq
    · rw [update_self] at hr'
      exact .inl ⟨rfl, (some.inj hr').symm⟩
    · rw [update_of_ne hq] at hr'
      exact .inr ⟨hq, hr', fun i hi => ((h.free i).1 (hfree i hi).2).2 q r' hr'⟩
  have hself : (update s.pc p (.format r) p).req = some r := by rw [update_self]; rfl
  refine { h with
    lock := h.lock_update (h.lock p (by rw [hpc]; rfl))
    flag := h.flag_update fun b v hb hv => h.flag p b v (by rw [hpc]; exact hb) (by rw [hpc]; exact hv)
    calm := fun b hb => (h.calm b hb).imp fun q hq => (hbuf q).trans hq
    chain := fun q r' hr' => (h.chain q r' (hready q ▸ hr')).congr (fun _ _ => rfl) rfl rfl
    entry := h.entry_update nofun
    nodup := fun q r' hr' => ?_
    lt := fun q r' hr' => ?_
    apart := fun q q' r1 r2 i h1 h2 hi1 hi2 => ?_
    bufs := fun q q' b hb hb' => h.bufs q q' b (hbuf q ▸ hb) (hbuf q' ▸ hb')
    free := fun i => ?_
    heads_iff := fun i => (h.heads_iff i).trans (exists₂_congr fun q r' => by
      change _ ↔ (update s.pc p (.format r) q).sent = some r' ∧ _
      rw [hsent]
      rfl)
    stage := fun i => ?_ }
  · rcases hreq q r' hr' with ⟨-, rfl⟩ | ⟨-, hr', -⟩
    · exact hnd
    · exact h.nodup q r' hr'
  · rcases hreq q r' hr' with ⟨-, rfl⟩ | ⟨-, hr', -⟩
    · exact fun i hi => (hfree i hi).1
    · exact h.lt q r' hr'
  · rcases hreq q r1 h1 with ⟨hq, hr1⟩ | ⟨hq, hr1, hd1⟩ <;>
      rcases hreq q' r2 h2 with ⟨hq', hr2⟩ | ⟨hq', hr2, hd2⟩
    · exact hq.trans hq'.symm
    · exact absurd hi2 (hd2 i (hr1 ▸ hi1))
    · exact absurd hi1 (hd1 i (hr2 ▸ hi2))
    · exact h.apart q q' r1 r2 i hr1 hr2 hi1 hi2
  · change (s.disk.free i && decide (i ∉ r.idx)) = true ↔ _
    rw [and_eq_true, decide_eq_true_eq, h.free i]
    constructor
    · rintro ⟨⟨hlt, hold⟩, hi⟩
      refine ⟨hlt, fun q r' hr' => ?_⟩
      rcases hreq q r' hr' with ⟨-, rfl⟩ | ⟨-, hr', -⟩
      · exact hi
      · exact hold q r' hr'
    · rintro ⟨hlt, hall⟩
      refine ⟨⟨hlt, fun q r' hr' => ?_⟩, hall p r hself⟩
      rcases eq_or_ne q p with rfl | hq
      · rw [hnone] at hr'
        cases hr'
      · exact hall q r' ((congrArg RwPc.req (update_of_ne hq _ _)).trans hr')
  · obtain ⟨st, hst, hof⟩ := h.stage i
    by_cases hi : i ∈ r.idx
    · -- the descriptor was free
      obtain rfl := hof.eq_unused ((h.free i).1 (hfree i hi).2).2
      refine ⟨.queued r, ?_, p, hself, hi, fun hs => ?_⟩
      · change replay i (s.trace ++ [.submit r]) = _
        rw [replay_append hst, foldlM_cons]
        simp [DescStage.act, hi]
      · change (update s.pc p (.format r) p).sent = some r at hs
        rw [update_self] at hs
        cases hs
    · refine ⟨st, ?_, ?_⟩
      · change replay i (s.trace ++ [.submit r]) = _
        rw [replay_append hst, foldlM_cons]
        cases st <;> simp [DescStage.act, hi]
      · refine hof.congr (fun q r' hi' => ⟨fun hr' => ?_, fun hr' => ?_⟩)
          (fun q _ _ hr' => ⟨(hsent q).trans hr', rfl⟩) fun q _ hr' => .inl (hsent q ▸ hr')
        · rcases hreq q r' hr' with ⟨-, rfl⟩ | ⟨-, hr', -⟩
          · exact absurd hi' hi
          · exact hr'
        · rcases eq_or_ne q p with rfl | hq
          · rw [hnone] at hr'
            cases hr'
          · exact (congrArg RwPc.req (update_of_ne hq _ _)).trans hr'

/-- **The descriptors of a completed request are freed.** -/
theorem finish (hpc : s.pc p = .finish r) :
    Inv blockno { s.goto p .leave s.lock with
      disk := VirtioDisk.freed
        { s.disk with info := update s.disk.info r.head ⟨none, (s.disk.info r.head).status⟩ } r.idx
      trace := s.trace ++ r.idx.map .free } := by
  have hr : (s.pc p).req = some r := by rw [hpc]; rfl
  have hs : (s.pc p).sent = some r := by rw [hpc]; rfl
  have hlock : s.lock = .proc p := h.lock p (by rw [hpc]; rfl)
  have hbusy : s.busy r.b = false := h.flag p r.b false (by rw [hpc]; rfl) (by rw [hpc]; rfl)
  have hview : ∀ q {β : Type} (f : RwPc Buf → Option β), f .leave = none → ∀ x,
      f (update s.pc p .leave q) = some x ↔ q ≠ p ∧ f (s.pc q) = some x := by
    intro q β f hf x
    rcases eq_or_ne q p with rfl | hq
    · simp [hf]
    · simp [hq]
  have hreq := fun q => hview q RwPc.req rfl
  have hready := fun q => hview q RwPc.ready rfl
  have hsent := fun q => hview q RwPc.sent rfl
  have hbuf := fun q => hview q RwPc.buf rfl
  have hother : ∀ q r', q ≠ p → (s.pc q).req = some r' → ∀ i ∈ r'.idx, i ∉ r.idx :=
    fun q r' hq hr' i hi hi' => hq (h.apart q p r' r i hr' hr hi hi')
  refine { h with
    lock := h.lock_update hlock
    flag := h.flag_update nofun
    calm := fun b hb => ?_
    chain := fun q r' hr' => ?_
    entry := h.entry_update nofun
    nodup := fun q r' hr' => h.nodup q r' ((hreq q r').1 hr').2
    lt := fun q r' hr' => h.lt q r' ((hreq q r').1 hr').2
    apart := fun q q' r1 r2 i h1 h2 => h.apart q q' r1 r2 i ((hreq q r1).1 h1).2 ((hreq q' r2).1 h2).2
    bufs := fun q q' b hb hb' => h.bufs q q' b ((hbuf q b).1 hb).2 ((hbuf q' b).1 hb').2
    free := fun i => ?_
    heads_iff := fun i => (h.heads_iff i).trans ⟨?_, ?_⟩
    status := fun i hi => ?_
    stage := fun i => ?_ }
  · change (s.disk.free i || decide (i ∈ r.idx)) = true ↔ _
    rw [or_eq_true, decide_eq_true_eq, h.free i]
    constructor
    · rintro (⟨hlt, hall⟩ | hi)
      · exact ⟨hlt, fun q r' hr' => hall q r' ((hreq q r').1 hr').2⟩
      · refine ⟨h.lt p r hr i hi, fun q r' hr' hi' => ?_⟩
        obtain ⟨hq, hr'⟩ := (hreq q r').1 hr'
        exact hother q r' hq hr' i hi' hi
    · rintro ⟨hlt, hall⟩
      by_cases hi : i ∈ r.idx
      · exact .inr hi
      · refine .inl ⟨hlt, fun q r' hr' => ?_⟩
        rcases eq_or_ne q p with rfl | hq
        · exact some.inj (hr.symm.trans hr') ▸ hi
        · exact hall q r' ((hreq q r').2 ⟨hq, hr'⟩)
  · obtain ⟨q, hq⟩ := h.calm b hb
    refine ⟨q, (hbuf q b).2 ⟨?_, hq⟩⟩
    rintro rfl
    rw [hpc] at hq
    cases hq
    exact absurd (hbusy.symm.trans hb) false_ne_true
  · obtain ⟨hq, hr'⟩ := (hready q r').1 hr'
    have hdisj := hother q r' hq (RwPc.req_of_ready hr')
    have hne : r'.head ≠ r.head := fun heq => hdisj _ r'.head_mem (heq ▸ r.head_mem)
    refine (h.chain q r' hr').congr (fun i hi => if_neg (hdisj i hi)) rfl ?_
    change (update s.disk.info r.head _ r'.head).b = _
    rw [update_of_ne hne]
  · rintro ⟨q, r', hr', hhead, hb⟩
    refine ⟨q, r', (hsent q r').2 ⟨?_, hr'⟩, hhead, hb⟩
    rintro rfl
    obtain rfl := some.inj (hs.symm.trans hr')
    exact absurd (hbusy.symm.trans hb) false_ne_true
  · rintro ⟨q, r', hr', hhead, hb⟩
    exact ⟨q, r', ((hsent q r').1 hr').2, hhead, hb⟩
  · change (update s.disk.info r.head ⟨none, (s.disk.info r.head).status⟩ i).status = 0
    rcases eq_or_ne i r.head with rfl | hne
    · rw [update_self]
      exact h.status _ hi
    · rw [update_of_ne hne]
      exact h.status i hi
  · obtain ⟨st, hst, hof⟩ := h.stage i
    by_cases hi : i ∈ r.idx
    · -- it was this request's and has been completed
      have hcomp : st = .completed r := by
        cases st with
        | unused => exact absurd hi (hof p r hr)
        | queued r' =>
          obtain ⟨q, hr', hmem, hb⟩ := hof
          obtain rfl := h.apart q p r' r i hr' hr hmem hi
          obtain rfl := some.inj (hr.symm.trans hr')
          exact absurd (hbusy.symm.trans (hb hs)) false_ne_true
        | completed r' =>
          obtain ⟨q, hr', hmem, -⟩ := hof
          rw [h.req_eq (RwPc.req_of_sent hr') hr hmem hi]
      subst hcomp
      refine ⟨.unused, ?_, fun q r' hr' hi' => ?_⟩
      · change replay i (s.trace ++ r.idx.map .free) = _
        rw [replay_append hst, foldlM_free_of_mem (h.nodup p r hr) hi]
      · obtain ⟨hq, hr'⟩ := (hreq q r').1 hr'
        exact hother q r' hq hr' i hi' hi
    · refine ⟨st, ?_, ?_⟩
      · change replay i (s.trace ++ r.idx.map .free) = _
        rw [replay_append hst, foldlM_free_of_notMem hi]
      · have hne : ∀ q r', (s.pc q).req = some r' → i ∈ r'.idx → q ≠ p := by
          rintro q r' hr' hmem rfl
          exact hi (some.inj (hr'.symm.trans hr) ▸ hmem)
        exact hof.congr
          (fun q r' hi' => ⟨fun hr' => ((hreq q r').1 hr').2, fun hr' => (hreq q r').2 ⟨hne q r' hr' hi', hr'⟩⟩)
          (fun q r' hi' hs' => ⟨(hsent q r').2 ⟨hne q r' (RwPc.req_of_sent hs') hi', hs'⟩, rfl⟩)
          fun q r' hs' => .inl ((hsent q r').1 hs').2

end Inv

end VirtioSys

end Xv6

import Xv6.Block.Queue

/-!
# Block/Completions — what `virtio_disk_intr` finds

A completion in the used ring is for an announced request whose buffer is busy, so that the handler
clears the flag of the right buffer and neither it nor `virtio_disk_rw` panics in any run.
-/

namespace Xv6

open Machinery Function List Option Bool

namespace VirtioSys

variable {n : ℕ} {Buf : Type} [DecidableEq Buf] {blockno : Buf → ℕ} {s : VirtioSys n Buf}

/-- The handler has processed the completion of `r`. -/
def completed (s : VirtioSys n Buf) (r : DiskReq Buf) : VirtioSys n Buf :=
  { s with
    busy := update s.busy r.b false
    disk := { s.disk with usedIdx := incr16 s.disk.usedIdx }
    lock := .intr false
    trace := s.trace ++ [.complete r.head r.b] }

namespace Inv

variable {t : VirtioSys n Buf} {p : Fin n} {r : DiskReq Buf} (h : Inv blockno s)

include h

/-! ## The handler -/

/-- **What a completion is for**: an announced request whose buffer is busy. -/
theorem completion (hne : s.disk.used.pending s.disk.usedIdx ≠ []) :
    ∃ p r, (s.pc p).sent = some r ∧ r.head = s.disk.used.ring (s.disk.usedIdx % NUM) ∧
      s.busy r.b = true ∧ (s.disk.info r.head).status = 0 ∧ (s.disk.info r.head).b = some r.b := by
  have hmem : s.disk.used.ring (s.disk.usedIdx % NUM) ∈ s.disk.used.pending s.disk.usedIdx := by
    rw [VirtqRing.pending_pop h.usedIdx_lt h.used_lt hne]
    exact mem_cons_self
  have hdone : s.disk.used.ring (s.disk.usedIdx % NUM) ∈
      s.served ++ (s.posted.toList ++ s.disk.used.pending s.disk.usedIdx) :=
    mem_append_right _ (mem_append_right _ hmem)
  obtain ⟨p, r, hr, hhead, hb⟩ := (h.heads_iff _).1 (mem_heads_of_done hdone)
  exact ⟨p, r, hr, hhead, hb, hhead ▸ h.status _ hdone, (h.chain p r (RwPc.ready_of_sent hr)).buf⟩

/-- **The handler processes a completion.** -/
theorem complete (hne : s.disk.used.pending s.disk.usedIdx ≠ []) (hlock : s.lock = .intr true)
    (hr : (s.pc p).sent = some r) (hhead : r.head = s.disk.used.ring (s.disk.usedIdx % NUM))
    (hb : s.busy r.b = true) :
    Inv blockno (s.completed r) := by
  have hreq : (s.pc p).req = some r := RwPc.req_of_sent hr
  have hused := VirtqRing.pending_pop h.usedIdx_lt h.used_lt hne
  rw [← hhead] at hused
  have hheads : s.heads.Perm (r.head :: (s.completed r).heads) := by
    rw [heads, hused, ← append_assoc, ← append_assoc, ← append_assoc]
    refine perm_middle.trans (List.Perm.of_eq ?_)
    simp only [heads, completed, append_assoc]
  obtain ⟨hnot, hnd⟩ := nodup_cons.1 (hheads.nodup_iff.1 h.heads_nodup)
  have hsame : ∀ q r', (s.pc q).req = some r' → r'.b = r.b → r' = r := by
    intro q r' hr' heq
    obtain rfl := h.bufs q p r.b (heq ▸ RwPc.buf_of_req hr') (RwPc.buf_of_req hreq)
    exact some.inj (hr'.symm.trans hreq)
  refine { h with
    lock := fun q hq => absurd ((h.lock q hq).symm.trans hlock) (by simp)
    flag := fun q b v hqb hv => ?_
    calm := fun b hbb => h.calm b ?_
    chain := fun q r' hr' => (h.chain q r' hr').congr (fun _ _ => rfl) rfl rfl
    heads_nodup := hnd
    heads_iff := fun i => ?_
    status := fun i hi => h.status i ?_
    usedIdx_lt := incr16_lt _
    intr := fun hl => by cases hl
    stage := fun i => ?_ }
  · change (s.pc q).flag = some v at hv
    change update s.busy r.b false b = v
    rcases eq_or_ne b r.b with rfl | hbr
    · -- the process that waits for this buffer knows nothing of its flag yet
      obtain rfl := h.bufs q p r.b hqb (RwPc.buf_of_req hreq)
      have hold := h.flag q r.b v hqb hv
      rw [update_self]
      rw [hb] at hold
      subst hold
      cases hpc : s.pc q <;> rw [hpc] at hv hr <;> simp [RwPc.flag, RwPc.sent] at hv hr
    · rw [update_of_ne hbr]
      exact h.flag q b v hqb hv
  · have hbb : update s.busy r.b false b = true := hbb
    rcases eq_or_ne b r.b with rfl | hbr
    · exact hb
    · rwa [update_of_ne hbr] at hbb
  · have hiff := (hheads.mem_iff (a := i)).symm.trans (h.heads_iff i)
    rw [mem_cons] at hiff
    change _ ↔ ∃ q r', (s.pc q).sent = some r' ∧ r'.head = i ∧ update s.busy r.b false r'.b = true
    constructor
    · intro hi
      obtain ⟨q, r', hr', hi', hb'⟩ := hiff.1 (.inr hi)
      refine ⟨q, r', hr', hi', ?_⟩
      rw [update_of_ne, hb']
      intro heq
      obtain rfl := hsame q r' (RwPc.req_of_sent hr') heq
      exact hnot (hi' ▸ hi)
    · rintro ⟨q, r', hr', hi', hb'⟩
      have hbne : r'.b ≠ r.b := by
        intro heq
        rw [heq, update_self] at hb'
        cases hb'
      rw [update_of_ne hbne] at hb'
      refine (hiff.2 ⟨q, r', hr', hi', hb'⟩).resolve_left fun heq => hbne ?_
      have := h.req_eq (RwPc.req_of_sent hr') hreq r'.head_mem
        (by rw [hi', heq]; exact r.head_mem)
      rw [this]
  · rw [hused]
    simp only [mem_append, mem_cons] at hi ⊢
    rcases hi with hi | hi | hi
    · exact .inl hi
    · exact .inr (.inl hi)
    · exact .inr (.inr (.inr hi))
  · obtain ⟨st, hst, hof⟩ := h.stage i
    have hact : ∀ st', DescStage.act i st (.complete r.head r.b) = some st' →
        replay i (s.trace ++ [.complete r.head r.b]) = some st' := by
      intro st' hst'
      rw [replay_append hst, foldlM_cons, hst']
      rfl
    have hbusy : ∀ r' : DiskReq Buf, s.busy r'.b = false → update s.busy r.b false r'.b = false := by
      intro r' hb'
      rcases eq_or_ne r'.b r.b with heq | hne'
      · rw [heq, update_self]
      · rw [update_of_ne hne', hb']
    cases st with
    | unused =>
      refine ⟨.unused, hact _ (if_neg ?_), hof⟩
      rintro rfl
      exact hof p r hreq r.head_mem
    | queued r' =>
      obtain ⟨q, hr', hmem, hb'⟩ := hof
      by_cases heq : r.head = r'.head
      · obtain rfl : r = r' := h.req_eq hreq hr' r.head_mem (heq ▸ r'.head_mem)
        exact ⟨.completed r, hact _ (by simp [DescStage.act]), p, hr, hmem, update_self ..⟩
      · refine ⟨.queued r', hact _ (if_neg heq), q, hr', hmem, fun hs => ?_⟩
        refine (update_of_ne (fun hbeq => heq ?_) _ _).trans (hb' hs)
        rw [hsame q r' hr' hbeq]
    | completed r' =>
      obtain ⟨q, hr', hmem, hb'⟩ := hof
      refine ⟨.completed r', hact _ (if_neg fun heq => ?_), q, hr', hmem, hbusy r' hb'⟩
      obtain rfl : r = r' := h.req_eq hreq (RwPc.req_of_sent hr') r.head_mem
        (heq ▸ r'.head_mem)
      exact absurd (hb'.symm.trans hb) false_ne_true

theorem intrGo_body (hlock : s.lock = .intr true) :
    ∃ p r, (s.pc p).sent = some r ∧ r.head = s.disk.used.ring (s.disk.usedIdx % NUM) ∧
      s.busy r.b = true ∧ s.intrGo = some (s.completed r) := by
  obtain ⟨p, r, hr, hhead, hb, hstatus, hbuf⟩ := h.completion (h.intr hlock)
  refine ⟨p, r, hr, hhead, hb, ?_⟩
  rw [VirtioSys.intrGo, hlock]
  dsimp only
  rw [← hhead, if_neg (not_not.2 hstatus), hbuf]
  rfl

theorem intrGo (hst : s.intrGo = some t) : Inv blockno t := by
  cases hlock : s.lock with
  | free | proc p =>
    rw [VirtioSys.intrGo, hlock] at hst
    cases hst
  | intr body =>
    cases body with
    | false =>
      rw [VirtioSys.intrGo, hlock] at hst
      cases hst
      refine { h with
        lock := fun q hq => absurd (hlock.symm.trans (h.lock q hq)) (by simp)
        intr := fun hl => ?_ }
      have hne : s.disk.usedIdx ≠ s.disk.used.idx := by
        by_contra heq
        simp [heq] at hl
      exact mt (VirtqRing.pending_eq_nil h.usedIdx_lt h.used_lt).1 hne
    | true =>
      obtain ⟨p, r, hr, hhead, hb, heq⟩ := h.intrGo_body hlock
      rw [heq] at hst
      cases hst
      exact h.complete (h.intr hlock) hlock hr hhead hb

/-! ## Runs -/

theorem go (hst : s.go blockno p = some t) : Inv blockno t := by
  unfold VirtioSys.go at hst
  split at hst
  case h_1 => cases hst
  case h_2 b write hpc =>
    have hlock : s.lock = .proc p := h.lock p (by rw [hpc]; rfl)
    obtain ⟨res, hres, halloc⟩ := s.disk.alloc3Desc_spec
    rw [hres] at hst
    cases halloc with
    | all hnd hlen hfree =>
      obtain ⟨i, j, k, rfl⟩ := length_eq_three.1 hlen
      cases hst
      exact h.take (r := ⟨b, write, i, j, k⟩) hpc hnd hfree
    | nothing hfree =>
      cases hst
      exact (h.refuse hfree).goto_same hpc rfl nofun
        (fun b' v hb hv => h.flag p b' v (by rw [hpc]; exact hb) (by rw [hpc]; exact hv)) nofun
        (fun q hq => h.not_locked hlock hq) nofun
  case h_3 b write hpc =>
    obtain ⟨hfree, rfl⟩ := of_guard hst
    exact h.goto_same hpc rfl nofun
      (fun b' v hb hv => h.flag p b' v (by rw [hpc]; exact hb) (by rw [hpc]; exact hv)) (fun _ => rfl)
      (fun q _ => h.not_locked_of_free hfree q) nofun
  case h_4 r hpc => exact some.inj hst ▸ h.format hpc
  case h_5 r hpc => exact some.inj hst ▸ h.publish hpc
  case h_6 r hpc =>
    have hlock : s.lock = .proc p := h.lock p (by rw [hpc]; rfl)
    split_ifs at hst with hbusy
    · cases hst
      exact h.goto_same hpc rfl nofun nofun nofun (fun q hq => h.not_locked hlock hq) nofun
    · cases hst
      refine h.goto_same hpc rfl nofun ?_ (fun _ => hlock) (fun q hq => h.not_locked hlock hq)
        (by rw [hlock]; nofun)
      rintro b v ⟨⟩ ⟨⟩
      exact eq_false_of_not_eq_true hbusy
  case h_7 r hpc =>
    obtain ⟨hfree, rfl⟩ := of_guard hst
    exact h.goto_same hpc rfl nofun
      nofun (fun _ => rfl) (fun q _ => h.not_locked_of_free hfree q) nofun
  case h_8 r hpc =>
    have hr : (s.pc p).req = some r := by rw [hpc]; rfl
    have hlinked := (h.chain p r (by rw [hpc]; rfl)).toLinked
    have hbusy : ∀ i ∈ r.idx, s.disk.free i = false := fun i hi =>
      eq_false_of_not_eq_true fun hf => ((h.free i).1 hf).2 p r hr hi
    have hspec := VirtioDisk.freeChain_spec
      (d := { s.disk with info := update s.disk.info r.head ⟨none, (s.disk.info r.head).status⟩ })
      ⟨hlinked.head, hlinked.data, hlinked.status⟩ (h.nodup p r hr) (h.lt p r hr) hbusy
    dsimp only at hst
    rw [hspec] at hst
    cases hst
    exact h.finish hpc
  case h_9 hpc =>
    have hlock : s.lock = .proc p := h.lock p (by rw [hpc]; rfl)
    cases hst
    exact h.goto_same hpc rfl nofun
      nofun nofun (fun q hq => h.not_locked hlock hq) nofun

theorem next {op : VirtioOp n Buf} (hst : s.next blockno op = some t) :
    Inv blockno t := by
  cases op with
  | call p b write =>
    obtain ⟨⟨hpc, hfree, hb⟩, rfl⟩ := of_guard hst
    refine h.goto (by rw [hpc]; rfl) (by rw [hpc]; rfl) (by rw [hpc]; rfl) nofun (by rw [hpc]; nofun) ?_ ?_
      (fun _ => rfl) (fun q _ hl => ?_) nofun
    · rintro b' q ⟨⟩ hq
      exact absurd hq (hb q)
    · rintro b' v ⟨⟩ ⟨⟩
      by_contra hbusy
      obtain ⟨q, hq⟩ := h.calm b (of_not_eq_false hbusy)
      exact hb q hq
    · rw [h.not_locked_of_free hfree q] at hl
      cases hl
  | go p => exact h.go (ite_none_right_eq_some.1 hst).2
  | intr =>
    obtain ⟨hfree, rfl⟩ := of_guard hst
    exact { h with
      lock := fun q hq => absurd (hfree.symm.trans (h.lock q hq)) (by simp)
      intr := nofun }
  | intrGo => exact h.intrGo (ite_none_right_eq_some.1 hst).2
  | fetch =>
    obtain ⟨hne, rfl⟩ := of_guard hst
    exact h.fetch hne
  | serve i =>
    obtain ⟨hi, rfl⟩ := of_guard hst
    exact h.serve hi
  | post i =>
    obtain ⟨⟨hi, hnone⟩, rfl⟩ := of_guard hst
    exact h.post hi hnone
  | bump =>
    obtain ⟨hsome, rfl⟩ := of_guard hst
    obtain ⟨i, hi⟩ := isSome_iff_exists.1 hsome
    exact h.bump hi

end Inv

theorem inv_reachable (hs : (system n blockno).Reachable s) : Inv blockno s :=
  hs.invariant (fun _ h0 => h0 ▸ Inv.start) fun _ _ _ _ h hst => h.next hst

/-- **Requests and completions match.**  In every state of every run the requests in flight have
disjoint chains of three descriptors, and the other descriptors are the free ones; all that ever
happened to a descriptor is what may happen to it, so that it is freed once, after its request was
completed; a completion clears the flag of the buffer whose request has its head; `alloc3_desc` takes
three descriptors or changes no `free[]`; and nothing panics. -/
theorem requests_matched (hs : (system n blockno).Reachable s) :
    (∀ p r, (s.pc p).req = some r → r.idx.Nodup ∧ ∀ i ∈ r.idx, i < NUM) ∧
    (∀ p q r r', p ≠ q → (s.pc p).req = some r → (s.pc q).req = some r' → ∀ i ∈ r.idx, i ∉ r'.idx) ∧
    (∀ p r, (s.pc p).ready = some r → s.disk.Chain blockno r) ∧
    (∀ i < NUM, s.disk.free i = true ↔ ∀ p r, (s.pc p).req = some r → i ∉ r.idx) ∧
    (∀ i < NUM, ∃ st, replay i s.trace = some st ∧ (st = .unused ↔ s.disk.free i = true)) ∧
    (s.lock = .intr true → ∃ p r, (s.pc p).sent = some r ∧
      r.head = s.disk.used.ring (s.disk.usedIdx % NUM) ∧ s.busy r.b = true ∧
      ∃ t, s.next blockno .intrGo = some t ∧ t.busy = update s.busy r.b false ∧
        t.trace = s.trace ++ [.complete r.head r.b]) ∧
    (∀ d : VirtioDisk Buf, ∃ d' got, d.alloc3Desc = .ok (d', got) ∧ (got = none → d'.free = d.free)) ∧
    s.panic = none := by
  have h := inv_reachable hs
  refine ⟨fun p r hr => ⟨h.nodup p r hr, h.lt p r hr⟩, ?_, h.chain, ?_, ?_, ?_, ?_, h.panic⟩
  · exact fun p q r r' hpq hr hr' i hi hi' => hpq (h.apart p q r r' i hr hr' hi hi')
  · exact fun i hi => (h.free i).trans (and_iff_right hi)
  · intro i hi
    obtain ⟨st, hst, hof⟩ := h.stage i
    refine ⟨st, hst, ?_⟩
    rw [h.free i, and_iff_right hi]
    constructor
    · rintro rfl
      exact hof
    · exact hof.eq_unused
  · intro hlock
    obtain ⟨p, r, hr, hhead, hb, heq⟩ := h.intrGo_body hlock
    exact ⟨p, r, hr, hhead, hb, _, (if_pos h.panic).trans heq, rfl, rfl⟩
  · intro d
    obtain ⟨⟨d', got⟩, hres, halloc⟩ := d.alloc3Desc_spec
    refine ⟨d', got, hres, ?_⟩
    rintro rfl
    cases halloc with
    | nothing hfree => exact VirtioDisk.free_freed_taken hfree

/-- Two requests, completed in the other order; the third process waits for descriptors. -/
theorem requests_matched_three : ∃ s : VirtioSys 3 ℕ, (system 3 id).Reachable s ∧
    s.pc 2 = .noDesc 9 false ∧ s.trace = [.submit ⟨7, true, 0, 1, 2⟩, .submit ⟨8, false, 3, 4, 5⟩,
      .complete 3 8, .complete 0 7, .free 3, .free 4, .free 5] ∧ s.panic = none := by
  let ls : List (VirtioOp 3 ℕ) := [.call 0 7 true, .go 0, .go 0, .go 0, .go 0, .call 1 8 false, .go 1,
    .fetch, .go 1, .go 1, .go 1, .call 2 9 false, .go 2, .fetch, .serve 3, .serve 0, .post 3, .intr,
    .bump, .intrGo, .post 0, .intrGo, .bump, .intrGo, .intrGo, .intrGo, .go 1, .go 1, .go 1, .go 1]
  obtain ⟨s, hs⟩ : ∃ s, System.execute (next id) start ls = some s := ⟨_, rfl⟩
  have hr : (system 3 (id : ℕ → ℕ)).Reachable s := .run (.of_execute hs) (.init rfl)
  cases hs
  exact ⟨_, hr, rfl, rfl, (requests_matched hr).2.2.2.2.2.2.2⟩

end VirtioSys

end Xv6

import Xv6.Block.Requests

/-!
# Block/Queue — the rings between the driver and the device

A request is formatted and announced in the avail ring; the device takes it from there, writes its
status and returns its head in the used ring.  Whatever the device does, the heads that are under way
stay the same.
-/

namespace Xv6

open Machinery Function List Option Bool

namespace VirtioSys.Inv

variable {n : ℕ} {Buf : Type} [DecidableEq Buf] {blockno : Buf → ℕ} {s : VirtioSys n Buf} {p : Fin n}
  {r : DiskReq Buf} {i : ℕ} (h : Inv blockno s)

include h

/-! ## Announcing a request -/

/-- A request that is not announced has no head with the device. -/
theorem head_notMem (hreq : (s.pc p).req = some r) (hsent : (s.pc p).sent = none) :
    r.head ∉ s.heads := by
  intro hmem
  obtain ⟨q, r', hr', hhead, -⟩ := (h.heads_iff _).1 hmem
  obtain rfl := h.apart q p r' r _ (RwPc.req_of_sent hr') hreq r'.head_mem
    (hhead ▸ r.head_mem)
  rw [hsent] at hr'
  cases hr'

theorem pending_avail_lt (hreq : (s.pc p).req = some r)
    (hsent : (s.pc p).sent = none) : (s.disk.avail.pending s.seen).length < NUM := by
  have hnot := h.head_notMem hreq hsent
  have hnd : (r.head :: s.disk.avail.pending s.seen).Nodup :=
    nodup_cons.2 ⟨fun hm => hnot (mem_append_left _ hm),
      h.heads_nodup.sublist (sublist_append_left _ _)⟩
  exact length_le_of_nodup hnd (forall_mem_cons.2
    ⟨h.lt p r hreq _ r.head_mem, fun i hi => h.lt_of_mem_heads (mem_append_left _ hi)⟩)

/-- **A request is formatted.** -/
theorem format (hpc : s.pc p = .format r) :
    Inv blockno { s.goto p (.publish r) s.lock with
      disk := s.disk.format blockno r
      busy := update s.busy r.b true } := by
  have hr : (s.pc p).req = some r := by rw [hpc]; rfl
  have hlock : s.lock = .proc p := h.lock p (by rw [hpc]; rfl)
  have hnot : r.head ∉ s.heads := h.head_notMem hr (by rw [hpc]; rfl)
  have hreq := update_view RwPc.req s.pc p (.publish r) (by rw [hpc]; rfl)
  have hsent := update_view RwPc.sent s.pc p (.publish r) (by rw [hpc]; rfl)
  have hbuf := update_view RwPc.buf s.pc p (.publish r) (by rw [hpc]; rfl)
  have hbusy : ∀ q b, q ≠ p → (s.pc q).buf = some b → update s.busy r.b true b = s.busy b := by
    intro q b hq hb
    refine update_of_ne (fun heq => hq ?_) _ _
    exact h.bufs q p r.b (heq ▸ hb) (by rw [hpc]; rfl)
  have hsentne : ∀ q r', (s.pc q).sent = some r' → q ≠ p := by
    rintro q r' hr' rfl
    rw [hpc] at hr'
    cases hr'
  have hring : (s.disk.avail.put r.head).pending s.seen = s.disk.avail.pending s.seen :=
    VirtqRing.pending_put h.seen_lt h.avail_lt (h.pending_avail_lt hr (by rw [hpc]; rfl)) _
  have hheads : ({ s.goto p (.publish r) s.lock with
      disk := s.disk.format blockno r
      busy := update s.busy r.b true } : VirtioSys n Buf).heads = s.heads :=
    congrArg (· ++ _) hring
  refine { h with
    lock := h.lock_update hlock
    flag := (forall_update_iff s.pc fun _ pc => ∀ b v, pc.buf = some b → pc.flag = some v →
      update s.busy r.b true b = v).2 ⟨?_, ?_⟩
    calm := fun b hb => ?_
    chain := (forall_update_iff s.pc fun _ pc => ∀ r', pc.ready = some r' →
      (s.disk.format blockno r).Chain blockno r').2 ⟨?_, ?_⟩
    entry := (forall_update_iff s.pc fun _ pc => ∀ r', pc = .publish r' →
      (s.disk.format blockno r).avail.ring (s.disk.avail.idx % NUM) = r'.head).2 ⟨?_, ?_⟩
    toDisjoint := funext hreq ▸ h.toDisjoint
    bufs := fun q q' b hb hb' => h.bufs q q' b (hbuf q ▸ hb) (hbuf q' ▸ hb')
    heads_nodup := hheads ▸ h.heads_nodup
    heads_iff := fun i => ?_
    status := fun i hi => ?_
    stage := fun i => ?_ }
  · intro b v hb hv
    cases hb
    cases hv
    exact update_self ..
  · intro q hq b v hb hv
    rw [hbusy q b hq hb]
    exact h.flag q b v hb hv
  · rcases eq_or_ne b r.b with rfl | hne
    · exact ⟨p, (hbuf p).trans (by rw [hpc]; rfl)⟩
    · have hb : update s.busy r.b true b = true := hb
      obtain ⟨q, hq⟩ := h.calm b (by rwa [update_of_ne hne] at hb)
      exact ⟨q, (hbuf q).trans hq⟩
  · intro r' hr'
    cases hr'
    exact VirtioDisk.chain_format (h.nodup p r hr)
  · intro q hq r' hr'
    refine (h.chain q r' hr').format fun i hi hi' => hq ?_
    exact h.apart q p r' r i (RwPc.req_of_ready hr') hr hi hi'
  · rintro r' ⟨⟩
    exact s.disk.avail.ring_put r.head
  · exact fun q hq r' hr' => absurd hr' (h.ne_publish hlock hq)
  · rw [hheads, h.heads_iff i]
    refine exists₂_congr fun q r' => ?_
    change _ ↔ (update s.pc p (.publish r) q).sent = some r' ∧ r'.head = i ∧ update s.busy r.b true r'.b = true
    rw [hsent]
    refine and_congr_right fun hr' => ?_
    rw [hbusy q r'.b (hsentne q r' hr')
      (RwPc.buf_of_req (RwPc.req_of_sent hr'))]
  · have hne : i ≠ r.head := fun heq => hnot (heq ▸ mem_heads_of_done hi)
    change (update s.disk.info r.head ⟨some r.b, 0xff⟩ i).status = 0
    rw [update_of_ne hne]
    exact h.status i hi
  · obtain ⟨st, hst, hof⟩ := h.stage i
    refine ⟨st, hst, hof.congr (fun q _ _ => iff_of_eq (congrArg (· = some _) (hreq q)))
      (fun q r' _ hr' => ⟨(hsent q).trans hr', ?_⟩) fun q _ hr' => .inl (hsent q ▸ hr')⟩
    exact hbusy q r'.b (hsentne q r' hr') (RwPc.buf_of_req (RwPc.req_of_sent hr'))

/-- **A request is announced.** -/
theorem publish (hpc : s.pc p = .publish r) :
    Inv blockno { s.goto p (.wait r) s.lock with
      disk := { s.disk with avail := s.disk.avail.advance } } := by
  have hr : (s.pc p).req = some r := by rw [hpc]; rfl
  have hlock : s.lock = .proc p := h.lock p (by rw [hpc]; rfl)
  have hbusy : s.busy r.b = true := h.flag p r.b true (by rw [hpc]; rfl) (by rw [hpc]; rfl)
  have hnot : r.head ∉ s.heads := h.head_notMem hr (by rw [hpc]; rfl)
  have hreq := update_view RwPc.req s.pc p (.wait r) (by rw [hpc]; rfl)
  have hready := update_view RwPc.ready s.pc p (.wait r) (by rw [hpc]; rfl)
  have hbuf := update_view RwPc.buf s.pc p (.wait r) (by rw [hpc]; rfl)
  have hsent : ∀ q r', (update s.pc p (.wait r) q).sent = some r' ↔
      (q = p ∧ r' = r) ∨ (s.pc q).sent = some r' := by
    intro q r'
    rcases eq_or_ne q p with rfl | hq
    · rw [update_self, hpc]
      simp [RwPc.sent, eq_comm]
    · rw [update_of_ne hq]
      simp [hq]
  have hring : s.disk.avail.advance.pending s.seen = s.disk.avail.pending s.seen ++ [r.head] := by
    rw [VirtqRing.pending_advance h.seen_lt h.avail_lt
      (h.pending_avail_lt hr (by rw [hpc]; rfl)).le, h.entry p r hpc]
  have hheads : ({ s.goto p (.wait r) s.lock with
      disk := { s.disk with avail := s.disk.avail.advance } } : VirtioSys n Buf).heads.Perm
        (r.head :: s.heads) := by
    change (s.disk.avail.advance.pending s.seen ++ _).Perm _
    rw [hring, append_assoc, singleton_append]
    exact perm_middle
  refine { h with
    lock := h.lock_update hlock
    flag := h.flag_update nofun
    calm := fun b hb => (h.calm b hb).imp fun q hq => (hbuf q).trans hq
    chain := fun q r' hr' => (h.chain q r' (hready q ▸ hr')).congr (fun _ _ => rfl) rfl rfl
    entry := (forall_update_iff s.pc fun _ pc => ∀ r', pc = .publish r' →
      s.disk.avail.advance.ring (s.disk.avail.advance.idx % NUM) = r'.head).2 ⟨nofun, ?_⟩
    toDisjoint := funext hreq ▸ h.toDisjoint
    bufs := fun q q' b hb hb' => h.bufs q q' b (hbuf q ▸ hb) (hbuf q' ▸ hb')
    heads_nodup := hheads.nodup_iff.2 (nodup_cons.2 ⟨hnot, h.heads_nodup⟩)
    heads_iff := fun i => ?_
    avail_lt := incr16_lt _
    stage := fun i => ?_ }
  · exact fun q hq r' hr' => absurd hr' (h.ne_publish hlock hq)
  · rw [hheads.mem_iff, mem_cons, h.heads_iff i]
    constructor
    · rintro (rfl | ⟨q, r', hr', rest⟩)
      · exact ⟨p, r, (hsent p r).2 (.inl ⟨rfl, rfl⟩), rfl, hbusy⟩
      · exact ⟨q, r', (hsent q r').2 (.inr hr'), rest⟩
    · rintro ⟨q, r', hr', hhead, hb⟩
      rcases (hsent q r').1 hr' with ⟨-, rfl⟩ | hr'
      · exact .inl hhead.symm
      · exact .inr ⟨q, r', hr', hhead, hb⟩
  · obtain ⟨st, hst, hof⟩ := h.stage i
    refine ⟨st, hst, hof.congr (fun q _ _ => iff_of_eq (congrArg (· = some _) (hreq q)))
      (fun q r' _ hr' => ⟨(hsent q r').2 (.inr hr'), rfl⟩) fun q r' hr' => ?_⟩
    rcases (hsent q r').1 hr' with ⟨-, rfl⟩ | hs
    · exact .inr hbusy
    · exact .inl hs

/-! ## The device

It takes heads off the avail ring and puts them on the used ring, in any order. -/

theorem device {d : VirtioDisk Buf} {seen : ℕ} {fetched served : List ℕ}
    {posted : Option ℕ} (hdesc : d.desc = s.disk.desc) (hops : d.ops = s.disk.ops)
    (hfree : d.free = s.disk.free) (havail : d.avail = s.disk.avail)
    (husedIdx : d.usedIdx = s.disk.usedIdx) (hinfo : ∀ i, (d.info i).b = (s.disk.info i).b)
    (hheads : (d.avail.pending seen ++ (fetched ++ (served ++ (posted.toList ++
      d.used.pending d.usedIdx)))).Perm s.heads)
    (hstatus : ∀ i ∈ served ++ (posted.toList ++
      d.used.pending d.usedIdx), (d.info i).status = 0)
    (hseen : seen < 2 ^ 16) (hused : d.used.idx < 2 ^ 16)
    (hposted : ∀ i, posted = some i → d.used.ring (d.used.idx % NUM) = i)
    (hintr : s.lock = .intr true →
      d.used.pending d.usedIdx ≠ []) :
    Inv blockno
      { s with disk := d, seen := seen, fetched := fetched, served := served, posted := posted } :=
  { h with
    chain := fun p r hr => (h.chain p r hr).congr (fun _ _ => by rw [hdesc]) (by rw [hops]) (hinfo _)
    entry := fun p r hr => by rw [havail]; exact h.entry p r hr
    free := fun i => by rw [hfree]; exact h.free i
    heads_nodup := hheads.nodup_iff.2 h.heads_nodup
    heads_iff := fun i => hheads.mem_iff.trans (h.heads_iff i)
    status := hstatus
    seen_lt := hseen
    avail_lt := by rw [havail]; exact h.avail_lt
    usedIdx_lt := by rw [husedIdx]; exact h.usedIdx_lt
    used_lt := hused
    posted := hposted
    intr := hintr }

theorem fetch (hne : s.seen ≠ s.disk.avail.idx) :
    Inv blockno { s with
      fetched := s.disk.avail.ring (s.seen % NUM) :: s.fetched
      seen := incr16 s.seen } := by
  have hcons := VirtqRing.pending_pop h.seen_lt h.avail_lt
    (mt (VirtqRing.pending_eq_nil h.seen_lt h.avail_lt).1 hne)
  refine h.device rfl rfl rfl rfl rfl (fun _ => rfl) ?_ h.status (incr16_lt _) h.used_lt
    h.posted h.intr
  rw [heads, hcons, cons_append, cons_append]
  exact perm_middle

theorem writeStatus_eq (hi : i ∈ s.heads) :
    writeStatus s.disk i = { s.disk with info := update s.disk.info i ⟨(s.disk.info i).b, 0⟩ } := by
  obtain ⟨p, r, hr, rfl, -⟩ := (h.heads_iff i).1 hi
  have hc := h.chain p r (RwPc.ready_of_sent hr)
  simp only [writeStatus, hc.head, hc.data, hc.status]

theorem serve (hi : i ∈ s.fetched) : Inv blockno { s with
      disk := writeStatus s.disk i
      fetched := s.fetched.erase i
      served := i :: s.served } := by
  have hmem : i ∈ s.heads := mem_append_right _ (mem_append_left _ hi)
  rw [h.writeStatus_eq hmem]
  refine h.device rfl rfl rfl rfl rfl (fun j => ?_) ?_ (fun j hj => ?_) h.seen_lt h.used_lt h.posted h.intr
  · rcases eq_or_ne j i with rfl | hj
    · simp
    · simp [hj]
  · refine List.Perm.append_left _ ?_
    rw [cons_append]
    exact perm_middle.trans ((perm_cons_erase hi).symm.append_right _)
  · rcases eq_or_ne j i with rfl | hne
    · simp
    · have hj := h.status j ((mem_cons.1 hj).resolve_left hne)
      simp [hne, hj]

theorem post (hi : i ∈ s.served) (hnone : s.posted = none) : Inv blockno { s with
      disk := { s.disk with used := s.disk.used.put i }
      served := s.served.erase i
      posted := some i } := by
  have hdone := h.heads_nodup.sublist
    ((sublist_append_right _ _).trans (sublist_append_right _ _))
  rw [hnone, toList_none, nil_append] at hdone
  have hnd : (i :: s.disk.used.pending s.disk.usedIdx).Nodup :=
    nodup_cons.2 ⟨fun hu => (nodup_append.1 hdone).2.2 i hi i hu rfl,
      (nodup_append.1 hdone).2.1⟩
  have hlt : (s.disk.used.pending s.disk.usedIdx).length < NUM :=
    length_le_of_nodup hnd (forall_mem_cons.2
      ⟨h.lt_of_mem_heads (mem_heads_of_done (mem_append_left _ hi)), fun j hj =>
        h.lt_of_mem_heads (mem_heads_of_done (mem_append_right _ (mem_append_right _ hj)))⟩)
  have hring : (s.disk.used.put i).pending s.disk.usedIdx = s.disk.used.pending s.disk.usedIdx :=
    VirtqRing.pending_put h.usedIdx_lt h.used_lt hlt i
  refine h.device rfl rfl rfl rfl rfl (fun _ => rfl) ?_ (fun j hj => ?_) h.seen_lt h.used_lt ?_ ?_
  · refine List.Perm.append_left _ (List.Perm.append_left _ ?_)
    rw [hring, hnone, toList_some, singleton_append, toList_none, nil_append]
    exact perm_middle.trans ((perm_cons_erase hi).symm.append_right _)
  · rw [hring] at hj
    refine h.status j ?_
    simp only [hnone, toList_none, toList_some, nil_append, mem_append, mem_singleton] at hj ⊢
    rcases hj with hj | rfl | hj
    · exact .inl (mem_of_mem_erase hj)
    · exact .inl hi
    · exact .inr hj
  · rintro j ⟨⟩
    exact s.disk.used.ring_put i
  · intro hl
    exact hring ▸ h.intr hl

theorem bump (hi : s.posted = some i) : Inv blockno { s with
      disk := { s.disk with used := s.disk.used.advance }
      posted := none } := by
  have hdone := h.heads_nodup.sublist
    ((sublist_append_right _ _).trans (sublist_append_right _ _))
  have hsub : (s.disk.used.pending s.disk.usedIdx).Sublist
      (s.served ++ (s.posted.toList ++ s.disk.used.pending s.disk.usedIdx)) :=
    (sublist_append_right _ _).trans (sublist_append_right _ _)
  have hle : (s.disk.used.pending s.disk.usedIdx).length ≤ NUM :=
    length_le_of_nodup (hdone.sublist hsub) fun j hj =>
      h.lt_of_mem_heads (mem_heads_of_done (hsub.subset hj))
  have hring : s.disk.used.advance.pending s.disk.usedIdx =
      s.disk.used.pending s.disk.usedIdx ++ [i] := by
    rw [VirtqRing.pending_advance h.usedIdx_lt h.used_lt hle, h.posted i hi]
  have hperm : (s.disk.used.pending s.disk.usedIdx ++ [i]).Perm
      (i :: s.disk.used.pending s.disk.usedIdx) := by
    simp
  refine h.device rfl rfl rfl rfl rfl (fun _ => rfl) ?_ (fun j hj => ?_) h.seen_lt
    (incr16_lt _) nofun ?_
  · refine List.Perm.append_left _ (List.Perm.append_left _ (List.Perm.append_left _ ?_))
    rw [hring, hi, toList_none, nil_append, toList_some, singleton_append]
    exact hperm
  · rw [hring, toList_none, nil_append, mem_append, hperm.mem_iff] at hj
    refine h.status j ?_
    rw [hi, toList_some, singleton_append]
    exact mem_append.2 hj
  · intro _
    rw [hring]
    exact append_ne_nil_of_right_ne_nil _ (cons_ne_nil _ _)

end VirtioSys.Inv

end Xv6

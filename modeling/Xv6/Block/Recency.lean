import Xv6.Block.Lru

/-!
# Block/Recency — the buffers are in the order of their release (`kernel/bio.c`)

Only `brelse` moves a buffer, and only when the last reference goes.  The history counts the `bpin`s
not undone (`pins`) and tells when a reference count last dropped to zero (`zeroed`): the list is
sorted by it.
-/

namespace Xv6

open Machinery Function List Option

/-- The cache and its history; `time` counts the steps. -/
structure Recency (U : Type) where
  lru : Lru U
  pins : Fin NBUF → ℕ
  time : ℕ
  zeroed : Fin NBUF → Option ℕ

namespace Recency

variable {U : Type} [DecidableEq U]

def repin (pins : Fin NBUF → ℕ) : CacheOp U → Fin NBUF → ℕ
  | .bpin b => update pins b (pins b + 1)
  | .bunpin b => update pins b (pins b - 1)
  | _ => pins

def next (s : Recency U) (op : CacheOp U) : Option (Recency U) :=
  (s.lru.next op).map fun t => {
    lru := t
    pins := repin s.pins op
    time := s.time + 1
    zeroed := fun b =>
      if 0 < (s.lru.buf b).refcnt ∧ (t.buf b).refcnt = 0 then some s.time else s.zeroed b }

/-- A pin is dropped by one that has taken it and still holds the buffer. -/
def Paired (s : Recency U) : CacheOp U → Prop
  | .bunpin b => 0 < s.pins b ∧ ∃ u k, s.lru.use u = .held k b
  | _ => True

/-- The cache in use, from `binit` on. -/
def recency (disk : BlockId → Block) : System (Recency U) (CacheOp U) :=
  .ofNext (· = ⟨.boot disk, fun _ => 0, 0, fun _ => none⟩) fun s op => s.next op

/-- The first has never been released, or was released before the second. -/
def Before (o o' : Option ℕ) : Prop := o = none ∨ ∃ m n, o = some m ∧ o' = some n ∧ m < n

variable [Fintype U]

/-- **The list of buffers is in the order of their release.** -/
structure Ordered (s : Recency U) : Prop where
  count : ∀ b, (s.lru.buf b).refcnt = tally (Use.refs b) s.lru.use + s.pins b
  past : ∀ b n, s.zeroed b = some n → n < s.time
  order : ∃ l, s.lru.links.Rep l ∧ l.Perm (List.finRange NBUF) ∧
    l.Pairwise fun a b => Before (s.zeroed b) (s.zeroed a)

end Recency

/-! ## What a step can do

The end of `brelse` may move a buffer; every other step leaves the list alone. -/

namespace Lru

variable {U : Type} [DecidableEq U] {s t : Lru U}

/-- **What a step does to the reference counts, the uses and the list.** -/
inductive Effect (s : Lru U) : CacheOp U → Lru U → Prop
  | bget {t : Lru U} {u : U} {k : BlockId} {b : Fin NBUF} (hu : s.use u = .idle)
      (hcnt : ∀ b', (t.buf b').refcnt = if b' = b then (s.buf b').refcnt + 1 else (s.buf b').refcnt)
      (huse : t.use = update s.use u (.waiting k b)) (hlinks : t.links = s.links) : Effect s (.bget u k) t
  | quiet {op : CacheOp U} {t : Lru U} (hpins : ∀ pins, Recency.repin pins op = pins)
      (hcnt : ∀ b', (t.buf b').refcnt = (s.buf b').refcnt)
      (huse : ∀ u, (t.use u).place = (s.use u).place) (hlinks : t.links = s.links) : Effect s op t
  | bpin {t : Lru U} {b : Fin NBUF}
      (hcnt : ∀ b', (t.buf b').refcnt = if b' = b then (s.buf b').refcnt + 1 else (s.buf b').refcnt)
      (huse : t.use = s.use) (hlinks : t.links = s.links) : Effect s (.bpin b) t
  | bunpin {t : Lru U} {b : Fin NBUF}
      (hcnt : ∀ b', (t.buf b').refcnt = if b' = b then (s.buf b').refcnt - 1 else (s.buf b').refcnt)
      (huse : t.use = s.use) (hlinks : t.links = s.links) : Effect s (.bunpin b) t
  | brelse {t : Lru U} {u : U} {k : BlockId} {b : Fin NBUF} (hu : s.use u = .releasing k b)
      (hcnt : ∀ b', (t.buf b').refcnt = if b' = b then (s.buf b').refcnt - 1 else (s.buf b').refcnt)
      (huse : t.use = update s.use u .idle) (hlinks : t.links = s.relink b ((s.buf b).refcnt - 1)) :
      Effect s (.brelse u) t

omit [DecidableEq U] in
theorem unused_rep {l : List (Fin NBUF)} (hl : s.links.Rep l) (hperm : l.Perm (List.finRange NBUF)) :
    s.unused = l.reverse.find? fun b => (s.buf b).refcnt = 0 :=
  hl.scan_prev _ (by rw [hperm.length_eq, length_finRange])

theorem place_setUse (s : Lru U) {u : U} {x : Use} (y : Use) (hu : s.use u = x) (hxy : y.place = x.place) (u' : U) :
    ((s.setUse u y).use u').place = (s.use u').place := by
  simp only [setUse, update_apply]
  split_ifs with e
  · rw [e, hu, hxy]
  · rfl

theorem effect_next {l : List (Fin NBUF)} (hl : s.links.Rep l) (hperm : l.Perm (List.finRange NBUF))
    {op : CacheOp U} (h : s.next op = some t) : Effect s op t := by
  cases op with
  | bget u k =>
    simp only [next] at h
    split_ifs at h with hu
    obtain ⟨⟨b, t'⟩, hb, rfl⟩ := map_eq_some_iff.1 h
    unfold bget at hb
    split at hb
    next b' hb' =>
      cases hb
      refine .bget hu (fun b' => ?_) rfl rfl
      simp only [setUse, buf_refcnt s b b' (· + 1)]
    next hnone =>
      obtain ⟨b', hb', he⟩ := map_eq_some_iff.1 hb
      cases he
      rw [unused_rep hl hperm] at hb'
      have h0 : (s.buf b).refcnt = 0 := by simpa using List.find?_some hb'
      refine .bget hu (fun b' => ?_) rfl rfl
      simp only [setUse, buf_modifyBuf]
      split_ifs with e
      · rw [e, h0]
      · rfl
  | lock u =>
    simp only [next] at h
    split at h
    next k b hu =>
      split_ifs at h with hb
      cases h
      exact .quiet (fun _ => rfl) (fun b' => by simp only [setUse, buf_holder])
        (place_setUse (s.modifyBuf b _) _ hu rfl) rfl
    next => cases h
  | fill u =>
    simp only [next] at h
    split at h
    next k b hu =>
      cases h
      refine .quiet (fun _ => rfl) (fun b' => ?_) (fun u' => ?_) ?_
      · split_ifs
        · rfl
        · simp only [setUse, buf_modifyBuf]
          split_ifs with e
          · rw [e]
          · rfl
      · split_ifs
        · exact place_setUse s (.held k b) hu rfl u'
        · exact place_setUse (s.modifyBuf b _) (.held k b) hu rfl u'
      · split_ifs <;> rfl
    next => cases h
  | store u v =>
    simp only [next] at h
    split at h
    next k b hu =>
      cases h
      refine .quiet (fun _ => rfl) (fun b' => ?_) (fun _ => rfl) rfl
      simp only [buf_modifyBuf]
      split_ifs with e
      · rw [e]
      · rfl
    next => cases h
  | bwrite u =>
    simp only [next] at h
    split at h
    next k b hu =>
      cases h
      exact .quiet (fun _ => rfl) (fun _ => rfl) (fun _ => rfl) rfl
    next => cases h
  | bpin b =>
    cases h
    exact .bpin (fun b' => by simp only [buf_refcnt s b b' (· + 1)]) rfl rfl
  | bunpin b =>
    cases h
    exact .bunpin (fun b' => by simp only [buf_refcnt s b b' (· - 1)]) rfl rfl
  | unlock u =>
    simp only [next] at h
    split at h
    next k b hu =>
      cases h
      exact .quiet (fun _ => rfl) (fun b' => by simp only [setUse, buf_holder])
        (place_setUse (s.modifyBuf b _) _ hu rfl) rfl
    next => cases h
  | brelse u =>
    simp only [next] at h
    split at h
    next k b hu =>
      cases h
      exact .brelse hu (fun b' => by simp only [setUse, buf_refcnt s b b' (· - 1)]) rfl rfl
    next => cases h

end Lru

namespace Recency

variable {U : Type} [Fintype U] {s t : Recency U}

theorem ordered_boot (disk : BlockId → Block) :
    (⟨.boot disk, fun _ => 0, 0, fun _ => none⟩ : Recency U).Ordered where
  count b := by simp [Lru.boot, tally]
  past := nofun
  order := by
    obtain ⟨l, hl, hperm⟩ := Lru.binit_rep
    exact ⟨l, hl, hperm, pairwise_of_forall fun _ _ => .inl rfl⟩

theorem Ordered.keep (h : s.Ordered) {op : CacheOp U} {t : Lru U}
    (hcount : ∀ b, (t.buf b).refcnt = tally (Use.refs b) t.use + repin s.pins op b)
    (hkeep : ∀ b, 0 < (s.lru.buf b).refcnt → 0 < (t.buf b).refcnt) (hlinks : t.links = s.lru.links) :
    (⟨t, repin s.pins op, s.time + 1, fun b =>
      if 0 < (s.lru.buf b).refcnt ∧ (t.buf b).refcnt = 0 then some s.time else s.zeroed b⟩ : Recency U).Ordered := by
  have hzero : ∀ b, ¬(0 < (s.lru.buf b).refcnt ∧ (t.buf b).refcnt = 0) := fun b ⟨hpos, h0⟩ =>
    (hkeep b hpos).ne' h0
  simp only [hzero, if_false]
  exact ⟨hcount, fun b n hn => (h.past b n hn).trans s.time.lt_succ_self, hlinks ▸ h.order⟩

/-- The last reference to `b` goes in `brelse`: it comes to the front. -/
theorem Ordered.release (h : s.Ordered) {b : Fin NBUF} {t : Lru U} {pins : Fin NBUF → ℕ}
    (hcount : ∀ b, (t.buf b).refcnt = tally (Use.refs b) t.use + pins b)
    (hlinks : t.links = (s.lru.links.remove b).insert b) :
    (⟨t, pins, s.time + 1, update s.zeroed b (some s.time)⟩ : Recency U).Ordered := by
  obtain ⟨l, hl, hperm, hsorted⟩ := h.order
  obtain ⟨l1, l2, rfl⟩ := append_of_mem (hperm.mem_iff.2 (mem_finRange b))
  have hb : b ∉ l1 ++ l2 := (nodup_cons.1 (perm_middle.nodup_iff.1 hl.nodup)).1
  refine ⟨hcount, fun b' n hn => ?_, b :: (l1 ++ l2), hlinks ▸ hl.remove.insert hb,
    perm_middle.symm.trans hperm, pairwise_cons.2 ⟨fun c hc => ?_, ?_⟩⟩
  · simp only [update_apply] at hn
    split_ifs at hn with e
    · exact (some.inj hn) ▸ s.time.lt_succ_self
    · exact (h.past b' n hn).trans s.time.lt_succ_self
  · have hcb : c ≠ b := fun e => hb (e ▸ hc)
    simp only [update_self, update_of_ne hcb]
    cases hz : s.zeroed c with
    | none => exact .inl rfl
    | some n => exact .inr ⟨n, s.time, rfl, rfl, h.past c n hz⟩
  · refine (hsorted.sublist (List.Sublist.append_left (sublist_cons_self b l2) l1)).imp_of_mem
      fun {x y} hx hy hxy => ?_
    have hxb : x ≠ b := fun e => hb (e ▸ hx)
    have hyb : y ≠ b := fun e => hb (e ▸ hy)
    simpa only [update_of_ne hxb, update_of_ne hyb] using hxy

variable [DecidableEq U]

/-- **Every step keeps the list in order.** -/
theorem ordered_next (h : s.Ordered) {op : CacheOp U} (hp : s.Paired op) (hst : s.next op = some t) :
    t.Ordered := by
  obtain ⟨t, hnext, rfl⟩ := map_eq_some_iff.1 hst
  obtain ⟨l, hl, hperm, -⟩ := h.order
  cases Lru.effect_next hl hperm hnext with
  | @bget t u k b hu hcnt huse hlinks =>
    refine h.keep (fun b' => ?_) (fun b' hpos => ?_) hlinks
    · have ht := tally_update (Use.refs b') s.lru.use u (.waiting k b)
      rw [hu, Use.refs_idle, Use.refs_of_place (x := .waiting k b) rfl] at ht
      have hc := h.count b'
      rw [hcnt, huse]
      simp only [repin]
      split_ifs at ht ⊢ <;> omega
    · rw [hcnt]
      split_ifs <;> omega
  | quiet hpins hcnt huse hlinks =>
    refine h.keep (fun b' => ?_) (fun b' hpos => ?_) hlinks
    · have ht : tally (Use.refs b') t.use = tally (Use.refs b') s.lru.use :=
        tally_congr fun u => by rw [Use.refs, huse, Use.refs]
      rw [hcnt, hpins, ht]
      exact h.count b'
    · rw [hcnt]
      exact hpos
  | @bpin t b hcnt huse hlinks =>
    refine h.keep (fun b' => ?_) (fun b' hpos => ?_) hlinks
    · have hc := h.count b'
      rw [hcnt, huse]
      simp only [repin, update_apply]
      split_ifs with e
      · subst e
        omega
      · exact hc
    · rw [hcnt]
      split_ifs <;> omega
  | @bunpin t b hcnt huse hlinks =>
    -- the one who drops the pin still counts
    obtain ⟨hpos, u, k, hu⟩ := hp
    have hle := le_tally (Use.refs b) s.lru.use u
    rw [hu, Use.refs_of_place (x := .held k b) rfl, if_pos rfl] at hle
    refine h.keep (fun b' => ?_) (fun b' hpos' => ?_) hlinks
    · have hc := h.count b'
      rw [hcnt, huse]
      simp only [repin, update_apply]
      split_ifs with e
      · subst e
        omega
      · exact hc
    · have hc := h.count b'
      rw [hcnt]
      split_ifs with e
      · subst e
        omega
      · exact hpos'
  | @brelse t u k b hu hcnt huse hlinks =>
    have hcount : ∀ b', (t.buf b').refcnt = tally (Use.refs b') t.use + s.pins b' := fun b' => by
      have ht := tally_update (Use.refs b') s.lru.use u .idle
      rw [hu, Use.refs_idle, Use.refs_of_place (x := .releasing k b) rfl] at ht
      have hc := h.count b'
      rw [hcnt, huse]
      split_ifs at ht ⊢ <;> omega
    have hle := le_tally (Use.refs b) s.lru.use u
    rw [hu, Use.refs_of_place (x := .releasing k b) rfl, if_pos rfl] at hle
    have hb := h.count b
    rw [Lru.relink] at hlinks
    split_ifs at hlinks with h0
    · have hz : (fun b' => if 0 < (s.lru.buf b').refcnt ∧ (t.buf b').refcnt = 0 then some s.time
          else s.zeroed b') = update s.zeroed b (some s.time) := by
        funext b'
        rw [update_apply, hcnt]
        rcases eq_or_ne b' b with rfl | hne
        · rw [if_pos rfl, if_pos ⟨by omega, h0⟩, if_pos rfl]
        · rw [if_neg hne, if_neg hne, if_neg fun hh => by omega]
      rw [hz]
      exact h.release hcount hlinks
    · refine h.keep hcount (fun b' hpos => ?_) hlinks
      rw [hcnt]
      split_ifs with e
      · subst e
        omega
      · exact hpos

theorem ordered_of_reachable {disk : BlockId → Block} (h : ((recency disk).restrict Paired).Reachable s) :
    s.Ordered := by
  refine h.invariant ?_ fun s op t _ hs ⟨hp, hst⟩ => ordered_next hs hp hst
  rintro s rfl
  exact ordered_boot disk

/-- **The buffers are in recency order.**  Walking backwards from the head visits every buffer once, the
unreferenced ones in the order in which their counts last dropped to zero; so a buffer that `bget` recycles was
released before all other unreferenced ones, or never used. -/
theorem recency_order {disk : BlockId → Block} (h : ((recency disk).restrict Paired).Reachable s) :
    (Links.walk s.lru.links.prev NBUF (s.lru.links.prev none)).Perm (List.finRange NBUF) ∧
    ((Links.walk s.lru.links.prev NBUF (s.lru.links.prev none)).filter fun b => (s.lru.buf b).refcnt = 0).Pairwise
      (fun b b' => Before (s.zeroed b) (s.zeroed b')) ∧
    ∀ k b t, s.lru.cached k = none → s.lru.bget k = some (b, t) → (s.lru.buf b).refcnt = 0 ∧
      ∀ b', b' ≠ b → (s.lru.buf b').refcnt = 0 → Before (s.zeroed b) (s.zeroed b') := by
  obtain ⟨-, -, l, hl, hperm, hsorted⟩ := ordered_of_reachable h
  have hback : l.reverse.Pairwise fun b b' => Before (s.zeroed b) (s.zeroed b') :=
    List.pairwise_reverse.2 hsorted
  rw [hl.walk_prev (by rw [hperm.length_eq, List.length_finRange])]
  refine ⟨(List.reverse_perm l).trans hperm, hback.sublist List.filter_sublist, fun k b t hmiss hget => ?_⟩
  rw [Lru.bget, hmiss] at hget
  obtain ⟨b₀, hb₀, he⟩ := Option.map_eq_some_iff.1 hget
  obtain ⟨rfl, -⟩ := Prod.mk.inj he
  rw [Lru.unused_rep hl hperm, List.find?_eq_some_iff_append] at hb₀
  obtain ⟨h0, l₁, l₂, hrev, hbefore⟩ := hb₀
  rw [hrev, List.pairwise_append, List.pairwise_cons] at hback
  refine ⟨of_decide_eq_true h0, fun b' hne hb' => ?_⟩
  have hmem : b' ∈ l.reverse := List.mem_reverse.2 (hperm.mem_iff.2 (List.mem_finRange b'))
  rw [hrev, List.mem_append, List.mem_cons] at hmem
  rcases hmem with h1 | rfl | h2
  · have := hbefore b' h1
    simp [hb'] at this
  · exact absurd rfl hne
  · exact hback.2.1.1 b' h2

/-- A buffer has been released; the next block gets another one. -/
theorem recency_order_one : ∃ (s : Recency Unit) (b b' : Fin NBUF) (t : Lru Unit),
    ((recency fun _ => .fill BSIZE 0).restrict Paired).Reachable s ∧ s.zeroed b' = some 4 ∧
    s.lru.bget (1, 2) = some (b, t) ∧ b' ≠ b ∧ Before (s.zeroed b) (s.zeroed b') := by
  have h1 : ((recency (U := Unit) fun _ => .fill BSIZE 0).restrict Paired).Reachable _ :=
    .step (l := .bget () (1, 1)) (.init rfl) ⟨trivial, rfl⟩
  have h2 := h1.step (l := CacheOp.lock ()) ⟨trivial, rfl⟩
  have h3 := h2.step (l := CacheOp.fill ()) ⟨trivial, rfl⟩
  have h4 := h3.step (l := CacheOp.unlock ()) ⟨trivial, rfl⟩
  have h5 := h4.step (l := CacheOp.brelse ()) ⟨trivial, rfl⟩
  obtain ⟨-, -, hget⟩ := recency_order h5
  exact ⟨_, _, ⟨0, by decide⟩, _, h5, rfl, rfl, by decide, (hget (1, 2) _ _ rfl rfl).2 _ (by decide) rfl⟩

end Recency

end Xv6

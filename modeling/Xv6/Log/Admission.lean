import Xv6.Log.Isolation

/-!
# Log/Admission — does `begin_op` keep the log from filling up?

`begin_op` reserves `MAXOPBLOCKS` blocks for each operation while the reservations fit in `LOGSIZE`;
`log_write` gives up earlier, at `log.size - 1` blocks.  If no operation uses the last block of its
reservation, `log_write` always finds one (`Reserved`); with the full budget it may not
(`tooBig_iff`).
-/

namespace Xv6

open Machinery Function List

namespace Group

variable {ι : Type} [DecidableEq ι]

/-- A call of `log_write` stays within `k` distinct blocks for the operation that makes it. -/
def Within (k : ℕ) (s : Group ι) : ι × Act → Prop
  | (p, .logWrite b) => (insert b (s.thread p).used).card ≤ k
  | _ => True

instance (k : ℕ) (s : Group ι) (l : ι × Act) : Decidable (Within k s l) :=
  match l with
  | (p, .logWrite b) => inferInstanceAs (Decidable ((insert b (s.thread p).used).card ≤ k))
  | (_, .beginOp) | (_, .endOp) | (_, .continue) | (_, .killed) => .isTrue trivial

omit [DecidableEq ι] in
theorem Within.mono {k k' : ℕ} (hk : k ≤ k') {s : Group ι} {l : ι × Act} (h : Within k s l) :
    Within k' s l := by
  obtain ⟨p, a⟩ := l
  cases a with
  | logWrite b => exact h.trans hk
  | _ => trivial

/-- The blocks a thread may still add to the log: what is left of `MAXOPBLOCKS - 1`. -/
def left (th : Thread) : ℕ := if th.pc.inOp then MAXOPBLOCKS - 1 - th.used.card else 0

theorem left_in {th : Thread} (h : th.pc.inOp = true) :
    left th = MAXOPBLOCKS - 1 - th.used.card := by
  simp [left, h]

theorem left_out {th : Thread} (h : th.pc.inOp = false) : left th = 0 := by
  simp [left, h]

/-- A thread keeps to `MAXOPBLOCKS - 1` blocks, all of them in the log, and has not panicked. -/
structure Modest (lh : List ℕ) (th : Thread) : Prop where
  budget : th.pc.inOp = true → th.used.card ≤ MAXOPBLOCKS - 1
  call : ∀ b, th.pc = .writeBody b → (insert b th.used).card ≤ MAXOPBLOCKS - 1
  logged : th.pc.inOp = true → ∀ b ∈ th.used, b ∈ lh
  safe : th.pc ≠ .panicked .tooBig

namespace Modest

variable {lh lh' : List ℕ} {th : Thread}

theorem of_out (h : th.pc.inOp = false) : Modest lh th where
  budget hp := by simp [h] at hp
  call b hb := by simp [hb, Pc.inOp] at h
  logged hp := by simp [h] at hp
  safe hs := by simp [hs, Pc.inOp] at h

theorem mono (h : Modest lh th) (hl : ∀ b ∈ lh, b ∈ lh') : Modest lh' th :=
  ⟨h.budget, h.call, fun hp b hb => hl b (h.logged hp b hb), h.safe⟩

theorem write_le (h : Modest lh th) {b : ℕ} (hc : th.pc = .writeBody b) :
    (if b ∈ lh then lh else lh ++ [b]).length + left ⟨.writeRelease, insert b th.used⟩ ≤
      lh.length + left th := by
  have hin : th.pc.inOp = true := by rw [hc]; rfl
  have hb := h.call b hc
  rw [left_in hin, left_in rfl]
  by_cases hu : b ∈ th.used
  · rw [if_pos (h.logged hin b hu), Finset.insert_eq_of_mem hu]
  · rw [Finset.card_insert_of_notMem hu] at hb ⊢
    have hn : (if b ∈ lh then lh else lh ++ [b]).length ≤ lh.length + 1 := by
      split <;> simp
    omega

theorem write (h : Modest lh th) {b : ℕ} (hc : th.pc = .writeBody b)
    (hl : ∀ x ∈ lh, x ∈ lh') (hb : b ∈ lh') : Modest lh' ⟨.writeRelease, insert b th.used⟩ where
  budget _ := h.call b hc
  call := nofun
  logged _ x hx := by
    rcases Finset.mem_insert.1 hx with rfl | hx
    · exact hb
    · exact hl x (h.logged (by rw [hc]; rfl) x hx)
  safe := nofun

end Modest

section Fintype

variable [Fintype ι]

/-- **The reservations hold.** -/
structure Reserved (lh : List ℕ) (th : ι → Thread) : Prop where
  modest : ∀ p, Modest lh (th p)
  room : 0 < inOps (fun q => (th q).pc) → lh.length + tally left th ≤ LOGSIZE - 2

omit [DecidableEq ι] in
theorem tally_left_le (th : ι → Thread) :
    tally left th ≤ (MAXOPBLOCKS - 1) * inOps (fun q => (th q).pc) := by
  have h : tally left th ≤ tally (fun x : Thread => (MAXOPBLOCKS - 1) * x.pc.inOp.toNat) th := by
    refine tally_mono (fun x => ?_) th
    unfold left
    cases x.pc.inOp
    · exact zero_le
    · exact Nat.sub_le _ _
  rw [tally_mul] at h
  exact h

namespace Reserved

variable {lh lh' : List ℕ} {th : ι → Thread}

omit [DecidableEq ι] in
theorem of_out (h : ∀ q, (th q).pc.inOp = false) : Reserved lh th where
  modest q := .of_out (h q)
  room hpos := by
    obtain ⟨q, hq⟩ := exists_of_tally_pos hpos
    simp [h q] at hq

/-- **One thread moves** and takes from its own room what it adds to the log. -/
theorem move (hr : Reserved lh th) {p : ι} {x : Thread} (hm : Modest lh' x)
    (hl : ∀ b ∈ lh, b ∈ lh') (hx : lh'.length + left x ≤ lh.length + left (th p))
    (hin : x.pc.inOp = true → (th p).pc.inOp = true) : Reserved lh' (update th p x) where
  modest := (forall_update_iff th fun _ th => Modest lh' th).2
    ⟨hm, fun q _ => (hr.modest q).mono hl⟩
  room := by
    rw [pc_update]
    intro hpos
    have hu := tally_update left th p x
    have hn := inOps_update (fun q => (th q).pc) p x.pc
    have hle : x.pc.inOp.toNat ≤ (th p).pc.inOp.toNat := by
      cases h : x.pc.inOp
      · exact zero_le
      · rw [hin h]
    have hroom := hr.room (by omega)
    omega

/-- `begin_op` reserves for one more operation. -/
theorem enter (hr : Reserved lh th) {p : ι} (hp : (th p).pc.inOp = false)
    (hempty : inOps (fun q => (th q).pc) = 0 → lh = [])
    (hn : lh.length + (inOps (fun q => (th q).pc) + 1) * MAXOPBLOCKS ≤ LOGSIZE) :
    Reserved lh (update th p ⟨.beginRelease, ∅⟩) where
  modest := by
    refine (forall_update_iff th fun _ th => Modest lh th).2 ⟨?_, fun q _ => hr.modest q⟩
    exact ⟨fun _ => by simp, nofun, fun _ => by simp, nofun⟩
  room := by
    intro _
    have hu := tally_update left th p ⟨.beginRelease, ∅⟩
    have hall := tally_left_le th
    rw [left_out hp, left_in rfl, Finset.card_empty] at hu
    simp only [MAXOPBLOCKS, LOGSIZE] at *
    rcases Nat.eq_zero_or_pos (inOps fun q => (th q).pc) with hz | hpos
    · rw [hempty hz, length_nil]
      omega
    · omega

omit [DecidableEq ι] in
theorem wakeup {s : Group ι} (hr : Reserved s.lh s.thread) : Reserved s.lh s.wakeup.thread := by
  have hw : ∀ q, Modest s.lh (s.wakeup.thread q) ∧ left (s.wakeup.thread q) = left (s.thread q) := by
    intro q
    simp only [Group.wakeup]
    split
    next h => exact ⟨.of_out rfl, by rw [left_out rfl, left_out (by rw [h]; rfl)]⟩
    next => exact ⟨hr.modest q, rfl⟩
  refine ⟨fun q => (hw q).1, fun hpos => ?_⟩
  have hpos : 0 < inOps s.wakeup.pc := hpos
  rw [pc_wakeup, inOps_woke] at hpos
  rw [tally_congr fun q => (hw q).2]
  exact hr.room hpos

/-- **Every transition within the smaller budget keeps the reservations.** -/
theorem trans {s t : Group ι} {p : ι} {a : Act} (hr : Reserved s.lh s.thread) (hi : Inv s)
    (hw : Within (MAXOPBLOCKS - 1) s (p, a)) (h : Trans LOGSIZE s p a t) :
    Reserved t.lh t.thread := by
  have hcount : s.outstanding = inOps fun q => (s.thread q).pc := hi.standing.count
  -- a move to a point outside of an operation, from anywhere
  have hleave : ∀ {th : ι → Thread} (_ : Reserved s.lh th) (c : Pc), c.inOp = false →
      Reserved s.lh (update th p { th p with pc := c }) := fun hth c hc =>
    hth.move (.of_out hc) (fun _ h => h) (by rw [left_out hc]; omega) (by simp [hc])
  cases h with
  | silent c l hc _ hb =>
    refine hr.move ⟨fun h => (hr.modest p).budget (hc.inOp ▸ h), ?_,
      fun h => (hr.modest p).logged (hc.inOp ▸ h), hc.calm _⟩ (fun _ h => h) ?_
      fun h => hc.inOp ▸ h
    · rintro b rfl
      obtain rfl := hb b rfl
      exact hw
    · simp only [left, hc.inOp]
      exact le_rfl
  | sleep _ _ => exact hleave hr .asleep rfl
  | enter hc hw' hn =>
    refine hr.enter (by rw [hc]; rfl) (fun hz => hi.empty (by omega) hw') ?_
    rw [hcount] at hn
    exact_mod_cast hn
  | write b hc _ =>
    have hl : ∀ x ∈ s.lh, x ∈ if b ∈ s.lh then s.lh else s.lh ++ [b] := by
      intro x hx
      split
      · exact hx
      · exact mem_append_left _ hx
    have hb : b ∈ if b ∈ s.lh then s.lh else s.lh ++ [b] := by
      split <;> simp [*]
    exact hr.move ((hr.modest p).write hc hl hb) hl ((hr.modest p).write_le hc)
      fun _ => by rw [hc]; rfl
  | tooBig b hc hn =>
    have hpos : 0 < inOps fun q => (s.thread q).pc := by
      have hle := le_tally (fun c : Pc => c.inOp.toNat) s.pc p
      rw [pc, hc] at hle
      exact hle
    have hroom := hr.room hpos
    simp only [LOGSIZE, MAXOPBLOCKS] at hn hroom
    omega
  | outsideOfTrans b hc ho =>
    have hpos := hi.outstanding_pos (q := p) (by rw [pc, hc]; rfl)
    omega
  | committing _ _ => exact hleave hr (.panicked .committing) rfl
  | last _ _ _ => exact hleave hr (.endRelease true) rfl
  | leave _ _ _ => exact hleave (wakeup (s := s.decrement p) hr) (.endRelease false) rfl
  | commit _ => exact hleave hr .commitClear rfl
  | clear hc =>
    have hw := hi.committing_of (q := p) (by rw [pc, hc]; rfl)
    refine .of_out fun q => ?_
    by_cases hq : q = p
    · subst hq; simp [goto, Pc.inOp]
    · simp only [goto, update_of_ne hq]
      exact hi.inOp_false hw q
  | done _ => exact hleave (wakeup (s := { s with committing := false }) hr) .doneRelease rfl

end Reserved

variable {s : Group ι} {b size : ℕ}

theorem reserved_reachable (h : ((system ι LOGSIZE).restrict (Within (MAXOPBLOCKS - 1))).Reachable s) :
    Reserved s.lh s.thread := by
  refine h.invariant (I := fun s => Reserved s.lh s.thread) ?_ fun s l t hs hr hst => ?_
  · rintro _ rfl
    exact .of_out fun _ => rfl
  · exact hr.trans (inv_reachable hs.of_restrict) hst.1 (trans_of_next hst.2)

/-! ## The log and its group -/

omit [DecidableEq ι] [Fintype ι] in
def groupBlocks (g : List (Event ι)) : Finset ℕ :=
  (g.filterMap fun e => match e with
    | .wrote _ b => some b
    | _ => none).toFinset

omit [DecidableEq ι] [Fintype ι] in
theorem mem_groupBlocks {g : List (Event ι)} : b ∈ groupBlocks g ↔ ∃ p, Event.wrote p b ∈ g := by
  simp only [groupBlocks, mem_toFinset, mem_filterMap]
  constructor
  · rintro ⟨e, he, hb⟩
    split at hb
    next p b' => exact ⟨p, Option.some.inj hb ▸ he⟩
    next => cases hb
  · rintro ⟨p, hp⟩
    exact ⟨_, hp, rfl⟩

omit [Fintype ι] in
theorem Trans.nodup {t : Group ι} {p : ι} {a : Act} (h : Trans size s p a t)
    (hs : s.lh.Nodup) : t.lh.Nodup := by
  cases h with
  | write b _ _ =>
    change (if b ∈ s.lh then s.lh else s.lh ++ [b]).Nodup
    split
    next => exact hs
    next hb => exact nodup_append.2 ⟨hs, by simp, by rintro x hx _ h rfl; simp_all⟩
  | clear _ => exact nodup_nil
  | _ => exact hs

omit [Fintype ι] in
theorem nodup_reachable (h : (system ι size).Reachable s) : s.lh.Nodup := by
  refine h.invariant (I := fun s => s.lh.Nodup) ?_ fun _ _ _ _ hs hst => (trans_of_next hst).nodup hs
  rintro _ rfl
  exact nodup_nil

theorem length_lh (h : (system ι size).Reachable s) {p : ι}
    (hp : (s.pc p).inOp = true) : s.lh.length = (groupBlocks (current s.hist)).card := by
  have hi := inv_reachable h
  rw [← toFinset_card_of_nodup (nodup_reachable h)]
  congr 1
  ext b
  rw [mem_toFinset, mem_groupBlocks, hi.blocks (hi.not_clearing (hi.committing_false hp))]

theorem writeBody_tooBig_iff (h : (system ι LOGSIZE).Reachable s) {p : ι} (hp : s.pc p = .writeBody b) :
    (s.writeBody LOGSIZE p b).pc p = .panicked .tooBig ↔
      LOGSIZE - 1 ≤ (groupBlocks (current s.hist)).card := by
  rw [← length_lh h (p := p) (by rw [hp]; rfl)]
  unfold writeBody
  split
  next hn =>
    simp only [pc_goto, update_self, true_iff]
    simp only [LOGSIZE, MAXOPBLOCKS] at hn ⊢
    omega
  next hn =>
    simp only [LOGSIZE, MAXOPBLOCKS] at hn ⊢
    split <;> simp [pc, goto] <;> omega

end Fintype

/-! ## Three operations that use their whole reservation -/

/-- Three processes begin, then each logs `MAXOPBLOCKS` blocks of its own; the last call does not
return. -/
def fullBudget : List (Fin 3 × Act) :=
  (([0, 1, 2] : List (Fin 3)).flatMap fun p => [(p, .beginOp), (p, .continue), (p, .continue)]) ++
  (((List.range 30).flatMap fun i =>
    [(Fin.ofNat 3 (i / 10), .logWrite (100 + i)), (Fin.ofNat 3 (i / 10), .continue),
      (Fin.ofNat 3 (i / 10), .continue)]).take 89)

theorem fullBudget_reaches : ∃ s : Group (Fin 3),
    ((system (Fin 3) LOGSIZE).restrict (Within MAXOPBLOCKS)).Reachable s ∧
      s.pc 2 = .panicked .tooBig := by
  refine ⟨(System.execute (fun s l => if Within MAXOPBLOCKS s l then s.next LOGSIZE l.1 l.2 else none)
    start fullBudget).get (by decide +kernel), ?_, by decide +kernel⟩
  exact System.Reachable.run (System.Run.of_execute_restrict (Option.some_get _).symm) (.init rfl)

/-- **The panic is reached** with no operation above `MAXOPBLOCKS` distinct blocks. -/
theorem tooBig_within_maxopblocks : ¬ ∀ s : Group (Fin 3),
    ((system (Fin 3) LOGSIZE).restrict (Within MAXOPBLOCKS)).Reachable s →
      ∀ p, s.pc p ≠ .panicked .tooBig := by
  obtain ⟨s, hs, hp⟩ := fullBudget_reaches
  exact fun h => h s hs 2 hp

/-- **Admission control protects the log exactly below the budget it advertises.**  No run whose
operations stay within `k` distinct blocks reaches `panic("too big a transaction")` iff
`k < MAXOPBLOCKS`; and in any run `log_write` panics exactly when its group has logged
`LOGSIZE - 1` distinct blocks, whether or not its own block is one of them. -/
theorem tooBig_iff (k : ℕ) :
    ((∀ n (s : Group (Fin n)), ((system (Fin n) LOGSIZE).restrict (Within k)).Reachable s →
      ∀ p, s.pc p ≠ .panicked .tooBig) ↔ k < MAXOPBLOCKS) ∧
    ∀ n (s : Group (Fin n)), (system (Fin n) LOGSIZE).Reachable s → ∀ p b, s.pc p = .writeBody b →
      ((s.writeBody LOGSIZE p b).pc p = .panicked .tooBig ↔
        LOGSIZE - 1 ≤ (groupBlocks (current s.hist)).card) := by
  refine ⟨⟨fun h => ?_, fun hk n s hs p => ?_⟩, fun n s hs p b => writeBody_tooBig_iff hs⟩
  · by_contra hk
    obtain ⟨s, hs, hp⟩ := fullBudget_reaches
    exact h 3 s (hs.restrict_mono fun _ _ => Within.mono (not_lt.1 hk)) 2 hp
  · have hs := hs.restrict_mono fun _ _ => Within.mono (Nat.le_sub_one_of_lt hk)
    exact ((reserved_reachable hs).modest p).safe

end Group

end Xv6

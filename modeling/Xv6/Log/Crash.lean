import Xv6.Log.Commit

/-!
# Log/Crash — a crash leaves a transaction done or not done

    old ──write_log──▸ old ──write_head──▸ new ──install_trans, write_head──▸ new

`Redo m lh d`: redoing the blocks `lh` that the header of `d` lists turns the home blocks into `m`.
Every write keeps some `Redo m _` at the same `m`, except the first `write_head` of `commit`.
-/

namespace Xv6

open Machinery Function Ensures List Blocks

/-! ## Lists of block writes -/

def applyWrites (ws : List (ℕ × Block)) (d : Disk) : Disk :=
  ws.foldl (fun d w => update d w.1 w.2) d

@[simp] theorem applyWrites_nil (d : Disk) : applyWrites [] d = d := rfl

@[simp] theorem applyWrites_cons (w : ℕ × Block) (ws : List (ℕ × Block)) (d : Disk) :
    applyWrites (w :: ws) d = applyWrites ws (update d w.1 w.2) := rfl

theorem applyWrites_append (ws vs : List (ℕ × Block)) (d : Disk) :
    applyWrites (ws ++ vs) d = applyWrites vs (applyWrites ws d) :=
  foldl_append

theorem applyWrites_of_notMem {ws : List (ℕ × Block)} {b : ℕ} (h : ∀ w ∈ ws, w.1 ≠ b)
    (d : Disk) : applyWrites ws d b = d b := by
  induction ws generalizing d with
  | nil => rfl
  | cons w ws ih =>
    rw [applyWrites_cons, ih fun x hx => h x (mem_cons_of_mem _ hx),
      update_of_ne (h w mem_cons_self).symm]

/-- **A block whose writes all carry `v` ends up as `v`**, if there is one or it was `v` before. -/
theorem applyWrites_eq_of_forall {ws : List (ℕ × Block)} {b : ℕ} {v : Block}
    (h : ∀ w ∈ ws, w.1 = b → w.2 = v) {d : Disk} (hd : (∃ w ∈ ws, w.1 = b) ∨ d b = v) :
    applyWrites ws d b = v := by
  induction ws generalizing d with
  | nil => exact hd.resolve_left (by simp)
  | cons w ws ih =>
    rw [applyWrites_cons]
    refine ih (fun x hx => h x (mem_cons_of_mem _ hx)) ?_
    by_cases hw : w.1 = b
    · refine Or.inr ?_
      rw [← hw, update_self, h w mem_cons_self hw]
    · rcases hd with ⟨x, hx, hxb⟩ | hd
      · rcases mem_cons.1 hx with rfl | hx
        · exact absurd hxb hw
        · exact Or.inl ⟨x, hx, hxb⟩
      · exact Or.inr (by rw [update_of_ne (Ne.symm hw), hd])

/-! ## The header block -/

theorem getLE_putBlocks_of_le (hb : Block) {off o w : ℕ} (h : o + w ≤ off) (bs : List ℕ) :
    (putBlocks hb off bs).getLE o w = hb.getLE o w := by
  induction bs generalizing hb off with
  | nil => rfl
  | cons b bs ih =>
    rw [putBlocks, ih _ (by omega), Bytes.getLE_putLE_disjoint _ _ (Or.inl h)]

theorem getLE_putBlocks (hb : Block) {off : ℕ} {bs : List ℕ} (hlen : off + 4 * bs.length ≤ BSIZE)
    (hbs : ∀ b ∈ bs, b < 2 ^ 32) {i : ℕ} (hi : i < bs.length) :
    (putBlocks hb off bs).getLE (off + 4 * i) 4 = bs[i] := by
  induction bs generalizing hb off i with
  | nil => simp at hi
  | cons b bs ih =>
    rw [length_cons] at hlen hi
    cases i with
    | zero =>
      rw [putBlocks, show off + 4 * 0 = off by omega, getLE_putBlocks_of_le _ (by omega),
        Bytes.getLE_putLE_same _ _ (by omega), getElem_cons_zero]
      exact Nat.mod_eq_of_lt (hbs b mem_cons_self)
    | succ i =>
      rw [putBlocks, show off + 4 * (i + 1) = off + 4 + 4 * i by omega,
        ih _ (by omega) (fun x hx => hbs x (mem_cons_of_mem _ hx)) (by omega), getElem_cons_succ]

/-- **A header reads back as it was written**, whatever stood in the block before. -/
theorem headBlocks_headWith (hb : Block) {lh : List ℕ} (hlen : lh.length ≤ LOGSIZE)
    (hlh : ∀ b ∈ lh, b < 2 ^ 32) : headBlocks (headWith hb lh) = lh := by
  have hL : lh.length ≤ 30 := hlen
  have hn : (headWith hb lh).getLE 0 4 = lh.length := by
    rw [headWith, getLE_putBlocks_of_le _ (by omega), Bytes.getLE_putLE_same _ _ (by decide)]
    exact Nat.mod_eq_of_lt (by omega)
  have hi : (toInt32 lh.length).toNat = lh.length := by
    rw [toInt32, if_pos (by omega), Int.toNat_natCast]
  rw [headBlocks, hn, hi]
  refine ext_getElem (by simp) fun i h1 h2 => ?_
  rw [getElem_map, getElem_range, headWith, getLE_putBlocks _ (by unfold BSIZE; omega) hlh h2]

theorem headBlocks_headWith_nil (hb : Block) : headBlocks (headWith hb []) = [] :=
  headBlocks_headWith hb (by simp) (by simp)

/-! ## What the functions of the log write

`logCopies` and `homeCopies` are the writes of `write_log` and of `install_trans`, as functions of
the contents they start from. -/

namespace LogState

variable (la : LogArea)

/-- The block writes of `write_log` from `tail` on. -/
def logCopies (c : Disk) (tail : ℕ) : List ℕ → List (ℕ × Block)
  | [] => []
  | b :: bs => (la.start + tail + 1, c b) :: logCopies c (tail + 1) bs

/-- The block writes of `install_trans` from `tail` on. -/
def homeCopies (c : Disk) (tail : ℕ) : List ℕ → List (ℕ × Block)
  | [] => []
  | b :: bs => (b, c (la.start + tail + 1)) :: homeCopies c (tail + 1) bs

variable {la} {lru : Cache → Option ℕ}

/-- **The effect of a piece of log code**: the writes `ws` reached the disk and the cache, in this
order. -/
structure Wrote (s t : Blocks) (ws : List (ℕ × Block)) : Prop where
  clean : t.Clean
  disk : t.disk = applyWrites ws s.disk
  contents : t.contents = applyWrites ws s.contents
  trace : t.trace = s.trace ++ ws

variable {s t : Blocks} {ws ops : List (ℕ × Block)} {bs lh : List ℕ} {c c' d m : Disk} {tail i b : ℕ}

theorem Wrote.refl (hc : s.Clean) : Wrote s s [] :=
  ⟨hc, rfl, rfl, (append_nil _).symm⟩

theorem Wrote.trans {u : Blocks} {vs : List (ℕ × Block)} (h : Wrote s t ws)
    (h' : Wrote t u vs) : Wrote s u (ws ++ vs) where
  clean := h'.clean
  disk := by rw [h'.disk, h.disk, applyWrites_append]
  contents := by rw [h'.contents, h.contents, applyWrites_append]
  trace := by rw [h'.trace, h.trace, append_assoc]

theorem wrote_bread_brelse (hc : s.Clean) (b : ℕ) : Wrote s ((s.bread lru b).brelse b) [] where
  clean := by
    refine brelse_clean (bread_clean hc) fun h => ?_
    rw [bread_contents hc, bread_disk]
    rw [bread_refs, update_self] at h
    exact hc b (by omega)
  disk := by rw [brelse_disk, bread_disk]; rfl
  contents := by rw [brelse_contents, bread_contents hc]; rfl
  trace := by rw [brelse_trace, bread_trace, append_nil]

/-- **One copied block**: `y` has `x`'s contents, in the cache and on the disk, and may have lost
references. -/
theorem wrote_copy (hc : s.Clean) {x y : ℕ} (hdisk : t.disk = update s.disk y (s.contents x))
    (hcontents : t.contents = update s.contents y (s.contents x))
    (htrace : t.trace = s.trace ++ [(y, s.contents x)])
    (hrefs : ∀ b, b ≠ y → t.refs b = s.refs b) : Wrote s t [(y, s.contents x)] where
  clean := by
    intro b hb
    rw [hcontents, hdisk]
    by_cases h : b = y
    · subst h
      rw [update_self, update_self]
    · rw [update_of_ne h, update_of_ne h]
      exact hc b (by rw [← hrefs b h, hb])
  disk := hdisk
  contents := hcontents
  trace := htrace

section Copy

variable {s : Blocks} {x y : ℕ}

/-- Both blocks read: the contents are as before and both buffers are held. -/
theorem bread_bread (lru : Cache → Option ℕ) (hc : s.Clean) (hxy : x ≠ y) :
    ((s.bread lru x).bread lru y).Clean ∧ ((s.bread lru x).bread lru y).contents = s.contents
      ∧ ((s.bread lru x).bread lru y).refs
          = update (update s.refs x (s.refs x + 1)) y (s.refs y + 1) := by
  have h1 : (s.bread lru x).Clean := bread_clean hc
  refine ⟨bread_clean h1, ?_, ?_⟩
  · rw [bread_contents h1, bread_contents hc]
  · rw [bread_refs, bread_refs, update_of_ne hxy.symm]

theorem wrote_writeLog_step (lru : Cache → Option ℕ) (hc : s.Clean) (hxy : x ≠ y) :
    Wrote s ((((((s.bread lru y).bread lru x).memmove y
      (((s.bread lru y).bread lru x).contents x)).bwrite y).brelse x).brelse y)
      [(y, s.contents x)] := by
  obtain ⟨-, hcon, hrefs⟩ := bread_bread lru hc hxy.symm
  have hpos : 0 < ((s.bread lru y).bread lru x).refs y := by
    rw [hrefs, update_of_ne hxy.symm, update_self]
    omega
  have hmem := memmove_contents (v := ((s.bread lru y).bread lru x).contents x) hpos
  rw [hcon] at hmem
  refine wrote_copy hc ?_ ?_ ?_ fun b hb => ?_
  · rw [brelse_disk, brelse_disk, bwrite_disk, hcon, hmem, update_self,
      memmove_disk, bread_disk, bread_disk]
  · rw [brelse_contents, brelse_contents, bwrite_contents, hcon, hmem]
  · rw [brelse_trace, brelse_trace, bwrite_trace, hcon, hmem, update_self,
      memmove_trace, bread_trace, bread_trace]
  · rw [brelse_refs, update_of_ne hb, brelse_refs, bwrite_refs, memmove_refs, hrefs]
    by_cases h : b = x
    · subst h
      rw [update_self, update_self]
      omega
    · rw [update_of_ne h, update_of_ne h, update_of_ne hb]

theorem wrote_install_step (lru : Cache → Option ℕ) (hc : s.Clean) (hxy : x ≠ y)
    (recovering : Bool) :
    let u := (((s.bread lru x).bread lru y).memmove y
      (((s.bread lru x).bread lru y).contents x)).bwrite y
    Wrote s (((if recovering then u else u.bunpin y).brelse x).brelse y) [(y, s.contents x)] := by
  intro u
  obtain ⟨-, hcon, hrefs⟩ := bread_bread lru hc hxy
  have hpos : 0 < ((s.bread lru x).bread lru y).refs y := by
    rw [hrefs, update_self]
    omega
  have hmem := memmove_contents (v := ((s.bread lru x).bread lru y).contents x) hpos
  rw [hcon] at hmem
  have hudisk : u.disk = update s.disk y (s.contents x) := by
    rw [bwrite_disk, hcon, hmem, update_self, memmove_disk, bread_disk, bread_disk]
  have hucon : u.contents = update s.contents y (s.contents x) := by
    rw [bwrite_contents, hcon, hmem]
  have hutrace : u.trace = s.trace ++ [(y, s.contents x)] := by
    rw [bwrite_trace, hcon, hmem, update_self, memmove_trace, bread_trace, bread_trace]
  have hurefs : ∀ b, b ≠ y → u.refs b = update s.refs x (s.refs x + 1) b := fun b hb => by
    rw [bwrite_refs, memmove_refs, hrefs, update_of_ne hb]
  have hrel : ∀ v : Blocks, v.refs x = s.refs x + 1 → (∀ b, b ≠ y → v.refs b = u.refs b) →
      ∀ b, b ≠ y → ((v.brelse x).brelse y).refs b = s.refs b := fun v hx hv b hb => by
    rw [brelse_refs, update_of_ne hb, brelse_refs]
    by_cases h : b = x
    · subst h
      rw [update_self, hx]
      omega
    · rw [update_of_ne h, hv b hb, hurefs b hb, update_of_ne h]
  have hux : u.refs x = s.refs x + 1 := by rw [hurefs x hxy, update_self]
  cases recovering with
  | true =>
    refine wrote_copy hc ?_ ?_ ?_ (hrel u hux fun _ _ => rfl)
    · exact hudisk
    · exact brelse_contents.trans (brelse_contents.trans hucon)
    · exact hutrace
  | false =>
    have hup : ∀ b, b ≠ y → (u.bunpin y).refs b = u.refs b := fun b hb => by
      rw [Blocks.bunpin, brelse_refs, update_of_ne hb]
    refine wrote_copy hc ?_ ?_ ?_ (hrel (u.bunpin y) ((hup x hxy).trans hux) hup)
    · exact hudisk
    · exact brelse_contents.trans
        (brelse_contents.trans (brelse_contents.trans hucon))
    · exact hutrace

end Copy

theorem logCopies_congr (h : ∀ b ∈ bs, c b = c' b) (tail : ℕ) :
    logCopies la c tail bs = logCopies la c' tail bs := by
  induction bs generalizing tail with
  | nil => rfl
  | cons b bs ih =>
    rw [logCopies, logCopies, h b mem_cons_self, ih fun x hx => h x (mem_cons_of_mem _ hx)]

theorem homeCopies_congr
    (h : ∀ i, tail ≤ i → i < tail + bs.length → c (la.start + i + 1) = c' (la.start + i + 1)) :
    homeCopies la c tail bs = homeCopies la c' tail bs := by
  induction bs generalizing tail with
  | nil => rfl
  | cons b bs ih =>
    rw [length_cons] at h
    rw [homeCopies, homeCopies, h tail le_rfl (by omega),
      ih fun i hi hi' => h i (by omega) (by omega)]

theorem mem_logBlock (h : i + 1 < la.size) : la.Mem (la.start + i + 1) :=
  ⟨by omega, by omega⟩

/-- A home block is not the header. -/
theorem ne_start (hb : ¬ la.Mem b) : b ≠ la.start :=
  fun h => hb ⟨h.ge, by have := la.nonempty; omega⟩

/-- **`write_log` writes the copies**, from any position of its loop on. -/
theorem wrote_writeLogFrom (hc : s.Clean) (hout : ∀ b ∈ bs, ¬ la.Mem b) (hroom : tail + bs.length < la.size) :
    Wrote s (writeLogFrom la lru s tail bs) (logCopies la s.contents tail bs) := by
  induction bs generalizing s tail with
  | nil => exact Wrote.refl hc
  | cons b bs ih =>
    rw [length_cons] at hroom
    have hmem : la.Mem (la.start + tail + 1) := mem_logBlock (by omega)
    have hne : ∀ x ∈ b :: bs, x ≠ la.start + tail + 1 := fun x hx h => hout x hx (h ▸ hmem)
    have h1 := wrote_writeLog_step lru hc (hne b mem_cons_self)
    have h2 := ih h1.clean (fun x hx => hout x (mem_cons_of_mem _ hx))
      (show tail + 1 + bs.length < la.size by omega)
    have hsame : ∀ x ∈ bs, applyWrites [(la.start + tail + 1, s.contents b)] s.contents x
        = s.contents x := fun x hx => by
      rw [applyWrites_cons, applyWrites_nil, update_of_ne (hne x (mem_cons_of_mem _ hx))]
    rw [h1.contents, logCopies_congr hsame] at h2
    exact h1.trans h2

/-- **`install_trans` writes the blocks home**, from any position of its loop on. -/
theorem wrote_installFrom (hc : s.Clean) (recovering : Bool)
    (hout : ∀ b ∈ bs, ¬ la.Mem b) (hroom : tail + bs.length < la.size) :
    Wrote s (installFrom la lru recovering s tail bs) (homeCopies la s.contents tail bs) := by
  induction bs generalizing s tail with
  | nil => exact Wrote.refl hc
  | cons b bs ih =>
    rw [length_cons] at hroom
    have hne : ∀ i, i + 1 < la.size → la.start + i + 1 ≠ b := fun i hi h =>
      hout b mem_cons_self (h ▸ mem_logBlock hi)
    have h1 := wrote_install_step lru hc (hne tail (by omega)) recovering
    have h2 := ih h1.clean (fun x hx => hout x (mem_cons_of_mem _ hx))
      (show tail + 1 + bs.length < la.size by omega)
    have hsame : ∀ i, tail + 1 ≤ i → i < tail + 1 + bs.length →
        applyWrites [(b, s.contents (la.start + tail + 1))] s.contents (la.start + i + 1)
          = s.contents (la.start + i + 1) := fun i _ hi => by
      rw [applyWrites_cons, applyWrites_nil, update_of_ne (hne i (by omega))]
    rw [h1.contents, homeCopies_congr hsame] at h2
    exact h1.trans h2

theorem wrote_writeHead (la : LogArea) (lru : Cache → Option ℕ) {s : LogState} (hc : s.Clean) :
    Wrote s.toBlocks (writeHead la lru s).toBlocks
      [(la.start, headWith (s.contents la.start) s.lh)] := by
  have hc1 : (s.toBlocks.bread lru la.start).Clean := bread_clean hc
  have hcon : (s.toBlocks.bread lru la.start).contents = s.contents := bread_contents hc
  have hpos : 0 < (s.toBlocks.bread lru la.start).refs la.start := by
    rw [bread_refs, update_self]
    omega
  set v := headWith (s.contents la.start) s.lh with hv
  have hmem := memmove_contents (v := v) hpos
  have heq : (writeHead la lru s).toBlocks
      = (((s.toBlocks.bread lru la.start).memmove la.start v).bwrite la.start).brelse la.start := by
    rw [hv, ← hcon]
    rfl
  rw [hcon] at hmem
  have hdisk : (writeHead la lru s).disk = update s.disk la.start v := by
    rw [heq, brelse_disk, bwrite_disk, hmem, update_self, memmove_disk, bread_disk]
  have hcontents : (writeHead la lru s).contents = update s.contents la.start v := by
    rw [heq, brelse_contents, bwrite_contents, hmem]
  refine ⟨fun b hb => ?_, hdisk, hcontents, ?_⟩
  · rw [hcontents, hdisk]
    by_cases h : b = la.start
    · subst h
      rw [update_self, update_self]
    · rw [update_of_ne h, update_of_ne h]
      refine hc b ?_
      rwa [heq, brelse_refs, update_of_ne h, bwrite_refs, memmove_refs,
        bread_refs, update_of_ne h] at hb
  · rw [heq, brelse_trace, bwrite_trace, hmem, update_self, memmove_trace, bread_trace]

theorem logCopies_fst {w : ℕ × Block} (h : w ∈ logCopies la c tail bs) :
    la.start + tail + 1 ≤ w.1 ∧ w.1 < la.start + tail + 1 + bs.length := by
  induction bs generalizing tail with
  | nil => cases h
  | cons b bs ih =>
    rw [logCopies, mem_cons] at h
    rw [length_cons]
    rcases h with rfl | h
    · exact ⟨le_rfl, by omega⟩
    · have := ih h
      omega

theorem homeCopies_fst {w : ℕ × Block} (h : w ∈ homeCopies la c tail bs) : w.1 ∈ bs := by
  induction bs generalizing tail with
  | nil => cases h
  | cons b bs ih =>
    rcases mem_cons.1 h with rfl | h
    · exact mem_cons_self
    · exact mem_cons_of_mem _ (ih h)

/-- **The writes of `commit`**, in issue order: the copies, the header, the blocks home, the empty
header. -/
def commitWrites (la : LogArea) (c : Disk) (lh : List ℕ) : List (ℕ × Block) :=
  logCopies la c 0 lh ++ [(la.start, headWith (c la.start) lh)] ++ (lh.map fun b => (b, c b))
    ++ [(la.start, headWith (headWith (c la.start) lh) [])]

theorem applyWrites_logCopies (d : Disk) (hi : tail ≤ i) (hi' : i - tail < bs.length) :
    applyWrites (logCopies la c tail bs) d (la.start + i + 1) = c bs[i - tail] := by
  induction bs generalizing d tail with
  | nil => simp at hi'
  | cons b bs ih =>
    rw [logCopies, applyWrites_cons]
    rcases Nat.eq_or_lt_of_le hi with rfl | hlt
    · have hne : ∀ w ∈ logCopies la c (tail + 1) bs, w.1 ≠ la.start + tail + 1 := by
        intro w hw h
        have := logCopies_fst hw
        omega
      rw [applyWrites_of_notMem hne, update_self]
      simp
    · rw [length_cons] at hi'
      have hsub : i - tail = i - (tail + 1) + 1 := by omega
      rw [ih _ hlt (by omega)]
      simp only [hsub, getElem_cons_succ]

theorem homeCopies_eq {v : Disk} (h : ∀ i (hi : i < bs.length), c (la.start + (tail + i) + 1) = v bs[i]) :
    homeCopies la c tail bs = bs.map fun b => (b, v b) := by
  induction bs generalizing tail with
  | nil => rfl
  | cons b bs ih =>
    have h0 : c (la.start + tail + 1) = v b := h 0 (by simp)
    rw [homeCopies, map_cons, h0, ih fun i hi => ?_]
    have := h (i + 1) (by simpa using hi)
    rw [getElem_cons_succ] at this
    rwa [show tail + 1 + i = tail + (i + 1) by omega]

/-- **`commit` performs `commitWrites`.** -/
theorem wrote_commit {s : LogState} (hc : s.Clean) (hn : 0 < s.lh.length)
    (hout : ∀ b ∈ s.lh, ¬ la.Mem b) (hroom : s.lh.length < la.size) :
    Wrote s.toBlocks (commit la lru s).toBlocks (commitWrites la s.contents s.lh) := by
  have hstart : la.Mem la.start := ⟨le_rfl, by omega⟩
  have h1 : Wrote s.toBlocks (writeLog la lru s).toBlocks (logCopies la s.contents 0 s.lh) :=
    wrote_writeLogFrom hc hout (by omega)
  have hc1 : (writeLog la lru s).contents la.start = s.contents la.start := by
    rw [h1.contents, applyWrites_of_notMem fun w hw h => ?_]
    have := logCopies_fst hw
    omega
  have h2 := wrote_writeHead la lru h1.clean
  rw [hc1, show (writeLog la lru s).lh = s.lh from rfl] at h2
  set s2 := writeHead la lru (writeLog la lru s) with hs2
  have hc2 : ∀ i (hi : i < s.lh.length),
      s2.contents (la.start + (0 + i) + 1) = s.contents s.lh[i] := fun i hi => by
    rw [h2.contents, applyWrites_cons, applyWrites_nil, update_of_ne (by omega), h1.contents,
      applyWrites_logCopies s.contents (Nat.zero_le (0 + i)) (by omega)]
    simp
  have h3 : Wrote s2.toBlocks (installTrans la lru false s2).toBlocks
      (s.lh.map fun b => (b, s.contents b)) := by
    have h : Wrote s2.toBlocks (installTrans la lru false s2).toBlocks
        (homeCopies la s2.contents 0 s.lh) :=
      wrote_installFrom h2.clean false hout (show 0 + s.lh.length < la.size by omega)
    rwa [homeCopies_eq hc2] at h
  have hc3 : (installTrans la lru false s2).contents la.start
      = headWith (s.contents la.start) s.lh := by
    rw [h3.contents, applyWrites_of_notMem fun w hw h => ?_, h2.contents, applyWrites_cons,
      applyWrites_nil, update_self]
    obtain ⟨b, hb, rfl⟩ := mem_map.1 hw
    exact hout b hb ((show b = la.start from h) ▸ hstart)
  have h4 : Wrote (installTrans la lru false s2).toBlocks
      (writeHead la lru { installTrans la lru false s2 with lh := [] }).toBlocks
      [(la.start, headWith ((installTrans la lru false s2).contents la.start) [])] :=
    wrote_writeHead la lru (s := { installTrans la lru false s2 with lh := [] }) h3.clean
  rw [hc3] at h4
  have hcommit : commit la lru s = writeHead la lru { installTrans la lru false s2 with lh := [] } :=
    if_pos hn
  rw [hcommit]
  exact ((h1.trans h2).trans h3).trans h4

/-! ## What a disk will be recovered to

The header is cleared after the last write home, so until then the log can be redone. -/

/-- **Redoing the log turns the home blocks into `m`**: the log holds `m`'s contents for the blocks
`lh` of the header, and the other home blocks are `m`'s. -/
structure Redo (la : LogArea) (m : Disk) (lh : List ℕ) (d : Disk) : Prop where
  head : headBlocks (d la.start) = lh
  room : lh.length < la.size
  out : ∀ b ∈ lh, ¬ la.Mem b
  copy : ∀ i (hi : i < lh.length), d (la.start + i + 1) = m lh[i]
  home : ∀ b, ¬ la.Mem b → b ∉ lh → d b = m b

/-- With an empty header there is nothing to redo: the home blocks are `m`. -/
theorem redo_nil (hhead : headBlocks (d la.start) = [])
    (hhome : ∀ b, ¬ la.Mem b → d b = m b) : Redo la m [] d :=
  ⟨hhead, la.nonempty, by simp, by simp, fun b hb _ => hhome b hb⟩

theorem Redo.applyWrites (h : Redo la m lh d)
    (hws : ∀ w ∈ ws, w.1 ∈ lh) : Redo la m lh (applyWrites ws d) := by
  have hkeep : ∀ x, (la.Mem x ∨ x ∉ lh) → Xv6.applyWrites ws d x = d x := fun x hx => by
    refine applyWrites_of_notMem (fun w hw e => ?_) d
    have hl : x ∈ lh := e ▸ hws w hw
    exact hx.elim (h.out x hl) fun hn => hn hl
  have hr := h.room
  refine ⟨?_, hr, h.out, fun i hi => ?_, fun b hb hbl => ?_⟩
  · rw [hkeep _ (Or.inl ⟨le_rfl, by omega⟩), h.head]
  · rw [hkeep _ (Or.inl (mem_logBlock (by omega))), h.copy i hi]
  · rw [hkeep b (Or.inr hbl), h.home b hb hbl]

/-- …and all of them, followed by the empty header, finish the job. -/
theorem Redo.finish (h : Redo la m lh d) (hb : Block) :
    Redo la m [] (Function.update (Xv6.applyWrites (lh.map fun b => (b, m b)) d) la.start
      (headWith hb [])) := by
  refine redo_nil (by rw [update_self, headBlocks_headWith_nil]) fun b hbm => ?_
  rw [update_of_ne (ne_start hbm)]
  refine applyWrites_eq_of_forall (fun w hw e => ?_) ?_
  · obtain ⟨x, -, rfl⟩ := mem_map.1 hw
    rw [← e]
  · by_cases hl : b ∈ lh
    · exact Or.inl ⟨_, mem_map.2 ⟨b, hl, rfl⟩, rfl⟩
    · exact Or.inr (h.home b hbm hl)

theorem take_append_singleton {α : Type*} (ws : List α) (w : α) (j : ℕ) :
    (ws ++ [w]).take j = ws.take j ∨ (ws ++ [w]).take j = ws ++ [w] := by
  rcases lt_or_ge ws.length j with h | h
  · exact Or.inr (take_of_length_le (by rw [length_append]; exact h))
  · exact Or.inl (take_append_of_le_length h)

/-- **The writes home and the clearing of the header may be cut anywhere.** -/
theorem Redo.take (h : Redo la m lh d) (hb : Block) (j : ℕ) : ∃ lh', Redo la m lh' (Xv6.applyWrites
      (((lh.map fun b => (b, m b)) ++ [(la.start, headWith hb [])]).take j) d) := by
  rcases take_append_singleton (lh.map fun b => (b, m b)) (la.start, headWith hb []) j with e | e
  · refine ⟨lh, e ▸ h.applyWrites fun w hw => ?_⟩
    obtain ⟨b, hb, rfl⟩ := mem_map.1 (mem_of_mem_take hw)
    exact hb
  · rw [e, applyWrites_append]
    exact ⟨[], h.finish hb⟩

/-! ## Recovery

A crash may cut recovery, too, after any number of its writes. -/

theorem clean_boot (d : Disk) : (boot d).Clean := fun _ _ => rfl

/-- **What `recover_from_log` writes**: the logged blocks home, then the empty header. -/
theorem wrote_recover (lru : Cache → Option ℕ)
    (hhead : headBlocks (d la.start) = lh) (hout : ∀ b ∈ lh, ¬ la.Mem b) (hroom : lh.length < la.size) :
    Wrote (boot d).toBlocks (recoverFromLog la lru (boot d)).toBlocks
      (homeCopies la d 0 lh ++ [(la.start, headWith (d la.start) [])]) := by
  have h1 : Wrote (boot d).toBlocks (readHead la lru (boot d)).toBlocks [] :=
    wrote_bread_brelse (clean_boot d) la.start
  have hlh : (readHead la lru (boot d)).lh = lh := by
    change headBlocks (((boot d).toBlocks.bread lru la.start).contents la.start) = lh
    rw [bread_contents (clean_boot d)]
    exact hhead
  have hcon : (readHead la lru (boot d)).contents = d := h1.contents
  have h2 : Wrote (readHead la lru (boot d)).toBlocks
      (installTrans la lru true (readHead la lru (boot d))).toBlocks (homeCopies la d 0 lh) := by
    have h : Wrote (readHead la lru (boot d)).toBlocks
        (installFrom la lru true (readHead la lru (boot d)).toBlocks 0 lh)
        (homeCopies la (readHead la lru (boot d)).contents 0 lh) :=
      wrote_installFrom h1.clean true hout (show 0 + lh.length < la.size by omega)
    rw [hcon] at h
    rwa [installTrans, hlh]
  set s2 := installTrans la lru true (readHead la lru (boot d)) with hs2
  have hstart : s2.contents la.start = d la.start := by
    rw [h2.contents, hcon, applyWrites_of_notMem fun w hw => ?_]
    exact ne_start (hout _ (homeCopies_fst hw))
  have h3 : Wrote s2.toBlocks (writeHead la lru { s2 with lh := [] }).toBlocks
      [(la.start, headWith (s2.contents la.start) [])] :=
    wrote_writeHead la lru (s := { s2 with lh := [] }) h2.clean
  rw [hstart] at h3
  exact (h1.trans h2).trans h3

/-- …which on a disk to be redone are the writes that finish the job. -/
theorem Redo.wrote (lru : Cache → Option ℕ) (h : Redo la m lh d) :
    Wrote (boot d).toBlocks (recoverFromLog la lru (boot d)).toBlocks
      ((lh.map fun b => (b, m b)) ++ [(la.start, headWith (d la.start) [])]) := by
  have hcopy : homeCopies la d 0 lh = lh.map fun b => (b, m b) :=
    homeCopies_eq fun i hi => by rw [zero_add]; exact h.copy i hi
  rw [← hcopy]
  exact wrote_recover lru h.head h.out h.room

/-- **Recovery, crashed and restarted any number of times**: `d'` is the disk after it has
completed. -/
inductive Recovers (la : LogArea) (lru : Cache → Option ℕ) : Disk → Disk → Prop
  | done (d : Disk) : Recovers la lru d (recoverFromLog la lru (boot d)).disk
  | crash {d d' : Disk} (j : ℕ) :
      Recovers la lru (applyWrites ((recoverFromLog la lru (boot d)).trace.take j) d) d' →
      Recovers la lru d d'

/-- **However often recovery is restarted, it ends in the same home blocks.** -/
theorem Redo.recovers {d' : Disk} {lru : Cache → Option ℕ}
    (h : Redo la m lh d) (hr : Recovers la lru d d') : Redo la m [] d' := by
  induction hr generalizing lh with
  | done d =>
    have hw := h.wrote lru
    rw [hw.disk, applyWrites_append]
    exact h.finish _
  | @crash d _ j _ ih =>
    have hw := h.wrote lru
    have htrace : (recoverFromLog la lru (boot d)).trace
        = (lh.map fun b => (b, m b)) ++ [(la.start, headWith (d la.start) [])] := hw.trace
    obtain ⟨lh', h'⟩ := h.take (d la.start) j
    rw [← htrace] at h'
    exact ih h'

/-! ## The transaction

Up to `commit` the updates are in the cache only. -/

/-- **The state after the updates `ops`**: the disk is still `d`, the cache has the new contents,
and the header lists the updated blocks, each pinned. -/
structure InTrans (la : LogArea) (d : Disk) (ops : List (ℕ × Block)) (s : LogState) : Prop where
  clean : s.Clean
  disk : s.disk = d
  contents : s.contents = applyWrites ops d
  trace : s.trace = []
  pinned : ∀ b ∈ s.lh, 0 < s.refs b
  mem : ∀ b, b ∈ s.lh ↔ ∃ op ∈ ops, op.1 = b
  room : s.lh.length ≤ LOGSIZE ∧ s.lh.length ≤ la.size - 1
  inside : 1 ≤ s.outstanding

theorem logWrite_eq (la : LogArea) (b : ℕ) (s : LogState) :
    logWrite la b s =
      if LOGSIZE ≤ s.lh.length ∨ la.size - 1 ≤ s.lh.length then .error .tooBig
      else if s.outstanding < 1 then .error .outsideOfTrans
      else if b ∈ s.lh then .ok ((), s)
      else .ok ((), { s with toBlocks := s.toBlocks.bpin b, lh := s.lh ++ [b] }) := by
  unfold logWrite
  simp only [bind, StateT.bind, MonadState.get, getThe, MonadStateOf.get, StateT.get, Except.bind,
    pure, Except.pure]
  split_ifs <;> rfl

theorem InTrans.release {s : LogState} (h : InTrans la d ops s) {v : Block} (hclean : t.Clean)
    (hdisk : t.disk = d) (hcon : t.contents = applyWrites (ops ++ [(b, v)]) d)
    (htrace : t.trace = []) (hheld : 2 ≤ t.refs b) (hrefs : ∀ x, x ≠ b → t.refs x = s.refs x)
    (hlh : ∀ x, x ∈ lh ↔ x ∈ s.lh ∨ x = b) (hroom : lh.length ≤ LOGSIZE ∧ lh.length ≤ la.size - 1) :
    InTrans la d (ops ++ [(b, v)]) { s with toBlocks := t.brelse b, lh := lh } where
  clean := brelse_clean hclean fun hle => by omega
  disk := hdisk
  contents := brelse_contents.trans hcon
  trace := htrace
  pinned x hx := by
    change 0 < (t.brelse b).refs x
    rw [brelse_refs]
    by_cases e : x = b
    · subst e
      rw [update_self]
      omega
    · rw [update_of_ne e, hrefs x e]
      exact h.pinned x (((hlh x).1 hx).resolve_right e)
  mem x := by
    rw [hlh, h.mem]
    constructor
    · rintro (⟨op, hop, rfl⟩ | rfl)
      · exact ⟨op, mem_append_left _ hop, rfl⟩
      · exact ⟨_, mem_append_right _ mem_cons_self, rfl⟩
    · rintro ⟨op, hop, rfl⟩
      rcases mem_append.1 hop with hop | hop
      · exact Or.inl ⟨op, hop, rfl⟩
      · exact Or.inr (by rw [mem_singleton.1 hop])
  room := hroom
  inside := h.inside

/-- **One update of a transaction**: it is recorded, or the log is full. -/
theorem InTrans.logUpdate {s : LogState}
    (lru : Cache → Option ℕ) (h : InTrans la d ops s) (op : ℕ × Block) : Ensures (logUpdate la lru op) s
      (fun _ t => InTrans la d (ops ++ [op]) t ∧ t.lh.length ≤ s.lh.length + 1)
      (fun _ => LOGSIZE ≤ s.lh.length ∨ la.size - 1 ≤ s.lh.length) := by
  obtain ⟨b, v⟩ := op
  set t := (s.toBlocks.bread lru b).memmove b v with ht
  have hrefs : t.refs = update s.refs b (s.refs b + 1) := by
    rw [ht, memmove_refs, bread_refs]
  have hheld : 0 < (s.toBlocks.bread lru b).refs b := by
    rw [bread_refs, update_self]
    omega
  have hclean : t.Clean := memmove_clean (bread_clean h.clean) hheld
  have hcon : t.contents = applyWrites (ops ++ [(b, v)]) d := by
    rw [ht, memmove_contents hheld, bread_contents h.clean, h.contents, applyWrites_append]
    rfl
  have hdisk : t.disk = d := by
    rw [ht, memmove_disk, bread_disk, h.disk]
  have htrace : t.trace = [] := by
    rw [ht, memmove_trace, bread_trace, h.trace]
  have hother : ∀ x, x ≠ b → t.refs x = s.refs x := fun x hx => by rw [hrefs, update_of_ne hx]
  have heq := logWrite_eq la b { s with toBlocks := t }
  rw [LogState.logUpdate, bind_iff, modify_iff, bind_iff]
  simp only [modify_iff]
  change Ensures (logWrite la b) { s with toBlocks := t } (fun _ u =>
    InTrans la d (ops ++ [(b, v)]) { u with toBlocks := u.toBlocks.brelse b }
      ∧ u.lh.length ≤ s.lh.length + 1) _
  by_cases hfull : LOGSIZE ≤ s.lh.length ∨ la.size - 1 ≤ s.lh.length
  · rw [if_pos hfull] at heq
    exact (error_iff heq).2 hfull
  rw [if_neg hfull, if_neg (not_lt.2 h.inside)] at heq
  by_cases hb : b ∈ s.lh
  · rw [if_pos hb] at heq
    have hpin := h.pinned b hb
    refine (ok_iff heq).2 ⟨h.release hclean hdisk hcon htrace ?_ hother (fun x => ?_)
      h.room, Nat.le_succ _⟩
    · rw [hrefs, update_self]
      omega
    · exact ⟨Or.inl, fun hx => hx.elim id fun e => e ▸ hb⟩
  · rw [if_neg hb] at heq
    have hpos : 0 < t.refs b := by
      rw [hrefs, update_self]
      omega
    have hprefs : (t.bpin b).refs = update t.refs b (t.refs b + 1) := bpin_refs hpos
    have hlen : (s.lh ++ [b]).length = s.lh.length + 1 := by rw [length_append]; rfl
    refine (ok_iff heq).2 ⟨h.release (bpin_clean hclean hpos) hdisk
      (bpin_contents.trans hcon) htrace ?_ (fun x hx => ?_) (fun x => ?_) ?_, hlen.le⟩
    · rw [hprefs, update_self]
      omega
    · rw [hprefs, update_of_ne hx, hother x hx]
    · rw [mem_append, mem_singleton]
    · rw [hlen]
      omega

/-- **A whole transaction**: every update is recorded, or the log fills up. -/
theorem InTrans.logUpdates (lru : Cache → Option ℕ) {ops' : List (ℕ × Block)}
    {s : LogState} (h : InTrans la d ops s) :
    Ensures (logUpdates la lru ops') s (fun _ t => InTrans la d (ops ++ ops') t)
      (fun _ => LOGSIZE < s.lh.length + ops'.length ∨ la.size - 1 < s.lh.length + ops'.length) := by
  induction ops' generalizing ops s with
  | nil =>
    rw [LogState.logUpdates, pure_iff, append_nil]
    exact h
  | cons op ops' ih =>
    rw [LogState.logUpdates]
    refine Ensures.bind ((h.logUpdate lru op).mono (fun _ _ => id) fun _ he => ?_) ?_
    · rw [length_cons]
      omega
    · rintro - t ⟨ht, hlen⟩
      refine (ih ht).mono (fun _ u hu => ?_) fun _ he => ?_
      · rwa [append_assoc] at hu
      · rw [length_cons]
        omega

/-! ## Crash atomicity -/

section Commit

variable {d : Disk} {ops : List (ℕ × Block)} {s : LogState}

theorem InTrans.length_lt (h : InTrans la d ops s) : s.lh.length < la.size := by
  have := h.room.2
  have := la.nonempty
  omega

theorem InTrans.out (h : InTrans la d ops s) (hops : ∀ op ∈ ops, ¬ la.Mem op.1) :
    ∀ b ∈ s.lh, ¬ la.Mem b := fun b hb => by
  obtain ⟨op, hop, rfl⟩ := (h.mem b).1 hb
  exact hops op hop

/-- **Before the header is written the old contents are recovered.** -/
theorem InTrans.redo_old (h : InTrans la d ops s) (hhead : headBlocks (d la.start) = [])
    (k : ℕ) : Redo la d [] (applyWrites ((logCopies la s.contents 0 s.lh).take k) d) := by
  have hlen := h.length_lt
  have hkeep : ∀ b, (¬ la.Mem b ∨ b = la.start) →
      applyWrites ((logCopies la s.contents 0 s.lh).take k) d b = d b := fun b hb => by
    refine applyWrites_of_notMem (fun w hw e => ?_) d
    have hw' := logCopies_fst (mem_of_mem_take hw)
    rcases hb with hb | hb
    · exact hb ⟨by omega, by omega⟩
    · omega
  exact redo_nil (by rw [hkeep _ (Or.inr rfl), hhead]) fun b hb => hkeep b (Or.inl hb)

/-- **Once the header is written the new contents are recovered.** -/
theorem InTrans.redo_new (h : InTrans la d ops s)
    (hops : ∀ op ∈ ops, op.1 < 2 ^ 32 ∧ ¬ la.Mem op.1) :
    Redo la s.contents s.lh (applyWrites (logCopies la s.contents 0 s.lh
      ++ [(la.start, headWith (s.contents la.start) s.lh)]) d) := by
  have hlen := h.length_lt
  have hsmall : ∀ b ∈ s.lh, b < 2 ^ 32 := fun b hb => by
    obtain ⟨op, hop, rfl⟩ := (h.mem b).1 hb
    exact (hops op hop).1
  rw [applyWrites_append]
  refine ⟨?_, hlen, h.out fun op hop => (hops op hop).2, fun i hi => ?_, fun b hb hbl => ?_⟩
  · rw [applyWrites_cons, applyWrites_nil, update_self, headBlocks_headWith _ h.room.1 hsmall]
  · rw [applyWrites_cons, applyWrites_nil, update_of_ne (by omega),
      applyWrites_logCopies d (Nat.zero_le i) (by simpa using hi)]
    simp
  · rw [applyWrites_cons, applyWrites_nil, update_of_ne (ne_start hb),
      applyWrites_of_notMem (fun w hw e => ?_), h.contents, applyWrites_of_notMem fun op hop e => ?_]
    · exact hbl ((h.mem b).2 ⟨op, hop, e⟩)
    · have := logCopies_fst hw
      exact hb ⟨by omega, by omega⟩

/-- **Wherever `commit` is cut, the disk is to be recovered to the old contents or, exactly when the
first `write_head` got through, to the new ones.** -/
theorem InTrans.redo_take (h : InTrans la d ops s) (lru : Cache → Option ℕ)
    (hhead : headBlocks (d la.start) = [])
    (hops : ∀ op ∈ ops, op.1 < 2 ^ 32 ∧ ¬ la.Mem op.1) (k : ℕ) :
    ((∃ w ∈ (commit la lru s).trace.take k, w.1 = la.start) ∧
      ∃ lh, Redo la (applyWrites ops d) lh (applyWrites ((commit la lru s).trace.take k) d)) ∨
    ((¬ ∃ w ∈ (commit la lru s).trace.take k, w.1 = la.start) ∧
      Redo la d [] (applyWrites ((commit la lru s).trace.take k) d)) := by
  rcases Nat.eq_zero_or_pos s.lh.length with hn | hn
  · have hcommit : commit la lru s = s := if_neg (by omega)
    rw [hcommit, h.trace, take_nil]
    exact Or.inr ⟨by simp, redo_nil hhead fun _ _ => rfl⟩
  have htrace : (commit la lru s).trace = commitWrites la s.contents s.lh := by
    rw [(wrote_commit h.clean hn (h.out fun op hop => (hops op hop).2) h.length_lt).trace, h.trace,
      nil_append]
  set L := logCopies la s.contents 0 s.lh with hL
  rw [htrace, commitWrites, append_assoc, append_assoc]
  rcases lt_or_ge L.length k with hk | hk
  · obtain ⟨j, rfl⟩ : ∃ j, k = L.length + (j + 1) := ⟨k - L.length - 1, by omega⟩
    rw [take_length_add_append, singleton_append, take_succ_cons]
    refine Or.inl ⟨⟨_, mem_append_right _ mem_cons_self, rfl⟩, ?_⟩
    obtain ⟨lh, hlh⟩ := (h.redo_new hops).take (headWith (s.contents la.start) s.lh) j
    rw [← applyWrites_append, append_assoc, h.contents] at hlh
    rw [hL, h.contents]
    exact ⟨lh, hlh⟩
  · rw [take_append_of_le_length hk]
    refine Or.inr ⟨?_, h.redo_old hhead k⟩
    rintro ⟨w, hw, e⟩
    have := logCopies_fst (mem_of_mem_take hw)
    omega

end Commit

/-- **Crash atomicity of the redo log.**  On a disk with an empty log header, any updates of home
blocks that `log_write` records — any distinct ones that fit in the log are recorded — followed by
a crash of `commit` at any block write, and by recovery, itself crashed and restarted any number of
times, leave the home blocks all new when the first `write_head` reached the disk, and all old when
it did not. -/
theorem crash_atomic (la : LogArea) (lru : Cache → Option ℕ) {d : Disk} {s₀ : LogState}
    (h₀ : InTrans la d [] s₀) (hhead : headBlocks (d la.start) = []) (ops : List (ℕ × Block))
    (hops : ∀ op ∈ ops, op.1 < 2 ^ 32 ∧ ¬ la.Mem op.1) :
    (ops.length ≤ LOGSIZE → ops.length ≤ la.size - 1 →
      ∃ s, logUpdates la lru ops s₀ = .ok ((), s)) ∧
    ∀ s, logUpdates la lru ops s₀ = .ok ((), s) → ∀ k d',
      Recovers la lru (applyWrites ((commit la lru s).trace.take k) d) d' →
      ((∃ w ∈ (commit la lru s).trace.take k, w.1 = la.start) →
        ∀ b, ¬ la.Mem b → d' b = applyWrites ops d b) ∧
      ((¬ ∃ w ∈ (commit la lru s).trace.take k, w.1 = la.start) →
        ∀ b, ¬ la.Mem b → d' b = d b) := by
  have hrun : Ensures (logUpdates la lru ops) s₀ (fun _ t => InTrans la d ([] ++ ops) t)
      (fun _ => LOGSIZE < s₀.lh.length + ops.length ∨ la.size - 1 < s₀.lh.length + ops.length) :=
    h₀.logUpdates lru
  constructor
  · intro hL hn
    cases hx : logUpdates la lru ops s₀ with
    | ok p => exact ⟨p.2, rfl⟩
    | error e =>
      have := hrun.of_error hx
      have hlh : s₀.lh.length = 0 := by
        refine List.length_eq_zero_iff.2 (List.eq_nil_iff_forall_not_mem.2 fun b hb => ?_)
        obtain ⟨op, hop, -⟩ := (h₀.mem b).1 hb
        exact absurd hop List.not_mem_nil
      omega
  · intro s hs k d' hrec
    have h : InTrans la d ops s := hrun.of_ok hs
    rcases h.redo_take lru hhead hops k with ⟨hyes, lh, hredo⟩ | ⟨hno, hredo⟩
    · have := hredo.recovers hrec
      exact ⟨fun _ b hb => this.home b hb List.not_mem_nil, fun hn => absurd hyes hn⟩
    · have := hredo.recovers hrec
      exact ⟨fun hy => absurd hy hno, fun _ b hb => this.home b hb List.not_mem_nil⟩

theorem inTrans_boot (la : LogArea) (d : Disk) : InTrans la d [] { boot d with outstanding := 1 } :=
  ⟨clean_boot d, rfl, rfl, rfl, by simp [boot], by simp [boot], ⟨zero_le, zero_le⟩,
    le_rfl⟩

theorem headBlocks_fill_zero : headBlocks (Bytes.fill BSIZE 0) = [] := by
  rw [headBlocks, Bytes.getLE_fill_zero]
  rfl

/-- A log of 29 blocks on an empty disk records an update of block 40: a crash after `write_log` leaves
the block as it was, and one after `write_head` has it updated. -/
theorem crash_atomic_block40 :
    let la : LogArea := ⟨2, 30, by decide, by decide⟩
    let d : Disk := fun _ => Bytes.fill BSIZE 0
    ∃ s, logUpdates la (fun _ => none) [(40, Bytes.fill BSIZE 1)] { boot d with outstanding := 1 } =
        .ok ((), s) ∧ ∀ d',
      (Recovers la (fun _ => none) (applyWrites ((commit la (fun _ => none) s).trace.take 1) d) d' →
        d' 40 = Bytes.fill BSIZE 0) ∧
      (Recovers la (fun _ => none) (applyWrites ((commit la (fun _ => none) s).trace.take 2) d) d' →
        d' 40 = Bytes.fill BSIZE 1) := by
  intro la d
  have h := crash_atomic la (fun _ => none) (inTrans_boot la d) headBlocks_fill_zero
    [(40, Bytes.fill BSIZE 1)] (by decide)
  refine ⟨_, rfl, fun d' => ⟨fun hd => (h.2 _ rfl 1 d' hd).2 ?_ 40 (by decide), fun hd =>
    (h.2 _ rfl 2 d' hd).1 ⟨(2, _), .tail _ (.head _), rfl⟩ 40 (by decide)⟩⟩
  rintro ⟨w, hw, h2⟩
  obtain rfl : w = (3, _) := mem_singleton.1 hw
  cases h2

end LogState

end Xv6

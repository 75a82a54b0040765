import Xv6.Machinery.Cstr
import Xv6.User.Grep

/-!
# User/Lines — `grep` of `user/grep.c`, line by line

`grep` reads into a buffer, edits the lines in it, and moves the unfinished line to the front.
`want` is how many bytes `read` would give at each call; it gives at least one unless none is asked
for or none is left.  When the unfinished line fills the buffer, `grep` asks for no bytes and takes
the answer for the end of the file.
-/

namespace Xv6.Grep

open Machinery Function List

/-- `'\n'`. -/
def NL : Byte := 10

/-- `sizeof(buf)`. -/
def BUFSZ : ℕ := 1024

/-! ## The code -/

/-- The loop over the lines from `p` on: the place after the last of them, the buffer and the
output. -/
def lineLoop (re : List Byte) : (fuel p : ℕ) → (buf : ℕ → Byte) → (out : List Byte) → ℕ × (ℕ → Byte) × List Byte
  | 0, p, buf, out => (p, buf, out)
  | fuel + 1, p, buf, out =>
    match strchr buf NL BUFSZ p with
    | none => (p, buf, out)
    | some q =>
      let buf := update buf q 0
      if match' re (cstr buf BUFSZ p) then
        let buf := update buf q NL
        lineLoop re fuel (q + 1) buf (out ++ bytesAt buf p (q + 1 - p))
      else lineLoop re fuel (q + 1) buf out

/-- `read`: the number of bytes it returns. -/
def readSize (want n : ℕ) (inp : List Byte) : ℕ := min (max want 1) (min n inp.length)

/-- The loop of `grep`; `k` counts the reads, `inp` is the rest of the file. -/
def grepLoop (re : List Byte) (want : ℕ → ℕ) :
    (fuel k m : ℕ) → (buf : ℕ → Byte) → (inp out : List Byte) → List Byte
  | 0, _, _, _, _, out => out
  | fuel + 1, k, m, buf, inp, out =>
    let n := readSize (want k) (BUFSZ - m - 1) inp
    if 0 < n then
      let buf := stored buf m (inp.take n)
      let m := m + n
      let buf := update buf m 0
      let (p, buf, out) := lineLoop re BUFSZ 0 buf out
      if 0 < m then
        grepLoop re want fuel (k + 1) (m - p) (stored buf 0 (bytesAt buf p (m - p))) (inp.drop n) out
      else grepLoop re want fuel (k + 1) m buf (inp.drop n) out
    else out

/-- `grep`: its output on the file `inp`; every read takes a byte. -/
def grep (re : List Byte) (want : ℕ → ℕ) (buf : ℕ → Byte) (inp : List Byte) : List Byte :=
  grepLoop re want (inp.length + 1) 0 0 buf inp []

/-! ## Lines -/

/-- The lines of a text that a newline ends, without it. -/
def lines (inp : List Byte) : List (List Byte) := (inp.splitOnP (· = NL)).dropLast

def unfinished (inp : List Byte) : List Byte := (inp.splitOnP (· = NL)).getLastD []

def report (re : List Byte) (ls : List (List Byte)) : List Byte :=
  (ls.filter fun l => match' re l).flatMap (· ++ [NL])

section Lines

variable {u v inp : List Byte}

theorem splitOnP_of_notMem (hu : NL ∉ u) : u.splitOnP (· = NL) = [u] :=
  splitOnP_eq_singleton fun _ hx => decide_eq_false fun h => hu (h ▸ hx)

theorem splitOnP_append (hu : NL ∉ u) (v : List Byte) :
    (u ++ NL :: v).splitOnP (· = NL) = u :: v.splitOnP (· = NL) :=
  splitOnP_append_cons_of_forall_mem (fun x hx => decide_eq_false fun h : x = NL => hu (h ▸ hx)) NL rfl v

theorem lines_of_notMem (hu : NL ∉ u) : lines u = [] := by
  rw [lines, splitOnP_of_notMem hu]
  rfl

theorem unfinished_of_notMem (hu : NL ∉ u) : unfinished u = u := by
  rw [unfinished, splitOnP_of_notMem hu]
  rfl

theorem lines_append (hu : NL ∉ u) (v : List Byte) : lines (u ++ NL :: v) = u :: lines v := by
  rw [lines, splitOnP_append hu, dropLast_cons_of_ne_nil (splitOnP_ne_nil _ _), lines]

theorem unfinished_append (hu : NL ∉ u) (v : List Byte) : unfinished (u ++ NL :: v) = unfinished v := by
  rw [unfinished, splitOnP_append hu, unfinished]
  cases h : v.splitOnP (· = NL) with
  | nil => exact absurd h (splitOnP_ne_nil _ _)
  | cons x xs => rfl

/-- **Induction over the lines of a text.** -/
theorem text_induction {P : List Byte → Prop} (inp : List Byte) (last : ∀ u, NL ∉ u → P u)
    (line : ∀ u v, NL ∉ u → P v → P (u ++ NL :: v)) : P inp := by
  induction hn : inp.length using Nat.strong_induction_on generalizing inp with
  | _ n ih =>
    by_cases h : NL ∈ inp
    · obtain ⟨u, v, rfl, hu⟩ := eq_append_cons_of_mem h
      refine line u v hu (ih v.length ?_ v rfl)
      rw [← hn, length_append, length_cons]
      omega
    · exact last inp h

theorem notMem_unfinished (inp : List Byte) : NL ∉ unfinished inp := by
  induction inp using text_induction with
  | last u hu => rwa [unfinished_of_notMem hu]
  | line u v hu ih => rwa [unfinished_append hu]

theorem exists_append_unfinished (inp : List Byte) : ∃ l, inp = l ++ unfinished inp := by
  induction inp using text_induction with
  | last u hu => exact ⟨[], by rw [unfinished_of_notMem hu, nil_append]⟩
  | line u v hu ih =>
    obtain ⟨l, hl⟩ := ih
    exact ⟨u ++ NL :: l, by rw [unfinished_append hu, append_assoc, cons_append, ← hl]⟩

theorem length_unfinished_le (inp : List Byte) : (unfinished inp).length ≤ inp.length := by
  obtain ⟨l, hl⟩ := exists_append_unfinished inp
  rw [hl, length_append, ← hl]
  omega

/-- **The lines of a longer text**: the unfinished line goes on. -/
theorem lines_append_eq (inp rest : List Byte) :
    lines (inp ++ rest) = lines inp ++ lines (unfinished inp ++ rest) := by
  induction inp using text_induction with
  | last u hu => rw [lines_of_notMem hu, unfinished_of_notMem hu, nil_append]
  | line u v hu ih =>
    rw [append_assoc, cons_append, lines_append hu, lines_append hu, unfinished_append hu, ih,
      cons_append]

theorem length_of_mem_lines (inp : List Byte) : ∀ l ∈ lines inp, l.length < inp.length := by
  induction inp using text_induction with
  | last u hu =>
    rw [lines_of_notMem hu]
    exact nofun
  | line u v hu ih =>
    rw [lines_append hu, length_append, length_cons]
    rintro l (_ | ⟨_, hl⟩)
    · omega
    · have := ih l hl
      omega

/-- A line that has not ended yet is the start of the next. -/
theorem head_lines_append (hu : NL ∉ u) (v : List Byte) {l : List Byte} (h : (lines (u ++ v)).head? = some l) :
    u.length ≤ l.length := by
  by_cases hv : NL ∈ v
  · obtain ⟨w, x, rfl, hw⟩ := eq_append_cons_of_mem hv
    have huw : NL ∉ u ++ w := fun hmem => (mem_append.1 hmem).elim hu hw
    rw [← append_assoc, lines_append huw, List.head?_cons, Option.some_inj] at h
    rw [← h, length_append]
    omega
  · rw [lines_of_notMem fun hmem => (mem_append.1 hmem).elim hu hv] at h
    cases h

theorem report_append (re : List Byte) (ls ls' : List (List Byte)) :
    report re (ls ++ ls') = report re ls ++ report re ls' := by
  rw [report, filter_append, flatMap_append, report, report]

end Lines

/-! ## The loops -/

variable {re : List Byte}

/-- **The loop over the lines** reports those that match, and stops at the unfinished one. -/
theorem lineLoop_eq (d : List Byte) {fuel p : ℕ} {buf : ℕ → Byte} (out : List Byte) (hfuel : d.length < fuel)
    (hsize : d.length < BUFSZ) (hd : Str buf p d) :
    ∃ buf', lineLoop re fuel p buf out =
        (p + (d.length - (unfinished d).length), buf', out ++ report re (lines d)) ∧
      Lies buf' (p + (d.length - (unfinished d).length)) (unfinished d) := by
  induction d using text_induction generalizing fuel p buf out with
  | last u hu =>
    obtain ⟨fuel, rfl⟩ := Nat.exists_eq_add_of_lt hfuel
    refine ⟨buf, ?_, ?_⟩
    · rw [lineLoop, hd.strchr_none hu, lines_of_notMem hu, unfinished_of_notMem hu, Nat.sub_self]
      simp [report]
    · rw [unfinished_of_notMem hu, Nat.sub_self]
      exact hd.lies
  | line u v hu ih =>
    obtain ⟨fuel, rfl⟩ := Nat.exists_eq_add_of_lt hfuel
    rw [length_append, length_cons] at hsize hfuel
    have hle := length_unfinished_le v
    have hq : p + u.length + 1 + (v.length - (unfinished v).length) =
        p + ((u ++ NL :: v).length - (unfinished v).length) := by
      rw [length_append, length_cons]
      omega
    have hrec : v.length < (u ++ NL :: v).length + fuel := by
      rw [length_append, length_cons]
      omega
    have hcut : cstr (update buf (p + u.length) 0) BUFSZ p = u := hd.cut.cstr_eq (by omega)
    rw [lineLoop, hd.strchr_some hu (by omega)]
    simp only [hcut, update_idem]
    rw [lines_append hu, unfinished_append hu, ← hq]
    split_ifs with hmatch
    · have hlies : Lies (update buf (p + u.length) NL) p (u ++ [NL]) :=
        lies_append.2 ⟨(lies_append.1 hd.lies).1.update (.inr le_rfl), update_self .., trivial⟩
      have hbytes : bytesAt (update buf (p + u.length) NL) p (p + u.length + 1 - p) = u ++ [NL] := by
        rw [show p + u.length + 1 - p = (u ++ [NL]).length by simp; omega, hlies.bytesAt]
      obtain ⟨buf', hloop, hrest⟩ := ih (out ++ (u ++ [NL])) hrec (by omega) (hd.after NL)
      refine ⟨buf', ?_, hrest⟩
      rw [hbytes, hloop, report, report, filter_cons, if_pos hmatch, flatMap_cons]
      simp only [append_assoc]
    · obtain ⟨buf', hloop, hrest⟩ := ih out hrec (by omega) (hd.after 0)
      refine ⟨buf', ?_, hrest⟩
      rw [hloop, report, report, filter_cons, if_neg hmatch]

/-- The lines that `grep` gets to see: those before one that fills the buffer. -/
def seen (inp : List Byte) : List (List Byte) := (lines inp).takeWhile fun l => l.length < BUFSZ - 1

variable {inp l : List Byte}

theorem seen_append (hsize : inp.length < BUFSZ) (rest : List Byte) :
    seen (inp ++ rest) = lines inp ++ seen (unfinished inp ++ rest) := by
  rw [seen, lines_append_eq, takeWhile_append_of_pos, seen]
  intro l hl
  have := length_of_mem_lines inp l hl
  exact decide_eq_true (by omega)

theorem seen_full (hnl : NL ∉ l) (hfull : BUFSZ - 1 ≤ l.length) (inp : List Byte) :
    seen (l ++ inp) = [] := by
  rw [seen]
  cases hls : lines (l ++ inp) with
  | nil => rfl
  | cons x xs =>
    have hlen := head_lines_append hnl inp (show (lines (l ++ inp)).head? = some x by rw [hls]; rfl)
    rw [takeWhile_cons, if_neg]
    exact fun h => by
      have := of_decide_eq_true h
      omega

theorem str_read {buf : ℕ → Byte} (hl : Lies buf 0 l) (h0 : ∀ b ∈ l ++ inp, b ≠ 0) :
    Str (update (stored buf l.length inp) (l.length + inp.length) 0) 0 (l ++ inp) where
  lies := by
    refine lies_append.2 ⟨?_, ?_⟩
    · refine Lies.update (lies_congr hl fun q _ hq => stored_of_lt (by omega)) (.inr (by omega))
    · rw [zero_add]
      exact lies_stored.update (.inr le_rfl)
  ends := by rw [zero_add, length_append, update_self]
  ne := h0

/-- **The loop of `grep`**, when the unfinished line `l` is in the buffer. -/
theorem grepLoop_eq (want : ℕ → ℕ) (fuel k : ℕ) {buf : ℕ → Byte} (inp out : List Byte)
    (hfuel : inp.length < fuel) (hl : Lies buf 0 l) (hsize : l.length < BUFSZ) (hnl : NL ∉ l)
    (h0 : ∀ b ∈ l ++ inp, b ≠ 0) :
    grepLoop re want fuel k l.length buf inp out = out ++ report re (seen (l ++ inp)) := by
  induction fuel generalizing k l buf inp out with
  | zero => exact absurd hfuel (Nat.not_lt_zero _)
  | succ fuel ih =>
    rw [grepLoop]
    generalize hn : readSize (want k) (BUFSZ - l.length - 1) inp = n
    rw [readSize] at hn
    split_ifs with hpos
    · -- the text `l ++ inp` is `c` with the bytes read, and the rest
      have htake : (inp.take n).length = n := length_take_of_le (by omega)
      have hsplit : l ++ inp = (l ++ inp.take n) ++ inp.drop n := by
        rw [append_assoc, take_append_drop]
      generalize hc : l ++ inp.take n = c at *
      have hlen : l.length + n = c.length := by rw [← hc, length_append, htake]
      have hcsize : c.length < BUFSZ := by omega
      have hle := length_unfinished_le c
      rw [hsplit] at h0
      have hread : ∀ b ∈ l ++ inp.take n, b ≠ 0 := fun b hb => h0 b (mem_append_left _ (hc ▸ hb))
      have hstr := str_read hl hread
      rw [hc, htake, hlen] at hstr
      obtain ⟨buf', hloop, hrest⟩ := @lineLoop_eq re c _ _ _ out hcsize hcsize hstr
      rw [zero_add] at hloop hrest
      have hkeep : c.length - (c.length - (unfinished c).length) = (unfinished c).length := by omega
      simp only [hlen, hloop, hkeep, hrest.bytesAt]
      rw [if_pos (by omega)]
      obtain ⟨pre, hpre⟩ := exists_append_unfinished c
      rw [ih (k + 1) (inp.drop n) _ (by rw [length_drop]; omega) lies_stored (by omega)
        (notMem_unfinished c) ?_, hsplit, seen_append hcsize, report_append, append_assoc]
      intro b hb
      refine h0 b ((mem_append.1 hb).elim (fun hb => ?_) (mem_append_right c))
      rw [hpre]
      exact mem_append_left _ (mem_append_right pre hb)
    · -- nothing is left, or nothing was asked for
      have hnone : seen (l ++ inp) = [] := by
        cases inp with
        | nil =>
          rw [append_nil, seen, lines_of_notMem hnl]
          rfl
        | cons b inp =>
          rw [length_cons] at hn
          exact seen_full hnl (by omega) (b :: inp)
      rw [hnone]
      simp [report]

/-- **The output of `grep`**, whatever `read` returns. -/
theorem grep_eq (want : ℕ → ℕ) (buf : ℕ → Byte) (h0 : ∀ b ∈ inp, b ≠ 0) :
    grep re want buf inp = report re (seen inp) :=
  grepLoop_eq want _ 0 (l := []) inp [] (Nat.lt_succ_self _) trivial (by decide) not_mem_nil h0

theorem report_eq_nil {ls : List (List Byte)} : report re ls = [] ↔ ∀ l ∈ ls, match' re l = false := by
  rw [report, flatMap_eq_nil_iff]
  constructor
  · intro h l hl
    by_contra hne
    have := h l (mem_filter.2 ⟨hl, Bool.eq_true_of_not_eq_false hne⟩)
    simp at this
  · intro h l hl
    obtain ⟨hmem, hmatch⟩ := mem_filter.1 hl
    rw [h l hmem] at hmatch
    cases hmatch

/-- **`grep` reports every line that matches iff none of them comes at or after a line that fills the buffer**,
however `read` splits the file. -/
theorem grep_reports (re inp : List Byte) (h0 : ∀ b ∈ inp, b ≠ 0) (want : ℕ → ℕ) (buf : ℕ → Byte) :
    grep re want buf inp = report re (lines inp) ↔
      ∀ l ∈ (lines inp).dropWhile (fun l => l.length < BUFSZ - 1), match' re l = false := by
  have hsplit : report re (lines inp) =
      report re (seen inp) ++ report re ((lines inp).dropWhile fun l => l.length < BUFSZ - 1) := by
    rw [seen, ← report_append, List.takeWhile_append_dropWhile]
  rw [grep_eq want buf h0, ← report_eq_nil, hsplit]
  exact List.self_eq_append_right

/-- A file with one short line. -/
theorem grep_reports_short : grep [97] (fun _ => 1) (fun _ => 0) [97, NL] = report [97] (lines [97, NL]) :=
  (grep_reports [97] [97, NL] (by decide) _ _).2 (by decide)

/-- A line of 1023 bytes, which matches: nothing is reported. -/
theorem grep_drops_line : grep [97] (fun _ => BUFSZ) (fun _ => 0) (List.replicate 1023 97 ++ [NL]) = [] ∧
    report [97] (lines (List.replicate 1023 97 ++ [NL])) = List.replicate 1023 97 ++ [NL] := by
  have hnl : NL ∉ List.replicate 1023 (97 : Byte) := fun h => absurd (List.eq_of_mem_replicate h) (by decide)
  have h0 : ∀ b ∈ List.replicate 1023 (97 : Byte) ++ [NL], b ≠ 0 := fun b hb => by
    rcases List.mem_append.1 hb with hb | hb
    · rw [List.eq_of_mem_replicate hb]
      decide
    · rw [List.mem_singleton.1 hb]
      decide
  have hlines : lines (List.replicate 1023 97 ++ [NL]) = [List.replicate 1023 97] := by
    rw [lines_append hnl, lines_of_notMem List.not_mem_nil]
  have hmatch : match' [97] (List.replicate 1023 97) = true := by
    rw [List.replicate_succ]
    rfl
  constructor
  · rw [grep_eq _ _ h0, seen_full hnl (by rw [List.length_replicate, BUFSZ])]
    rfl
  · rw [hlines, report, List.filter_cons, if_pos hmatch, List.filter_nil, List.flatMap_cons, List.flatMap_nil,
      List.append_nil]

end Xv6.Grep

import Xv6.Machinery.Cstr
import Xv6.User.ShGrammar

/-!
# User/ShText — the strings of a command

`nulterminate` stores a zero byte behind every word and file name of a command.  The words of a line
are maximal runs of bytes, so that no such store hits another word.
-/

namespace Xv6.Sh

open Machinery Function List

/-! ## The words of a line -/

def text (line : List Byte) (w : Span) : List Byte := (line.drop w.q).take (w.eq - w.q)

/-- **The span is a maximal run of word characters.** -/
structure IsWord (line : List Byte) (w : Span) : Prop where
  lt : w.q < w.eq
  le : w.eq ≤ line.length
  chars : ∀ i, w.q ≤ i → i < w.eq → wordChar (line.getD i 0) = true
  ends : w.eq < line.length → wordChar (line.getD w.eq 0) = false

theorem isWord_of_append (pre u v : List Byte) (hne : u ≠ []) (hu : ∀ b ∈ u, wordChar b = true)
    (hv : ∀ b ∈ v.head?, wordChar b = false) :
    IsWord (pre ++ (u ++ v)) ⟨pre.length, pre.length + u.length⟩ where
  lt := Nat.lt_add_of_pos_right (length_pos_of_ne_nil hne)
  le := by simp only [length_append]; omega
  chars i hi hlt := by
    rw [getD_append_right _ _ _ _ hi, getD_append _ _ _ _ (by simp only at *; omega)]
    rw [getD_eq_getElem _ _ (by simp only at *; omega)]
    exact hu _ (getElem_mem _)
  ends hlt := by
    simp only [length_append] at hlt
    rw [← append_assoc, getD_append_right _ _ _ _ (by simp), length_append, Nat.sub_self]
    cases v with
    | nil => exact absurd hlt (by simp)
    | cons b v => exact hv b rfl

theorem lexeme_suffix (s : List Byte) : (lexeme s).2 <:+ s := by
  cases s with
  | nil => exact suffix_rfl
  | cons c r =>
    rw [lexeme]
    have htail := (tail_suffix r).trans (suffix_cons c r)
    split_ifs
    all_goals first | exact suffix_cons c r | exact htail | exact dropWhile_suffix _

theorem token_suffix (n : ℕ) (s : List Byte) : (token n s).2 <:+ s :=
  (dropWhile_suffix _).trans ((lexeme_suffix _).trans (dropWhile_suffix _))

variable {line s : List Byte} {ts : List Token} {c d : Cmd}

theorem isWord_token (hs : s <:+ line) (h : (token line.length s).1.kind = .word) :
    IsWord line (token line.length s).1.span := by
  change (lexeme (skip s)).1 = .word at h
  cases hskip : skip s with
  | nil =>
    rw [hskip] at h
    cases h
  | cons c r =>
    have hc := notMem_of_skip hskip
    obtain ⟨pre, hpre⟩ : skip s <:+ line := (dropWhile_suffix _).trans hs
    have hsym : c ∉ symbols := fun hc' => by
      have hfirst := (lexeme_cons hc r).2.2
      rw [if_pos hc', ← hskip, h] at hfirst
      cases hfirst
    have hw : wordChar c = true := by simp [wordChar, hc, hsym]
    have hlex : (lexeme (skip s)).2 = (skip s).dropWhile wordChar := by
      simp only [symbols, mem_cons, not_mem_nil, or_false, not_or] at hsym
      rw [hskip, show lexeme (c :: r) = (.word, (c :: r).dropWhile wordChar) by simp [lexeme, hsym]]
    have hsplit := takeWhile_append_dropWhile (p := wordChar) (l := skip s)
    generalize hu : (skip s).takeWhile wordChar = u at hsplit
    generalize hv : (skip s).dropWhile wordChar = v at hsplit hlex
    have hspan : (token line.length s).1.span = ⟨pre.length, pre.length + u.length⟩ := by
      change Span.mk (line.length - (skip s).length) (line.length - (lexeme (skip s)).2.length) = _
      rw [hlex, ← hpre, ← hsplit]
      simp only [length_append, Span.mk.injEq]
      omega
    rw [hspan, ← hpre, ← hsplit]
    refine isWord_of_append pre u v ?_ (fun b hb => ?_) fun b hb => ?_
    · rw [← hu, hskip, takeWhile_cons_of_pos hw]
      exact cons_ne_nil _ _
    · exact mem_takeWhile_imp (hu ▸ hb)
    · have hd := List.head?_dropWhile_not wordChar (skip s)
      rw [hv, Option.mem_def.1 hb] at hd
      exact hd

theorem isWord_of_mem (hs : s <:+ line)
    (hts : tokens line.length s = ts) : ∀ t ∈ ts, t.kind = .word → IsWord line t.span := by
  induction ts generalizing s with
  | nil =>
    intro t ht
    cases ht
  | cons t ts ih =>
    have hne : skip s ≠ [] := fun h => by
      rw [tokens_of_eof h] at hts
      cases hts
    rw [tokens_of_ne hne] at hts
    obtain ⟨rfl, hrest⟩ := List.cons.inj hts
    intro u hu
    obtain rfl | hu := mem_cons.1 hu
    · exact isWord_token hs
    · exact ih ((token_suffix _ s).trans hs) hrest u hu

/-! ## The spans of a command -/

/-- The words and file names of a command, in the order in which `nulterminate` visits them. -/
def Cmd.spans : Cmd → List Span
  | .exec argv => argv
  | .redir cmd r => cmd.spans ++ [r.file]
  | .pipe left right => left.spans ++ right.spans
  | .list left right => left.spans ++ right.spans
  | .back cmd => cmd.spans

theorem Cmd.spans_pushArg {v w : Span} (h : v ∈ (c.pushArg w).spans) : v ∈ c.spans ∨ v = w := by
  induction c with
  | exec argv => simpa [pushArg, spans] using h
  | redir c r ih =>
    simp only [pushArg, spans, mem_append] at h ⊢
    obtain h | h := h
    · exact (ih h).imp_left .inl
    · exact .inl (.inr h)
  | _ => exact .inl h

/-- The spans of a command are spans of word tokens, or were there before. -/
def From (ts : List Token) (c d : Cmd) : Prop :=
  ∀ w ∈ d.spans, w ∈ c.spans ∨ ∃ t ∈ ts, t.kind = .word ∧ t.span = w

theorem Redirs.spans_from (h : Redirs ts c d) : From ts c d := by
  induction h with
  | nil => exact fun w hw => .inl hw
  | @cons t u op ts c d hop hu h ih =>
    intro w hw
    obtain hw | ⟨t', ht', hk, hs⟩ := ih w hw
    · rw [Cmd.spans, mem_append, mem_singleton] at hw
      exact hw.imp_right fun hw => ⟨u, by simp, hu, hw.symm⟩
    · exact .inr ⟨t', by simp [ht'], hk, hs⟩

theorem Words.spans_from {k : ℕ} (h : Words ts c k d) : From ts c d := by
  induction h with
  | nil => exact fun w hw => .inl hw
  | @cons u rs ts c d e k hu hr h ih =>
    intro w hw
    obtain hw | ⟨t', ht', hk, hs⟩ := ih w hw
    · obtain hw | ⟨t', ht', hk, hs⟩ := hr.spans_from w hw
      · exact (Cmd.spans_pushArg hw).imp_right fun hw => ⟨u, by simp, hu, hw.symm⟩
      · exact .inr ⟨t', by simp [ht'], hk, hs⟩
    · exact .inr ⟨t', by simp [ht'], hk, hs⟩

theorem Backs.spans_eq (h : Backs ts c d) : d.spans = c.spans := by
  induction h with
  | nil => rfl
  | cons _ _ ih => exact ih

/-- **The strings of a command are words of its text.** -/
theorem Derives.spans_from {x : Nonterminal} (h : Derives x ts c) :
    ∀ w ∈ c.spans, ∃ t ∈ ts, t.kind = .word ∧ t.span = w := by
  induction h with
  | line _ hb ih =>
    intro w hw
    obtain ⟨t, ht, h⟩ := ih w (hb.spans_eq ▸ hw)
    exact ⟨t, by simp [ht], h⟩
  | list _ hb _ _ ih ih' =>
    intro w hw
    rw [Cmd.spans, hb.spans_eq, mem_append] at hw
    obtain hw | hw := hw
    · obtain ⟨t, ht, h⟩ := ih w hw
      exact ⟨t, by simp [ht], h⟩
    · obtain ⟨t, ht, h⟩ := ih' w hw
      exact ⟨t, by simp [ht], h⟩
  | one _ ih => exact ih
  | pipe _ _ _ ih ih' =>
    intro w hw
    rw [Cmd.spans, mem_append] at hw
    obtain hw | hw := hw
    · obtain ⟨t, ht, h⟩ := ih w hw
      exact ⟨t, by simp [ht], h⟩
    · obtain ⟨t, ht, h⟩ := ih' w hw
      exact ⟨t, by simp [ht], h⟩
  | compound _ ih => exact ih
  | simple hr hw _ =>
    intro w hmem
    obtain hmem | ⟨t, ht, h⟩ := hw.spans_from w hmem
    · obtain hmem | ⟨t, ht, h⟩ := hr.spans_from w hmem
      · cases hmem
      · exact ⟨t, by simp [ht], h⟩
    · exact ⟨t, by simp [ht], h⟩
  | block _ _ _ hr ih =>
    intro w hw
    obtain hw | ⟨t, ht, h⟩ := hr.spans_from w hw
    · obtain ⟨t, ht, h⟩ := ih w hw
      exact ⟨t, by simp [ht], h⟩
    · exact ⟨t, by simp [ht], h⟩

/-! ## The zero bytes -/

/-- Zero bytes are stored at `es`. -/
def zeroes (m : ℕ → Byte) (es : List ℕ) : ℕ → Byte := es.foldl (fun m p => update m p 0) m

theorem zeroes_append (m : ℕ → Byte) (es es' : List ℕ) : zeroes m (es ++ es') = zeroes (zeroes m es) es' :=
  foldl_append ..

theorem nulterminate_eq (c : Cmd) (m : ℕ → Byte) : nulterminate c m = zeroes m (c.spans.map Span.eq) := by
  induction c generalizing m with
  | exec argv => rw [nulterminate, Cmd.spans, zeroes, foldl_map]
  | redir c r ih =>
    rw [nulterminate, ih, Cmd.spans, map_append, zeroes_append]
    rfl
  | pipe l r ihl ihr => rw [nulterminate, ihl, ihr, Cmd.spans, map_append, zeroes_append]
  | list l r ihl ihr => rw [nulterminate, ihl, ihr, Cmd.spans, map_append, zeroes_append]
  | back c ih => exact ih m

theorem zeroes_apply (m : ℕ → Byte) (es : List ℕ) (p : ℕ) : zeroes m es p = if p ∈ es then 0 else m p := by
  induction es generalizing m with
  | nil => rfl
  | cons e es ih =>
    change zeroes (update m e 0) es p = _
    rw [ih, update_apply]
    by_cases hp : p = e
    · simp [hp]
    · simp [hp]

/-- The end of one word is not inside another. -/
theorem IsWord.apart {v w : Span} (hv : IsWord line v) (hw : IsWord line w) :
    v.eq < w.q ∨ w.eq ≤ v.eq := by
  by_contra hin
  have hchar := hw.chars v.eq (by omega) (by omega)
  have hend := hv.ends (by have := hw.le; omega)
  exact absurd (hend.symm.trans hchar) (by decide)

/-- **The strings of a command after `parsecmd`** are the words it was made of, and every zero byte is stored in
the buffer. -/
theorem parsecmd_strings {line : List Byte} (h0 : ∀ b ∈ line, b ≠ 0) {c : Cmd} {m : ℕ → Byte}
    (h : parsecmd line = .ok (c, m)) :
    (∀ w ∈ c.spans, Str m w.q (text line w)) ∧
    m = zeroes (fun p => line.getD p 0) (c.spans.map Span.eq) ∧ ∀ p ∈ c.spans.map Span.eq, p ≤ line.length := by
  obtain ⟨⟨s', hrun⟩, rfl⟩ := parsecmd_eq_ok_iff.1 h
  have hd := (parse_sound line).of_ok hrun
  have hword : ∀ w ∈ c.spans, IsWord line w := by
    intro w hw
    obtain ⟨t, ht, hk, rfl⟩ := hd.spans_from w hw
    exact isWord_of_mem List.suffix_rfl rfl t ht hk
  refine ⟨fun w hw => ?_, nulterminate_eq _ _, fun p hp => ?_⟩
  · have hlen : (text line w).length = w.eq - w.q := by
      have := (hword w hw).le
      simp only [text, List.length_take, List.length_drop]
      omega
    have hlt := (hword w hw).lt
    have hin : Lies (fun p => line.getD p 0) w.q (text line w) := lies_of_getD fun i hi => by
      rw [hlen] at hi
      simp only [text, List.getD_eq_getElem?_getD, List.getElem?_take, List.getElem?_drop, if_pos hi]
    rw [nulterminate_eq]
    refine ⟨lies_congr hin fun p hp hp' => ?_, ?_, fun b hb => ?_⟩
    · rw [zeroes_apply, if_neg]
      rintro hmem
      obtain ⟨v, hv, rfl⟩ := List.mem_map.1 hmem
      have := (hword v hv).apart (hword w hw)
      omega
    · rw [zeroes_apply, if_pos]
      exact List.mem_map.2 ⟨w, hw, by omega⟩
    · exact h0 b (List.mem_of_mem_drop (List.mem_of_mem_take hb))
  · obtain ⟨w, hw, rfl⟩ := List.mem_map.1 hp
    exact (hword w hw).le

/-- The line `a>b`. -/
theorem parsecmd_strings_redir : ∃ m,
    parsecmd [97, GT, 98] = .ok (.redir (.exec [⟨0, 1⟩]) ⟨.output, ⟨2, 3⟩⟩, m) ∧
    Str m 0 [97] ∧ Str m 2 [98] := by
  have hrun : parse 3 16 [97, GT, 98] = .ok (.redir (.exec [⟨0, 1⟩]) ⟨.output, ⟨2, 3⟩⟩, []) := rfl
  have hcmd : parsecmd [97, GT, 98] = .ok (.redir (.exec [⟨0, 1⟩]) ⟨.output, ⟨2, 3⟩⟩, nulterminate _ _) :=
    parsecmd_eq_ok_iff.2 ⟨⟨[], hrun⟩, rfl⟩
  have hstr := (parsecmd_strings (by decide) hcmd).1
  exact ⟨_, hcmd, hstr ⟨0, 1⟩ (by decide), hstr ⟨2, 3⟩ (by decide)⟩

end Xv6.Sh

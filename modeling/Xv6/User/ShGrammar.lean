import Mathlib.Data.List.DropRight
import Xv6.Machinery.Through
import Xv6.User.Sh

/-!
# User/ShGrammar — the parser of the shell accepts its grammar

Seen through `tokens` the parser is a program on lists of tokens, and `Derives` is its grammar, with
the tree of each derivation.  A run that returns has found a derivation (`sound`), and where there
is one it finds it (`complete`).
-/

namespace Xv6.Sh

open Machinery Ensures List

variable {n : ℕ} {s : List Byte}

/-! ## The tokens of a line -/

theorem skip_skip (s : List Byte) : skip (skip s) = skip s := dropWhile_idempotent ..

theorem token_skip : token n (skip s) = token n s := by
  rw [token, skip_skip, token]

theorem notMem_of_skip {c : Byte} {r : List Byte} (h : skip s = c :: r) : c ∉ whitespace := by
  have hc := List.head?_dropWhile_not (· ∈ whitespace) s
  rw [show s.dropWhile (· ∈ whitespace) = c :: r from h] at hc
  exact of_decide_eq_false hc

theorem length_skip_le (s : List Byte) : (skip s).length ≤ s.length := length_dropWhile_le ..

/-- The byte that a token starts with, if it is a symbol. -/
def Tok.first : Tok → Option Byte
  | .bar => some BAR
  | .lparen => some LPAREN
  | .rparen => some RPAREN
  | .semi => some SEMI
  | .amp => some AMP
  | .lt => some LT
  | .gt => some GT
  | .app => some GT
  | .eof => none
  | .word => none

/-- What `lexeme` makes of a byte that is not white space. -/
theorem lexeme_cons {c : Byte} (hc : c ∉ whitespace) (r : List Byte) :
    (lexeme (c :: r)).1 ≠ .eof ∧ (lexeme (c :: r)).2.length ≤ r.length ∧
      (lexeme (c :: r)).1.first = if c ∈ symbols then some c else none := by
  by_cases hs : c ∈ symbols
  · rw [if_pos hs]
    simp only [symbols, mem_cons, not_mem_nil, or_false] at hs
    obtain rfl | rfl | rfl | rfl | rfl | rfl | rfl := hs
    case inr.inr.inl =>
      by_cases hr : r.head? = some GT
      · rw [show lexeme (GT :: r) = (.app, r.tail) from if_pos hr]
        exact ⟨by simp, by simp, rfl⟩
      · rw [show lexeme (GT :: r) = (.gt, r) from if_neg hr]
        exact ⟨by simp, le_rfl, rfl⟩
    all_goals exact ⟨Tok.noConfusion, le_rfl, rfl⟩
  · rw [if_neg hs]
    have hw : wordChar c = true := by simp [wordChar, hc, hs]
    simp only [symbols, mem_cons, not_mem_nil, or_false, not_or] at hs
    rw [show lexeme (c :: r) = (.word, (c :: r).dropWhile wordChar) by simp [lexeme, hs],
      dropWhile_cons_of_pos hw]
    exact ⟨by simp, length_dropWhile_le .., rfl⟩

theorem kind_eof_iff : (token n s).1.kind = .eof ↔ skip s = [] := by
  change (lexeme (skip s)).1 = .eof ↔ _
  cases h : skip s with
  | nil => exact iff_of_true rfl rfl
  | cons c r => exact iff_of_false (lexeme_cons (notMem_of_skip h) r).1 (cons_ne_nil c r)

theorem length_token_lt (h : (token n s).1.kind ≠ .eof) : (token n s).2.length < s.length := by
  have hle := length_skip_le s
  change (skip (lexeme (skip s)).2).length < _
  cases hs : skip s with
  | nil => exact absurd (kind_eof_iff.2 hs) h
  | cons c r =>
    rw [hs, length_cons] at hle
    have hlt := (lexeme_cons (notMem_of_skip hs) r).2.1
    have := length_skip_le (lexeme (c :: r)).2
    omega

/-- **The tokens of the rest `s` of a line of `n` bytes.** -/
def tokens (n : ℕ) (s : List Byte) : List Token :=
  if _h : (token n s).1.kind = .eof then [] else (token n s).1 :: tokens n (token n s).2
termination_by s.length
decreasing_by exact length_token_lt _h

theorem tokens_of_eof (h : skip s = []) : tokens n s = [] := by
  rw [tokens, dif_pos (kind_eof_iff.2 h)]

theorem tokens_of_ne (h : skip s ≠ []) : tokens n s = (token n s).1 :: tokens n (token n s).2 := by
  rw [tokens, dif_neg (mt kind_eof_iff.1 h)]

theorem tokens_eq_nil_iff : tokens n s = [] ↔ skip s = [] := by
  refine ⟨fun h => ?_, tokens_of_eof⟩
  by_contra hne
  rw [tokens_of_ne hne] at h
  cases h

theorem tokens_skip : tokens n (skip s) = tokens n s := by
  by_cases h : skip s = []
  · rw [tokens_of_eof h, tokens_of_eof (by rw [skip_skip, h])]
  · rw [tokens_of_ne h, tokens_of_ne (by rwa [skip_skip]), token_skip]

theorem length_tokens_le (n : ℕ) (s : List Byte) : (tokens n s).length ≤ s.length := by
  induction hk : s.length using Nat.strong_induction_on generalizing s with
  | _ k ih =>
    by_cases h : skip s = []
    · rw [tokens_of_eof h]
      exact zero_le
    · have hlt := length_token_lt (mt (kind_eof_iff (n := n)).1 h)
      have := ih _ (hk ▸ hlt) _ rfl
      rw [tokens_of_ne h, length_cons]
      omega

/-! ## `peek` and `gettoken` on tokens -/

-- named, so that `starts` holds no proof of its own
local instance lawfulByte : LawfulBEq Byte := inferInstance

/-- The next token starts with one of `cs`. -/
def starts (cs : List Byte) (ts : List Token) : Bool := (ts.head?.bind fun t => t.kind.first).any (· ∈ cs)

section Lookahead

variable {α : Type} {ts : List Token} {Q : α → List Token → Prop} {E : ShPanic → Prop}

variable {cs : List Byte} {x y : ShM α}

theorem any_head_skip (hcs : cs ⊆ symbols) (s : List Byte) :
    (skip s).head?.any (· ∈ cs) = starts cs (tokens n s) := by
  cases hs : skip s with
  | nil =>
    rw [tokens_of_eof hs]
    rfl
  | cons c r =>
    have hfirst := (lexeme_cons (notMem_of_skip hs) r).2.2
    rw [tokens_of_ne (by rw [hs]; exact cons_ne_nil c r)]
    change decide (c ∈ cs) = (lexeme (skip s)).1.first.any (· ∈ cs)
    rw [hs, hfirst]
    split_ifs with hc
    · rfl
    · rw [decide_eq_false (mt (@hcs c) hc)]
      rfl

theorem peek_bind (hcs : cs ⊆ symbols) {f : Bool → ShM α}
    (h : Through (tokens n) (f (starts cs ts)) ts Q E) : Through (tokens n) (peek cs >>= f) ts Q E := by
  intro s hs
  have hrun : peek cs s = .ok (starts cs ts, skip s) := by rw [peek, any_head_skip hcs s, hs]
  rw [bind_iff, ok_iff hrun]
  exact h _ (tokens_skip.trans hs)

theorem peek_ite (hcs : cs ⊆ symbols) (hx : starts cs ts = true → Through (tokens n) x ts Q E)
    (hy : starts cs ts = false → Through (tokens n) y ts Q E) :
    Through (tokens n) (do if ← peek cs then x else y) ts Q E :=
  peek_bind hcs (.ite hx fun h => hy (Bool.eq_false_iff.2 h))

theorem peek_then (hcs : cs ⊆ symbols) (h : starts cs ts = true)
    (hx : Through (tokens n) x ts Q E) : Through (tokens n) (do if ← peek cs then x else y) ts Q E :=
  peek_ite hcs (fun _ => hx) fun h' => absurd (h.symm.trans h') (by decide)

theorem peek_else (hcs : cs ⊆ symbols) (h : starts cs ts = false)
    (hy : Through (tokens n) y ts Q E) : Through (tokens n) (do if ← peek cs then x else y) ts Q E :=
  peek_ite hcs (fun h' => absurd (h.symm.trans h') (by decide)) fun _ => hy

theorem gettoken_bind {t : Token} {f : Token → ShM α}
    (h : t.kind ≠ .eof → Through (tokens n) (f t) ts Q E) :
    Through (tokens n) (gettoken n >>= f) (t :: ts) Q E := by
  intro s hs
  have hne : skip s ≠ [] := fun h => by
    rw [tokens_of_eof h] at hs
    cases hs
  rw [tokens_of_ne hne] at hs
  obtain ⟨ht, hts⟩ := List.cons.inj hs
  have hrun : gettoken n s = .ok ((token n s).1, (token n s).2) := rfl
  rw [bind_iff, ok_iff hrun]
  subst ht
  exact h (mt kind_eof_iff.1 hne) _ hts

theorem gettoken_nil_bind {f : Token → ShM α}
    (h : ∀ t : Token, t.kind = .eof → Through (tokens n) (f t) [] Q E) :
    Through (tokens n) (gettoken n >>= f) [] Q E := by
  intro s hs
  have hrun : gettoken n s = .ok ((token n s).1, (token n s).2) := rfl
  rw [bind_iff, ok_iff hrun]
  refine h _ (kind_eof_iff.2 (tokens_eq_nil_iff.1 hs)) _ (tokens_of_eof ?_)
  change skip (skip (lexeme (skip s)).2) = []
  rw [tokens_eq_nil_iff.1 hs]
  rfl

end Lookahead

variable {cs line : List Byte} {K : List Tok} {ts vs rs : List Token} {c d : Cmd}

theorem starts_cons {t : Token} {k : Tok} (ht : t.kind = k) {b : Bool}
    (hk : k.first.any (· ∈ cs) = b) (ts : List Token) : starts cs (t :: ts) = b := by
  subst ht
  exact hk

theorem of_starts (hK : ∀ k : Tok, k.first.any (· ∈ cs) = true → k ∈ K) (h : starts cs ts = true) :
    ∃ t us, ts = t :: us ∧ t.kind ∈ K := by
  cases ts with
  | nil => cases h
  | cons t us => exact ⟨t, us, rfl, hK t.kind h⟩

/-! ## The grammar

A redirection or a word extends a command, so its derivation carries the command along. -/

/-- `'<' | '>' | '>>'` -/
def Tok.redirOp : Tok → Option RedirOp
  | .lt => some .input
  | .gt => some .output
  | .app => some .append
  | _ => none

/-- `redir*`, and what it makes of a command. -/
inductive Redirs : List Token → Cmd → Cmd → Prop
  | nil (c : Cmd) : Redirs [] c c
  | cons {t w : Token} {op : RedirOp} {ts : List Token} {c d : Cmd} (hop : t.kind.redirOp = some op)
      (hw : w.kind = .word) (h : Redirs ts (.redir c ⟨op, w.span⟩) d) : Redirs (t :: w :: ts) c d

/-- `(word redir*)*` with `k` words, and what it makes of a command. -/
inductive Words : List Token → Cmd → (k : ℕ) → Cmd → Prop
  | nil (c : Cmd) : Words [] c 0 c
  | cons {w : Token} {rs ts : List Token} {c d e : Cmd} {k : ℕ} (hw : w.kind = .word)
      (hr : Redirs rs (c.pushArg w.span) d) (h : Words ts d k e) : Words (w :: (rs ++ ts)) c (k + 1) e

/-- `'&'*`, and what it makes of a command. -/
inductive Backs : List Token → Cmd → Cmd → Prop
  | nil (c : Cmd) : Backs [] c c
  | cons {t : Token} {ts : List Token} {c d : Cmd} (ht : t.kind = .amp) (h : Backs ts (.back c) d) :
      Backs (t :: ts) c d

/-- The functions of the parser. -/
inductive Nonterminal
  | line
  | pipe
  | exec
  | block

/-- **The grammar of the shell**, with the tree of a derivation. -/
inductive Derives : Nonterminal → List Token → Cmd → Prop
  | line {ts bs : List Token} {c d : Cmd} (hp : Derives .pipe ts c) (hb : Backs bs c d) :
      Derives .line (ts ++ bs) d
  | list {ts bs us : List Token} {t : Token} {c d e : Cmd} (hp : Derives .pipe ts c) (hb : Backs bs c d)
      (ht : t.kind = .semi) (hl : Derives .line us e) : Derives .line (ts ++ (bs ++ t :: us)) (.list d e)
  | one {ts : List Token} {c : Cmd} (h : Derives .exec ts c) : Derives .pipe ts c
  | pipe {ts us : List Token} {t : Token} {c d : Cmd} (h : Derives .exec ts c) (ht : t.kind = .bar)
      (hp : Derives .pipe us d) : Derives .pipe (ts ++ t :: us) (.pipe c d)
  | compound {ts : List Token} {c : Cmd} (h : Derives .block ts c) : Derives .exec ts c
  | simple {rs ts : List Token} {c d : Cmd} {k : ℕ} (hr : Redirs rs (.exec []) c) (hw : Words ts c k d)
      (hk : k < MAXARGS) : Derives .exec (rs ++ ts) d
  | block {t u : Token} {ts rs : List Token} {c d : Cmd} (ht : t.kind = .lparen) (hl : Derives .line ts c)
      (hu : u.kind = .rparen) (hr : Redirs rs c d) : Derives .block (t :: (ts ++ u :: rs)) d

/-! ## What the parser finds is a derivation

By induction on the fuel, of which every call of the parser uses one. -/

/-- The panic has a message. -/
def ShPanic.Printed (e : ShPanic) : Prop := e.text.isSome = true

section Loops

variable {fuel : ℕ} {ts : List Token} {c : Cmd}

theorem parseredirs_sound (hfuel : ts.length < fuel) :
    Through (tokens n) (parseredirs n fuel c) ts (fun d vs => ∃ us, ts = us ++ vs ∧ Redirs us c d)
      ShPanic.Printed := by
  induction fuel generalizing ts c with
  | zero => exact absurd hfuel (Nat.not_lt_zero _)
  | succ fuel ih =>
    rw [parseredirs]
    refine peek_ite (by decide) (fun hstart => ?_) fun _ => .pure ⟨[], rfl, .nil c⟩
    obtain ⟨t, us, rfl, ht⟩ := of_starts (K := [.lt, .gt, .app]) (by intro k; cases k <;> decide) hstart
    refine gettoken_bind fun _ => ?_
    cases us with
    | nil =>
      refine gettoken_nil_bind fun w hw => ?_
      rw [if_pos (by rw [hw]; decide)]
      exact .throw rfl
    | cons w us =>
      refine gettoken_bind fun _ => .ite (fun _ => .throw rfl) fun hw => ?_
      have hstep : ∀ op, t.kind.redirOp = some op → Through (tokens n)
          (parseredirs n fuel (.redir c ⟨op, w.span⟩)) us
          (fun d vs => ∃ us', t :: w :: us = us' ++ vs ∧ Redirs us' c d) ShPanic.Printed := by
        intro op hop
        refine (ih (by simp only [length_cons] at hfuel; omega)).imp ?_
        rintro d vs ⟨us', rfl, hr⟩
        exact ⟨t :: w :: us', rfl, .cons hop (not_not.1 hw) hr⟩
      simp only [mem_cons, not_mem_nil, or_false] at ht
      obtain ht | ht | ht := ht <;> simp only [ht] <;> exact hstep _ (by rw [ht]; rfl)

theorem storeArg_bind {α : Type} {argc : ℕ} {x : ShM α} {Q : α → List Token → Prop} {E : ShPanic → Prop}
    (hargc : argc < MAXARGS) (h : Through (tokens n) x ts Q E) :
    Through (tokens n) (do storeArg argc; x) ts Q E := by
  rw [storeArg, if_pos hargc]
  exact Through.bind (Q := fun _ us => us = ts) (.pure rfl) fun _ _ hus => hus ▸ h

theorem parseargs_sound {argc : ℕ} (hfuel : ts.length < fuel) (hargc : argc < MAXARGS) :
    Through (tokens n) (parseargs n fuel argc c) ts
      (fun d vs => ∃ us k, ts = us ++ vs ∧ Words us c k d ∧ argc + k < MAXARGS) ShPanic.Printed := by
  induction fuel generalizing ts argc c with
  | zero => exact absurd hfuel (Nat.not_lt_zero _)
  | succ fuel ih =>
    have hend : ∀ {ts : List Token}, Through (tokens n) (do storeArg argc; return c) ts
        (fun d vs => ∃ us k, ts = us ++ vs ∧ Words us c k d ∧ argc + k < MAXARGS) ShPanic.Printed :=
      storeArg_bind hargc (.pure ⟨[], 0, rfl, .nil c, hargc⟩)
    rw [parseargs]
    refine peek_ite (by decide) (fun _ => hend) fun _ => ?_
    cases ts with
    | nil =>
      refine gettoken_nil_bind fun w hw => ?_
      rw [if_pos hw]
      exact hend
    | cons w us =>
      refine gettoken_bind fun hne => ?_
      rw [if_neg hne]
      refine .ite (fun _ => .throw rfl) fun hw => storeArg_bind hargc (.ite (fun _ => .throw rfl) fun hmore => ?_)
      rw [length_cons] at hfuel
      refine (parseredirs_sound (by omega)).bind ?_
      rintro d vs ⟨rs, rfl, hr⟩
      rw [length_append] at hfuel
      refine (ih (by omega) (by omega)).imp ?_
      rintro e vs' ⟨us', k, rfl, hws, hk⟩
      exact ⟨w :: (rs ++ us'), k + 1, by simp, .cons (not_not.1 hw) hr hws, by omega⟩

theorem parsebacks_sound (hfuel : ts.length < fuel) :
    Through (tokens n) (parsebacks n fuel c) ts (fun d vs => ∃ us, ts = us ++ vs ∧ Backs us c d)
      ShPanic.Printed := by
  induction fuel generalizing ts c with
  | zero => exact absurd hfuel (Nat.not_lt_zero _)
  | succ fuel ih =>
    rw [parsebacks]
    refine peek_ite (by decide) (fun hstart => ?_) fun _ => .pure ⟨[], rfl, .nil c⟩
    obtain ⟨t, us, rfl, ht⟩ := of_starts (K := [.amp]) (by intro k; cases k <;> decide) hstart
    refine gettoken_bind fun _ => (ih (by rw [length_cons] at hfuel; omega)).imp ?_
    rintro d vs ⟨us', rfl, hb⟩
    exact ⟨t :: us', rfl, .cons (mem_singleton.1 ht) hb⟩

end Loops

def parser (n : ℕ) : Nonterminal → (fuel : ℕ) → ShM Cmd
  | .line => parseline n
  | .pipe => parsepipe n
  | .exec => parseexec n
  | .block => parseblock n

/-- How many calls may follow one another at a token. -/
def Nonterminal.rank : Nonterminal → ℕ
  | .line => 3
  | .pipe => 2
  | .exec => 1
  | .block => 0

/-- **A run that returns has found a derivation**, and any other ends in a panic over the text. -/
theorem sound {fuel : ℕ} {x : Nonterminal} (hfuel : 4 * ts.length + x.rank < fuel) :
    Through (tokens n) (parser n x fuel) ts (fun c vs => ∃ us, ts = us ++ vs ∧ Derives x us c)
      ShPanic.Printed := by
  induction fuel generalizing x ts with
  | zero => exact absurd hfuel (Nat.not_lt_zero _)
  | succ fuel ih =>
    cases x with
    | line =>
      rw [parser, parseline]
      refine (ih (x := .pipe) (by simp only [Nonterminal.rank] at *; omega)).bind ?_
      rintro c vs ⟨us, rfl, hp⟩
      simp only [Nonterminal.rank, length_append] at hfuel
      refine (parsebacks_sound (by omega)).bind ?_
      rintro d vs ⟨bs, rfl, hb⟩
      refine peek_ite (by decide) (fun hstart => ?_) fun _ => .pure ⟨us ++ bs, by simp, .line hp hb⟩
      obtain ⟨t, vs, rfl, ht⟩ := of_starts (K := [.semi]) (by intro k; cases k <;> decide) hstart
      simp only [length_append, length_cons] at hfuel
      refine gettoken_bind fun _ => (ih (x := .line) (by simp only [Nonterminal.rank]; omega)).bind ?_
      rintro e vs' ⟨us', rfl, hl⟩
      exact .pure ⟨us ++ (bs ++ t :: us'), by simp, .list hp hb (mem_singleton.1 ht) hl⟩
    | pipe =>
      rw [parser, parsepipe]
      refine (ih (x := .exec) (by simp only [Nonterminal.rank] at *; omega)).bind ?_
      rintro c vs ⟨us, rfl, he⟩
      refine peek_ite (by decide) (fun hstart => ?_) fun _ => .pure ⟨us, rfl, .one he⟩
      obtain ⟨t, vs, rfl, ht⟩ := of_starts (K := [.bar]) (by intro k; cases k <;> decide) hstart
      simp only [Nonterminal.rank, length_append, length_cons] at hfuel
      refine gettoken_bind fun _ => (ih (x := .pipe) (by simp only [Nonterminal.rank]; omega)).bind ?_
      rintro d vs' ⟨us', rfl, hp⟩
      exact .pure ⟨us ++ t :: us', by simp, .pipe he (mem_singleton.1 ht) hp⟩
    | exec =>
      rw [parser, parseexec]
      refine peek_ite (by decide) (fun _ => ?_) fun _ => ?_
      · refine (ih (x := .block) (by simp only [Nonterminal.rank] at *; omega)).imp ?_
        rintro c vs ⟨us, rfl, hb⟩
        exact ⟨us, rfl, .compound hb⟩
      · simp only [Nonterminal.rank] at hfuel
        refine (parseredirs_sound (by omega)).bind ?_
        rintro c vs ⟨rs, rfl, hr⟩
        rw [length_append] at hfuel
        refine (parseargs_sound (by omega) (by decide)).imp ?_
        rintro d vs' ⟨us, k, rfl, hw, hk⟩
        exact ⟨rs ++ us, by simp, .simple hr hw (by omega)⟩
    | block =>
      rw [parser, parseblock]
      refine peek_ite (by decide) (fun hstart => ?_) fun _ => .throw rfl
      obtain ⟨t, vs, rfl, ht⟩ := of_starts (K := [.lparen]) (by intro k; cases k <;> decide) hstart
      simp only [Nonterminal.rank, length_cons] at hfuel
      refine gettoken_bind fun _ => (ih (x := .line) (by simp only [Nonterminal.rank]; omega)).bind ?_
      rintro c vs ⟨us, rfl, hl⟩
      refine peek_ite (by decide) (fun hstart => ?_) fun _ => .throw rfl
      obtain ⟨u, vs, rfl, hu⟩ := of_starts (K := [.rparen]) (by intro k; cases k <;> decide) hstart
      simp only [length_append, length_cons] at hfuel
      refine gettoken_bind fun _ => (parseredirs_sound (by omega)).imp ?_
      rintro d vs' ⟨rs, rfl, hr⟩
      exact ⟨t :: (us ++ u :: rs), by simp, .block (mem_singleton.1 ht) hl (mem_singleton.1 hu) hr⟩

/-! ## Where there is a derivation, the parser finds it

By induction on the derivation; what follows must not be taken for a part of it. -/

def Nonterminal.follow : Nonterminal → List Tok
  | .line => [.rparen]
  | .pipe => [.rparen, .amp, .semi]
  | .exec => [.rparen, .amp, .semi, .bar]
  | .block => [.rparen, .amp, .semi, .bar]

/-- The line ends here, or one of the tokens `K` follows. -/
def Next (K : List Tok) (vs : List Token) : Prop := ∀ t ∈ vs.head?, t.kind ∈ K

theorem next_cons {t : Token} (h : t.kind ∈ K) : Next K (t :: vs) := by
  rintro u ⟨⟩
  exact h

theorem Next.starts_eq_false (h : Next K vs)
    (hK : ∀ k ∈ K, k.first.any (· ∈ cs) = false) : starts cs vs = false := by
  cases vs with
  | nil => rfl
  | cons t vs => exact hK _ (h t rfl)

theorem Next.mono {K' : List Tok} (h : Next K vs) (hK : K ⊆ K') : Next K' vs :=
  fun t ht => hK (h t ht)

section Loops

variable {fuel : ℕ} {rs ts vs : List Token} {c d : Cmd}

theorem parseredirs_complete (h : Redirs rs c d) (hvs : starts [LT, GT] vs = false)
    (hfuel : (rs ++ vs).length < fuel) :
    Through (tokens n) (parseredirs n fuel c) (rs ++ vs) (fun e us => e = d ∧ us = vs) := by
  induction h generalizing fuel with
  | nil c =>
    obtain ⟨fuel, rfl⟩ := Nat.exists_eq_add_of_lt hfuel
    rw [parseredirs]
    exact peek_else (by decide) hvs (.pure ⟨rfl, rfl⟩)
  | @cons t w op ts c d hop hw h ih =>
    obtain ⟨fuel, rfl⟩ := Nat.exists_eq_add_of_lt hfuel
    have hrec := @ih ((t :: w :: ts ++ vs).length + fuel) (by simp; omega)
    have hstart : starts [LT, GT] (t :: w :: ts ++ vs) = true :=
      starts_cons rfl (by cases hk : t.kind <;> rw [hk] at hop <;> cases hop <;> decide) _
    rw [parseredirs]
    refine peek_then (by decide) hstart (gettoken_bind fun _ => gettoken_bind fun _ => ?_)
    rw [if_neg (not_not.2 hw)]
    cases hk : t.kind <;> rw [hk] at hop <;> cases hop <;> exact hrec

/-- The words of a command are not taken for symbols. -/
theorem Words.starts_eq_false {k : ℕ} {cs : List Byte} (h : Words ts c k d) (hvs : starts cs vs = false) :
    starts cs (ts ++ vs) = false := by
  cases h with
  | nil => exact hvs
  | cons hw => exact starts_cons hw rfl _

theorem Redirs.starts_eq_false (h : Redirs rs c d) (hvs : starts [LPAREN] vs = false) :
    starts [LPAREN] (rs ++ vs) = false := by
  cases h with
  | nil => exact hvs
  | @cons t _ _ _ _ _ hop =>
    exact starts_cons rfl (by cases hk : t.kind <;> rw [hk] at hop <;> cases hop <;> decide) _

theorem parseargs_complete {argc k : ℕ} (h : Words ts c k d) (hk : argc + k < MAXARGS)
    (hvs : Next Nonterminal.exec.follow vs) (hfuel : (ts ++ vs).length < fuel) :
    Through (tokens n) (parseargs n fuel argc c) (ts ++ vs) (fun e us => e = d ∧ us = vs) := by
  induction h generalizing fuel argc with
  | nil c =>
    obtain ⟨fuel, rfl⟩ := Nat.exists_eq_add_of_lt hfuel
    have hend : ∀ {ts : List Token}, ts = vs → Through (tokens n) (do storeArg argc; return c) ts
        (fun e us => e = c ∧ us = vs) := fun hts => storeArg_bind hk (.pure ⟨rfl, hts⟩)
    rw [parseargs]
    cases vs with
    | nil =>
      refine peek_else (by decide) rfl (gettoken_nil_bind fun w hw => ?_)
      rw [if_pos hw]
      exact hend rfl
    | cons t vs =>
      have hkind := hvs t rfl
      simp only [Nonterminal.follow, mem_cons, not_mem_nil, or_false] at hkind
      have hstart : starts [BAR, RPAREN, AMP, SEMI] (t :: vs) = true := by
        obtain ht | ht | ht | ht := hkind <;> exact starts_cons ht (by decide) vs
      exact peek_then (by decide) hstart (hend rfl)
  | @cons w rs ts c d e k hw hr h ih =>
    obtain ⟨fuel, rfl⟩ := Nat.exists_eq_add_of_lt hfuel
    have hlen : (w :: (rs ++ ts) ++ vs).length = (rs ++ (ts ++ vs)).length + 1 := by simp [add_assoc]
    have hrest : starts [LT, GT] (ts ++ vs) = false :=
      h.starts_eq_false (hvs.starts_eq_false (by decide))
    have hassoc : rs ++ ts ++ vs = rs ++ (ts ++ vs) := append_assoc ..
    rw [parseargs]
    refine peek_else (by decide) (starts_cons hw rfl _) (gettoken_bind fun hne => ?_)
    rw [if_neg hne, if_neg (not_not.2 hw)]
    refine storeArg_bind (by omega) ?_
    rw [if_neg (by omega)]
    change Through _ _ (rs ++ ts ++ vs) _ _
    rw [hassoc]
    refine (parseredirs_complete hr hrest (by omega)).bind ?_
    rintro _ _ ⟨rfl, rfl⟩
    have hle : (ts ++ vs).length ≤ (rs ++ (ts ++ vs)).length := by simp
    exact ih (by omega) (by omega)

theorem parsebacks_complete (h : Backs ts c d) (hvs : starts [AMP] vs = false)
    (hfuel : (ts ++ vs).length < fuel) :
    Through (tokens n) (parsebacks n fuel c) (ts ++ vs) (fun e us => e = d ∧ us = vs) := by
  induction h generalizing fuel with
  | nil c =>
    obtain ⟨fuel, rfl⟩ := Nat.exists_eq_add_of_lt hfuel
    rw [parsebacks]
    exact peek_else (by decide) hvs (.pure ⟨rfl, rfl⟩)
  | @cons t ts c d ht h ih =>
    obtain ⟨fuel, rfl⟩ := Nat.exists_eq_add_of_lt hfuel
    have hrec := @ih ((t :: ts ++ vs).length + fuel) (by simp; omega)
    rw [parsebacks]
    exact peek_then (by decide) (starts_cons ht (by decide) _) (gettoken_bind fun _ => hrec)

end Loops

/-- **Where there is a derivation, the run finds it**, if what follows may follow. -/
theorem complete {x : Nonterminal} {fuel : ℕ} (h : Derives x ts c)
    (hvs : Next x.follow vs) (hfuel : 4 * (ts ++ vs).length + x.rank < fuel) :
    Through (tokens n) (parser n x fuel) (ts ++ vs) (fun d us => d = c ∧ us = vs) := by
  induction h generalizing vs fuel with
  | @line ts bs c d hp hb ih =>
    have hassoc : ts ++ bs ++ vs = ts ++ (bs ++ vs) := append_assoc ..
    have hnext : Next Nonterminal.pipe.follow (bs ++ vs) := by
      cases hb with
      | nil => exact hvs.mono (by decide)
      | cons ht => exact next_cons (by rw [ht]; decide)
    have hle : (bs ++ vs).length ≤ (ts ++ (bs ++ vs)).length := by simp
    simp only [hassoc, Nonterminal.rank] at *
    obtain ⟨fuel, rfl⟩ := Nat.exists_eq_add_of_lt hfuel
    rw [parser, parseline]
    refine (ih hnext (by omega)).bind ?_
    rintro _ _ ⟨rfl, rfl⟩
    refine (parsebacks_complete hb (hvs.starts_eq_false (by decide)) (by omega)).bind ?_
    rintro _ _ ⟨rfl, rfl⟩
    exact peek_else (by decide) (hvs.starts_eq_false (by decide)) (.pure ⟨rfl, rfl⟩)
  | @list ts bs us t c d e hp hb ht hl ih ih' =>
    have hassoc : ts ++ (bs ++ t :: us) ++ vs = ts ++ (bs ++ t :: (us ++ vs)) := by simp
    have hnext : Next Nonterminal.pipe.follow (bs ++ t :: (us ++ vs)) := by
      cases hb with
      | nil => exact next_cons (by rw [ht]; decide)
      | cons ht => exact next_cons (by rw [ht]; decide)
    have hle : (bs ++ t :: (us ++ vs)).length ≤ (ts ++ (bs ++ t :: (us ++ vs))).length := by simp
    have hle' : (us ++ vs).length + 1 ≤ (bs ++ t :: (us ++ vs)).length := by simp
    simp only [hassoc, Nonterminal.rank] at *
    obtain ⟨fuel, rfl⟩ := Nat.exists_eq_add_of_lt hfuel
    rw [parser, parseline]
    refine (ih hnext (by omega)).bind ?_
    rintro _ _ ⟨rfl, rfl⟩
    refine (parsebacks_complete hb (starts_cons ht (by decide) _) (by omega)).bind ?_
    rintro _ _ ⟨rfl, rfl⟩
    refine peek_then (by decide) (starts_cons ht (by decide) _) (gettoken_bind fun _ => ?_)
    refine (ih' hvs (by omega)).bind ?_
    rintro _ _ ⟨rfl, rfl⟩
    exact .pure ⟨rfl, rfl⟩
  | @one ts c h ih =>
    simp only [Nonterminal.rank] at *
    obtain ⟨fuel, rfl⟩ := Nat.exists_eq_add_of_lt hfuel
    rw [parser, parsepipe]
    refine (ih (hvs.mono (by decide)) (by omega)).bind ?_
    rintro _ _ ⟨rfl, rfl⟩
    exact peek_else (by decide) (hvs.starts_eq_false (by decide)) (.pure ⟨rfl, rfl⟩)
  | @pipe ts us t c d h ht hp ih ih' =>
    have hassoc : ts ++ t :: us ++ vs = ts ++ t :: (us ++ vs) := by simp
    have hle : (us ++ vs).length + 1 ≤ (ts ++ t :: (us ++ vs)).length := by simp
    simp only [hassoc, Nonterminal.rank] at *
    obtain ⟨fuel, rfl⟩ := Nat.exists_eq_add_of_lt hfuel
    rw [parser, parsepipe]
    refine (ih (next_cons (by rw [ht]; decide)) (by omega)).bind ?_
    rintro _ _ ⟨rfl, rfl⟩
    refine peek_then (by decide) (starts_cons ht (by decide) _) (gettoken_bind fun _ => ?_)
    refine (ih' hvs (by omega)).bind ?_
    rintro _ _ ⟨rfl, rfl⟩
    exact .pure ⟨rfl, rfl⟩
  | @compound ts c h ih =>
    simp only [Nonterminal.rank] at *
    obtain ⟨fuel, rfl⟩ := Nat.exists_eq_add_of_lt hfuel
    have hstart : starts [LPAREN] (ts ++ vs) = true := by
      cases h with
      | block ht => exact starts_cons ht (by decide) _
    rw [parser, parseexec]
    exact peek_then (by decide) hstart (ih hvs (by omega))
  | @simple rs ts c d k hr hw hk =>
    have hassoc : rs ++ ts ++ vs = rs ++ (ts ++ vs) := append_assoc ..
    have hparen : starts [LPAREN] (rs ++ (ts ++ vs)) = false :=
      hr.starts_eq_false (hw.starts_eq_false (hvs.starts_eq_false (by decide)))
    have hle : (ts ++ vs).length ≤ (rs ++ (ts ++ vs)).length := by simp
    simp only [hassoc, Nonterminal.rank] at *
    obtain ⟨fuel, rfl⟩ := Nat.exists_eq_add_of_lt hfuel
    rw [parser, parseexec]
    refine peek_else (by decide) hparen ?_
    refine (parseredirs_complete hr (hw.starts_eq_false (hvs.starts_eq_false (by decide))) (by omega)).bind ?_
    rintro _ _ ⟨rfl, rfl⟩
    exact parseargs_complete hw (by omega) hvs (by omega)
  | @block t u ts rs c d ht hl hu hr ih =>
    have hassoc : t :: (ts ++ u :: rs) ++ vs = t :: (ts ++ u :: (rs ++ vs)) := by simp
    have hle : (rs ++ vs).length + 1 ≤ (ts ++ u :: (rs ++ vs)).length := by simp
    simp only [hassoc, Nonterminal.rank, length_cons] at *
    obtain ⟨fuel, rfl⟩ := Nat.exists_eq_add_of_lt hfuel
    rw [parser, parseblock]
    refine peek_then (by decide) (starts_cons ht (by decide) _) (gettoken_bind fun _ => ?_)
    refine (ih (next_cons (by rw [hu]; decide)) (by omega)).bind ?_
    rintro _ _ ⟨rfl, rfl⟩
    refine peek_then (by decide) (starts_cons hu (by decide) _) (gettoken_bind fun _ => ?_)
    exact parseredirs_complete hr (hvs.starts_eq_false (by decide)) (by omega)

/-! ## The whole line -/

theorem leftovers_through {Q : Cmd → List Token → Prop} {E : ShPanic → Prop}
    (h : ts = [] → Q c []) (h' : ts ≠ [] → E .leftovers) :
    Through (tokens n) (do let _ ← peek []; if (← get) ≠ [] then throw .leftovers else return c) ts Q E := by
  intro s hs
  have hrun : peek [] s = .ok (starts [] ts, skip s) := by
    rw [peek, any_head_skip (by decide) s, hs]
  rw [bind_iff, ok_iff hrun, get_bind_iff]
  by_cases hts : ts = []
  · have hskip : skip s = [] := tokens_eq_nil_iff.1 (hs.trans hts)
    rw [if_neg (not_not.2 hskip), pure_iff, tokens_skip, hs, hts]
    exact h hts
  · rw [if_pos fun hskip => hts (hs.symm.trans (tokens_eq_nil_iff.2 hskip))]
    exact .throw (h' hts)

theorem parsecmd_eq_ok_iff {m : ℕ → Byte} : parsecmd line = .ok (c, m) ↔
    (∃ s', parse line.length (4 * line.length + 4) line = .ok (c, s')) ∧
      m = nulterminate c fun p => line.getD p 0 := by
  rw [parsecmd, StateT.run']
  cases hrun : parse line.length (4 * line.length + 4) line with
  | error e => exact iff_of_false (by rintro ⟨⟩) (by rintro ⟨⟨_, ⟨⟩⟩, -⟩)
  | ok r =>
    constructor
    · rintro ⟨⟩
      exact ⟨⟨r.2, rfl⟩, rfl⟩
    · rintro ⟨⟨s', ⟨⟩⟩, rfl⟩
      rfl

theorem parsecmd_eq_error_iff {e : ShPanic} : parsecmd line = .error e ↔
    parse line.length (4 * line.length + 4) line = .error e := by
  rw [parsecmd, StateT.run']
  cases hrun : parse line.length (4 * line.length + 4) line with
  | error e' =>
    constructor
    · rintro ⟨⟩
      rfl
    · rintro ⟨⟩
      rfl
  | ok r => exact iff_of_false (by rintro ⟨⟩) (by rintro ⟨⟩)

theorem parse_sound (line : List Byte) :
    Ensures (parse line.length (4 * line.length + 4)) line
      (fun c _ => Derives .line (tokens line.length line) c) ShPanic.Printed := by
  have hlen := length_tokens_le line.length line
  have hline : Through (tokens line.length) (parser line.length .line (4 * line.length + 4))
      (tokens line.length line) (fun c vs => ∃ us, tokens line.length line = us ++ vs ∧ Derives .line us c)
      ShPanic.Printed := sound (by simp only [Nonterminal.rank]; omega)
  refine hline.bind (R := fun c _ => Derives .line (tokens line.length line) c) ?_ line rfl
  rintro c vs ⟨us, hus, hd⟩
  refine leftovers_through (fun hvs => ?_) fun _ => rfl
  rw [hus, hvs, append_nil]
  exact hd

theorem parse_complete (h : Derives .line (tokens line.length line) c) :
    Ensures (parse line.length (4 * line.length + 4)) line (fun d _ => d = c) := by
  have hlen := length_tokens_le line.length line
  have hline : Through (tokens line.length) (parser line.length .line (4 * line.length + 4))
      (tokens line.length line ++ []) (fun d us => d = c ∧ us = []) fun _ => False := by
    refine complete h (fun _ ht => by cases ht) ?_
    rw [append_nil]
    simp only [Nonterminal.rank]
    omega
  refine hline.bind (R := fun d _ => d = c) ?_ line (append_nil _).symm
  rintro d vs ⟨rfl, rfl⟩
  exact leftovers_through (fun _ => rfl) fun h => absurd rfl h

/-! ## The words of a command -/

/-- The words of the `execcmd` under some redirections. -/
def Cmd.words : Cmd → Option (List Span)
  | .exec argv => some argv
  | .redir cmd _ => cmd.words
  | _ => none

/-- The `argv` of each `execcmd`. -/
def Cmd.execs : Cmd → List (List Span)
  | .exec argv => [argv]
  | .redir cmd _ => cmd.execs
  | .pipe left right => left.execs ++ right.execs
  | .list left right => left.execs ++ right.execs
  | .back cmd => cmd.execs

theorem Cmd.words_pushArg (w : Span) (c : Cmd) : (c.pushArg w).words = c.words.map (· ++ [w]) := by
  induction c with
  | redir c r ih => exact ih
  | _ => rfl

theorem Cmd.execs_of_words {argv : List Span} (h : c.words = some argv) : c.execs = [argv] := by
  induction c with
  | exec argv' =>
    cases h
    rfl
  | redir c r ih => exact ih h
  | _ => cases h

theorem Redirs.words_eq (h : Redirs rs c d) : d.words = c.words := by
  induction h with
  | nil => rfl
  | cons _ _ _ ih => exact ih

theorem Redirs.execs_eq (h : Redirs rs c d) : d.execs = c.execs := by
  induction h with
  | nil => rfl
  | cons _ _ _ ih => exact ih

theorem Backs.execs_eq (h : Backs ts c d) : d.execs = c.execs := by
  induction h with
  | nil => rfl
  | cons _ _ ih => exact ih

theorem Words.words_eq {k : ℕ} {argv : List Span} (h : Words ts c k d)
    (hc : c.words = some argv) : ∃ argv', d.words = some argv' ∧ argv'.length = argv.length + k := by
  induction h generalizing argv with
  | nil => exact ⟨argv, hc, rfl⟩
  | cons hw hr h ih =>
    obtain ⟨argv', hd, hlen⟩ := ih (hr.words_eq.trans (by rw [Cmd.words_pushArg, hc, Option.map_some]))
    refine ⟨argv', hd, ?_⟩
    rw [hlen, length_append, length_singleton]
    omega

theorem Derives.length_lt {x : Nonterminal} (h : Derives x ts c) :
    ∀ argv ∈ c.execs, argv.length < MAXARGS := by
  induction h with
  | line _ hb ih => rwa [hb.execs_eq]
  | list _ hb _ _ ih ih' =>
    intro argv hargv
    rw [Cmd.execs, hb.execs_eq] at hargv
    exact (mem_append.1 hargv).elim (ih argv) (ih' argv)
  | one _ ih => exact ih
  | pipe _ _ _ ih ih' =>
    intro argv hargv
    exact (mem_append.1 hargv).elim (ih argv) (ih' argv)
  | compound _ ih => exact ih
  | simple hr hw hk =>
    obtain ⟨argv', hd, hlen⟩ := hw.words_eq hr.words_eq
    intro argv hargv
    rw [Cmd.execs_of_words hd, mem_singleton] at hargv
    rw [hargv, hlen, length_nil]
    omega
  | block _ _ _ hr ih => rwa [hr.execs_eq]

/-- **The parser of the shell accepts its grammar.** -/
theorem parsecmd_accepts (line : List Byte) :
    (∀ c, (∃ m, parsecmd line = .ok (c, m)) ↔ Derives .line (tokens line.length line) c) ∧
    (∀ c m, parsecmd line = .ok (c, m) → ∀ argv ∈ c.execs, argv.length < MAXARGS) ∧
    ∀ e, parsecmd line = .error e → e.Printed := by
  have hok : ∀ c m, parsecmd line = .ok (c, m) → Derives .line (tokens line.length line) c := by
    intro c m h
    obtain ⟨⟨s', hrun⟩, -⟩ := parsecmd_eq_ok_iff.1 h
    exact (parse_sound line).of_ok hrun
  refine ⟨fun c => ⟨?_, fun h => ?_⟩, fun c m h => (hok c m h).length_lt, fun e h => ?_⟩
  · rintro ⟨m, h⟩
    exact hok c m h
  · obtain ⟨d, s', hrun, rfl⟩ := (parse_complete h).exists_ok
    exact ⟨_, parsecmd_eq_ok_iff.2 ⟨⟨s', hrun⟩, rfl⟩⟩
  · exact (parse_sound line).of_error (parsecmd_eq_error_iff.1 h)

end Xv6.Sh

import Xv6.Param
import Xv6.User.ShText

/-!
# User/ShRun — the descriptors of the commands of the shell

`runcmd` arranges descriptors by the order of its calls, relying on `fdalloc` to take the lowest
free one.  A process is its table of descriptors, which `fork` copies; a run of `runcmd` is the list
of what its processes come to: an `exec`, a `wait` or an `exit`.  `pipe`, `fork` and `open` succeed
if there are descriptors left.
-/

namespace Xv6.Sh

open Machinery Function List Option

/-! ## Descriptors -/

/-- The sides of a pipe or a list. -/
inductive Side
  | left
  | right
  deriving DecidableEq, Repr

abbrev Path := List Side

/-- What a descriptor stands for. -/
inductive Obj
  /-- What was open at the start. -/
  | start (fd : ℕ)
  | file (name : List Byte) (mode : ℕ)
  /-- The ends of the pipe of a node. -/
  | readEnd (node : Path)
  | writeEnd (node : Path)
  deriving DecidableEq, Repr

/-- `ofile` -/
abbrev Table := ℕ → Option Obj

/-- The entry that `fdalloc` takes. -/
def fdalloc (t : Table) : Option ℕ := (List.range NOFILE).find? fun fd => decide (t fd = none)

def close (fd : ℕ) (t : Table) : Table := update t fd none

def dup (fd : ℕ) (t : Table) : Table :=
  match t fd, fdalloc t with
  | some o, some fd' => update t fd' (some o)
  | _, _ => t

/-- `open` of a file. -/
def openFile (o : Obj) (t : Table) : Option Table := (fdalloc t).map fun fd => update t fd (some o)

/-- `pipe`, and the descriptors of its two ends. -/
def pipe (node : Path) (t : Table) : Option (ℕ × ℕ × Table) := do
  let fd0 ← fdalloc t
  let t := update t fd0 (some (.readEnd node))
  let fd1 ← fdalloc t
  return (fd0, fd1, update t fd1 (some (.writeEnd node)))

/-! ## `runcmd` -/

/-- What a process comes to. -/
inductive Event
  | exec (node : Path) (argv : List Span) (t : Table)
  | wait (node : Path) (t : Table)
  | exit (node : Path) (t : Table)

def Event.node : Event → Path
  | .exec π _ _ => π
  | .wait π _ => π
  | .exit π _ => π

def Event.table : Event → Table
  | .exec _ _ t => t
  | .wait _ t => t
  | .exit _ t => t

section Runcmd

-- the strings of the command
variable (name : Span → List Byte)

def Redir.obj (r : Redir) : Obj := .file (name r.file) r.op.mode

/-- The `close` and the `open` of a redirection. -/
def redirect (r : Redir) (t : Table) : Option Table := openFile (r.obj name) (close r.op.fd t)

/-- **`runcmd`**, and what its process and those it forks come to. -/
def runcmd : Cmd → (node : Path) → Table → List Event
  | .exec [], π, t => [.exit π t]
  | .exec (w :: argv), π, t => [.exec π (w :: argv) t]
  | .redir cmd r, π, t =>
    match redirect name r t with
    | none => [.exit π t]
    | some t => runcmd cmd π t
  | .list left right, π, t =>
    runcmd left (π ++ [.left]) t ++ .wait π t :: runcmd right (π ++ [.right]) t
  | .pipe left right, π, t =>
    match pipe π t with
    | none => [.exit π t]
    | some (p0, p1, t) =>
      runcmd left (π ++ [.left]) (close p1 (close p0 (dup p1 (close 1 t)))) ++
        runcmd right (π ++ [.right]) (close p1 (close p0 (dup p0 (close 0 t)))) ++
        [.wait π (close p1 (close p0 t))]
  | .back cmd, π, t => runcmd cmd (π ++ [.left]) t ++ [.exit π t]

/-! ## What the tree says

The specification: the nodes around a command say what its descriptors stand for. -/

/-- What the nodes around a command set, the nearest first. -/
abbrev Settings := List (ℕ × Obj)

/-- What the nearest node that sets `fd` gives it, or else what it was at the start. -/
def given (s : Settings) (fd : ℕ) : Obj := ((s.find? fun x => x.1 = fd).map Prod.snd).getD (.start fd)

/-- **Exactly the descriptors 0, 1 and 2 are open**, as the nodes around say. -/
def table (s : Settings) : Table := fun fd => if fd < 3 then some (given s fd) else none

/-- The simple commands with a word, each with what the nodes around it set. -/
def leaves : Cmd → (node : Path) → Settings → List (Path × List Span × Settings)
  | .exec [], _, _ => []
  | .exec (w :: argv), π, s => [(π, w :: argv, s)]
  | .redir cmd r, π, s => leaves cmd π ((r.op.fd, r.obj name) :: s)
  | .list left right, π, s => leaves left (π ++ [.left]) s ++ leaves right (π ++ [.right]) s
  | .pipe left right, π, s =>
    leaves left (π ++ [.left]) ((1, .writeEnd π) :: s) ++ leaves right (π ++ [.right]) ((0, .readEnd π) :: s)
  | .back cmd, π, s => leaves cmd (π ++ [.left]) s

end Runcmd

/-! ## The tables of `runcmd` -/

variable {name : Span → List Byte} {t : Table} {s : Settings}

theorem fdalloc_eq {k : ℕ} (hk : k < NOFILE) (hfree : t k = none) (hused : ∀ i < k, t i ≠ none) :
    fdalloc t = some k := by
  refine List.find?_range_eq_some.2 ⟨decide_eq_true hfree, mem_range.2 hk, fun i hi => ?_⟩
  simpa using hused i hi

theorem given_cons (fd k : ℕ) (o : Obj) (s : Settings) :
    given ((k, o) :: s) fd = if k = fd then o else given s fd := by
  rw [given, List.find?_cons]
  by_cases h : k = fd
  · simp [h]
  · simp [h, given]

variable {fd : ℕ} {π : Path}

theorem table_of_lt (h : fd < 3) : table s fd = some (given s fd) := if_pos h

theorem table_of_le (h : 3 ≤ fd) : table s fd = none := if_neg (not_lt.2 h)

theorem update_table (h : fd < 3) (o : Obj) : update (table s) fd (some o) = table ((fd, o) :: s) := by
  funext x
  rw [update_apply, table, table, given_cons]
  by_cases hx : x = fd
  · rw [if_pos hx, if_pos (hx ▸ h), if_pos hx.symm]
  · rw [if_neg hx, if_neg (Ne.symm hx)]

theorem fdalloc_close (h : fd < 3) {t : Table} (ht : ∀ i < 3, t i ≠ none) : fdalloc (close fd t) = some fd := by
  refine fdalloc_eq (by unfold NOFILE; omega) (update_self ..) fun i hi => ?_
  rw [close, update_of_ne (by omega)]
  exact ht i (by omega)

theorem table_ne_none {i : ℕ} (h : i < 3) : table s i ≠ none := by
  rw [table_of_lt h]
  exact some_ne_none _

theorem fd_lt (op : RedirOp) : op.fd < 3 := by cases op <;> decide

theorem redirect_table (r : Redir) (s : Settings) :
    redirect name r (table s) = some (table ((r.op.fd, r.obj name) :: s)) := by
  rw [redirect, openFile, fdalloc_close (fd_lt r.op) fun i hi => table_ne_none hi, map_some, close,
    update_idem, update_table (fd_lt r.op)]

theorem pipe_table (π : Path) (s : Settings) : pipe π (table s) =
    some (3, 4, update (update (table s) 3 (some (.readEnd π))) 4 (some (.writeEnd π))) := by
  have h3 : fdalloc (table s) = some 3 :=
    fdalloc_eq (by decide) (table_of_le le_rfl) fun i hi => table_ne_none hi
  have h4 : fdalloc (update (table s) 3 (some (.readEnd π))) = some 4 := by
    refine fdalloc_eq (by decide) ?_ fun i hi => ?_
    · rw [update_of_ne (by decide), table_of_le (by decide)]
    · by_cases hi3 : i = 3
      · rw [hi3, update_self]
        exact some_ne_none _
      · rw [update_of_ne hi3]
        exact table_ne_none (by omega)
  rw [pipe, h3]
  simp only [bind_eq_bind, bind_some, h4]
  rfl

def piped (π : Path) (s : Settings) : Table :=
  update (update (table s) 3 (some (.readEnd π))) 4 (some (.writeEnd π))

theorem close_piped (π : Path) (s : Settings) : close 4 (close 3 (piped π s)) = table s := by
  funext x
  simp only [close, piped, update_apply]
  split_ifs with h4 h3
  · rw [h4, table_of_le (by decide)]
  · rw [h3, table_of_le le_rfl]
  · rfl

theorem dup_piped (π : Path) (s : Settings) {p : ℕ} {o : Obj} (hfd : fd < 3) (hp : 3 ≤ p)
    (ho : piped π s p = some o) :
    close 4 (close 3 (dup p (close fd (piped π s)))) = table ((fd, o) :: s) := by
  have hopen : ∀ i < 3, piped π s i ≠ none := fun i hi => by
    rw [piped, update_of_ne (by omega), update_of_ne (by omega)]
    exact table_ne_none hi
  have hend : close fd (piped π s) p = some o := by rw [close, update_of_ne (by omega), ho]
  have hdup : dup p (close fd (piped π s)) = update (piped π s) fd (some o) := by
    rw [dup, hend, fdalloc_close hfd hopen]
    simp only [close, update_idem]
  have hcomm : close 4 (close 3 (update (piped π s) fd (some o))) =
      update (close 4 (close 3 (piped π s))) fd (some o) := by
    rw [close, close, close, close, update_comm (by omega : fd ≠ 3), update_comm (by omega : fd ≠ 4)]
  rw [hdup, hcomm, close_piped, update_table hfd]

/-! ## Every command is plumbed -/

/-- The `exec`s of a run. -/
def execs : List Event → List (Path × List Span × Table)
  | [] => []
  | .exec π argv t :: es => (π, argv, t) :: execs es
  | _ :: es => execs es

theorem execs_append (es es' : List Event) : execs (es ++ es') = execs es ++ execs es' := by
  induction es with
  | nil => rfl
  | cons e es ih =>
    cases e with
    | exec π argv t => exact congrArg ((π, argv, t) :: ·) ih
    | wait => exact ih
    | exit => exact ih

theorem runcmd_pipe (left right : Cmd) (π : Path) (s : Settings) :
    runcmd name (.pipe left right) π (table s) =
      runcmd name left (π ++ [.left]) (table ((1, .writeEnd π) :: s)) ++
        runcmd name right (π ++ [.right]) (table ((0, .readEnd π) :: s)) ++ [.wait π (table s)] := by
  rw [runcmd, pipe_table]
  simp only
  rw [← piped, dup_piped π s (by decide) (by decide) (show piped π s 4 = some (.writeEnd π) from update_self ..),
    dup_piped π s (by decide) le_rfl (show piped π s 3 = some (.readEnd π) from
      (update_of_ne (by decide) _ _).trans (update_self ..)), close_piped]

/-- **The tables of the commands** are as the nodes around them say. -/
theorem execs_runcmd (c : Cmd) (π : Path) (s : Settings) :
    execs (runcmd name c π (table s)) = (leaves name c π s).map fun l => (l.1, l.2.1, table l.2.2) := by
  induction c generalizing π s with
  | exec argv =>
    cases argv with
    | nil => rfl
    | cons w argv => rfl
  | redir c r ih =>
    rw [runcmd, redirect_table]
    exact ih π _
  | pipe l r ihl ihr =>
    rw [runcmd_pipe, execs_append, execs_append, ihl, ihr, leaves, map_append]
    exact append_nil _
  | list l r ihl ihr =>
    rw [runcmd, execs_append, ihl, leaves, map_append]
    exact congrArg _ (ihr ..)
  | back c ih =>
    rw [runcmd, execs_append, ih, leaves]
    exact append_nil _

/-- **Who may have an end of a pipe**: the processes on its side. -/
def Obj.For (π : Path) : Obj → Prop
  | .writeEnd ρ => ρ ++ [.left] <+: π
  | .readEnd ρ => ρ ++ [.right] <+: π
  | _ => True

theorem Obj.For.mono {ρ : Path} {o : Obj} (h : o.For π) (hρ : π <+: ρ) : o.For ρ := by
  cases o with
  | readEnd => exact h.trans hρ
  | writeEnd => exact h.trans hρ
  | _ => trivial

theorem for_table (hs : ∀ x ∈ s, x.2.For π) {o : Obj} (h : table s fd = some o) : o.For π := by
  rw [table] at h
  split_ifs at h
  obtain rfl := some.inj h
  rw [given]
  cases hx : s.find? fun x => x.1 = fd with
  | none => trivial
  | some x => exact hs x (mem_of_find?_eq_some hx)

theorem for_below (hs : ∀ x ∈ s, x.2.For π) (x : Side) : ∀ y ∈ s, y.2.For (π ++ [x]) :=
  fun y hy => (hs y hy).mono (prefix_append _ _)

/-- No process keeps an end of a pipe that is not on its side. -/
theorem for_runcmd (c : Cmd) {s : Settings} (hs : ∀ x ∈ s, x.2.For π) :
    ∀ e ∈ runcmd name c π (table s), ∀ fd o, e.table fd = some o → o.For e.node := by
  induction c generalizing π s with
  | exec argv =>
    intro e he fd o ho
    cases argv with
    | nil =>
      rw [runcmd, mem_singleton] at he
      subst he
      exact for_table hs ho
    | cons w argv =>
      rw [runcmd, mem_singleton] at he
      subst he
      exact for_table hs ho
  | redir c r ih =>
    rw [runcmd, redirect_table]
    exact ih (forall_mem_cons.2 ⟨trivial, hs⟩)
  | pipe l r ihl ihr =>
    intro e he
    rw [runcmd_pipe, mem_append, mem_append, mem_singleton] at he
    have hl : (Obj.writeEnd π).For (π ++ [.left]) := prefix_rfl
    have hr : (Obj.readEnd π).For (π ++ [.right]) := prefix_rfl
    obtain (he | he) | rfl := he
    · exact ihl (forall_mem_cons.2 ⟨hl, for_below hs _⟩) e he
    · exact ihr (forall_mem_cons.2 ⟨hr, for_below hs _⟩) e he
    · exact fun fd o => for_table hs
  | list l r ihl ihr =>
    intro e he
    rw [runcmd, mem_append, mem_cons] at he
    obtain he | rfl | he := he
    · exact ihl (for_below hs _) e he
    · exact fun fd o => for_table hs
    · exact ihr (for_below hs _) e he
  | back c ih =>
    intro e he
    rw [runcmd, mem_append, mem_singleton] at he
    obtain he | rfl := he
    · exact ih (for_below hs _) e he
    · exact fun fd o => for_table hs

theorem not_for_self (π : Path) : ¬(Obj.readEnd π).For π ∧ ¬(Obj.writeEnd π).For π := by
  have hlong : ∀ x : Side, ¬π ++ [x] <+: π := fun x h => by
    have := h.length_le
    rw [length_append, length_singleton] at this
    omega
  exact ⟨hlong _, hlong _⟩

/-- **Every command of the tree is plumbed, and no end of a pipe is left where it does not belong.** -/
theorem runcmd_plumbs (name : Span → List Byte) (c : Cmd) :
    execs (runcmd name c [] (table [])) = (leaves name c [] []).map (fun l => (l.1, l.2.1, table l.2.2)) ∧
    (∀ e ∈ runcmd name c [] (table []), ∀ fd o, e.table fd = some o → o.For e.node) ∧
    ∀ π t, .wait π t ∈ runcmd name c [] (table []) → ∀ fd, t fd ≠ some (.readEnd π) ∧ t fd ≠ some (.writeEnd π) := by
  have hfor : ∀ e ∈ runcmd name c [] (table []), ∀ fd o, e.table fd = some o → o.For e.node :=
    for_runcmd c fun x hx => absurd hx List.not_mem_nil
  refine ⟨execs_runcmd c [] [], hfor, fun π t he fd => ⟨fun ho => ?_, fun ho => ?_⟩⟩
  · exact (not_for_self π).1 (hfor _ he fd _ ho)
  · exact (not_for_self π).2 (hfor _ he fd _ ho)

/-! ## The order of redirections

`runcmd` makes the outermost redirection first, which is the last in the text. -/

/-- The words and redirections of a command, as they stand in the text. -/
inductive Plain : List Token → List Redir → List Span → Prop
  | nil : Plain [] [] []
  | word {w : Token} {ts : List Token} {rs : List Redir} {argv : List Span} (hw : w.kind = .word)
      (h : Plain ts rs argv) : Plain (w :: ts) rs (w.span :: argv)
  | redir {t w : Token} {op : RedirOp} {ts : List Token} {rs : List Redir} {argv : List Span}
      (hop : t.kind.redirOp = some op) (hw : w.kind = .word) (h : Plain ts rs argv) :
      Plain (t :: w :: ts) (⟨op, w.span⟩ :: rs) argv

/-- **A simple command or a block**, its redirections as they stand in the text, and what they are for. -/
inductive Redirected : List Token → List Redir → Cmd → Prop
  | simple {ts : List Token} {rs : List Redir} {argv : List Span} (h : Plain ts rs argv)
      (hlen : argv.length < MAXARGS) : Redirected ts rs (.exec argv)
  | block {t u : Token} {ts us : List Token} {rs : List Redir} {c : Cmd} (ht : t.kind = .lparen)
      (hl : Derives .line ts c) (hu : u.kind = .rparen) (h : Plain us rs []) :
      Redirected (t :: (ts ++ u :: us)) rs c

/-- A command with its redirections, the first innermost. -/
def wrap (rs : List Redir) (c : Cmd) : Cmd := rs.foldl Cmd.redir c

/-- An `execcmd` gets words. -/
def pushArgs (argv : List Span) (c : Cmd) : Cmd := argv.foldl (fun c w => c.pushArg w) c

theorem pushArgs_redir (argv : List Span) (c : Cmd) (r : Redir) :
    pushArgs argv (.redir c r) = .redir (pushArgs argv c) r := by
  induction argv generalizing c with
  | nil => rfl
  | cons w argv ih => exact ih (c.pushArg w)

theorem pushArgs_exec (argv argv' : List Span) : pushArgs argv (.exec argv') = .exec (argv' ++ argv) := by
  induction argv generalizing argv' with
  | nil => rw [append_nil]; rfl
  | cons w argv ih =>
    refine (ih (argv' ++ [w])).trans ?_
    rw [append_assoc, singleton_append]

theorem Plain.derives {ts : List Token} {rs : List Redir} {argv : List Span} (h : Plain ts rs argv) (c : Cmd) :
    ∃ us vs d, ts = us ++ vs ∧ Redirs us c d ∧ Words vs d argv.length (wrap rs (pushArgs argv c)) := by
  induction h generalizing c with
  | nil => exact ⟨[], [], c, rfl, .nil c, .nil c⟩
  | @word w ts rs argv hw h ih =>
    obtain ⟨us, vs, d, rfl, hr, hws⟩ := ih (c.pushArg w.span)
    exact ⟨[], w :: (us ++ vs), c, rfl, .nil c, .cons hw hr hws⟩
  | @redir t w op ts rs argv hop hw h ih =>
    obtain ⟨us, vs, d, rfl, hr, hws⟩ := ih (.redir c ⟨op, w.span⟩)
    refine ⟨t :: w :: us, vs, d, rfl, .cons hop hw hr, ?_⟩
    rw [pushArgs_redir] at hws
    exact hws

/-- **The parser wraps a later redirection around an earlier one.** -/
theorem Redirected.derives {ts : List Token} {rs : List Redir} {c : Cmd} (h : Redirected ts rs c) :
    Derives .exec ts (wrap rs c) := by
  cases h with
  | simple h hlen =>
    obtain ⟨us, vs, d, rfl, hr, hw⟩ := h.derives (.exec [])
    rw [pushArgs_exec, nil_append] at hw
    exact .simple hr hw hlen
  | block ht hl hu h =>
    obtain ⟨us, vs, d, rfl, hr, hw⟩ := h.derives c
    have hnil : vs = [] ∧ d = wrap rs c := by
      cases hw
      exact ⟨rfl, rfl⟩
    rw [hnil.1, append_nil]
    exact .compound (.block ht hl hu (hnil.2 ▸ hr))

/-- `runcmd` goes through redirections to a command. -/
inductive Reaches (name : Span → List Byte) : Cmd → Table → Cmd → Table → Prop
  | refl (c : Cmd) (t : Table) : Reaches name c t c t
  | redir {c d : Cmd} {r : Redir} {t u v : Table} (h : redirect name r t = some u) (h' : Reaches name c u d v) :
      Reaches name (.redir c r) t d v

theorem Reaches.trans {c d e : Cmd} {t u v : Table} (h : Reaches name c t d u) (h' : Reaches name d u e v) :
    Reaches name c t e v := by
  induction h with
  | refl => exact h'
  | redir h _ ih => exact .redir h (ih h')

/-- **What `runcmd` reaches is what it runs.** -/
theorem Reaches.runcmd_eq {c d : Cmd} {u : Table} (h : Reaches name c t d u) (π : Path) :
    runcmd name c π t = runcmd name d π u := by
  induction h with
  | refl => rfl
  | redir h _ ih =>
    rw [runcmd, h]
    exact ih

/-- Standard input and output are open. -/
def Ready (t : Table) : Prop := t 0 ≠ none ∧ t 1 ≠ none

theorem redirect_eq (ht : Ready t) (r : Redir) :
    redirect name r t = some (update t r.op.fd (some (r.obj name))) := by
  have hfd : fdalloc (close r.op.fd t) = some r.op.fd := by
    refine fdalloc_eq ((fd_lt _).trans (by decide)) (update_self ..) fun i hi => ?_
    have hlt : r.op.fd < 2 := by cases r.op <;> decide
    rw [close, update_of_ne hi.ne]
    obtain rfl : i = 0 := by omega
    exact ht.1
  rw [redirect, openFile, hfd, map_some, close, update_idem]

theorem Ready.update (ht : Ready t) (fd : ℕ) (o : Obj) : Ready (update t fd (some o)) := by
  have hget : ∀ i, t i ≠ none → Function.update t fd (some o) i ≠ none := fun i hi => by
    rw [update_apply]
    split_ifs
    · exact some_ne_none o
    · exact hi
  exact ⟨hget 0 ht.1, hget 1 ht.2⟩

/-- The tables through which `runcmd` goes: the last redirection is the first to be made. -/
def redirected (name : Span → List Byte) (rs : List Redir) (t : Table) : Table :=
  rs.foldr (fun r t => update t r.op.fd (some (r.obj name))) t

theorem ready_redirected (ht : Ready t) (rs : List Redir) : Ready (redirected name rs t) := by
  induction rs with
  | nil => exact ht
  | cons r rs ih => exact ih.update _ _

theorem reaches_wrap (ht : Ready t) (rs : List Redir) (c : Cmd) :
    Reaches name (wrap rs c) t c (redirected name rs t) := by
  induction rs generalizing c with
  | nil => exact .refl c t
  | cons r rs ih =>
    refine (ih (.redir c r)).trans (.redir (redirect_eq (ready_redirected ht rs) r) (.refl ..))

theorem redirected_apply (rs : List Redir) (t : Table) (fd : ℕ) :
    redirected name rs t fd = ((rs.filter fun r => r.op.fd = fd).head?.map fun r => some (r.obj name)).getD (t fd) := by
  induction rs with
  | nil => rfl
  | cons r rs ih =>
    change update (redirected name rs t) r.op.fd (some (r.obj name)) fd = _
    by_cases hfd : r.op.fd = fd
    · rw [filter_cons, if_pos (decide_eq_true hfd), ← hfd, update_self]
      rfl
    · rw [filter_cons, if_neg (by simpa using hfd), update_of_ne (Ne.symm hfd), ih]

/-- The last redirection of each descriptor is in effect. -/
def LastWins (name : Span → List Byte) (rs : List Redir) (t : Table) : Prop :=
  ∀ fd, ∀ r ∈ (rs.filter fun r => r.op.fd = fd).getLast?, t fd = some (r.obj name)

/-- In a list without repetitions the first is the last only if it is the only one. -/
theorem lastWins_iff {rs : List Redir} (hdistinct : (rs.map fun r => name r.file).Nodup) (t : Table) :
    LastWins name rs (redirected name rs t) ↔ ∀ fd, (rs.filter fun r => r.op.fd = fd).length ≤ 1 := by
  refine forall_congr' fun fd => ?_
  have hnodup : ((rs.filter fun r => r.op.fd = fd).map fun r => name r.file).Nodup :=
    hdistinct.sublist (filter_sublist.map _)
  rw [redirected_apply]
  generalize rs.filter (fun r => r.op.fd = fd) = l at hnodup
  cases l with
  | nil => simp
  | cons r l =>
    cases l with
    | nil => simp
    | cons r' l =>
      refine iff_of_false (fun h => ?_) (by simp)
      obtain ⟨x, hx⟩ : ∃ x, (r' :: l).getLast? = some x := ⟨_, List.getLast?_eq_getLast_of_ne_nil (cons_ne_nil _ _)⟩
      have heq := h x (by rw [List.getLast?_cons_cons]; exact hx)
      have hname : name r.file = name x.file := by
        have := some.inj heq
        simp only [Redir.obj, Obj.file.injEq] at this
        exact this.1
      have hmem : name x.file ∈ (r' :: l).map fun r => name r.file :=
        mem_map_of_mem (mem_of_getLast? hx)
      refine (nodup_cons.1 hnodup).1 ?_
      change name r.file ∈ _
      rw [hname]
      exact hmem

/-- **Of several redirections of one descriptor the first takes effect**, so that the last does only if there are
no others. -/
theorem parseexec_redirects {n fuel : ℕ} {s : List Byte} {ts vs : List Token} {rs : List Redir} {body : Cmd}
    (hc : Redirected ts rs body) (hs : tokens n s = ts ++ vs) (hvs : Next Nonterminal.exec.follow vs)
    (hfuel : 4 * (ts ++ vs).length + 1 < fuel) (hdistinct : (rs.map fun r => name r.file).Nodup) (ht : Ready t) :
    ∃ c s' t', parseexec n fuel s = .ok (c, s') ∧ Reaches name c t body t' ∧
      (∀ π, runcmd name c π t = runcmd name body π t') ∧
      (LastWins name rs t' ↔ ∀ fd, (rs.filter fun r => r.op.fd = fd).length ≤ 1) := by
  obtain ⟨c, s', hrun, rfl, -⟩ := (complete hc.derives hvs hfuel s hs).exists_ok
  have hreach : Reaches name _ _ _ _ := reaches_wrap ht rs body
  exact ⟨_, s', _, hrun, hreach, hreach.runcmd_eq, lastWins_iff hdistinct t⟩

/-- The line `a<x`. -/
theorem parseexec_redirects_one : ∃ c s' t', parseexec 3 16 [97, LT, 120] = .ok (c, s') ∧
    Reaches (text [97, LT, 120]) c (table []) (.exec [⟨0, 1⟩]) t' ∧
    LastWins (text [97, LT, 120]) [⟨.input, ⟨2, 3⟩⟩] t' := by
  have hs : tokens 3 [97, LT, 120] = [⟨.word, ⟨0, 1⟩⟩, ⟨.lt, ⟨1, 2⟩⟩, ⟨.word, ⟨2, 3⟩⟩] ++ [] := by
    rw [tokens_of_ne (by decide), tokens_of_ne (by decide), tokens_of_ne (by decide), tokens_of_eof (by decide)]
    rfl
  have hc : Redirected [⟨.word, ⟨0, 1⟩⟩, ⟨.lt, ⟨1, 2⟩⟩, ⟨.word, ⟨2, 3⟩⟩] [⟨.input, ⟨2, 3⟩⟩] (.exec [⟨0, 1⟩]) :=
    .simple (.word rfl (.redir rfl rfl .nil)) (by decide)
  have hready : Ready (table []) := ⟨table_ne_none (by decide), table_ne_none (by decide)⟩
  obtain ⟨c, s', t', hrun, hreach, -, hiff⟩ : ∃ c s' t', parseexec 3 16 [97, LT, 120] = .ok (c, s') ∧
      Reaches (text [97, LT, 120]) c (table []) (.exec [⟨0, 1⟩]) t' ∧ _ ∧
        (LastWins (text [97, LT, 120]) _ t' ↔ _) :=
    parseexec_redirects hc hs (fun _ h => by cases h) (by decide) (by decide) hready
  exact ⟨c, s', t', hrun, hreach, hiff.2 fun fd => List.length_filter_le _ _⟩

/-- The line `a<x<y`, whose standard input is `x`. -/
theorem first_redirect_wins : ∃ c m t, parsecmd [97, LT, 120, LT, 121] = .ok (c, m) ∧
    execs (runcmd (text [97, LT, 120, LT, 121]) c [] (table [])) = [([], [⟨0, 1⟩], t)] ∧
    t 0 = some (.file [120] O_RDONLY) := by
  have hrun : parse 5 24 [97, LT, 120, LT, 121] =
      .ok (wrap [⟨.input, ⟨2, 3⟩⟩, ⟨.input, ⟨4, 5⟩⟩] (.exec [⟨0, 1⟩]), []) := rfl
  have hcmd : parsecmd [97, LT, 120, LT, 121] =
      .ok (wrap [⟨.input, ⟨2, 3⟩⟩, ⟨.input, ⟨4, 5⟩⟩] (.exec [⟨0, 1⟩]), nulterminate _ _) :=
    parsecmd_eq_ok_iff.2 ⟨⟨[], hrun⟩, rfl⟩
  exact ⟨_, _, _, hcmd, execs_runcmd _ _ _, rfl⟩

end Xv6.Sh

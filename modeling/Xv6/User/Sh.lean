import Xv6.Machinery.Bytes
import Xv6.Machinery.Exec

/-!
# User/Sh — the parser of `user/sh.c`

The cursor `*ps` is the rest of the line up to `es`, and a pointer into the line is its offset.
Each call and each round of a loop takes one unit of fuel, and `parsecmd` has enough for any line.
`malloc` is taken to succeed.
-/

namespace Xv6.Sh

open Machinery Function

/-! ## Commands -/

/-- The bytes `[q, eq)` of the line. -/
structure Span where
  q : ℕ
  eq : ℕ
  deriving DecidableEq, Repr

/-- What `parseredirs` makes of `<`, `>` and `>>`. -/
inductive RedirOp
  | input
  | output
  | append
  deriving DecidableEq, Repr

def O_RDONLY : ℕ := 0x000
def O_WRONLY : ℕ := 0x001
def O_CREATE : ℕ := 0x200
def O_TRUNC : ℕ := 0x400

/-- The `mode` of a `redircmd`. -/
def RedirOp.mode : RedirOp → ℕ
  | .input => O_RDONLY
  | .output => O_WRONLY ||| O_CREATE ||| O_TRUNC
  | .append => O_WRONLY ||| O_CREATE

/-- The `fd` of a `redircmd`. -/
def RedirOp.fd : RedirOp → ℕ
  | .input => 0
  | .output => 1
  | .append => 1

/-- A `redircmd` without its command. -/
structure Redir where
  op : RedirOp
  file : Span
  deriving DecidableEq, Repr

/-- `struct cmd`. -/
inductive Cmd
  | exec (argv : List Span)
  | redir (cmd : Cmd) (r : Redir)
  | pipe (left right : Cmd)
  | list (left right : Cmd)
  | back (cmd : Cmd)
  deriving DecidableEq, Repr

def MAXARGS : ℕ := 10

/-- How the parser stops. -/
inductive ShPanic
  | missingFile
  | parseblock
  | missingParen
  | badToken
  | tooManyArgs
  | leftovers
  /-- A store beyond `argv` or `eargv`. -/
  | outOfBounds
  | outOfFuel
  deriving DecidableEq, Repr

/-- What `panic` prints. -/
def ShPanic.text : ShPanic → Option String
  | .missingFile => some "missing file for redirection"
  | .parseblock => some "parseblock"
  | .missingParen => some "syntax - missing )"
  | .badToken => some "syntax"
  | .tooManyArgs => some "too many args"
  | .leftovers => some "syntax"
  | .outOfBounds => none
  | .outOfFuel => none

/-! ## Tokens -/

def BAR : Byte := 124
def LPAREN : Byte := 40
def RPAREN : Byte := 41
def SEMI : Byte := 59
def AMP : Byte := 38
def LT : Byte := 60
def GT : Byte := 62

/-- `" \t\r\n\v"` -/
def whitespace : List Byte := [32, 9, 13, 10, 11]

/-- `"<|>&;()"` -/
def symbols : List Byte := [LT, BAR, GT, AMP, SEMI, LPAREN, RPAREN]

/-- The values of `gettoken`: 0, a symbol, `'+'` for `>>`, and `'a'`. -/
inductive Tok
  | eof
  | bar
  | lparen
  | rparen
  | semi
  | amp
  | lt
  | gt
  | app
  | word
  deriving DecidableEq, Repr

/-- A token, and where it stands. -/
structure Token where
  kind : Tok
  span : Span
  deriving DecidableEq, Repr

def skip (s : List Byte) : List Byte := s.dropWhile (· ∈ whitespace)

def wordChar (c : Byte) : Bool := c ∉ whitespace ∧ c ∉ symbols

/-- The `switch` of `gettoken`. -/
def lexeme : List Byte → Tok × List Byte
  | [] => (.eof, [])
  | c :: s =>
    if c = BAR then (.bar, s)
    else if c = LPAREN then (.lparen, s)
    else if c = RPAREN then (.rparen, s)
    else if c = SEMI then (.semi, s)
    else if c = AMP then (.amp, s)
    else if c = LT then (.lt, s)
    else if c = GT then if s.head? = some GT then (.app, s.tail) else (.gt, s)
    else (.word, (c :: s).dropWhile wordChar)

/-- A parser: a program on the cursor. -/
abbrev ShM (α : Type) := Exec ShPanic (List Byte) α

/-- `gettoken` in a line of `n` bytes. -/
def token (n : ℕ) (s : List Byte) : Token × List Byte :=
  let l := lexeme (skip s)
  (⟨l.1, ⟨n - (skip s).length, n - l.2.length⟩⟩, skip l.2)

def gettoken (n : ℕ) : ShM Token := fun s => .ok (token n s)

def peek (toks : List Byte) : ShM Bool := fun s => .ok ((skip s).head?.any (· ∈ toks), skip s)

/-! ## The parser -/

/-- A store to `argv[argc]` and `eargv[argc]`. -/
def storeArg (argc : ℕ) : ShM Unit := if argc < MAXARGS then pure () else throw .outOfBounds

/-- The `execcmd` inside a command gets one more word. -/
def Cmd.pushArg (w : Span) : Cmd → Cmd
  | .exec argv => .exec (argv ++ [w])
  | .redir cmd r => .redir (cmd.pushArg w) r
  | cmd => cmd

def parseredirs (n : ℕ) : (fuel : ℕ) → Cmd → ShM Cmd
  | 0, _ => throw .outOfFuel
  | fuel + 1, cmd => do
    if ← peek [LT, GT] then
      let tok ← gettoken n
      let file ← gettoken n
      if file.kind ≠ .word then throw .missingFile
      else match tok.kind with
        | .lt => parseredirs n fuel (.redir cmd ⟨.input, file.span⟩)
        | .gt => parseredirs n fuel (.redir cmd ⟨.output, file.span⟩)
        | .app => parseredirs n fuel (.redir cmd ⟨.append, file.span⟩)
        | _ => parseredirs n fuel cmd
    else return cmd

/-- The loop of `parseexec`; `ret` is a chain of redirections of the `execcmd`. -/
def parseargs (n : ℕ) : (fuel argc : ℕ) → (ret : Cmd) → ShM Cmd
  | 0, _, _ => throw .outOfFuel
  | fuel + 1, argc, ret => do
    if ← peek [BAR, RPAREN, AMP, SEMI] then
      storeArg argc
      return ret
    else
      let tok ← gettoken n
      if tok.kind = .eof then
        storeArg argc
        return ret
      else if tok.kind ≠ .word then throw .badToken
      else
        storeArg argc
        if argc + 1 ≥ MAXARGS then throw .tooManyArgs
        else
          let ret ← parseredirs n fuel (ret.pushArg tok.span)
          parseargs n fuel (argc + 1) ret

/-- The loop over `&` in `parseline`. -/
def parsebacks (n : ℕ) : (fuel : ℕ) → Cmd → ShM Cmd
  | 0, _ => throw .outOfFuel
  | fuel + 1, cmd => do
    if ← peek [AMP] then
      let _ ← gettoken n
      parsebacks n fuel (.back cmd)
    else return cmd

mutual

def parseline (n : ℕ) : (fuel : ℕ) → ShM Cmd
  | 0 => throw .outOfFuel
  | fuel + 1 => do
    let cmd ← parsepipe n fuel
    let cmd ← parsebacks n fuel cmd
    if ← peek [SEMI] then
      let _ ← gettoken n
      let right ← parseline n fuel
      return .list cmd right
    else return cmd

def parsepipe (n : ℕ) : (fuel : ℕ) → ShM Cmd
  | 0 => throw .outOfFuel
  | fuel + 1 => do
    let cmd ← parseexec n fuel
    if ← peek [BAR] then
      let _ ← gettoken n
      let right ← parsepipe n fuel
      return .pipe cmd right
    else return cmd

def parseexec (n : ℕ) : (fuel : ℕ) → ShM Cmd
  | 0 => throw .outOfFuel
  | fuel + 1 => do
    if ← peek [LPAREN] then parseblock n fuel
    else
      let ret ← parseredirs n fuel (.exec [])
      parseargs n fuel 0 ret

def parseblock (n : ℕ) : (fuel : ℕ) → ShM Cmd
  | 0 => throw .outOfFuel
  | fuel + 1 => do
    if ← peek [LPAREN] then
      let _ ← gettoken n
      let cmd ← parseline n fuel
      if ← peek [RPAREN] then
        let _ ← gettoken n
        parseredirs n fuel cmd
      else throw .missingParen
    else throw .parseblock

end

/-- `nulterminate`, on the buffer that holds the line. -/
def nulterminate : Cmd → (ℕ → Byte) → ℕ → Byte
  | .exec argv, m => argv.foldl (fun m w => update m w.eq 0) m
  | .redir cmd r, m => update (nulterminate cmd m) r.file.eq 0
  | .pipe left right, m => nulterminate right (nulterminate left m)
  | .list left right, m => nulterminate right (nulterminate left m)
  | .back cmd, m => nulterminate cmd m

/-- The part of `parsecmd` before `nulterminate`. -/
def parse (n fuel : ℕ) : ShM Cmd := do
  let cmd ← parseline n fuel
  let _ ← peek []
  if (← get) ≠ [] then throw .leftovers else return cmd

/-- **`parsecmd`**: the command, and the buffer with the line. -/
def parsecmd (line : List Byte) : Except ShPanic (Cmd × (ℕ → Byte)) :=
  ((parse line.length (4 * line.length + 4)).run' line).map fun cmd => (cmd, nulterminate cmd fun p => line.getD p 0)

end Xv6.Sh

import Xv6.FuelParsers

/-!
# The parser of the shell

`sh.c` from `gettoken` to `nulterminate`. The line is a list of bytes with NUL behind it, and
a pointer into it is a position; `*ps` is the place of the parser. What `panic` prints is kept
with the stop. `malloc` does not fail here.
-/

set_option autoImplicit false

namespace Xv6.ShellCode
open FuelParsers

abbrev Text := List UInt8

abbrev Span := ℕ × ℕ

def MAXARGS : ℕ := 10

def O_RDONLY : ℕ := 0
def O_WRONLY : ℕ := 1
def O_CREATE : ℕ := 512

/-- The commands; the strings in them are pointers first, and the words themselves after
`nulterminate`. -/
inductive Cmd (ω : Type) where
  | exec (argv : List ω)
  | redir (cmd : Cmd ω) (file : ω) (mode fd : ℕ)
  | pipe (left right : Cmd ω)
  | list (left right : Cmd ω)
  | back (cmd : Cmd ω)
  deriving DecidableEq

inductive Panic where
  | missingFile
  | parseblock
  | missingParen
  | syntactic
  | tooManyArgs
  | leftovers (s : Text)
  deriving DecidableEq

abbrev ShParser := Parser Panic ℕ

def whitespace : Text := [32,9,13,10,11]

def symbols : Text := [60,124,62,38,59,40,41]

def strchr (s : Text) (c : UInt8) : Bool := s.contains c

section Code
variable (s : Text)

def chr (p : ℕ) : UInt8 := s.getD p 0

/-- A loop that moves a pointer, with the distance to `es`. -/
def advanceFrom (P : UInt8 → Bool) : ℕ → ℕ → ℕ
  | 0, p => p
  | k+1, p => if P (chr s p) then advanceFrom P k (p+1) else p

def advance (P : UInt8 → Bool) (p : ℕ) : ℕ := advanceFrom s P (s.length-p) p

def skip (p : ℕ) : ℕ := advance s (strchr whitespace) p

def isWordChar (c : UInt8) : Bool := !strchr whitespace c && !strchr symbols c

/-- The switch of `gettoken`: the result and the pointer behind the token. -/
def tokenAt (q : ℕ) : UInt8 × ℕ :=
  if chr s q = 0 then (0,q)
  else if chr s q ∈ [124,40,41,59,38,60] then (chr s q,q+1)
  else if chr s q = 62 then if chr s (q+1) = 62 then (43,q+2) else (62,q+1)
  else (97,advance s isWordChar q)

def gettoken : ShParser (UInt8 × Span) := fun p =>
  let q := skip s p
  let (ret,eq) := tokenAt s q
  .ok (ret,q,eq) (skip s eq)

def peek (toks : Text) : ShParser Bool := fun p =>
  let p := skip s p
  .ok (chr s p != 0 && strchr toks (chr s p)) p

/-- `cmd->argv[argc] = q` where `ret` is the command with redirections around it. -/
def Cmd.addArg {ω : Type} : Cmd ω → ω → Cmd ω
  | .exec argv, w => .exec (argv++[w])
  | .redir cmd file mode fd, w => .redir (cmd.addArg w) file mode fd
  | .pipe left right, _ => .pipe left right
  | .list left right, _ => .list left right
  | .back cmd, _ => .back cmd

/-- The command of a redirection; `>>` is like `>`. -/
def redircmd {ω : Type} (cmd : Cmd ω) (tok : UInt8) (file : ω) : Cmd ω :=
  if tok = 60 then .redir cmd file O_RDONLY 0
  else .redir cmd file (O_WRONLY ||| O_CREATE) 1

/-- One turn of the loop of `parseredirs`. -/
def redirTurn (cmd : Cmd Span) : ShParser (Cmd Span ⊕ Cmd Span) := do
  if ← peek s [60,62] then
    let (tok,_) ← gettoken s
    let (word,file) ← gettoken s
    if word ≠ 97 then stop .missingFile
    else pure (.inl (redircmd cmd tok file))
  else pure (.inr cmd)

def parseredirs : ℕ → Cmd Span → ShParser (Cmd Span) := loop (redirTurn s)

/-- One turn of the loop of `parseexec`, with the fuel for the call of `parseredirs`. -/
def argTurn (fuel : ℕ) (argc : ℕ) (ret : Cmd Span) : ShParser ((ℕ × Cmd Span) ⊕ Cmd Span) := do
  if ← peek s [124,41,38,59] then pure (.inr ret)
  else
    let (tok,word) ← gettoken s
    if tok = 0 then pure (.inr ret)
    else if tok ≠ 97 then stop .syntactic
    else
      let ret := ret.addArg word
      let argc := argc+1
      if MAXARGS ≤ argc then stop .tooManyArgs
      else
        let ret ← parseredirs s fuel ret
        pure (.inl (argc,ret))

def parseargs (fuel : ℕ) : ℕ → ℕ × Cmd Span → ShParser (Cmd Span) := loop fun x => argTurn s fuel x.1 x.2

/-- One turn of the loop of `parseline`. -/
def backTurn (cmd : Cmd Span) : ShParser (Cmd Span ⊕ Cmd Span) := do
  if ← peek s [38] then
    let _ ← gettoken s
    pure (.inl (.back cmd))
  else pure (.inr cmd)

def parsebacks : ℕ → Cmd Span → ShParser (Cmd Span) := loop (backTurn s)

mutual

def parseline : ℕ → ShParser (Cmd Span)
  | 0 => spent
  | fuel+1 => do
    let cmd ← parsepipe fuel
    let cmd ← parsebacks s fuel cmd
    if ← peek s [59] then
      let _ ← gettoken s
      let rest ← parseline fuel
      pure (.list cmd rest)
    else pure cmd

def parsepipe : ℕ → ShParser (Cmd Span)
  | 0 => spent
  | fuel+1 => do
    let cmd ← parseexec fuel
    if ← peek s [124] then
      let _ ← gettoken s
      let rest ← parsepipe fuel
      pure (.pipe cmd rest)
    else pure cmd

def parseblock : ℕ → ShParser (Cmd Span)
  | 0 => spent
  | fuel+1 => do
    if ← peek s [40] then
      let _ ← gettoken s
      let cmd ← parseline fuel
      if ← peek s [41] then
        let _ ← gettoken s
        parseredirs s fuel cmd
      else stop .missingParen
    else stop .parseblock

def parseexec : ℕ → ShParser (Cmd Span)
  | 0 => spent
  | fuel+1 => do
    if ← peek s [40] then parseblock fuel
    else
      let ret ← parseredirs s fuel (.exec [])
      parseargs s fuel fuel (0,ret)

end

end Code

/-- The bytes that `nulterminate` puts NUL in the place of. -/
def nulterminate : Cmd Span → Text → Text
  | .exec argv, b => argv.foldl (fun b w => b.set w.2 0) b
  | .redir cmd file _ _, b => (nulterminate cmd b).set file.2 0
  | .pipe left right, b => nulterminate right (nulterminate left b)
  | .list left right, b => nulterminate right (nulterminate left b)
  | .back cmd, b => nulterminate cmd b

/-- The command, and what is in the buffer of the line when it is returned. -/
def parsecmd (fuel : ℕ) (s : Text) : Outcome Panic ℕ (Cmd Span × Text) :=
  Parser.run (do
    let cmd ← parseline s fuel
    let _ ← peek s []
    let p ← here
    if p ≠ s.length then stop (.leftovers (s.drop p))
    else pure (cmd,nulterminate cmd (s++[0]))) 0

def cstring (b : Text) (p : ℕ) : Text := (b.drop p).takeWhile (· != 0)

def Cmd.map {α β : Type} (f : α → β) : Cmd α → Cmd β
  | .exec argv => .exec (argv.map f)
  | .redir cmd file mode fd => .redir (cmd.map f) (f file) mode fd
  | .pipe left right => .pipe (left.map f) (right.map f)
  | .list left right => .list (left.map f) (right.map f)
  | .back cmd => .back (cmd.map f)

def Cmd.strings (cmd : Cmd Span) (b : Text) : Cmd Text := cmd.map fun w => cstring b w.1

end Xv6.ShellCode

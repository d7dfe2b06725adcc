import Xv6.ShellCode

/-!
# The grammar of command lines

The tokens of a line, and the token sequences that are lines with the commands that they
denote:

    line  ::= pipe '&'* [ ';' line ]
    pipe  ::= exec [ '|' pipe ]
    exec  ::= '(' line ')' redir* | redir* (word redir*)*      with at most 9 words
    redir ::= ('<' | '>' | '>>') word
-/

set_option autoImplicit false

namespace Xv6.ShellGrammar
open ShellCode

inductive Tok where
  | lt
  | gt
  | app
  | bar
  | amp
  | semi
  | lpar
  | rpar
  | word (w : Text)
  deriving DecidableEq

def symbol (c : UInt8) : Tok :=
  if c = 60 then .lt
  else if c = 62 then .gt
  else if c = 124 then .bar
  else if c = 38 then .amp
  else if c = 59 then .semi
  else if c = 40 then .lpar
  else .rpar

/-- The tokens of a text. A word is as long as it can be, and two `>` side by side are one
token. -/
def tokens : Text → List Tok
  | [] => []
  | c::cs =>
    if strchr whitespace c then tokens cs
    else if isWordChar c then .word (c::cs.takeWhile isWordChar)::tokens (cs.dropWhile isWordChar)
    else if c = 62 ∧ cs.head? = some 62 then .app::tokens cs.tail
    else symbol c::tokens cs
termination_by cs => cs.length
decreasing_by
  · exact Nat.lt_succ_self _
  · exact Nat.lt_succ_of_le (List.dropWhile_suffix _).length_le
  · rw [List.length_tail]
    exact Nat.lt_succ_of_le (Nat.sub_le _ _)
  · exact Nat.lt_succ_self _

structure Redir where
  file : Text
  mode : ℕ
  fd : ℕ

def wrap (cmd : Cmd Text) (ds : List Redir) : Cmd Text :=
  ds.foldl (fun cmd d => .redir cmd d.file d.mode d.fd) cmd

def backs : ℕ → Cmd Text → Cmd Text
  | 0, cmd => cmd
  | k+1, cmd => backs k (.back cmd)

inductive Redirs : List Tok → List Redir → Prop
  | nil : Redirs [] []
  | lt {w : Text} {xs : List Tok} {ds : List Redir} (rest : Redirs xs ds) :
      Redirs (.lt::.word w::xs) (⟨w,O_RDONLY,0⟩::ds)
  | gt {w : Text} {xs : List Tok} {ds : List Redir} (rest : Redirs xs ds) :
      Redirs (.gt::.word w::xs) (⟨w,O_WRONLY ||| O_CREATE,1⟩::ds)
  | app {w : Text} {xs : List Tok} {ds : List Redir} (rest : Redirs xs ds) :
      Redirs (.app::.word w::xs) (⟨w,O_WRONLY ||| O_CREATE,1⟩::ds)

inductive Words : List Tok → List Text → List Redir → Prop
  | nil : Words [] [] []
  | cons {w : Text} {rs xs : List Tok} {ws : List Text} {ds es : List Redir} (redirs : Redirs rs ds)
      (rest : Words xs ws es) : Words (.word w::(rs++xs)) (w::ws) (ds++es)

mutual

inductive Line : List Tok → Cmd Text → Prop
  | last {xs : List Tok} {cmd : Cmd Text} (k : ℕ) (pipe : Pipe xs cmd) :
      Line (xs++List.replicate k .amp) (backs k cmd)
  | list {xs ys : List Tok} {cmd rest : Cmd Text} (k : ℕ) (pipe : Pipe xs cmd) (line : Line ys rest) :
      Line (xs++(List.replicate k .amp++.semi::ys)) (.list (backs k cmd) rest)

inductive Pipe : List Tok → Cmd Text → Prop
  | last {xs : List Tok} {cmd : Cmd Text} (exec : Exec xs cmd) : Pipe xs cmd
  | pipe {xs ys : List Tok} {cmd rest : Cmd Text} (exec : Exec xs cmd) (pipe : Pipe ys rest) :
      Pipe (xs++.bar::ys) (.pipe cmd rest)

inductive Exec : List Tok → Cmd Text → Prop
  | block {xs rs : List Tok} {cmd : Cmd Text} {ds : List Redir} (line : Line xs cmd) (redirs : Redirs rs ds) :
      Exec (.lpar::(xs++.rpar::rs)) (wrap cmd ds)
  | words {rs xs : List Tok} {ws : List Text} {ds es : List Redir} (redirs : Redirs rs ds)
      (words : Words xs ws es)
      (nine : ws.length ≤ 9) : Exec (rs++xs) (wrap (.exec ws) (ds++es))

end

theorem wrap_append (cmd : Cmd Text) (ds es : List Redir) : wrap cmd (ds++es) = wrap (wrap cmd ds) es :=
  List.foldl_append

theorem wrap_addArg (cmd : Cmd Text) (ds : List Redir) (w : Text) :
    (wrap cmd ds).addArg w = wrap (cmd.addArg w) ds := by
  induction ds generalizing cmd with
  | nil => rfl
  | cons d ds ih => exact ih (.redir cmd d.file d.mode d.fd)

theorem backs_succ (k : ℕ) (cmd : Cmd Text) : backs (k+1) cmd = .back (backs k cmd) := by
  induction k generalizing cmd with
  | zero => rfl
  | succ k ih => exact ih (.back cmd)

theorem redirs_append {xs ys : List Tok} {ds es : List Redir} (hx : Redirs xs ds) (hy : Redirs ys es) :
    Redirs (xs++ys) (ds++es) := by
  induction hx with
  | nil => exact hy
  | lt _ ih => exact .lt ih
  | gt _ ih => exact .gt ih
  | app _ ih => exact .app ih

theorem words_snoc {xs rs : List Tok} {ws : List Text} {ds es : List Redir} {w : Text} (hx : Words xs ws es)
    (hr : Redirs rs ds) : Words (xs++.word w::rs) (ws++[w]) (es++ds) := by
  induction hx with
  | nil =>
    have hone := Words.cons (w := w) hr .nil
    rw [List.append_nil, List.append_nil] at hone
    exact hone
  | @cons v _ _ _ _ _ hrs _ ih =>
    have hmore := Words.cons (w := v) hrs ih
    rw [← List.append_assoc, ← List.append_assoc] at hmore
    exact hmore

end Xv6.ShellGrammar

import Mathlib.Data.Int.Notation
import Mathlib.Logic.Function.Basic
import Mathlib.Tactic.Common
import Xv6.TransitionSystem

/-!
# The console of console.c

The screen cells, the hardware cursor, `back_counter` and the input ring, and
what `consputc`, the arrow keys and the other cases of `consoleintr` do to
them. A step is one key, one character written by `consolewrite` or
`cprintf`, or one character taken by `consoleread`; it emits the screen
indices it accesses, the cursor positions it writes back, the bytes for the
serial line, the wakeups of readers and the character taken. A panic has no
successor.

Cells are a function of the index the code computes, inside the screen or
not. `textEnd` is a ghost: the position behind the edited text, one further for
each character stored in the input ring and one back for each dropped from it.
The text of `procdump` arrives as written characters.
-/

set_option autoImplicit false

namespace Xv6.ConsoleMachine
open TransitionSystem
open Function

abbrev Cell := BitVec 16
abbrev Cells := ℤ → Cell
abbrev Char8 := BitVec 8
abbrev Index := BitVec 32

abbrev INPUTBUF : ℕ := 128
abbrev BACKSPACE : ℕ := 0x100

abbrev KEYLF : Char8 := 0xE4
abbrev KEYRT : Char8 := 0xE5
abbrev ctrlD : Char8 := 0x04
abbrev ctrlH : Char8 := 0x08
abbrev ctrlP : Char8 := 0x10
abbrev ctrlU : Char8 := 0x15
abbrev delete : Char8 := 0x7f
abbrev newline : Char8 := 0x0a
abbrev carriageReturn : Char8 := 0x0d

def glyph (c : ℕ) : Cell := BitVec.ofNat 16 (c % 256) ||| 0x0700

abbrev blank : Cell := glyph 0x20
abbrev dollar : Cell := glyph 0x24

structure Console where
  crt : Cells
  cursor : BitVec 16
  backCounter : ℤ
  buf : Fin INPUTBUF → Char8
  r : Index
  w : Index
  e : Index
  textEnd : ℤ

inductive Out where
  | crt (i : ℤ)
  | cursor (pos : ℤ)
  | uart (c : Char8)
  | wakeup
  | taken (c : Char8)
  deriving DecidableEq

inductive Event where
  | key (c : Char8)
  | write (c : Char8)
  | read
  deriving DecidableEq

/-- The cases of the switch in `consoleintr`. -/
inductive KeyCase where
  | left
  | right
  | list
  | kill
  | erase
  | other
  deriving DecidableEq

def keyCase (c : Char8) : KeyCase :=
  if c = KEYLF then .left
  else if c = KEYRT then .right
  else if c = ctrlP then .list
  else if c = ctrlU then .kill
  else if c = ctrlH ∨ c = delete then .erase
  else .other

def Console.pos (s : Console) : ℤ := s.cursor.toNat

def setCursor (pos : ℤ) : BitVec 16 := BitVec.ofInt 16 pos

/-- The loop that closes the gap of a deleted character. -/
def shiftLeft (i : ℤ) : ℕ → Cells → Cells
  | 0, t => t
  | n+1, t => shiftLeft (i+1) n (update t i (t (i+1)))

/-- The loop that makes room for a character. -/
def shiftRight (i : ℤ) : ℕ → Cells → Cells
  | 0, t => t
  | n+1, t => shiftRight (i-1) n (update t i (t (i-1)))

section Edit
variable (c : ℕ) (pos back : ℤ) (t : Cells)

/-- The three branches of `cgaputc`: newline, backspace, character. -/
def editPos : ℤ :=
  if c = newline.toNat then pos + (80 - pos%80)
  else if c = BACKSPACE then if pos > 0 then pos-1 else pos
  else pos+1

def editCells : Cells :=
  if c = newline.toNat then t
  else if c = BACKSPACE then shiftLeft (pos-1) (back+1).toNat t
  else update (shiftRight (pos+back) back.toNat t) pos (glyph c)

def editAccess : List ℤ :=
  if c = newline.toNat then []
  else if c = BACKSPACE then
    (List.range (back+1).toNat).flatMap (fun (k : ℕ) => [pos-1+k+1, pos-1+k])
  else (List.range back.toNat).flatMap (fun (k : ℕ) => [pos+back-k-1, pos+back-k]) ++ [pos]

def editEnd (e : ℤ) : ℤ :=
  if c = newline.toNat then if e = pos then editPos c pos else e
  else if c = BACKSPACE then if pos ≤ e then e-1 else e
  else if pos ≤ e then e+1 else e

def Scrolls : Prop := pos/80 ≥ 24

instance : Decidable (Scrolls pos) := inferInstanceAs (Decidable (_ ≥ _))

def scrollPos : ℤ := if Scrolls pos then pos-80 else pos

/-- The `memmove` of 23 lines and `memset` of what is behind the new position. -/
def scrollCells : Cells := fun i =>
  if Scrolls pos then
    if pos-80 ≤ i ∧ i < 24*80 then 0
    else if 0 ≤ i ∧ i < 23*80 then t (i+80)
    else t i
  else t i

def scrollAccess : List ℤ :=
  if Scrolls pos then
    (List.range (23*80)).flatMap (fun (k : ℕ) => [(k : ℤ)+80, (k : ℤ)]) ++
      (List.range (24*80-(pos-80)).toNat).map (fun (k : ℕ) => pos-80+k)
  else []

end Edit

def cgaputc (c : ℕ) (s : Console) : Option (Console × List Out) :=
  let pos := editPos c s.pos
  if pos < 0 ∨ pos > 25*80 then none
  else
    let pos' := scrollPos pos
    some ({ s with
      crt := update (scrollCells pos (editCells c s.pos s.backCounter s.crt))
        (pos'+s.backCounter) blank,
      cursor := setCursor pos',
      textEnd := editEnd c s.pos s.textEnd + (pos'-pos) },
      (editAccess c s.pos s.backCounter).map .crt ++ (scrollAccess pos).map .crt ++
        [.cursor pos', .crt (pos'+s.backCounter)])

def uartOut (c : ℕ) : List Out :=
  if c = BACKSPACE then [.uart 0x08, .uart 0x20, .uart 0x08] else [.uart (BitVec.ofNat 8 c)]

def consputc (c : ℕ) (s : Console) : Option (Console × List Out) :=
  (cgaputc c s).map (fun q => (q.1,uartOut c ++ q.2))

def moveLeftCursor (s : Console) : Console × List Out :=
  let pos := if s.crt (s.pos-2) ≠ dollar then s.pos-1 else s.pos
  ({ s with cursor := setCursor pos },[.crt (s.pos-2), .cursor pos])

def moveRightCursor (s : Console) : Console × List Out :=
  ({ s with cursor := setCursor (s.pos+1) },[.cursor (s.pos+1)])

def slot (i : Index) : Fin INPUTBUF := ⟨i.toNat % INPUTBUF,Nat.mod_lt _ (by decide)⟩

def dropChar (s : Console) : Console := { s with e := s.e-1 }

def storeChar (c : Char8) (s : Console) : Console :=
  { s with buf := update s.buf (slot s.e) c, e := s.e+1 }

def erase (s : Console) : Option (Console × List Out) := consputc BACKSPACE (dropChar s)

/-- The loop of ^U; it ends after at most `input.e - input.w` rounds. -/
def killLine : ℕ → Console → Option (Console × List Out)
  | 0, s => some (s,[])
  | n+1, s =>
    if s.e ≠ s.w ∧ s.buf (slot (s.e-1)) ≠ newline then
      match erase s with
      | none => none
      | some (s',o) => (killLine n s').map (fun q => (q.1,o++q.2))
    else some (s,[])

/-- The end of the default case: a newline, a ^D or a full buffer hands the
line to the reader. -/
def commitLine (c : Char8) (q : Console × List Out) : Console × List Out :=
  if c = newline ∨ c = ctrlD ∨ q.1.e = q.1.r+128 then
    ({ q.1 with w := q.1.e, textEnd := q.1.pos },q.2 ++ [.wakeup])
  else q

def typed (c : Char8) : Char8 := if c = carriageReturn then newline else c

def insert (c : Char8) (s : Console) : Option (Console × List Out) :=
  (consputc (typed c).toNat (storeChar (typed c) s)).map (commitLine (typed c))

def consoleintr (c : Char8) (s : Console) : Option (Console × List Out) :=
  match keyCase c with
  | .left =>
    let q := moveLeftCursor s
    some ({ q.1 with backCounter := s.backCounter+1 },q.2)
  | .right =>
    if s.backCounter ≠ 0 then
      let q := moveRightCursor s
      some ({ q.1 with backCounter := s.backCounter-1 },q.2)
    else some (s,[])
  | .list => some (s,[])
  | .kill => killLine (s.e-s.w).toNat s
  | .erase => if s.e ≠ s.w then erase s else some (s,[])
  | .other => if c ≠ 0 ∧ (s.e-s.r).toNat < INPUTBUF then insert c s else some (s,[])

/-- A written character is not part of the edited text: an empty text begins
behind it, and another is moved only if the character goes in front of its end. -/
def writeEnd (c : ℕ) (s s' : Console) : ℤ :=
  if s.e = s.w then s'.pos
  else if s.pos < s.textEnd then s'.textEnd
  else s.textEnd + (s'.pos - editPos c s.pos)

def write (c : ℕ) (s : Console) : Option (Console × List Out) :=
  (consputc c s).map (fun q => ({ q.1 with textEnd := writeEnd c s q.1 },q.2))

def step (s : Console) : Event → Option (Console × List Out)
  | .key c => consoleintr c s
  | .write c => write c.toNat s
  | .read =>
    if s.r = s.w then none else some ({ s with r := s.r+1 },[.taken (s.buf (slot s.r))])

def console (s : Console) : System Console Event Out := ⟨s,step⟩

def blankScreen (pos : BitVec 16) : Console :=
  ⟨fun _ => blank,pos,0,fun _ => 0,0,0,0,pos.toNat⟩

end Xv6.ConsoleMachine

import Xv6.ConsoleMachine
import Xv6.SleepMachine

/-!
# The waits that a kill may end

The code of `pipewrite`, `piperead` and `pipeclose`, of `consoleread` and
`consoleintr`, and of `sys_sleep` and the timer interrupt, as points of a
thread. What is done under the call's own lock between two calls is one step.
A test of `myproc()->killed` is in the step of the loop test it follows.
-/

set_option autoImplicit false

namespace Xv6.WaitCode
open SleepMachine ConsoleMachine

abbrev PIPESIZE : ℕ := 512
abbrev Word := BitVec 32

/-- Fields `nread` and `nwrite` count bytes and wrap. -/
structure Pipe where
  data : Fin PIPESIZE → Char8
  nread : Word
  nwrite : Word
  readopen : Bool
  writeopen : Bool

def pipeIndex (i : Word) : Fin PIPESIZE := ⟨i.toNat % PIPESIZE,Nat.mod_lt _ (by decide)⟩

/-- The pipe as `pipealloc` makes it in a page of any contents. -/
def newPipe (data : Fin PIPESIZE → Char8) : Pipe := ⟨data,0,0,true,true⟩

def Pipe.store (m : Pipe) (c : Char8) : Pipe :=
  { m with data := Function.update m.data (pipeIndex m.nwrite) c, nwrite := m.nwrite+1 }

inductive PipeChan where
  | nread
  | nwrite
  deriving DecidableEq

/-- In `pipewrite` the bytes that are left go with the point, in `piperead` the
number of bytes copied; a call leaves with `r` at `exit`. -/
inductive PipePoint where
  | write (src : List Char8)
  | writeLoop (n : ℕ) (left : List Char8)
  | writeWake (n : ℕ) (left : List Char8)
  | writeSleep (n : ℕ) (left : List Char8)
  | writeDone (n : ℕ)
  | read (n : ℕ)
  | readLoop (n : ℕ)
  | readSleep (n : ℕ)
  | readCopy (n i : ℕ)
  | readDone (i : ℕ)
  | close (writable : Bool)
  | closeEnd (writable : Bool)
  | closeWake (writable : Bool)
  | exit (r : ℤ)
  | ret (r : ℤ)
  deriving DecidableEq

inductive PipeMark where
  | stored (c : Char8)
  | taken (c : Char8)
  deriving DecidableEq

def pipeProg {ι : Type} : PipePoint → Instr ι Unit PipeChan Pipe PipePoint Unit PipeMark
  | .write src => .acquire (.spin ()) (.writeLoop src.length src)
  | .writeLoop n [] => .step (fun _ m _ => some (m,.writeDone n,[]))
  | .writeLoop n (c::cs) => .step (fun killed m _ =>
      if m.nwrite = m.nread+512 then
        if m.readopen = false ∨ killed = true then some (m,.exit (-1),[])
        else some (m,.writeWake n (c::cs),[])
      else some (m.store c,.writeLoop n cs,[.stored c]))
  | .writeWake n cs => .wakeup .nread (.writeSleep n cs)
  | .writeSleep n cs => .sleep .nwrite (.spin ()) (.writeLoop n cs)
  | .writeDone n => .wakeup .nread (.exit n)
  | .read n => .acquire (.spin ()) (.readLoop n)
  | .readLoop n => .step (fun killed m _ =>
      if m.nread = m.nwrite ∧ m.writeopen = true then
        if killed = true then some (m,.exit (-1),[]) else some (m,.readSleep n,[])
      else some (m,.readCopy n 0,[]))
  | .readSleep n => .sleep .nread (.spin ()) (.readLoop n)
  | .readCopy n i => .step (fun _ m _ =>
      if i < n ∧ m.nread ≠ m.nwrite then
        some ({ m with nread := m.nread+1 },.readCopy n (i+1),[.taken (m.data (pipeIndex m.nread))])
      else some (m,.readDone i,[]))
  | .readDone i => .wakeup .nwrite (.exit i)
  | .close w => .acquire (.spin ()) (.closeEnd w)
  | .closeEnd w => .step (fun _ m _ =>
      some (if w then { m with writeopen := false } else { m with readopen := false },.closeWake w,[]))
  | .closeWake w => .wakeup (if w then .nread else .nwrite) (.exit 0)
  | .exit r => .release (.spin ()) (.ret r)
  | .ret _ => .step (fun _ _ _ => none)

/-- In `consoleread` the requested number and the number still wanted go with
the point. The inode lock it gives up around the loop is not part of it. -/
inductive ConsPoint where
  | read (n : ℕ)
  | loop (target n : ℕ)
  | sleep (target n : ℕ)
  | intr
  | keys
  | wake
  | exit (r : ℤ)
  | ret (r : ℤ)
  deriving DecidableEq

inductive ConsMark where
  | copied (c : Char8)
  | out (x : Out)
  deriving DecidableEq

/-- The input is what `getc` gives to `consoleintr`. -/
def consProg {ι : Type} : ConsPoint → Instr ι Unit Unit Console ConsPoint (Option Char8) ConsMark
  | .read n => .acquire (.spin ()) (.loop n n)
  | .loop target 0 => .step (fun _ m _ => some (m,.exit target,[]))
  | .loop target (n+1) => .step (fun killed m _ =>
      if m.r = m.w then
        if killed = true then some (m,.exit (-1),[]) else some (m,.sleep target (n+1),[])
      else
        let c := m.buf (slot m.r)
        if c = ctrlD then
          some (if n+1 < target then m else { m with r := m.r+1 },.exit (target-(n+1) : ℕ),[])
        else if c = newline then some ({ m with r := m.r+1 },.exit (target-n : ℕ),[.copied c])
        else some ({ m with r := m.r+1 },.loop target n,[.copied c]))
  | .sleep target n => .sleep () (.spin ()) (.loop target n)
  | .intr => .acquire (.spin ()) .keys
  | .keys => .step (fun _ m b => match b with
      | some c => (consoleintr c m).map
          (fun q => (q.1,if .wakeup ∈ q.2 then .wake else .keys,q.2.map .out))
      | none => some (m,.exit 0,[]))
  | .wake => .wakeup () .keys
  | .exit r => .release (.spin ()) (.ret r)
  | .ret _ => .step (fun _ _ _ => none)

/-- The argument of `sys_sleep` and the `ticks` it started at go with the
point; both are compared as unsigned numbers. -/
inductive TickPoint where
  | call (n : Word)
  | start (n : Word)
  | loop (n ticks0 : Word)
  | sleep (n ticks0 : Word)
  | timer
  | tick
  | wake
  | exit (r : ℤ)
  | ret (r : ℤ)
  deriving DecidableEq

def tickProg {ι : Type} : TickPoint → Instr ι Unit Unit Word TickPoint Unit Empty
  | .call n => .acquire (.spin ()) (.start n)
  | .start n => .step (fun _ ticks _ => some (ticks,.loop n ticks,[]))
  | .loop n ticks0 => .step (fun killed ticks _ =>
      if (ticks-ticks0).toNat < n.toNat then
        if killed = true then some (ticks,.exit (-1),[]) else some (ticks,.sleep n ticks0,[])
      else some (ticks,.exit 0,[]))
  | .sleep n ticks0 => .sleep () (.spin ()) (.loop n ticks0)
  | .timer => .acquire (.spin ()) .tick
  | .tick => .step (fun _ ticks _ => some (ticks+1,.wake,[]))
  | .wake => .wakeup () (.exit 0)
  | .exit r => .release (.spin ()) (.ret r)
  | .ret _ => .step (fun _ _ _ => none)

inductive KernelLock where
  | pipe (i : ℕ)
  | cons
  | tickslock
  deriving DecidableEq

inductive KernelChan where
  | pipe (i : ℕ) (c : PipeChan)
  | input
  | ticks
  deriving DecidableEq

structure Kernel where
  pipe : ℕ → Pipe
  console : Console
  ticks : Word

/-- A thread outside the calls is at `user`; so is the CPU of an interrupt
handler outside it. -/
inductive Point (ι : Type) where
  | user
  | kill (p : ι)
  | pipe (i : ℕ) (x : PipePoint)
  | cons (x : ConsPoint)
  | ticks (x : TickPoint)
  deriving DecidableEq

/-- What a thread at `user` does next, and the keys pressed. -/
inductive Choice (ι : Type) where
  | kill (p : ι)
  | pipewrite (i : ℕ) (src : List Char8)
  | piperead (i n : ℕ)
  | pipeclose (i : ℕ) (writable : Bool)
  | consoleread (n : ℕ)
  | consoleintr
  | sleep (n : Word)
  | timer
  | key (c : Option Char8)
  | go
  deriving DecidableEq

inductive KernelMark where
  | pipe (i : ℕ) (e : PipeMark)
  | cons (e : ConsMark)
  deriving DecidableEq

variable {ι : Type}

def Choice.start : Choice ι → Option (Point ι)
  | .kill p => some (.kill p)
  | .pipewrite i src => some (.pipe i (.write src))
  | .piperead i n => some (.pipe i (.read n))
  | .pipeclose i w => some (.pipe i (.close w))
  | .consoleread n => some (.cons (.read n))
  | .consoleintr => some (.cons .intr)
  | .sleep n => some (.ticks (.call n))
  | .timer => some (.ticks .timer)
  | .key _ | .go => none

def pipePoint (i : ℕ) : PipePoint → Point ι
  | .ret _ => .user
  | x => .pipe i x

def consPoint : ConsPoint → Point ι
  | .ret _ => .user
  | x => .cons x

def tickPoint : TickPoint → Point ι
  | .ret _ => .user
  | x => .ticks x

def pipePart (i : ℕ) : Part Unit PipeChan Pipe PipePoint Unit PipeMark
    KernelLock KernelChan Kernel (Point ι) (Choice ι) KernelMark where
  lock := fun _ => .pipe i
  chan := .pipe i
  get := fun m => m.pipe i
  put := fun v m => { m with pipe := Function.update m.pipe i v }
  point := pipePoint i
  input := fun _ => some ()
  mark := .pipe i

def consPart : Part Unit Unit Console ConsPoint (Option Char8) ConsMark
    KernelLock KernelChan Kernel (Point ι) (Choice ι) KernelMark where
  lock := fun _ => .cons
  chan := fun _ => .input
  get := Kernel.console
  put := fun v m => { m with console := v }
  point := consPoint
  input := fun b => match b with
    | .key c => some c
    | _ => some none
  mark := .cons

def tickPart : Part Unit Unit Word TickPoint Unit Empty
    KernelLock KernelChan Kernel (Point ι) (Choice ι) KernelMark where
  lock := fun _ => .tickslock
  chan := fun _ => .ticks
  get := Kernel.ticks
  put := fun v m => { m with ticks := v }
  point := tickPoint
  input := fun _ => some ()
  mark := fun e => nomatch e

def prog : Point ι → Instr ι KernelLock KernelChan Kernel (Point ι) (Choice ι) KernelMark
  | .user => .step (fun _ m b => b.start.map (fun x => (m,x,[])))
  | .kill p => .kill p .user
  | .pipe i x => (pipeProg x).lift (pipePart i)
  | .cons x => (consProg x).lift consPart
  | .ticks x => (tickProg x).lift tickPart

def client (m : Kernel) :
    Client ι KernelLock KernelChan Kernel (Point ι) (Choice ι) KernelMark where
  shared := m
  start := fun _ => .user
  prog := fun _ => prog

end Xv6.WaitCode

import Xv6.ProcTable
import Xv6.TransitionSystem

/-!
# Processes, CPUs and the table lock

A kernel thread of proc.c moves by the code between two points where another
CPU can act: a stretch run with `ptable.lock` held is one step, and so is
each access of `fork` outside the lock. Every CPU is in `scheduler()` or runs
the process of some slot. The lock is handed on as the code does it: a thread
that calls `sched()` leaves it to its CPU's scheduler loop, which gives it to
the next thread it switches to or releases it at the end of the loop.

The rest of the kernel appears through `sleep` and `wakeup` on channels that
are not process addresses, timer interrupts and faults. Whether a `kalloc`
succeeds is part of the label. A step that panics has no successor.
-/

set_option autoImplicit false

namespace Xv6.ProcMachine
open ProcTable TransitionSystem
open Function

inductive WaitCall where
  | wait
  | waitForProcess (process_id : Pid)
  deriving DecidableEq

inductive Syscall where
  | fork
  | exit
  | kill (pid : Pid)
  | wait
  | waitForProcess (process_id : Pid)
  deriving DecidableEq

/-- Where a kernel thread is. `user` stands for user code and all kernel code
outside proc.c; `kstack` to `runnable` are the stages of a fork that has
found the slot `np`. -/
inductive Pc where
  | user
  | fork
  | kstack (np : Slot)
  | copyuvm (np : Slot)
  | parent (np : Slot)
  | runnable (np : Slot)
  | exit
  | kill (pid : Pid)
  | waiting (w : WaitCall)
  deriving DecidableEq

/-- Why a thread is switched out, and so what it does when switched in:
`waitSleep` is the sleep of `wait` and `waitForProcess`, on `ptable.lock`. -/
inductive Switch where
  | forkret
  | yield
  | sleep
  | waitSleep
  | exit
  deriving DecidableEq

/-- Field `awaited` is a ghost: the processes that had the awaited pid when
`waitForProcess` last went to sleep, by birth. -/
structure Thread where
  pc : Pc
  sw : Option Switch
  awaited : List ℕ
  deriving DecidableEq

/-- State `run p` is the CPU with `c->proc == p`; `scan k` is the scheduler loop
about to look at slot `k`. -/
inductive Cpu where
  | idle
  | scan (k : ℕ)
  | run (p : Slot)
  deriving DecidableEq

/-- Here `nextpid` counts without bound; its low 32 bits are the C variable. -/
structure State (n : ℕ) where
  proc : Table
  thread : Slot → Thread
  nextpid : ℕ
  initproc : Slot
  lock : Option (Fin n)
  cpu : Fin n → Cpu

/-- What can be seen of a step; processes are named by birth. -/
inductive Obs where
  | born (c : ℕ)
  | forked (a c : ℕ)
  | forkFailed (a : ℕ)
  | exited (c : ℕ) (parent : Option ℕ)
  | slept (w : WaitCall) (a : ℕ)
  | reaped (w : WaitCall) (a c : ℕ) (pid : Pid)
  | failed (w : WaitCall) (a : ℕ)
  | killed (pid : Pid) (found : Bool)
  deriving DecidableEq

inductive Act where
  | sched
  | go (ok : Bool)
  | call (k : Syscall)
  | fault
  | yield
  | sleep (a : ℕ)
  | wakeup (a : ℕ)
  deriving DecidableEq

def Syscall.pc : Syscall → Pc
  | .fork => .fork
  | .exit => .exit
  | .kill pid => .kill pid
  | .wait => .waiting .wait
  | .waitForProcess q => .waiting (.waitForProcess q)

def userThread : Thread := ⟨.user,none,[]⟩

/-- The context `allocproc` builds: the first switch enters `forkret`. -/
def newThread : Thread := ⟨.user,some .forkret,[]⟩

variable {n : ℕ}

def State.setThread (s : State n) (p : Slot) (th : Thread) : State n :=
  { s with thread := update s.thread p th }

/-- The `sched()` from slot `i`: the lock stays with this CPU's scheduler loop,
which clears `c->proc` and goes on with the slot after `i`. -/
def State.sched (s : State n) (c : Fin n) (i : Slot) (th : Thread) : State n :=
  { s.setThread i th with lock := some c, cpu := update s.cpu c (.scan (i.val+1)) }

def schedulerStep (s : State n) (c : Fin n) : Option (State n × List Obs) :=
  match s.cpu c with
  | .idle =>
    if s.lock = none then
      some ({ s with lock := some c, cpu := update s.cpu c (.scan 0) },[])
    else none
  | .scan k =>
    match slots.find? (fun p => k ≤ p.val ∧ (s.proc p).state = .RUNNABLE) with
    | some p => some ({ s with
        proc := setState p .RUNNING s.proc, cpu := update s.cpu c (.run p) },[])
    | none => some ({ s with lock := none, cpu := update s.cpu c .idle },[])
  | .run _ => none

/-- The births of the processes that have the awaited pid. -/
def awaitedBy : WaitCall → Table → List ℕ
  | .wait, _ => []
  | .waitForProcess q, t =>
    (slots.filter (fun p => (t p).pid = q ∧ (t p).state ≠ .UNUSED)).map (fun p => (t p).birth)

def WaitCall.scan (w : WaitCall) (cur : Slot) (t : Table) : Scan :=
  match w with
  | .wait => waitScan cur t
  | .waitForProcess q => waitForProcessScan q cur t

/-- One pass of the loop of `wait` or `waitForProcess`, the lock being held,
up to its `release` or to the `sched()` inside its `sleep`. -/
def waitLoop (s : State n) (c : Fin n) (i : Slot) (w : WaitCall) : State n × List Obs :=
  match w.scan i s.proc with
  | .reaped p => ({ s.setThread i userThread with proc := reap p s.proc, lock := none },
      [.reaped w (s.proc i).birth (s.proc p).birth (s.proc p).pid])
  | .fail => ({ s.setThread i userThread with lock := none },[.failed w (s.proc i).birth])
  | .sleep => (({ s with
        proc := setState i .SLEEPING (setChan i (some (.proc i)) s.proc) }).sched c i
      ⟨.waiting w,some .waitSleep,awaitedBy w s.proc⟩,[.slept w (s.proc i).birth])

/-- A thread that was switched in goes on behind its `sched()` or `swtch`. -/
def resume (s : State n) (c : Fin n) (i : Slot) : Switch → Option (State n × List Obs)
  | .forkret => some ({ s.setThread i { s.thread i with sw := none } with lock := none },[])
  | .yield => some ({ s.setThread i { s.thread i with sw := none } with lock := none },[])
  | .sleep => some ({ s.setThread i { s.thread i with sw := none } with
      proc := setChan i none s.proc, lock := none },[])
  | .waitSleep => match (s.thread i).pc with
    | .waiting w => some (waitLoop { s with proc := setChan i none s.proc } c i w)
    | _ => none
  | .exit => none

/-- The locked part of `allocproc`, called by `fork` in slot `i`. -/
def allocproc (s : State n) (i : Slot) : State n × List Obs :=
  match freeSlot s.proc with
  | none => (s.setThread i userThread,[.forkFailed (s.proc i).birth])
  | some np => ({ s.setThread i ⟨.kstack np,none,[]⟩ with
      proc := embryo np s.nextpid s.proc, nextpid := s.nextpid+1 },[.born s.nextpid])

/-- Both failures of a fork that has a slot: `np->state = UNUSED` and -1. -/
def forkFail (s : State n) (i np : Slot) : State n × List Obs :=
  ({ s.setThread i userThread with proc := setState np .UNUSED s.proc },
    [.forkFailed (s.proc i).birth])

def kill (s : State n) (i : Slot) (pid : Pid) : State n × List Obs :=
  match killSlot pid s.proc with
  | some p => ({ s.setThread i userThread with proc := killTable p s.proc },[.killed pid true])
  | none => (s.setThread i userThread,[.killed pid false])

def exit (s : State n) (c : Fin n) (i : Slot) : State n × List Obs :=
  (({ s with proc := exitTable i s.initproc s.proc }).sched c i ⟨.exit,some .exit,[]⟩,
    [.exited (s.proc i).birth ((s.proc i).parent.map (fun p => (s.proc p).birth))])

/-- The next step of a thread in proc.c; `ok` is the outcome of `kalloc` or
`copyuvm` where the step is one of these. -/
def kernelStep (s : State n) (c : Fin n) (i : Slot) (ok : Bool) : Option (State n × List Obs) :=
  match (s.thread i).pc with
  | .user => none
  | .fork => if s.lock = none then some (allocproc s i) else none
  | .kstack np =>
    if ok then some ((s.setThread np newThread).setThread i ⟨.copyuvm np,none,[]⟩,[])
    else some (forkFail s i np)
  | .copyuvm np =>
    if ok then some (s.setThread i ⟨.parent np,none,[]⟩,[]) else some (forkFail s i np)
  | .parent np => some ({ s.setThread i ⟨.runnable np,none,[]⟩ with
      proc := setParent np (some i) s.proc },[])
  | .runnable np =>
    if s.lock = none then
      some ({ s.setThread i userThread with proc := setState np .RUNNABLE s.proc },
        [.forked (s.proc i).birth (s.proc np).birth])
    else none
  | .exit => if s.lock = none ∧ i ≠ s.initproc then some (exit s c i) else none
  | .kill pid => if s.lock = none then some (kill s i pid) else none
  | .waiting w => if s.lock = none then some (waitLoop s c i w) else none

/-- A killed process is sent to `exit` by `trap` instead of its system call. -/
def trapCall (s : State n) (i : Slot) (k : Syscall) : State n :=
  s.setThread i ⟨if (s.proc i).killed then .exit else k.pc,none,[]⟩

def threadStep (s : State n) (c : Fin n) (i : Slot) (a : Act) : Option (State n × List Obs) :=
  match (s.thread i).sw, a with
  | some sw, .go _ => resume s c i sw
  | none, .go ok => kernelStep s c i ok
  | none, .call k => if (s.thread i).pc = .user then some (trapCall s i k,[]) else none
  | none, .fault =>
    if (s.thread i).pc = .user then
      some ({ s.setThread i ⟨.exit,none,[]⟩ with proc := setKilled i true s.proc },[])
    else none
  | none, .yield =>
    if s.lock = none then
      some (({ s with proc := setState i .RUNNABLE s.proc }).sched c i
        { s.thread i with sw := some .yield },[])
    else none
  | none, .sleep a =>
    if s.lock = none ∧ ((s.thread i).pc = .user ∨ (s.thread i).pc = .exit) then
      some (({ s with
          proc := setState i .SLEEPING (setChan i (some (.other a)) s.proc) }).sched c i
        { s.thread i with sw := some .sleep },[])
    else none
  | _, _ => none

def step (s : State n) (l : Fin n × Act) : Option (State n × List Obs) :=
  match l.2 with
  | .sched => schedulerStep s l.1
  | .wakeup a =>
    if s.lock = none then some ({ s with proc := wakeup1 (some (.other a)) s.proc },[]) else none
  | a => match s.cpu l.1 with
    | .run i => threadStep s l.1 i a
    | _ => none

/-- The machine as `userinit` leaves it, every CPU entering `scheduler()`. -/
def boot (n : ℕ) : State n where
  proc := update (fun _ => zeroProc) 0 ⟨.RUNNABLE,1,none,none,false,1⟩
  thread := update (fun _ => userThread) 0 newThread
  nextpid := 2
  initproc := 0
  lock := none
  cpu := fun _ => .idle

def machine (n : ℕ) : System (State n) (Fin n × Act) Obs := ⟨boot n,step⟩

def solo (as : List Act) : List (Fin 1 × Act) := as.map (fun a => (0,a))

def initSteps : List Act := [.sched, .sched, .go true]

def forkSteps : List Act :=
  [.call .fork, .go true, .go true, .go true, .go true, .go true]

end Xv6.ProcMachine

import Xv6.ProcDispatch

/-!
# The context switch taken apart

Here `c->proc`, `p->state` and the stack a CPU executes on change in separate
steps, in the order of `scheduler()` and `sched()`. A process step is the
one of the process machine up to its `sched()`; the switch itself is several
steps of the CPU. A context is what `swtch` or `allocproc` has left in
`p->context`: loading it uses it up, and loading one that is not there sends
the CPU astray. The events add the two stacks' switches and the pages freed.

Forgetting where in a switch a CPU is gives the process machine.
-/

set_option autoImplicit false

namespace Xv6.SwitchMachine
open ProcTable ProcMachine TransitionSystem ProcStep ProcEffect
open ProcInvariant ProcDispatch
open Function

/-- Where a CPU is in `scheduler()`, or on which process's kernel stack it is:
`chosen` is behind `c->proc = p`, `dispatched` behind `p->state = RUNNING`,
`leaving` in `sched()` called by `p`, `back` behind the `swtch` of the loop.
A failed test of `sched()` is `panic`, a switch to no context is `wild`. -/
inductive Place where
  | loop
  | scan (k : ℕ)
  | chosen (k : ℕ) (p : Slot)
  | dispatched (p : Slot)
  | run (p : Slot)
  | leaving (p : Slot)
  | back (p : Slot)
  | panic
  | wild
  deriving DecidableEq

def Place.proc : Place → Option Slot
  | .chosen _ p | .dispatched p | .run p | .leaving p | .back p => some p
  | .loop | .scan _ | .panic | .wild => none

def Place.stack : Place → Option Slot
  | .run p | .leaving p => some p
  | .loop | .scan _ | .chosen _ _ | .dispatched _ | .back _ | .panic | .wild => none

def Place.cpu : Place → Cpu
  | .loop | .panic | .wild => .idle
  | .scan k | .chosen k _ => .scan k
  | .dispatched p | .run p => .run p
  | .leaving p | .back p => .scan (p.val+1)

structure Core (n : ℕ) where
  proc : Table
  thread : Slot → Thread
  nextpid : ℕ
  initproc : Slot
  lock : Option (Fin n)
  place : Fin n → Place
  context : Slot → Bool

/-- Processes are named by birth: `enter` and `leave` are the switches to and
from a process's stack, `kfree` and `freevm` give back its stack and its
page table. -/
inductive Event where
  | seen (x : Obs)
  | enter (c : ℕ)
  | leave (c : ℕ)
  | kfree (c : ℕ)
  | freevm (c : ℕ)
  deriving DecidableEq

def Event.obs : Event → Option Obs
  | .seen x => some x
  | _ => none

variable {n : ℕ}

def Core.view (s : Core n) : State n :=
  ⟨s.proc,s.thread,s.nextpid,s.initproc,s.lock,fun c => (s.place c).cpu⟩

def Core.at (s : Core n) (c : Fin n) (x : Place) : Core n :=
  { s with place := update s.place c x }

/-- One step of `scheduler()`, or of `sched()` in the thread it runs. -/
def schedStep (s : Core n) (c : Fin n) : Option (Core n × List Event) :=
  match s.place c with
  | .loop => if s.lock = none then some ({ s.at c (.scan 0) with lock := some c },[]) else none
  | .scan k =>
    match slots.find? (fun p => k ≤ p.val ∧ (s.proc p).state = .RUNNABLE) with
    | some p => some (s.at c (.chosen k p),[])
    | none => some ({ s.at c .loop with lock := none },[])
  | .chosen _ p => some ({ s.at c (.dispatched p) with proc := setState p .RUNNING s.proc },[])
  | .dispatched p =>
    if s.context p then
      some ({ s.at c (.run p) with context := update s.context p false },
        [.enter (s.proc p).birth])
    else some (s.at c .wild,[])
  | .leaving p =>
    if s.lock = some c ∧ (s.proc p).state ≠ .RUNNING then
      some ({ s.at c (.back p) with context := update s.context p true },
        [.leave (s.proc p).birth])
    else some (s.at c .panic,[])
  | .back p => some (s.at c (.scan (p.val+1)),[])
  | .run _ | .panic | .wild => none

/-- The slot for which a thread's step has built a context: that of a fork
whose `kalloc` has given a stack. -/
def built : Pc → Pc → Option Slot
  | .kstack np, .copyuvm _ => some np
  | _, _ => none

/-- The pages a thread's step gives back, for what it is seen to do. -/
def freed (t : Table) (pc : Pc) : Obs → List Event
  | .reaped _ _ c _ => [.kfree c,.freevm c]
  | .forkFailed _ => match pc with
    | .copyuvm np => [.kfree (t np).birth]
    | _ => []
  | _ => []

def events (t : Table) (pc : Pc) (o : List Obs) : List Event :=
  o.flatMap (fun x => freed t pc x ++ [.seen x])

/-- A step of the process machine by the process in slot `i`; one that ends in
`sched()` leaves the CPU there. -/
def Core.after (s : Core n) (c : Fin n) (i : Slot) (t : State n) : Core n where
  proc := t.proc
  thread := t.thread
  nextpid := t.nextpid
  initproc := t.initproc
  lock := t.lock
  place := if t.cpu c = .run i then s.place else update s.place c (.leaving i)
  context := match built (s.thread i).pc (t.thread i).pc with
    | some np => update s.context np true
    | none => s.context

def step (s : Core n) (l : Fin n × Act) : Option (Core n × List Event) :=
  match l.2 with
  | .sched => schedStep s l.1
  | .wakeup a =>
    if s.lock = none then some ({ s with proc := wakeup1 (some (.other a)) s.proc },[]) else none
  | a => match s.place l.1 with
    | .run i => (threadStep s.view l.1 i a).map
        (fun r => (s.after l.1 i r.1,events s.proc (s.thread i).pc r.2))
    | _ => none

def boot (n : ℕ) : Core n where
  proc := (ProcMachine.boot n).proc
  thread := (ProcMachine.boot n).thread
  nextpid := (ProcMachine.boot n).nextpid
  initproc := (ProcMachine.boot n).initproc
  lock := none
  place := fun _ => .loop
  context := update (fun _ => false) 0 true

def machine (n : ℕ) : System (Core n) (Fin n × Act) Event := ⟨boot n,step⟩

variable {s s' : Core n} {l : Fin n × Act} {o : List Event}

inductive Turn (s : Core n) : Fin n × Act → Core n → List Event → Prop
  | acquire {c : Fin n} (here : s.place c = .loop) (free : s.lock = none) :
      Turn s (c,.sched) { s.at c (.scan 0) with lock := some c } []
  | choose {c : Fin n} {k : ℕ} {p : Slot} (here : s.place c = .scan k)
      (first : slots.find? (fun p => k ≤ p.val ∧ (s.proc p).state = .RUNNABLE) = some p) :
      Turn s (c,.sched) (s.at c (.chosen k p)) []
  | release {c : Fin n} {k : ℕ} (here : s.place c = .scan k)
      (none : slots.find? (fun p => k ≤ p.val ∧ (s.proc p).state = .RUNNABLE) = none) :
      Turn s (c,.sched) { s.at c .loop with lock := .none } []
  | dispatch {c : Fin n} {k : ℕ} {p : Slot} (here : s.place c = .chosen k p) :
      Turn s (c,.sched) { s.at c (.dispatched p) with proc := setState p .RUNNING s.proc } []
  | enter {c : Fin n} {p : Slot} (here : s.place c = .dispatched p) (saved : s.context p = true) :
      Turn s (c,.sched) { s.at c (.run p) with context := update s.context p false }
        [.enter (s.proc p).birth]
  | astray {c : Fin n} {p : Slot} (here : s.place c = .dispatched p) (lost : s.context p = false) :
      Turn s (c,.sched) (s.at c .wild) []
  | leave {c : Fin n} {p : Slot} (here : s.place c = .leaving p) (held : s.lock = some c)
      (off : (s.proc p).state ≠ .RUNNING) :
      Turn s (c,.sched) { s.at c (.back p) with context := update s.context p true }
        [.leave (s.proc p).birth]
  | panic {c : Fin n} {p : Slot} (here : s.place c = .leaving p)
      (failed : ¬ (s.lock = some c ∧ (s.proc p).state ≠ .RUNNING)) :
      Turn s (c,.sched) (s.at c .panic) []
  | back {c : Fin n} {p : Slot} (here : s.place c = .back p) :
      Turn s (c,.sched) (s.at c (.scan (p.val+1))) []
  | wakeup {c : Fin n} {a : ℕ} (free : s.lock = none) :
      Turn s (c,.wakeup a) { s with proc := wakeup1 (some (.other a)) s.proc } []
  | thread {c : Fin n} {i : Slot} {a : Act} {t : State n} {x : List Obs}
      (here : s.place c = .run i) (next : ProcMachine.step s.view (c,a) = some (t,x)) :
      Turn s (c,a) (s.after c i t) (events s.proc (s.thread i).pc x)

theorem sched_turn {c : Fin n} (h : schedStep s c = some (s',o)) : Turn s (c,.sched) s' o := by
  unfold schedStep at h
  split at h
  · rename_i hc
    split at h
    · rename_i hl
      cases h
      exact .acquire hc hl
    · cases h
  · rename_i k hc
    split at h
    · rename_i p hp
      cases h
      exact .choose hc hp
    · rename_i hp
      cases h
      exact .release hc hp
  · rename_i k p hc
    cases h
    exact .dispatch hc
  · rename_i p hc
    split at h
    · rename_i hs
      cases h
      exact .enter hc hs
    · rename_i hs
      cases h
      exact .astray hc (by simpa using hs)
  · rename_i p hc
    split at h
    · rename_i hs
      cases h
      exact .leave hc hs.1 hs.2
    · rename_i hs
      cases h
      exact .panic hc hs
  · rename_i p hc
    cases h
    exact .back hc
  · cases h
  · cases h
  · cases h

theorem step_turn (h : step s l = some (s',o)) : Turn s l s' o := by
  obtain ⟨c,a⟩ := l
  unfold step at h
  split at h
  · rename_i ha
    cases ha
    exact sched_turn h
  · rename_i b ha
    cases ha
    split at h
    · rename_i hl
      cases h
      exact .wakeup hl
    · cases h
  · rename_i a' hs hw
    split at h
    · rename_i i hi
      obtain ⟨⟨t,x⟩,ht,heq⟩ := Option.map_eq_some_iff.mp h
      simp only [Prod.mk.injEq] at heq
      obtain ⟨rfl,rfl⟩ := heq
      refine .thread hi ?_
      have hcpu : s.view.cpu c = .run i := by simp [Core.view, hi, Place.cpu]
      unfold ProcMachine.step
      split
      · rename_i ha
        exact absurd ha hs
      · rename_i ha
        exact absurd ha (hw _)
      · simp only [hcpu]
        exact ht
    · cases h

end Xv6.SwitchMachine

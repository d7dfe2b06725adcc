import Xv6.ProcTable
import Xv6.TransitionSystem

/-!
# Threads that sleep and wake

Kernel threads run code of their own under spinlocks and call `sleep`,
`wakeup`, `wakeup1` and `kill` of proc.c, which are taken apart here: each
lock taken or released and each write of a process's state is a step, and any
thread may stop between two steps for any time. A thread that calls `sched()`
leaves `ptable.lock` to the scheduler, which releases it or hands it to a
runnable thread it switches to. Interrupt handlers are threads that never
sleep. The code is given by what it does next at each of its points.
-/

set_option autoImplicit false

namespace Xv6.SleepMachine
open ProcTable TransitionSystem
open Function

inductive Lock (L : Type) where
  | ptable
  | spin (l : L)
  deriving DecidableEq

inductive Holder (ι : Type) where
  | sched
  | thread (p : ι)
  deriving DecidableEq

/-- What a thread does next. A `step` reads the thread's own `killed` and the
shared memory, and takes an input where the code depends on more. -/
inductive Instr (ι L κ σ α β ω : Type) where
  | acquire (lk : Lock L) (next : α)
  | release (lk : Lock L) (next : α)
  | step (f : Bool → σ → β → Option (σ × α × List ω))
  | sleep (chan : κ) (lk : Lock L) (next : α)
  | wakeup (chan : κ) (next : α)
  | wakeup1 (chan : κ) (next : α)
  | kill (p : ι) (next : α)

def Instr.next {ι L κ σ α β ω : Type} : Instr ι L κ σ α β ω → Option α
  | .acquire _ y | .release _ y | .sleep _ _ y | .wakeup _ y | .wakeup1 _ y | .kill _ y => some y
  | .step _ => none

structure Client (ι L κ σ α β ω : Type) where
  shared : σ
  start : ι → α
  prog : ι → α → Instr ι L κ σ α β ω

def Lock.map {L L' : Type} (f : L → L') : Lock L → Lock L'
  | .ptable => .ptable
  | .spin l => .spin (f l)

/-- How a piece of code is part of a larger system: where its locks, channels,
memory and points are in it, and which inputs it takes. -/
structure Part (L κ σ α β ω L' κ' σ' α' β' ω' : Type) where
  lock : L → L'
  chan : κ → κ'
  get : σ' → σ
  put : σ → σ' → σ'
  point : α → α'
  input : β' → Option β
  mark : ω → ω'

def Instr.lift {ι L κ σ α β ω L' κ' σ' α' β' ω' : Type}
    (e : Part L κ σ α β ω L' κ' σ' α' β' ω') : Instr ι L κ σ α β ω → Instr ι L' κ' σ' α' β' ω'
  | .acquire k y => .acquire (k.map e.lock) (e.point y)
  | .release k y => .release (k.map e.lock) (e.point y)
  | .step f => .step (fun d m b => match e.input b with
      | some i => (f d (e.get m) i).map (fun r => (e.put r.1 m,e.point r.2.1,r.2.2.map e.mark))
      | none => none)
  | .sleep c k y => .sleep (e.chan c) (k.map e.lock) (e.point y)
  | .wakeup c y => .wakeup (e.chan c) (e.point y)
  | .wakeup1 c y => .wakeup1 (e.chan c) (e.point y)
  | .kill p y => .kill p (e.point y)

/-- Where a thread is: at a point of its own code, in `sleep` (`enter` to
`retake`), in `wakeup` (`waking`, `wake`) or in `kill`. At `table` either of
these two is about to release `ptable.lock`; at `off` the thread has been
switched out, at `back` it has been switched in, at `tidy` it has cleared
`p->chan`. -/
inductive Place (ι L κ α : Type) where
  | code (x : α)
  | enter (chan : κ) (lk : Lock L) (next : α)
  | drop (chan : κ) (l : L) (next : α)
  | mark (chan : κ) (lk : Lock L) (next : α)
  | sched (chan : κ) (lk : Lock L) (next : α)
  | off (chan : κ) (lk : Lock L) (next : α)
  | back (chan : κ) (lk : Lock L) (next : α)
  | tidy (chan : κ) (lk : Lock L) (next : α)
  | retake (chan : κ) (l : L) (next : α)
  | waking (chan : κ) (next : α)
  | wake (chan : κ) (next : α)
  | killing (p : ι) (next : α)
  | kill (p : ι) (next : α)
  | table (next : α)
  deriving DecidableEq

structure State (ι L κ σ α : Type) where
  shared : σ
  holder : Lock L → Option (Holder ι)
  state : ι → ProcState
  chan : ι → Option κ
  killed : ι → Bool
  place : ι → Place ι L κ α

/-- Thread `p` has set to runnable whoever slept on the channel; or it has
shown an event of its own code. -/
inductive Event (ι κ ω : Type) where
  | woke (p : ι) (chan : κ)
  | own (p : ι) (e : ω)
  deriving DecidableEq

/-- A thread's next step, or one of the scheduler. -/
inductive Label (ι β : Type) where
  | thread (p : ι) (input : β)
  | take
  | give (p : ι)
  | idle
  deriving DecidableEq

variable {ι L κ σ α β ω : Type} [DecidableEq ι] [DecidableEq L] [DecidableEq κ]

def State.at (s : State ι L κ σ α) (p : ι) (x : Place ι L κ α) : State ι L κ σ α :=
  { s with place := update s.place p x }

def State.own (s : State ι L κ σ α) (k : Lock L) (h : Option (Holder ι)) : State ι L κ σ α :=
  { s with holder := update s.holder k h }

def State.setState (s : State ι L κ σ α) (p : ι) (x : ProcState) : State ι L κ σ α :=
  { s with state := update s.state p x }

def State.setChan (s : State ι L κ σ α) (p : ι) (c : Option κ) : State ι L κ σ α :=
  { s with chan := update s.chan p c }

def State.wakeup1 (s : State ι L κ σ α) (c : κ) : State ι L κ σ α :=
  { s with state := fun p =>
      if s.state p = .SLEEPING ∧ s.chan p = some c then .RUNNABLE else s.state p }

/-- The loop of `kill` at the process it looks for. -/
def State.kill (s : State ι L κ σ α) (p : ι) : State ι L κ σ α :=
  { s with
    killed := update s.killed p true
    state := if s.state p = .SLEEPING then update s.state p .RUNNABLE else s.state }

abbrev Next (ι L κ σ α ω : Type) := Option (State ι L κ σ α × List (Event ι κ ω))

def acquire (s : State ι L κ σ α) (p : ι) (k : Lock L) (x : Place ι L κ α) : Next ι L κ σ α ω :=
  if s.holder k = none then some ((s.own k (some (.thread p))).at p x,[]) else none

/-- A `release` by a thread that does not hold the lock panics. -/
def release (s : State ι L κ σ α) (p : ι) (k : Lock L) (x : Place ι L κ α) : Next ι L κ σ α ω :=
  if s.holder k = some (.thread p) then some ((s.own k none).at p x,[]) else none

def codeStep (s : State ι L κ σ α) (p : ι) (b : β) : Instr ι L κ σ α β ω → Next ι L κ σ α ω
  | .acquire k y => acquire s p k (.code y)
  | .release k y => release s p k (.code y)
  | .step f => (f (s.killed p) s.shared b).map
      (fun r => ({ s with shared := r.1 }.at p (.code r.2.1),r.2.2.map (.own p)))
  | .sleep c k y => some (s.at p (.enter c k y),[])
  | .wakeup c y => some (s.at p (.waking c y),[])
  | .wakeup1 c y => some ((s.wakeup1 c).at p (.code y),[.woke p c])
  | .kill q y => some (s.at p (.killing q y),[])

def threadStep (C : Client ι L κ σ α β ω) (s : State ι L κ σ α) (p : ι) (b : β) :
    Next ι L κ σ α ω :=
  match s.place p with
  | .code x => codeStep s p b (C.prog p x)
  | .enter c .ptable y => some (s.at p (.mark c .ptable y),[])
  | .enter c (.spin l) y => acquire s p .ptable (.drop c l y)
  | .drop c l y => release s p (.spin l) (.mark c (.spin l) y)
  | .mark c k y => some (((s.setChan p (some c)).setState p .SLEEPING).at p (.sched c k y),[])
  | .sched c k y => some ((s.own .ptable (some .sched)).at p (.off c k y),[])
  | .off _ _ _ => none
  | .back c k y => some ((s.setChan p none).at p (.tidy c k y),[])
  | .tidy _ .ptable y => some (s.at p (.code y),[])
  | .tidy c (.spin l) y => release s p .ptable (.retake c l y)
  | .retake _ l y => acquire s p (.spin l) (.code y)
  | .waking c y => acquire s p .ptable (.wake c y)
  | .wake c y => some ((s.wakeup1 c).at p (.table y),[.woke p c])
  | .killing q y => acquire s p .ptable (.kill q y)
  | .kill q y => some ((s.kill q).at p (.table y),[])
  | .table y => release s p .ptable (.code y)

def step (C : Client ι L κ σ α β ω) (s : State ι L κ σ α) : Label ι β → Next ι L κ σ α ω
  | .thread p b => threadStep C s p b
  | .take => if s.holder .ptable = none then some (s.own .ptable (some .sched),[]) else none
  | .give p =>
    if s.holder .ptable = some .sched ∧ s.state p = .RUNNABLE then
      match s.place p with
      | .off c k y =>
        some (((s.own .ptable (some (.thread p))).setState p .RUNNING).at p (.back c k y),[])
      | _ => none
    else none
  | .idle =>
    if s.holder .ptable = some .sched then some (s.own .ptable none,[]) else none

def boot (C : Client ι L κ σ α β ω) : State ι L κ σ α where
  shared := C.shared
  holder := fun _ => none
  state := fun _ => .RUNNING
  chan := fun _ => none
  killed := fun _ => false
  place := fun p => .code (C.start p)

def machine (C : Client ι L κ σ α β ω) :
    System (State ι L κ σ α) (Label ι β) (Event ι κ ω) := ⟨boot C,step C⟩

inductive Takes (C : Client ι L κ σ α β ω) (p : ι) : Place ι L κ α → Lock L → Place ι L κ α → Prop
  | code {x y : α} {k : Lock L} (prog : C.prog p x = .acquire k y) : Takes C p (.code x) k (.code y)
  | enter {c : κ} {l : L} {y : α} : Takes C p (.enter c (.spin l) y) .ptable (.drop c l y)
  | retake {c : κ} {l : L} {y : α} : Takes C p (.retake c l y) (.spin l) (.code y)
  | waking {c : κ} {y : α} : Takes C p (.waking c y) .ptable (.wake c y)
  | killing {q : ι} {y : α} : Takes C p (.killing q y) .ptable (.kill q y)

inductive Drops (C : Client ι L κ σ α β ω) (p : ι) : Place ι L κ α → Lock L → Place ι L κ α → Prop
  | code {x y : α} {k : Lock L} (prog : C.prog p x = .release k y) : Drops C p (.code x) k (.code y)
  | drop {c : κ} {l : L} {y : α} : Drops C p (.drop c l y) (.spin l) (.mark c (.spin l) y)
  | tidy {c : κ} {l : L} {y : α} : Drops C p (.tidy c (.spin l) y) .ptable (.retake c l y)
  | table {y : α} : Drops C p (.table y) .ptable (.code y)

inductive Goes (C : Client ι L κ σ α β ω) (p : ι) : Place ι L κ α → Place ι L κ α → Prop
  | sleep {x y : α} {c : κ} {k : Lock L} (prog : C.prog p x = .sleep c k y) :
      Goes C p (.code x) (.enter c k y)
  | wakeup {x y : α} {c : κ} (prog : C.prog p x = .wakeup c y) : Goes C p (.code x) (.waking c y)
  | kill {x y : α} {q : ι} (prog : C.prog p x = .kill q y) : Goes C p (.code x) (.killing q y)
  | enter {c : κ} {y : α} : Goes C p (.enter c .ptable y) (.mark c .ptable y)
  | tidy {c : κ} {y : α} : Goes C p (.tidy c .ptable y) (.code y)

inductive Wakes (C : Client ι L κ σ α β ω) (p : ι) : Place ι L κ α → κ → Place ι L κ α → Prop
  | code {x y : α} {c : κ} (prog : C.prog p x = .wakeup1 c y) : Wakes C p (.code x) c (.code y)
  | wake {c : κ} {y : α} : Wakes C p (.wake c y) c (.table y)

inductive Turn (C : Client ι L κ σ α β ω) (s : State ι L κ σ α) :
    Label ι β → State ι L κ σ α → List (Event ι κ ω) → Prop
  | take {p : ι} {b : β} {k : Lock L} {x : Place ι L κ α} (arc : Takes C p (s.place p) k x)
      (free : s.holder k = none) :
      Turn C s (.thread p b) ((s.own k (some (.thread p))).at p x) []
  | drop {p : ι} {b : β} {k : Lock L} {x : Place ι L κ α} (arc : Drops C p (s.place p) k x)
      (held : s.holder k = some (.thread p)) : Turn C s (.thread p b) ((s.own k none).at p x) []
  | go {p : ι} {b : β} {x : Place ι L κ α} (arc : Goes C p (s.place p) x) :
      Turn C s (.thread p b) (s.at p x) []
  | step {p : ι} {b : β} {x y : α} {f : Bool → σ → β → Option (σ × α × List ω)} {m : σ}
      {o : List ω} (here : s.place p = .code x) (prog : C.prog p x = .step f)
      (next : f (s.killed p) s.shared b = some (m,y,o)) :
      Turn C s (.thread p b) ({ s with shared := m }.at p (.code y)) (o.map (.own p))
  | mark {p : ι} {b : β} {c : κ} {k : Lock L} {y : α} (here : s.place p = .mark c k y) :
      Turn C s (.thread p b)
        (((s.setChan p (some c)).setState p .SLEEPING).at p (.sched c k y)) []
  | sched {p : ι} {b : β} {c : κ} {k : Lock L} {y : α} (here : s.place p = .sched c k y) :
      Turn C s (.thread p b) ((s.own .ptable (some .sched)).at p (.off c k y)) []
  | back {p : ι} {b : β} {c : κ} {k : Lock L} {y : α} (here : s.place p = .back c k y) :
      Turn C s (.thread p b) ((s.setChan p none).at p (.tidy c k y)) []
  | wake {p : ι} {b : β} {c : κ} {x : Place ι L κ α} (arc : Wakes C p (s.place p) c x) :
      Turn C s (.thread p b) ((s.wakeup1 c).at p x) [.woke p c]
  | kill {p q : ι} {b : β} {y : α} (here : s.place p = .kill q y) :
      Turn C s (.thread p b) ((s.kill q).at p (.table y)) []
  | schedTake (free : s.holder .ptable = none) :
      Turn C s .take (s.own .ptable (some .sched)) []
  | give {p : ι} {c : κ} {k : Lock L} {y : α} (held : s.holder .ptable = some .sched)
      (ready : s.state p = .RUNNABLE) (here : s.place p = .off c k y) :
      Turn C s (.give p)
        (((s.own .ptable (some (.thread p))).setState p .RUNNING).at p (.back c k y)) []
  | idle (held : s.holder .ptable = some .sched) : Turn C s .idle (s.own .ptable none) []

variable {C : Client ι L κ σ α β ω} {s s' : State ι L κ σ α} {l : Label ι β}
  {o : List (Event ι κ ω)}

theorem acquire_turn {p : ι} {b : β} {k : Lock L} {x : Place ι L κ α}
    (arc : Takes C p (s.place p) k x) (h : acquire s p k x = some (s',o)) :
    Turn C s (.thread p b) s' o := by
  unfold acquire at h
  split at h
  · rename_i free
    cases h
    exact .take arc free
  · cases h

theorem release_turn {p : ι} {b : β} {k : Lock L} {x : Place ι L κ α}
    (arc : Drops C p (s.place p) k x) (h : release s p k x = some (s',o)) :
    Turn C s (.thread p b) s' o := by
  unfold release at h
  split at h
  · rename_i held
    cases h
    exact .drop arc held
  · cases h

theorem code_turn {p : ι} {b : β} {x : α} (here : s.place p = .code x)
    (h : codeStep s p b (C.prog p x) = some (s',o)) : Turn C s (.thread p b) s' o := by
  cases hp : C.prog p x <;> rw [hp] at h
  case acquire => exact acquire_turn (by rw [here]; exact .code hp) h
  case release => exact release_turn (by rw [here]; exact .code hp) h
  case step f =>
    obtain ⟨⟨m,y,e⟩,hf,heq⟩ := Option.map_eq_some_iff.mp h
    cases heq
    exact .step here hp hf
  case sleep => cases h; exact .go (by rw [here]; exact .sleep hp)
  case wakeup => cases h; exact .go (by rw [here]; exact .wakeup hp)
  case wakeup1 => cases h; exact .wake (by rw [here]; exact .code hp)
  case kill => cases h; exact .go (by rw [here]; exact .kill hp)

theorem thread_turn {p : ι} {b : β} (h : threadStep C s p b = some (s',o)) :
    Turn C s (.thread p b) s' o := by
  unfold threadStep at h
  split at h <;> rename_i here
  · exact code_turn here h
  · cases h; exact .go (by rw [here]; exact .enter)
  · exact acquire_turn (by rw [here]; exact .enter) h
  · exact release_turn (by rw [here]; exact .drop) h
  · cases h; exact .mark here
  · cases h; exact .sched here
  · cases h
  · cases h; exact .back here
  · cases h; exact .go (by rw [here]; exact .tidy)
  · exact release_turn (by rw [here]; exact .tidy) h
  · exact acquire_turn (by rw [here]; exact .retake) h
  · exact acquire_turn (by rw [here]; exact .waking) h
  · cases h; exact .wake (by rw [here]; exact .wake)
  · exact acquire_turn (by rw [here]; exact .killing) h
  · cases h; exact .kill here
  · exact release_turn (by rw [here]; exact .table) h

theorem step_turn (h : step C s l = some (s',o)) : Turn C s l s' o := by
  unfold step at h
  split at h
  · exact thread_turn h
  · split at h
    · rename_i free
      cases h
      exact .schedTake free
    · cases h
  · split at h
    · rename_i hg
      split at h
      · rename_i here
        cases h
        exact .give hg.1 hg.2 here
      · cases h
    · cases h
  · split at h
    · rename_i held
      cases h
      exact .idle held
    · cases h

end Xv6.SleepMachine

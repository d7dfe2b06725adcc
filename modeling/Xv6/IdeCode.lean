import Xv6.CodeMachine
import Xv6.LinkedQueue

/-!
# The disk drivers

`ide.c`: `iderw`, `idestart` and `ideintr`, run by any number of processes and by the handlers
of the interrupts of a disk. The disk carries out the command it was given at some time and
raises one interrupt then; a handler takes it. There are no disk errors. Outside of `iderw` a
process changes buffers that nobody or it itself has locked, which stands for the buffer cache.

`memide.c` next to it: `iderw` on a disk in memory.
-/

set_option autoImplicit false

namespace Xv6.IdeCode
open TransitionSystem SleepMachine SleepLocks CodeMachine LinkedQueue
open Function

abbrev FSSIZE : ℕ := 1000

/-- The fields of `struct buf` but `qnext`. -/
structure Buf (ι V : Type) where
  dev : ℕ
  blockno : ℕ
  valid : Bool
  dirty : Bool
  data : V
  lock : Option ι
  deriving DecidableEq

inductive Panic where
  | notLocked
  | nothingToDo
  | noDisk1
  | incorrectBlockno
  | notDisk1
  | outOfRange
  deriving DecidableEq

section Memory
variable {ι B V : Type}
variable [DecidableEq B] [DecidableEq ι]

structure MemDisk (ι B V : Type) where
  buf : B → Buf ι V
  memdisk : ℕ → V

def MemDisk.set (m : MemDisk ι B V) (b : B) (c : Buf ι V) : MemDisk ι B V :=
  { m with buf := update m.buf b c }

/-- `iderw` of `memide.c`, called by `p`. -/
def memIderw (disksize : ℕ) (p : ι) (b : B) (m : MemDisk ι B V) : Except Panic (MemDisk ι B V) :=
  let c := m.buf b
  if c.lock ≠ some p then .error .notLocked
  else if c.valid = true ∧ c.dirty = false then .error .nothingToDo
  else if c.dev ≠ 1 then .error .notDisk1
  else if disksize ≤ c.blockno then .error .outOfRange
  else if c.dirty = true then
    .ok ({ m with memdisk := update m.memdisk c.blockno c.data }.set b
      { c with dirty := false, valid := true })
  else .ok (m.set b { c with data := m.memdisk c.blockno, valid := true })

/-- What is done to the buffers: a process changes one, or calls `iderw`. -/
inductive Op (ι B V : Type) where
  | set (b : B) (c : Buf ι V)
  | rw (p : ι) (b : B)

def memRun (disksize : ℕ) : List (Op ι B V) → MemDisk ι B V → Except Panic (MemDisk ι B V)
  | [], m => .ok m
  | .set b c::ops, m => memRun disksize ops (m.set b c)
  | .rw p b::ops, m => (memIderw disksize p b m).bind (memRun disksize ops)

/-- The registers 0x1f3 to 0x1f6 as `idestart` writes them. -/
structure Regs where
  r3 : ℕ
  r4 : ℕ
  r5 : ℕ
  r6 : ℕ
  deriving DecidableEq

def regs (dev sector : ℕ) : Regs :=
  ⟨sector%256,sector/256%256,sector/65536%256,224+dev%2*16+sector/16777216%16⟩

def Regs.drive (r : Regs) : ℕ := r.r6/16%2
def Regs.sector (r : Regs) : ℕ := r.r3+256*r.r4+65536*r.r5+16777216*(r.r6%16)

/-- A command of the disk, with the data where it is one to write. -/
structure Command (V : Type) where
  regs : Regs
  data : Option V

/-- The disks, the command that is being carried out, and what can be read at the data port. -/
structure Device (V : Type) where
  disk : ℕ → ℕ → V
  active : Option (Command V)
  port : V

structure Mem (ι B V : Type) where
  buf : B → Buf ι V
  qnext : B → Option B
  idequeue : Option B
  device : Device V
  irq : Bool
  havedisk1 : Bool

inductive Agent (ι : Type) where
  | proc (p : ι)
  | disk
  | handler (k : ℕ)
  deriving DecidableEq

/-- The points of `iderw`, in the order of its lines, and those of `ideintr`. A panic with
`idelock` held is `halted`. -/
inductive Point (ι B : Type) where
  | idle
  | check (b : B)
  | acquire (b : B)
  | append (b : B)
  | find (b : B) (pp : Link B)
  | head (b : B)
  | start (b : B)
  | test (b : B)
  | sleep (b : B)
  | exit (b : B)
  | done (b : B)
  | kill (a : Agent ι)
  | panicked (msg : Panic)
  | halted (b : B)
  | device
  | wait
  | lock
  | take
  | read (b : B)
  | flags (b : B)
  | wake (b : B)
  | next
  | leave
  deriving DecidableEq

inductive Input (ι B V : Type) where
  | set (b : B) (c : Buf ι V)
  | iderw (b : B)
  | kill (a : Agent ι)
  | go

inductive Mark (ι B V : Type) where
  | set (b : B) (c : Buf ι V)
  | call (b : B)
  | queued (b : B)
  | started (b : B)
  | moved (b : B)
  | returned (b : B)

abbrev Next (ι B V : Type) := Option (Mem ι B V × Point ι B × List (Mark ι B V))

def Mem.setBuf (m : Mem ι B V) (b : B) (c : Buf ι V) : Mem ι B V := { m with buf := update m.buf b c }

/-- The flags are `B_VALID` alone. -/
def Buf.ready (c : Buf ι V) : Bool := c.valid && !c.dirty

def command (c : Buf ι V) : Command V := ⟨regs c.dev c.blockno,if c.dirty then some c.data else none⟩

def Mem.begin (m : Mem ι B V) (b : B) : Mem ι B V :=
  { m with device := { m.device with active := some (command (m.buf b)) } }

/-- `idestart`, which waits for the disk to be ready, and the point behind it. -/
def idestart (m : Mem ι B V) (b : B) (y : Point ι B) : Next ι B V :=
  if FSSIZE ≤ (m.buf b).blockno then some (m,.halted b,[])
  else if m.device.active.isSome then none
  else some (m.begin b,y,[.started b])

def Device.finish (d : Device V) (c : Command V) : Device V :=
  match c.data with
  | some v => { d with
      disk := update d.disk c.regs.drive (update (d.disk c.regs.drive) c.regs.sector v)
      active := none }
  | none => { d with port := d.disk c.regs.drive c.regs.sector, active := none }

def enter (p : ι) (m : Mem ι B V) : Input ι B V → Next ι B V
  | .set b c =>
    if ((m.buf b).lock = none ∨ (m.buf b).lock = some p) ∧ (c.lock = none ∨ c.lock = some p) then
      some (m.setBuf b c,.idle,[.set b c])
    else none
  | .iderw b => some (m,.check b,[.call b])
  | .kill a => some (m,.kill a,[])
  | .go => none

def iderw (p : ι) : Point ι B → Instr (Agent ι) Unit B (Mem ι B V) (Point ι B) (Input ι B V) (Mark ι B V)
  | .idle => .step fun _ m i => enter p m i
  | .check b => .step fun _ m _ =>
      if (m.buf b).lock ≠ some p then some (m,.panicked .notLocked,[])
      else if (m.buf b).ready then some (m,.panicked .nothingToDo,[])
      else if (m.buf b).dev ≠ 0 ∧ m.havedisk1 = false then some (m,.panicked .noDisk1,[])
      else some (m,.acquire b,[])
  | .acquire b => .acquire (.spin ()) (.append b)
  | .append b => .step fun _ m _ => some ({ m with qnext := update m.qnext b none },.find b none,[])
  | .find b pp => .step fun _ m _ => match deref m.idequeue m.qnext pp with
      | some c => some (m,.find b (some c),[])
      | none => some ({ m with
          idequeue := storeHead m.idequeue pp b
          qnext := storeNext m.qnext pp b },.head b,[.queued b])
  | .head b => .step fun _ m _ => some (m,if m.idequeue = some b then .start b else .test b,[])
  | .start b => .step fun _ m _ => idestart m b (.test b)
  | .test b => .step fun _ m _ => some (m,if (m.buf b).ready then .exit b else .sleep b,[])
  | .sleep b => .sleep b (.spin ()) (.test b)
  | .exit b => .release (.spin ()) (.done b)
  | .done b => .step fun _ m _ => some (m,.idle,[.returned b])
  | .kill a => .kill a .idle
  | _ => .step fun _ _ _ => none

def ideintr : Point ι B → Instr (Agent ι) Unit B (Mem ι B V) (Point ι B) (Input ι B V) (Mark ι B V)
  | .wait => .step fun _ m _ => if m.irq then some ({ m with irq := false },.lock,[]) else none
  | .lock => .acquire (.spin ()) .take
  | .take => .step fun _ m _ => match m.idequeue with
      | none => some (m,.leave,[])
      | some b => some ({ m with idequeue := m.qnext b },.read b,[])
  | .read b => .step fun _ m _ =>
      if (m.buf b).dirty then some (m,.flags b,[])
      else if m.device.active.isSome then none
      else some (m.setBuf b { m.buf b with data := m.device.port },.flags b,[])
  | .flags b => .step fun _ m _ =>
      some (m.setBuf b { m.buf b with valid := true, dirty := false },.wake b,[.moved b])
  | .wake b => .wakeup b .next
  | .next => .step fun _ m _ => match m.idequeue with
      | none => some (m,.leave,[])
      | some c => idestart m c .leave
  | .leave => .release (.spin ()) .wait
  | _ => .step fun _ _ _ => none

def disk : Point ι B → Instr (Agent ι) Unit B (Mem ι B V) (Point ι B) (Input ι B V) (Mark ι B V)
  | .device => .step fun _ m _ => m.device.active.map fun c =>
      ({ m with device := m.device.finish c, irq := true },.device,[])
  | _ => .step fun _ _ _ => none

def prog : Agent ι → Point ι B → Instr (Agent ι) Unit B (Mem ι B V) (Point ι B) (Input ι B V) (Mark ι B V)
  | .proc p => iderw p
  | .disk => disk
  | .handler _ => ideintr

structure Setup (ι B V : Type) where
  buf : B → Buf ι V
  disk : ℕ → ℕ → V
  qnext : B → Option B
  port : V
  havedisk1 : Bool
  disksize : ℕ

def client (S : Setup ι B V) :
    Client (Agent ι) Unit B (Mem ι B V) (Point ι B) (Input ι B V) (Mark ι B V) where
  shared := ⟨S.buf,S.qnext,none,⟨S.disk,none,S.port⟩,false,S.havedisk1⟩
  start := fun
    | .proc _ => .idle
    | .disk => .device
    | .handler _ => .wait
  prog := prog

inductive Act (m : Mem ι B V) : Agent ι → Point ι B → Mem ι B V → Point ι B → List (Mark ι B V) → Prop
  | set {p : ι} {b : B} {c : Buf ι V} (old : (m.buf b).lock = none ∨ (m.buf b).lock = some p)
      (new : c.lock = none ∨ c.lock = some p) : Act m (.proc p) .idle (m.setBuf b c) .idle [.set b c]
  | call {p : ι} {b : B} : Act m (.proc p) .idle m (.check b) [.call b]
  | kill {p : ι} {a : Agent ι} : Act m (.proc p) .idle m (.kill a) []
  | refused {p : ι} {b : B} {msg : Panic} : Act m (.proc p) (.check b) m (.panicked msg) []
  | checked {p : ι} {b : B} (locked : (m.buf b).lock = some p) (work : (m.buf b).ready = false) :
      Act m (.proc p) (.check b) m (.acquire b) []
  | clear {p : ι} {b : B} :
      Act m (.proc p) (.append b) { m with qnext := update m.qnext b none } (.find b none) []
  | walk {p : ι} {b c : B} {pp : Link B} (more : deref m.idequeue m.qnext pp = some c) :
      Act m (.proc p) (.find b pp) m (.find b (some c)) []
  | queue {p : ι} {b : B} {pp : Link B} (last : deref m.idequeue m.qnext pp = none) :
      Act m (.proc p) (.find b pp) { m with
        idequeue := storeHead m.idequeue pp b
        qnext := storeNext m.qnext pp b } (.head b) [.queued b]
  | first {p : ι} {b : B} (front : m.idequeue = some b) : Act m (.proc p) (.head b) m (.start b) []
  | later {p : ι} {b : B} (behind : m.idequeue ≠ some b) : Act m (.proc p) (.head b) m (.test b) []
  | start {p : ι} {b : B} (fits : (m.buf b).blockno < FSSIZE) (free : m.device.active = none) :
      Act m (.proc p) (.start b) (m.begin b) (.test b) [.started b]
  | halt {p : ι} {b : B} : Act m (.proc p) (.start b) m (.halted b) []
  | ready {p : ι} {b : B} (ready : (m.buf b).ready = true) : Act m (.proc p) (.test b) m (.exit b) []
  | busy {p : ι} {b : B} (work : (m.buf b).ready = false) : Act m (.proc p) (.test b) m (.sleep b) []
  | back {p : ι} {b : B} : Act m (.proc p) (.done b) m .idle [.returned b]
  | finish {c : Command V} (active : m.device.active = some c) :
      Act m .disk .device { m with device := m.device.finish c, irq := true } .device []
  | interrupt {k : ℕ} (irq : m.irq = true) : Act m (.handler k) .wait { m with irq := false } .lock []
  | spurious {k : ℕ} (empty : m.idequeue = none) : Act m (.handler k) .take m .leave []
  | take {k : ℕ} {b : B} (front : m.idequeue = some b) :
      Act m (.handler k) .take { m with idequeue := m.qnext b } (.read b) []
  | written {k : ℕ} {b : B} (dirty : (m.buf b).dirty = true) : Act m (.handler k) (.read b) m (.flags b) []
  | copy {k : ℕ} {b : B} (clean : (m.buf b).dirty = false) :
      Act m (.handler k) (.read b) (m.setBuf b { m.buf b with data := m.device.port }) (.flags b) []
  | move {k : ℕ} {b : B} :
      Act m (.handler k) (.flags b) (m.setBuf b { m.buf b with valid := true, dirty := false })
        (.wake b) [.moved b]
  | empty {k : ℕ} (empty : m.idequeue = none) : Act m (.handler k) .next m .leave []
  | next {k : ℕ} {c : B} (front : m.idequeue = some c) (fits : (m.buf c).blockno < FSSIZE)
      (free : m.device.active = none) : Act m (.handler k) .next (m.begin c) .leave [.started c]
  | stuck {k : ℕ} {c : B} (front : m.idequeue = some c) : Act m (.handler k) .next m (.halted c) []

section Step
variable {a : Agent ι} {m m' : Mem ι B V} {x y : Point ι B} {e : List (Mark ι B V)} {d : Bool}
    {i : Input ι B V}
  {f : Bool → Mem ι B V → Input ι B V → Next ι B V}

omit [DecidableEq B] [DecidableEq ι] in
theorem idestart_cases {b : B} {z : Point ι B} (h : idestart m b z = some (m',y,e)) :
    (m' = m ∧ y = .halted b ∧ e = []) ∨
      ((m.buf b).blockno < FSSIZE ∧ m.device.active = none ∧ m' = m.begin b ∧ y = z ∧ e = [.started b]) := by
  rw [idestart] at h
  split at h
  · cases h
    exact .inl ⟨rfl,rfl,rfl⟩
  · rename_i hfits
    split at h
    · cases h
    · rename_i hfree
      cases h
      exact .inr ⟨Nat.lt_of_not_le hfits,by simpa using hfree,rfl,rfl,rfl⟩

theorem enter_act {p : ι} (h : enter p m i = some (m',y,e)) : Act m (.proc p) .idle m' y e := by
  cases i with
  | set b c =>
    rw [enter] at h
    split at h
    · rename_i hlock
      cases h
      exact .set hlock.1 hlock.2
    · cases h
  | iderw b =>
    cases h
    exact .call
  | kill a =>
    cases h
    exact .kill
  | go => cases h

theorem iderw_act {p : ι} (hp : iderw p x = .step f) (h : f d m i = some (m',y,e)) :
    Act m (.proc p) x m' y e := by
  cases x with
  | acquire | sleep | exit | kill => cases hp
  | panicked | halted | device | wait | lock | take | read | flags | wake | next | leave =>
    cases hp
    cases h
  | idle =>
    cases hp
    exact enter_act h
  | check b =>
    cases hp
    dsimp only at h
    split at h
    · cases h
      exact .refused
    · rename_i hlock
      split at h
      · cases h
        exact .refused
      · rename_i hready
        split at h
        · cases h
          exact .refused
        · cases h
          exact .checked (not_not.mp hlock) (Bool.eq_false_iff.mpr hready)
  | append b =>
    cases hp
    cases h
    exact .clear
  | find b pp =>
    cases hp
    dsimp only at h
    split at h
    · rename_i c hc
      cases h
      exact .walk hc
    · rename_i hnone
      cases h
      exact .queue hnone
  | head b =>
    cases hp
    cases h
    split
    · exact .first (by assumption)
    · exact .later (by assumption)
  | start b =>
    cases hp
    rcases idestart_cases h with ⟨rfl,rfl,rfl⟩ | ⟨hfits,hfree,rfl,rfl,rfl⟩
    · exact .halt
    · exact .start hfits hfree
  | test b =>
    cases hp
    cases h
    split_ifs with hready
    · exact .ready (by assumption)
    · exact .busy (Bool.eq_false_iff.mpr hready)
  | done b =>
    cases hp
    cases h
    exact .back

omit [DecidableEq ι] in
theorem ideintr_act {k : ℕ} (hp : ideintr x = .step f) (h : f d m i = some (m',y,e)) :
    Act m (.handler k) x m' y e := by
  cases x with
  | lock | wake | leave => cases hp
  | idle | check | acquire | append | find | head | start | test | sleep | exit | done | kill | panicked
  | halted | device =>
    cases hp
    cases h
  | wait =>
    cases hp
    dsimp only at h
    split at h
    · cases h
      exact .interrupt (by assumption)
    · cases h
  | take =>
    cases hp
    dsimp only at h
    split at h
    · cases h
      exact .spurious (by assumption)
    · cases h
      exact .take (by assumption)
  | read b =>
    cases hp
    dsimp only at h
    split at h
    · cases h
      exact .written (by assumption)
    · rename_i hclean
      split at h
      · cases h
      · cases h
        exact .copy (Bool.eq_false_iff.mpr hclean)
  | flags b =>
    cases hp
    cases h
    exact .move
  | next =>
    cases hp
    dsimp only at h
    split at h
    · cases h
      exact .empty (by assumption)
    · rename_i c hc
      rcases idestart_cases h with ⟨rfl,rfl,rfl⟩ | ⟨hfits,hfree,rfl,rfl,rfl⟩
      · exact .stuck hc
      · exact .next hc hfits hfree

theorem step_act (hp : prog a x = .step f) (h : f d m i = some (m',y,e)) : Act m a x m' y e := by
  cases a with
  | proc p => exact iderw_act hp h
  | handler k => exact ideintr_act hp h
  | disk =>
    cases x with
    | device =>
      cases hp
      obtain ⟨c,hc,heq⟩ := Option.map_eq_some_iff.mp h
      cases heq
      exact .finish hc
    | _ =>
      cases hp
      cases h

end Step

def inside : Point ι B → Bool
  | .append _ | .find _ _ | .head _ | .start _ | .test _ | .sleep _ | .exit _ | .halted _ | .take
  | .read _ | .flags _
  | .wake _ | .next | .leave => true
  | _ => false

def holds (x : Point ι B) (k : Lock Unit) : Prop := k = .spin () ∧ inside x = true

omit [DecidableEq B] [DecidableEq ι] in
theorem holds_same {x y : Point ι B} (h : inside y = inside x) (j : Lock Unit) : holds y j ↔ holds x j := by
  rw [holds, holds, h]

omit [DecidableEq ι] in
theorem act_inside {a : Agent ι} {m m' : Mem ι B V} {x y : Point ι B} {e : List (Mark ι B V)}
    (h : Act m a x m' y e) :
    inside y = inside x := by
  cases h <;> rfl

theorem disciplined (S : Setup ι B V) : Disciplined (client S) holds := by
  refine ⟨fun a k h => ?_,fun a x => ?_⟩
  · cases a <;> cases h.2
  have hacts : ∀ {f}, prog (V := V) a x = .step f → InstrOk holds x (prog (V := V) a x) := by
    intro f hf
    rw [hf]
    intro d m i m' y o h
    exact holds_same (act_inside (step_act hf h))
  cases a with
  | proc p =>
    cases x with
    | acquire | sleep | exit | kill => simp [client, prog, iderw, InstrOk, holds, inside]
    | _ => exact hacts rfl
  | disk => cases x <;> exact hacts rfl
  | handler k =>
    cases x with
    | lock | wake | leave => simp [client, prog, ideintr, InstrOk, holds, inside]
    | _ => exact hacts rfl

def critical : Point ι B → Bool
  | .append _ | .find _ _ | .head _ | .start _ | .halted _ | .take | .read _ | .flags _ | .wake _ | .next =>
    true
  | _ => false

omit [DecidableEq B] [DecidableEq ι] in
theorem critical_holds (x : Point ι B) (h : critical x = true) : holds x (.spin ()) := by
  refine ⟨rfl,?_⟩
  cases x <;> first | rfl | cases h

theorem sleep_not_critical {a : Agent ι} {x y : Point ι B} {c : B} {j : Lock Unit}
    (h : prog (V := V) a x = .sleep c j y) : ¬critical y = true := by
  cases a with
  | proc p =>
    cases x with
    | sleep b =>
      cases h
      exact Bool.false_ne_true
    | _ => cases h
  | disk => cases x <;> cases h
  | handler k => cases x <;> cases h

end Memory

end Xv6.IdeCode

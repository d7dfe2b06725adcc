import Xv6.CodeMachine
import Xv6.LinkedRing
import Xv6.LogMachine

/-!
# The buffer cache of bio.c

The code of `bget`, `bread`, `bwrite` and `brelse` with the sleep locks of the
buffers, and of `log_write` as far as it pins a buffer, run by any number of
processes on the root device. A process may hold any number of buffers. It
stores into one it holds only to give it to `log_write` or `bwrite` next. What
is done under a spinlock between two calls is one step, and so is the transfer
of a block by the disk, at any time after `iderw` has asked for it.
-/

set_option autoImplicit false

namespace Xv6.BufCache
open TransitionSystem SleepMachine CodeMachine LinkedRing
open LogMachine (BlockNo)

abbrev NBUF : ℕ := 30
abbrev ROOTDEV : ℕ := 1

abbrev BufId := Fin NBUF

/-- In `lock` is the process that has the sleep lock. -/
structure Buf (ι V : Type) where
  dev : ℕ
  blockno : BlockNo
  valid : Bool
  dirty : Bool
  lock : Option ι
  refcnt : ℕ
  data : V

/-- The buffers, their list through the head `none`, and the disk. -/
structure Cache (ι V : Type) where
  buf : BufId → Buf ι V
  links : Links (Option BufId)
  disk : BlockNo → V

inductive Panic where
  | bget
  | iderwLocked
  | iderwNothing
  | bwrite
  | brelse
  deriving DecidableEq

/-- Where a process is: in `bget` (`get` to `take`), in `acquiresleep` (`take`
to `taken`), in the rest of `bread` (`valid` to `ret`), in its own code (`run`),
in `log_write` (`log`), in `bwrite` (`put` to `flushing`), in `brelse` (`rel` to
`exit`), with `releasesleep` from `drop` to `dropped`. -/
inductive Spot where
  | run
  | get (b : BlockNo)
  | look (b : BlockNo)
  | found (i : BufId) (b : BlockNo)
  | take (i : BufId) (b : BlockNo)
  | test (i : BufId) (b : BlockNo)
  | wait (i : BufId) (b : BlockNo)
  | taken (i : BufId) (b : BlockNo)
  | valid (i : BufId) (b : BlockNo)
  | fetch (i : BufId) (b : BlockNo)
  | fetching (i : BufId) (b : BlockNo)
  | ret (i : BufId) (b : BlockNo)
  | log (i : BufId)
  | put (i : BufId)
  | flush (i : BufId)
  | flushing (i : BufId)
  | rel (i : BufId)
  | drop (i : BufId)
  | clear (i : BufId)
  | wake (i : BufId)
  | dropped (i : BufId)
  | lock (i : BufId)
  | count (i : BufId)
  | exit
  | panic (msg : Panic)
  deriving DecidableEq

/-- The buffers a process has from `bread` and has not given to `brelse`, and
where it is. -/
structure Point where
  held : List BufId
  spot : Spot
  deriving DecidableEq

/-- What a process does next with the buffers it holds. -/
inductive Input (V : Type) where
  | bread (b : BlockNo)
  | logWrite (i : BufId) (v : V)
  | bwrite (i : BufId) (v : V)
  | brelse (i : BufId)
  | go
  deriving DecidableEq

/-- What `bread` returned, and what was stored before a `log_write` or `bwrite`. -/
inductive Mark (V : Type) where
  | read (b : BlockNo) (v : V)
  | wrote (b : BlockNo) (v : V)
  deriving DecidableEq

inductive LockName where
  | bcache
  | buf (i : BufId)
  deriving DecidableEq

section Steps
variable {ι V : Type} [DecidableEq ι]

def Cache.set (m : Cache ι V) (i : BufId) (f : Buf ι V → Buf ι V) : Cache ι V :=
  { m with buf := Function.update m.buf i (f (m.buf i)) }

/-- The test of the first loop of `bget`. -/
def Cache.has (m : Cache ι V) (b : BlockNo) : Option BufId → Bool
  | some i => (m.buf i).dev = ROOTDEV ∧ (m.buf i).blockno = b
  | none => false

/-- The test of the second loop of `bget`. -/
def Cache.unused (m : Cache ι V) : Option BufId → Bool
  | some i => (m.buf i).refcnt = 0 ∧ (m.buf i).dirty = false
  | none => false

def Cache.cached (m : Cache ι V) (b : BlockNo) : Option (Option BufId) :=
  (chase m.links.next none (m.has b) (NBUF+1) (m.links.next none)).map Option.join

def Cache.victim (m : Cache ι V) : Option (Option BufId) :=
  (chase m.links.prev none m.unused (NBUF+1) (m.links.prev none)).map Option.join

def Cache.ref (m : Cache ι V) (i : BufId) : Cache ι V :=
  m.set i (fun c => { c with refcnt := c.refcnt+1 })

def Cache.recycle (m : Cache ι V) (i : BufId) (b : BlockNo) : Cache ι V :=
  m.set i (fun c => { c with dev := ROOTDEV, blockno := b, valid := false, dirty := false, refcnt := 1 })

def Cache.lockBy (m : Cache ι V) (i : BufId) (p : Option ι) : Cache ι V :=
  m.set i (fun c => { c with lock := p })

def Cache.store (m : Cache ι V) (i : BufId) (v : V) : Cache ι V :=
  m.set i (fun c => { c with data := v })

def Cache.pin (m : Cache ι V) (i : BufId) : Cache ι V :=
  m.set i (fun c => { c with dirty := true })

def Cache.transfer (m : Cache ι V) (i : BufId) : Cache ι V :=
  if (m.buf i).dirty then
    { m.set i (fun c => { c with valid := true, dirty := false }) with
      disk := Function.update m.disk (m.buf i).blockno (m.buf i).data }
  else m.set i (fun c => { c with valid := true, dirty := false, data := m.disk c.blockno })

/-- Function `brelse` under `bcache.lock`. -/
def Cache.unref (m : Cache ι V) (i : BufId) : Cache ι V :=
  let m' := m.set i (fun c => { c with refcnt := c.refcnt-1 })
  if (m'.buf i).refcnt = 0 then
    { m' with links := (m'.links.unlink (some i)).pushFront none (some i) }
  else m'

abbrev Next (ι V : Type) := Option (Cache ι V × Point × List (Mark V))

def bget (m : Cache ι V) (held : List BufId) (b : BlockNo) : Next ι V :=
  match m.cached b with
  | none => none
  | some (some i) => some (m.ref i,⟨held,.found i b⟩,[])
  | some none => match m.victim with
    | none => none
    | some (some i) => some (m.recycle i b,⟨held,.found i b⟩,[])
    | some none => some (m,⟨held,.panic .bget⟩,[])

def Cache.holding (m : Cache ι V) (p : ι) (i : BufId) : Prop := (m.buf i).lock = some p

instance (m : Cache ι V) (p : ι) (i : BufId) : Decidable (m.holding p i) :=
  inferInstanceAs (Decidable ((m.buf i).lock = some p))

def iderw (m : Cache ι V) (p : ι) (held : List BufId) (i : BufId) (busy : Spot) : Next ι V :=
  if ¬ m.holding p i then some (m,⟨held,.panic .iderwLocked⟩,[])
  else if (m.buf i).valid = true ∧ (m.buf i).dirty = false then
    some (m,⟨held,.panic .iderwNothing⟩,[])
  else some (m,⟨held,busy⟩,[])

def useBuf (m : Cache ι V) (held : List BufId) : Input V → Next ι V
  | .bread b => some (m,⟨held,.get b⟩,[])
  | .logWrite i v => if i ∈ held then some (m.store i v,⟨held,.log i⟩,[]) else none
  | .bwrite i v => if i ∈ held then some (m.store i v,⟨held,.put i⟩,[]) else none
  | .brelse i => if i ∈ held then some (m,⟨held.erase i,.rel i⟩,[]) else none
  | .go => none

def prog (p : ι) (x : Point) :
    Instr ι LockName BufId (Cache ι V) Point (Input V) (Mark V) :=
  let go := Point.mk x.held
  match x.spot with
  | .run => .step (fun _ m b => useBuf m x.held b)
  | .get b => .acquire (.spin .bcache) (go (.look b))
  | .look b => .step (fun _ m _ => bget m x.held b)
  | .found i b => .release (.spin .bcache) (go (.take i b))
  | .take i b => .acquire (.spin (.buf i)) (go (.test i b))
  | .test i b => .step (fun _ m _ =>
      if (m.buf i).lock ≠ none then some (m,go (.wait i b),[])
      else some (m.lockBy i (some p),go (.taken i b),[]))
  | .wait i b => .sleep i (.spin (.buf i)) (go (.test i b))
  | .taken i b => .release (.spin (.buf i)) (go (.valid i b))
  | .valid i b => .step (fun _ m _ =>
      if (m.buf i).valid = false then some (m,go (.fetch i b),[]) else some (m,go (.ret i b),[]))
  | .fetch i b => .step (fun _ m _ => iderw m p x.held i (.fetching i b))
  | .fetching i b => .step (fun _ m _ => some (m.transfer i,go (.ret i b),[]))
  | .ret i b => .step (fun _ m _ => some (m,⟨i::x.held,.run⟩,[.read b (m.buf i).data]))
  | .log i => .step (fun _ m _ =>
      some (m.pin i,go .run,[.wrote (m.buf i).blockno (m.buf i).data]))
  | .put i => .step (fun _ m _ =>
      if ¬ m.holding p i then some (m,go (.panic .bwrite),[])
      else some (m.pin i,go (.flush i),[.wrote (m.buf i).blockno (m.buf i).data]))
  | .flush i => .step (fun _ m _ => iderw m p x.held i (.flushing i))
  | .flushing i => .step (fun _ m _ => some (m.transfer i,go .run,[]))
  | .rel i => .step (fun _ m _ =>
      if ¬ m.holding p i then some (m,go (.panic .brelse),[]) else some (m,go (.drop i),[]))
  | .drop i => .acquire (.spin (.buf i)) (go (.clear i))
  | .clear i => .step (fun _ m _ => some (m.lockBy i none,go (.wake i),[]))
  | .wake i => .wakeup i (go (.dropped i))
  | .dropped i => .release (.spin (.buf i)) (go (.lock i))
  | .lock i => .acquire (.spin .bcache) (go (.count i))
  | .count i => .step (fun _ m _ => some (m.unref i,go .exit,[]))
  | .exit => .release (.spin .bcache) (go .run)
  | .panic _ => .step (fun _ _ _ => none)

end Steps

/-- The buffers as `binit` leaves them: their fields are zero, and each is put
in front of the ones before. -/
def binit {ι V : Type} (data : BufId → V) (disk : BlockNo → V) : Cache ι V where
  buf := fun i => ⟨0,0,false,false,none,0,data i⟩
  links := (List.finRange NBUF).foldl (fun r i => r.pushFront none (some i))
    ⟨fun _ => none,fun _ => none⟩
  disk := disk

def client {ι V : Type} [DecidableEq ι] (m : Cache ι V) :
    Client ι LockName BufId (Cache ι V) Point (Input V) (Mark V) where
  shared := m
  start := fun _ => ⟨[],.run⟩
  prog := prog

end Xv6.BufCache

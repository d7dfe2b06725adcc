import Xv6.CodeMachine
import Xv6.LogMachine

/-!
# Operations that share the log

The code of `begin_op`, `log_write`, `end_op` and `commit`, run by any number of
processes, each of which calls `log_write` between its own `begin_op` and
`end_op` only. What is done with `log.lock` held between two calls is one step.
The tests at the top of `log_write` and all of `commit` are made without the
lock, and every read of the header there is a step of its own. Buffers and the
disk are left out; what `write_head` puts on the disk is shown.
-/

set_option autoImplicit false

namespace Xv6.LogOps
open TransitionSystem SleepMachine CodeMachine LogMachine

/-- The fields of `struct log` that the calls use. Function `block` gives the
words from `lh.block` on; those at `LOGSIZE` and above lie behind the array. -/
structure Log where
  size : ℤ
  outstanding : ℤ
  committing : Bool
  n : ℕ
  block : ℕ → BlockNo

def Log.logged (m : Log) : List BlockNo := (List.range m.n).map m.block

/-- The loop of `log_write` stops at the first entry that is `b`, or at `n`. -/
def Log.scan (m : Log) (b : BlockNo) : ℕ := m.logged.findIdx (fun a => decide (a = b))

def Log.record (m : Log) (b : BlockNo) : Log :=
  { m with
    block := Function.update m.block (m.scan b) b
    n := if m.scan b = m.n then m.n+1 else m.n }

inductive Panic where
  | tooBig
  | outside
  | committing
  deriving DecidableEq

/-- The blocks an operation has given to `log_write` go with its points, once
each. In `write_head` the count and the entries copied so far do; `erase` tells
its second call in `commit` from the first. -/
inductive Point where
  | idle
  | beginOp
  | beginTest
  | beginSleep
  | beginExit
  | op (ws : List BlockNo)
  | write (ws : List BlockNo) (b : BlockNo)
  | writeSize (ws : List BlockNo) (b : BlockNo)
  | writeOpen (ws : List BlockNo) (b : BlockNo)
  | writeLock (ws : List BlockNo) (b : BlockNo)
  | record (ws : List BlockNo) (b : BlockNo)
  | writeExit (ws : List BlockNo)
  | endOp
  | endCount
  | endWake
  | endExit (doCommit : Bool)
  | commit
  | writeLog (tail : ℕ)
  | head (erase : Bool)
  | headCopy (erase : Bool) (n : ℕ) (hb : List BlockNo)
  | headWrite (erase : Bool) (n : ℕ) (hb : List BlockNo)
  | install (tail : ℕ)
  | clear
  | done
  | doneClear
  | doneWake
  | doneExit
  | panic (msg : Panic)
  deriving DecidableEq

inductive Input where
  | beginOp
  | logWrite (b : BlockNo)
  | endOp
  | go
  deriving DecidableEq

inductive Mark where
  | began
  | wrote (b : BlockNo)
  | ended
  | head (n : ℕ) (hb : List BlockNo)
  | cleared
  deriving DecidableEq

def prog {ι : Type} : Point → Instr ι Unit Unit Log Point Input Mark
  | .idle => .step (fun _ m b => match b with
      | .beginOp => some (m,.beginOp,[])
      | _ => none)
  | .beginOp => .acquire (.spin ()) .beginTest
  | .beginTest => .step (fun _ m _ =>
      if m.committing = true then some (m,.beginSleep,[])
      else if m.n+(m.outstanding+1)*MAXOPBLOCKS > LOGSIZE then some (m,.beginSleep,[])
      else some ({ m with outstanding := m.outstanding+1 },.beginExit,[.began]))
  | .beginSleep => .sleep () (.spin ()) .beginTest
  | .beginExit => .release (.spin ()) (.op [])
  | .op ws => .step (fun _ m b => match b with
      | .logWrite b => some (m,.write ws b,[])
      | .endOp => some (m,.endOp,[])
      | _ => none)
  | .write ws b => .step (fun _ m _ =>
      if m.n ≥ LOGSIZE then some (m,.panic .tooBig,[]) else some (m,.writeSize ws b,[]))
  | .writeSize ws b => .step (fun _ m _ =>
      if m.n ≥ m.size-1 then some (m,.panic .tooBig,[]) else some (m,.writeOpen ws b,[]))
  | .writeOpen ws b => .step (fun _ m _ =>
      if m.outstanding < 1 then some (m,.panic .outside,[]) else some (m,.writeLock ws b,[]))
  | .writeLock ws b => .acquire (.spin ()) (.record ws b)
  | .record ws b => .step (fun _ m _ => some (m.record b,.writeExit (ws.insert b),[.wrote b]))
  | .writeExit ws => .release (.spin ()) (.op ws)
  | .endOp => .acquire (.spin ()) .endCount
  | .endCount => .step (fun _ m _ =>
      let m' := { m with outstanding := m.outstanding-1 }
      if m.committing = true then some (m',.panic .committing,[.ended])
      else if m'.outstanding = 0 then
        some ({ m' with committing := true },.endExit true,[.ended])
      else some (m',.endWake,[.ended]))
  | .endWake => .wakeup () (.endExit false)
  | .endExit doCommit => .release (.spin ()) (if doCommit then .commit else .idle)
  | .commit => .step (fun _ m _ =>
      if m.n > 0 then some (m,.writeLog 0,[]) else some (m,.done,[]))
  | .writeLog tail => .step (fun _ m _ =>
      if tail < m.n then some (m,.writeLog (tail+1),[]) else some (m,.head false,[]))
  | .head erase => .step (fun _ m _ => some (m,.headCopy erase m.n [],[]))
  | .headCopy erase n hb => .step (fun _ m _ =>
      if hb.length < m.n then some (m,.headCopy erase n (hb++[m.block hb.length]),[])
      else some (m,.headWrite erase n hb,[]))
  | .headWrite erase n hb => .step (fun _ m _ =>
      some (m,if erase then .done else .install 0,[.head n hb]))
  | .install tail => .step (fun _ m _ =>
      if tail < m.n then some (m,.install (tail+1),[]) else some (m,.clear,[]))
  | .clear => .step (fun _ m _ => some ({ m with n := 0 },.head true,[.cleared]))
  | .done => .acquire (.spin ()) .doneClear
  | .doneClear => .step (fun _ m _ => some ({ m with committing := false },.doneWake,[]))
  | .doneWake => .wakeup () .doneExit
  | .doneExit => .release (.spin ()) .idle
  | .panic _ => .step (fun _ _ _ => none)

def initlog (size : ℤ) (block : ℕ → BlockNo) : Log := ⟨size,0,false,0,block⟩

def client {ι : Type} (m : Log) : Client ι Unit Unit Log Point Input Mark where
  shared := m
  start := fun _ => .idle
  prog := fun _ => prog

inductive Act (m : Log) : Point → Log → Point → List Mark → Prop
  | call : Act m .idle m .beginOp []
  | wait (full : m.committing = true ∨ m.n+(m.outstanding+1)*MAXOPBLOCKS > LOGSIZE) :
      Act m .beginTest m .beginSleep []
  | join (free : m.committing = false) (room : m.n+(m.outstanding+1)*MAXOPBLOCKS ≤ LOGSIZE) :
      Act m .beginTest { m with outstanding := m.outstanding+1 } .beginExit [.began]
  | write {ws : List BlockNo} {b : BlockNo} : Act m (.op ws) m (.write ws b) []
  | leave {ws : List BlockNo} : Act m (.op ws) m .endOp []
  | full {ws : List BlockNo} {b : BlockNo} (big : m.n ≥ LOGSIZE) :
      Act m (.write ws b) m (.panic .tooBig) []
  | fits {ws : List BlockNo} {b : BlockNo} (small : m.n < LOGSIZE) :
      Act m (.write ws b) m (.writeSize ws b) []
  | toobig {ws : List BlockNo} {b : BlockNo} (big : m.n ≥ m.size-1) :
      Act m (.writeSize ws b) m (.panic .tooBig) []
  | sized {ws : List BlockNo} {b : BlockNo} (small : m.n < m.size-1) :
      Act m (.writeSize ws b) m (.writeOpen ws b) []
  | outside {ws : List BlockNo} {b : BlockNo} (none : m.outstanding < 1) :
      Act m (.writeOpen ws b) m (.panic .outside) []
  | inside {ws : List BlockNo} {b : BlockNo} (some : 1 ≤ m.outstanding) :
      Act m (.writeOpen ws b) m (.writeLock ws b) []
  | record {ws : List BlockNo} {b : BlockNo} :
      Act m (.record ws b) (m.record b) (.writeExit (ws.insert b)) [.wrote b]
  | stuck (busy : m.committing = true) :
      Act m .endCount { m with outstanding := m.outstanding-1 } (.panic .committing) [.ended]
  | last (free : m.committing = false) (one : m.outstanding = 1) :
      Act m .endCount { m with outstanding := m.outstanding-1, committing := true }
        (.endExit true) [.ended]
  | ended (free : m.committing = false) (more : m.outstanding ≠ 1) :
      Act m .endCount { m with outstanding := m.outstanding-1 } .endWake [.ended]
  | commit (some : m.n ≠ 0) : Act m .commit m (.writeLog 0) []
  | nothing (none : m.n = 0) : Act m .commit m .done []
  | writeLog {tail : ℕ} : Act m (.writeLog tail) m (.writeLog (tail+1)) []
  | written {tail : ℕ} : Act m (.writeLog tail) m (.head false) []
  | head {erase : Bool} : Act m (.head erase) m (.headCopy erase m.n []) []
  | copy {erase : Bool} {n : ℕ} {hb : List BlockNo} (more : hb.length < m.n) :
      Act m (.headCopy erase n hb) m (.headCopy erase n (hb++[m.block hb.length])) []
  | copied {erase : Bool} {n : ℕ} {hb : List BlockNo} (all : m.n ≤ hb.length) :
      Act m (.headCopy erase n hb) m (.headWrite erase n hb) []
  | committed {n : ℕ} {hb : List BlockNo} :
      Act m (.headWrite false n hb) m (.install 0) [.head n hb]
  | erased {n : ℕ} {hb : List BlockNo} : Act m (.headWrite true n hb) m .done [.head n hb]
  | install {tail : ℕ} : Act m (.install tail) m (.install (tail+1)) []
  | installed {tail : ℕ} : Act m (.install tail) m .clear []
  | clear : Act m .clear { m with n := 0 } (.head true) [.cleared]
  | finish : Act m .doneClear { m with committing := false } .doneWake []

variable {ι : Type} {m m' : Log} {x y : Point} {e : List Mark}

theorem step_act {f : Bool → Log → Input → Option (Log × Point × List Mark)} {d : Bool} {b : Input}
    (hp : prog (ι := ι) x = .step f) (h : f d m b = some (m',y,e)) : Act m x m' y e := by
  cases x with
  | beginOp | beginSleep | beginExit | writeLock | writeExit | endOp | endWake | endExit | done
  | doneWake | doneExit => cases hp
  | idle =>
    cases hp
    cases b <;> cases h
    exact .call
  | beginTest =>
    cases hp
    simp only at h
    split at h
    · rename_i hc
      cases h
      exact .wait (.inl hc)
    · rename_i hc
      split at h
      · rename_i hf
        cases h
        exact .wait (.inr hf)
      · rename_i hf
        cases h
        exact .join (by simpa using hc) (not_lt.mp hf)
  | op ws =>
    cases hp
    cases b <;> cases h
    · exact .write
    · exact .leave
  | write ws b =>
    cases hp
    simp only at h
    split at h <;> rename_i hn <;> cases h
    · exact .full hn
    · exact .fits (not_le.mp hn)
  | writeSize ws b =>
    cases hp
    simp only at h
    split at h <;> rename_i hn <;> cases h
    · exact .toobig hn
    · exact .sized (not_le.mp hn)
  | writeOpen ws b =>
    cases hp
    simp only at h
    split at h <;> rename_i hn <;> cases h
    · exact .outside hn
    · exact .inside (not_lt.mp hn)
  | record ws b =>
    cases hp
    cases h
    exact .record
  | endCount =>
    cases hp
    simp only at h
    split at h
    · rename_i hc
      cases h
      exact .stuck hc
    · rename_i hc
      have hfree : m.committing = false := by simpa using hc
      split at h <;> rename_i ho <;> cases h
      · exact .last hfree (by omega)
      · exact .ended hfree (by omega)
  | commit =>
    cases hp
    simp only at h
    split at h <;> rename_i hn <;> cases h
    · exact .commit (by omega)
    · exact .nothing (by omega)
  | writeLog tail =>
    cases hp
    simp only at h
    split at h <;> cases h
    · exact .writeLog
    · exact .written
  | head erase =>
    cases hp
    cases h
    exact .head
  | headCopy erase n hb =>
    cases hp
    simp only at h
    split at h <;> rename_i hn <;> cases h
    · exact .copy hn
    · exact .copied (not_lt.mp hn)
  | headWrite erase n hb =>
    cases hp
    cases h
    cases erase
    · exact .committed
    · exact .erased
  | install tail =>
    cases hp
    simp only at h
    split at h <;> cases h
    · exact .install
    · exact .installed
  | clear =>
    cases hp
    cases h
    exact .clear
  | doneClear =>
    cases hp
    cases h
    exact .finish
  | panic msg =>
    cases hp
    cases h

def enterOp {k : ℕ} (p : Fin k) : List (Label (Fin k) Input) :=
  .thread p .beginOp :: List.replicate 3 (.thread p .go)

def callWrite {k : ℕ} (p : Fin k) (b : BlockNo) : List (Label (Fin k) Input) :=
  .thread p (.logWrite b) :: List.replicate 3 (.thread p .go)

def storeBlock {k : ℕ} (p : Fin k) : List (Label (Fin k) Input) :=
  List.replicate 3 (.thread p .go)

end Xv6.LogOps

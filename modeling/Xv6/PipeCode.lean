import Xv6.CodeMachine
import Xv6.CounterRing

/-!
# Pipes

The code of `pipewrite`, `piperead` and `pipeclose`, run by any number of processes on
one pipe, and `kill`. A round of a loop with `p->lock` held is one step; the test of the
loop that waits in `piperead` goes with the round behind it.

Which ends still have a descriptor and who is in a call are ghosts. They stand for what
the file table guarantees: a call is made on an open descriptor, which its process keeps
until the call returns, and `pipeclose` follows the last one of an end.
-/

set_option autoImplicit false

namespace Xv6.PipeCode
open TransitionSystem SleepMachine CodeMachine CounterRing
open Function

abbrev PIPESIZE : ℕ := 512
abbrev Byte := BitVec 8

structure Pipe (ι : Type) where
  data : Fin PIPESIZE → Byte
  nread : Counter
  nwrite : Counter
  readopen : Bool
  writeopen : Bool
  readEnd : Bool
  writeEnd : Bool
  reading : ι → Bool
  writing : ι → Bool

def slot (i : Counter) : Fin PIPESIZE := cell (by decide) i

variable {ι : Type}

def Pipe.store (m : Pipe ι) (b : Byte) : Pipe ι :=
  { m with data := update m.data (slot m.nwrite) b, nwrite := m.nwrite+1 }

def Pipe.take (m : Pipe ι) : Pipe ι := { m with nread := m.nread+1 }

def Pipe.unread (m : Pipe ι) : List Byte := held (by decide) m.data m.nread (m.nwrite-m.nread).toNat

inductive Chan where
  | nread
  | nwrite
  deriving DecidableEq

/-- In `pipewrite` the bytes that are left go with the points, and whether some were
stored since readers were last woken; in `piperead` the bytes copied so far do. The
result of `piperead` is the bytes, or none for -1. -/
inductive Point (ι : Type) where
  | idle
  | wLock (bs : List Byte)
  | wTest (dirty : Bool) (n : ℕ) (rest : List Byte)
  | wFullWake (n : ℕ) (rest : List Byte)
  | wSleep (n : ℕ) (rest : List Byte)
  | wWake (n : ℕ)
  | wExit (v : ℤ)
  | wDone (v : ℤ)
  | rLock (n : ℤ)
  | rTest (n : ℤ)
  | rSleep (n : ℤ)
  | rCopy (n : ℤ) (got : List Byte)
  | rWake (n : ℤ) (got : List Byte)
  | rExit (n : ℤ) (got : Option (List Byte))
  | rDone (n : ℤ) (got : Option (List Byte))
  | cLock (writable : Bool)
  | cSet (writable : Bool)
  | cWake (writable : Bool)
  | cTest
  | cExit (free : Bool)
  | cFree
  | kill (q : ι)
  deriving DecidableEq

inductive Input (ι : Type) where
  | write (bs : List Byte)
  | read (n : ℤ)
  | close (writable : Bool)
  | kill (q : ι)
  | go
  deriving DecidableEq

inductive Mark where
  | write (bs : List Byte)
  | stored (b : Byte)
  | wrote (v : ℤ)
  | copied (b : Byte)
  | got (n : ℤ) (bs : Option (List Byte))
  | freed
  deriving DecidableEq

/-- A round of the loop of `piperead` that copies. -/
def copyRound (m : Pipe ι) (n : ℤ) (got : List Byte) : Pipe ι × Point ι × List Mark :=
  let b := m.data (slot m.nread)
  if got.length < n ∧ m.nread ≠ m.nwrite then (m.take,.rCopy n (got++[b]),[.copied b])
  else (m,.rWake n got,[])


variable [DecidableEq ι]

/-- Entering a call, by what the file table lets through. -/
def enter [Fintype ι] (p : ι) (m : Pipe ι) : Input ι → Option (Pipe ι × Point ι × List Mark)
  | .write bs =>
    if m.writeEnd then some ({ m with writing := update m.writing p true },.wLock bs,[.write bs])
    else none
  | .read n =>
    if m.readEnd then some ({ m with reading := update m.reading p true },.rLock n,[]) else none
  | .close true =>
    if m.writeEnd ∧ ∀ q, m.writing q = false then some ({ m with writeEnd := false },.cLock true,[])
    else none
  | .close false =>
    if m.readEnd ∧ ∀ q, m.reading q = false then some ({ m with readEnd := false },.cLock false,[])
    else none
  | .kill q => some (m,.kill q,[])
  | .go => none

def prog [Fintype ι] (p : ι) : Point ι → Instr ι Unit Chan (Pipe ι) (Point ι) (Input ι) Mark
  | .idle => .step (fun _ m b => enter p m b)
  | .wLock bs => .acquire (.spin ()) (.wTest false bs.length bs)
  | .wTest _ n [] => .step (fun _ m _ => some (m,.wWake n,[]))
  | .wTest _ n (b::rest) => .step (fun killed m _ =>
      if m.nwrite = m.nread+512 then
        if m.readopen = false ∨ killed = true then some (m,.wExit (-1),[])
        else some (m,.wFullWake n (b::rest),[])
      else some (m.store b,.wTest true n rest,[.stored b]))
  | .wFullWake n rest => .wakeup .nread (.wSleep n rest)
  | .wSleep n rest => .sleep .nwrite (.spin ()) (.wTest false n rest)
  | .wWake n => .wakeup .nread (.wExit n)
  | .wExit v => .release (.spin ()) (.wDone v)
  | .wDone v => .step (fun _ m _ =>
      some ({ m with writing := update m.writing p false },.idle,[.wrote v]))
  | .rLock n => .acquire (.spin ()) (.rTest n)
  | .rTest n => .step (fun killed m _ =>
      if m.nread = m.nwrite ∧ m.writeopen = true then
        if killed = true then some (m,.rExit n none,[]) else some (m,.rSleep n,[])
      else some (copyRound m n []))
  | .rSleep n => .sleep .nread (.spin ()) (.rTest n)
  | .rCopy n got => .step (fun _ m _ => some (copyRound m n got))
  | .rWake n got => .wakeup .nwrite (.rExit n (some got))
  | .rExit n got => .release (.spin ()) (.rDone n got)
  | .rDone n got => .step (fun _ m _ =>
      some ({ m with reading := update m.reading p false },.idle,[.got n got]))
  | .cLock w => .acquire (.spin ()) (.cSet w)
  | .cSet w => .step (fun _ m _ =>
      some (if w then { m with writeopen := false } else { m with readopen := false },.cWake w,[]))
  | .cWake w => .wakeup (if w then .nread else .nwrite) .cTest
  | .cTest => .step (fun _ m _ =>
      some (m,.cExit (decide (m.readopen = false ∧ m.writeopen = false)),[]))
  | .cExit free => .release (.spin ()) (if free then .cFree else .idle)
  | .cFree => .step (fun _ m _ => some (m,.idle,[.freed]))
  | .kill q => .kill q .idle

/-- A pipe as `pipealloc` leaves it, in a page with any contents. -/
def pipealloc (data : Fin PIPESIZE → Byte) : Pipe ι where
  data := data
  nread := 0
  nwrite := 0
  readopen := true
  writeopen := true
  readEnd := true
  writeEnd := true
  reading := fun _ => false
  writing := fun _ => false

def client [Fintype ι] (data : Fin PIPESIZE → Byte) :
    Client ι Unit Chan (Pipe ι) (Point ι) (Input ι) Mark where
  shared := pipealloc data
  start := fun _ => .idle
  prog := prog

inductive Act (p : ι) (d : Bool) (m : Pipe ι) : Point ι → Pipe ι → Point ι → List Mark → Prop
  | write {bs : List Byte} (fd : m.writeEnd = true) :
      Act p d m .idle { m with writing := update m.writing p true } (.wLock bs) [.write bs]
  | read {n : ℤ} (fd : m.readEnd = true) :
      Act p d m .idle { m with reading := update m.reading p true } (.rLock n) []
  | closeWrite (fd : m.writeEnd = true) (last : ∀ q, m.writing q = false) :
      Act p d m .idle { m with writeEnd := false } (.cLock true) []
  | closeRead (fd : m.readEnd = true) (last : ∀ q, m.reading q = false) :
      Act p d m .idle { m with readEnd := false } (.cLock false) []
  | kill {q : ι} : Act p d m .idle m (.kill q) []
  | written {w : Bool} {n : ℕ} : Act p d m (.wTest w n []) m (.wWake n) []
  | broken {w : Bool} {n : ℕ} {b : Byte} {rest : List Byte} (full : m.nwrite = m.nread+512)
      (gone : m.readopen = false ∨ d = true) : Act p d m (.wTest w n (b::rest)) m (.wExit (-1)) []
  | full {w : Bool} {n : ℕ} {b : Byte} {rest : List Byte} (full : m.nwrite = m.nread+512)
      (reader : m.readopen = true) : Act p d m (.wTest w n (b::rest)) m (.wFullWake n (b::rest)) []
  | store {w : Bool} {n : ℕ} {b : Byte} {rest : List Byte} (room : m.nwrite ≠ m.nread+512) :
      Act p d m (.wTest w n (b::rest)) (m.store b) (.wTest true n rest) [.stored b]
  | wrote {v : ℤ} : Act p d m (.wDone v) { m with writing := update m.writing p false } .idle [.wrote v]
  | interrupted {n : ℤ} (dead : d = true) : Act p d m (.rTest n) m (.rExit n none) []
  | empty {n : ℤ} (empty : m.nread = m.nwrite) (writer : m.writeopen = true) :
      Act p d m (.rTest n) m (.rSleep n) []
  | none {n : ℤ} (none : n ≤ 0 ∨ m.nread = m.nwrite ∧ m.writeopen = false) :
      Act p d m (.rTest n) m (.rWake n []) []
  | first {n : ℤ} (some : m.nread ≠ m.nwrite) :
      Act p d m (.rTest n) m.take (.rCopy n [m.data (slot m.nread)]) [.copied (m.data (slot m.nread))]
  | copy {n : ℤ} {got : List Byte} (some : m.nread ≠ m.nwrite) :
      Act p d m (.rCopy n got) m.take (.rCopy n (got++[m.data (slot m.nread)]))
        [.copied (m.data (slot m.nread))]
  | copied {n : ℤ} {got : List Byte} : Act p d m (.rCopy n got) m (.rWake n got) []
  | got {n : ℤ} {got : Option (List Byte)} :
      Act p d m (.rDone n got) { m with reading := update m.reading p false } .idle [.got n got]
  | setWrite : Act p d m (.cSet true) { m with writeopen := false } (.cWake true) []
  | setRead : Act p d m (.cSet false) { m with readopen := false } (.cWake false) []
  | test {free : Bool} : Act p d m .cTest m (.cExit free) []
  | free : Act p d m .cFree m .idle [.freed]

section Step
variable {p : ι} {d : Bool} {m m' : Pipe ι} {x y : Point ι} {e : List Mark} {b : Input ι}

theorem enter_act [Fintype ι] (h : enter p m b = some (m',y,e)) : Act p d m .idle m' y e := by
  cases b with
  | write bs =>
    simp only [enter] at h
    split at h <;> cases h
    exact .write (by assumption)
  | read n =>
    simp only [enter] at h
    split at h <;> cases h
    exact .read (by assumption)
  | close w =>
    cases w <;> simp only [enter] at h <;> split at h <;> rename_i hfd <;> cases h
    · exact .closeRead hfd.1 hfd.2
    · exact .closeWrite hfd.1 hfd.2
  | kill q =>
    cases h
    exact .kill
  | go => cases h

theorem copy_act {n : ℤ} {got : List Byte} (h : copyRound m n got = (m',y,e)) :
    Act p d m (.rCopy n got) m' y e := by
  unfold copyRound at h
  dsimp only at h
  split at h <;> rename_i hround <;> cases h
  · exact .copy hround.2
  · exact .copied

theorem step_act [Fintype ι] {f : Bool → Pipe ι → Input ι → Option (Pipe ι × Point ι × List Mark)}
    (hp : prog p x = .step f) (h : f d m b = some (m',y,e)) : Act p d m x m' y e := by
  cases x with
  | wLock | wFullWake | wSleep | wWake | wExit | rLock | rSleep | rWake | rExit | cLock | cWake
  | cExit | kill => cases hp
  | idle =>
    cases hp
    exact enter_act h
  | wTest w n rest =>
    cases rest with
    | nil =>
      cases hp
      cases h
      exact .written
    | cons c rest =>
      cases hp
      simp only at h
      split at h
      · rename_i hfull
        split at h <;> rename_i hgone <;> cases h
        · exact .broken hfull hgone
        · exact .full hfull (by simpa using (not_or.mp hgone).1)
      · rename_i hroom
        cases h
        exact .store hroom
  | wDone v =>
    cases hp
    cases h
    exact .wrote
  | rTest n =>
    cases hp
    simp only at h
    split at h
    · rename_i hempty
      split at h <;> rename_i hdead <;> cases h
      · exact .interrupted hdead
      · exact .empty hempty.1 hempty.2
    · rename_i hready
      unfold copyRound at h
      dsimp only at h
      split at h <;> rename_i hround <;> cases h
      · exact .first hround.2
      · refine .none ?_
        by_cases hn : n ≤ 0
        · exact .inl hn
        · have hsame : m.nread = m.nwrite :=
            not_not.mp fun hne => hround ⟨by simpa using hn,hne⟩
          exact .inr ⟨hsame,by simpa [hsame] using hready⟩
  | rCopy n got =>
    cases hp
    exact copy_act (Option.some.inj h)
  | rDone n got =>
    cases hp
    cases h
    exact .got
  | cSet w =>
    cases hp
    cases h
    cases w
    · exact .setRead
    · exact .setWrite
  | cTest =>
    cases hp
    cases h
    exact .test
  | cFree =>
    cases hp
    cases h
    exact .free

end Step

def writer : Point ι → Bool
  | .wLock _ | .wTest _ _ _ | .wFullWake _ _ | .wSleep _ _ | .wWake _ | .wExit _ | .wDone _ => true
  | _ => false

def reader : Point ι → Bool
  | .rLock _ | .rTest _ | .rSleep _ | .rCopy _ _ | .rWake _ _ | .rExit _ _ | .rDone _ _ => true
  | _ => false

def closes (w : Bool) : Point ι → Prop
  | .cLock v | .cSet v => v = w
  | _ => False

structure Members (m : Pipe ι) (x : ι → Point ι) : Prop where
  writing : m.writing = fun p => writer (x p)
  reading : m.reading = fun p => reader (x p)
  writers : m.writeEnd = false → ∀ p, m.writing p = false
  readers : m.readEnd = false → ∀ p, m.reading p = false
  writeopen : m.writeopen = false → m.writeEnd = false
  readopen : m.readopen = false → m.readEnd = false
  closeWrite : ∀ p, closes true (x p) → m.writeEnd = false
  closeRead : ∀ p, closes false (x p) → m.readEnd = false

variable {x : ι → Point ι} {y : Point ι} {p : ι}

theorem call_same [Fintype ι] {x y : Point ι} (h : (prog p x).next = some y) :
    writer y = writer x ∧ reader y = reader x ∧ ∀ w, closes w y → closes w x := by
  cases x with
  | wTest w n rest => cases rest <;> cases h
  | cExit free => cases free <;> cases h <;> exact ⟨rfl,rfl,fun _ h => h⟩
  | _ => cases h <;> exact ⟨rfl,rfl,fun _ h => h⟩

theorem update_same {β : Type} {f : ι → β} {b : β} (h : f p = b) : f = update f p b := by
  rw [← h, update_eq_self]

section Acts
variable {p : ι} {d : Bool} {m m' : Pipe ι} {x y : Point ι} {e : List Mark}

theorem act_writing (act : Act p d m x m' y e) (h : m.writing p = writer x) :
    m'.writing = update m.writing p (writer y) := by
  cases act with
  | write | wrote => rfl
  | _ => exact update_same h

theorem act_reading (act : Act p d m x m' y e) (h : m.reading p = reader x) :
    m'.reading = update m.reading p (reader y) := by
  cases act with
  | read | got => rfl
  | _ => exact update_same h

theorem act_enters (act : Act p d m x m' y e) :
    (writer y = true → writer x = true ∨ m'.writeEnd = true) ∧
    (reader y = true → reader x = true ∨ m'.readEnd = true) := by
  cases act with
  | write fd => exact ⟨fun _ => .inr fd,fun h => .inl h⟩
  | read fd => exact ⟨fun h => .inl h,fun _ => .inr fd⟩
  | wrote | got => exact ⟨nofun,nofun⟩
  | _ => exact ⟨fun h => .inl h,fun h => .inl h⟩

theorem act_ends (act : Act p d m x m' y e) :
    (m'.writeEnd = m.writeEnd ∧ ¬closes true y ∨ m'.writeEnd = false ∧ ∀ q, m'.writing q = false) ∧
    (m'.readEnd = m.readEnd ∧ ¬closes false y ∨ m'.readEnd = false ∧ ∀ q, m'.reading q = false) ∧
    (m'.writeopen = m.writeopen ∨ closes true x ∧ m'.writeEnd = m.writeEnd) ∧
    (m'.readopen = m.readopen ∨ closes false x ∧ m'.readEnd = m.readEnd) := by
  cases act with
  | closeWrite fd last => exact ⟨.inr ⟨rfl,last⟩,.inl ⟨rfl,nofun⟩,.inl rfl,.inl rfl⟩
  | closeRead fd last => exact ⟨.inl ⟨rfl,nofun⟩,.inr ⟨rfl,last⟩,.inl rfl,.inl rfl⟩
  | setWrite => exact ⟨.inl ⟨rfl,id⟩,.inl ⟨rfl,id⟩,.inr ⟨rfl,rfl⟩,.inl rfl⟩
  | setRead => exact ⟨.inl ⟨rfl,id⟩,.inl ⟨rfl,id⟩,.inl rfl,.inr ⟨rfl,rfl⟩⟩
  | _ => exact ⟨.inl ⟨rfl,id⟩,.inl ⟨rfl,id⟩,.inl rfl,.inl rfl⟩

end Acts

theorem closes_update {p q : ι} {w : Bool}
    (h : closes w (update x p y q)) : closes w (x q) ∨ closes w y := by
  by_cases hq : q = p
  · subst hq
    rw [update_self] at h
    exact .inr h
  · rw [update_of_ne hq] at h
    exact .inl h

theorem none_enters {f : ι → Bool} {k : Point ι → Bool}
    {fd : Bool} (hf : f = fun q => k (x q)) (hnone : ∀ q, f q = false) (hclosed : fd = false)
    (henter : k y = true → k (x p) = true ∨ fd = true) (q : ι) : update f p (k y) q = false := by
  by_cases hq : q = p
  · subst hq
    rw [update_self, Bool.eq_false_iff]
    intro hy
    have hx : k (x q) = false := (congrFun hf q).symm.trans (hnone q)
    rcases henter hy with hin | hopen
    · rw [hx] at hin
      cases hin
    · rw [hclosed] at hopen
      cases hopen
  · rw [update_of_ne hq]
    exact hnone q

theorem members_call [Fintype ι] {m : Pipe ι} (h : Members m x)
    (hy : (prog p (x p)).next = some y) : Members m (update x p y) := by
  obtain ⟨hw,hr,hc⟩ := call_same hy
  refine { h with
    writing := ?_
    reading := ?_
    closeWrite := fun q hq => ?_
    closeRead := fun q hq => ?_ }
  · rw [h.writing]
    exact (update_same (f := writer ∘ x) hw.symm).trans (Function.comp_update writer x p y).symm
  · rw [h.reading]
    exact (update_same (f := reader ∘ x) hr.symm).trans (Function.comp_update reader x p y).symm
  · rcases closes_update hq with hq | hq
    · exact h.closeWrite q hq
    · exact h.closeWrite p (hc true hq)
  · rcases closes_update hq with hq | hq
    · exact h.closeRead q hq
    · exact h.closeRead p (hc false hq)

theorem members_act {m m' : Pipe ι} {d : Bool} {e : List Mark}
    (h : Members m x) (act : Act p d m (x p) m' y e) : Members m' (update x p y) := by
  obtain ⟨hwe,hre,hwo,hro⟩ := act_ends act
  have hw := act_writing act (by rw [h.writing])
  have hr := act_reading act (by rw [h.reading])
  have hclose : m.writeEnd = false → m'.writeEnd = false := by
    rcases hwe with hsame | hnew
    · exact fun hm => hsame.1.trans hm
    · exact fun _ => hnew.1
  have hcloser : m.readEnd = false → m'.readEnd = false := by
    rcases hre with hsame | hnew
    · exact fun hm => hsame.1.trans hm
    · exact fun _ => hnew.1
  refine ⟨?_,?_,fun hend => ?_,fun hend => ?_,fun ho => ?_,fun ho => ?_,fun q hq => ?_,fun q hq => ?_⟩
  · rw [hw, h.writing]
    exact (Function.comp_update writer x p y).symm
  · rw [hr, h.reading]
    exact (Function.comp_update reader x p y).symm
  · rcases hwe with hsame | hnew
    · rw [hw]
      exact none_enters h.writing (h.writers (hsame.1 ▸ hend)) hend (act_enters act).1
    · exact hnew.2
  · rcases hre with hsame | hnew
    · rw [hr]
      exact none_enters h.reading (h.readers (hsame.1 ▸ hend)) hend (act_enters act).2
    · exact hnew.2
  · rcases hwo with hsame | ⟨hx,hsame⟩
    · exact hclose (h.writeopen (hsame ▸ ho))
    · rw [hsame]
      exact h.closeWrite p hx
  · rcases hro with hsame | ⟨hx,hsame⟩
    · exact hcloser (h.readopen (hsame ▸ ho))
    · rw [hsame]
      exact h.closeRead p hx
  · rcases closes_update hq with hq | hq
    · exact hclose (h.closeWrite q hq)
    · rcases hwe with hsame | hnew
      · exact absurd hq hsame.2
      · exact hnew.1
  · rcases closes_update hq with hq | hq
    · exact hcloser (h.closeRead q hq)
    · rcases hre with hsame | hnew
      · exact absurd hq hsame.2
      · exact hnew.1

theorem members_run [Fintype ι] {data : Fin PIPESIZE → Byte} {g : ι → Point ι → Pipe ι → Input ι → Prop}
    {tr : List (ι × Mark)} {t : Code ι (Pipe ι) (Point ι)}
    (h : Run (code (client data)) (Allows g) tr t) : Members t.shared t.spot := by
  refine code_invariant (fun _ m x => Members m x) ?_ ?_ ?_ h
  · exact ⟨rfl,rfl,nofun,nofun,nofun,nofun,fun _ h => h.elim,fun _ h => h.elim⟩
  · exact fun _ m x p y hm hy => members_call hm hy
  · exact fun _ m x p d b f m' y e _ hm _ hp hf => members_act hm (step_act hp hf)

end Xv6.PipeCode

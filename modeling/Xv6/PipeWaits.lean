import Xv6.PipeCode
import Xv6.WaitRule

/-!
# Who sleeps on a pipe

A reader sleeps while the pipe is empty and can be written, a writer while it is full and
can be read. Every way out of the loops wakes the other side but one: a writer that has
been killed and finds the pipe full leaves without waking the readers of what it stored.
-/

set_option autoImplicit false

namespace Xv6.PipeWaits
open ProcTable (ProcState)
open TransitionSystem SleepMachine SleepLocks CodeMachine
open WaitRule PipeCode

variable {ι : Type}

def holds : Point ι → Lock Unit → Prop
  | .wTest _ _ _, j | .wFullWake _ _, j | .wSleep _ _, j | .wWake _, j | .wExit _, j
  | .rTest _, j | .rSleep _, j | .rCopy _ _, j | .rWake _ _, j | .rExit _ _, j
  | .cSet _, j | .cWake _, j | .cTest, j | .cExit _, j => j = .spin ()
  | _, _ => False

variable [DecidableEq ι]

theorem act_holds {p : ι} {d : Bool} {m m' : Pipe ι} {x y : Point ι} {e : List Mark}
    (act : Act p d m x m' y e) (j : Lock Unit) : holds y j ↔ holds x j := by
  cases act <;> exact Iff.rfl

theorem disciplined [Fintype ι] (data : Fin PIPESIZE → Byte) : Disciplined (client (ι := ι) data) holds := by
  refine ⟨fun p k hk => hk,fun p x => ?_⟩
  have hacts : ∀ {f}, prog p x = .step f → InstrOk holds x (prog p x) := by
    intro f hf
    rw [hf]
    intro d m b m' y o h
    exact act_holds (step_act hf h)
  cases x with
  | wLock | wFullWake | wSleep | wWake | wExit | rLock | rSleep | rWake | rExit | cLock | kill =>
    simp [client, prog, InstrOk, holds]
  | cWake w => cases w <;> simp [client, prog, InstrOk, holds]
  | cExit free => cases free <;> simp [client, prog, InstrOk, holds]
  | wTest w n rest => cases rest <;> exact hacts rfl
  | _ => exact hacts rfl

/-- A process must wait: for readers of the pipe also while none can come. -/
def MustWait (m : Pipe ι) : Chan → Prop
  | .nread => m.nread = m.nwrite ∧ m.writeopen = true ∨ m.readopen = false
  | .nwrite => m.nwrite = m.nread+512 ∧ m.readopen = true

def Asks : Chan → Point ι → Prop
  | .nread, .rSleep _ => True
  | .nwrite, .wFullWake _ _ | .nwrite, .wSleep _ _ => True
  | _, _ => False

def Owes : Chan → Point ι → Prop
  | .nread, .wTest dirty _ _ => dirty = true
  | .nread, .wFullWake _ _ | .nread, .wWake _ | .nread, .cWake true => True
  | .nwrite, .rCopy _ _ | .nwrite, .rWake _ _ | .nwrite, .cWake false => True
  | _, _ => False

theorem sleep_chan [Fintype ι] {p : ι} {x y : Point ι} {c : Chan} {k : Lock Unit}
    (h : prog p x = .sleep c k y) :
    k = .spin () ∧ (c = .nread ∧ (∃ n, x = .rSleep n ∧ y = .rTest n) ∨
      c = .nwrite ∧ ∃ n rest, x = .wSleep n rest ∧ y = .wTest false n rest) := by
  cases x with
  | wTest w n rest => cases rest <;> cases h
  | cExit free => cases free <;> cases h
  | rSleep n =>
    cases h
    exact ⟨rfl,.inl ⟨rfl,n,rfl,rfl⟩⟩
  | wSleep n rest =>
    cases h
    exact ⟨rfl,.inr ⟨rfl,n,rest,rfl,rfl⟩⟩
  | _ => cases h

theorem pays [Fintype ι] (data : Fin PIPESIZE → Byte) (c : Chan) :
    Pays (client (ι := ι) data) holds (.spin ()) c (Asks c) (Owes c) where
  lock h := (sleep_chan h).1
  asks h := by
    obtain ⟨-,⟨rfl,n,rfl,-⟩ | ⟨rfl,n,rest,rfl,-⟩⟩ := sleep_chan h <;> trivial
  held {x} h := by cases c <;> cases x <;> first | exact h.elim | rfl
  ask {p x y} hn hy := by
    cases x with
    | wTest w n rest => cases rest <;> cases hn
    | cExit free => cases free <;> cases hn <;> cases c <;> exact hy.elim
    | _ => cases hn <;> cases c <;> first | exact hy.elim | exact hy
  back {p x d j y} h hy := by
    obtain ⟨-,⟨rfl,n,rfl,rfl⟩ | ⟨rfl,n,rest,rfl,rfl⟩⟩ := sleep_chan h <;> cases c <;> exact hy
  quiet {p x y} h := by
    cases c <;> cases x <;> first | exact h.elim | exact ⟨nofun,nofun⟩
  hold {x} hx := by cases c <;> cases x <;> first | exact hx.elim | rfl
  sleep {p x d j y} h hx := by
    obtain ⟨-,⟨rfl,n,rfl,rfl⟩ | ⟨rfl,n,rest,rfl,rfl⟩⟩ := sleep_chan h <;> cases c <;> exact hx
  call {p x y} hn hx := by
    cases x with
    | wTest w n rest => cases rest <;> cases hn
    | wFullWake | wWake =>
      cases hn
      cases c
      · exact .inr (.inl rfl)
      · exact hx.elim
    | rWake =>
      cases hn
      cases c
      · exact hx.elim
      · exact .inr (.inl rfl)
    | cWake w =>
      cases hn
      cases c <;> cases w <;> first | exact hx.elim | exact .inr (.inl rfl)
    | rCopy => cases hn
    | _ => cases c <;> exact hx.elim

/-- A writer that has more to store, and has stored bytes since it last woke readers. -/
def unpaid : Point ι → Bool
  | .wTest dirty _ (_::_) => dirty
  | _ => false

/-- A killed writer of this kind does not find the pipe full while it can be read. -/
def Spared (s : State ι Unit Chan (Pipe ι) (Point ι)) : Label ι (Input ι) → Prop
  | .thread p _ => AtCode (fun x => unpaid x = true →
      ¬(s.killed p = true ∧ s.shared.nwrite = s.shared.nread+512 ∧ s.shared.readopen = true)) (s.place p)
  | _ => True

instance (s : State ι Unit Chan (Pipe ι) (Point ι)) : DecidablePred (Spared s)
  | .thread p _ => inferInstanceAs (Decidable (AtCode _ (s.place p)))
  | .take | .give _ | .idle => inferInstanceAs (Decidable True)

section Acts
variable {p : ι} {d : Bool} {m m' : Pipe ι} {x y : Point ι} {e : List Mark} {c : Chan}

theorem act_asks (act : Act p d m x m' y e) (hy : Asks c y) : MustWait m' c := by
  cases act with
  | full full reader =>
    cases c
    · exact hy.elim
    · exact ⟨full,reader⟩
  | empty empty writer =>
    cases c
    · exact .inl ⟨empty,writer⟩
    · exact hy.elim
  | _ => cases c <;> exact hy.elim

theorem act_pays_readers (act : Act p d m x m' y e)
    (hspared : ∀ n b rest, x = .wTest true n (b::rest) →
      ¬(d = true ∧ m.nwrite = m.nread+512 ∧ m.readopen = true))
    (h : MustWait m .nread ∨ Owes .nread x) : MustWait m' .nread ∨ Owes .nread y := by
  cases act with
  | written | full => exact .inr trivial
  | store => exact .inr rfl
  | @broken w n b rest full gone =>
    left
    rcases h with h | h
    · exact h
    · have hw : w = true := h
      subst hw
      right
      rcases gone with gone | dead
      · exact gone
      · rw [Bool.eq_false_iff]
        exact fun ho => hspared n b rest rfl ⟨dead,full,ho⟩
  | first some | copy some =>
    rcases h with h | h
    · rcases h with h | h
      · exact absurd h.1 some
      · exact .inl (.inr h)
    · exact h.elim
  | setWrite => exact .inr trivial
  | setRead => exact .inl (.inr rfl)
  | _ => exact h

theorem act_pays_writers (act : Act p d m x m' y e)
    (h : MustWait m .nwrite ∨ Owes .nwrite x) : MustWait m' .nwrite ∨ Owes .nwrite y := by
  cases act with
  | store room =>
    rcases h with h | h
    · exact absurd h.1 room
    · exact h.elim
  | first | copy | copied | none | setRead => exact .inr trivial
  | _ => exact h

end Acts

abbrev Sys (ι : Type) := State ι Unit Chan (Pipe ι) (Point ι)
abbrev Trace (ι : Type) := List (Event ι Chan Mark)

variable [Fintype ι]

theorem step_pays {data : Fin PIPESIZE → Byte} {s : Sys ι} {l : Label ι (Input ι)} (hg : Spared s l)
    (c : Chan) : StepPays (client data) (Asks c) (MustWait · c) (Owes c) s l := by
  rintro p b x f m' y e rfl here prog next
  have act := step_act prog next
  refine ⟨act_asks act,?_⟩
  cases c with
  | nread =>
    refine act_pays_readers act ?_
    rintro n b rest rfl hdead
    have hg' : AtCode _ (s.place p) := hg
    rw [here] at hg'
    exact hg' rfl hdead
  | nwrite => exact act_pays_writers act

theorem sleeper_chan {data : Fin PIPESIZE → Byte} {G : Sys ι → Label ι (Input ι) → Prop} {tr : Trace ι}
    {s : Sys ι} (h : Run (machine (client data)) G tr s) {p : ι} (hs : s.state p = .SLEEPING) :
    s.chan p = some .nread ∧ (∃ n, spot (s.place p) = .rTest n) ∨
      s.chan p = some .nwrite ∧ ∃ n rest, spot (s.place p) = .wTest false n rest := by
  have hz := dozing_run h
  obtain ⟨⟨c,k,y⟩,hbed⟩ := Option.ne_none_iff_exists'.mp (hz.sleeping hs)
  have hcall := called_run h p
  rw [hz.chan hbed]
  cases hp : s.place p <;> rw [hp] at hbed hcall <;> cases hbed
  all_goals
    obtain ⟨x,hx⟩ := hcall
    obtain ⟨-,⟨rfl,n,-,rfl⟩ | ⟨rfl,n,rest,-,rfl⟩⟩ := sleep_chan hx
    · exact .inl ⟨rfl,n,rfl⟩
    · exact .inr ⟨rfl,n,rest,rfl⟩

theorem reader_open {data : Fin PIPESIZE → Byte} {G : Sys ι → Label ι (Input ι) → Prop} {tr : Trace ι}
    {s : Sys ι} (h : Run (machine (client data)) G tr s) {p : ι} (hp : reader (spot (s.place p)) = true) :
    s.shared.readopen = true := by
  have hr := run_mono (H := Permits (fun _ _ _ _ => True)) (fun s l _ => permits_all s l) h
  have hm : Members s.shared (view s).spot := members_run (run_view hr)
  rw [← Bool.not_eq_false]
  intro hclosed
  have hnone : reader (spot (s.place p)) = false :=
    (congrFun hm.reading p).symm.trans (hm.readers (hm.readopen hclosed) p)
  rw [hp] at hnone
  cases hnone

/-- While `p->lock` is free, a process asleep in `piperead` finds the pipe empty and its
write end open, and one asleep in `pipewrite` finds it full and its read end open. -/
theorem pipe_sleepers_wait (ι : Type) [Fintype ι] [DecidableEq ι] (data : Fin PIPESIZE → Byte)
    (tr : Trace ι) (s : Sys ι) (h : Run (machine (client data)) Spared tr s)
    (hfree : s.holder (.spin ()) = none) (p : ι) (hs : s.state p = .SLEEPING) :
    (∀ n, spot (s.place p) = .rTest n →
      s.shared.nread = s.shared.nwrite ∧ s.shared.writeopen = true) ∧
    (∀ dirty n rest, spot (s.place p) = .wTest dirty n rest →
      s.shared.nwrite = s.shared.nread+512 ∧ s.shared.readopen = true) := by
  have hwait : ∀ c, s.chan p = some c → MustWait s.shared c := by
    intro c hc
    exact sleeper_waits (disciplined data) (pays data c) (fun _ => by cases c <;> exact id)
      (fun _ _ l _ hg => step_pays hg c) h hfree hs hc
  rcases sleeper_chan h hs with ⟨hc,n,hn⟩ | ⟨hc,n,rest,hn⟩
  · constructor
    · intro _ _
      rcases hwait _ hc with hw | hclosed
      · exact hw
      · rw [reader_open h (p := p) (by rw [hn]; rfl)] at hclosed
        cases hclosed
    · intro dirty k rest hk
      rw [hn] at hk
      cases hk
  · refine ⟨fun k hk => ?_,fun _ _ _ _ => hwait _ hc⟩
    rw [hn] at hk
    cases hk

local instance threeProcesses : @NeZero ℕ Zero.ofOfNat0 3 := ⟨by decide⟩

def readerSleeps : List (Label (Fin 3) (Input (Fin 3))) :=
  .thread 0 (.read 1) :: List.replicate 7 (.thread 0 .go) ++ [.idle]

theorem pipe_reader_waits : ∃ (tr : Trace (Fin 3)) (s : Sys (Fin 3)),
    Run (machine (client (fun _ => 0))) Spared tr s ∧ s.holder (.spin ()) = none ∧
    s.state 0 = .SLEEPING ∧ s.shared.nread = s.shared.nwrite ∧ s.shared.writeopen = true := by
  obtain ⟨tr,s,hr,hp⟩ := exec_reaches (S := machine (client (ι := Fin 3) (fun _ => 0))) (G := Spared)
    readerSleeps
    (fun s _ => s.holder (.spin ()) = none ∧ s.state 0 = .SLEEPING ∧ spot (s.place 0) = .rTest 1)
    (by decide +kernel)
  exact ⟨tr,s,hr,hp.1,hp.2.1,(pipe_sleepers_wait (Fin 3) _ tr s hr hp.1 0 hp.2.1).1 1 hp.2.2⟩

def writerKilled : List (Label (Fin 3) (Input (Fin 3))) :=
  readerSleeps ++ .thread 2 (.kill 1) :: List.replicate 4 (.thread 2 .go) ++
    .thread 1 (.write (List.replicate 513 0)) :: List.replicate 515 (.thread 1 .go)

/-- Process 0 sleeps in `piperead` although the pipe is full. -/
theorem killed_writer_wakes_nobody : ∃ (tr : Trace (Fin 3)) (s : Sys (Fin 3)),
    Run (machine (client (fun _ => 0))) (fun _ _ => True) tr s ∧ s.holder (.spin ()) = none ∧
    s.holder .ptable = none ∧ s.state 0 = .SLEEPING ∧ spot (s.place 0) = .rTest 1 ∧
    s.shared.nread ≠ s.shared.nwrite := by
  obtain ⟨tr,s,hr,hp⟩ := exec_reaches (S := machine (client (ι := Fin 3) (fun _ => 0)))
    (G := fun _ _ => True) writerKilled
    (fun s _ => s.holder (.spin ()) = none ∧ s.holder .ptable = none ∧ s.state 0 = .SLEEPING ∧
      spot (s.place 0) = .rTest 1 ∧ s.shared.nread ≠ s.shared.nwrite) (by decide +kernel)
  exact ⟨tr,s,hr,hp⟩

end Xv6.PipeWaits

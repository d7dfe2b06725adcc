import Xv6.WaitRule
import Mathlib.Data.Int.Notation

/-!
# Sleeping for a number of ticks

`sys_sleep` and the timer interrupt, with any number of processes and any kills. The memory is
the number of ticks ever; the variable `ticks` has its last 32 bits. The test of the loop
compares without a sign, also where the argument is negative.
-/

set_option autoImplicit false

namespace Xv6.TickSleep
open ProcTable (ProcState)
open TransitionSystem SleepMachine SleepLocks CodeMachine WaitRule

abbrev Word := BitVec 32

def ticks (now : ℕ) : Word := BitVec.ofNat 32 now

/-- Behind `start` the argument and the number of ticks at `ticks0 = ticks` go with the point; a
call leaves with `r`. -/
inductive Point (ι : Type) where
  | user
  | kill (p : ι)
  | call (n : Word)
  | start (n : Word)
  | loop (n : Word) (entry : ℕ)
  | sleep (n : Word) (entry : ℕ)
  | exit (n : Word) (entry : ℕ) (r : ℤ)
  | ret (n : Word) (entry : ℕ) (r : ℤ)
  | timer
  | tick
  | wake
  | timerExit
  deriving DecidableEq

inductive Input (ι : Type) where
  | sleep (n : Word)
  | timer
  | kill (p : ι)
  | go
  deriving DecidableEq

variable {ι : Type}

def Input.start : Input ι → Option (Point ι)
  | .sleep n => some (.call n)
  | .timer => some .timer
  | .kill p => some (.kill p)
  | .go => none

def prog : Point ι → Instr ι Unit Unit ℕ (Point ι) (Input ι) Empty
  | .user => .step fun _ now i => i.start.map fun x => (now,x,[])
  | .kill p => .kill p .user
  | .call n => .acquire (.spin ()) (.start n)
  | .start n => .step fun _ now _ => some (now,.loop n now,[])
  | .loop n entry => .step fun killed now _ =>
      if (ticks now-ticks entry).toNat < n.toNat then
        if killed then some (now,.exit n entry (-1),[]) else some (now,.sleep n entry,[])
      else some (now,.exit n entry 0,[])
  | .sleep n entry => .sleep () (.spin ()) (.loop n entry)
  | .exit n entry r => .release (.spin ()) (.ret n entry r)
  | .ret _ _ _ => .step fun _ now _ => some (now,.user,[])
  | .timer => .acquire (.spin ()) .tick
  | .tick => .step fun _ now _ => some (now+1,.wake,[])
  | .wake => .wakeup () .timerExit
  | .timerExit => .release (.spin ()) .user

def client (now : ℕ) : Client ι Unit Unit ℕ (Point ι) (Input ι) Empty := ⟨now,fun _ => .user,fun _ => prog⟩

abbrev Sys (ι : Type) := State ι Unit Unit ℕ (Point ι)
abbrev Trace (ι : Type) := List (Event ι Unit Empty)

inductive Act (now : ℕ) : Point ι → ℕ → Point ι → Prop
  | begin {i : Input ι} {y : Point ι} (input : i.start = some y) : Act now .user now y
  | start {n : Word} : Act now (.start n) now (.loop n now)
  | killed {n : Word} {entry : ℕ} : Act now (.loop n entry) now (.exit n entry (-1))
  | early {n : Word} {entry : ℕ} (less : (ticks now-ticks entry).toNat < n.toNat) :
      Act now (.loop n entry) now (.sleep n entry)
  | slept {n : Word} {entry : ℕ} (more : n.toNat ≤ (ticks now-ticks entry).toNat) :
      Act now (.loop n entry) now (.exit n entry 0)
  | back {n : Word} {entry : ℕ} {r : ℤ} : Act now (.ret n entry r) now .user
  | tick : Act now .tick (now+1) .wake

section Steps
variable {now now' : ℕ} {x y : Point ι} {d : Bool} {i : Input ι} {e : List Empty}
  {f : Bool → ℕ → Input ι → Option (ℕ × Point ι × List Empty)}

theorem step_act (hp : prog x = .step f) (h : f d now i = some (now',y,e)) : Act now x now' y := by
  cases x with
  | kill | call | sleep | exit | timer | wake | timerExit => cases hp
  | user =>
    cases hp
    obtain ⟨z,hz,heq⟩ := Option.map_eq_some_iff.mp h
    cases heq
    exact .begin hz
  | start n =>
    cases hp
    cases h
    exact .start
  | loop n entry =>
    cases hp
    dsimp only at h
    split at h
    · rename_i hless
      split at h
      · cases h
        exact .killed
      · cases h
        exact .early hless
    · rename_i hmore
      cases h
      exact .slept (Nat.le_of_not_lt hmore)
  | ret n entry r =>
    cases hp
    cases h
    exact .back
  | tick =>
    cases hp
    cases h
    exact .tick

def inside : Point ι → Bool
  | .start _ | .loop _ _ | .sleep _ _ | .exit _ _ _ | .tick | .wake | .timerExit => true
  | _ => false

def holds (x : Point ι) (k : Lock Unit) : Prop := k = .spin () ∧ inside x = true

theorem act_holds (act : Act now x now' y) (j : Lock Unit) : holds y j ↔ holds x j := by
  have hin : inside y = inside x := by
    cases act with
    | @begin i y input => cases i <;> cases input <;> rfl
    | _ => rfl
  rw [holds, holds, hin]

theorem disciplined (now : ℕ) : Disciplined (client (ι := ι) now) holds := by
  refine ⟨fun _ _ h => Bool.false_ne_true h.2,fun p x => ?_⟩
  have hacts : ∀ {f}, prog x = .step f → InstrOk holds x (prog x) := by
    intro f hf
    rw [hf]
    intro d m b m' y o h
    exact act_holds (step_act hf h)
  cases x with
  | kill | call | sleep | exit | timer | wake | timerExit => simp [client, prog, InstrOk, holds, inside]
  | _ => exact hacts rfl

def Asks : Point ι → Prop
  | .sleep _ _ => True
  | _ => False

def Owes : Point ι → Prop
  | .wake => True
  | _ => False

theorem sleep_point {p : ι} {c : Unit} {j : Lock Unit} (h : (client now).prog p x = .sleep c j y) :
    j = .spin () ∧ ∃ n entry, x = .sleep n entry ∧ y = .loop n entry := by
  cases x with
  | sleep n entry =>
    cases h
    exact ⟨rfl,n,entry,rfl,rfl⟩
  | _ => cases h

theorem pays (now : ℕ) : Pays (client (ι := ι) now) holds (.spin ()) () Asks Owes where
  lock h := (sleep_point h).1
  asks h := by
    obtain ⟨-,n,entry,rfl,-⟩ := sleep_point h
    trivial
  held {x} h := by cases x <;> first | exact h.elim | exact ⟨rfl,rfl⟩
  ask {p x y} hn hy := by cases x <;> cases hn <;> exact hy.elim
  back {p x d j y} h hy := by
    obtain ⟨-,n,entry,rfl,rfl⟩ := sleep_point h
    exact hy
  quiet {p x y} h := by cases x <;> first | exact h.elim | exact ⟨nofun,nofun⟩
  hold {x} h := by cases x <;> first | exact h.elim | exact ⟨rfl,rfl⟩
  sleep {p x d j y} h hx := by
    obtain ⟨-,n,entry,rfl,rfl⟩ := sleep_point h
    exact hx
  call {p x y} hn hx := by
    cases x with
    | wake =>
      cases hn
      exact .inr (.inl rfl)
    | _ => exact hx.elim

end Steps

def Elapsed (now : ℕ) : Point ι → Prop
  | .loop _ entry | .sleep _ entry => entry ≤ now
  | .exit n entry r | .ret n entry r => r = 0 → n.toInt ≤ (now : ℤ)-entry
  | _ => True

theorem toInt_le_toNat (n : Word) : n.toInt ≤ n.toNat := by
  rw [BitVec.toInt_eq_toNat_cond]
  split <;> omega

theorem ticks_sub_le {now entry : ℕ} (h : entry ≤ now) : (ticks now-ticks entry).toNat ≤ now-entry := by
  simp only [ticks, BitVec.toNat_sub, BitVec.toNat_ofNat]
  omega

theorem ticks_sub {now entry : ℕ} (h : entry ≤ now) (hlt : now-entry < 2^32) :
    (ticks now-ticks entry).toNat = now-entry := by
  simp only [ticks, BitVec.toNat_sub, BitVec.toNat_ofNat]
  omega

theorem elapsed_mono {now now' : ℕ} {x : Point ι} (h : Elapsed now x) (hle : now ≤ now') :
    Elapsed now' x := by
  cases x with
  | loop | sleep => exact Nat.le_trans h hle
  | exit n entry r | ret n entry r =>
    intro hr
    have hold := h hr
    omega
  | _ => trivial

theorem act_elapsed {now now' : ℕ} {x y : Point ι} (act : Act now x now' y) (h : Elapsed now x) :
    now ≤ now' ∧ Elapsed now' y := by
  cases act with
  | @begin i y input =>
    refine ⟨Nat.le_refl _,?_⟩
    cases i <;> cases input <;> trivial
  | start => exact ⟨Nat.le_refl _,Nat.le_refl _⟩
  | killed => exact ⟨Nat.le_refl _,nofun⟩
  | early => exact ⟨Nat.le_refl _,h⟩
  | @slept n entry more =>
    refine ⟨Nat.le_refl _,fun _ => ?_⟩
    have hdiff := ticks_sub_le h
    have hsign := toInt_le_toNat n
    have hentry : entry ≤ now := h
    omega
  | back => exact ⟨Nat.le_refl _,trivial⟩
  | tick => exact ⟨Nat.le_succ _,trivial⟩

theorem call_elapsed {now : ℕ} {x y : Point ι} (hn : (prog x).next = some y) (h : Elapsed now x) :
    Elapsed now y := by
  cases x <;> cases hn <;> trivial

variable {G : Sys ι → Label ι (Input ι) → Prop} {tr : Trace ι} {start : ℕ} {s : Sys ι}

theorem elapsed_run [DecidableEq ι]
    (h : Run (machine (client start)) G tr s) (p : ι) : Elapsed s.shared (spot (s.place p)) := by
  refine locked_invariant (C := client start) (K := fun _ => False) (k := .spin ()) (disciplined start) nofun
    (fun _ _ _ _ _ _ => id)
    (fun _ now x => ∀ p, Elapsed now (x p)) (fun _ => trivial) ?_ ?_ h p
  · intro tr now x q y hx hn p
    by_cases hp : p = q
    · subst hp
      rw [Function.update_self]
      exact call_elapsed hn (hx p)
    · rw [Function.update_of_ne hp]
      exact hx p
  · intro tr now x q d b f now' y e _ hx hprog hf p
    obtain ⟨hle,hy⟩ := act_elapsed (step_act hprog hf) (hx q)
    by_cases hp : p = q
    · subst hp
      rw [Function.update_self]
      exact hy
    · rw [Function.update_of_ne hp]
      exact elapsed_mono (hx p) hle

def Early : Point ι → ℕ → Prop
  | .loop n entry, now | .sleep n entry, now => (now : ℤ)-entry < n.toInt
  | _, _ => True

/-- A test of the loop is made for a number that is not negative, and before 2^32 ticks have
passed. -/
def Timely (_ : ι) : Point ι → ℕ → Input ι → Prop
  | .loop n entry, now, _ => 0 ≤ n.toInt ∧ now-entry < 2^32
  | _, _, _ => True

instance (p : ι) (x : Point ι) (now : ℕ) (i : Input ι) : Decidable (Timely p x now i) := by
  cases x <;> unfold Timely <;> infer_instance

theorem toNat_of_nonneg {n : Word} (h : 0 ≤ n.toInt) : n.toInt = n.toNat := by
  have hcond := BitVec.toInt_eq_toNat_cond n
  have hlt := n.isLt
  split at hcond <;> omega

theorem step_pays [DecidableEq ι] {l : Label ι (Input ι)}
    (hr : Run (machine (client start)) (Permits Timely) tr s) (hg : Permits Timely s l) :
    StepPaysAt (client start) Asks Early Owes s l := by
  rintro p b x f now' y e rfl here prog next
  have act := step_act prog next
  have helapsed := elapsed_run hr p
  have hg' : AtCode (fun x => Timely p x s.shared b) (s.place p) := hg
  rw [here] at helapsed hg'
  cases act with
  | @begin i y input =>
    refine ⟨fun hy => ?_,fun z hz => hz.imp id fun hx => hx.elim⟩
    cases i <;> cases input <;> exact hy.elim
  | @early n entry less =>
    refine ⟨fun _ => ?_,fun z hz => hz⟩
    obtain ⟨hpos,hlt⟩ := hg'
    have hentry : entry ≤ s.shared := helapsed
    rw [ticks_sub hentry hlt] at less
    have hsign := toNat_of_nonneg hpos
    show (s.shared : ℤ)-entry < n.toInt
    omega
  | tick => exact ⟨fun hy => hy.elim,fun z _ => .inr trivial⟩
  | start | killed | slept | back => exact ⟨fun hy => hy.elim,fun z hz => hz.imp id fun hx => hx.elim⟩

theorem calls_keep (start : ℕ) : CallsKeep (client (ι := ι) start) Asks Early := by
  intro p x y now hn hask hw
  cases x with
  | sleep n entry =>
    cases hn
    exact hw
  | _ => exact hask.elim

theorem sleep_chan [DecidableEq ι]
    (h : Run (machine (client start)) G tr s) {p : ι} (hs : s.state p = .SLEEPING) : s.chan p = some () := by
  have hz := dozing_run h
  obtain ⟨⟨c,k,y⟩,hbed⟩ := Option.ne_none_iff_exists'.mp (hz.sleeping hs)
  exact hz.chan hbed

/-- A call of `sys_sleep` that returns 0 has let its ticks pass. With timely tests, whoever sleeps in
it while the locks are free has some to wait for. -/
theorem sleep_ends_in_time (ι : Type) [DecidableEq ι] (start : ℕ) :
    (∀ (tr : Trace ι) (s : Sys ι), Run (machine (client start)) (fun _ _ => True) tr s →
      ∀ p n entry, spot (s.place p) = .ret n entry 0 → n.toInt ≤ (s.shared : ℤ)-entry) ∧
    (∀ (tr : Trace ι) (s : Sys ι), Run (machine (client start)) (Permits Timely) tr s →
      s.holder (.spin ()) = none → s.holder .ptable = none →
      ∀ p n entry, s.state p = .SLEEPING → spot (s.place p) = .loop n entry →
      (s.shared : ℤ)-entry < n.toInt) := by
  refine ⟨fun tr s h p n entry hp => ?_,fun tr s h hfree _ p n entry hs hp => ?_⟩
  · have helapsed := elapsed_run h p
    rw [hp] at helapsed
    exact helapsed rfl
  · have hearly := sleeper_waits_at (disciplined start) (pays start) (calls_keep start) (fun _ => id)
      (fun _ _ _ hr hg => step_pays hr hg) h hfree hs (sleep_chan h hs)
    rw [hp] at hearly
    exact hearly

local instance twoProcesses : @NeZero ℕ Zero.ofOfNat0 2 := ⟨by decide⟩

def fallsAsleep (n : Word) : List (Label (Fin 2) (Input (Fin 2))) :=
  .thread 0 (.sleep n)::List.replicate 8 (.thread 0 .go)++[.idle]

theorem sleep_ends_in_time_two : ∃ (tr : Trace (Fin 2)) (s : Sys (Fin 2)),
    Run (machine (client (2^32-1))) (Permits Timely) tr s ∧ s.state 0 = .SLEEPING ∧
    (s.shared : ℤ)-(2^32-1 : ℕ) < (2 : Word).toInt := by
  obtain ⟨tr,s,hr,hp⟩ := exec_reaches (S := machine (client (2^32-1))) (G := Permits Timely) (fallsAsleep 2)
    (fun s _ => s.state 0 = .SLEEPING ∧ s.holder (.spin ()) = none ∧ s.holder .ptable = none ∧
      spot (s.place 0) = .loop 2 (2^32-1)) (by decide +kernel)
  obtain ⟨h1,h2,h3,h4⟩ := hp
  exact ⟨tr,s,hr,h1,(sleep_ends_in_time (Fin 2) (2^32-1)).2 tr s hr h2 h3 0 2 _ h1 h4⟩

/-- A process sleeps in `sleep(-1)` with the locks free. -/
theorem sleeps_for_negative : ∃ (tr : Trace (Fin 2)) (s : Sys (Fin 2)),
    Run (machine (client 0)) (fun _ _ => True) tr s ∧ s.holder (.spin ()) = none ∧ s.holder .ptable = none ∧
    s.state 0 = .SLEEPING ∧ spot (s.place 0) = .loop (-1) 0 ∧ (-1 : Word).toInt ≤ (s.shared : ℤ)-(0 : ℕ) := by
  obtain ⟨tr,s,hr,hp⟩ := exec_reaches (S := machine (client 0)) (G := fun _ _ => True) (fallsAsleep (-1))
    (fun s _ => s.state 0 = .SLEEPING ∧ s.holder (.spin ()) = none ∧ s.holder .ptable = none ∧
      spot (s.place 0) = .loop (-1) 0 ∧ s.shared = 0) (by decide +kernel)
  obtain ⟨h1,h2,h3,h4,h5⟩ := hp
  refine ⟨tr,s,hr,h2,h3,h1,h4,?_⟩
  rw [h5]
  decide

end Xv6.TickSleep

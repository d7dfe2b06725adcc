import Xv6.WaitRule

/-!
# Sleep locks

One sleep lock and any number of processes that call `acquiresleep`, `releasesleep` and
`holdingsleep`. A process calls `releasesleep` only between its `acquiresleep` and then. Each
assignment to `lk->locked` and `lk->pid` is a step.
-/

set_option autoImplicit false

namespace Xv6.SleepMutex
open ProcTable (ProcState)
open TransitionSystem SleepMachine SleepLocks CodeMachine WaitRule
open Function

structure Sleeplock where
  locked : Bool
  pid : ℕ
  deriving DecidableEq

def initsleeplock : Sleeplock := ⟨false,0⟩

structure Pids (ι : Type) where
  pid : ι → ℕ
  unique : Function.Injective pid
  positive : ∀ p, pid p ≠ 0

/-- A process is outside or has the lock; the points of `acquiresleep`, of `releasesleep`, and of
`holdingsleep` with whether the process has the lock. -/
inductive Point (ι : Type) where
  | out
  | held
  | kill (p : ι)
  | aLock
  | aTest
  | aSleep
  | aSet
  | aPid
  | aExit
  | rLock
  | rSet
  | rPid
  | rWake
  | rExit
  | hLock (has : Bool)
  | hTest (has : Bool)
  | hExit (has r : Bool)
  | hRet (has r : Bool)
  deriving DecidableEq

inductive Input (ι : Type) where
  | acquiresleep
  | releasesleep
  | holdingsleep
  | kill (p : ι)
  | go
  deriving DecidableEq

variable {ι : Type}

def rest (has : Bool) : Point ι := if has then .held else .out

def outside : Input ι → Option (Point ι)
  | .acquiresleep => some .aLock
  | .holdingsleep => some (.hLock false)
  | .kill p => some (.kill p)
  | _ => none

def inside : Input ι → Option (Point ι)
  | .releasesleep => some .rLock
  | .holdingsleep => some (.hLock true)
  | _ => none

def prog (P : Pids ι) (p : ι) : Point ι → Instr ι Unit Unit Sleeplock (Point ι) (Input ι) Empty
  | .out => .step fun _ m i => (outside i).map fun x => (m,x,[])
  | .held => .step fun _ m i => (inside i).map fun x => (m,x,[])
  | .kill q => .kill q .out
  | .aLock => .acquire (.spin ()) .aTest
  | .aTest => .step fun _ m _ => some (m,if m.locked then .aSleep else .aSet,[])
  | .aSleep => .sleep () (.spin ()) .aTest
  | .aSet => .step fun _ m _ => some ({ m with locked := true },.aPid,[])
  | .aPid => .step fun _ m _ => some ({ m with pid := P.pid p },.aExit,[])
  | .aExit => .release (.spin ()) .held
  | .rLock => .acquire (.spin ()) .rSet
  | .rSet => .step fun _ m _ => some ({ m with locked := false },.rPid,[])
  | .rPid => .step fun _ m _ => some ({ m with pid := 0 },.rWake,[])
  | .rWake => .wakeup () .rExit
  | .rExit => .release (.spin ()) .out
  | .hLock has => .acquire (.spin ()) (.hTest has)
  | .hTest has => .step fun _ m _ => some (m,.hExit has (m.locked && decide (m.pid = P.pid p)),[])
  | .hExit has r => .release (.spin ()) (.hRet has r)
  | .hRet has _ => .step fun _ m _ => some (m,rest has,[])

def client (P : Pids ι) : Client ι Unit Unit Sleeplock (Point ι) (Input ι) Empty :=
  ⟨initsleeplock,fun _ => .out,prog P⟩

abbrev Sys (ι : Type) := State ι Unit Unit Sleeplock (Point ι)
abbrev Trace (ι : Type) := List (Event ι Unit Empty)

inductive Act (P : Pids ι) (p : ι) (m : Sleeplock) : Point ι → Sleeplock → Point ι → Prop
  | begin {i : Input ι} {y : Point ι} (input : outside i = some y) : Act P p m .out m y
  | go {i : Input ι} {y : Point ι} (input : inside i = some y) : Act P p m .held m y
  | taken (locked : m.locked = true) : Act P p m .aTest m .aSleep
  | free (free : m.locked = false) : Act P p m .aTest m .aSet
  | lock : Act P p m .aSet { m with locked := true } .aPid
  | sign : Act P p m .aPid { m with pid := P.pid p } .aExit
  | unlock : Act P p m .rSet { m with locked := false } .rPid
  | clear : Act P p m .rPid { m with pid := 0 } .rWake
  | answer {has : Bool} : Act P p m (.hTest has) m (.hExit has (m.locked && decide (m.pid = P.pid p)))
  | back {has r : Bool} : Act P p m (.hRet has r) m (rest has)

section Steps
variable {P : Pids ι} {p : ι} {m m' : Sleeplock} {x y : Point ι} {d : Bool} {i : Input ι} {e : List Empty}
  {f : Bool → Sleeplock → Input ι → Option (Sleeplock × Point ι × List Empty)}

theorem step_act (hp : prog P p x = .step f) (h : f d m i = some (m',y,e)) : Act P p m x m' y := by
  cases x with
  | kill | aLock | aSleep | aExit | rLock | rWake | rExit | hLock | hExit => cases hp
  | out =>
    cases hp
    obtain ⟨z,hz,heq⟩ := Option.map_eq_some_iff.mp h
    cases heq
    exact .begin hz
  | held =>
    cases hp
    obtain ⟨z,hz,heq⟩ := Option.map_eq_some_iff.mp h
    cases heq
    exact .go hz
  | aTest =>
    cases hp
    cases h
    split_ifs with hfree
    · exact .taken (by assumption)
    · exact .free (Bool.eq_false_iff.mpr hfree)
  | aSet =>
    cases hp
    cases h
    exact .lock
  | aPid =>
    cases hp
    cases h
    exact .sign
  | rSet =>
    cases hp
    cases h
    exact .unlock
  | rPid =>
    cases hp
    cases h
    exact .clear
  | hTest has =>
    cases hp
    cases h
    exact .answer
  | hRet has r =>
    cases hp
    cases h
    exact .back

def spinning : Point ι → Bool
  | .aTest | .aSleep | .aSet | .aPid | .aExit | .rSet | .rPid | .rWake | .rExit | .hTest _ | .hExit _ _ =>
    true
  | _ => false

def holds (x : Point ι) (k : Lock Unit) : Prop := k = .spin () ∧ spinning x = true

theorem act_holds (act : Act P p m x m' y) (j : Lock Unit) : holds y j ↔ holds x j := by
  have hin : spinning y = spinning x := by
    cases act with
    | @begin i y input | @go i y input => cases i <;> cases input <;> rfl
    | @back has r => cases has <;> rfl
    | _ => rfl
  rw [holds, holds, hin]

theorem disciplined (P : Pids ι) : Disciplined (client P) holds := by
  refine ⟨fun _ _ h => Bool.false_ne_true h.2,fun p x => ?_⟩
  have hacts : ∀ {f}, prog P p x = .step f → InstrOk holds x (prog P p x) := by
    intro f hf
    rw [hf]
    intro d m b m' y o h
    exact act_holds (step_act hf h)
  cases x with
  | kill | aLock | aSleep | aExit | rLock | rWake | rExit | hLock | hExit =>
    simp [client, prog, InstrOk, holds, spinning]
  | _ => exact hacts rfl

def Asks : Point ι → Prop
  | .aSleep => True
  | _ => False

def Owes : Point ι → Prop
  | .rPid | .rWake => True
  | _ => False

theorem sleep_point {c : Unit} {j : Lock Unit} (h : (client P).prog p x = .sleep c j y) :
    j = .spin () ∧ x = .aSleep ∧ y = .aTest := by
  cases x with
  | aSleep =>
    cases h
    exact ⟨rfl,rfl,rfl⟩
  | _ => cases h

theorem pays (P : Pids ι) : Pays (client P) holds (.spin ()) () Asks Owes where
  lock h := (sleep_point h).1
  asks h := by
    obtain ⟨-,rfl,-⟩ := sleep_point h
    trivial
  held {x} h := by cases x <;> first | exact h.elim | exact ⟨rfl,rfl⟩
  ask {p x y} hn hy := by cases x <;> cases hn <;> exact hy.elim
  back {p x d j y} h hy := by
    obtain ⟨-,rfl,rfl⟩ := sleep_point h
    exact hy
  quiet {p x y} h := by cases x <;> first | exact h.elim | exact ⟨nofun,nofun⟩
  hold {x} h := by cases x <;> first | exact h.elim | exact ⟨rfl,rfl⟩
  sleep {p x d j y} h hx := by
    obtain ⟨-,rfl,rfl⟩ := sleep_point h
    exact hx
  call {p x y} hn hx := by
    cases x with
    | rWake =>
      cases hn
      exact .inr (.inl rfl)
    | rPid => cases hn
    | _ => exact hx.elim

theorem step_pays {s : Sys ι} {l : Label ι (Input ι)} :
    StepPays (client P) Asks (fun m => m.locked = true) Owes s l := by
  rintro p b x f m' y e rfl here prog next
  have act := step_act prog next
  cases act with
  | @begin i y input | @go i y input =>
    refine ⟨fun hy => ?_,fun hw => hw.imp id fun hx => hx.elim⟩
    cases i <;> cases input <;> exact hy.elim
  | taken locked => exact ⟨fun _ => locked,fun hw => .inl locked⟩
  | lock => exact ⟨fun hy => hy.elim,fun _ => .inl rfl⟩
  | unlock | clear => exact ⟨fun hy => hy.elim,fun _ => .inr trivial⟩
  | @back has r =>
    refine ⟨fun hy => ?_,fun hw => hw.imp id fun hx => hx.elim⟩
    cases has <;> exact hy.elim
  | free | sign | answer => exact ⟨fun hy => hy.elim,fun hw => hw.imp id fun hx => hx.elim⟩

end Steps

/-- A process with the lock: `acquiresleep` has returned, and `releasesleep` has not begun to
give it up. -/
def owner : Point ι → Bool
  | .held | .rLock | .hLock true | .hTest true | .hExit true _ | .hRet true _ => true
  | _ => false

def locking : Point ι → Bool
  | .aPid | .aExit | .rSet => true
  | x => owner x

def signed : Point ι → Bool
  | .aExit | .rSet | .rPid => true
  | x => owner x

def loose : Point ι → Bool
  | .aSet | .rPid => true
  | _ => false

/-- What `holdingsleep` answers is whether the process has the lock. -/
def Honest : Point ι → Prop
  | .hExit has r | .hRet has r => r = has
  | _ => True

def critical : Point ι → Bool
  | .aTest | .aSleep => false
  | x => spinning x

structure Excluded (P : Pids ι) (m : Sleeplock) (x : ι → Point ι) : Prop where
  free : ∀ p, loose (x p) = true → m.locked = false
  taken : ∀ p, locking (x p) = true → m.locked = true
  one : ∀ p q, locking (x p) = true → locking (x q) = true → p = q
  found : m.locked = true → ∃ p, locking (x p) = true
  sign : ∀ p, signed (x p) = true → m.pid = P.pid p
  blank : (∀ p, signed (x p) = false) → m.pid = 0
  honest : ∀ p, Honest (x p)

section Exclusion
variable {P : Pids ι} {p : ι} {m m' : Sleeplock} {x : ι → Point ι} {y z : Point ι}

theorem locking_signed (h : locking z = true) : signed z = true ∨ z = .aPid := by
  cases z with
  | aPid => exact .inr rfl
  | rPid => cases h
  | _ => exact .inl h

theorem signed_locking (h : signed z = true) : locking z = true ∨ z = .rPid := by
  cases z with
  | rPid => exact .inr rfl
  | aPid => cases h
  | _ => exact .inl h

theorem loose_critical (h : loose z = true) : critical z = true := by
  cases z <;> first | rfl | cases h

theorem all_update [DecidableEq ι] {Q : ι → Point ι → Prop} (hother : ∀ q, q ≠ p → Q q (x q))
    (hy : Q p y) (q : ι) :
    Q q (update x p y q) := by
  by_cases hq : q = p
  · subst hq
    rw [update_self]
    exact hy
  · rw [update_of_ne hq]
    exact hother q hq

theorem locking_update [DecidableEq ι] (h : Excluded P m x) (hlock : locking y = locking (x p)) :
    (∀ q, locking (update x p y q) = true → m.locked = true) ∧
    (∀ q r, locking (update x p y q) = true → locking (update x p y r) = true → q = r) ∧
    (m.locked = true → ∃ q, locking (update x p y q) = true) := by
  have hl : ∀ q, locking (update x p y q) = locking (x q) :=
    all_update (Q := fun q z => locking z = locking (x q)) (fun _ _ => rfl) hlock
  simp only [hl]
  exact ⟨h.taken,h.one,h.found⟩

theorem excluded_stay [DecidableEq ι] (h : Excluded P m x) (hlock : locking y = locking (x p))
    (hsign : signed y = signed (x p))
    (hloose : loose y = true → m.locked = false) (hy : Honest y) : Excluded P m (update x p y) := by
  have hs : ∀ q, signed (update x p y q) = signed (x q) :=
    all_update (Q := fun q z => signed z = signed (x q)) (fun _ _ => rfl) hsign
  obtain ⟨htaken,hone,hfound⟩ := locking_update h hlock
  refine ⟨?_,htaken,hone,hfound,fun q hq => ?_,fun hno => ?_,?_⟩
  · exact all_update (Q := fun _ z => loose z = true → m.locked = false) (fun q _ => h.free q) hloose
  · rw [hs] at hq
    exact h.sign q hq
  · exact h.blank fun q => by rw [← hs]; exact hno q
  · exact all_update (Q := fun _ z => Honest z) (fun q _ => h.honest q) hy

theorem none_loose {Q : Prop} (hone : ∀ q, q ≠ p → critical (x q) = false) (q : ι) (hq : q ≠ p)
    (h : loose (x q) = true) :
    Q := by
  have hcrit := hone q hq
  rw [loose_critical h] at hcrit
  cases hcrit

theorem excluded_lock [DecidableEq ι] (h : Excluded P m x) (hone : ∀ q, q ≠ p → critical (x q) = false)
    (hx : x p = .aSet) :
    Excluded P { m with locked := true } (update x p .aPid) := by
  have hfree : m.locked = false := h.free p (by rw [hx]; rfl)
  have hnone : ∀ q, locking (x q) = true → False := fun q hq => by
    rw [h.taken q hq] at hfree
    cases hfree
  have hself : ∀ q, locking (update x p .aPid q) = true → q = p :=
    all_update (Q := fun q z => locking z = true → q = p) (fun q _ hl => (hnone q hl).elim) fun _ => rfl
  refine ⟨?_,fun _ _ => rfl,fun q r hq hr => (hself q hq).trans (hself r hr).symm,fun _ => ⟨p,?_⟩,?_,
    fun hno => ?_,?_⟩
  · exact all_update (Q := fun _ z => loose z = true → true = false) (none_loose hone) nofun
  · rw [update_self]
    rfl
  · refine all_update (Q := fun q z => signed z = true → m.pid = P.pid q) (fun q hq hs => ?_) nofun
    rcases signed_locking hs with hl | hr
    · exact (hnone q hl).elim
    · exact none_loose hone q hq (by rw [hr]; rfl)
  · refine h.blank fun q => ?_
    by_cases hq : q = p
    · rw [hq, hx]
      rfl
    · have hother := hno q
      rwa [update_of_ne hq] at hother
  · exact all_update (Q := fun _ z => Honest z) (fun q _ => h.honest q) trivial

theorem excluded_sign [DecidableEq ι] (h : Excluded P m x) (hone : ∀ q, q ≠ p → critical (x q) = false)
    (hx : x p = .aPid) :
    Excluded P { m with pid := P.pid p } (update x p .aExit) := by
  have hl : locking (x p) = true := by rw [hx]; rfl
  obtain ⟨htaken,hone',hfound⟩ := locking_update (y := .aExit) h hl.symm
  refine ⟨?_,htaken,hone',hfound,?_,fun hno => ?_,?_⟩
  · exact all_update (Q := fun _ z => loose z = true → m.locked = false) (none_loose hone) nofun
  · refine all_update (Q := fun q z => signed z = true → P.pid p = P.pid q) (fun q hq hs => ?_) fun _ => rfl
    rcases signed_locking hs with hq' | hr
    · exact absurd (h.one q p hq' hl) hq
    · exact none_loose hone q hq (by rw [hr]; rfl)
  · have hself := hno p
    rw [update_self] at hself
    cases hself
  · exact all_update (Q := fun _ z => Honest z) (fun q _ => h.honest q) trivial

theorem excluded_unlock [DecidableEq ι] (h : Excluded P m x) (hx : x p = .rSet) :
    Excluded P { m with locked := false } (update x p .rPid) := by
  have hl : locking (x p) = true := by rw [hx]; rfl
  have hnone : ∀ q, locking (update x p .rPid q) = true → False :=
    all_update (Q := fun q z => locking z = true → False) (fun q hq hq' => hq (h.one q p hq' hl)) nofun
  refine ⟨fun _ _ => rfl,fun q hq => (hnone q hq).elim,fun q _ hq => (hnone q hq).elim,nofun,?_,
    fun hno => ?_,?_⟩
  · exact all_update (Q := fun q z => signed z = true → m.pid = P.pid q) (fun q _ => h.sign q)
      fun _ => h.sign p (by rw [hx]; rfl)
  · have hself := hno p
    rw [update_self] at hself
    cases hself
  · exact all_update (Q := fun _ z => Honest z) (fun q _ => h.honest q) trivial

theorem excluded_clear [DecidableEq ι] (h : Excluded P m x) (hone : ∀ q, q ≠ p → critical (x q) = false)
    (hx : x p = .rPid) :
    Excluded P { m with pid := 0 } (update x p .rWake) := by
  obtain ⟨htaken,hone',hfound⟩ := locking_update (p := p) (y := .rWake) h (by rw [hx]; rfl)
  have hfree : m.locked = false := h.free p (by rw [hx]; rfl)
  refine ⟨?_,htaken,hone',hfound,?_,fun _ => rfl,?_⟩
  · exact all_update (Q := fun _ z => loose z = true → m.locked = false) (fun q _ => h.free q) nofun
  · refine all_update (Q := fun q z => signed z = true → 0 = P.pid q) (fun q hq hs => ?_) nofun
    rcases signed_locking hs with hl | hr
    · rw [h.taken q hl] at hfree
      cases hfree
    · exact none_loose hone q hq (by rw [hr]; rfl)
  · exact all_update (Q := fun _ z => Honest z) (fun q _ => h.honest q) trivial

theorem answer_honest (h : Excluded P m x) (hone : ∀ q, q ≠ p → critical (x q) = false) {has : Bool}
    (hx : x p = .hTest has) : (m.locked && decide (m.pid = P.pid p)) = has := by
  cases has with
  | true =>
    have hl := h.taken p (by rw [hx]; rfl)
    have hs := h.sign p (by rw [hx]; rfl)
    rw [hl, hs]
    simp
  | false =>
    refine Bool.eq_false_iff.mpr fun hyes => ?_
    rw [Bool.and_eq_true, decide_eq_true_eq] at hyes
    obtain ⟨q,hq⟩ := h.found hyes.1
    have hne : q ≠ p := by
      rintro rfl
      rw [hx] at hq
      cases hq
    rcases locking_signed hq with hs | ha
    · exact hne (P.unique ((h.sign q hs).symm.trans hyes.2))
    · have hcrit := hone q hne
      rw [ha] at hcrit
      cases hcrit

theorem outside_kind {i : Input ι} (h : outside i = some y) :
    locking y = false ∧ signed y = false ∧ loose y = false ∧ Honest y := by
  cases i <;> cases h <;> exact ⟨rfl,rfl,rfl,trivial⟩

theorem inside_kind {i : Input ι} (h : inside i = some y) :
    locking y = true ∧ signed y = true ∧ loose y = false ∧ Honest y := by
  cases i <;> cases h <;> exact ⟨rfl,rfl,rfl,trivial⟩

theorem excluded_act [DecidableEq ι] (h : Excluded P m x) (act : Act P p m (x p) m' y)
    (hone : critical (x p) = true → ∀ q, q ≠ p → critical (x q) = false) : Excluded P m' (update x p y) := by
  have hpt := h.honest p
  generalize hx : x p = pt at act hone hpt
  cases act with
  | begin input =>
    obtain ⟨hl,hs,hfree,hy⟩ := outside_kind input
    exact excluded_stay h (by rw [hl, hx]; rfl) (by rw [hs, hx]; rfl)
      (fun ht => by rw [hfree] at ht; cases ht) hy
  | go input =>
    obtain ⟨hl,hs,hfree,hy⟩ := inside_kind input
    exact excluded_stay h (by rw [hl, hx]; rfl) (by rw [hs, hx]; rfl)
      (fun ht => by rw [hfree] at ht; cases ht) hy
  | taken => exact excluded_stay h (by rw [hx]; rfl) (by rw [hx]; rfl) nofun trivial
  | free free => exact excluded_stay h (by rw [hx]; rfl) (by rw [hx]; rfl) (fun _ => free) trivial
  | lock => exact excluded_lock h (hone rfl) hx
  | sign => exact excluded_sign h (hone rfl) hx
  | unlock => exact excluded_unlock h hx
  | clear => exact excluded_clear h (hone rfl) hx
  | @answer has =>
    refine excluded_stay h ?_ ?_ nofun (answer_honest h (hone rfl) hx)
    · rw [hx]
      cases has <;> rfl
    · rw [hx]
      cases has <;> rfl
  | @back has r =>
    cases has
    · exact excluded_stay h (by rw [hx]; rfl) (by rw [hx]; rfl) nofun trivial
    · exact excluded_stay h (by rw [hx]; rfl) (by rw [hx]; rfl) nofun trivial

theorem excluded_call [DecidableEq ι] (h : Excluded P m x) (hn : (prog P p (x p)).next = some y) :
    Excluded P m (update x p y) := by
  have hpt := h.honest p
  cases hx : x p with
  | kill | aLock | aSleep | aExit | rLock | rWake | rExit =>
    rw [hx] at hn
    cases hn
    exact excluded_stay h (by rw [hx]; rfl) (by rw [hx]; rfl) nofun trivial
  | hLock has | hExit has r =>
    rw [hx] at hn hpt
    cases hn
    refine excluded_stay h ?_ ?_ nofun hpt
    · rw [hx]
      cases has <;> rfl
    · rw [hx]
      cases has <;> rfl
  | _ =>
    rw [hx] at hn
    cases hn

theorem excluded_boot (P : Pids ι) : Excluded P initsleeplock fun _ => .out :=
  ⟨fun _ _ => rfl,nofun,nofun,nofun,nofun,fun _ => rfl,fun _ => trivial⟩

end Exclusion

theorem critical_holds (x : Point ι) (h : critical x = true) : holds x (.spin ()) := by
  refine ⟨rfl,?_⟩
  cases x <;> first | rfl | cases h

theorem sleep_not_critical {P : Pids ι} {p : ι} {x y : Point ι} {c : Unit} {j : Lock Unit}
    (h : (client P).prog p x = .sleep c j y) : ¬critical y = true := by
  obtain ⟨-,-,rfl⟩ := sleep_point h
  exact Bool.false_ne_true

section Runs
variable {G : Sys ι → Label ι (Input ι) → Prop} {P : Pids ι} {tr : Trace ι} {s : Sys ι}
variable [DecidableEq ι]

theorem excluded_run (h : Run (machine (client P)) G tr s) : Excluded P s.shared (view s).spot := by
  refine locked_invariant (C := client P) (K := fun x => critical x = true) (disciplined P) critical_holds
    (fun _ _ _ _ _ => sleep_not_critical) (fun _ m x => Excluded P m x) (excluded_boot P) ?_ ?_ h
  · exact fun tr m x p y hx hn => excluded_call hx hn
  · intro tr m x p d b f m' y e hone hx hprog hf
    exact excluded_act hx (step_act hprog hf) fun hc q hq => Bool.eq_false_iff.mpr (hone q hq hc)

theorem none_critical (h : Run (machine (client P)) G tr s) (hfree : s.holder (.spin ()) = none) (p : ι) :
    critical (spot (s.place p)) = false := by
  refine Bool.eq_false_iff.mpr fun hcrit => ?_
  have hplace := spot_holds (C := client P) (K := fun x => critical x = true) critical_holds
    (fun _ _ _ _ _ => sleep_not_critical) (called_run h p) hcrit
  rw [((owned_run (disciplined P) h).owner (.spin ()) p).mpr hplace] at hfree
  cases hfree

end Runs

theorem owner_locking {x : Point ι} (h : owner x = true) : locking x = true ∧ signed x = true := by
  cases x <;> first | exact ⟨h,h⟩ | cases h

theorem locking_owner {x : Point ι} (h : locking x = true ∨ signed x = true) (hcrit : critical x = false) :
    owner x = true := by
  cases x with
  | aPid | aExit | rSet | rPid => cases hcrit
  | _ => exact h.elim id id

/-- At most one process has the lock, the fields say which, `holdingsleep` answers by them, and nobody
sleeps on a free lock. -/
theorem sleep_lock_exclusive (ι : Type) [DecidableEq ι] (P : Pids ι) (tr : Trace ι) (s : Sys ι)
    (h : Run (machine (client P)) (fun _ _ => True) tr s) :
    (∀ p q, owner (spot (s.place p)) = true → owner (spot (s.place q)) = true → p = q) ∧
    (∀ p, owner (spot (s.place p)) = true → s.shared.locked = true ∧ s.shared.pid = P.pid p) ∧
    (s.holder (.spin ()) = none → (∀ p, owner (spot (s.place p)) = false) →
      s.shared.locked = false ∧ ∀ p, s.shared.pid ≠ P.pid p) ∧
    (∀ p has r, spot (s.place p) = .hRet has r → r = has) ∧
    (s.holder (.spin ()) = none → s.holder .ptable = none → s.shared.locked = false →
      ∀ p, ¬(s.state p = .SLEEPING ∧ s.chan p = some ())) := by
  have hx := excluded_run h
  refine ⟨fun p q hp hq => hx.one p q (owner_locking hp).1 (owner_locking hq).1,
    fun p hp => ⟨hx.taken p (owner_locking hp).1,hx.sign p (owner_locking hp).2⟩,fun hfree hnone =>
    ⟨?_,fun p hp => ?_⟩,
    fun p has r hp => ?_,fun hfree _ hlocked p hp => ?_⟩
  · refine Bool.eq_false_iff.mpr fun hlocked => ?_
    obtain ⟨p,hp⟩ := hx.found hlocked
    have howner := locking_owner (.inl hp) (none_critical h hfree p)
    exact Bool.false_ne_true ((hnone p).symm.trans howner)
  · have hzero : s.shared.pid = 0 := hx.blank fun q => Bool.eq_false_iff.mpr fun hq => by
      have howner := locking_owner (.inr hq) (none_critical h hfree q)
      exact Bool.false_ne_true ((hnone q).symm.trans howner)
    exact P.positive p (hp.symm.trans hzero)
  · have hhonest : Honest (spot (s.place p)) := hx.honest p
    rw [hp] at hhonest
    exact hhonest
  · have hwait :=
      sleeper_waits (disciplined P) (pays P) (fun _ => id) (fun _ _ _ _ _ => step_pays) h hfree hp.1 hp.2
    rw [hlocked] at hwait
    cases hwait

local instance twoProcesses : @NeZero ℕ Zero.ofOfNat0 2 := ⟨by decide⟩

def twoPids : Pids (Fin 2) :=
  ⟨fun p => p.val+1,fun _ _ h => Fin.ext (Nat.succ.inj h),fun _ => Nat.succ_ne_zero _⟩

def contended : List (Label (Fin 2) (Input (Fin 2))) :=
  .thread 0 .acquiresleep::List.replicate 5 (.thread 0 .go)++
    .thread 1 .acquiresleep::List.replicate 7 (.thread 1 .go)++[.idle]

theorem sleep_lock_contended : ∃ (tr : Trace (Fin 2)) (s : Sys (Fin 2)),
    Run (machine (client twoPids)) (fun _ _ => True) tr s ∧ s.state 1 = .SLEEPING ∧
    s.holder (.spin ()) = none ∧
    s.shared.locked = true ∧ s.shared.pid = 1 := by
  obtain ⟨tr,s,hr,hp⟩ := exec_reaches (S := machine (client twoPids)) (G := fun _ _ => True) contended
    (fun s _ => s.state 1 = .SLEEPING ∧ s.holder (.spin ()) = none ∧ owner (spot (s.place 0)) = true)
      (by decide +kernel)
  obtain ⟨h1,h2,h3⟩ := hp
  have hmain := (sleep_lock_exclusive (Fin 2) twoPids tr s hr).2.1 0 h3
  exact ⟨tr,s,hr,h1,h2,hmain.1,hmain.2⟩

end Xv6.SleepMutex

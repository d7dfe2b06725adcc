import Xv6.ProcMachine

/-!
# What one step of the process machine can do

Every step of the machine is one of the moves listed here, each with the
facts that enabled it and the state it leaves. The invariants are proved
from the moves and do not unfold the step function again.
-/

set_option autoImplicit false

namespace Xv6.ProcStep
open ProcTable ProcMachine TransitionSystem
open Function (update)

variable {n : ℕ}

def Matches (w : WaitCall) (i : Slot) (p : Proc) : Prop :=
  match w with
  | .wait => p.parent = some i
  | .waitForProcess q => p.pid = q

instance (w : WaitCall) (i : Slot) (p : Proc) : Decidable (Matches w i p) :=
  match w with
  | .wait => inferInstanceAs (Decidable (p.parent = some i))
  | .waitForProcess q => inferInstanceAs (Decidable (p.pid = q))

theorem scan_eq (w : WaitCall) (i : Slot) (t : Table) :
    w.scan i t = reapScan (fun p => Matches w i p) (t i).killed t := by
  cases w <;> rfl

variable {s s' : State n} {o : List Obs} {i : Slot} {w : WaitCall} {c : Fin n}

theorem scan_reaped {i p : Slot} {t : Table} (h : w.scan i t = .reaped p) :
    Matches w i (t p) ∧ (t p).state = .ZOMBIE := by
  rw [scan_eq] at h
  have hr := reap_scan_reaped h
  simpa only [decide_eq_true_eq] using hr

theorem scan_fail {t : Table} (h : w.scan i t = .fail) :
    (t i).killed = true ∨ ∀ p, ¬ Matches w i (t p) := by
  rw [scan_eq] at h
  have hf := reap_scan_fail h
  simpa only [decide_eq_false_iff_not] using hf

theorem scan_sleep {t : Table} :
    w.scan i t = .sleep ↔ (t i).killed = false ∧ (∃ p, Matches w i (t p)) ∧
      ∀ p, Matches w i (t p) → (t p).state ≠ .ZOMBIE := by
  rw [scan_eq]
  simpa using reap_scan_sleep (m := fun p => decide (Matches w i p))

/-- A waiting call runs its loop after its own `acquire`, or with the lock it
is given when its sleep ends. -/
def Entered (s : State n) (i : Slot) : Prop :=
  ((s.thread i).sw = none ∧ s.lock = none) ∨ (s.thread i).sw = some .waitSleep

inductive Move (s : State n) : Fin n × Act → State n → List Obs → Prop
  | acquire {c : Fin n} (idle : s.cpu c = .idle) (free : s.lock = none) :
      Move s (c,.sched) { s with lock := some c, cpu := update s.cpu c (.scan 0) } []
  | dispatch {c : Fin n} {k : ℕ} {p : Slot} (scan : s.cpu c = .scan k)
      (ready : (s.proc p).state = .RUNNABLE) :
      Move s (c,.sched) { s with
        proc := setState p .RUNNING s.proc,
        cpu := update s.cpu c (.run p) } []
  | release {c : Fin n} {k : ℕ} (scan : s.cpu c = .scan k) :
      Move s (c,.sched) { s with lock := none, cpu := update s.cpu c .idle } []
  | wakeup {c : Fin n} {a : ℕ} (free : s.lock = none) :
      Move s (c,.wakeup a) { s with proc := wakeup1 (some (.other a)) s.proc } []
  | resume {c : Fin n} {i : Slot} {ok : Bool} {sw : Switch} (chan : Option Chan)
      (run : s.cpu c = .run i) (switched : (s.thread i).sw = some sw) (notwait : sw ≠ .waitSleep) :
      Move s (c,.go ok) { s with
        proc := setChan i chan s.proc,
        thread := update s.thread i { s.thread i with sw := none },
        lock := none } []
  | reaped {c : Fin n} {i p : Slot} {ok : Bool} {w : WaitCall} (chan : Option Chan)
      (run : s.cpu c = .run i) (pc : (s.thread i).pc = .waiting w) (entered : Entered s i)
      (found : Matches w i (s.proc p)) (zombie : (s.proc p).state = .ZOMBIE) :
      Move s (c,.go ok) { s with
        proc := reap p (setChan i chan s.proc),
        thread := update s.thread i userThread,
        lock := none } [.reaped w (s.proc i).birth (s.proc p).birth (s.proc p).pid]
  | failed {c : Fin n} {i : Slot} {ok : Bool} {w : WaitCall} (chan : Option Chan)
      (run : s.cpu c = .run i) (pc : (s.thread i).pc = .waiting w) (entered : Entered s i)
      (cause : (s.proc i).killed = true ∨ ∀ p, ¬ Matches w i (s.proc p)) :
      Move s (c,.go ok) { s with
        proc := setChan i chan s.proc,
        thread := update s.thread i userThread,
        lock := none } [.failed w (s.proc i).birth]
  | waitSleep {c : Fin n} {i : Slot} {ok : Bool} {w : WaitCall}
      (run : s.cpu c = .run i) (pc : (s.thread i).pc = .waiting w) (entered : Entered s i)
      (alive : (s.proc i).killed = false) (exist : ∃ p, Matches w i (s.proc p))
      (living : ∀ p, Matches w i (s.proc p) → (s.proc p).state ≠ .ZOMBIE) :
      Move s (c,.go ok) { s with
        proc := setState i .SLEEPING (setChan i (some (.proc i)) s.proc),
        thread := update s.thread i ⟨.waiting w,some .waitSleep,awaitedBy w s.proc⟩,
        lock := some c,
        cpu := update s.cpu c (.scan (i.val+1)) } [.slept w (s.proc i).birth]
  | stay {c : Fin n} {i : Slot} {a : Act} (pc : Pc) (o : List Obs)
      (run : s.cpu c = .run i) (on : (s.thread i).sw = none)
      (source : (s.thread i).pc = .user ∨ (s.thread i).pc = .fork ∨ ∃ q, (s.thread i).pc = .kill q)
      (target : pc = .user ∨ pc = .exit ∨ ∃ k : Syscall, a = .call k ∧ pc = k.pc)
      (seen : o = [] ∨ o = [.forkFailed (s.proc i).birth] ∨ ∃ q, o = [.killed q false] ∧
        ∀ p, (s.proc p).pid ≠ q) :
      Move s (c,a) { s with thread := update s.thread i ⟨pc,none,[]⟩ } o
  | alloc {c : Fin n} {i np : Slot} {ok : Bool} (run : s.cpu c = .run i)
      (on : (s.thread i).sw = none) (pc : (s.thread i).pc = .fork) (free : s.lock = none)
      (unused : (s.proc np).state = .UNUSED) :
      Move s (c,.go ok) { s with
        proc := embryo np s.nextpid s.proc,
        thread := update s.thread i ⟨.kstack np,none,[]⟩,
        nextpid := s.nextpid+1 } [.born s.nextpid]
  | kstack {c : Fin n} {i np : Slot} {ok : Bool} (run : s.cpu c = .run i)
      (on : (s.thread i).sw = none) (pc : (s.thread i).pc = .kstack np) :
      Move s (c,.go ok) { s with
        thread := update (update s.thread np newThread) i
          ⟨.copyuvm np,none,[]⟩ } []
  | copied {c : Fin n} {i np : Slot} {ok : Bool} (run : s.cpu c = .run i)
      (on : (s.thread i).sw = none) (pc : (s.thread i).pc = .copyuvm np) :
      Move s (c,.go ok) { s with
        thread := update s.thread i ⟨.parent np,none,[]⟩ } []
  | forkFail {c : Fin n} {i np : Slot} (run : s.cpu c = .run i) (on : (s.thread i).sw = none)
      (pc : (s.thread i).pc = .kstack np ∨ (s.thread i).pc = .copyuvm np) :
      Move s (c,.go false) { s with
        proc := setState np .UNUSED s.proc,
        thread := update s.thread i userThread } [.forkFailed (s.proc i).birth]
  | setParent {c : Fin n} {i np : Slot} {ok : Bool} (run : s.cpu c = .run i)
      (on : (s.thread i).sw = none) (pc : (s.thread i).pc = .parent np) :
      Move s (c,.go ok) { s with
        proc := setParent np (some i) s.proc,
        thread := update s.thread i ⟨.runnable np,none,[]⟩ } []
  | runnable {c : Fin n} {i np : Slot} {ok : Bool} (run : s.cpu c = .run i)
      (on : (s.thread i).sw = none) (pc : (s.thread i).pc = .runnable np) (free : s.lock = none) :
      Move s (c,.go ok) { s with
        proc := setState np .RUNNABLE s.proc,
        thread := update s.thread i userThread }
        [.forked (s.proc i).birth (s.proc np).birth]
  | exit {c : Fin n} {i : Slot} {ok : Bool} (run : s.cpu c = .run i)
      (on : (s.thread i).sw = none) (pc : (s.thread i).pc = .exit) (free : s.lock = none)
      (notinit : i ≠ s.initproc) :
      Move s (c,.go ok) { s with
        proc := exitTable i s.initproc s.proc,
        thread := update s.thread i ⟨.exit,some .exit,[]⟩,
        lock := some c,
        cpu := update s.cpu c (.scan (i.val+1)) }
        [.exited (s.proc i).birth ((s.proc i).parent.map (fun p => (s.proc p).birth))]
  | kill {c : Fin n} {i p : Slot} {ok : Bool} {q : Pid} (run : s.cpu c = .run i)
      (on : (s.thread i).sw = none) (pc : (s.thread i).pc = .kill q) (free : s.lock = none)
      (found : killSlot q s.proc = some p) :
      Move s (c,.go ok) { s with
        proc := killTable p s.proc,
        thread := update s.thread i userThread } [.killed q true]
  | fault {c : Fin n} {i : Slot} (run : s.cpu c = .run i) (on : (s.thread i).sw = none)
      (pc : (s.thread i).pc = .user) :
      Move s (c,.fault) { s with
        proc := setKilled i true s.proc,
        thread := update s.thread i ⟨.exit,none,[]⟩ } []
  | yield {c : Fin n} {i : Slot} (run : s.cpu c = .run i) (on : (s.thread i).sw = none)
      (free : s.lock = none) :
      Move s (c,.yield) { s with
        proc := setState i .RUNNABLE s.proc,
        thread := update s.thread i { s.thread i with sw := some .yield },
        lock := some c,
        cpu := update s.cpu c (.scan (i.val+1)) } []
  | sleep {c : Fin n} {i : Slot} {a : ℕ} (run : s.cpu c = .run i)
      (on : (s.thread i).sw = none) (free : s.lock = none)
      (pc : (s.thread i).pc = .user ∨ (s.thread i).pc = .exit) :
      Move s (c,.sleep a) { s with
        proc := setState i .SLEEPING (setChan i (some (.other a)) s.proc),
        thread := update s.thread i { s.thread i with sw := some .sleep },
        lock := some c,
        cpu := update s.cpu c (.scan (i.val+1)) } []

theorem scheduler_cases
    (h : schedulerStep s c = some (s',o)) : Move s (c,.sched) s' o := by
  unfold schedulerStep at h
  split at h
  · rename_i hc
    split at h
    · rename_i hl
      cases h
      exact .acquire hc hl
    · cases h
  · rename_i k hc
    split at h
    · rename_i p hp
      cases h
      have hr := find_slot_some hp
      simp only [decide_eq_true_eq] at hr
      exact .dispatch hc hr.2
    · cases h
      exact .release hc
  · cases h

theorem awaited_by_chan (w : WaitCall) (i : Slot) (chan : Option Chan) (t : Table) :
    awaitedBy w (setChan i chan t) = awaitedBy w t := by
  cases w <;> simp [awaitedBy]

theorem matches_chan (w : WaitCall) (i j p : Slot) (chan : Option Chan) (t : Table) :
    Matches w i (setChan j chan t p) ↔ Matches w i (t p) := by
  cases w <;> simp [Matches]

theorem wait_loop_cases
    {ok : Bool} (chan : Option Chan) (run : s.cpu c = .run i)
    (pc : (s.thread i).pc = .waiting w) (entered : Entered s i)
    (h : waitLoop { s with proc := setChan i chan s.proc } c i w = (s',o)) :
    Move s (c,.go ok) s' o := by
  unfold waitLoop at h
  split at h
  · rename_i p hp
    cases h
    obtain ⟨hm,hz⟩ := scan_reaped hp
    simp only [matches_chan, set_chan_fields] at hm hz
    have hmove : Move s (c,.go ok) _ _ := .reaped chan run pc entered hm hz
    simpa [State.setThread] using hmove
  · rename_i hf
    cases h
    have hc := scan_fail hf
    simp only [matches_chan, set_chan_fields] at hc
    have hmove : Move s (c,.go ok) _ _ := .failed chan run pc entered hc
    simpa [State.setThread] using hmove
  · rename_i hs
    cases h
    obtain ⟨hk,he,hl⟩ := scan_sleep.mp hs
    simp only [matches_chan, set_chan_fields] at hk he hl
    have hmove : Move s (c,.go ok) _ _ := .waitSleep run pc entered hk he hl
    simpa [State.sched, State.setThread, set_chan_twice, awaited_by_chan] using hmove

theorem resume_cases {sw : Switch}
    {ok : Bool} (run : s.cpu c = .run i) (switched : (s.thread i).sw = some sw)
    (h : resume s c i sw = some (s',o)) : Move s (c,.go ok) s' o := by
  have hself : ∀ sw', sw' = sw → sw' ≠ .waitSleep →
      Move s (c,.go ok) { s.setThread i { s.thread i with sw := none } with lock := none } [] := by
    intro sw' hsw hne
    subst hsw
    have hmove : Move s (c,.go ok) _ _ := .resume (s.proc i).chan run switched hne
    simpa [State.setThread, set_chan_self] using hmove
  cases sw with
  | forkret => cases h; exact hself _ rfl (by decide)
  | yield => cases h; exact hself _ rfl (by decide)
  | sleep =>
    cases h
    have hmove : Move s (c,.go ok) _ _ := .resume none run switched (by decide)
    simpa [State.setThread] using hmove
  | waitSleep =>
    simp only [resume] at h
    split at h
    · rename_i w hpc
      exact wait_loop_cases none run hpc (.inr switched) (Option.some.inj h)
    · cases h
  | exit => cases h

theorem kernel_cases {ok : Bool}
    (run : s.cpu c = .run i) (on : (s.thread i).sw = none)
    (h : kernelStep s c i ok = some (s',o)) : Move s (c,.go ok) s' o := by
  unfold kernelStep at h
  split at h
  · cases h
  · rename_i hpc
    split at h
    · rename_i hl
      simp only [allocproc, Option.some.injEq] at h
      split at h
      · cases h
        exact .stay .user _ run on (.inr (.inl hpc)) (.inl rfl) (by simp)
      · rename_i np hnp
        cases h
        have hu := find_slot_some hnp
        exact .alloc run on hpc hl (by simpa using hu)
    · cases h
  · rename_i np hpc
    split at h
    · cases h
      exact .kstack run on hpc
    · rename_i hok
      cases h
      rw [Bool.eq_false_iff.mpr hok]
      exact .forkFail run on (.inl hpc)
  · rename_i np hpc
    split at h
    · cases h
      exact .copied run on hpc
    · rename_i hok
      cases h
      rw [Bool.eq_false_iff.mpr hok]
      exact .forkFail run on (.inr hpc)
  · rename_i np hpc
    cases h
    exact .setParent run on hpc
  · rename_i np hpc
    split at h
    · rename_i hl
      cases h
      exact .runnable run on hpc hl
    · cases h
  · rename_i hpc
    split at h
    · rename_i hl
      cases h
      exact .exit run on hpc hl.1 hl.2
    · cases h
  · rename_i q hpc
    split at h
    · rename_i hl
      simp only [kill, Option.some.injEq] at h
      split at h
      · rename_i p hp
        cases h
        exact .kill run on hpc hl hp
      · rename_i hp
        cases h
        refine .stay .user _ run on (.inr (.inr ⟨q,hpc⟩)) (.inl rfl)
          (.inr (.inr ⟨q,rfl,fun p => ?_⟩))
        simpa using find_slot_none hp p
    · cases h
  · rename_i w hpc
    split at h
    · rename_i hl
      apply wait_loop_cases (s.proc i).chan run hpc (.inl ⟨on,hl⟩)
      rw [set_chan_self]
      exact Option.some.inj h
    · cases h

theorem thread_cases {a : Act}
    (run : s.cpu c = .run i) (h : threadStep s c i a = some (s',o)) : Move s (c,a) s' o := by
  unfold threadStep at h
  split at h
  · rename_i sw ok hsw
    exact resume_cases run hsw h
  · rename_i ok hsw
    exact kernel_cases run hsw h
  · rename_i k hsw
    split at h
    · rename_i hpc
      cases h
      refine .stay _ _ run hsw (.inl hpc) ?_ (.inl rfl)
      split
      · exact .inr (.inl rfl)
      · exact .inr (.inr ⟨k,rfl,rfl⟩)
    · cases h
  · rename_i hsw
    split at h
    · rename_i hpc
      cases h
      exact .fault run hsw hpc
    · cases h
  · rename_i hsw
    split at h
    · rename_i hl
      cases h
      exact .yield run hsw hl
    · cases h
  · rename_i a hsw
    split at h
    · rename_i hl
      cases h
      exact .sleep run hsw hl.1 hl.2
    · cases h
  · cases h

theorem step_cases {l : Fin n × Act}
    (h : step s l = some (s',o)) : Move s l s' o := by
  obtain ⟨c,a⟩ := l
  unfold step at h
  split at h
  · rename_i ha
    cases ha
    exact scheduler_cases h
  · rename_i b ha
    cases ha
    split at h
    · rename_i hl
      cases h
      exact .wakeup hl
    · cases h
  · split at h
    · rename_i i hi
      exact thread_cases hi h
    · cases h

end Xv6.ProcStep

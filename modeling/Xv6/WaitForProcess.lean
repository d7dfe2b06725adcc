import Xv6.WaitWakeup
import Xv6.ProcIdentity

/-!
# waitForProcess

`waitForProcess` looks for its argument in the pid field of every slot,
whoever's child it is and whether the slot is free or not, and it sleeps on
its caller's own slot, a channel that `exit` wakes for the parent alone.
-/

set_option autoImplicit false

namespace Xv6.WaitForProcess
open ProcTable ProcMachine TransitionSystem ProcStep ProcEffect
open ProcInvariant ProcIdentity WaitWakeup

variable {n : ℕ} {s s' : State n} {l : Fin n × Act} {o : List Obs}

section Exists
variable {c : Fin n} {i : Slot} {q : Pid}

theorem wait_loop_sleeps (w : WaitCall) (hr : (s.proc i).state = .RUNNING) :
    ((waitLoop s c i w).1.proc i).state = .SLEEPING ↔ w.scan i s.proc = .sleep := by
  unfold waitLoop
  cases hscan : w.scan i s.proc with
  | reaped p =>
    have hip : i ≠ p := by
      rintro rfl
      rw [(scan_reaped hscan).2] at hr
      cases hr
    simp [hip, hr]
  | fail => simp [State.setThread, hr]
  | sleep => simp [State.sched, State.setThread]

theorem scan_absent (h : ∀ p, (s.proc p).state ≠ .UNUSED → (s.proc p).pid ≠ q) :
    (WaitCall.waitForProcess q).scan i s.proc = .fail ∨
      (WaitCall.waitForProcess q).scan i s.proc = .sleep := by
  cases hscan : (WaitCall.waitForProcess q).scan i s.proc with
  | reaped p =>
    obtain ⟨hm,hz⟩ := scan_reaped hscan
    exact absurd hm (h p (by rw [hz]; decide))
  | fail => exact .inl rfl
  | sleep => exact .inr rfl

theorem scan_absent_sleep (h : ∀ p, (s.proc p).state ≠ .UNUSED → (s.proc p).pid ≠ q) :
    (WaitCall.waitForProcess q).scan i s.proc = .sleep ↔
      (s.proc i).killed = false ∧ ∃ p, (s.proc p).state = .UNUSED ∧ (s.proc p).pid = q := by
  have hunused : ∀ p, (s.proc p).pid = q → (s.proc p).state = .UNUSED := by
    intro p hp
    by_contra hu
    exact h p hu hp
  rw [scan_sleep]
  constructor
  · rintro ⟨alive,⟨p,hp⟩,-⟩
    exact ⟨alive,p,hunused p hp,hp⟩
  · rintro ⟨alive,p,-,hp⟩
    refine ⟨alive,⟨p,hp⟩,fun r hr => ?_⟩
    rw [hunused r hr]
    decide

end Exists

/-- A pass of `waitForProcess` sleeps only for a process that exists, and
fails when there is none, exactly if the caller is killed, some process has
the pid or no free slot has it. -/
theorem sleeps_for_existing_iff (n : ℕ) (s : State n) (h : Reachable (machine n) s) (c : Fin n)
    (i : Slot) (run : s.cpu c = .run i) (q : Pid) :
    ((((waitLoop s c i (.waitForProcess q)).1.proc i).state = .SLEEPING →
        ∃ p, (s.proc p).state ≠ .UNUSED ∧ (s.proc p).pid = q) ∧
      ((∀ p, (s.proc p).state ≠ .UNUSED → (s.proc p).pid ≠ q) →
        (waitLoop s c i (.waitForProcess q)).2 = [.failed (.waitForProcess q) (s.proc i).birth] ∧
        ((waitLoop s c i (.waitForProcess q)).1.proc i).state ≠ .SLEEPING)) ↔
    ((s.proc i).killed = true ∨ (∃ p, (s.proc p).state ≠ .UNUSED ∧ (s.proc p).pid = q) ∨
      ∀ p, (s.proc p).state = .UNUSED → (s.proc p).pid ≠ q) := by
  obtain ⟨tr,hrun⟩ := h
  rw [ne_eq, wait_loop_sleeps _ ((coherent_run hrun).running run)]
  by_cases hexist : ∃ p, (s.proc p).state ≠ .UNUSED ∧ (s.proc p).pid = q
  · refine ⟨fun _ => .inr (.inl hexist),fun _ => ⟨fun _ => hexist,fun habsent => ?_⟩⟩
    obtain ⟨p,hu,hp⟩ := hexist
    exact absurd hp (habsent p hu)
  · have habsent : ∀ p, (s.proc p).state ≠ .UNUSED → (s.proc p).pid ≠ q :=
      fun p hu hp => hexist ⟨p,hu,hp⟩
    have hsleep := scan_absent_sleep (i := i) habsent
    constructor
    · rintro ⟨hsleeps,-⟩
      have hnot : ¬ ((s.proc i).killed = false ∧
          ∃ p, (s.proc p).state = .UNUSED ∧ (s.proc p).pid = q) :=
        fun hstale => hexist (hsleeps (hsleep.mpr hstale))
      by_cases hk : (s.proc i).killed = true
      · exact .inl hk
      · exact .inr (.inr fun p hu hp => hnot ⟨by simpa using hk,p,hu,hp⟩)
    · intro hcond
      have hawake : ¬ (WaitCall.waitForProcess q).scan i s.proc = .sleep := by
        rw [hsleep]
        rintro ⟨alive,p,hu,hp⟩
        rcases hcond with hk | he | hfree
        · rw [alive] at hk; cases hk
        · exact hexist he
        · exact hfree p hu hp
      have hfail := (scan_absent (i := i) habsent).resolve_right hawake
      refine ⟨fun hs => absurd hs hawake,fun _ => ⟨?_,hawake⟩⟩
      rw [waitLoop, hfail]

/-- init sleeps for pid 0, which the free slots have. -/
theorem sleeps_for_nobody : ∃ s : State 1, Reachable (machine 1) s ∧ s.cpu 0 = .run 0 ∧
    ((waitLoop s 0 0 (.waitForProcess 0)).1.proc 0).state = .SLEEPING ∧
    ∀ p, (s.proc p).state ≠ .UNUSED → (s.proc p).pid ≠ 0 := by
  obtain ⟨o,s,hr,hp⟩ := exec_reaches (S := machine 1) (G := fun _ _ => True) (solo initSteps)
    (fun s _ => s.cpu 0 = .run 0 ∧
      ((waitLoop s 0 0 (.waitForProcess 0)).1.proc 0).state = .SLEEPING ∧
      ∀ p, (s.proc p).state ≠ .UNUSED → (s.proc p).pid ≠ 0) (by decide +kernel)
  exact ⟨s,⟨o,hr⟩,hp⟩

theorem sleeps_for_existing_iff_init : ∃ s : State 1, Reachable (machine 1) s ∧
    s.cpu 0 = .run 0 ∧
    ((((waitLoop s 0 0 (.waitForProcess 7)).1.proc 0).state = .SLEEPING →
        ∃ p, (s.proc p).state ≠ .UNUSED ∧ (s.proc p).pid = 7) ∧
      ((∀ p, (s.proc p).state ≠ .UNUSED → (s.proc p).pid ≠ 7) →
        (waitLoop s 0 0 (.waitForProcess 7)).2 = [.failed (.waitForProcess 7) (s.proc 0).birth] ∧
        ((waitLoop s 0 0 (.waitForProcess 7)).1.proc 0).state ≠ .SLEEPING)) := by
  obtain ⟨o,s,hr,hp⟩ := exec_reaches (S := machine 1) (G := fun _ _ => True) (solo initSteps)
    (fun s _ => s.cpu 0 = .run 0 ∧ ∀ p, (s.proc p).state = .UNUSED → (s.proc p).pid ≠ 7)
    (by decide +kernel)
  exact ⟨s,⟨o,hr⟩,hp.1,(sleeps_for_existing_iff 1 s ⟨o,hr⟩ 0 0 hp.1 7).mpr (.inr (.inr hp.2))⟩

/-- If a pass of `waitForProcess` is going to sleep, the processes that have
its pid are children of its caller. -/
def OwnChildren (i : Slot) (t : Table) : Pc → Prop
  | .waiting (.waitForProcess q) => (t i).killed = false →
      (∀ p, (t p).pid = q → (t p).state ≠ .ZOMBIE) →
      ∀ p, (t p).pid = q → (t p).state ≠ .UNUSED → (t p).parent = some i
  | _ => True

instance (i : Slot) (t : Table) : (pc : Pc) → Decidable (OwnChildren i t pc)
  | .waiting (.waitForProcess q) => inferInstanceAs (Decidable ((t i).killed = false →
      (∀ p, (t p).pid = q → (t p).state ≠ .ZOMBIE) →
      ∀ p, (t p).pid = q → (t p).state ≠ .UNUSED → (t p).parent = some i))
  | .waiting .wait | .user | .fork | .kstack _ | .copyuvm _ | .parent _ | .runnable _ | .exit
  | .kill _ => inferInstanceAs (Decidable True)

def ForOwnChildren (s : State n) (l : Fin n × Act) : Prop :=
  ∀ i, s.cpu l.1 = .run i → OwnChildren i s.proc (s.thread i).pc

instance (s : State n) (l : Fin n × Act) : Decidable (ForOwnChildren s l) :=
  inferInstanceAs (Decidable (∀ i, s.cpu l.1 = .run i → OwnChildren i s.proc (s.thread i).pc))

/-- The processes a sleeping `waitForProcess` waits for are living children
of its caller. -/
def AwaitsChildren (s : State n) : Prop :=
  ∀ i q, (s.proc i).state = .SLEEPING → (s.thread i).pc = .waiting (.waitForProcess q) →
    ∀ b ∈ (s.thread i).awaited, ∃ p, (s.proc p).birth = b ∧ (s.proc p).state ≠ .UNUSED ∧
      (s.proc p).state ≠ .ZOMBIE ∧ (s.proc p).parent = some i

theorem child_used (h : Coherent s) (m : Move s l s' o) {i p : Slot}
    (hu : (s.proc p).state ≠ .UNUSED) (hz : (s.proc p).state ≠ .ZOMBIE)
    (hp : (s.proc p).parent = some i) : (s'.proc p).state ≠ .UNUSED := by
  cases state_change m p with
  | same hsame => rw [hsame]; exact hu
  | alloc old | reaped old => contradiction
  | forkFail j pc =>
    rw [forking_owner h (by tauto : (s.thread j).pc = .kstack p ∨ _ ∨ _)] at hp
    cases hp
  | dispatch old new | woken old new => rw [new]; decide
  | runnable j pc back new => rw [new]; decide
  | leave k run off new => rcases new with new | new <;> rw [new] <;> decide
  | exit k run off notinit pc new => rw [new]; decide

theorem awaits_children_move (h : Coherent s) (hc : OwnChannel s) (ha : AwaitsChildren s)
    (hg : ForOwnChildren s l) (m : Move s l s' o) : AwaitsChildren s' := by
  intro i q hs' hpc' b hb
  cases sleeper_change h m hs' hpc' with
  | old state thread =>
    rw [thread] at hb hpc'
    obtain ⟨p,hbirth,hu,hz,hp⟩ := ha i q state hpc' b hb
    have hp' := child_kept h m state hz hp
    exact ⟨p,by rw [birth_kept m hu, hbirth],child_used h m hu hz hp,
      child_living h hc m state hpc' hs' (fun _ => hz) hp',hp'⟩
  | new ok go run pc alive exist living proc thread =>
    rw [thread] at hb
    simp only [awaitedBy, List.mem_map, List.mem_filter, decide_eq_true_eq] at hb
    obtain ⟨p,⟨-,hpid,hu⟩,hbirth⟩ := hb
    have hown := hg i run
    rw [pc] at hown
    have hp := hown alive living p hpid hu
    have hpi : p ≠ i := by
      rintro rfl
      exact h.parentOther hp
    refine ⟨p,?_⟩
    rw [proc]
    simpa [hpi, hbirth, hu, hp] using living p hpid

theorem awaits_children_run {tr : List Obs} (h : Run (machine n) ForOwnChildren tr s) :
    AwaitsChildren s :=
  run_invariant (fun _ s => AwaitsChildren s) (fun i _ hs => absurd hs (boot_awake i))
    (fun _ _ _ _ _ hr ha hg hn =>
      awaits_children_move (coherent_run hr) (own_channel_run hr) ha hg (step_cases hn)) h

theorem exit_wakes_waiters (h : Coherent s) (hi : Identified s) (hc : OwnChannel s)
    (ha : AwaitsChildren s) (m : Move s l s' o) {c : ℕ} {g : Option ℕ} (hx : .exited c g ∈ o)
    {i : Slot} {q : Pid} (hs : (s.proc i).state = .SLEEPING)
    (hpc : (s.thread i).pc = .waiting (.waitForProcess q)) (hb : c ∈ (s.thread i).awaited) :
    (s'.proc i).state = .RUNNABLE := by
  obtain ⟨p,hbirth,hu,hz,hp⟩ := ha i q hs hpc c hb
  obtain ⟨j,run,hj,hdead,-⟩ := exited_seen m hx
  have hpj : p = j := same_process hi hu (by rw [hbirth, hj])
  subst hpj
  refine sleeper_woken h m hs (fun hs' => ?_)
  rcases zombie_change m hdead with hold | ⟨-,wakes⟩
  · exact hz hold
  · exact wakes i hs' (by rw [hc i _ hs hpc, hp]; rfl)

/-- If `waitForProcess` only ever sleeps for children of its caller, no exit
it waits for is lost. -/
theorem exit_reported_to_waiters (n : ℕ) (tr : List Obs) (s : State n)
    (h : Run (machine n) ForOwnChildren tr s) :
    (∀ i q, (s.proc i).state = .SLEEPING → (s.thread i).pc = .waiting (.waitForProcess q) →
      ∀ b ∈ (s.thread i).awaited, ∃ p, (s.proc p).birth = b ∧
        (s.proc p).state ≠ .ZOMBIE ∧ (s.proc p).state ≠ .UNUSED) ∧
    ∀ l s' o c g, step s l = some (s',o) → .exited c g ∈ o →
      ∀ i q, (s.proc i).state = .SLEEPING → (s.thread i).pc = .waiting (.waitForProcess q) →
        c ∈ (s.thread i).awaited → (s'.proc i).state = .RUNNABLE := by
  have ha := awaits_children_run h
  constructor
  · intro i q hs hpc b hb
    obtain ⟨p,hbirth,hu,hz,-⟩ := ha i q hs hpc b hb
    exact ⟨p,hbirth,hz,hu⟩
  · intro l s' o c g hstep hx i q hs hpc hb
    exact exit_wakes_waiters (coherent_run h) (identified_run h) (own_channel_run h) ha
      (step_cases hstep) hx hs hpc hb

def strangerWaits : List (Fin 1 × Act) :=
  solo (initSteps ++ forkSteps ++ forkSteps ++
    [.yield, .sched, .go true, .yield, .sched, .go true,
      .call (.waitForProcess 2), .go true, .sched, .sched, .sched, .go true,
      .yield, .sched, .go true, .call .exit, .go true, .sched])

/-- The first child is a zombie while the second sleeps on, the lock free. -/
theorem exit_lost_by_stranger : ∃ s : State 1, Reachable (machine 1) s ∧ s.lock = none ∧
    (s.proc 2).state = .SLEEPING ∧ (s.thread 2).pc = .waiting (.waitForProcess 2) ∧
    2 ∈ (s.thread 2).awaited ∧ (s.proc 1).birth = 2 ∧ (s.proc 1).state = .ZOMBIE := by
  obtain ⟨o,s,hr,hp⟩ := exec_reaches (S := machine 1) (G := fun _ _ => True) strangerWaits
    (fun s _ => s.lock = none ∧ (s.proc 2).state = .SLEEPING ∧
      (s.thread 2).pc = .waiting (.waitForProcess 2) ∧ 2 ∈ (s.thread 2).awaited ∧
      (s.proc 1).birth = 2 ∧ (s.proc 1).state = .ZOMBIE) (by decide +kernel)
  exact ⟨s,⟨o,hr⟩,hp⟩

def parentWaits : List (Fin 1 × Act) :=
  solo (initSteps ++ forkSteps ++
    [.call (.waitForProcess 2), .go true, .sched, .go true, .call .exit])

theorem exit_reported_to_init : ∃ (s s' : State 1) (o : List Obs),
    (s.proc 0).state = .SLEEPING ∧ (s.thread 0).pc = .waiting (.waitForProcess 2) ∧
    2 ∈ (s.thread 0).awaited ∧ step s (0,.go true) = some (s',o) ∧ .exited 2 (some 1) ∈ o ∧
    (∃ p, (s.proc p).birth = 2 ∧ (s.proc p).state ≠ .ZOMBIE ∧ (s.proc p).state ≠ .UNUSED) ∧
    (s'.proc 0).state = .RUNNABLE := by
  obtain ⟨tr,s,hr,hp⟩ := exec_reaches (S := machine 1) (G := ForOwnChildren) parentWaits
    (fun s _ => (s.proc 0).state = .SLEEPING ∧ (s.thread 0).pc = .waiting (.waitForProcess 2) ∧
      2 ∈ (s.thread 0).awaited ∧
      (step s (0,.go true)).any (fun r => .exited 2 (some 1) ∈ r.2)) (by decide +kernel)
  obtain ⟨hs,hpc,hb,hstep⟩ := hp
  obtain ⟨⟨s',o⟩,hstep,hx⟩ := (Option.any_eq_true _ _).mp hstep
  simp only [decide_eq_true_eq] at hx
  obtain ⟨hliving,hwakes⟩ := exit_reported_to_waiters 1 tr s hr
  exact ⟨s,s',o,hs,hpc,hb,hstep,hx,hliving 0 2 hs hpc 2 hb,
    hwakes (0,.go true) s' o 2 (some 1) hstep hx 0 2 hs hpc hb⟩

end Xv6.WaitForProcess

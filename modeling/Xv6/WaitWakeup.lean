import Xv6.ProcInvariant

/-!
# Sleep and wakeup in wait

A process asleep in `wait` or `waitForProcess` sleeps on its own slot. In
`wait` it has a living child for as long as it stays asleep: the exit that
would leave it with a zombie, its own or one inherited by init, wakes it in
the same stretch under the lock, and a zombie is never reaped before that.
-/

set_option autoImplicit false

namespace Xv6.WaitWakeup
open ProcTable ProcMachine TransitionSystem ProcStep ProcEffect
open ProcInvariant

variable {n : ℕ} {s s' : State n} {l : Fin n × Act} {o : List Obs}

def OwnChannel (s : State n) : Prop :=
  ∀ i w, (s.proc i).state = .SLEEPING → (s.thread i).pc = .waiting w →
    (s.proc i).chan = some (.proc i)

theorem own_channel_move (h : Coherent s) (hc : OwnChannel s) (m : Move s l s' o) :
    OwnChannel s' := by
  intro i w hs hpc
  cases sleeper_change h m hs hpc with
  | old state thread chan => rw [chan]; exact hc i w state (thread ▸ hpc)
  | new ok go run pc alive exist living proc => rw [proc]; simp

theorem own_channel_run {G : State n → Fin n × Act → Prop} {tr : List Obs}
    (h : Run (machine n) G tr s) : OwnChannel s :=
  run_invariant (fun _ s => OwnChannel s) (fun i _ hs => absurd hs (boot_awake i))
    (fun _ _ _ _ _ hr hc _ hn => own_channel_move (coherent_run hr) hc (step_cases hn)) h

structure Waits (s : State n) (i : Slot) : Prop where
  alive : (s.proc i).killed = false
  child : ∃ p, (s.proc p).parent = some i
  living : ∀ p, (s.proc p).parent = some i → (s.proc p).state ≠ .ZOMBIE

def WaitersWait (s : State n) : Prop :=
  ∀ i, (s.proc i).state = .SLEEPING → (s.thread i).pc = .waiting .wait → Waits s i

theorem child_kept (h : Coherent s) (m : Move s l s' o) {i p : Slot}
    (hs : (s.proc i).state = .SLEEPING) (hz : (s.proc p).state ≠ .ZOMBIE)
    (hp : (s.proc p).parent = some i) : (s'.proc p).parent = some i := by
  cases parent_change m p with
  | same hsame => rw [hsame, hp]
  | fork j pc =>
    rw [forking_owner h (.inr (.inr pc))] at hp
    cases hp
  | passed j run pc old =>
    rw [hp] at old
    cases old
    rw [h.running run] at hs
    cases hs
  | reaped old => exact absurd old hz

theorem child_living (h : Coherent s) (hc : OwnChannel s) (m : Move s l s' o) {i p : Slot}
    {w : WaitCall} (hs : (s.proc i).state = .SLEEPING) (hpc : (s.thread i).pc = .waiting w)
    (hs' : (s'.proc i).state = .SLEEPING)
    (hliving : (s.proc p).parent = some i → (s.proc p).state ≠ .ZOMBIE)
    (hp : (s'.proc p).parent = some i) : (s'.proc p).state ≠ .ZOMBIE := by
  intro hz
  have hchan := hc i w hs hpc
  have hexit := zombie_change m hz
  cases parent_change m p with
  | same hsame =>
    rw [hsame] at hp
    rcases hexit with hold | ⟨-,wakes⟩
    · exact hliving hp hold
    · exact wakes i hs' (by rw [hchan, hp]; rfl)
  | fork j pc next new =>
    rw [hp] at new
    cases new
    rw [hpc] at pc
    cases pc
  | passed j run pc old new wakes =>
    rw [hp] at new
    cases new
    rcases hexit with hold | ⟨run',-⟩
    · exact wakes hold _ hs' hchan
    · rw [run] at run'
      cases run'
      exact h.parentOther old
  | reaped old gone => rw [gone] at hz; cases hz

theorem waiters_wait_move (h : Coherent s) (hc : OwnChannel s) (hw : WaitersWait s)
    (m : Move s l s' o) : WaitersWait s' := by
  intro i hs' hpc'
  cases sleeper_change h m hs' hpc' with
  | old state thread chan killed =>
    have hpc : (s.thread i).pc = .waiting .wait := thread ▸ hpc'
    have hold := hw i state hpc
    refine ⟨by rw [killed, hold.alive],?_,?_⟩
    · obtain ⟨p,hp⟩ := hold.child
      exact ⟨p,child_kept h m state (hold.living p hp) hp⟩
    · intro p hp
      exact child_living h hc m state hpc hs' (hold.living p) hp
  | new ok go run pc alive exist living proc =>
    refine ⟨by simpa [proc] using alive,by simpa [proc, Matches] using exist,?_⟩
    intro p hp hz
    have hparent : (s.proc p).parent = some i := by simpa [proc] using hp
    by_cases hpi : p = i
    · subst hpi
      exact h.parentOther hparent
    · exact living p hparent (by simpa [proc, hpi] using hz)

theorem waiters_wait_run {G : State n → Fin n × Act → Prop} {tr : List Obs}
    (h : Run (machine n) G tr s) : WaitersWait s :=
  run_invariant (fun _ s => WaitersWait s) (fun i hs => absurd hs (boot_awake i))
    (fun _ _ _ _ _ hr hw _ hn =>
      waiters_wait_move (coherent_run hr) (own_channel_run hr) hw (step_cases hn)) h

/-- No wakeup of `wait` is lost, whether the lock is free or not. -/
theorem wait_has_living_child (n : ℕ) (s : State n) (h : Reachable (machine n) s) (i : Slot)
    (hs : (s.proc i).state = .SLEEPING) (hpc : (s.thread i).pc = .waiting .wait) :
    (s.proc i).killed = false ∧ (∃ p, (s.proc p).parent = some i) ∧
      ∀ p, (s.proc p).parent = some i → (s.proc p).state ≠ .ZOMBIE := by
  obtain ⟨tr,hr⟩ := h
  obtain ⟨alive,child,living⟩ := waiters_wait_run hr i hs hpc
  exact ⟨alive,child,living⟩

def initWaits : List (Fin 1 × Act) :=
  solo (initSteps ++ forkSteps ++ [.call .wait, .go true, .sched, .go true])

theorem wait_has_living_child_init : ∃ s : State 1, Reachable (machine 1) s ∧ s.lock = none ∧
    (s.proc 0).state = .SLEEPING ∧ (s.thread 0).pc = .waiting .wait ∧
    (s.proc 0).killed = false ∧ (∃ p, (s.proc p).parent = some 0) ∧
      ∀ p, (s.proc p).parent = some 0 → (s.proc p).state ≠ .ZOMBIE := by
  obtain ⟨o,s,hr,hp⟩ := exec_reaches (S := machine 1) (G := fun _ _ => True) initWaits
    (fun s _ => s.lock = none ∧ (s.proc 0).state = .SLEEPING ∧
      (s.thread 0).pc = .waiting .wait) (by decide +kernel)
  obtain ⟨hfree,hs,hpc⟩ := hp
  exact ⟨s,⟨o,hr⟩,hfree,hs,hpc,wait_has_living_child 1 s ⟨o,hr⟩ 0 hs hpc⟩

end Xv6.WaitWakeup

import Xv6.ProcInvariant

/-!
# The table lock and the running processes

The lock passes from a process through `sched()` to the scheduler loop of its
CPU and on to the next process. A CPU in its scheduler loop or behind a
switch holds it, and while it does no other CPU changes a process's state,
except for a fork that gives up its own slot.
-/

set_option autoImplicit false

namespace Xv6.ProcDispatch
open ProcTable ProcMachine TransitionSystem ProcStep ProcEffect
open ProcInvariant

variable {n : ℕ} {s s' : State n} {l : Fin n × Act} {o : List Obs}

/-- A CPU between two slots of its scheduler loop, or in a thread that has not
yet moved on from where it was switched in. -/
def Holds (s : State n) (c : Fin n) : Prop :=
  (∃ k, s.cpu c = .scan k) ∨ ∃ i, s.cpu c = .run i ∧ (s.thread i).sw ≠ none

def Locked (s : State n) : Prop := ∀ c, Holds s c → s.lock = some c

variable {c : Fin n} {G : State n → Fin n × Act → Prop} {i : Slot}

theorem scan_holds {k : ℕ} (h : s.cpu c = .scan k) : Holds s c := .inl ⟨k,h⟩

theorem switched_holds {sw : Switch} (run : s.cpu c = .run i)
    (h : (s.thread i).sw = some sw) : Holds s c :=
  .inr ⟨i,run,by rw [h]; simp⟩

theorem entered_lock (hl : Locked s) (run : s.cpu c = .run i)
    (h : Entered s i) : s.lock = none ∨ s.lock = some c := by
  rcases h with ⟨-,free⟩ | hsw
  · exact .inl free
  · exact .inr (hl c (switched_holds run hsw))

theorem other_cpu (m : Move s l s' o) (hc : c ≠ l.1) : s'.cpu c = s.cpu c := by
  cases m with
  | acquire | dispatch | release | waitSleep | exit | yield | sleep =>
    exact Function.update_of_ne hc _ _
  | _ => rfl

theorem own_cpu (m : Move s l s' o) (run : s.cpu l.1 = .run i) :
    s'.cpu l.1 = .run i ∨ s'.cpu l.1 = .scan (i.val+1) := by
  cases m with
  | acquire idle => rw [idle] at run; cases run
  | dispatch scan | release scan => rw [scan] at run; cases run
  | waitSleep run' | yield run' | sleep run' | exit run' =>
    rw [run'] at run
    cases run
    exact .inr (by simp)
  | _ => exact .inl run

def Off (x : ProcState) : Prop := x = .SLEEPING ∨ x = .RUNNABLE ∨ x = .ZOMBIE

theorem off_running {x : ProcState} (h : Off x) : x ≠ .RUNNING := by
  rcases h with rfl | rfl | rfl <;> decide

theorem cpu_leaves (m : Move s l s' o) {p : Slot} (run : s.cpu c = .run p) :
    s'.cpu c = .run p ∨ (c = l.1 ∧ Off (s'.proc p).state) := by
  by_cases hc : c = l.1
  · subst hc
    cases m with
    | acquire idle => rw [idle] at run; cases run
    | dispatch scan | release scan => rw [scan] at run; cases run
    | waitSleep run' | yield run' | sleep run' =>
      rw [run'] at run
      cases run
      exact .inr ⟨rfl,by simp [Off]⟩
    | exit run' =>
      rw [run'] at run
      cases run
      exact .inr ⟨rfl,by simp [Off, exit_state_self]⟩
    | _ => exact .inl run
  · exact .inl ((other_cpu m hc).trans run)

theorem thread_kept (h : Coherent s) (m : Move s l s' o)
    (run : s.cpu c = .run i) (hc : c ≠ l.1) : s'.thread i = s.thread i := by
  have hactor : ∀ {j}, s.cpu l.1 = .run j → i ≠ j := by
    rintro j hj rfl
    exact hc (h.unique run hj)
  cases m with
  | acquire | dispatch | release | wakeup => rfl
  | @kstack c' j np ok run' on pc =>
    have hn : i ≠ np := by
      rintro rfl
      have he := h.embryo (forking_at pc rfl)
      rw [h.running run] at he
      cases he
    simp [hactor run', hn]
  | resume chan run' | reaped chan run' | failed chan run' | waitSleep run' | stay pc o run'
    | alloc run' | copied run' | forkFail run' | setParent run' | runnable run' | exit run'
    | kill run' | fault run' | yield run' | sleep run' => simp [hactor run']

theorem other_thread (m : Move s l s' o) {i j : Slot} (run : s.cpu l.1 = .run i) (hj : j ≠ i) :
    s'.thread j = s.thread j ∨ (s'.thread j = newThread ∧ (s.thread i).pc = .kstack j) := by
  have hi : ∀ {k}, s.cpu l.1 = .run k → j ≠ k := by
    intro k hk
    rw [run] at hk
    cases hk
    exact hj
  cases m with
  | acquire | dispatch | release | wakeup => exact .inl rfl
  | @kstack c k np ok run' on pc =>
    rw [run] at run'
    cases run'
    by_cases hn : j = np
    · subst hn
      exact .inr ⟨by simp [hj],pc⟩
    · exact .inl (by simp [hj, hn])
  | resume chan run' | reaped chan run' | failed chan run' | waitSleep run' | stay pc o run'
    | alloc run' | copied run' | forkFail run' | setParent run' | runnable run' | exit run'
    | kill run' | fault run' | yield run' | sleep run' => exact .inl (by simp [hi run'])

theorem lock_kept (hl : Locked s) (m : Move s l s' o) (held : s.lock = some c)
    (hc : c ≠ l.1) : s'.lock = some c := by
  have hfree : s.lock ≠ none := by rw [held]; simp
  have hother : ∀ {d}, s.lock = some d → d = c := fun hd => Option.some.inj (hd.symm.trans held)
  cases m with
  | acquire idle free => exact absurd free hfree
  | dispatch | stay | alloc | kstack | copied | forkFail | setParent | runnable | kill | fault
    | wakeup => exact held
  | release scan => exact absurd (hother (hl _ (scan_holds scan))).symm hc
  | resume chan run switched => exact absurd (hother (hl _ (switched_holds run switched))).symm hc
  | reaped chan run pc entered | failed chan run pc entered =>
    rcases entered_lock hl run entered with hn | hs
    · exact absurd hn hfree
    · exact absurd (hother hs).symm hc
  | waitSleep run pc entered =>
    rcases entered_lock hl run entered with hn | hs
    · exact absurd hn hfree
    · exact absurd (hother hs).symm hc
  | exit run on pc free | yield run on free | sleep run on free => exact absurd free hfree

theorem own_lock (hl : Locked s) (m : Move s l s' o) (hh : Holds s' l.1) :
    s'.lock = some l.1 := by
  have hself : ∀ {i} {th : Thread}, s.cpu l.1 = .run i → s'.cpu = s.cpu → s'.thread i = th →
      th.sw = none → False := by
    intro i th hi hcpu hth hsw
    rcases hh with ⟨k,hk⟩ | ⟨j,hj,hne⟩
    · rw [hcpu, hi] at hk
      cases hk
    · rw [hcpu, hi] at hj
      cases hj
      exact hne (by rw [hth, hsw])
  cases m with
  | acquire | waitSleep | exit | yield | sleep => rfl
  | dispatch scan => exact hl _ (scan_holds scan)
  | release scan =>
    rcases hh with ⟨k,hk⟩ | ⟨i,hi,-⟩
    · simp at hk
    · simp at hi
  | wakeup free =>
    have held := hl _ hh
    rw [free] at held
    cases held
  | resume chan run | reaped chan run | failed chan run | stay pc o run | alloc run | copied run
    | kstack run | forkFail run | setParent run | runnable run | kill run | fault run =>
    exact (hself run rfl (Function.update_self _ _ _) rfl).elim

theorem locked_move (h : Coherent s) (hl : Locked s) (m : Move s l s' o) : Locked s' := by
  intro c hh
  by_cases hc : c = l.1
  · subst hc
    exact own_lock hl m hh
  · have hcpu := other_cpu m hc
    refine lock_kept hl m (hl c ?_) hc
    rcases hh with ⟨k,hk⟩ | ⟨i,hi,hsw⟩
    · exact .inl ⟨k,by rw [← hcpu, hk]⟩
    · rw [hcpu] at hi
      rw [thread_kept h m hi hc] at hsw
      exact .inr ⟨i,hi,hsw⟩

theorem locked_run {tr : List Obs}
    (h : Run (machine n) G tr s) : Locked s := by
  refine run_invariant (fun _ s => Locked s) ?_ ?_ h
  · rintro c (⟨k,hk⟩ | ⟨i,hi,-⟩)
    · cases hk
    · cases hi
  · intro _ _ _ _ _ hr hl _ hn
    exact locked_move (coherent_run hr) hl (step_cases hn)

theorem state_frozen (h : Coherent s) (hl : Locked s) (m : Move s l s' o)
    (held : s.lock = some c) (hc : c ≠ l.1) (p : Slot) :
    (s'.proc p).state = (s.proc p).state ∨
      ((s.proc p).state = .EMBRYO ∧ (s'.proc p).state = .UNUSED) := by
  have hfree : s.lock ≠ none := by rw [held]; simp
  have hother : ∀ {d}, s.lock = some d → d = c := fun hd => Option.some.inj (hd.symm.trans held)
  cases m with
  | stay | kstack | copied => exact .inl rfl
  | setParent | fault | failed | resume => exact .inl (by simp)
  | @forkFail c' i np run on pc =>
    by_cases hp : p = np
    · subst hp
      exact .inr ⟨h.embryo (forking_early pc),by simp⟩
    · exact .inl (by simp [hp])
  | acquire idle free => exact absurd free hfree
  | wakeup free => exact absurd free hfree
  | dispatch scan | release scan => exact absurd (hother (hl _ (scan_holds scan))).symm hc
  | reaped chan run pc entered =>
    rcases entered_lock hl run entered with hn | hs
    · exact absurd hn hfree
    · exact absurd (hother hs).symm hc
  | waitSleep run pc entered =>
    rcases entered_lock hl run entered with hn | hs
    · exact absurd hn hfree
    · exact absurd (hother hs).symm hc
  | alloc run on pc free | runnable run on pc free | exit run on pc free | kill run on pc free
    | yield run on free | sleep run on free => exact absurd free hfree

theorem running_change (m : Move s l s' o) {p : Slot} (hp : (s'.proc p).state = .RUNNING) :
    (s.proc p).state = .RUNNING ∨ s'.cpu l.1 = .run p := by
  cases m with
  | acquire | release | stay | kstack | copied => exact .inl hp
  | resume | failed | setParent | fault => exact .inl (by simpa using hp)
  | @dispatch c k q scan ready =>
    by_cases hq : p = q
    · subst hq; exact .inr (by simp)
    · exact .inl (by simpa [hq] using hp)
  | @wakeup c x =>
    rcases wakeup1_woken (some (.other x)) s.proc p with h | ⟨-,h⟩
    · exact .inl (h.symm.trans hp)
    · exact absurd (h.symm.trans hp) (by decide)
  | @exit c i =>
    by_cases hi : p = i
    · subst hi; simp [exit_state_self] at hp
    · rcases exit_state_other i s.initproc s.proc p hi with h | ⟨-,h⟩
      · exact .inl (h.symm.trans hp)
      · exact absurd (h.symm.trans hp) (by decide)
  | @kill c i q =>
    by_cases hq : p = q ∧ (s.proc q).state = .SLEEPING
    · simp [hq] at hp
    · exact .inl (by simpa [hq] using hp)
  | @reaped c i q | @alloc c i q | @forkFail c i q | @runnable c i q =>
    by_cases hq : p = q
    · subst hq; simp at hp
    · exact .inl (by simpa [hq] using hp)
  | @waitSleep c q | @yield c q | @sleep c q =>
    by_cases hq : p = q
    · subst hq; simp at hp
    · exact .inl (by simpa [hq] using hp)

def RunsSomewhere (s : State n) : Prop :=
  ∀ p, (s.proc p).state = .RUNNING → ∃ c, s.cpu c = .run p

theorem runs_somewhere_move (hr : RunsSomewhere s) (m : Move s l s' o) : RunsSomewhere s' := by
  intro p hp
  rcases running_change m hp with hold | hnew
  · obtain ⟨c,hc⟩ := hr p hold
    rcases cpu_leaves m hc with hkept | ⟨-,hleft⟩
    · exact ⟨c,hkept⟩
    · exact absurd hp (off_running hleft)
  · exact ⟨l.1,hnew⟩

theorem runs_somewhere_run {tr : List Obs}
    (h : Run (machine n) G tr s) : RunsSomewhere s := by
  refine run_invariant (fun _ s => RunsSomewhere s) ?_ ?_ h
  · intro p hp
    simp only [machine] at hp
    rcases boot_proc (n := n) p with ⟨-,hb⟩ | ⟨-,hb⟩ <;> rw [hb] at hp <;> cases hp
  · exact fun _ _ _ _ _ _ hr _ hn => runs_somewhere_move hr (step_cases hn)

end Xv6.ProcDispatch

import Xv6.SleepLocks
import Xv6.WaitCode

/-!
# Kills and sleeping threads

`kill` wakes a thread that is asleep. A thread that has found `killed` clear
and has not yet written its state in `sleep` is not asleep and is not woken;
it goes to sleep with `killed` set. As long as no kill falls in that window,
no thread sleeps in one of the waits with `killed` set.
-/

set_option autoImplicit false

namespace Xv6.KillWindow
open ProcTable TransitionSystem SleepMachine SleepLocks

section Rule
variable {ι L κ σ α β ω : Type}

/-- An instruction agrees with the points `W` between a test that found
`killed` clear and the call of `sleep`. -/
def InstrWindow (W : α → Prop) (x : α) : Instr ι L κ σ α β ω → Prop
  | .step f => ∀ d m b m' y e, f d m b = some (m',y,e) → W y → d = false
  | .sleep _ _ y => W x ∧ ¬ W y
  | .acquire _ y | .release _ y | .wakeup _ y | .wakeup1 _ y | .kill _ y => W y → W x

theorem lift_window {L' κ' σ' α' β' ω' : Type} {e : Part L κ σ α β ω L' κ' σ' α' β' ω'}
    {W : α → Prop} {W' : α' → Prop} (hW : ∀ y, W' (e.point y) → W y) {x : α} {x' : α'}
    (hx : W x → W' x') {i : Instr ι L κ σ α β ω} (h : InstrWindow W x i) :
    InstrWindow W' x' (i.lift e) := by
  cases i with
  | step f =>
    intro d m b m' y o hf hy
    simp only at hf
    split at hf
    · obtain ⟨⟨v,z,u⟩,hv,heq⟩ := Option.map_eq_some_iff.mp hf
      cases heq
      exact h d _ _ v z u hv (hW z hy)
    · cases hf
  | sleep c k y => exact ⟨hx h.1,fun hy => h.2 (hW y hy)⟩
  | acquire k y | release k y | wakeup k y | wakeup1 k y | kill k y =>
    exact fun hy => hx (h (hW y hy))

/-- A thread between a test that found `killed` clear and the write of its
state in `sleep`. -/
def Window (W : α → Prop) : Place ι L κ α → Prop
  | .code x => W x
  | .waking _ y | .wake _ y | .killing _ y | .kill _ y | .table y => W y
  | .enter _ _ _ | .drop _ _ _ | .mark _ _ _ => True
  | .sched _ _ _ | .off _ _ _ | .back _ _ _ | .tidy _ _ _ | .retake _ _ _ => False

instance (W : α → Prop) [DecidablePred W] : DecidablePred (Window (ι := ι) (L := L) (κ := κ) W)
  | .code x => inferInstanceAs (Decidable (W x))
  | .waking _ y | .wake _ y | .killing _ y | .kill _ y | .table y => inferInstanceAs (Decidable (W y))
  | .enter _ _ _ | .drop _ _ _ | .mark _ _ _ => inferInstanceAs (Decidable True)
  | .sched _ _ _ | .off _ _ _ | .back _ _ _ | .tidy _ _ _ | .retake _ _ _ =>
    inferInstanceAs (Decidable False)

def Spares (W : α → Prop) (s : State ι L κ σ α) : Place ι L κ α → Prop
  | .kill q _ => ¬ Window W (s.place q)
  | _ => True

instance (W : α → Prop) [DecidablePred W] (s : State ι L κ σ α) : DecidablePred (Spares W s)
  | .kill q _ => inferInstanceAs (Decidable (¬ Window W (s.place q)))
  | .code _ | .enter _ _ _ | .drop _ _ _ | .mark _ _ _ | .sched _ _ _ | .off _ _ _ | .back _ _ _
  | .tidy _ _ _ | .retake _ _ _ | .waking _ _ | .wake _ _ | .killing _ _ | .table _ =>
    inferInstanceAs (Decidable True)

/-- No step of `kill` sets `killed` for a thread in its window. -/
def KillsOutside (W : α → Prop) (s : State ι L κ σ α) : Label ι β → Prop
  | .thread p _ => Spares W s (s.place p)
  | _ => True

instance (W : α → Prop) [DecidablePred W] (s : State ι L κ σ α) :
    DecidablePred (KillsOutside (β := β) W s)
  | .thread p _ => inferInstanceAs (Decidable (Spares W s (s.place p)))
  | .take | .give _ | .idle => inferInstanceAs (Decidable True)

variable {C : Client ι L κ σ α β ω} {W : α → Prop} {s s' : State ι L κ σ α} {l : Label ι β}
  {o : List (Event ι κ ω)}

theorem window_arc (hW : ∀ p x, InstrWindow W x (C.prog p x)) {p : ι} {d : Bool} {m : σ}
    {x y : Place ι L κ α} (arc : Arc C p d m x y o) (hcall : Called C p x) (h : Window W y) :
    Window W x ∨ d = false := by
  have hsleep : ∀ {c k y}, (∃ z, C.prog p z = .sleep c k y) → ¬ W y := by
    rintro c k y ⟨z,hz⟩
    have hi := hW p z
    rw [hz] at hi
    exact hi.2
  cases arc with
  | take arc =>
    cases arc with
    | @code x y k prog =>
      have hi := hW p x
      rw [prog] at hi
      exact .inl (hi h)
    | enter => exact .inl trivial
    | retake => exact absurd h (hsleep hcall)
    | waking | killing => exact .inl h
  | drop arc =>
    cases arc with
    | @code x y k prog =>
      have hi := hW p x
      rw [prog] at hi
      exact .inl (hi h)
    | drop => exact .inl trivial
    | tidy => exact h.elim
    | table => exact .inl h
  | go arc =>
    cases arc with
    | @sleep x y c k prog =>
      have hi := hW p x
      rw [prog] at hi
      exact .inl hi.1
    | @wakeup x y c prog =>
      have hi := hW p x
      rw [prog] at hi
      exact .inl (hi h)
    | @kill x y q prog =>
      have hi := hW p x
      rw [prog] at hi
      exact .inl (hi h)
    | enter => exact .inl trivial
    | tidy => exact absurd h (hsleep hcall)
  | @step x y f m' b e prog next =>
    have hi := hW p x
    rw [prog] at hi
    exact .inr (hi _ _ _ _ _ _ next h)
  | mark | sched | give | back => exact h.elim
  | wake arc =>
    cases arc with
    | @code x y c prog =>
      have hi := hW p x
      rw [prog] at hi
      exact .inl (hi h)
    | wake => exact .inl h
  | kill => exact .inl h

def Spared (W : α → Prop) (s : State ι L κ σ α) : Prop :=
  ∀ p, Window W (s.place p) ∨ s.state p = .SLEEPING → s.killed p = false

variable [DecidableEq L] [DecidableEq ι] [DecidableEq κ]

theorem killed_turn (m : Turn C s l s' o) : s'.killed = s.killed ∨
    ∃ p b q y, l = .thread p b ∧ s.place p = .kill q y ∧ s' = (s.kill q).at p (.table y) := by
  cases m with
  | @kill p q b y here => exact .inr ⟨p,b,q,y,rfl,here,rfl⟩
  | _ => exact .inl rfl

theorem spared_turn (hW : ∀ p x, InstrWindow W x (C.prog p x))
    (hcall : ∀ p, Called C p (s.place p)) (h : Spared W s) (hg : KillsOutside W s l)
    (m : Turn C s l s' o) : Spared W s' := by
  intro p hp
  have hold : (Window W (s.place p) ∨ s.state p = .SLEEPING) ∨ s.killed p = false := by
    rcases hp with hw | hs
    · by_cases hact : actor l = some p
      · rcases window_arc hW (place_turn m hact) (hcall p) hw with hw' | hk
        · exact .inl (.inl hw')
        · exact .inr hk
      · rw [other_place m hact] at hw
        exact .inl (.inl hw)
    · rcases sleeping_turn m hs with hs' | ⟨c,k,y,hmark⟩
      · exact .inl (.inr hs')
      · exact .inl (.inl (by rw [hmark]; trivial))
  have hclear : s.killed p = false := hold.elim (h p) id
  rcases killed_turn m with hk | ⟨a,b,q,y,rfl,here,rfl⟩
  · rw [hk, hclear]
  · have hout : ¬ Window W (s.place q) := by
      simpa only [KillsOutside, Spares, here] using hg
    have hpq : p ≠ q := by
      rintro rfl
      rcases hp with hw | hs
      · apply hout
        by_cases hpa : p = a
        · subst hpa
          rw [here]
          simpa [Window] using hw
        · simpa [hpa] using hw
      · exact (kill_sleeping s p hs).2 rfl
    simpa [hpq] using hclear

theorem spared_run (hW : ∀ p x, InstrWindow W x (C.prog p x)) {tr : List (Event ι κ ω)}
    (h : Run (machine C) (KillsOutside W) tr s) : Spared W s :=
  run_invariant (fun _ s => Spared W s) (fun _ _ => rfl)
    (fun _ _ _ _ _ hr hs hg hn => spared_turn hW (called_run hr) hs hg (step_turn hn)) h

end Rule

section Waits
open WaitCode
variable {ι : Type}

/-- The points behind the test of `killed` in the four loops. -/
def PipeTested : PipePoint → Prop
  | .writeWake _ _ | .writeSleep _ _ | .readSleep _ => True
  | _ => False

def ConsTested : ConsPoint → Prop
  | .sleep _ _ => True
  | _ => False

def TickTested : TickPoint → Prop
  | .sleep _ _ => True
  | _ => False

def Tested : WaitCode.Point ι → Prop
  | .user | .kill _ => False
  | .pipe _ x => PipeTested x
  | .cons x => ConsTested x
  | .ticks x => TickTested x

theorem pipe_window (x : PipePoint) : InstrWindow PipeTested x (pipeProg (ι := ι) x) := by
  cases x with
  | writeLoop n left =>
    cases left with
    | nil =>
      intro d m b m' y e h
      cases h
      exact False.elim
    | cons c cs =>
      intro d m b m' y e h
      simp only at h
      split at h
      · split at h
        · cases h
          exact False.elim
        · rename_i hk
          exact fun _ => by simpa using (not_or.mp hk).2
      · cases h
        exact False.elim
  | readLoop n =>
    intro d m b m' y e h
    simp only at h
    split at h
    · split at h
      · cases h
        exact False.elim
      · rename_i hk
        exact fun _ => by simpa using hk
    · cases h
      exact False.elim
  | readCopy n i =>
    intro d m b m' y e h
    simp only at h
    split at h <;> cases h <;> exact False.elim
  | closeEnd w =>
    intro d m b m' y e h
    cases h
    exact False.elim
  | ret r =>
    intro d m b m' y e h
    cases h
  | writeSleep | readSleep => exact ⟨trivial,id⟩
  | writeWake => exact id
  | write | writeDone | read | readDone | close | closeWake | exit => exact False.elim

theorem cons_window (x : ConsPoint) : InstrWindow ConsTested x (consProg (ι := ι) x) := by
  cases x with
  | loop target n =>
    cases n with
    | zero =>
      intro d m b m' y e h
      cases h
      exact False.elim
    | succ n =>
      intro d m b m' y e h
      simp only at h
      split at h
      · split at h
        · cases h
          exact False.elim
        · rename_i hk
          exact fun _ => by simpa using hk
      · split at h
        · cases h
          exact False.elim
        · split at h <;> cases h <;> exact False.elim
  | keys =>
    intro d m b m' y e h
    simp only at h
    split at h
    · obtain ⟨q,-,heq⟩ := Option.map_eq_some_iff.mp h
      cases heq
      split <;> exact False.elim
    · cases h
      exact False.elim
  | ret r =>
    intro d m b m' y e h
    cases h
  | sleep => exact ⟨trivial,id⟩
  | read | intr | wake | exit => exact False.elim

theorem tick_window (x : TickPoint) : InstrWindow TickTested x (tickProg (ι := ι) x) := by
  cases x with
  | loop n ticks0 =>
    intro d m b m' y e h
    simp only at h
    split at h
    · split at h
      · cases h
        exact False.elim
      · rename_i hk
        exact fun _ => by simpa using hk
    · cases h
      exact False.elim
  | start | tick =>
    intro d m b m' y e h
    cases h
    exact False.elim
  | ret r =>
    intro d m b m' y e h
    cases h
  | sleep => exact ⟨trivial,id⟩
  | call | timer | wake | exit => exact False.elim

theorem waits_window (x : WaitCode.Point ι) : InstrWindow Tested x (WaitCode.prog x) := by
  cases x with
  | user =>
    intro d m b m' y e h
    obtain ⟨z,hz,heq⟩ := Option.map_eq_some_iff.mp h
    cases heq
    cases b <;> cases hz <;> exact False.elim
  | kill p => exact False.elim
  | pipe i x =>
    refine lift_window (e := pipePart i) (W := PipeTested) ?_ id (pipe_window x)
    intro y hy
    cases y <;> exact hy
  | cons x =>
    refine lift_window (e := consPart) (W := ConsTested) ?_ id (cons_window x)
    intro y hy
    cases y <;> exact hy
  | ticks x =>
    refine lift_window (e := tickPart) (W := TickTested) ?_ id (tick_window x)
    intro y hy
    cases y <;> exact hy

instance : DecidablePred PipeTested
  | .writeWake _ _ | .writeSleep _ _ | .readSleep _ => inferInstanceAs (Decidable True)
  | .write _ | .writeLoop _ _ | .writeDone _ | .read _ | .readLoop _ | .readCopy _ _ | .readDone _
  | .close _ | .closeEnd _ | .closeWake _ | .exit _ | .ret _ => inferInstanceAs (Decidable False)

instance : DecidablePred ConsTested
  | .sleep _ _ => inferInstanceAs (Decidable True)
  | .read _ | .loop _ _ | .intr | .keys | .wake | .exit _ | .ret _ =>
    inferInstanceAs (Decidable False)

instance : DecidablePred TickTested
  | .sleep _ _ => inferInstanceAs (Decidable True)
  | .call _ | .start _ | .loop _ _ | .timer | .tick | .wake | .exit _ | .ret _ =>
    inferInstanceAs (Decidable False)

instance : DecidablePred (Tested (ι := ι))
  | .user | .kill _ => inferInstanceAs (Decidable False)
  | .pipe _ x => inferInstanceAs (Decidable (PipeTested x))
  | .cons x => inferInstanceAs (Decidable (ConsTested x))
  | .ticks x => inferInstanceAs (Decidable (TickTested x))

abbrev Sys (ι : Type) := State ι KernelLock KernelChan Kernel (WaitCode.Point ι)

/-- In every run in which no kill sets `killed` between a thread's test of it
and its write of its state in `sleep`, no thread is asleep in `piperead`,
`pipewrite`, `consoleread` or `sys_sleep` with `killed` set. -/
theorem no_killed_sleeper (ι : Type) [DecidableEq ι] (m : Kernel)
    (tr : List (Event ι KernelChan KernelMark)) (s : Sys ι)
    (h : Run (machine (WaitCode.client m)) (KillsOutside Tested) tr s) (p : ι)
    (hs : s.state p = .SLEEPING) : s.killed p = false :=
  spared_run (fun _ => waits_window) h p (.inr hs)

def quietKernel : Kernel := ⟨fun _ => newPipe (fun _ => 0),ConsoleMachine.blankScreen 0,0⟩

local instance twoThreads : @NeZero ℕ Zero.ofOfNat0 2 := ⟨by decide⟩

def killAside : List (Label (Fin 2) (Choice (Fin 2))) :=
  [.thread 0 (.sleep 1), .thread 0 .go, .thread 0 .go, .thread 0 .go, .thread 0 .go,
    .thread 0 .go, .thread 0 .go, .thread 0 .go, .thread 0 .go, .idle,
    .thread 1 (.kill 1), .thread 1 .go, .thread 1 .go, .thread 1 .go]

theorem sleeper_spared : ∃ (tr : List (Event (Fin 2) KernelChan KernelMark)) (s : Sys (Fin 2)),
    Run (machine (WaitCode.client quietKernel)) (KillsOutside Tested) tr s ∧
    s.state 0 = .SLEEPING ∧ s.killed 1 = true ∧ s.killed 0 = false := by
  obtain ⟨o,s,hr,hp⟩ := exec_reaches (S := machine (WaitCode.client quietKernel))
    (G := KillsOutside Tested) killAside
    (fun s _ => s.state 0 = .SLEEPING ∧ s.killed 1 = true) (by decide +kernel)
  exact ⟨o,s,hr,hp.1,hp.2,no_killed_sleeper (Fin 2) quietKernel o s hr 0 hp.1⟩

def killBeforeSleep : List (Label (Fin 2) (Choice (Fin 2))) :=
  [.thread 0 (.sleep 1), .thread 0 .go, .thread 0 .go, .thread 0 .go,
    .thread 1 (.kill 0), .thread 1 .go, .thread 1 .go, .thread 1 .go, .thread 1 .go,
    .thread 0 .go, .thread 0 .go, .thread 0 .go, .thread 0 .go, .thread 0 .go, .idle]

/-- A thread sleeps in `sys_sleep` with `killed` set and all locks free. -/
theorem killed_sleeper : ∃ (tr : List (Event (Fin 2) KernelChan KernelMark)) (s : Sys (Fin 2)),
    Run (machine (WaitCode.client quietKernel)) (fun _ _ => True) tr s ∧
    s.place 0 = .off .ticks (.spin .tickslock) (.ticks (.loop 1 0)) ∧
    s.state 0 = .SLEEPING ∧ s.killed 0 = true ∧ s.holder .ptable = none ∧
    s.holder (.spin .tickslock) = none := by
  obtain ⟨o,s,hr,hp⟩ := exec_reaches (S := machine (WaitCode.client quietKernel))
    (G := fun _ _ => True) killBeforeSleep
    (fun s _ => s.place 0 = .off .ticks (.spin .tickslock) (.ticks (.loop 1 0)) ∧
      s.state 0 = .SLEEPING ∧ s.killed 0 = true ∧ s.holder .ptable = none ∧
      s.holder (.spin .tickslock) = none) (by decide +kernel)
  exact ⟨o,s,hr,hp⟩

end Waits

end Xv6.KillWindow

import Xv6.ProcIdentity

/-!
# What a free slot holds

`wait` and `waitForProcess` clear the slot they free. A fork that fails after
`allocproc` found a slot frees it with its pid, and `kill` marks the first
slot with the pid it is given, free or not. Without these two, free slots
stay clean and a new process starts unmarked.
-/

set_option autoImplicit false

namespace Xv6.FreeSlots
open ProcTable ProcMachine TransitionSystem ProcStep ProcEffect
open ProcInvariant ProcIdentity

variable {n : ℕ} {s s' : State n} {l : Fin n × Act} {o : List Obs} {tr : List Obs}

def Allocating : Pc → Prop
  | .kstack _ | .copyuvm _ => True
  | _ => False

instance : DecidablePred Allocating
  | .kstack _ | .copyuvm _ => inferInstanceAs (Decidable True)
  | .user | .fork | .parent _ | .runnable _ | .exit | .kill _ | .waiting _ =>
    inferInstanceAs (Decidable False)

/-- No `kill` is called with 0, and memory does not run out in a fork. -/
def CleanStep (s : State n) (l : Fin n × Act) : Prop :=
  l.2 ≠ .call (.kill 0) ∧
    ∀ i, s.cpu l.1 = .run i → Allocating (s.thread i).pc → l.2 ≠ .go false

instance (s : State n) (l : Fin n × Act) : Decidable (CleanStep s l) :=
  inferInstanceAs (Decidable (_ ∧ ∀ i, s.cpu l.1 = .run i → _))

def FreeClean (s : State n) : Prop :=
  ∀ p, (s.proc p).state = .UNUSED →
    (s.proc p).pid = 0 ∧ (s.proc p).parent = none ∧ (s.proc p).killed = false

def NoKillZero (s : State n) : Prop := ∀ i, (s.thread i).pc ≠ .kill 0

theorem no_kill_zero_move (h : NoKillZero s) (hg : CleanStep s l) (m : Move s l s' o) :
    NoKillZero s' := by
  intro i hpc
  rcases kill_change m hpc with hold | hcall
  · exact h i hold
  · exact hg.1 hcall

theorem freed_move (hg : CleanStep s l) (m : Move s l s' o) {p : Slot}
    (hp : (s'.proc p).state = .UNUSED) : (s.proc p).state = .UNUSED ∨
      ((s'.proc p).pid = 0 ∧ (s'.proc p).parent = none ∧ (s'.proc p).killed = false) := by
  cases unused_change m hp with
  | old unused => exact .inl unused
  | forkFail i pc run act =>
    refine absurd act (hg.2 i run ?_)
    rcases pc with pc | pc <;> rw [pc] <;> trivial
  | reaped pid parent killed => exact .inr ⟨pid,parent,killed⟩

theorem free_clean_move (hc : Coherent s) (hk : NoKillZero s) (h : FreeClean s)
    (hg : CleanStep s l) (m : Move s l s' o) : FreeClean s' := by
  intro p hp
  rcases freed_move hg m hp with hold | hreaped
  · obtain ⟨hpid,-,hkilled⟩ := h p hold
    refine ⟨?_,unused_parent_move hc m hp,?_⟩
    · rcases pid_change m p with hsame | ⟨-,he⟩ | ⟨hz,-⟩
      · rw [hsame, hpid]
      · rw [hp] at he; cases he
      · rw [hold] at hz; cases hz
    · cases killed_change m p with
      | same hsame => rw [hsame, hkilled]
      | kill i pc => rw [hpid] at pc; exact absurd pc (hk i)
      | fault act run => rw [hc.running run] at hold; cases hold
      | reaped old => rw [hold] at old; cases old
  · exact hreaped

theorem free_clean_run (h : Run (machine n) CleanStep tr s) : NoKillZero s ∧ FreeClean s := by
  refine run_invariant (fun _ s => NoKillZero s ∧ FreeClean s) ⟨?_,?_⟩ ?_ h
  · intro i
    simp [machine, boot_pc]
  · intro p hp
    simp only [machine] at hp ⊢
    rcases boot_proc (n := n) p with ⟨-,hboot⟩ | ⟨-,hboot⟩ <;> rw [hboot] at hp ⊢
    · cases hp
    · decide
  · rintro _ _ _ _ _ hr ⟨hk,hf⟩ hg hn
    exact ⟨no_kill_zero_move hk hg (step_cases hn),
      free_clean_move (coherent_run hr) hk hf hg (step_cases hn)⟩

/-- A slot inside `fork` was born, and marked only by a `kill` of its pid
since. -/
def MarkedAfterBirth (tr : List Obs) (s : State n) : Prop :=
  ∀ p, (s.proc p).state = .EMBRYO → ∃ t1 t2, tr = t1 ++ .born (s.proc p).birth :: t2 ∧
    ((s.proc p).killed = true → .killed (s.proc p).pid true ∈ t2)

theorem marked_move (hc : Coherent s) (hf : FreeClean s) (h : MarkedAfterBirth tr s)
    (m : Move s l s' o) : MarkedAfterBirth (tr++o) s' := by
  intro p hp
  rcases used_move hc m (p := p) (by rw [hp]; decide) with hold | ⟨old,new⟩
  · have he := (embryo_change m hp).resolve_right hold
    have hpid : (s'.proc p).pid = (s.proc p).pid := by
      rcases pid_change m p with hsame | ⟨hu,-⟩ | ⟨hz,-⟩
      · exact hsame
      · exact absurd hu hold
      · rw [he] at hz; cases hz
    obtain ⟨t1,t2,htr,hmark⟩ := h p he
    refine ⟨t1,t2++o,by rw [htr, birth_kept m hold]; simp,fun hk => ?_⟩
    rw [hpid]
    cases killed_change m p with
    | same hsame => exact List.mem_append_left o (hmark (hsame ▸ hk))
    | kill i pc seen => exact List.mem_append_right t2 (by simp [seen])
    | fault act run => rw [hc.running run] at he; cases he
    | reaped old => rw [he] at old; cases old
  · obtain ⟨-,hb,-,ho⟩ := alloc_change m old new
    refine ⟨tr,[],by rw [ho, hb],fun hk => ?_⟩
    have hkilled := (hf p old).2.2
    cases killed_change m p with
    | same hsame => rw [hsame, hkilled] at hk; cases hk
    | kill i pc seen => rw [ho] at seen; simp at seen
    | fault act run => rw [hc.running run] at old; cases old
    | reaped hz => rw [old] at hz; cases hz

theorem marked_run (h : Run (machine n) CleanStep tr s) : MarkedAfterBirth tr s := by
  refine run_invariant MarkedAfterBirth ?_ ?_ h
  · exact fun p hp => absurd hp (boot_fields p).2.2.2
  · intro _ _ _ _ _ hr hm _ hn
    exact marked_move (coherent_run hr) (free_clean_run hr).2 hm (step_cases hn)

/-- If `kill` is not called with 0 and no fork runs out of memory, free slots
are clean, a child that fork returns is marked only by a `kill` of its pid
since its birth, and `kill` returns 0 only for a process. -/
theorem free_slots_clean (n : ℕ) (tr : List Obs) (s : State n)
    (h : Run (machine n) CleanStep tr s) :
    (∀ p, (s.proc p).state = .UNUSED →
      (s.proc p).pid = 0 ∧ (s.proc p).parent = none ∧ (s.proc p).killed = false) ∧
    (∀ l s' o a c, step s l = some (s',o) → .forked a c ∈ o → ∀ p, (s'.proc p).birth = c →
      (s'.proc p).killed = true →
        ∃ t1 t2, tr = t1 ++ .born c :: t2 ∧ .killed (s'.proc p).pid true ∈ t2) ∧
    ∀ l s' o q, step s l = some (s',o) → .killed q true ∈ o →
      ∃ p, (s.proc p).state ≠ .UNUSED ∧ (s.proc p).pid = q := by
  have hc := coherent_run h
  obtain ⟨hk,hf⟩ := free_clean_run h
  refine ⟨hf,?_,?_⟩
  · intro l s' o a c hstep hx p hb hkilled
    obtain ⟨i,np,pc,-,hnp,hproc⟩ := forked_seen (step_cases hstep) hx
    have he : (s.proc np).state = .EMBRYO := hc.embryo (forking_at pc rfl)
    rw [hproc] at hb hkilled ⊢
    simp only [set_state_fields] at hb hkilled ⊢
    have hp : np = p := same_process (identified_run h) (by rw [he]; decide) (by rw [hnp, hb])
    subst hp
    obtain ⟨t1,t2,htr,hmark⟩ := marked_run h np he
    exact ⟨t1,t2,by rw [htr, hnp],hmark hkilled⟩
  · intro l s' o q hstep hx
    obtain ⟨i,p,pc,hpid⟩ := killed_seen (step_cases hstep) hx
    refine ⟨p,fun hu => ?_,hpid⟩
    rw [← hpid, (hf p hu).1] at pc
    exact hk i pc

/-- A fork that runs out of memory leaves its pid in the free slot, and
`kill(0)` marks a free slot and returns 0. -/
theorem free_slots_dirty :
    (∃ s : State 1, Reachable (machine 1) s ∧ (s.proc 1).state = .UNUSED ∧ (s.proc 1).pid = 2) ∧
    ∃ (s : State 1) (o : List Obs), Run (machine 1) (fun _ _ => True) o s ∧ o = [.killed 0 true] ∧
      (s.proc 1).state = .UNUSED ∧ (s.proc 1).killed = true := by
  constructor
  · obtain ⟨o,s,hr,hp⟩ := exec_reaches (S := machine 1) (G := fun _ _ => True)
      (solo (initSteps ++ [.call .fork, .go true, .go false]))
      (fun s _ => (s.proc 1).state = .UNUSED ∧ (s.proc 1).pid = 2) (by decide +kernel)
    exact ⟨s,⟨o,hr⟩,hp⟩
  · obtain ⟨o,s,hr,hp⟩ := exec_reaches (S := machine 1) (G := fun _ _ => True)
      (solo (initSteps ++ [.call (.kill 0), .go true]))
      (fun s o => o = [.killed 0 true] ∧ (s.proc 1).state = .UNUSED ∧ (s.proc 1).killed = true)
      (by decide +kernel)
    exact ⟨s,o,hr,hp⟩

/-- init forks and, as the child is about to be made runnable, nothing has
marked it. -/
theorem free_slots_clean_init : ∃ (s s' : State 1) (tr o : List Obs),
    Run (machine 1) CleanStep tr s ∧ step s (0,.go true) = some (s',o) ∧ .forked 1 2 ∈ o ∧
    (s'.proc 1).birth = 2 ∧ (∀ p, (s.proc p).state = .UNUSED →
      (s.proc p).pid = 0 ∧ (s.proc p).parent = none ∧ (s.proc p).killed = false) ∧
    ((s'.proc 1).killed = true →
      ∃ t1 t2, tr = t1 ++ .born 2 :: t2 ∧ .killed (s'.proc 1).pid true ∈ t2) := by
  obtain ⟨tr,s,hr,hp⟩ := exec_reaches (S := machine 1) (G := CleanStep)
    (solo (initSteps ++ [.call .fork, .go true, .go true, .go true, .go true]))
    (fun s _ => (step s (0,.go true)).any
      (fun r => .forked 1 2 ∈ r.2 ∧ (r.1.proc 1).birth = 2)) (by decide +kernel)
  obtain ⟨⟨s',o⟩,hstep,hx⟩ := (Option.any_eq_true _ _).mp hp
  simp only [decide_eq_true_eq] at hx
  obtain ⟨hfree,hforked,-⟩ := free_slots_clean 1 tr s hr
  exact ⟨s,s',tr,o,hr,hstep,hx.1,hx.2,hfree,hforked (0,.go true) s' o 1 2 hstep hx.1 1 hx.2⟩

end Xv6.FreeSlots

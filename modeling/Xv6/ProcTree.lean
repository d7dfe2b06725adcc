import Xv6.ProcIdentity

/-!
# The tree of processes

A process's parent is alive and older than it, in the order in which
`allocproc` took their slots, and init is the oldest of all. Passing children
to init keeps this order, so following the parents ends at init.
-/

set_option autoImplicit false

namespace Xv6.ProcTree
open ProcTable ProcMachine TransitionSystem ProcStep ProcEffect
open ProcInvariant ProcIdentity

variable {n : ℕ} {s s' : State n} {l : Fin n × Act} {o : List Obs}

def Grown (x : ProcState) : Prop := x = .SLEEPING ∨ x = .RUNNABLE ∨ x = .RUNNING ∨ x = .ZOMBIE

theorem grown_iff {x : ProcState} : Grown x ↔ x ≠ .UNUSED ∧ x ≠ .EMBRYO := by
  cases x <;> simp [Grown]

theorem living_grown {x : ProcState} (h : Living x) : Grown x := by
  rcases h with rfl | rfl | rfl <;> simp [Grown]

def ancestor (t : Table) : ℕ → Slot → Option Slot
  | 0, p => some p
  | k+1, p => match (t p).parent with
    | some q => ancestor t k q
    | none => none

structure Rooted (s : State n) : Prop where
  parent : ∀ {p}, Grown (s.proc p).state → p ≠ s.initproc → (s.proc p).parent ≠ none
  older : ∀ {p q}, (s.proc p).parent = some q → (s.proc q).birth < (s.proc p).birth
  forker : ∀ {i np}, forking (s.thread i).pc = some np → (s.proc i).birth < (s.proc np).birth
  first : (s.proc s.initproc).birth = 1

theorem rooted_boot : Rooted (boot n) := by
  refine ⟨?_,?_,?_,by simp [boot]⟩
  · intro p hp hinit
    rcases boot_proc (n := n) p with ⟨h0,-⟩ | ⟨-,hz⟩
    · exact absurd h0 hinit
    · rw [hz] at hp
      exact absurd rfl (grown_iff.mp hp).1
  · intro p q hp
    rw [(boot_fields p).1] at hp
    cases hp
  · intro i np hf
    rw [boot_pc] at hf
    cases hf

theorem grown_move (h : Coherent s) (m : Move s l s' o) {p : Slot} (hg : Grown (s'.proc p).state) :
    Grown (s.proc p).state ∨ ∃ i, (s.thread i).pc = .runnable p := by
  cases state_change m p with
  | same hsame => exact .inl (hsame ▸ hg)
  | alloc old new => exact absurd new (grown_iff.mp hg).2
  | forkFail j pc back new => exact absurd new (grown_iff.mp hg).1
  | runnable j pc => exact .inr ⟨j,pc⟩
  | dispatch old | woken old => exact .inl (by rw [old]; simp [Grown])
  | leave k run | exit k run => exact .inl (by rw [h.running run]; simp [Grown])
  | reaped old new => exact absurd new (grown_iff.mp hg).1

theorem parent_move (hc : Coherent s) (h : Rooted s) (m : Move s l s' o) {p : Slot}
    (hg : Grown (s'.proc p).state) (hp : p ≠ s'.initproc) : (s'.proc p).parent ≠ none := by
  rw [initproc_move m] at hp
  have hold : (s.proc p).parent ≠ none := by
    rcases grown_move hc m hg with hgrown | ⟨i,hpc⟩
    · exact h.parent hgrown hp
    · rw [hc.runnableParent hpc]
      simp
  cases parent_change m p with
  | same hsame => rwa [hsame]
  | fork i pc next new | passed i run pc old new => rw [new]; simp
  | reaped old gone => exact absurd gone (grown_iff.mp hg).1

theorem living_birth (m : Move s l s' o) {q : Slot} (hq : Living (s.proc q).state) :
    (s'.proc q).birth = (s.proc q).birth :=
  birth_kept m (grown_iff.mp (living_grown hq)).1

theorem older_move (hc : Coherent s) (hi : Identified s) (h : Rooted s) (m : Move s l s' o)
    {p q : Slot} (hp : (s'.proc p).parent = some q) : (s'.proc q).birth < (s'.proc p).birth := by
  have hkept : ∀ {r}, (s.proc p).parent = some r → (s'.proc p).birth = (s.proc p).birth :=
    fun hr => birth_kept m (fun hu => by rw [hc.unusedParent hu] at hr; cases hr)
  cases parent_change m p with
  | same hsame =>
    rw [hsame] at hp
    rw [hkept hp, living_birth m (hc.parentAlive hp)]
    exact h.older hp
  | fork i pc next new =>
    rw [hp] at new
    cases new
    have hf : forking (s.thread q).pc = some p := forking_at pc rfl
    have hbirth : (s'.proc p).birth = (s.proc p).birth :=
      birth_kept m (by rw [hc.embryo hf]; decide)
    rw [hbirth, living_birth m (hc.forker hf)]
    exact h.forker hf
  | passed i run pc old new =>
    rw [hp] at new
    cases new
    have hlt := h.older old
    have hpos := (hi.used (grown_iff.mp (living_grown (hc.parentAlive old))).1).1
    rw [hkept old, living_birth m hc.initAlive, h.first]
    omega
  | reaped old gone new => rw [hp] at new; cases new

theorem forker_older_move (hc : Coherent s) (hi : Identified s) (h : Rooted s)
    (m : Move s l s' o) {i np : Slot} (hf : forking (s'.thread i).pc = some np) :
    (s'.proc i).birth < (s'.proc np).birth := by
  rcases forking_change m hf with hold | ⟨old,new,run⟩
  · have hbirth : (s'.proc np).birth = (s.proc np).birth :=
      birth_kept m (by rw [hc.embryo hold]; decide)
    rw [hbirth, living_birth m (hc.forker hold)]
    exact h.forker hold
  · obtain ⟨-,hbirth,-⟩ := alloc_change m old new
    rw [hbirth, living_birth m (.inr (.inr (hc.running run)))]
    exact hi.fresh i

theorem rooted_move (hc : Coherent s) (hi : Identified s) (h : Rooted s) (m : Move s l s' o) :
    Rooted s' := by
  refine ⟨parent_move hc h m,older_move hc hi h m,forker_older_move hc hi h m,?_⟩
  rw [initproc_move m, living_birth m hc.initAlive, h.first]

theorem rooted_run {G : State n → Fin n × Act → Prop} {tr : List Obs}
    (h : Run (machine n) G tr s) : Rooted s :=
  run_invariant (fun _ s => Rooted s) rooted_boot
    (fun _ _ _ _ _ hr hs _ hn =>
      rooted_move (coherent_run hr) (identified_run hr) hs (step_cases hn)) h

theorem reaches_init (hc : Coherent s) (h : Rooted s) {p : Slot} (hp : Grown (s.proc p).state) :
    ∃ k, ancestor s.proc k p = some s.initproc := by
  induction hb : (s.proc p).birth using Nat.strong_induction_on generalizing p with
  | _ b ih =>
    by_cases hinit : p = s.initproc
    · exact ⟨0,by rw [hinit]; rfl⟩
    · obtain ⟨q,hq⟩ := Option.ne_none_iff_exists'.mp (h.parent hp hinit)
      have hlt := h.older hq
      obtain ⟨k,hk⟩ := ih _ (hb ▸ hlt) (living_grown (hc.parentAlive hq)) rfl
      exact ⟨k+1,by simp only [ancestor, hq, hk]⟩

/-- Every process past its fork but init has a parent that is alive, and from
it the parents lead to init. -/
theorem process_tree_rooted (n : ℕ) (s : State n) (h : Reachable (machine n) s) (p : Slot)
    (hp : Grown (s.proc p).state) :
    (p ≠ s.initproc → ∃ q, (s.proc p).parent = some q ∧ Living (s.proc q).state) ∧
    ∃ k, ancestor s.proc k p = some s.initproc := by
  obtain ⟨tr,hr⟩ := h
  have hc := coherent_run hr
  have ht := rooted_run hr
  refine ⟨fun hinit => ?_,reaches_init hc ht hp⟩
  obtain ⟨q,hq⟩ := Option.ne_none_iff_exists'.mp (ht.parent hp hinit)
  exact ⟨q,hq,hc.parentAlive hq⟩

/-- init's child forks a child of its own and exits: its zombie and the
orphan lead to init. -/
theorem orphan_rooted : ∃ s : State 1, Reachable (machine 1) s ∧ s.lock = none ∧
    (s.proc 1).state = .ZOMBIE ∧ (s.proc 2).state = .RUNNABLE ∧
    (∃ q, (s.proc 2).parent = some q ∧ Living (s.proc q).state) ∧
    ∃ k, ancestor s.proc k 2 = some s.initproc := by
  obtain ⟨o,s,hr,hp⟩ := exec_reaches (S := machine 1) (G := fun _ _ => True)
    (solo (initSteps ++ forkSteps ++ [.yield, .sched, .go true] ++ forkSteps ++
      [.call .exit, .go true, .sched, .go true, .yield, .sched]))
    (fun s _ => s.lock = none ∧ (s.proc 1).state = .ZOMBIE ∧ (s.proc 2).state = .RUNNABLE ∧
      2 ≠ s.initproc) (by decide +kernel)
  obtain ⟨hl,hz,hr2,hi⟩ := hp
  have ht := process_tree_rooted 1 s ⟨o,hr⟩ 2 (by rw [hr2]; simp [Grown])
  exact ⟨s,⟨o,hr⟩,hl,hz,hr2,ht.1 hi,ht.2⟩

end Xv6.ProcTree

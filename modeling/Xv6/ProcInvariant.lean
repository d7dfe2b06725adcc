import Xv6.ProcEffect

/-!
# Invariants of the process machine

The table, the threads and the CPUs agree in every reachable state: a CPU
runs only a `RUNNING` slot and never the same one as another CPU, a slot
inside `fork` is an `EMBRYO` that belongs to one forking thread, and a slot
has no parent until its fork has set one.
-/

set_option autoImplicit false

namespace Xv6.ProcInvariant
open ProcTable ProcMachine TransitionSystem ProcStep ProcEffect

variable {n : ℕ} {s s' : State n} {l : Fin n × Act} {o : List Obs}

structure Coherent (s : State n) : Prop where
  running : ∀ {c i}, s.cpu c = .run i → (s.proc i).state = .RUNNING
  unique : ∀ {c c' i}, s.cpu c = .run i → s.cpu c' = .run i → c = c'
  embryo : ∀ {i np}, forking (s.thread i).pc = some np → (s.proc np).state = .EMBRYO
  owner : ∀ {i j np}, forking (s.thread i).pc = some np →
    forking (s.thread j).pc = some np → i = j
  forker : ∀ {i np}, forking (s.thread i).pc = some np → Living (s.proc i).state
  unusedParent : ∀ {p}, (s.proc p).state = .UNUSED → (s.proc p).parent = none
  embryoParent : ∀ {p}, (s.proc p).state = .EMBRYO → (s.proc p).parent = none ∨
    ∃ i, (s.thread i).pc = .runnable p ∧ (s.proc p).parent = some i
  runnableParent : ∀ {i p}, (s.thread i).pc = .runnable p → (s.proc p).parent = some i
  parentAlive : ∀ {p i}, (s.proc p).parent = some i → Living (s.proc i).state
  parentOther : ∀ {p}, (s.proc p).parent ≠ some p
  initAlive : Living (s.proc s.initproc).state
  initParent : (s.proc s.initproc).parent = none

theorem boot_proc (p : Slot) : (p = 0 ∧ (boot n).proc p = ⟨.RUNNABLE,1,none,none,false,1⟩) ∨
    (p ≠ 0 ∧ (boot n).proc p = zeroProc) := by
  by_cases hp : p = 0
  · subst hp
    exact .inl ⟨rfl,by simp [boot]⟩
  · exact .inr ⟨hp,by simp [boot, hp]⟩

theorem boot_pc (i : Slot) : ((boot n).thread i).pc = .user := by
  by_cases hi : i = 0
  · subst hi; simp [boot, newThread]
  · simp [boot, Function.update_of_ne hi, userThread]

theorem boot_fields (p : Slot) : ((boot n).proc p).parent = none ∧
    ((boot n).proc p).killed = false ∧ ((boot n).proc p).state ≠ .SLEEPING ∧
    ((boot n).proc p).state ≠ .EMBRYO := by
  rcases boot_proc (n := n) p with ⟨-,hp⟩ | ⟨-,hp⟩ <;> rw [hp] <;> decide

theorem boot_awake (i : Slot) : ((boot n).proc i).state ≠ .SLEEPING := (boot_fields i).2.2.1

theorem coherent_boot : Coherent (boot n) := by
  have hparent : ∀ p, ((boot n).proc p).parent = none := fun p => (boot_fields p).1
  refine ⟨?_,?_,?_,?_,?_,fun _ => hparent _,fun _ => .inl (hparent _),?_,?_,?_,?_,hparent _⟩
  · intro c i h; cases h
  · intro c c' i h; cases h
  · intro i np h; simp [boot_pc, forking] at h
  · intro i j np h; simp [boot_pc, forking] at h
  · intro i np h; simp [boot_pc, forking] at h
  · intro i p h; simp [boot_pc] at h
  · intro p i h; simp [hparent] at h
  · intro p h; simp [hparent] at h
  · simp [boot, Living]

theorem forking_owner (h : Coherent s) {i p : Slot}
    (hpc : (s.thread i).pc = .kstack p ∨ (s.thread i).pc = .copyuvm p ∨ (s.thread i).pc = .parent p) :
    (s.proc p).parent = none := by
  have hf : forking (s.thread i).pc = some p := by
    rcases hpc with hpc | hpc | hpc <;> rw [hpc] <;> rfl
  rcases h.embryoParent (h.embryo hf) with hp | ⟨j,hj,-⟩
  · exact hp
  · have hji : i = j := h.owner hf (forking_at hj rfl)
    subst hji
    rw [hj] at hpc
    rcases hpc with hpc | hpc | hpc <;> cases hpc

theorem running_move (h : Coherent s) (m : Move s l s' o) {c : Fin n} {i : Slot}
    (hc : s'.cpu c = .run i) : (s'.proc i).state = .RUNNING := by
  rcases cpu_change m hc with hr | ⟨-,-,hr⟩
  · have hs := h.running hr
    cases state_change m i with
    | same hsame => rw [hsame, hs]
    | alloc old | dispatch old | woken old | reaped old => rw [hs] at old; cases old
    | forkFail j pc =>
      have he := h.embryo (forking_early pc)
      rw [hs] at he; cases he
    | runnable j pc =>
      have he : (s.proc i).state = .EMBRYO := h.embryo (forking_at pc rfl)
      rw [hs] at he; cases he
    | leave k run off | exit k run off =>
      rw [h.unique run hr] at off
      rw [hc] at off; cases off
  · exact hr

theorem unique_move (h : Coherent s) (m : Move s l s' o) {c c' : Fin n} {i : Slot}
    (hc : s'.cpu c = .run i) (hc' : s'.cpu c' = .run i) : c = c' := by
  rcases cpu_change m hc with hr | ⟨hl,hr,-⟩ <;> rcases cpu_change m hc' with hr' | ⟨hl',hr',-⟩
  · exact h.unique hr hr'
  · have := h.running hr
    rw [hr'] at this; cases this
  · have := h.running hr'
    rw [hr] at this; cases this
  · rw [hl, hl']

theorem embryo_move (h : Coherent s) (m : Move s l s' o) {i np : Slot}
    (hf : forking (s'.thread i).pc = some np) : (s'.proc np).state = .EMBRYO := by
  rcases forking_change m hf with hold | ⟨-,hnew,-⟩
  · have hs := h.embryo hold
    cases state_change m np with
    | same hsame => rw [hsame, hs]
    | alloc old | dispatch old | woken old | reaped old => rw [hs] at old; cases old
    | forkFail j pc back =>
      have hji : j = i := h.owner (forking_early pc) hold
      rw [hji] at back
      rw [back] at hf; cases hf
    | runnable j pc back =>
      have hji : j = i := h.owner (forking_at pc rfl) hold
      rw [hji] at back
      rw [back] at hf; cases hf
    | leave k run | exit k run => rw [h.running run] at hs; cases hs
  · exact hnew

theorem owner_move (h : Coherent s) (m : Move s l s' o) {i j np : Slot}
    (hi : forking (s'.thread i).pc = some np) (hj : forking (s'.thread j).pc = some np) :
    i = j := by
  rcases forking_change m hi with hold | ⟨hu,-,hr⟩ <;>
    rcases forking_change m hj with hold' | ⟨hu',-,hr'⟩
  · exact h.owner hold hold'
  · rw [h.embryo hold] at hu'; cases hu'
  · rw [h.embryo hold'] at hu; cases hu
  · rw [hr] at hr'
    cases hr'
    rfl

theorem living_move (h : Coherent s) (m : Move s l s' o) {i : Slot}
    (hi : Living (s.proc i).state) : Living (s'.proc i).state ∨
      (i ≠ s.initproc ∧ (s'.thread i).pc = .exit ∧ ∀ p, (s'.proc p).parent ≠ some i) := by
  cases state_change m i with
  | same hsame => rw [hsame]; exact .inl hi
  | alloc old | reaped old => rw [old] at hi; exact absurd hi (by decide)
  | forkFail j pc =>
    rw [h.embryo (forking_early pc)] at hi
    exact absurd hi (by decide)
  | runnable j pc back new => rw [new]; exact .inl (by decide)
  | dispatch old new | woken old new => rw [new]; exact .inl (by decide)
  | leave k run off new => rcases new with new | new <;> rw [new] <;> exact .inl (by decide)
  | exit k run off notinit pc new wakes orphans => exact .inr ⟨notinit,pc,orphans⟩

theorem forker_move (h : Coherent s) (m : Move s l s' o) {i np : Slot}
    (hf : forking (s'.thread i).pc = some np) : Living (s'.proc i).state := by
  have hlive : Living (s.proc i).state := by
    rcases forking_change m hf with hold | ⟨-,-,hr⟩
    · exact h.forker hold
    · rw [h.running hr]; decide
  rcases living_move h m hlive with hl | ⟨-,pc,-⟩
  · exact hl
  · rw [pc] at hf; cases hf

theorem unused_parent_move (h : Coherent s) (m : Move s l s' o) {p : Slot}
    (hp : (s'.proc p).state = .UNUSED) : (s'.proc p).parent = none := by
  have hkeep : (s.proc p).parent = none → (s'.proc p).parent = none ∨
      ∃ i, (s.thread i).pc = .parent p := by
    intro hnone
    cases parent_change m p with
    | same hsame => exact .inl (by rw [hsame, hnone])
    | fork i pc => exact .inr ⟨i,pc⟩
    | passed i run pc old => rw [hnone] at old; cases old
    | reaped old gone new => exact .inl new
  cases unused_change m hp with
  | old unused =>
    rcases hkeep (h.unusedParent unused) with hnone | ⟨i,pc⟩
    · exact hnone
    · have he := h.embryo (forking_at pc rfl)
      rw [unused] at he; cases he
  | forkFail j pc =>
    have hpc : (s.thread j).pc = .kstack p ∨ (s.thread j).pc = .copyuvm p ∨
        (s.thread j).pc = .parent p := by tauto
    rcases hkeep (forking_owner h hpc) with hnone | ⟨i,hi⟩
    · exact hnone
    · have hij : j = i := h.owner (forking_early pc) (forking_at hi rfl)
      subst hij
      rw [hi] at pc
      rcases pc with pc | pc <;> cases pc
  | reaped pid parent => exact parent

theorem embryo_parent_move (h : Coherent s) (m : Move s l s' o) {p : Slot}
    (hp : (s'.proc p).state = .EMBRYO) : (s'.proc p).parent = none ∨
      ∃ i, (s'.thread i).pc = .runnable p ∧ (s'.proc p).parent = some i := by
  have hold : (s.proc p).parent = none ∨
      ∃ i, (s.thread i).pc = .runnable p ∧ (s.proc p).parent = some i := by
    rcases embryo_change m hp with he | hu
    · exact h.embryoParent he
    · exact .inl (h.unusedParent hu)
  cases parent_change m p with
  | same hsame =>
    rcases hold with hnone | ⟨i,hpc,hi⟩
    · exact .inl (by rw [hsame, hnone])
    · rcases runnable_change m hpc with hpc' | hr | ⟨j,hj⟩
      · exact .inr ⟨i,hpc',by rw [hsame, hi]⟩
      · rw [hr] at hp; cases hp
      · have he : (s.proc i).state = .EMBRYO := h.embryo (forking_at hj rfl)
        have hl := h.forker (forking_at hpc rfl)
        rw [he] at hl
        exact absurd hl (by decide)
  | fork i pc next new => exact .inr ⟨i,next,new⟩
  | passed i run pc old =>
    rcases hold with hnone | ⟨j,hpc,hj⟩
    · rw [hnone] at old; cases old
    · rw [hj] at old
      cases old
      rw [pc] at hpc; cases hpc
  | reaped old gone => rw [gone] at hp; cases hp

theorem runnable_parent_move (h : Coherent s) (m : Move s l s' o) {i p : Slot}
    (hpc : (s'.thread i).pc = .runnable p) : (s'.proc p).parent = some i := by
  rcases runnable_entered m hpc with hold | hnew
  · have hf : forking (s.thread i).pc = some p := forking_at hold rfl
    have hp := h.runnableParent hold
    cases parent_change m p with
    | same hsame => rw [hsame, hp]
    | fork j pc next new =>
      rw [h.owner hf (forking_at pc rfl)]
      exact new
    | passed j run pc old =>
      rw [hp] at old
      cases old
      rw [hold] at pc
      cases pc
    | reaped old => rw [h.embryo hf] at old; cases old
  · exact hnew

theorem initproc_move (m : Move s l s' o) : s'.initproc = s.initproc := by
  cases m <;> rfl

theorem init_alive_move (h : Coherent s) (m : Move s l s' o) :
    Living (s'.proc s'.initproc).state := by
  rw [initproc_move m]
  rcases living_move h m h.initAlive with hl | ⟨hne,-⟩
  · exact hl
  · exact absurd rfl hne

theorem init_parent_move (h : Coherent s) (m : Move s l s' o) :
    (s'.proc s'.initproc).parent = none := by
  rw [initproc_move m]
  cases parent_change m s.initproc with
  | same hsame => rw [hsame, h.initParent]
  | fork i pc =>
    have he : (s.proc s.initproc).state = .EMBRYO := h.embryo (forking_at pc rfl)
    exact absurd (he ▸ h.initAlive) (by decide)
  | passed i run pc old => rw [h.initParent] at old; cases old
  | reaped old gone new => exact new

theorem parent_alive_move (h : Coherent s) (m : Move s l s' o) {p i : Slot}
    (hp : (s'.proc p).parent = some i) : Living (s'.proc i).state := by
  have hlive : Living (s.proc i).state := by
    cases parent_change m p with
    | same hsame => exact h.parentAlive (hsame ▸ hp)
    | fork j pc next new =>
      rw [hp] at new
      cases new
      exact h.forker (forking_at pc rfl)
    | passed j run pc old new =>
      rw [hp] at new
      cases new
      exact h.initAlive
    | reaped old gone new => rw [hp] at new; cases new
  rcases living_move h m hlive with hl | ⟨-,-,orphans⟩
  · exact hl
  · exact absurd hp (orphans p)

theorem parent_other_move (h : Coherent s) (m : Move s l s' o) {p : Slot} :
    (s'.proc p).parent ≠ some p := by
  intro hp
  cases parent_change m p with
  | same hsame => exact h.parentOther (hsame ▸ hp)
  | fork j pc next new =>
    rw [hp] at new
    cases new
    have hf : forking (s.thread p).pc = some p := forking_at pc rfl
    exact absurd (h.embryo hf ▸ h.forker hf) (by decide)
  | passed j run pc old new =>
    rw [hp] at new
    cases new
    rw [h.initParent] at old
    cases old
  | reaped old gone new => rw [hp] at new; cases new

theorem coherent_move (h : Coherent s) (m : Move s l s' o) : Coherent s' :=
  ⟨running_move h m,unique_move h m,embryo_move h m,owner_move h m,forker_move h m,
    unused_parent_move h m,embryo_parent_move h m,runnable_parent_move h m,
    parent_alive_move h m,parent_other_move h m,init_alive_move h m,init_parent_move h m⟩

theorem coherent_run {G : State n → Fin n × Act → Prop} {tr : List Obs}
    (h : Run (machine n) G tr s) : Coherent s :=
  run_invariant (fun _ s => Coherent s) coherent_boot
    (fun _ _ _ _ _ _ hs _ hn => coherent_move hs (step_cases hn)) h

theorem sleeper_woken (h : Coherent s) (m : Move s l s' o) {i : Slot}
    (hs : (s.proc i).state = .SLEEPING) (hs' : (s'.proc i).state ≠ .SLEEPING) :
    (s'.proc i).state = .RUNNABLE := by
  cases state_change m i with
  | same hsame => exact absurd (hsame.trans hs) hs'
  | alloc old | dispatch old | reaped old => rw [hs] at old; cases old
  | forkFail j pc => rw [h.embryo (forking_early pc)] at hs; cases hs
  | runnable j pc back new => exact new
  | woken old new => exact new
  | leave k run | exit k run => rw [h.running run] at hs; cases hs

theorem zombie_stays (h : Coherent s) (m : Move s l s' o) {p : Slot}
    (hz : (s.proc p).state = .ZOMBIE) :
    (s'.proc p).state = .ZOMBIE ∨ (s'.proc p).state = .UNUSED := by
  cases state_change m p with
  | same hsame => exact .inl (hsame.trans hz)
  | alloc old | dispatch old | woken old => rw [hz] at old; cases old
  | forkFail j pc => rw [h.embryo (forking_early pc)] at hz; cases hz
  | runnable j pc => rw [h.embryo (forking_at pc rfl)] at hz; cases hz
  | leave k run | exit k run => rw [h.running run] at hz; cases hz
  | reaped old new => exact .inr new

theorem sleeper_change (h : Coherent s) (m : Move s l s' o) {i : Slot} {w : WaitCall}
    (hs : (s'.proc i).state = .SLEEPING) (hpc : (s'.thread i).pc = .waiting w) :
    Sleeper s s' l i w := by
  have hactor : ∀ {c j}, s.cpu c = .run j → (s'.proc j).state = (s.proc j).state → i ≠ j := by
    rintro c j hr hsame rfl
    rw [hsame, h.running hr] at hs
    cases hs
  cases m with
  | acquire | release => exact .old hs rfl rfl rfl
  | @dispatch c k p scan ready =>
    have hi : i ≠ p := by rintro rfl; simp at hs
    exact .old (by simpa [hi] using hs) rfl (by simp) (by simp)
  | wakeup =>
    exact .old (woken_sleeping (wakeup1_woken _ s.proc) i hs) rfl (by simp) (by simp)
  | resume chan run | failed chan run =>
    have hi := hactor run (by simp)
    exact .old (by simpa using hs) (by simp [hi]) (by simp [hi]) (by simp)
  | @reaped c j p ok w' chan run pc entered found zombie =>
    have hj : j ≠ p := by
      rintro rfl
      rw [h.running run] at zombie
      cases zombie
    have hi := hactor run (by simp [hj])
    have hp : i ≠ p := by rintro rfl; simp at hs
    exact .old (by simpa [hp] using hs) (by simp [hi]) (by simp [hi]) (by simp [hp])
  | @waitSleep c j ok w' run pc entered alive exist living =>
    by_cases hi : i = j
    · subst hi
      simp only [Function.update_self, Pc.waiting.injEq] at hpc
      subst hpc
      exact .new ok rfl run pc alive exist living rfl (by simp)
    · exact .old (by simpa [hi] using hs) (by simp [hi]) (by simp [hi]) (by simp)
  | stay pc o run | copied run =>
    have hi := hactor run rfl
    exact .old hs (by simp [hi]) rfl rfl
  | @alloc c j np ok run on pc free unused =>
    have hn : i ≠ np := by rintro rfl; simp at hs
    have hj : j ≠ np := by
      rintro rfl
      rw [h.running run] at unused
      cases unused
    have hi := hactor run (by simp [hj])
    exact .old (by simpa [hn] using hs) (by simp [hi]) (by simp) (by simp)
  | @kstack c j np ok run on pc =>
    have hi := hactor run rfl
    have hn : i ≠ np := by
      rintro rfl
      have he := h.embryo (forking_at pc rfl)
      rw [he] at hs
      cases hs
    exact .old hs (by simp [hi, hn]) rfl rfl
  | @forkFail c j np run on pc =>
    have hn : i ≠ np := by rintro rfl; simp at hs
    have hj : j ≠ np := by
      rintro rfl
      have he := h.embryo (forking_early pc)
      rw [h.running run] at he
      cases he
    have hi := hactor run (by simp [hj])
    exact .old (by simpa [hn] using hs) (by simp [hi]) (by simp) (by simp)
  | @runnable c j np ok run on pc =>
    have hn : i ≠ np := by rintro rfl; simp at hs
    have hj : j ≠ np := by
      rintro rfl
      have he := h.embryo (forking_at pc rfl)
      rw [h.running run] at he
      cases he
    have hi := hactor run (by simp [hj])
    exact .old (by simpa [hn] using hs) (by simp [hi]) (by simp) (by simp)
  | @setParent c j np ok run on pc =>
    have hi := hactor run (by simp)
    exact .old (by simpa using hs) (by simp [hi]) (by simp) (by simp)
  | @exit c j ok run =>
    have hi : i ≠ j := by rintro rfl; simp [exit_state_self] at hs
    refine .old ?_ (by simp [hi]) (by simp) (by simp)
    rcases exit_state_other j s.initproc s.proc i hi with hsame | ⟨hold,-⟩
    · rw [← hsame]; exact hs
    · exact hold
  | @kill c j p ok q run on pc free found =>
    have hp : ¬ (i = p ∧ (s.proc p).state = .SLEEPING) := by
      intro hp
      simp [hp] at hs
    simp only [kill_fields, if_neg hp] at hs
    have hip : i ≠ p := by rintro rfl; exact hp ⟨rfl,hs⟩
    have hi : i ≠ j := by rintro rfl; rw [h.running run] at hs; cases hs
    exact .old hs (by simp [hi]) (by simp) (by simp [hip])
  | @fault c j run =>
    have hi := hactor run (by simp)
    exact .old (by simpa using hs) (by simp [hi]) (by simp) (by simp [hi])
  | @yield c j run =>
    have hi : i ≠ j := by rintro rfl; simp at hs
    exact .old (by simpa [hi] using hs) (by simp [hi]) (by simp) (by simp)
  | @sleep c j a run on free pc =>
    have hi : i ≠ j := by
      rintro rfl
      simp only [Function.update_self] at hpc
      rw [hpc] at pc
      rcases pc with pc | pc <;> cases pc
    exact .old (by simpa [hi] using hs) (by simp [hi]) (by simp [hi]) (by simp)

end Xv6.ProcInvariant

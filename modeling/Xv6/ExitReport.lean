import Xv6.ProcIdentity

/-!
# Who learns of an exit

Both reaping loops take any zombie they match: `wait` the caller's children,
`waitForProcess` whoever has the pid. As long as the latter only meets
zombies that are its caller's children, every exit is reported to the parent
once, and `wait` fails only when all children have been.
-/

set_option autoImplicit false

namespace Xv6.ExitReport
open ProcTable ProcMachine TransitionSystem ProcStep ProcEffect
open ProcInvariant ProcIdentity

variable {n : ℕ} {s s' : State n} {l : Fin n × Act} {o : List Obs} {tr : List Obs}

/-- Zombies with the pid of a running `waitForProcess` are its caller's children. -/
def OwnZombies (i : Slot) (t : Table) : Pc → Prop
  | .waiting (.waitForProcess q) =>
      ∀ p, (t p).pid = q → (t p).state = .ZOMBIE → (t p).parent = some i
  | _ => True

instance (i : Slot) (t : Table) : (pc : Pc) → Decidable (OwnZombies i t pc)
  | .waiting (.waitForProcess q) => inferInstanceAs (Decidable
      (∀ p, (t p).pid = q → (t p).state = .ZOMBIE → (t p).parent = some i))
  | .waiting .wait | .user | .fork | .kstack _ | .copyuvm _ | .parent _ | .runnable _ | .exit
  | .kill _ => inferInstanceAs (Decidable True)

def Kills : Act → Prop
  | .fault | .call (.kill _) => True
  | _ => False

instance : DecidablePred Kills
  | .fault | .call (.kill _) => inferInstanceAs (Decidable True)
  | .call .fork | .call .exit | .call .wait | .call (.waitForProcess _) | .sched | .go _ | .yield
  | .sleep _ | .wakeup _ => inferInstanceAs (Decidable False)

/-- No process is killed, and `waitForProcess` reaps children only. -/
def ReportStep (s : State n) (l : Fin n × Act) : Prop :=
  ¬ Kills l.2 ∧ ∀ i, s.cpu l.1 = .run i → OwnZombies i s.proc (s.thread i).pc

instance (s : State n) (l : Fin n × Act) : Decidable (ReportStep s l) :=
  inferInstanceAs (Decidable (_ ∧ ∀ i, s.cpu l.1 = .run i → OwnZombies i s.proc (s.thread i).pc))

structure Unkilled (s : State n) : Prop where
  kill : ∀ i q, (s.thread i).pc ≠ .kill q
  killed : ∀ p, (s.proc p).killed = false

theorem unkilled_move (h : Unkilled s) (hg : ReportStep s l) (m : Move s l s' o) :
    Unkilled s' := by
  constructor
  · intro i q hpc
    rcases kill_change m hpc with hold | hcall
    · exact h.kill i q hold
    · exact hg.1 (by rw [hcall]; trivial)
  · intro p
    cases killed_change m p with
    | same hsame => rw [hsame, h.killed]
    | kill i pc => exact absurd pc (h.kill i _)
    | fault act => exact absurd (by rw [act]; trivial) hg.1
    | reaped old new => exact new

theorem unkilled_run (h : Run (machine n) ReportStep tr s) : Unkilled s := by
  refine run_invariant (fun _ s => Unkilled s) ⟨?_,?_⟩ ?_ h
  · intro i q
    simp [machine, boot_pc]
  · exact fun p => (boot_fields p).2.1
  · exact fun _ _ _ _ _ _ hu hg hn => unkilled_move hu hg (step_cases hn)

def Dead (s : State n) (b : ℕ) : Prop :=
  b < s.nextpid ∧ ∀ p, (s.proc p).birth = b → (s.proc p).state = .ZOMBIE ∨ (s.proc p).state = .UNUSED

def Gone (s : State n) (b : ℕ) : Prop :=
  b < s.nextpid ∧ ∀ p, (s.proc p).birth = b → (s.proc p).state = .UNUSED

theorem used_origin (hc : Coherent s) (m : Move s l s' o) {p : Slot} {b : ℕ}
    (hu : (s'.proc p).state ≠ .UNUSED) (hb : (s'.proc p).birth = b) (hlt : b < s.nextpid) :
    (s.proc p).state ≠ .UNUSED ∧ (s.proc p).birth = b := by
  rcases used_move hc m hu with hold | ⟨old,new⟩
  · exact ⟨hold,by rw [← birth_kept m hold, hb]⟩
  · obtain ⟨-,hbirth,-⟩ := alloc_change m old new
    omega

theorem gone_move (hc : Coherent s) (m : Move s l s' o) {b : ℕ} (h : Gone s b) : Gone s' b := by
  refine ⟨Nat.lt_of_lt_of_le h.1 (nextpid_mono m),fun p hb => ?_⟩
  by_contra hu
  obtain ⟨hold,hbirth⟩ := used_origin hc m hu hb h.1
  exact hold (h.2 p hbirth)

theorem dead_move (hc : Coherent s) (m : Move s l s' o) {b : ℕ} (h : Dead s b) : Dead s' b := by
  refine ⟨Nat.lt_of_lt_of_le h.1 (nextpid_mono m),fun p hb => ?_⟩
  by_cases hu : (s'.proc p).state = .UNUSED
  · exact .inr hu
  · obtain ⟨hold,hbirth⟩ := used_origin hc m hu hb h.1
    exact zombie_stays hc m ((h.2 p hbirth).resolve_right hold)

structure History (tr : List Obs) (s : State n) : Prop where
  reaped : ∀ {w x c pid}, .reaped w x c pid ∈ tr → Gone s c
  exited : ∀ {a g}, .exited a g ∈ tr → Dead s a

theorem history_move (hc : Coherent s) (hi : Identified s) (h : History tr s)
    (m : Move s l s' o) : History (tr++o) s' := by
  have hborn : ∀ p, (s.proc p).birth < s'.nextpid :=
    fun p => Nat.lt_of_lt_of_le (hi.fresh p) (nextpid_mono m)
  constructor
  · intro w x c pid hx
    rcases List.mem_append.mp hx with hold | hnew
    · exact gone_move hc m (h.reaped hold)
    · obtain ⟨i,p,-,-,-,hz,-,rfl,hfree,-⟩ := reaped_seen m hnew
      refine ⟨hborn p,fun r hr => ?_⟩
      rw [same_slot hc hi m (by rw [hz]; decide) hr]
      exact hfree
  · intro a g hx
    rcases List.mem_append.mp hx with hold | hnew
    · exact dead_move hc m (h.exited hold)
    · obtain ⟨i,run,rfl,hz,-⟩ := exited_seen m hnew
      refine ⟨hborn i,fun r hr => .inl ?_⟩
      rw [same_slot hc hi m (by rw [hc.running run]; decide) hr]
      exact hz

theorem history_run {G : State n → Fin n × Act → Prop} (h : Run (machine n) G tr s) :
    History tr s :=
  run_invariant (fun tr s => History tr s) ⟨by simp,by simp⟩
    (fun _ _ _ _ _ hr hh _ hn =>
      history_move (coherent_run hr) (identified_run hr) hh (step_cases hn)) h

def isReap (c : ℕ) : Obs → Bool
  | .reaped _ _ c' _ => c' = c
  | _ => false

def reapsOf (c : ℕ) (tr : List Obs) : List Obs := tr.filter (isReap c)

@[simp] theorem reaps_append (c : ℕ) (t t' : List Obs) :
    reapsOf c (t++t') = reapsOf c t ++ reapsOf c t' := by
  simp [reapsOf]

theorem reaps_nil {c : ℕ} {t : List Obs} :
    reapsOf c t = [] ↔ ∀ w x pid, .reaped w x c pid ∉ t := by
  simp only [reapsOf, List.filter_eq_nil_iff]
  constructor
  · intro h w x pid hm
    exact h _ hm (by simp [isReap])
  · intro h ob hm
    cases ob <;> simp only [isReap, Bool.false_eq_true, not_false_eq_true, decide_eq_true_eq]
    rintro rfl
    exact h _ _ _ hm

def Child (s : State n) (a c : ℕ) : Prop :=
  ∃ p i, (s.proc p).birth = c ∧ (s.proc p).state ≠ .UNUSED ∧ (s.proc p).state ≠ .EMBRYO ∧
    (s.proc p).parent = some i ∧ (s.proc i).birth = a

theorem child_unreaped (h : History tr s) {a c : ℕ} (hch : Child s a c) : reapsOf c tr = [] := by
  obtain ⟨p,i,hb,hu,-⟩ := hch
  exact reaps_nil.mpr (fun w x pid hx => hu ((h.reaped hx).2 p hb))

theorem born_kept (hc : Coherent s) (m : Move s l s' o) {p : Slot}
    (hu : (s.proc p).state ≠ .UNUSED) (he : (s.proc p).state ≠ .EMBRYO)
    (hr : reapsOf (s.proc p).birth o = []) :
    (s'.proc p).state ≠ .UNUSED ∧ (s'.proc p).state ≠ .EMBRYO := by
  cases state_change m p with
  | same hsame => rw [hsame]; exact ⟨hu,he⟩
  | alloc old => contradiction
  | forkFail j pc => exact absurd (hc.embryo (forking_early pc)) he
  | reaped old new parent pid killed seen =>
    obtain ⟨w,x,seen⟩ := seen
    simp [reapsOf, isReap, seen] at hr
  | dispatch old new | woken old new => rw [new]; decide
  | runnable j pc back new => rw [new]; decide
  | leave k run off new => rcases new with new | new <;> rw [new] <;> decide
  | exit k run off notinit pc new => rw [new]; decide

theorem parent_kept (hc : Coherent s) (m : Move s l s' o) {p i : Slot}
    (he : (s.proc p).state ≠ .EMBRYO) (hu' : (s'.proc p).state ≠ .UNUSED)
    (hp : (s.proc p).parent = some i) (hi : ∀ g, .exited (s.proc i).birth g ∉ o) :
    (s'.proc p).parent = some i := by
  cases parent_change m p with
  | same hsame => rw [hsame, hp]
  | fork j pc => exact absurd (hc.embryo (forking_at pc rfl)) he
  | passed j run pc old new wakes seen =>
    rw [hp] at old
    cases old
    obtain ⟨g,seen⟩ := seen
    exact absurd (by rw [seen]; simp) (hi g)
  | reaped old gone => exact absurd gone hu'

theorem parent_used (hc : Coherent s) {p i : Slot} (hp : (s.proc p).parent = some i) :
    (s.proc i).state ≠ .UNUSED := by
  have hl := hc.parentAlive hp
  intro hs
  rw [hs] at hl
  exact absurd hl (by decide)

theorem child_move (hc : Coherent s) (hi : Identified s) (hg : ReportStep s l)
    (m : Move s l s' o) {a c : ℕ} (h : Child s a c) (ha : ∀ g, .exited a g ∉ o) :
    (Child s' a c ∧ reapsOf c o = []) ∨ ∃ w pid, reapsOf c o = [.reaped w a c pid] := by
  obtain ⟨p,i,rfl,hu,he,hp,rfl⟩ := h
  by_cases hr : reapsOf (s.proc p).birth o = []
  · obtain ⟨hu',he'⟩ := born_kept hc m hu he hr
    exact .inl ⟨⟨p,i,birth_kept m hu,hu',he',parent_kept hc m he hu' hp ha,
      birth_kept m (parent_used hc hp)⟩,hr⟩
  · simp only [reaps_nil, not_forall, not_not] at hr
    obtain ⟨w,x,pid,hx⟩ := hr
    obtain ⟨j,r,run,pc,hm,hz,rfl,hb,-,rfl⟩ := reaped_seen m hx
    have hrp : p = r := same_process hi hu hb.symm
    subst hrp
    have hj : (s.proc p).parent = some j := by
      cases w with
      | wait => exact hm
      | waitForProcess q =>
        have hown := hg.2 j run
        rw [pc] at hown
        exact hown p hm hz
    rw [hp] at hj
    cases hj
    exact .inr ⟨w,pid,by simp [reapsOf, isReap]⟩

theorem forked_child (hc : Coherent s) (m : Move s l s' o) {a c : ℕ} (h : .forked a c ∈ o) :
    Child s' a c := by
  obtain ⟨i,np,pc,ha,hb,hproc⟩ := forked_seen m h
  refine ⟨np,i,?_⟩
  rw [hproc]
  simp [hb, ha, hc.runnableParent pc]

theorem exited_child (hc : Coherent s) (m : Move s l s' o) {a c : ℕ}
    (h : .exited c (some a) ∈ o) : Child s' a c := by
  obtain ⟨p,run,hb,hz,hg⟩ := exited_seen m h
  obtain ⟨i,hp,ha⟩ := Option.map_eq_some_iff.mp hg.symm
  have hu : (s.proc p).state ≠ .UNUSED := by rw [hc.running run]; decide
  refine ⟨p,i,by rw [birth_kept m hu, hb],by rw [hz]; decide,by rw [hz]; decide,?_,
    by rw [birth_kept m (parent_used hc hp), ha]⟩
  cases parent_change m p with
  | same hsame => rw [hsame, hp]
  | fork j pc =>
    have he := hc.embryo (forking_at pc rfl)
    rw [hc.running run] at he
    cases he
  | passed j run' pc old =>
    rw [run] at run'
    cases run'
    exact absurd old hc.parentOther
  | reaped old gone => rw [gone] at hz; cases hz

/-- Every child of a process that has not exited is waiting to be reported to
it, or has been once. -/
def Accounted (tr : List Obs) (s : State n) : Prop :=
  ∀ a c, .forked a c ∈ tr ∨ .exited c (some a) ∈ tr → (∀ g, .exited a g ∉ tr) →
    (Child s a c ∧ reapsOf c tr = []) ∨ ∃ w pid, reapsOf c tr = [.reaped w a c pid]

theorem accounted_move (hc : Coherent s) (hi : Identified s) (hh : History tr s)
    (h : Accounted tr s) (hg : ReportStep s l) (m : Move s l s' o) :
    Accounted (tr++o) s' := by
  intro a c hevent hno
  have hno1 : ∀ g, .exited a g ∉ tr := fun g hx => hno g (List.mem_append_left o hx)
  have hno2 : ∀ g, .exited a g ∉ o := fun g hx => hno g (List.mem_append_right tr hx)
  have hold : (.forked a c ∈ tr ∨ .exited c (some a) ∈ tr) ∨ Child s' a c := by
    simp only [List.mem_append] at hevent
    rcases hevent with (hf | hf) | (hx | hx)
    · exact .inl (.inl hf)
    · exact .inr (forked_child hc m hf)
    · exact .inl (.inr hx)
    · exact .inr (exited_child hc m hx)
  rcases hold with hold | hnew
  · rw [reaps_append]
    rcases h a c hold hno1 with ⟨hchild,hnone⟩ | ⟨w,pid,hone⟩
    · rw [hnone, List.nil_append]
      exact child_move hc hi hg m hchild hno2
    · have hgone : Gone s c := by
        have hmem : .reaped w a c pid ∈ reapsOf c tr := by simp [hone]
        exact hh.reaped (List.mem_of_mem_filter hmem)
      have hnone : reapsOf c o = [] := by
        refine reaps_nil.mpr (fun w' x pid' hx => ?_)
        obtain ⟨i,p,-,-,-,hz,-,hb,-⟩ := reaped_seen m hx
        rw [hgone.2 p hb] at hz
        cases hz
      exact .inr ⟨w,pid,by rw [hone, hnone, List.append_nil]⟩
  · exact .inl ⟨hnew,child_unreaped (history_move hc hi hh m) hnew⟩

theorem accounted_run (h : Run (machine n) ReportStep tr s) : Accounted tr s :=
  run_invariant (fun tr s => Accounted tr s) (fun a c hevent => by simp at hevent)
    (fun _ _ _ _ _ hr ha hg hn => accounted_move (coherent_run hr) (identified_run hr)
      (history_run hr) ha hg (step_cases hn)) h

/-- With nobody killed and `waitForProcess` reaping children only, an exit is
reported to the parent alone, and `wait` fails for a process only when each
child it ever forked has been reported to it once. -/
theorem exits_reported_to_parent (n : ℕ) (tr : List Obs) (s : State n)
    (h : Run (machine n) ReportStep tr s) :
    (∀ a c w x pid, .exited c (some a) ∈ tr → (∀ g, .exited a g ∉ tr) →
      .reaped w x c pid ∈ tr → x = a) ∧
    ∀ t1 t2 a, tr = t1 ++ .failed .wait a :: t2 → ∀ c, .forked a c ∈ t1 →
      ∃ w pid, reapsOf c t1 = [.reaped w a c pid] := by
  constructor
  · intro a c w x pid hx hno hr
    have hmem : .reaped w x c pid ∈ reapsOf c tr := by
      simp [reapsOf, isReap, hr]
    rcases accounted_run h a c (.inr hx) hno with ⟨-,hnone⟩ | ⟨w',pid',hone⟩
    · rw [hnone] at hmem
      cases hmem
    · rw [hone] at hmem
      simp only [List.mem_singleton, Obs.reaped.injEq] at hmem
      exact hmem.2.1
  · intro t1 t2 a htr c hf
    obtain ⟨tr1,s1,l,s2,o1,o2,hr,-,hstep,ht1⟩ := run_split h htr
    have m := step_cases hstep
    have ho1 : o1 = [] := by
      have hshort := seen_short m
      simp only [List.length_append, List.length_cons] at hshort
      exact List.length_eq_zero_iff.mp (by omega)
    subst ho1
    rw [List.append_nil] at ht1
    subst ht1
    have hc := coherent_run hr
    obtain ⟨i,run,ha,cause⟩ := failed_seen m (w := .wait) (a := a) (by simp)
    have hrunning := hc.running run
    have hno : ∀ g, .exited a g ∉ t1 := by
      intro g hx
      rcases ((history_run hr).exited hx).2 i ha with hs | hs <;> rw [hrunning] at hs <;> cases hs
    rcases accounted_run hr a c (.inl hf) hno with ⟨⟨p,j,-,-,-,hp,hj⟩,-⟩ | hone
    · have hji : j = i := same_process (identified_run hr) (parent_used hc hp) (by rw [hj, ha])
      subst hji
      rcases cause with hk | hnone
      · rw [(unkilled_run hr).killed] at hk
        cases hk
      · exact absurd hp (hnone p)
    · exact hone

def strangerReaps : List (Fin 1 × Act) :=
  solo (initSteps ++ forkSteps ++ forkSteps ++
    [.yield, .sched, .go true, .call .exit, .go true, .sched, .go true,
      .call (.waitForProcess 2), .go true, .call .exit, .go true, .sched, .sched, .sched, .go true,
      .call .wait, .go true, .call .wait, .go true])

/-- init's first child is reported to its second, and init's `wait` fails
without having returned the first. -/
theorem exit_reported_to_stranger : ∃ s : State 1, Run (machine 1) (fun _ l => ¬ Kills l.2)
    [.born 2, .forked 1 2, .born 3, .forked 1 3, .exited 2 (some 1),
      .reaped (.waitForProcess 2) 3 2 2, .exited 3 (some 1), .reaped .wait 1 3 3,
      .failed .wait 1] s := by
  obtain ⟨o,s,hr,hp⟩ := exec_reaches (S := machine 1) (G := fun _ l => ¬ Kills l.2) strangerReaps
    (fun _ o => o = [.born 2, .forked 1 2, .born 3, .forked 1 3, .exited 2 (some 1),
      .reaped (.waitForProcess 2) 3 2 2, .exited 3 (some 1), .reaped .wait 1 3 3,
      .failed .wait 1]) (by decide +kernel)
  exact ⟨s,hp ▸ hr⟩

/-- init's child exits while init waits for it by pid; `wait` then fails. -/
theorem exits_reported_to_init : ∃ (s : State 1) (tr : List Obs),
    tr = [.born 2, .forked 1 2, .slept (.waitForProcess 2) 1, .exited 2 (some 1),
      .reaped (.waitForProcess 2) 1 2 2] ∧
    Run (machine 1) ReportStep (tr ++ [.failed .wait 1]) s ∧
    ∃ w pid, reapsOf 2 tr = [.reaped w 1 2 pid] := by
  obtain ⟨o,s,hr,hp⟩ := exec_reaches (S := machine 1) (G := ReportStep)
    (solo (initSteps ++ forkSteps ++ [.call (.waitForProcess 2), .go true, .sched, .go true,
      .call .exit, .go true, .sched, .sched, .sched, .go true, .call .wait, .go true]))
    (fun _ o => o = [.born 2, .forked 1 2, .slept (.waitForProcess 2) 1, .exited 2 (some 1),
      .reaped (.waitForProcess 2) 1 2 2] ++ [.failed .wait 1]) (by decide +kernel)
  subst hp
  exact ⟨s,_,rfl,hr,(exits_reported_to_parent 1 _ s hr).2 _ [] 1 rfl 2 (by simp)⟩

end Xv6.ExitReport

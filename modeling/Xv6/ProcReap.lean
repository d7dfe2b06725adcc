import Mathlib.Algebra.Group.Nat.Defs
import Xv6.CpuSwitch
import Xv6.ExitReport

/-!
# Pids and reaping

As long as the counter of pids has not run through half its range, a pid
names one process in the whole run. Both reaping loops free a zombie's stack
and page table with its slot, once, and only when the zombie is off its
stack: until its CPU has left it, the lock is with that CPU.
-/

set_option autoImplicit false

namespace Xv6.ProcReap
open ProcTable ProcMachine TransitionSystem ProcStep ProcEffect
open ProcInvariant ProcIdentity ProcDispatch ExitReport SwitchMachine
open CpuSwitch

theorem pid_injective {b c : ℕ} (hb : b < 2^31) (hc : c < 2^31)
    (h : BitVec.ofNat 32 b = BitVec.ofNat 32 c) : b = c := by
  have := congrArg BitVec.toNat h
  simp only [BitVec.toNat_ofNat] at this
  omega

def returns (pid : Pid) : Obs → Bool
  | .reaped _ _ _ q => q = pid
  | _ => false

def returnsOf (pid : Pid) (tr : List Obs) : List Obs := tr.filter (returns pid)

theorem returns_nil {pid : Pid} {t : List Obs} :
    returnsOf pid t = [] ↔ ∀ w x c, .reaped w x c pid ∉ t := by
  simp only [returnsOf, List.filter_eq_nil_iff]
  constructor
  · intro h w x c hm
    exact h _ hm (by simp [returns])
  · intro h ob hm
    cases ob <;> simp only [returns, Bool.false_eq_true, not_false_eq_true, decide_eq_true_eq]
    rintro rfl
    exact h _ _ _ hm

section Pids
variable {n : ℕ} {s s' : State n} {l : Fin n × Act} {o tr : List Obs}

theorem reaped_pid (hi : Identified s) (m : Move s l s' o) {w : WaitCall} {x c : ℕ} {pid : Pid}
    (h : .reaped w x c pid ∈ o) : pid = BitVec.ofNat 32 c := by
  cases seen_change m with
  | reaped w' i p run pc found zombie =>
    simp only [List.mem_singleton, Obs.reaped.injEq] at h
    obtain ⟨-,-,rfl,rfl⟩ := h
    exact (hi.used (by rw [zombie]; decide)).2
  | _ => simp at h

variable {G : State n → Fin n × Act → Prop}

theorem reaped_pid_run (h : Run (ProcMachine.machine n) G tr s)
    {w : WaitCall} {x c : ℕ} {pid : Pid} (hm : .reaped w x c pid ∈ tr) :
    pid = BitVec.ofNat 32 c := by
  obtain ⟨t1,t2,rfl⟩ := List.append_of_mem hm
  obtain ⟨tr1,s1,l,s2,o1,o2,hr,-,hn,-⟩ := run_split h rfl
  exact reaped_pid (identified_run hr) (step_cases hn)
    (List.mem_append_right o1 List.mem_cons_self)

theorem returned_once (h : Run (ProcMachine.machine n) G tr s)
    (hn : s.nextpid ≤ 2^31) (pid : Pid) : (returnsOf pid tr).length ≤ 1 := by
  refine run_invariant (fun tr s => s.nextpid ≤ 2^31 → (returnsOf pid tr).length ≤ 1)
    (fun _ => by simp [returnsOf]) ?_ h hn
  intro tr s l s' o hr ih _ next hn
  have m := step_cases next
  have hmono := nextpid_mono m
  rw [returnsOf, List.filter_append, List.length_append]
  by_cases ho : returnsOf pid o = []
  · have := ih (by omega)
    rw [show o.filter (returns pid) = [] from ho]
    exact this
  · have hshort : (o.filter (returns pid)).length ≤ 1 :=
      (List.length_filter_le _ _).trans (seen_short m)
    have hnone : returnsOf pid tr = [] := by
      simp only [returns_nil, not_forall, not_not] at ho
      obtain ⟨w,x,c,hx⟩ := ho
      refine returns_nil.mpr (fun w' x' c' hx' => ?_)
      have hgone := (history_run hr).reaped hx'
      have hi := identified_run hr
      obtain ⟨i,p,-,-,-,hz,-,rfl,-⟩ := reaped_seen m hx
      have hfresh := hi.fresh p
      have heq := (reaped_pid_run hr hx').symm.trans (reaped_pid hi m hx)
      rw [pid_injective (by have := hgone.1; omega) (by omega) heq] at hgone
      rw [hgone.2 p rfl] at hz
      cases hz
    rw [show tr.filter (returns pid) = [] from hnone]
    simpa using hshort

theorem pids_distinct (hi : Identified s) (hn : s.nextpid ≤ 2^31) {p q : Slot}
    (hp : (s.proc p).state ≠ .UNUSED) (hq : (s.proc q).state ≠ .UNUSED)
    (heq : (s.proc p).pid = (s.proc q).pid) : p = q := by
  rw [(hi.used hp).2, (hi.used hq).2] at heq
  have h1 := hi.fresh p
  have h2 := hi.fresh q
  exact same_process hi hp (pid_injective (by omega) (by omega) heq)

end Pids

section Turns
variable {n : ℕ} {s s' : Core n} {l : Fin n × Act} {o tr : List Event}

structure Settled (s : Core n) : Prop where
  tracked : Tracked s
  coherent : Coherent s.view
  locked : Locked s.view
  identified : Identified s.view

theorem settled_run (h : Run (SwitchMachine.machine n) (fun _ _ => True) tr s) : Settled s := by
  obtain ⟨ht,hv⟩ := run_view h
  exact ⟨ht,coherent_run hv,locked_run hv,identified_run hv⟩

theorem turn_move (h : Settled s) (m : Turn s l s' o) :
    Move s.view l s'.view (o.filterMap Event.obs) ∨
      (o.filterMap Event.obs = [] ∧ s'.view = s.view) := by
  obtain ⟨-,hnext | hsame⟩ := turn_simulates h.tracked h.coherent h.locked m
  · exact .inl (step_cases hnext)
  · exact .inr hsame

variable {b : ℕ} {g : Option ℕ}

theorem gone_turn (h : Settled s) (m : Turn s l s' o) (hg : Gone s.view b) :
    Gone s'.view b := by
  rcases turn_move h m with hm | ⟨-,hv⟩
  · exact gone_move h.coherent hm hg
  · rwa [hv]

/-- How a process's stack or page table comes to be freed: its slot is reaped,
or its fork fails. -/
inductive PageFreed (s s' : Core n) (b : ℕ) (o : List Event) : Prop
  | reaped (p : Slot) (birth : (s.proc p).birth = b) (zombie : (s.proc p).state = .ZOMBIE)
      (unused : (s'.proc p).state = .UNUSED) (left : ∀ d, s.place d ≠ .leaving p)
      (once : o.count (.kfree b) = 1 ∧ o.count (.freevm b) = 1)
  | forkFail (p : Slot) (birth : (s.proc p).birth = b) (embryo : (s.proc p).state = .EMBRYO)
      (unused : (s'.proc p).state = .UNUSED)

theorem freed_thread (h : Settled s) {c : Fin n} {i : Slot} {a : Act} {t : State n} {x : List Obs}
    (here : s.place c = .run i) (m : Move s.view (c,a) t x)
    (hb : .kfree b ∈ events s.proc (s.thread i).pc x ∨
      .freevm b ∈ events s.proc (s.thread i).pc x) :
    PageFreed s (s.after c i t) b (events s.proc (s.thread i).pc x) := by
  have hi : ∀ {j}, s.view.cpu c = .run j → j = i := by
    intro j hj
    rw [run_cpu here] at hj
    cases hj
    rfl
  cases m with
  | @reaped _ j p ok w chan run pc entered found zombie =>
    have hbirth : (s.proc p).birth = b := by
      simpa [events, freed, eq_comm, Core.view] using hb
    subst hbirth
    refine .reaped p rfl zombie (by simp [Core.after]) ?_ ?_
    · intro d hd
      have hlock := scan_lock h.locked (c := d) (k := p.val+1) (by rw [hd]; rfl)
      rcases entered_lock h.locked run entered with hn | hs
      · rw [show s.lock = none from hn] at hlock
        cases hlock
      · rw [show s.lock = some c from hs] at hlock
        cases hlock
        rw [here] at hd
        cases hd
    · simp [events, freed, Core.view]
  | @forkFail _ j np run on pc =>
    cases hi run
    rcases pc with pc | pc
    · rw [show (s.thread i).pc = _ from pc] at hb
      simp [events, freed] at hb
    · have hbirth : (s.proc np).birth = b := by
        rw [show (s.thread i).pc = _ from pc] at hb
        simpa [events, freed, eq_comm] using hb
      exact .forkFail np hbirth (h.coherent.embryo (forking_at pc rfl)) (by simp [Core.after])
  | @stay _ j a pc o run on source target seen =>
    cases hi run
    rcases seen with rfl | rfl | ⟨q,rfl,-⟩
    · simp [events] at hb
    · rcases source with hs | hs | ⟨q,hs⟩ <;> rw [show (s.thread i).pc = _ from hs] at hb <;>
        simp [events, freed] at hb
    · simp [events, freed] at hb
  | _ => simp [events, freed] at hb

theorem freed_turn (h : Settled s) (m : Turn s l s' o)
    (hb : .kfree b ∈ o ∨ .freevm b ∈ o) : PageFreed s s' b o := by
  cases m with
  | thread here next => exact freed_thread h here (step_cases next) hb
  | _ => simp at hb

theorem freed_used (h : PageFreed s s' b o) :
    ∃ p, (s.proc p).birth = b ∧ (s.proc p).state ≠ .UNUSED ∧ (s'.proc p).state = .UNUSED := by
  cases h with
  | reaped p birth zombie unused => exact ⟨p,birth,by rw [zombie]; decide,unused⟩
  | forkFail p birth embryo unused => exact ⟨p,birth,by rw [embryo]; decide,unused⟩

theorem slot_turn (h : Settled s) (m : Turn s l s' o) {p r : Slot}
    (hp : (s.proc p).state ≠ .UNUSED) (hr : (s'.proc r).birth = (s.proc p).birth) : r = p := by
  rcases turn_move h m with hm | ⟨-,hv⟩
  · exact same_slot h.coherent h.identified hm hp hr
  · have hproc : s'.proc = s.proc := congrArg State.proc hv
    rw [hproc] at hr
    exact (same_process h.identified hp hr.symm).symm

theorem freed_gone (h : Settled s) (m : Turn s l s' o) (hf : PageFreed s s' b o) :
    Gone s'.view b := by
  obtain ⟨p,rfl,hu,hu'⟩ := freed_used hf
  have hmono : s.nextpid ≤ s'.nextpid := by
    rcases turn_move h m with hm | ⟨-,hv⟩
    · exact nextpid_mono hm
    · exact (congrArg State.nextpid hv).ge
  refine ⟨Nat.lt_of_lt_of_le (h.identified.fresh p) hmono,fun r hr => ?_⟩
  rw [slot_turn h m hu hr]
  exact hu'

theorem gone_unfreed (h : Settled s) (m : Turn s l s' o) (hg : Gone s.view b) :
    .kfree b ∉ o ∧ .freevm b ∉ o := by
  have hno : ¬ (.kfree b ∈ o ∨ .freevm b ∈ o) := by
    intro hb
    obtain ⟨p,hbirth,hu,-⟩ := freed_used (freed_turn h m hb)
    exact hu (hg.2 p hbirth)
  tauto

theorem reaped_frees (m : Turn s l s' o) {w : WaitCall} {x b : ℕ} {pid : Pid}
    (hb : .reaped w x b pid ∈ o.filterMap Event.obs) : .kfree b ∈ o := by
  cases m with
  | thread here next =>
    rw [events_obs] at hb
    exact List.mem_flatMap.mpr ⟨_,hb,by simp [freed]⟩
  | _ => simp [Event.obs] at hb

theorem zombie_turn (h : Settled s) (m : Turn s l s' o) {p : Slot}
    (hz : (s.proc p).state = .ZOMBIE) (hno : .kfree (s.proc p).birth ∉ o) :
    (s'.proc p).state = .ZOMBIE ∧ (s'.proc p).birth = (s.proc p).birth := by
  rcases turn_move h m with hm | ⟨-,hv⟩
  · refine ⟨?_,birth_kept hm (p := p) (by rw [show (s.view.proc p).state = _ from hz]; decide)⟩
    have hreap : reapsOf (s.view.proc p).birth (o.filterMap Event.obs) = [] :=
      reaps_nil.mpr (fun w x pid hx => hno (reaped_frees m hx))
    have hkept := born_kept h.coherent hm (by rw [show (s.view.proc p).state = _ from hz]; decide)
      (by rw [show (s.view.proc p).state = _ from hz]; decide) hreap
    exact (zombie_stays h.coherent hm hz).resolve_right hkept.1
  · have hproc : s'.proc = s.proc := congrArg State.proc hv
    rw [hproc]
    exact ⟨hz,rfl⟩

structure Accounts (tr : List Event) (s : Core n) : Prop where
  freed : ∀ {b}, .kfree b ∈ tr ∨ .freevm b ∈ tr → Gone s.view b
  exited : ∀ {b g}, .seen (.exited b g) ∈ tr →
    (∃ p, (s.proc p).birth = b ∧ (s.proc p).state = .ZOMBIE) ∨
      (tr.count (.kfree b) = 1 ∧ tr.count (.freevm b) = 1)

theorem zombie_unfreed (ha : Accounts tr s) {p : Slot} (hz : (s.proc p).state = .ZOMBIE) :
    tr.count (.kfree (s.proc p).birth) = 0 ∧ tr.count (.freevm (s.proc p).birth) = 0 := by
  have hno : ¬ (.kfree (s.proc p).birth ∈ tr ∨ .freevm (s.proc p).birth ∈ tr) := by
    intro hb
    have hu : (s.proc p).state = .UNUSED := (ha.freed hb).2 p rfl
    rw [hz] at hu
    cases hu
  rw [not_or] at hno
  exact ⟨List.count_eq_zero_of_not_mem hno.1,List.count_eq_zero_of_not_mem hno.2⟩

theorem exited_turn (h : Settled s) (m : Turn s l s' o)
    (hx : .seen (.exited b g) ∈ o) : ∃ c i, s.place c = .run i ∧ s'.place c = .leaving i ∧
      (s.proc i).birth = b ∧ (s'.proc i).birth = b ∧ (s'.proc i).state = .ZOMBIE := by
  cases m with
  | @thread c i a t x here next =>
    have hm := step_cases next
    have hmem : .exited b g ∈ x := by
      rw [← events_obs s.proc (s.thread i).pc x]
      exact List.mem_filterMap.mpr ⟨_,hx,rfl⟩
    obtain ⟨j,run,hb,hz,-⟩ := exited_seen hm hmem
    rw [show s.view.cpu c = _ from run_cpu here] at run
    cases run
    have hrun : (s.view.proc i).state = .RUNNING := h.coherent.running (run_cpu here)
    have hoff : t.cpu c ≠ .run i := by
      intro hcpu
      have hrun' := running_move h.coherent hm hcpu
      rw [hz] at hrun'
      cases hrun'
    exact ⟨c,i,here,by rw [after_place, if_pos ⟨rfl,hoff⟩],hb,
      (birth_kept hm (by rw [hrun]; decide)).trans hb,hz⟩
  | _ => simp at hx

theorem accounts_turn (h : Settled s) (ha : Accounts tr s) (m : Turn s l s' o) :
    Accounts (tr++o) s' := by
  constructor
  · intro b hb
    simp only [List.mem_append] at hb
    by_cases hold : .kfree b ∈ tr ∨ .freevm b ∈ tr
    · exact gone_turn h m (ha.freed hold)
    · exact freed_gone h m (freed_turn h m (by tauto))
  · intro b g hx
    rw [List.count_append, List.count_append]
    rcases List.mem_append.mp hx with hold | hnew
    · rcases ha.exited hold with ⟨p,rfl,hz⟩ | ⟨hk,hv⟩
      · by_cases hfree : .kfree (s.proc p).birth ∈ o
        · obtain ⟨hk,hv⟩ := zombie_unfreed ha hz
          rw [hk, hv]
          cases freed_turn h m (.inl hfree) with
          | reaped q birth zombie unused left once => exact .inr (by omega)
          | forkFail q birth embryo =>
            have hqp : q = p :=
              same_process h.identified (by rw [show (s.view.proc q).state = _ from embryo]; decide) birth
            rw [hqp, hz] at embryo
            cases embryo
        · obtain ⟨hz',hb'⟩ := zombie_turn h m hz hfree
          exact .inl ⟨p,hb',hz'⟩
      · have hmem : .kfree b ∈ tr := List.count_pos_iff.mp (by rw [hk]; exact Nat.one_pos)
        obtain ⟨h1,h2⟩ := gone_unfreed h m (ha.freed (.inl hmem))
        rw [List.count_eq_zero_of_not_mem h1, List.count_eq_zero_of_not_mem h2]
        exact .inr ⟨hk,hv⟩
    · obtain ⟨c,i,-,-,-,hb,hz⟩ := exited_turn h m hnew
      exact .inl ⟨i,hb,hz⟩

theorem accounts_run (h : Run (SwitchMachine.machine n) (fun _ _ => True) tr s) : Accounts tr s :=
  run_invariant (fun tr s => Accounts tr s) ⟨by simp,by simp⟩
    (fun _ _ _ _ _ hr ha _ hn => accounts_turn (settled_run hr) ha (step_turn hn)) h

def Left (b : ℕ) (g : Option ℕ) (tr : List Event) : Prop :=
  ∃ u1 u2, tr = u1 ++ .leave b :: u2 ∧ .seen (.exited b g) ∈ u1 ∧ .enter b ∉ u2

theorem left_append (h : Left b g tr) (ho : .enter b ∉ o) :
    Left b g (tr++o) := by
  obtain ⟨u1,u2,rfl,hx,hu⟩ := h
  exact ⟨u1,u2++o,by simp,hx,by simp [hu, ho]⟩

theorem events_stay (t : Table) (pc : Pc) (x : List Obs) (b : ℕ) :
    .enter b ∉ events t pc x ∧ .leave b ∉ events t pc x := by
  have hfreed : ∀ y, .enter b ∉ freed t pc y ∧ .leave b ∉ freed t pc y := by
    intro y
    cases y <;> simp [freed]
    cases pc <;> simp
  simp only [events, List.mem_flatMap, List.mem_append, List.mem_singleton, reduceCtorEq, or_false,
    not_exists, not_and]
  exact ⟨fun y _ => (hfreed y).1,fun y _ => (hfreed y).2⟩

theorem enter_turn (m : Turn s l s' o) (h : .enter b ∈ o) :
    ∃ c p, s.place c = .dispatched p ∧ (s.proc p).birth = b := by
  cases m with
  | @enter c p here saved => exact ⟨c,p,here,by simpa [eq_comm] using h⟩
  | thread => exact absurd h (events_stay _ _ _ b).1
  | _ => simp at h

theorem leave_turn (m : Turn s l s' o) (h : .leave b ∈ o) :
    ∃ c p, s.place c = .leaving p ∧ (s.proc p).birth = b := by
  cases m with
  | @leave c p here held off => exact ⟨c,p,here,by simpa [eq_comm] using h⟩
  | thread => exact absurd h (events_stay _ _ _ b).2
  | _ => simp at h

theorem dead_enter (h : Settled s) (m : Turn s l s' o) (hd : Dead s.view b) :
    .enter b ∉ o := by
  intro he
  obtain ⟨c,p,here,hb⟩ := enter_turn m he
  have hrun : (s.view.proc p).state = .RUNNING :=
    h.coherent.running (c := c) (by simp [Core.view, here, Place.cpu])
  rcases hd.2 p hb with hs | hs <;> rw [hrun] at hs <;> cases hs

theorem gone_leave (h : Settled s) (m : Turn s l s' o) (hg : Gone s.view b) :
    .leave b ∉ o := by
  intro he
  obtain ⟨c,p,here,hb⟩ := leave_turn m he
  have hoff := h.tracked.leaving here
  rw [show (s.proc p).state = .UNUSED from hg.2 p hb] at hoff
  rcases hoff with hoff | hoff | hoff <;> cases hoff

theorem other_place (m : Turn s l s' o) {d : Fin n} (hd : d ≠ l.1) : s'.place d = s.place d := by
  cases m with
  | thread => rw [after_place, if_neg (fun hx => hd hx.1)]
  | wakeup => rfl
  | _ => exact (at_place _ _ _ _).trans (if_neg hd)

theorem leaving_turn (h : Settled s) (m : Turn s l s' o) {d : Fin n} {p : Slot}
    (hd : s.place d = .leaving p) (hz : (s.proc p).state = .ZOMBIE) :
    (s'.place d = .leaving p ∧ (s'.proc p).birth = (s.proc p).birth ∧
      (s'.proc p).state = .ZOMBIE) ∨ o = [.leave (s.proc p).birth] := by
  have hlock : s.lock = some d := scan_lock h.locked (k := p.val+1) (by rw [hd]; rfl)
  by_cases hdl : d = l.1
  · subst hdl
    cases m with
    | acquire here | choose here | release here | dispatch here | enter here | astray here
      | back here | thread here => rw [here] at hd; cases hd
    | leave here =>
      rw [here] at hd
      cases hd
      exact .inr rfl
    | panic here failed =>
      exact (failed ⟨hlock,off_running (h.tracked.leaving here)⟩).elim
    | wakeup free => rw [free] at hlock; cases hlock
  · left
    refine ⟨(other_place m hdl).trans hd,?_⟩
    rcases turn_move h m with hm | ⟨-,hv⟩
    · refine ⟨birth_kept hm (p := p) (by rw [show (s.view.proc p).state = _ from hz]; decide),?_⟩
      rcases state_frozen h.coherent h.locked hm hlock hdl p with hs | ⟨hs,-⟩
      · exact hs.trans hz
      · rw [show (s.view.proc p).state = _ from hz] at hs
        cases hs
    · have hproc : s'.proc = s.proc := congrArg State.proc hv
      rw [hproc]
      exact ⟨rfl,hz⟩

/-- A process that has exited is on its way out of its stack, or has left it. -/
def Trail (tr : List Event) (s : Core n) : Prop :=
  ∀ b g, .seen (.exited b g) ∈ tr →
    (∃ d p, s.place d = .leaving p ∧ (s.proc p).birth = b ∧ (s.proc p).state = .ZOMBIE) ∨
      Left b g tr

theorem trail_turn (h : Settled s) (hdead : ∀ {b g}, .seen (.exited b g) ∈ tr → Dead s.view b)
    (ht : Trail tr s) (m : Turn s l s' o) : Trail (tr++o) s' := by
  intro b g hx
  rcases List.mem_append.mp hx with hold | hnew
  · rcases ht b g hold with ⟨d,p,hd,rfl,hz⟩ | hleft
    · rcases leaving_turn h m hd hz with ⟨hd',hb',hz'⟩ | rfl
      · exact .inl ⟨d,p,hd',hb',hz'⟩
      · exact .inr ⟨tr,[],rfl,hold,by simp⟩
    · exact .inr (left_append hleft (dead_enter h m (hdead hold)))
  · obtain ⟨c,i,-,hc,-,hb,hz⟩ := exited_turn h m hnew
    exact .inl ⟨c,i,hc,hb,hz⟩

theorem dead_run (h : Run (SwitchMachine.machine n) (fun _ _ => True) tr s)
    (hx : .seen (.exited b g) ∈ tr) : Dead s.view b :=
  (history_run (run_view h).2).exited (List.mem_filterMap.mpr ⟨_,hx,rfl⟩)

theorem trail_run (h : Run (SwitchMachine.machine n) (fun _ _ => True) tr s) : Trail tr s :=
  run_invariant (fun tr s => Trail tr s) (fun b g hx => by simp at hx)
    (fun _ _ _ _ _ hr ht _ hn =>
      trail_turn (settled_run hr) (fun hx => dead_run hr hx) ht (step_turn hn)) h

/-- The pages of an exited process are freed after it has left its stack for
the last time. -/
def FreedLast (tr : List Event) : Prop :=
  ∀ b g t1 t2 e, .seen (.exited b g) ∈ tr → tr = t1 ++ e :: t2 → e = .kfree b ∨ e = .freevm b →
    Left b g t1 ∧ .enter b ∉ t2 ∧ .leave b ∉ t2

theorem freed_stays (m : Turn s l s' o) (hb : .kfree b ∈ o ∨ .freevm b ∈ o) :
    .leave b ∉ o := by
  cases m with
  | thread => exact (events_stay _ _ _ b).2
  | _ => simp at hb

theorem freed_exited (h : Settled s) (ha : Accounts tr s) (m : Turn s l s' o)
    (hx : .seen (.exited b g) ∈ tr++o)
    (hb : (.kfree b ∈ tr ∨ .freevm b ∈ tr) ∨ .kfree b ∈ o ∨ .freevm b ∈ o) :
    .seen (.exited b g) ∈ tr := by
  rcases List.mem_append.mp hx with hold | hnew
  · exact hold
  · obtain ⟨c,i,here,-,hbirth,-⟩ := exited_turn h m hnew
    have hrun : (s.proc i).state = .RUNNING := h.coherent.running (run_cpu here)
    rcases hb with hb | hb
    · have hu : (s.proc i).state = .UNUSED := (ha.freed hb).2 i hbirth
      rw [hrun] at hu
      cases hu
    · have hsame : ∀ {p}, (s.proc p).birth = b → (s.proc p).state = .RUNNING := by
        intro p hp
        rw [← same_process h.identified (p := i) (q := p)
          (by rw [show (s.view.proc i).state = _ from hrun]; decide) (hbirth.trans hp.symm)]
        exact hrun
      cases freed_turn h m hb with
      | reaped p birth zombie => rw [hsame birth] at zombie; cases zombie
      | forkFail p birth embryo => rw [hsame birth] at embryo; cases embryo

theorem freed_now (h : Settled s) (ht : Trail tr s) (m : Turn s l s' o)
    (hx : .seen (.exited b g) ∈ tr) (hdead : Dead s.view b)
    (hb : .kfree b ∈ o ∨ .freevm b ∈ o) : Left b g tr := by
  cases freed_turn h m hb with
  | reaped p birth zombie unused left =>
    rcases ht b g hx with ⟨d,q,hd,hq,hz⟩ | hleft
    · have hqp : q = p := same_process h.identified
        (by rw [show (s.view.proc q).state = _ from hz]; decide) (hq.trans birth.symm)
      exact absurd (hqp ▸ hd) (left d)
    · exact hleft
  | forkFail p birth embryo =>
    rcases hdead.2 p birth with hs | hs <;> rw [show (s.view.proc p).state = _ from embryo] at hs <;>
      cases hs

theorem freed_last_turn (h : Settled s) (ha : Accounts tr s) (ht : Trail tr s)
    (hdead : ∀ {b g}, .seen (.exited b g) ∈ tr → Dead s.view b) (hf : FreedLast tr)
    (m : Turn s l s' o) : FreedLast (tr++o) := by
  intro b g t1 t2 e hx htr he
  have hnow : ∀ u, o = u ++ e :: t2 → Left b g (tr++u) ∧ .enter b ∉ t2 ∧ .leave b ∉ t2 := by
    intro u ho
    have hmem : e ∈ o := by rw [ho]; simp
    have hb : .kfree b ∈ o ∨ .freevm b ∈ o := by
      rcases he with rfl | rfl
      · exact .inl hmem
      · exact .inr hmem
    have hold := freed_exited h ha m hx (.inr hb)
    have henter := dead_enter h m (hdead hold)
    have hleave := freed_stays m hb
    rw [ho] at henter hleave
    simp only [List.mem_append, List.mem_cons, not_or] at henter hleave
    exact ⟨left_append (freed_now h ht m hold (hdead hold) hb) henter.1,henter.2.2,hleave.2.2⟩
  rcases List.append_eq_append_iff.mp htr with ⟨u,rfl,ho⟩ | ⟨u,hu,ho⟩
  · exact hnow u ho
  · cases u with
    | nil =>
      rw [List.append_nil] at hu
      have := hnow [] (by simpa using ho.symm)
      rwa [List.append_nil, hu] at this
    | cons y u =>
      simp only [List.cons_append, List.cons.injEq] at ho
      obtain ⟨rfl,rfl⟩ := ho
      have hmem : e ∈ tr := by rw [hu]; simp
      have hb : .kfree b ∈ tr ∨ .freevm b ∈ tr := by
        rcases he with rfl | rfl
        · exact .inl hmem
        · exact .inr hmem
      have hold := freed_exited h ha m hx (.inl hb)
      obtain ⟨hleft,henter,hleave⟩ := hf b g t1 u e hold hu he
      simp only [List.mem_append, not_or]
      exact ⟨hleft,⟨henter,dead_enter h m (hdead hold)⟩,hleave,gone_leave h m (ha.freed hb)⟩

theorem freed_last_run (h : Run (SwitchMachine.machine n) (fun _ _ => True) tr s) :
    FreedLast tr :=
  run_invariant (fun tr _ => FreedLast tr) (fun b g t1 t2 e hx => by simp at hx)
    (fun _ _ _ _ _ hr hf _ hn => freed_last_turn (settled_run hr) (accounts_run hr) (trail_run hr)
      (fun hx => dead_run hr hx) hf (step_turn hn)) h

end Turns

/-- With fewer than 2^31 calls of `allocproc`, slots in use have distinct pids
and a pid is returned once in a run. The pages of an exited process are freed
once, with its slot, after it has left its stack for the last time. -/
theorem reaped_exactly_once (n : ℕ) (tr : List Event) (s : Core n)
    (h : Run (SwitchMachine.machine n) (fun _ _ => True) tr s) (hpids : s.nextpid ≤ 2^31) :
    (∀ p q, (s.proc p).state ≠ .UNUSED → (s.proc q).state ≠ .UNUSED →
      (s.proc p).pid = (s.proc q).pid → p = q) ∧
    (∀ pid, (returnsOf pid (tr.filterMap Event.obs)).length ≤ 1) ∧
    ∀ b g, .seen (.exited b g) ∈ tr →
      (((∃ p, (s.proc p).birth = b ∧ (s.proc p).state = .ZOMBIE) ∧
        tr.count (.kfree b) = 0 ∧ tr.count (.freevm b) = 0) ∨
        (Gone s.view b ∧ tr.count (.kfree b) = 1 ∧ tr.count (.freevm b) = 1)) ∧
      ∀ t1 t2 e, tr = t1 ++ e :: t2 → e = .kfree b ∨ e = .freevm b →
        Left b g t1 ∧ .enter b ∉ t2 ∧ .leave b ∉ t2 := by
  have hv := (run_view h).2
  have hi := identified_run hv
  refine ⟨fun p q hp hq => pids_distinct hi hpids hp hq,returned_once hv hpids,fun b g hx => ⟨?_,
    fun t1 t2 e htr he => freed_last_run h b g t1 t2 e hx htr he⟩⟩
  have ha := accounts_run h
  rcases ha.exited hx with ⟨p,rfl,hz⟩ | ⟨hk,hf⟩
  · exact .inl ⟨⟨p,rfl,hz⟩,zombie_unfreed ha hz⟩
  · have hmem : .kfree b ∈ tr := List.count_pos_iff.mp (by rw [hk]; exact Nat.one_pos)
    exact .inr ⟨ha.freed (.inl hmem),hk,hf⟩

def childExits : List (Fin 1 × Act) :=
  solo ([.sched, .sched, .sched, .sched, .go true] ++ forkSteps ++
    [.call .wait, .go true, .sched, .sched, .sched, .sched, .sched, .go true,
      .call .exit, .go true, .sched, .sched, .sched, .sched, .sched, .sched, .sched, .go true])

theorem child_reaped_once : ∃ (tr : List Event) (s : Core 1),
    Run (SwitchMachine.machine 1) (fun _ _ => True) tr s ∧ s.nextpid ≤ 2^31 ∧
    .seen (.exited 2 (some 1)) ∈ tr ∧ Gone s.view 2 ∧
    tr.count (.kfree 2) = 1 ∧ tr.count (.freevm 2) = 1 := by
  obtain ⟨o,s,hr,hp⟩ := exec_reaches (S := SwitchMachine.machine 1) (G := fun _ _ => True)
    childExits (fun s o => s.nextpid ≤ 2^31 ∧ .seen (.exited 2 (some 1)) ∈ o ∧ .kfree 2 ∈ o)
    (by decide +kernel)
  obtain ⟨hpids,hx,hk⟩ := hp
  refine ⟨o,s,hr,hpids,hx,?_⟩
  rcases ((reaped_exactly_once 1 o s hr hpids).2.2 2 (some 1) hx).1 with ⟨-,hzero,-⟩ | hone
  · exact absurd hk (List.count_eq_zero.mp hzero)
  · exact hone

end Xv6.ProcReap

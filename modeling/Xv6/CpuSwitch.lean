import Xv6.SwitchMachine

/-!
# One CPU for a running process

Every switch finds the context it loads, and the lock keeps a process that is
changing its state on the CPU it is on until it has left its stack. So the
machine with the switch taken apart does what the process machine does, and
its invariants hold of it.
-/

set_option autoImplicit false

namespace Xv6.CpuSwitch
open ProcTable ProcMachine TransitionSystem ProcStep ProcEffect
open ProcInvariant ProcDispatch SwitchMachine

variable {n : ℕ} {s s' : Core n} {l : Fin n × Act} {o : List Event}

def lateFork : Pc → Option Slot
  | .copyuvm np | .parent np | .runnable np => some np
  | _ => none

theorem late_forking {pc : Pc} {np : Slot} (h : lateFork pc = some np) : forking pc = some np := by
  cases pc <;> simp_all [lateFork, forking]

structure Tracked (s : Core n) : Prop where
  chosen : ∀ {c k p}, s.place c = .chosen k p →
    slots.find? (fun p => k ≤ p.val ∧ (s.proc p).state = .RUNNABLE) = some p
  dispatched : ∀ {c p}, s.place c = .dispatched p → s.context p = true ∧ s.lock = some c
  ready : ∀ {p}, (s.proc p).state = .RUNNABLE ∨ (s.proc p).state = .SLEEPING →
    s.context p = true ∨ ∃ c, s.place c = .leaving p
  forked : ∀ {i np}, lateFork (s.thread i).pc = some np → s.context np = true
  leaving : ∀ {c p}, s.place c = .leaving p → Off (s.proc p).state
  sound : ∀ c, s.place c ≠ .panic ∧ s.place c ≠ .wild

theorem tracked_boot : Tracked (SwitchMachine.boot n) := by
  refine ⟨by simp [SwitchMachine.boot],by simp [SwitchMachine.boot],?_,?_,
    by simp [SwitchMachine.boot],by simp [SwitchMachine.boot]⟩
  · intro p hp
    rcases boot_proc (n := n) p with ⟨rfl,-⟩ | ⟨-,hz⟩
    · exact .inl (by simp [SwitchMachine.boot])
    · simp only [SwitchMachine.boot, hz] at hp
      rcases hp with hp | hp <;> cases hp
  · intro i np h
    simp [SwitchMachine.boot, boot_pc, lateFork] at h

@[simp] theorem at_place (s : Core n) (c c' : Fin n) (x : Place) :
    (s.at c x).place c' = if c' = c then x else s.place c' := by
  simp [Core.at, Function.update_apply]

@[simp] theorem at_fields (s : Core n) (c : Fin n) (x : Place) :
    (s.at c x).proc = s.proc ∧ (s.at c x).thread = s.thread ∧ (s.at c x).lock = s.lock ∧
    (s.at c x).nextpid = s.nextpid ∧ (s.at c x).initproc = s.initproc ∧
    (s.at c x).context = s.context := by
  simp [Core.at]

theorem after_place (s : Core n) (c c' : Fin n) (i : Slot) (t : State n) :
    (s.after c i t).place c' =
      if c' = c ∧ t.cpu c ≠ .run i then .leaving i else s.place c' := by
  by_cases ht : t.cpu c = .run i <;> by_cases hc : c' = c <;> simp [Core.after, ht, hc]

theorem after_context (s : Core n) (c : Fin n) (i p : Slot) (t : State n)
    (h : s.context p = true ∨ built (s.thread i).pc (t.thread i).pc = some p) :
    (s.after c i t).context p = true := by
  cases hb : built (s.thread i).pc (t.thread i).pc with
  | none =>
    rw [hb] at h
    simpa [Core.after, hb] using h
  | some np =>
    rw [hb] at h
    by_cases hp : p = np
    · simp [Core.after, hb, hp]
    · simpa [Core.after, hb, hp, Ne.symm hp] using h

theorem scan_lock (hl : Locked s.view) {c : Fin n} {k : ℕ} (h : (s.place c).cpu = .scan k) :
    s.lock = some c :=
  hl c (scan_holds h)

theorem scan_only (hl : Locked s.view) {c d : Fin n} {j k : ℕ} (hc : (s.place c).cpu = .scan j)
    (hd : (s.place d).cpu = .scan k) : c = d :=
  Option.some.inj ((scan_lock hl hc).symm.trans (scan_lock hl hd))

theorem find_frozen {k : ℕ} {t t' : Table}
    (h : ∀ p, (t' p).state = .RUNNABLE ↔ (t p).state = .RUNNABLE) :
    slots.find? (fun p => k ≤ p.val ∧ (t' p).state = .RUNNABLE) =
      slots.find? (fun p => k ≤ p.val ∧ (t p).state = .RUNNABLE) := by
  congr 1
  funext p
  simp only [h p]

theorem late_fork_change {t t' : State n} {x : List Obs} (m : Move t l t' x) {i j np : Slot}
    (run : t.cpu l.1 = .run i) (h : lateFork (t'.thread j).pc = some np) :
    lateFork (t.thread j).pc = some np ∨ built (t.thread i).pc (t'.thread i).pc = some np := by
  cases pc_change m j with
  | same hsame => exact .inl (hsame ▸ h)
  | fresh k pc new | user old new | exit old new => rw [new] at h; cases h
  | call k act old new => cases k <;> rw [new] at h <;> cases h
  | kstack q run' old new | forked q old new => rw [new] at h; cases h
  | parent q old new | runnable q old new => rw [new] at h; exact .inl (by rw [old]; exact h)
  | copyuvm q old new =>
    by_cases hj : j = i
    · subst hj
      rw [new] at h
      cases h
      exact .inr (by rw [old, new]; rfl)
    · rcases other_thread m run hj with hsame | ⟨hnew,-⟩
      · rw [hsame, old] at new
        cases new
      · rw [hnew] at new
        cases new

section Thread
variable {c : Fin n} {i : Slot} {a : Act} {t : State n} {x : List Obs}

theorem run_cpu (here : s.place c = .run i) : s.view.cpu c = .run i := by
  simp [Core.view, here, Place.cpu]

theorem frozen_thread (hc : Coherent s.view) (hl : Locked s.view) (here : s.place c = .run i)
    (m : Move s.view (c,a) t x) {d : Fin n} {k : ℕ} (hd : (s.place d).cpu = .scan k) (p : Slot) :
    (t.proc p).state = (s.proc p).state ∨
      ((s.proc p).state = .EMBRYO ∧ (t.proc p).state = .UNUSED) := by
  refine state_frozen hc hl m (scan_lock hl hd) ?_ p
  rintro rfl
  rw [here] at hd
  cases hd

theorem ready_thread (h : Tracked s) (here : s.place c = .run i)
    (m : Move s.view (c,a) t x) {p : Slot}
    (hp : (t.proc p).state = .RUNNABLE ∨ (t.proc p).state = .SLEEPING) :
    (s.after c i t).context p = true ∨ ∃ d, (s.after c i t).place d = .leaving p := by
  have hkeep : (s.proc p).state = .RUNNABLE ∨ (s.proc p).state = .SLEEPING →
      (s.after c i t).context p = true ∨ ∃ d, (s.after c i t).place d = .leaving p := by
    intro hold
    rcases h.ready hold with hctx | ⟨d,hd⟩
    · exact .inl (after_context s c i p t (.inl hctx))
    · refine .inr ⟨d,?_⟩
      have hdc : d ≠ c := by
        rintro rfl
        rw [here] at hd
        cases hd
      rw [after_place, if_neg (fun hx => hdc hx.1), hd]
  have hself : ∀ {k}, s.view.cpu c = .run p → t.cpu c = .scan k →
      (s.after c i t).context p = true ∨ ∃ d, (s.after c i t).place d = .leaving p := by
    intro k run off
    rw [run_cpu here] at run
    cases run
    exact .inr ⟨c,by rw [after_place, if_pos ⟨rfl,by rw [off]; simp⟩]⟩
  cases state_change m p with
  | same hsame => exact hkeep (hsame ▸ hp)
  | woken old => exact hkeep (.inr old)
  | runnable j pc =>
    exact .inl (after_context s c i p t (.inl (h.forked (by rw [show (s.thread j).pc = _ from pc]; rfl))))
  | leave k run off => exact hself run off
  | alloc old new | dispatch old new | reaped old new =>
    rcases hp with hp | hp <;> rw [new] at hp <;> cases hp
  | forkFail j pc back new => rcases hp with hp | hp <;> rw [new] at hp <;> cases hp
  | exit k run off notinit pc new => rcases hp with hp | hp <;> rw [new] at hp <;> cases hp

theorem tracked_thread (h : Tracked s) (hc : Coherent s.view) (hl : Locked s.view)
    (here : s.place c = .run i) (m : Move s.view (c,a) t x) : Tracked (s.after c i t) := by
  have hold : ∀ {d y}, (s.after c i t).place d = y → y ≠ .leaving i → s.place d = y := by
    intro d y hd hy
    rw [after_place] at hd
    split at hd
    · exact absurd hd.symm hy
    · exact hd
  refine ⟨?_,?_,ready_thread h here m,?_,?_,?_⟩
  · intro d k p hd
    have hd' := hold hd (by simp)
    rw [← h.chosen hd']
    refine find_frozen (fun q => ?_)
    rcases frozen_thread hc hl here m (k := k) (d := d) (by rw [hd']; rfl) q with hq | ⟨hq,hq'⟩
    · rw [← hq]; rfl
    · rw [hq, show ((s.after c i t).proc q).state = _ from hq']
      simp
  · intro d p hd
    have hd' := hold hd (by simp)
    obtain ⟨hctx,hlock⟩ := h.dispatched hd'
    refine ⟨after_context s c i p t (.inl hctx),lock_kept hl m hlock ?_⟩
    rintro rfl
    rw [here] at hd'
    cases hd'
  · intro j np hj
    refine after_context s c i np t ?_
    rcases late_fork_change m (run_cpu here) hj with hlate | hbuilt
    · exact .inl (h.forked hlate)
    · exact .inr hbuilt
  · intro d p hd
    rw [after_place] at hd
    split at hd
    · rename_i hx
      cases hd
      rcases cpu_leaves m (run_cpu here) with hkept | ⟨-,hleft⟩
      · exact absurd hkept hx.2
      · exact hleft
    · rcases frozen_thread hc hl here m (d := d) (by rw [hd]; rfl) p with hq | ⟨hq,-⟩
      · rw [show ((s.after c i t).proc p).state = _ from hq]
        exact h.leaving hd
      · have hoff := h.leaving hd
        rw [hq] at hoff
        rcases hoff with hoff | hoff | hoff <;> cases hoff
  · intro d
    constructor
    · exact fun hd => (h.sound d).1 (hold hd (by simp))
    · exact fun hd => (h.sound d).2 (hold hd (by simp))

end Thread

section Scheduler
variable {c : Fin n} {x : Place}

theorem tracked_at (h : Tracked s) (hlock : ∀ k p, x = .chosen k p →
      slots.find? (fun p => k ≤ p.val ∧ (s.proc p).state = .RUNNABLE) = some p)
    (hgone : ∀ p, s.place c ≠ .leaving p) (hx : ∀ p, x ≠ .dispatched p ∧ x ≠ .leaving p)
    (hs : x ≠ .panic ∧ x ≠ .wild) : Tracked (s.at c x) := by
  have hold : ∀ {d y}, (s.at c x).place d = y → x ≠ y → s.place d = y := by
    intro d y hd hy
    rw [at_place] at hd
    split at hd
    · exact absurd hd hy
    · exact hd
  refine ⟨?_,?_,?_,?_,?_,?_⟩
  · intro d k p hd
    by_cases hdc : x = .chosen k p
    · exact hlock k p hdc
    · exact h.chosen (hold hd hdc)
  · exact fun hd => h.dispatched (hold hd (hx _).1)
  · intro p hp
    rcases h.ready hp with hctx | ⟨d,hd⟩
    · exact .inl hctx
    · have hdc : d ≠ c := by
        rintro rfl
        exact hgone p hd
      exact .inr ⟨d,by rw [at_place, if_neg hdc, hd]⟩
  · exact h.forked
  · exact fun hd => h.leaving (hold hd (hx _).2)
  · intro d
    exact ⟨fun hd => (h.sound d).1 (hold hd hs.1),fun hd => (h.sound d).2 (hold hd hs.2)⟩

theorem tracked_lock (h : Tracked s) (hnone : ∀ d p, s.place d ≠ .dispatched p)
    (k : Option (Fin n)) : Tracked { s with lock := k } :=
  ⟨h.chosen,fun hd => absurd hd (hnone _ _),h.ready,h.forked,h.leaving,h.sound⟩

theorem tracked_dispatch (h : Tracked s) (hl : Locked s.view) {k : ℕ} {p : Slot}
    (here : s.place c = .chosen k p) :
    Tracked { s.at c (.dispatched p) with proc := setState p .RUNNING s.proc } := by
  have hcpu : (s.place c).cpu = .scan k := by rw [here]; rfl
  have halone : ∀ {d q}, s.place d ≠ .leaving q := by
    intro d q hd
    have hdc : c = d := scan_only hl hcpu (by rw [hd]; rfl)
    rw [← hdc, here] at hd
    cases hd
  have hready : (s.proc p).state = .RUNNABLE := by
    have hp := find_slot_some (h.chosen here)
    simp only [decide_eq_true_eq] at hp
    exact hp.2
  refine ⟨?_,?_,?_,h.forked,?_,?_⟩
  · intro d j q hd
    simp only [at_place] at hd
    split at hd
    · cases hd
    · rename_i hdc
      exact absurd (scan_only hl (by rw [hd]; rfl) hcpu) hdc
  · intro d q hd
    simp only [at_place] at hd
    split at hd
    · rename_i hdc
      subst hdc
      cases hd
      rcases h.ready (.inl hready) with hctx | ⟨e,he⟩
      · exact ⟨hctx,scan_lock hl hcpu⟩
      · exact absurd he halone
    · exact h.dispatched hd
  · intro q hq
    have hne : q ≠ p := by
      rintro rfl
      simp at hq
    simp only [set_state_fields, if_neg hne] at hq
    rcases h.ready hq with hctx | ⟨e,he⟩
    · exact .inl hctx
    · exact absurd he halone
  · intro d q hd
    simp only [at_place] at hd
    split at hd
    · cases hd
    · exact absurd hd halone
  · intro d
    simp only [at_place]
    split
    · simp
    · exact h.sound d

theorem tracked_enter (h : Tracked s) (hc : Coherent s.view) {p : Slot}
    (here : s.place c = .dispatched p) :
    Tracked { s.at c (.run p) with context := Function.update s.context p false } := by
  have hcpu : s.view.cpu c = .run p := by simp [Core.view, here, Place.cpu]
  have hrun : (s.proc p).state = .RUNNING := hc.running hcpu
  have hat : Tracked (s.at c (.run p)) :=
    tracked_at h (by simp) (by simp [here]) (by simp) (by simp)
  refine ⟨hat.chosen,?_,?_,?_,hat.leaving,hat.sound⟩
  · intro d q hd
    have hqp : q ≠ p := by
      rintro rfl
      simp only [at_place] at hd
      split at hd
      · cases hd
      · rename_i hdc
        exact hdc (hc.unique (by simp [Core.view, hd, Place.cpu]) hcpu)
    simpa [hqp] using hat.dispatched hd
  · intro q hq
    have hqp : q ≠ p := by
      rintro rfl
      simp [hrun] at hq
    simpa [hqp] using hat.ready hq
  · intro i np hi
    have hnp : np ≠ p := by
      rintro rfl
      have he : (s.proc np).state = .EMBRYO := hc.embryo (late_forking hi)
      rw [hrun] at he
      cases he
    simpa [hnp] using hat.forked hi

theorem tracked_leave (h : Tracked s) {p : Slot} (here : s.place c = .leaving p) :
    Tracked { s.at c (.back p) with context := Function.update s.context p true } := by
  have hold : ∀ {d y}, (s.at c (.back p)).place d = y → y ≠ .back p → s.place d = y := by
    intro d y hd hy
    rw [at_place] at hd
    split at hd
    · exact absurd hd.symm hy
    · exact hd
  have hctx : ∀ {q}, s.context q = true → Function.update s.context p true q = true := by
    intro q hq
    by_cases hqp : q = p <;> simp [hqp, hq]
  refine ⟨fun hd => h.chosen (hold hd (by simp)),
    fun hd => ⟨hctx (h.dispatched (hold hd (by simp))).1,(h.dispatched (hold hd (by simp))).2⟩,?_,fun hi =>
    hctx (h.forked hi),fun hd => h.leaving (hold hd (by simp)),?_⟩
  · intro q hq
    rcases h.ready hq with hc | ⟨d,hd⟩
    · exact .inl (hctx hc)
    · by_cases hdc : d = c
      · subst hdc
        rw [here] at hd
        cases hd
        exact .inl (by simp)
      · exact .inr ⟨d,by simp [hdc, hd]⟩
  · intro d
    exact ⟨fun hd => (h.sound d).1 (hold hd (by simp)),fun hd => (h.sound d).2 (hold hd (by simp))⟩

theorem tracked_wakeup (h : Tracked s) (hl : Locked s.view) (free : s.lock = none)
    {x : Option Chan} : Tracked { s with proc := wakeup1 x s.proc } := by
  have halone : ∀ {d k}, (s.place d).cpu ≠ .scan k := by
    intro d k hd
    have hlock := scan_lock hl hd
    rw [free] at hlock
    cases hlock
  refine ⟨?_,h.dispatched,?_,h.forked,?_,h.sound⟩
  · intro d k p hd
    exact absurd (by rw [show s.place d = _ from hd]; rfl) (halone (d := d) (k := k))
  · intro p hp
    apply h.ready
    rcases wakeup1_woken x s.proc p with hsame | ⟨hold,-⟩
    · rw [show (s.proc p).state = _ from hsame.symm]
      exact hp
    · exact .inr hold
  · intro d p hd
    exact absurd (by rw [show s.place d = _ from hd]; rfl) (halone (d := d) (k := p.val+1))

end Scheduler

theorem view_at {c : Fin n} {x : Place} (h : x.cpu = (s.place c).cpu) : (s.at c x).view = s.view := by
  simp only [Core.view, at_fields, State.mk.injEq, true_and]
  funext d
  rw [at_place]
  split_ifs with hd
  · rw [hd, h]
  · rfl

theorem at_cpu (s : Core n) (c : Fin n) (x : Place) :
    (fun d => ((s.at c x).place d).cpu) = Function.update s.view.cpu c x.cpu := by
  funext d
  by_cases hd : d = c
  · subst hd; simp
  · simp [hd, Core.view]

theorem view_after {c : Fin n} {i : Slot} {a : Act} {t : State n} {x : List Obs}
    (here : s.place c = .run i) (m : Move s.view (c,a) t x) : (s.after c i t).view = t := by
  have hcpu : (fun d => ((s.after c i t).place d).cpu) = t.cpu := by
    funext d
    rw [after_place]
    by_cases hd : d = c
    · subst hd
      rcases own_cpu m (run_cpu here) with hkept | hoff
      · rw [if_neg (fun hx => hx.2 hkept), show t.cpu d = _ from hkept, here]
        rfl
      · rw [if_pos ⟨rfl,by rw [show t.cpu d = _ from hoff]; simp⟩, show t.cpu d = _ from hoff]
        rfl
    · rw [if_neg (fun hx => hd hx.1)]
      exact (other_cpu m hd).symm
  exact congrArg (fun f => State.mk t.proc t.thread t.nextpid t.initproc t.lock f) hcpu

theorem events_obs (t : Table) (pc : Pc) (x : List Obs) :
    (events t pc x).filterMap Event.obs = x := by
  induction x with
  | nil => rfl
  | cons y ys ih =>
    have hfreed : (freed t pc y).filterMap Event.obs = [] := by
      cases y <;> try rfl
      cases pc <;> rfl
    rw [events, List.flatMap_cons, List.filterMap_append, List.filterMap_append, hfreed]
    exact congrArg (y :: ·) ih

theorem turn_simulates (h : Tracked s) (hc : Coherent s.view) (hl : Locked s.view)
    (m : Turn s l s' o) : Tracked s' ∧
      (ProcMachine.step s.view l = some (s'.view,o.filterMap Event.obs) ∨
        (o.filterMap Event.obs = [] ∧ s'.view = s.view)) := by
  cases m with
  | @acquire c here free =>
    have hnone : ∀ d p, (s.at c (.scan 0)).place d ≠ .dispatched p := by
      intro d p hd
      rw [at_place] at hd
      split at hd
      · cases hd
      · have hlock := (h.dispatched hd).2
        rw [free] at hlock
        cases hlock
    refine ⟨tracked_lock (tracked_at h (by simp) (by simp [here]) (by simp) (by simp)) hnone _,
      .inl ?_⟩
    have hv : s.view.cpu c = .idle := by simp [Core.view, here, Place.cpu]
    have hf : s.view.lock = none := free
    simp only [ProcMachine.step, schedulerStep, hv, hf, if_true]
    exact congrArg (fun f => some (State.mk s.proc s.thread s.nextpid s.initproc (some c) f,[]))
      (at_cpu s c (.scan 0)).symm
  | @choose c k p here first =>
    refine ⟨tracked_at h ?_ (by simp [here]) (by simp) (by simp),.inr ⟨rfl,view_at ?_⟩⟩
    · rintro j q hq
      cases hq
      exact first
    · rw [here]; rfl
  | @release c k here none =>
    have hnone : ∀ d p, (s.at c .loop).place d ≠ .dispatched p := by
      intro d p hd
      rw [at_place] at hd
      split at hd
      · cases hd
      · rename_i hdc
        have hlock := scan_lock (c := c) (k := k) hl (by rw [here]; rfl)
        rw [(h.dispatched hd).2] at hlock
        exact hdc (Option.some.inj hlock)
    refine ⟨tracked_lock (tracked_at h (by simp) (by simp [here]) (by simp) (by simp)) hnone _,
      .inl ?_⟩
    have hv : s.view.cpu c = .scan k := by simp [Core.view, here, Place.cpu]
    have hf : slots.find? (fun p => k ≤ p.val ∧ (s.view.proc p).state = .RUNNABLE) = .none := none
    simp only [ProcMachine.step, schedulerStep, hv, hf]
    exact congrArg (fun f => some (State.mk s.proc s.thread s.nextpid s.initproc .none f,[]))
      (at_cpu s c .loop).symm
  | @dispatch c k p here =>
    refine ⟨tracked_dispatch h hl here,.inl ?_⟩
    have hv : s.view.cpu c = .scan k := by simp [Core.view, here, Place.cpu]
    have hf : slots.find? (fun p => k ≤ p.val ∧ (s.view.proc p).state = .RUNNABLE) = some p :=
      h.chosen here
    simp only [ProcMachine.step, schedulerStep, hv, hf]
    exact congrArg (fun f => some (State.mk (setState p .RUNNING s.proc) s.thread s.nextpid
      s.initproc s.lock f,[])) (at_cpu s c (.dispatched p)).symm
  | @enter c p here saved =>
    exact ⟨tracked_enter h hc here,.inr ⟨rfl,view_at (x := .run p) (by rw [here]; rfl)⟩⟩
  | @astray c p here lost =>
    rw [(h.dispatched here).1] at lost
    cases lost
  | @leave c p here held off =>
    exact ⟨tracked_leave h here,.inr ⟨rfl,view_at (x := .back p) (by rw [here]; rfl)⟩⟩
  | @panic c p here failed =>
    exact absurd ⟨scan_lock hl (by rw [here]; rfl),off_running (h.leaving here)⟩ failed
  | @back c p here =>
    exact ⟨tracked_at h (by simp) (by simp [here]) (by simp) (by simp),
      .inr ⟨rfl,view_at (by rw [here]; rfl)⟩⟩
  | @wakeup c a free =>
    refine ⟨tracked_wakeup h hl free,.inl ?_⟩
    have hf : s.view.lock = none := free
    simp only [ProcMachine.step]
    rw [if_pos hf]
    rfl
  | @thread c i a t x here next =>
    have m := step_cases next
    refine ⟨tracked_thread h hc hl here m,.inl ?_⟩
    rw [next, view_after here m, events_obs]

theorem run_view {tr : List Event}
    (h : Run (SwitchMachine.machine n) (fun _ _ => True) tr s) :
    Tracked s ∧ Run (ProcMachine.machine n) (fun _ _ => True) (tr.filterMap Event.obs) s.view := by
  have hsim := run_simulation (T := ProcMachine.machine n) (H := fun _ _ => True)
    (fun s t => Tracked s ∧ s.view = t)
    Event.obs ⟨tracked_boot,rfl⟩ (by
      rintro s t tr l s' o ht ⟨hs,rfl⟩ - next
      obtain ⟨hs',hnext | ⟨hnone,hv⟩⟩ :=
        turn_simulates hs (coherent_run ht) (locked_run ht) (step_turn next)
      · exact .inl ⟨l,_,trivial,hnext,hs',rfl⟩
      · exact .inr ⟨hnone,hs',hv⟩) h
  obtain ⟨t,ht,hs,rfl⟩ := hsim
  exact ⟨hs,ht⟩

theorem free_proc (h : Tracked s) (hl : Locked s.view) (free : s.lock = none) {c : Fin n}
    {p : Slot} : (s.place c).proc = some p ↔ s.view.cpu c = .run p := by
  have hscan : ∀ k, (s.place c).cpu ≠ .scan k := by
    intro k hk
    have hlock := scan_lock hl hk
    rw [free] at hlock
    cases hlock
  have hdisp : ∀ q, s.place c ≠ .dispatched q := by
    intro q hq
    have hlock := (h.dispatched hq).2
    rw [free] at hlock
    cases hlock
  simp only [Core.view]
  cases hc : s.place c <;> rw [hc] at hscan hdisp <;> simp_all [Place.proc, Place.cpu]

theorem stack_unique (h : Tracked s) (hc : Coherent s.view) (hl : Locked s.view) {c d : Fin n}
    {p : Slot} (hs : (s.place c).stack = some p) (hd : (s.place d).stack = some p) : c = d := by
  have hcases : ∀ {e}, (s.place e).stack = some p →
      s.view.cpu e = .run p ∨ s.place e = .leaving p := by
    intro e he
    simp only [Core.view]
    cases hx : s.place e <;> rw [hx] at he <;> simp_all [Place.stack, Place.cpu]
  have hmix : ∀ {e f}, s.view.cpu e = .run p → s.place f ≠ .leaving p :=
    fun he hf => off_running (h.leaving hf) (hc.running he)
  rcases hcases hs with hs | hs <;> rcases hcases hd with hd | hd
  · exact hc.unique hs hd
  · exact absurd hd (hmix hs)
  · exact absurd hs (hmix hd)
  · exact scan_only hl (by rw [hs]; rfl) (by rw [hd]; rfl)

/-- With `ptable.lock` free the running slots are those of the CPUs, one CPU
each; a slot is dispatched from `RUNNABLE` with its context saved, a kernel
stack has at most one CPU, and no switch goes astray or panics. -/
theorem one_cpu_for_running (n : ℕ) (s : Core n) (h : Reachable (SwitchMachine.machine n) s) :
    (s.lock = none → (∀ p, (s.proc p).state = .RUNNING ↔ ∃! c, (s.place c).proc = some p) ∧
      ∀ c p, (s.place c).proc = some p → (s.proc p).state = .RUNNING) ∧
    (∀ c k p, s.place c = .chosen k p → (s.proc p).state = .RUNNABLE) ∧
    (∀ c p, s.place c = .dispatched p → (s.proc p).state = .RUNNING ∧ s.context p = true) ∧
    (∀ c d p, (s.place c).stack = some p → (s.place d).stack = some p → c = d) ∧
    ∀ c, s.place c ≠ .panic ∧ s.place c ≠ .wild := by
  obtain ⟨tr,hrun⟩ := h
  obtain ⟨ht,hv⟩ := run_view hrun
  have hc := coherent_run hv
  have hl := locked_run hv
  refine ⟨fun free => ⟨fun p => ⟨fun hp => ?_,?_⟩,?_⟩,?_,?_,fun c d p => stack_unique ht hc hl,
    ht.sound⟩
  · obtain ⟨c,hcpu⟩ := runs_somewhere_run hv p hp
    refine ⟨c,(free_proc ht hl free).mpr hcpu,fun d hd => ?_⟩
    exact hc.unique ((free_proc ht hl free).mp hd) hcpu
  · rintro ⟨c,hcpu,-⟩
    exact hc.running ((free_proc ht hl free).mp hcpu)
  · exact fun c p hcpu => hc.running ((free_proc ht hl free).mp hcpu)
  · intro c k p here
    have hp := find_slot_some (ht.chosen here)
    simp only [decide_eq_true_eq] at hp
    exact hp.2
  · intro c p here
    exact ⟨hc.running (c := c) (by simp [Core.view, here, Place.cpu]),(ht.dispatched here).1⟩

/-- The second of two CPUs switches to init, which releases the lock. -/
theorem one_cpu_for_init : ∃ s : Core 2, Reachable (SwitchMachine.machine 2) s ∧
    s.lock = none ∧ (s.proc 0).state = .RUNNING ∧ ∃! c, (s.place c).proc = some 0 := by
  obtain ⟨o,s,hr,hp⟩ := exec_reaches (S := SwitchMachine.machine 2) (G := fun _ _ => True)
    [(1,.sched),(1,.sched),(1,.sched),(1,.sched),(1,.go true)]
    (fun s _ => s.lock = none ∧ (s.proc 0).state = .RUNNING) (by decide +kernel)
  exact ⟨s,⟨o,hr⟩,hp.1,hp.2,(((one_cpu_for_running 2 s ⟨o,hr⟩).1 hp.1).1 0).mp hp.2⟩

end Xv6.CpuSwitch

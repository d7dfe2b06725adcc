import Xv6.SleepLocks

/-!
# No wakeup is lost

Any number of threads share a condition under a lock, `ptable.lock` or
another. Each does over and over what a sleeper does, `acquire(lk);
while(!cond) sleep(chan, lk); ... release(lk)`, or what a waker does: it makes
the condition true under the lock and calls `wakeup`, before or after it
releases the lock. Between a sleeper's last test and the write of its state a
waker can get in only where it has not yet woken anybody.
-/

set_option autoImplicit false

namespace Xv6.LostWakeup
open ProcTable TransitionSystem SleepMachine SleepLocks

/-- A sleeper is at `test` to `leave`, a waker at `make` to `wakeAfter`; the
lock is taken behind `sleeper` and `waker`. -/
inductive Point where
  | idle
  | sleeper
  | test
  | wait
  | use
  | leave
  | waker
  | make
  | wakeBefore
  | unlock
  | wakeAfter
  deriving DecidableEq

/-- The role of the next round, what a sleeper leaves in the shared memory, and
what a waker does, with `after` for a wakeup behind the release. -/
inductive Input (σ : Type) where
  | sleeper
  | waker
  | use (v : σ)
  | make (v : σ) (after : Bool)
  deriving DecidableEq

inductive Mark where
  | tested (cond : Bool)
  | made
  deriving DecidableEq

variable {ι σ : Type} {cond : σ → Bool} {lk : Lock Unit}

def prog (cond : σ → Bool) (lk : Lock Unit) :
    Point → Instr ι Unit Unit σ Point (Input σ) Mark
  | .idle => .step (fun _ m b => match b with
      | .sleeper => some (m,.sleeper,[])
      | .waker => some (m,.waker,[])
      | _ => none)
  | .sleeper => .acquire lk .test
  | .test => .step (fun _ m _ => some (m,if cond m then .use else .wait,[.tested (cond m)]))
  | .wait => .sleep () lk .test
  | .use => .step (fun _ _ b => match b with
      | .use v => some (v,.leave,[])
      | _ => none)
  | .leave => .release lk .idle
  | .waker => .acquire lk .make
  | .make => .step (fun _ _ b => match b with
      | .make v after =>
        if cond v then some (v,if after then .unlock else .wakeBefore,[.made]) else none
      | _ => none)
  | .wakeBefore => match lk with
    | .ptable => .wakeup1 () .leave
    | .spin _ => .wakeup () .leave
  | .unlock => .release lk .wakeAfter
  | .wakeAfter => .wakeup () .idle

def client (m : σ) (cond : σ → Bool) (lk : Lock Unit) :
    Client ι Unit Unit σ Point (Input σ) Mark where
  shared := m
  start := fun _ => .idle
  prog := fun _ => prog cond lk

def holds (lk : Lock Unit) : Point → Lock Unit → Prop
  | .test, j | .wait, j | .use, j | .leave, j | .make, j | .wakeBefore, j | .unlock, j => j = lk
  | .idle, _ | .sleeper, _ | .waker, _ | .wakeAfter, _ => False

theorem disciplined (m : σ) : Disciplined (client (ι := ι) m cond lk) (holds lk) := by
  refine ⟨fun p k hk => hk,fun p x => ?_⟩
  cases x with
  | idle =>
    intro d m b m' y o h
    cases b <;> cases h <;> simp [holds]
  | sleeper | waker => simp [client, prog, InstrOk, holds]
  | test =>
    intro d m b m' y o h
    cases h
    split <;> simp [holds]
  | wait => simp [client, prog, InstrOk, holds]
  | use =>
    intro d m b m' y o h
    cases b <;> cases h
    simp [holds]
  | leave | unlock => simp [client, prog, InstrOk, holds]
  | make =>
    intro d m b m' y o h
    cases b <;> try cases h
    rename_i v after
    simp only at h
    split at h
    · cases h
      cases after <;> simp [holds]
    · cases h
  | wakeBefore => cases lk <;> simp [client, prog, InstrOk, holds]
  | wakeAfter => simp [client, prog, InstrOk, holds]

abbrev Sys (ι σ : Type) := State ι Unit Unit σ Point
abbrev Trace (ι : Type) := List (Event ι Unit Mark)

variable {m₀ : σ} {s s' : Sys ι σ} {l : Label ι (Input σ)} {tr o : Trace ι}

def Holding : Place ι Unit Unit Point → Prop
  | .code .wait | .enter _ _ _ | .drop _ _ _ => True
  | _ => False

def Waiting (s : Sys ι σ) (p : ι) : Prop :=
  Holding (s.place p) ∨ (∃ k y, s.place p = .mark () k y) ∨ s.state p = .SLEEPING

theorem step_seen {x y : Point} {f : Bool → σ → Input σ → Option (σ × Point × List Mark)} {d : Bool}
    {b : Input σ} {m m' : σ} {e : List Mark} (hp : prog (ι := ι) cond lk x = .step f)
    (h : f d m b = some (m',y,e)) :
    (e = [] ∧ y ≠ .wait) ∨ (x = .test ∧ ∃ r, e = [.tested r] ∧ (y = .wait → r = false)) ∨
      (x = .make ∧ e = [.made] ∧ y ≠ .wait) := by
  cases x with
  | idle =>
    cases hp
    cases b <;> cases h <;> simp
  | test =>
    cases hp
    cases h
    cases cond m <;> simp
  | use =>
    cases hp
    cases b <;> cases h
    simp
  | make =>
    cases hp
    cases b <;> try cases h
    rename_i v after
    simp only at h
    split at h
    · cases h
      cases after <;> simp
    · cases h
  | wakeBefore => cases lk <;> cases hp
  | sleeper | wait | leave | waker | unlock | wakeAfter => cases hp

theorem next_wait (x : Point) : (prog (ι := ι) (σ := σ) cond lk x).next ≠ some .wait := by
  cases x <;> try simp [prog, Instr.next]
  cases lk <;> simp

variable {x : Place ι Unit Unit Point} {p : ι} {k : Lock Unit}

theorem sleep_wait {x y : Point} {c : Unit}
    (hp : prog (ι := ι) (σ := σ) cond lk x = .sleep c k y) : x = .wait ∧ k = lk := by
  cases x with
  | wait => cases hp; exact ⟨rfl,rfl⟩
  | wakeBefore => cases lk <;> cases hp
  | idle | sleeper | test | use | leave | waker | make | unlock | wakeAfter => cases hp

theorem holding_arc {d : Bool} {m : σ} {x y : Place ι Unit Unit Point}
    (arc : Arc (client m₀ cond lk) p d m x y o) (hcall : Called (client m₀ cond lk) p x) (h : Holding y) :
    Holding x ∨ o = [.own p (.tested false)] := by
  cases y with
  | code y =>
    cases y with
    | wait =>
      rcases arc_code arc hcall with ⟨z,hz⟩ | ⟨z,f,b,m',e,-,prog,next,rfl⟩
      · exact absurd hz (next_wait z)
      · rcases step_seen prog next with ⟨-,hne⟩ | ⟨-,r,rfl,hr⟩ | ⟨-,-,hne⟩
        · exact absurd rfl hne
        · rw [hr rfl]
          exact .inr rfl
        · exact absurd rfl hne
    | _ => exact h.elim
  | enter c k y =>
    rcases arc with arc | arc | arc | _ | _ | _ | _ | _ | arc | _ <;> cases arc
    rename_i prog
    rw [(sleep_wait prog).1]
    exact .inl trivial
  | drop c l y =>
    rcases arc with arc | arc | arc | _ | _ | _ | _ | _ | arc | _ <;> cases arc
    exact .inl trivial
  | _ => exact h.elim

theorem mark_arc {d : Bool} {m : σ}
    {y : Point} (arc : Arc (client m₀ cond lk) p d m x (.mark () k y) o) : Holding x := by
  rcases arc with arc | arc | arc | _ | _ | _ | _ | _ | arc | _ <;> cases arc <;> trivial

theorem holding_turn [DecidableEq ι] (hcall : ∀ q, Called (client m₀ cond lk) q (s.place q))
    (m : Turn (client m₀ cond lk) s l s' o) (h : Holding (s'.place p)) :
    Holding (s.place p) ∨ o = [.own p (.tested false)] := by
  by_cases hact : actor l = some p
  · exact holding_arc (place_turn m hact) (hcall p) h
  · rw [other_place m hact] at h
    exact .inl h

theorem waiting_turn [DecidableEq ι] (hcall : ∀ q, Called (client m₀ cond lk) q (s.place q))
    (m : Turn (client m₀ cond lk) s l s' o) (h : Waiting s' p) :
    Waiting s p ∨ o = [.own p (.tested false)] := by
  rcases h with h | ⟨k,y,h⟩ | h
  · rcases holding_turn hcall m h with h | h
    · exact .inl (.inl h)
    · exact .inr h
  · left
    by_cases hact : actor l = some p
    · have arc := place_turn m hact
      rw [h] at arc
      exact .inl (mark_arc arc)
    · exact .inr (.inl ⟨k,y,by rwa [other_place m hact] at h⟩)
  · rcases sleeping_turn m h with h | ⟨c,k,y,hmark⟩
    · exact .inl (.inr (.inr h))
    · exact .inl (.inr (.inl ⟨k,y,hmark⟩))

/-- No waker has made the condition true and then run its wakeup. -/
def Quiet (t : Trace ι) : Prop :=
  ∀ q u1 u2, t = u1 ++ .own q .made :: u2 → .woke q () ∉ u2

theorem quiet_snoc {t : Trace ι} {e : Event ι Unit Mark} (h : Quiet t)
    (he : ∀ q, e = .woke q () → .own q .made ∉ t) : Quiet (t++[e]) := by
  intro q u1 u2 ht hw
  rcases List.eq_nil_or_concat u2 with rfl | ⟨v,x,rfl⟩
  · cases hw
  · rw [List.concat_eq_append, ← List.cons_append, ← List.append_assoc] at ht
    obtain ⟨rfl,hx⟩ := List.append_inj' ht rfl
    cases hx
    rw [List.concat_eq_append, List.mem_append, List.mem_singleton] at hw
    rcases hw with hw | hw
    · exact h q u1 v rfl hw
    · exact he q hw.symm (by simp)

/-- Behind the last test of a waiting sleeper, which failed, no wakeup has been
missed, and nobody has made the condition true while it had the lock. -/
def Missed (tr : Trace ι) (s : Sys ι σ) : Prop :=
  ∀ p, Waiting s p → ∃ t1 t2, tr = t1 ++ .own p (.tested false) :: t2 ∧
    (∀ r, .own p (.tested r) ∉ t2) ∧ Quiet t2 ∧
    (Holding (s.place p) → ∀ q, .own q .made ∉ t2)

theorem holding_lock
    (hcall : Called (client m₀ cond lk) p x) (h : Holding x) : PlaceHolds (holds lk) x lk := by
  cases x with
  | code x => cases x <;> first | exact h.elim | rfl
  | enter c k y =>
    obtain ⟨x,hx⟩ := hcall
    exact (sleep_wait hx).2.symm
  | drop c l y =>
    obtain ⟨x,hx⟩ := hcall
    exact .inr (sleep_wait hx).2.symm
  | _ => exact h.elim

theorem seen_turn [DecidableEq ι] (m : Turn (client m₀ cond lk) s l s' o) : o = [] ∨
    (∃ q r, o = [.own q (.tested r)] ∧ s.place q = .code .test) ∨
    (∃ q, o = [.own q .made] ∧ s.place q = .code .make) ∨
    ∃ q x, o = [.woke q ()] ∧ Wakes (client m₀ cond lk) q (s.place q) () x ∧
      s' = (s.wakeup1 ()).at q x := by
  cases m with
  | @step p b x y f m' e here prog next =>
    rcases step_seen prog next with ⟨rfl,-⟩ | ⟨rfl,r,rfl,-⟩ | ⟨rfl,rfl,-⟩
    · exact .inl rfl
    · exact .inr (.inl ⟨p,r,rfl,here⟩)
    · exact .inr (.inr (.inl ⟨p,rfl,here⟩))
  | @wake p b c x arc => exact .inr (.inr (.inr ⟨p,x,rfl,arc,rfl⟩))
  | _ => exact .inl rfl

theorem wakes_mark {c : Unit} {y : Point} :
    ¬ Wakes (client m₀ cond lk) p x c (.mark () k y) := by
  rintro ⟨⟩

theorem wake_holding [DecidableEq ι] (ho : Owned (holds lk) s) (hd : Dozing s) {p q : ι}
    (arc : Wakes (client m₀ cond lk) q (s.place q) () x)
    (h : Waiting ((s.wakeup1 ()).at q x) p) :
    Holding (((s.wakeup1 ()).at q x).place p) := by
  rcases h with h | ⟨k,y,h⟩ | h
  · exact h
  · have hpq : p ≠ q := by
      rintro rfl
      simp only [at_fields, Function.update_self] at h
      rw [h] at arc
      exact wakes_mark arc
    have hplace : s.place p = .mark () k y := by simpa [hpq] using h
    refine absurd (mutual_exclusion ho (k := .ptable) ?_ (wakes_holds (disciplined m₀) arc).1) hpq
    rw [hplace]
    rfl
  · obtain ⟨hs,hchan⟩ := wakeup1_sleeping s h
    obtain ⟨⟨c,k,y⟩,hbed⟩ := Option.ne_none_iff_exists'.mp (hd.sleeping hs)
    exact absurd (hd.chan hbed) hchan

theorem waiting_test (hd : Dozing s) (h : Waiting s p) : s.place p ≠ .code .test := by
  intro hp
  rcases h with h | ⟨k,y,h⟩ | h
  · rw [hp] at h
    exact h
  · rw [hp] at h
    cases h
  · have hbed := hd.sleeping h
    rw [hp] at hbed
    exact hbed rfl

variable [DecidableEq ι]

theorem missed_turn (hcall : ∀ q, Called (client m₀ cond lk) q (s.place q))
    (ho : Owned (holds lk) s) (hd : Dozing s) (h : Missed tr s)
    (m : Turn (client m₀ cond lk) s l s' o) : Missed (tr++o) s' := by
  intro p hw
  by_cases htest : o = [.own p (.tested false)]
  · subst htest
    exact ⟨tr,[],rfl,by simp,fun q u1 u2 ht => by simp at ht,fun _ q => by simp⟩
  have hw' := (waiting_turn hcall m hw).resolve_right htest
  have hback : Holding (s'.place p) → Holding (s.place p) :=
    fun hh => (holding_turn hcall m hh).resolve_right htest
  obtain ⟨t1,t2,rfl,hlast,hquiet,hmade⟩ := h p hw'
  refine ⟨t1,t2++o,by simp,?_⟩
  rcases seen_turn m with rfl | ⟨q,r,rfl,hq⟩ | ⟨q,rfl,hq⟩ | ⟨q,x,rfl,arc,rfl⟩
  · rw [List.append_nil]
    exact ⟨hlast,hquiet,fun hh => hmade (hback hh)⟩
  · have hpq : q ≠ p := by
      rintro rfl
      exact waiting_test hd hw' hq
    refine ⟨fun r' => by simp [hlast, hpq.symm],quiet_snoc hquiet (by simp),fun hh q' => ?_⟩
    simpa using hmade (hback hh) q'
  · refine ⟨fun r' => by simp [hlast],quiet_snoc hquiet (by simp),fun hh => ?_⟩
    have hlock := holding_lock (hcall p) (hback hh)
    have hpq : p = q := mutual_exclusion ho hlock (by rw [hq]; exact rfl)
    have hh' := hback hh
    rw [hpq, hq] at hh'
    exact hh'.elim
  · have hnone := hmade (hback (wake_holding ho hd arc hw))
    refine ⟨fun r' => by simp [hlast],quiet_snoc hquiet (fun q' _ => hnone q'),fun _ q' => ?_⟩
    simpa using hnone q'

theorem missed_run {G : Sys ι σ → Label ι (Input σ) → Prop}
    (h : Run (machine (client m₀ cond lk)) G tr s) : Missed tr s := by
  refine run_invariant (fun tr s => Missed tr s) ?_ ?_ h
  · rintro p (h | ⟨k,y,h⟩ | h)
    · exact h.elim
    · cases h
    · cases h
  · intro _ _ _ _ _ hr hm _ hn
    exact missed_turn (called_run hr) (owned_run (disciplined m₀) hr) (dozing_run hr) hm
      (step_turn hn)

/-- A sleeping thread has missed nothing: behind its last test of the
condition, which failed, nobody has made it true and then run their wakeup. -/
theorem no_wakeup_lost (ι σ : Type) [DecidableEq ι] (m : σ) (cond : σ → Bool) (lk : Lock Unit)
    (tr : Trace ι) (s : Sys ι σ)
    (h : Run (machine (client m cond lk)) (fun _ _ => True) tr s) (p : ι)
    (hs : s.state p = .SLEEPING) :
    ∃ t1 t2, tr = t1 ++ .own p (.tested false) :: t2 ∧ (∀ r, .own p (.tested r) ∉ t2) ∧
      ∀ q u1 u2, t2 = u1 ++ .own q .made :: u2 → .woke q () ∉ u2 := by
  obtain ⟨t1,t2,htr,hlast,hquiet,-⟩ := missed_run h p (.inr (.inr hs))
  exact ⟨t1,t2,htr,hlast,hquiet⟩

/-- Thread 0 tests, and while it goes to sleep thread 1 makes the condition
true and releases the lock; its wakeup is still to come. -/
theorem wakeup_still_to_come : ∃ (tr : Trace (Fin 2)) (s : Sys (Fin 2) Bool),
    Run (machine (client false id (.spin ()))) (fun _ _ => True) tr s ∧
    s.state 0 = .SLEEPING ∧ s.holder .ptable = none ∧ s.holder (.spin ()) = none ∧
    s.shared = true ∧
    ∃ t1 t2, tr = t1 ++ .own 0 (.tested false) :: t2 ∧ (∀ r, .own 0 (.tested r) ∉ t2) ∧
      ∀ q u1 u2, t2 = u1 ++ .own q .made :: u2 → .woke q () ∉ u2 := by
  obtain ⟨o,s,hr,hp⟩ := exec_reaches (S := machine (client false id (.spin ())))
    (G := fun _ _ => True)
    [.thread (0 : Fin 2) .sleeper, .thread 0 .sleeper, .thread 0 .sleeper, .thread 0 .sleeper,
      .thread 0 .sleeper, .thread 0 .sleeper, .thread 1 .waker, .thread 1 .waker,
      .thread 1 (.make true true), .thread 1 .waker, .thread 0 .sleeper, .thread 0 .sleeper, .idle]
    (fun s _ => s.state 0 = .SLEEPING ∧ s.holder .ptable = none ∧ s.holder (.spin ()) = none ∧
      s.shared = true) (by decide +kernel)
  obtain ⟨h1,h2,h3,h4⟩ := hp
  exact ⟨o,s,hr,h1,h2,h3,h4,no_wakeup_lost (Fin 2) Bool false id (.spin ()) o s hr 0 h1⟩

end Xv6.LostWakeup

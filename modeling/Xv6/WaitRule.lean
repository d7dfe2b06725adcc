import Xv6.CodeMachine

/-!
# A rule for waits

A thread calls `sleep` on a channel, with one lock, only after it has found that it must
wait, and it keeps the lock in between. A step that ends the need to wait leaves its
thread owing a wakeup, and a thread keeps the lock until it has paid. Then whoever sleeps
on the channel must wait, or the lock is held by a thread that owes a wakeup.
-/

set_option autoImplicit false

namespace Xv6.WaitRule
open ProcTable TransitionSystem SleepMachine SleepLocks CodeMachine

variable {ι L κ σ α β ω : Type}

/-- How the calls of the code treat the channel and the lock of a wait: `Asks` are the
points of a thread that has found it must wait, `Owes` those where it owes a wakeup. -/
structure Pays (C : Client ι L κ σ α β ω) (holds : α → Lock L → Prop) (k : Lock L) (c : κ)
    (Asks Owes : α → Prop) : Prop where
  lock : ∀ {p x j y}, C.prog p x = .sleep c j y → j = k
  asks : ∀ {p x j y}, C.prog p x = .sleep c j y → Asks x
  held : ∀ {x}, Asks x → holds x k
  ask : ∀ {p x y}, (C.prog p x).next = some y → Asks y → Asks x
  back : ∀ {p x d j y}, C.prog p x = .sleep d j y → ¬ Asks y
  quiet : ∀ {p x y}, Asks x → C.prog p x ≠ .wakeup c y ∧ C.prog p x ≠ .wakeup1 c y
  hold : ∀ {x}, Owes x → holds x k
  sleep : ∀ {p x d j y}, C.prog p x = .sleep d j y → ¬ Owes x
  call : ∀ {p x y}, (C.prog p x).next = some y → Owes x →
    Owes y ∨ C.prog p x = .wakeup c y ∨ C.prog p x = .wakeup1 c y

/-- A thread that has found it must wait and is not yet asleep. -/
def Asking (Asks : α → Prop) (c : κ) : Place ι L κ α → Prop
  | .code x => Asks x
  | .enter d _ _ | .drop d _ _ | .mark d _ _ => d = c
  | .waking _ y | .wake _ y | .killing _ y | .kill _ y | .table y => Asks y
  | _ => False

def Waiting (Asks : α → Prop) (c : κ) (s : State ι L κ σ α) (p : ι) : Prop :=
  Asking Asks c (s.place p) ∨ s.state p = .SLEEPING ∧ ∃ k y, bed (s.place p) = some (c,k,y)

/-- A thread that has the lock and has yet to run the loop of a wakeup. -/
def Owing (holds : α → Lock L → Prop) (k : Lock L) (c : κ) (Owes : α → Prop) :
    Place ι L κ α → Prop
  | .code x => Owes x
  | .waking d y | .wake d y => holds y k ∧ (d = c ∨ Owes y)
  | .killing _ y | .kill _ y | .table y => Owes y
  | _ => False

variable {C : Client ι L κ σ α β ω} {holds : α → Lock L → Prop} {k : Lock L} {c : κ}
  {Asks Owes : α → Prop} {Wait : σ → Prop} {s s' : State ι L κ σ α} {l : Label ι β}
  {o tr : List (Event ι κ ω)} {G : State ι L κ σ α → Label ι β → Prop}

theorem arc_bed {p : ι} {x y : Place ι L κ α} {e : Bool} {m : σ} (arc : Arc C p e m x y o)
    {z : κ × Lock L × α}
    (h : bed y = some z) : bed x = some z ∨ x = .mark z.1 z.2.1 z.2.2 := by
  cases arc with
  | take arc => rw [(takes_up arc).2] at h; cases h
  | drop arc => rw [(drops_up arc).2] at h; cases h
  | go arc => rw [(goes_up arc).2] at h; cases h
  | wake arc => rw [(wakes_up arc).2] at h; cases h
  | mark => cases h; exact .inr rfl
  | sched => exact .inl h
  | step | give | back | kill => cases h

section Pays
variable (hP : Pays C holds k c Asks Owes)
include hP

theorem owing_holds {x : Place ι L κ α}
    (h : Owing holds k c Owes x) : PlaceHolds holds x k := by
  cases x with
  | code x => exact hP.hold h
  | waking d y => exact h.1
  | wake d y => exact .inr h.1
  | killing q y => exact hP.hold h
  | kill q y | table y => exact .inr (hP.hold h)
  | _ => exact h.elim

variable {p : ι} {x y : Place ι L κ α} {j : Lock L} {d : κ}

theorem owes_next {u v : α} (hn : (C.prog p u).next = some v)
    (hw : C.prog p u ≠ .wakeup c v) (hw1 : C.prog p u ≠ .wakeup1 c v) (h : Owes u) : Owes v := by
  rcases hP.call hn h with hv | hv | hv
  · exact hv
  · exact absurd hv hw
  · exact absurd hv hw1

theorem takes_owing (arc : Takes C p x j y)
    (h : Owing holds k c Owes x) : Owing holds k c Owes y := by
  cases arc with
  | code prog => exact owes_next hP (by rw [prog]; rfl) (by simp [prog]) (by simp [prog]) h
  | waking | killing => exact h
  | enter | retake => exact h.elim

theorem drops_owing (arc : Drops C p x j y)
    (h : Owing holds k c Owes x) : Owing holds k c Owes y := by
  cases arc with
  | code prog => exact owes_next hP (by rw [prog]; rfl) (by simp [prog]) (by simp [prog]) h
  | table => exact h
  | drop | tidy => exact h.elim

theorem goes_owing [DecidableEq κ] (hd : Disciplined C holds) (arc : Goes C p x y)
    (h : Owing holds k c Owes x) : Owing holds k c Owes y := by
  cases arc with
  | sleep prog => exact absurd h (hP.sleep prog)
  | @wakeup x y c' prog =>
    have hi := hd.instr p x
    rw [prog] at hi
    refine ⟨(hi.2 k).mpr (hP.hold h),?_⟩
    by_cases hc : c' = c
    · exact .inl hc
    · exact .inr (owes_next hP (by rw [prog]; rfl) (by simp [prog, hc]) (by simp [prog]) h)
  | kill prog => exact owes_next hP (by rw [prog]; rfl) (by simp [prog]) (by simp [prog]) h
  | enter | tidy => exact h.elim

theorem wakes_owing [DecidableEq κ] (arc : Wakes C p x d y)
    (h : Owing holds k c Owes x) : Owing holds k c Owes y ∨ d = c := by
  cases arc with
  | @code x y d prog =>
    by_cases hd : d = c
    · exact .inr hd
    · exact .inl (owes_next hP (by rw [prog]; rfl) (by simp [prog]) (by simp [prog, hd]) h)
  | wake => exact h.2.symm

theorem arc_asking {e : Bool} {m : σ} (arc : Arc C p e m x y o)
    (hcall : Called C p x) (hf : Follows C p x y) (h : Asking Asks c y) : Asking Asks c x := by
  cases arc with
  | take arc =>
    cases arc with
    | code prog => exact hP.ask (by rw [prog]; rfl) h
    | retake =>
      obtain ⟨z,hz⟩ := hcall
      exact absurd h (hP.back hz)
    | enter | waking | killing => exact h
  | drop arc =>
    cases arc with
    | code prog => exact hP.ask (by rw [prog]; rfl) h
    | drop | table => exact h
    | tidy => exact h.elim
  | go arc =>
    cases arc with
    | sleep prog =>
      cases h
      exact hP.asks prog
    | wakeup prog | kill prog => exact hP.ask (by rw [prog]; rfl) h
    | enter => exact h
    | tidy =>
      obtain ⟨z,hz⟩ := hcall
      exact absurd h (hP.back hz)
  | step prog =>
    rcases hf with hsame | ⟨z,hz,hnext⟩
    · cases hsame
      exact h
    · cases hz
      rw [prog] at hnext
      cases hnext
  | wake arc =>
    cases arc with
    | code prog => exact hP.ask (by rw [prog]; rfl) h
    | wake => exact h
  | kill => exact h
  | mark | sched | give | back => exact h.elim

theorem asking_holds (hcall : Called C p x) (h : Asking Asks c x) :
    PlaceHolds holds x k ∨ PlaceHolds holds x .ptable := by
  cases x with
  | code x => exact .inl (hP.held h)
  | enter d' j y =>
    obtain ⟨x,prog⟩ := hcall
    cases h
    exact .inl (hP.lock prog).symm
  | drop | mark => exact .inr (by simp [PlaceHolds])
  | waking | killing => exact .inl (hP.held h)
  | wake | kill | table => exact .inl (.inr (hP.held h))
  | _ => exact h.elim

theorem wakes_asking (hcall : Called C p x) (arc : Wakes C p x c y) :
    ¬ Asking Asks c x := by
  intro h
  cases arc with
  | code prog => exact (hP.quiet h).2 prog
  | wake =>
    obtain ⟨z,hz⟩ := hcall
    exact (hP.quiet (hP.ask (by rw [hz]; rfl) h)).1 hz

end Pays

/-- What a step of a thread's own code does to a wait: it asks only where it
must, and where it ends the need to wait it leaves a debt. -/
def StepPays (C : Client ι L κ σ α β ω) (Asks : α → Prop) (Wait : σ → Prop) (Owes : α → Prop)
    (s : State ι L κ σ α) (l : Label ι β) : Prop :=
  ∀ p b x f m' y e, l = .thread p b → s.place p = .code x → C.prog p x = .step f →
    f (s.killed p) s.shared b = some (m',y,e) →
    (Asks y → Wait m') ∧ (Wait s.shared ∨ Owes x → Wait m' ∨ Owes y)

def StepPaysAt (C : Client ι L κ σ α β ω) (Asks : α → Prop) (WaitAt : α → σ → Prop) (Owes : α → Prop)
    (s : State ι L κ σ α) (l : Label ι β) : Prop :=
  ∀ p b x f m' y e, l = .thread p b → s.place p = .code x → C.prog p x = .step f →
    f (s.killed p) s.shared b = some (m',y,e) →
    (Asks y → WaitAt y m') ∧ ∀ z, WaitAt z s.shared ∨ Owes x → WaitAt z m' ∨ Owes y

def CallsKeep (C : Client ι L κ σ α β ω) (Asks : α → Prop) (WaitAt : α → σ → Prop) : Prop :=
  ∀ p x y m, (C.prog p x).next = some y → Asks x → WaitAt x m → WaitAt y m

variable [DecidableEq L] [DecidableEq ι] [DecidableEq κ]

theorem waiting_other (m : Turn C s l s' o) {p : ι} (hact : actor l ≠ some p)
    (h : Waiting Asks c s' p) : Waiting Asks c s p := by
  rcases h with h | ⟨hs,j,y,h⟩
  · rw [other_place m hact] at h
    exact .inl h
  · rw [other_place m hact] at h
    rcases sleeping_turn m hs with hs | ⟨c',j',y',hmark⟩
    · exact .inr ⟨hs,j,y,h⟩
    · rw [hmark] at h
      cases h

theorem waiting_quiet (hP : Pays C holds k c Asks Owes) (hcall : ∀ q, Called C q (s.place q))
    (m : Turn C s l s' o) (hf : ∀ q, actor l = some q → Follows C q (s.place q) (s'.place q))
    {p : ι} (h : Waiting Asks c s' p) : Waiting Asks c s p := by
  by_cases hact : actor l = some p
  · rcases h with h | ⟨hs,j,y,h⟩
    · exact .inl (arc_asking hP (place_turn m hact) (hcall p) (hf p hact) h)
    · rcases arc_bed (place_turn m hact) h with hbed | hmark
      · rcases sleeping_turn m hs with hs | ⟨c',j',y',hmark⟩
        · exact .inr ⟨hs,j,y,hbed⟩
        · rw [hmark] at hbed
          cases hbed
      · rw [Waiting, hmark]
        exact .inl rfl
  · exact waiting_other m hact h

/-- Whoever waits must, or some thread owes a wakeup. -/
def Pledged (holds : α → Lock L → Prop) (k : Lock L) (c : κ) (Asks : α → Prop)
    (Wait : σ → Prop) (Owes : α → Prop) (s : State ι L κ σ α) : Prop :=
  ∀ p, Waiting Asks c s p → Wait s.shared ∨ ∃ q, Owing holds k c Owes (s.place q)

def PledgedAt (holds : α → Lock L → Prop) (k : Lock L) (c : κ) (Asks : α → Prop)
    (WaitAt : α → σ → Prop) (Owes : α → Prop) (s : State ι L κ σ α) : Prop :=
  ∀ p, Waiting Asks c s p → WaitAt (spot (s.place p)) s.shared ∨ ∃ q, Owing holds k c Owes (s.place q)

variable {WaitAt : α → σ → Prop}

theorem pledged_step (hstep : StepPaysAt C Asks WaitAt Owes s l) (h : PledgedAt holds k c Asks WaitAt Owes s)
    (m : Turn C s l s' o) {p : ι} {b : β} {x y : α} {m' : σ} {e : List ω}
    {f : Bool → σ → β → Option (σ × α × List ω)} (hl : l = .thread p b)
    (here : s.place p = .code x) (prog : C.prog p x = .step f)
    (next : f (s.killed p) s.shared b = some (m',y,e)) (hm : s'.shared = m')
    (hy : s'.place p = .code y) : PledgedAt holds k c Asks WaitAt Owes s' := by
  obtain ⟨hask,hpay⟩ := hstep p b x f m' y e hl here prog next
  have hpaid : ∀ z, WaitAt z s.shared ∨ Owes x →
      WaitAt z s'.shared ∨ ∃ q, Owing holds k c Owes (s'.place q) := by
    intro z hw
    rw [hm]
    exact (hpay z hw).imp id (fun ho => ⟨p,by rw [hy]; exact ho⟩)
  intro q hq
  by_cases hqp : actor l = some q
  · subst hl
    cases hqp
    rcases hq with hq | ⟨-,j,u,hbed⟩
    · rw [hy] at hq ⊢
      rw [hm]
      exact .inl (hask hq)
    · rw [hy] at hbed
      cases hbed
  · rw [other_place m hqp]
    rcases h q (waiting_other m hqp hq) with hw | ⟨r,hr⟩
    · exact hpaid _ (.inl hw)
    · by_cases hrp : r = p
      · subst hrp
        rw [here] at hr
        exact hpaid _ (.inr hr)
      · refine .inr ⟨r,?_⟩
        rwa [other_place m (by rw [hl]; exact fun he => hrp (by cases he; rfl))]

theorem wait_follows (hkeep : CallsKeep C Asks WaitAt) (m : Turn C s l s' o) (hm : s'.shared = s.shared)
    (hf : ∀ q, actor l = some q → Follows C q (s.place q) (s'.place q)) {p : ι} (hp : Waiting Asks c s p)
    (hw : WaitAt (spot (s.place p)) s.shared) : WaitAt (spot (s'.place p)) s'.shared := by
  rw [hm]
  by_cases hact : actor l = some p
  · rcases hf p hact with hsame | ⟨z,hz,hnext⟩
    · rw [hsame]
      exact hw
    · rw [hz] at hw
      rcases hp with hask | ⟨-,j,y,hbed⟩
      · rw [hz] at hask
        exact hkeep p z _ _ hnext hask hw
      · rw [hz] at hbed
        cases hbed
  · rw [other_place m hact]
    exact hw

omit [DecidableEq L] in
theorem wake_none (hd : Disciplined C holds) (hP : Pays C holds k c Asks Owes)
    (hcall : ∀ q, Called C q (s.place q)) (ho : Owned holds s) (hz : Dozing s) {p q : ι}
    {x : Place ι L κ α} (arc : Wakes C q (s.place q) c x) (hk : PlaceHolds holds (s.place q) k)
    (h : Waiting Asks c s p) : ¬ Waiting Asks c ((s.wakeup1 c).at q x) p := by
  have hpq : p ≠ q := by
    rintro rfl
    rcases h with h | ⟨-,j,y,h⟩
    · exact wakes_asking hP (hcall p) arc h
    · rw [(wakes_up arc).1] at h
      cases h
  rintro (hask | ⟨hs,j,y,hbed⟩)
  · simp only [at_fields, Function.update_of_ne hpq] at hask
    rcases asking_holds hP (hcall p) hask with hp | hp
    · exact hpq (mutual_exclusion ho hp hk)
    · exact hpq (mutual_exclusion ho hp (wakes_holds hd arc).1)
  · simp only [at_fields, Function.update_of_ne hpq] at hbed
    exact (wakeup1_sleeping s hs).2 (hz.chan hbed)

theorem pledged_quiet (hd : Disciplined C holds) (hP : Pays C holds k c Asks Owes)
    (hcall : ∀ q, Called C q (s.place q)) (ho : Owned holds s) (hz : Dozing s)
    (hkeep : CallsKeep C Asks WaitAt) (h : PledgedAt holds k c Asks WaitAt Owes s) (m : Turn C s l s' o)
    (hm : s'.shared = s.shared) (hf : ∀ q, actor l = some q → Follows C q (s.place q) (s'.place q)) :
    PledgedAt holds k c Asks WaitAt Owes s' := by
  intro p hp
  have hp' := waiting_quiet hP hcall m hf hp
  rcases h p hp' with hw | ⟨q,hq⟩
  · exact .inl (wait_follows hkeep m hm hf hp' hw)
  refine .inr ⟨q,?_⟩
  by_cases hact : actor l = some q
  · have hself : ∀ {t : State ι L κ σ α} {x : Place ι L κ α}, (t.at q x).place q = x := by
      intro t x
      simp
    cases m with
    | take arc => cases hact; rw [hself]; exact takes_owing hP arc hq
    | drop arc => cases hact; rw [hself]; exact drops_owing hP arc hq
    | go arc => cases hact; rw [hself]; exact goes_owing hP hd arc hq
    | step here prog =>
      cases hact
      have hfollow := hf q rfl
      rw [hself, here] at hfollow
      rw [here] at hq
      rcases hfollow with hsame | ⟨z,hz,hnext⟩
      · cases hsame
        rw [hself]
        exact hq
      · cases hz
        rw [prog] at hnext
        cases hnext
    | @wake q b d x arc =>
      cases hact
      rcases wakes_owing hP arc hq with hy | rfl
      · rwa [hself]
      · exact absurd hp (wake_none hd hP hcall ho hz arc (owing_holds hP hq) hp')
    | mark here | sched here | back here | give _ _ here =>
      cases hact
      rw [here] at hq
      exact hq.elim
    | kill here =>
      cases hact
      rw [hself]
      rwa [here] at hq
    | schedTake | idle => cases hact
  · rwa [other_place m hact]

theorem pledged_turn (hd : Disciplined C holds) (hP : Pays C holds k c Asks Owes)
    (hcall : ∀ q, Called C q (s.place q)) (ho : Owned holds s) (hz : Dozing s)
    (hkeep : CallsKeep C Asks WaitAt)
    (hstep : StepPaysAt C Asks WaitAt Owes s l) (h : PledgedAt holds k c Asks WaitAt Owes s)
    (m : Turn C s l s' o) : PledgedAt holds k c Asks WaitAt Owes s' := by
  rcases turn_kind m with ⟨p,b,x,y,f,m',e,hl,here,prog,next,hm,hy,-⟩ | ⟨hm,-,hf⟩
  · exact pledged_step hstep h m hl here prog next hm hy
  · exact pledged_quiet hd hP hcall ho hz hkeep h m hm hf

theorem pledged_at_run (hd : Disciplined C holds)
    (hP : Pays C holds k c Asks Owes) (hkeep : CallsKeep C Asks WaitAt) (hstart : ∀ p, ¬ Asks (C.start p))
    (hstep : ∀ tr s l, Run (machine C) G tr s → G s l → StepPaysAt C Asks WaitAt Owes s l)
    (h : Run (machine C) G tr s) : PledgedAt holds k c Asks WaitAt Owes s := by
  refine run_invariant (fun _ s => PledgedAt holds k c Asks WaitAt Owes s) ?_ ?_ h
  · rintro p (hp | ⟨hs,-⟩)
    · exact absurd hp (hstart p)
    · cases hs
  · intro tr s l s' o hr hs hg hn
    exact pledged_turn hd hP (called_run hr) (owned_run hd hr) (dozing_run hr) hkeep (hstep tr s l hr hg) hs
      (step_turn hn)

theorem pledged_run (hd : Disciplined C holds)
    (hP : Pays C holds k c Asks Owes) (hstart : ∀ p, ¬ Asks (C.start p))
    (hstep : ∀ tr s l, Run (machine C) G tr s → G s l → StepPays C Asks Wait Owes s l)
    (h : Run (machine C) G tr s) : Pledged holds k c Asks Wait Owes s := by
  have hkeep : CallsKeep C Asks (fun _ m => Wait m) := fun _ _ _ _ _ _ hw => hw
  refine pledged_at_run hd hP hkeep hstart ?_ h
  intro tr s l hr hg p b x f m' y e hl here prog next
  obtain ⟨hask,hpay⟩ := hstep tr s l hr hg p b x f m' y e hl here prog next
  exact ⟨hask,fun _ => hpay⟩

theorem free_owing (hd : Disciplined C holds) (hP : Pays C holds k c Asks Owes)
    (h : Run (machine C) G tr s)
    (hfree : s.holder k = none) (q : ι) : ¬Owing holds k c Owes (s.place q) := by
  intro hq
  have howner := ((owned_run hd h).owner k q).mpr (owing_holds hP hq)
  rw [hfree] at howner
  cases howner

theorem sleeper_waiting (h : Run (machine C) G tr s) {p : ι} (hs : s.state p = .SLEEPING)
    (hc : s.chan p = some c) :
    Waiting Asks c s p := by
  have hz := dozing_run h
  obtain ⟨⟨d,j,y⟩,hbed⟩ := Option.ne_none_iff_exists'.mp (hz.sleeping hs)
  have hdc := hz.chan hbed
  rw [hc] at hdc
  cases hdc
  exact .inr ⟨hs,j,y,hbed⟩

theorem sleeper_waits (hd : Disciplined C holds)
    (hP : Pays C holds k c Asks Owes) (hstart : ∀ p, ¬ Asks (C.start p))
    (hstep : ∀ tr s l, Run (machine C) G tr s → G s l → StepPays C Asks Wait Owes s l)
    (h : Run (machine C) G tr s) (hfree : s.holder k = none) {p : ι}
    (hs : s.state p = .SLEEPING) (hc : s.chan p = some c) : Wait s.shared := by
  refine (pledged_run hd hP hstart hstep h p (sleeper_waiting h hs hc)).resolve_right ?_
  rintro ⟨q,hq⟩
  exact free_owing hd hP h hfree q hq

theorem sleeper_waits_at (hd : Disciplined C holds)
    (hP : Pays C holds k c Asks Owes) (hkeep : CallsKeep C Asks WaitAt) (hstart : ∀ p, ¬ Asks (C.start p))
    (hstep : ∀ tr s l, Run (machine C) G tr s → G s l → StepPaysAt C Asks WaitAt Owes s l)
    (h : Run (machine C) G tr s) (hfree : s.holder k = none) {p : ι}
    (hs : s.state p = .SLEEPING) (hc : s.chan p = some c) : WaitAt (spot (s.place p)) s.shared := by
  refine (pledged_at_run hd hP hkeep hstart hstep h p (sleeper_waiting h hs hc)).resolve_right ?_
  rintro ⟨q,hq⟩
  exact free_owing hd hP h hfree q hq

end Xv6.WaitRule

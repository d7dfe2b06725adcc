import Xv6.SleepMachine

/-!
# Lock discipline of threads that sleep

Which locks a thread holds is read off the point where it is, once each piece
of code says so for its own points and each of its instructions agrees. Two
threads then never hold one lock. A sleeping thread is in `sleep`, past the
write of its state, with its channel set.
-/

set_option autoImplicit false

namespace Xv6.SleepLocks
open ProcTable TransitionSystem SleepMachine
open Function

variable {ι L κ σ α β ω : Type}

section Fields
variable (s : State ι L κ σ α) (p : ι)

@[simp] theorem at_fields [DecidableEq ι] (x : Place ι L κ α) : (s.at p x).shared = s.shared ∧
    (s.at p x).holder = s.holder ∧ (s.at p x).state = s.state ∧ (s.at p x).chan = s.chan ∧
    (s.at p x).killed = s.killed ∧ (s.at p x).place = update s.place p x :=
  ⟨rfl,rfl,rfl,rfl,rfl,rfl⟩

@[simp] theorem own_fields [DecidableEq L] (k : Lock L) (h : Option (Holder ι)) :
    (s.own k h).shared = s.shared ∧
    (s.own k h).holder = update s.holder k h ∧ (s.own k h).state = s.state ∧
    (s.own k h).chan = s.chan ∧ (s.own k h).killed = s.killed ∧ (s.own k h).place = s.place :=
  ⟨rfl,rfl,rfl,rfl,rfl,rfl⟩

@[simp] theorem set_state_fields [DecidableEq ι] (x : ProcState) : (s.setState p x).shared = s.shared ∧
    (s.setState p x).holder = s.holder ∧ (s.setState p x).state = update s.state p x ∧
    (s.setState p x).chan = s.chan ∧ (s.setState p x).killed = s.killed ∧
    (s.setState p x).place = s.place :=
  ⟨rfl,rfl,rfl,rfl,rfl,rfl⟩

@[simp] theorem set_chan_fields [DecidableEq ι] (c : Option κ) : (s.setChan p c).shared = s.shared ∧
    (s.setChan p c).holder = s.holder ∧ (s.setChan p c).state = s.state ∧
    (s.setChan p c).chan = update s.chan p c ∧ (s.setChan p c).killed = s.killed ∧
    (s.setChan p c).place = s.place :=
  ⟨rfl,rfl,rfl,rfl,rfl,rfl⟩

@[simp] theorem wakeup1_fields [DecidableEq κ] (c : κ) : (s.wakeup1 c).shared = s.shared ∧
    (s.wakeup1 c).holder = s.holder ∧ (s.wakeup1 c).chan = s.chan ∧
    (s.wakeup1 c).killed = s.killed ∧ (s.wakeup1 c).place = s.place :=
  ⟨rfl,rfl,rfl,rfl,rfl⟩

@[simp] theorem kill_fields [DecidableEq ι] : (s.kill p).shared = s.shared ∧ (s.kill p).holder = s.holder ∧
    (s.kill p).chan = s.chan ∧ (s.kill p).killed = update s.killed p true ∧
    (s.kill p).place = s.place :=
  ⟨rfl,rfl,rfl,rfl,rfl⟩

theorem wakeup1_sleeping [DecidableEq κ] {c : κ} {q : ι} (h : (s.wakeup1 c).state q = .SLEEPING) :
    s.state q = .SLEEPING ∧ s.chan q ≠ some c := by
  simp only [State.wakeup1] at h
  split at h
  · cases h
  · rename_i hno
    exact ⟨h,fun hc => hno ⟨h,hc⟩⟩

theorem kill_sleeping [DecidableEq ι] {q : ι} (h : (s.kill p).state q = .SLEEPING) :
    s.state q = .SLEEPING ∧ q ≠ p := by
  simp only [State.kill] at h
  by_cases hp : s.state p = .SLEEPING
  · rw [if_pos hp] at h
    by_cases hq : q = p
    · subst hq
      simp at h
    · exact ⟨by simpa [hq] using h,hq⟩
  · rw [if_neg hp] at h
    refine ⟨h,?_⟩
    rintro rfl
    exact hp h

end Fields

/-- What a thread past the write of its state in `sleep` was called with. -/
def bed : Place ι L κ α → Option (κ × Lock L × α)
  | .sched c k y | .off c k y => some (c,k,y)
  | _ => none

section Arcs
variable {C : Client ι L κ σ α β ω} {p : ι} {x y : Place ι L κ α} {k : Lock L} {c : κ}

theorem takes_up (h : Takes C p x k y) : bed x = none ∧ bed y = none := by
  cases h <;> exact ⟨rfl,rfl⟩

theorem drops_up (h : Drops C p x k y) : bed x = none ∧ bed y = none := by
  cases h <;> exact ⟨rfl,rfl⟩

theorem goes_up (h : Goes C p x y) : bed x = none ∧ bed y = none := by
  cases h <;> exact ⟨rfl,rfl⟩

theorem wakes_up (h : Wakes C p x c y) : bed x = none ∧ bed y = none := by
  cases h <;> exact ⟨rfl,rfl⟩

end Arcs

variable {C : Client ι L κ σ α β ω} {s s' : State ι L κ σ α} {l : Label ι β}
  {o : List (Event ι κ ω)}

def actor : Label ι β → Option ι
  | .thread p _ | .give p => some p
  | .take | .idle => none

theorem other_place [DecidableEq ι] [DecidableEq L] [DecidableEq κ] (m : Turn C s l s' o) {q : ι}
    (hq : actor l ≠ some q) :
    s'.place q = s.place q := by
  cases m with
  | schedTake | idle => rfl
  | _ => exact update_of_ne (fun h => hq (by rw [h]; rfl)) _ _

theorem sleeping_turn [DecidableEq ι] [DecidableEq L] [DecidableEq κ] (m : Turn C s l s' o) {q : ι}
    (h : s'.state q = .SLEEPING) :
    s.state q = .SLEEPING ∨ ∃ c k y, s.place q = .mark c k y := by
  cases m with
  | @mark p b c k y here =>
    by_cases hq : q = p
    · subst hq
      exact .inr ⟨c,k,y,here⟩
    · exact .inl (by simpa [hq] using h)
  | @give p c k y held ready here =>
    by_cases hq : q = p
    · simp [hq] at h
    · exact .inl (by simpa [hq] using h)
  | wake => exact .inl (wakeup1_sleeping s h).1
  | @kill p r => exact .inl (kill_sleeping s r h).1
  | _ => exact .inl h

structure Dozing (s : State ι L κ σ α) : Prop where
  sleeping : ∀ {p}, s.state p = .SLEEPING → bed (s.place p) ≠ none
  chan : ∀ {p c k y}, bed (s.place p) = some (c,k,y) → s.chan p = some c

variable {G : State ι L κ σ α → Label ι β → Prop} {x : Place ι L κ α} {tr : List (Event ι κ ω)} {p : ι}

theorem dozing_up [DecidableEq ι] (h : Dozing s) (hold : bed (s.place p) = none)
    (hnew : bed (s'.place p) = none) (hplace : ∀ q, q ≠ p → s'.place q = s.place q)
    (hchan : ∀ q, q ≠ p → s'.chan q = s.chan q)
    (hstate : ∀ q, s'.state q = .SLEEPING → s.state q = .SLEEPING) : Dozing s' := by
  constructor
  · intro q hq
    have hbed := h.sleeping (hstate q hq)
    by_cases hqp : q = p
    · subst hqp
      exact absurd hold hbed
    · rwa [hplace q hqp]
  · intro q c k y hq
    by_cases hqp : q = p
    · subst hqp
      rw [hnew] at hq
      cases hq
    · rw [hplace q hqp] at hq
      rw [hchan q hqp]
      exact h.chan hq

theorem dozing_turn [DecidableEq ι] [DecidableEq L] [DecidableEq κ] (h : Dozing s) (m : Turn C s l s' o) :
    Dozing s' := by
  cases m with
  | @take p b k x arc free =>
    exact dozing_up h (p := p) (takes_up arc).1 (by simpa using (takes_up arc).2)
      (fun q hq => by simp [hq]) (fun _ _ => rfl) (fun _ hq => hq)
  | @drop p b k x arc held =>
    exact dozing_up h (p := p) (drops_up arc).1 (by simpa using (drops_up arc).2)
      (fun q hq => by simp [hq]) (fun _ _ => rfl) (fun _ hq => hq)
  | @go p b x arc =>
    exact dozing_up h (p := p) (goes_up arc).1 (by simpa using (goes_up arc).2)
      (fun q hq => by simp [hq]) (fun _ _ => rfl) (fun _ hq => hq)
  | @step p b x y f m o here prog next =>
    exact dozing_up h (p := p) (by rw [here]; rfl) (by simp [bed])
      (fun q hq => by simp [hq]) (fun _ _ => rfl) (fun _ hq => hq)
  | @back p b c k y here =>
    exact dozing_up h (p := p) (by rw [here]; rfl) (by simp [bed])
      (fun q hq => by simp [hq]) (fun q hq => by simp [hq]) (fun _ hq => hq)
  | @wake p b c x arc =>
    exact dozing_up h (p := p) (wakes_up arc).1 (by simpa using (wakes_up arc).2)
      (fun q hq => by simp [hq]) (fun _ _ => rfl) (fun _ hq => (wakeup1_sleeping s hq).1)
  | @kill p r b y here =>
    exact dozing_up h (p := p) (by rw [here]; rfl) (by simp [bed])
      (fun q hq => by simp [hq]) (fun _ _ => rfl) (fun _ hq => (kill_sleeping s r hq).1)
  | schedTake | idle => exact ⟨h.sleeping,h.chan⟩
  | @mark p b c k y here =>
    constructor
    · intro q hq
      by_cases hqp : q = p
      · simp [hqp, bed]
      · simpa [hqp] using h.sleeping (by simpa [hqp] using hq)
    · intro q c' k' y' hq
      by_cases hqp : q = p
      · subst hqp
        simp only [at_fields, update_self, bed, Option.some.injEq, Prod.mk.injEq] at hq
        simp [hq.1]
      · simpa [hqp] using h.chan (by simpa [hqp] using hq)
  | @sched p b c k y here =>
    constructor
    · intro q hq
      by_cases hqp : q = p
      · simp [hqp, bed]
      · simpa [hqp] using h.sleeping hq
    · intro q c' k' y' hq
      by_cases hqp : q = p
      · subst hqp
        have hbed : bed (s.place q) = some (c,k,y) := by rw [here]; rfl
        simp only [at_fields, update_self, bed, Option.some.injEq, Prod.mk.injEq] at hq
        rw [← hq.1]
        exact h.chan hbed
      · exact h.chan (by simpa [hqp] using hq)
  | @give p c k y held ready here =>
    constructor
    · intro q hq
      by_cases hqp : q = p
      · simp [hqp] at hq
      · simpa [hqp] using h.sleeping (by simpa [hqp] using hq)
    · intro q c' k' y' hq
      by_cases hqp : q = p
      · simp [hqp, bed] at hq
      · exact h.chan (by simpa [hqp] using hq)

theorem dozing_run [DecidableEq ι] [DecidableEq L] [DecidableEq κ]
    (h : Run (machine C) G tr s) : Dozing s := by
  refine run_invariant (fun _ s => Dozing s) ⟨?_,?_⟩
    (fun _ _ _ _ _ _ hs _ hn => dozing_turn hs (step_turn hn)) h
  · intro p hp
    cases hp
  · intro p c k y hp
    cases hp

def Called (C : Client ι L κ σ α β ω) (p : ι) : Place ι L κ α → Prop
  | .code _ => True
  | .enter c k y | .mark c k y | .sched c k y | .off c k y | .back c k y | .tidy c k y =>
      ∃ x, C.prog p x = .sleep c k y
  | .drop c l y | .retake c l y => ∃ x, C.prog p x = .sleep c (.spin l) y
  | .waking c y | .wake c y => ∃ x, C.prog p x = .wakeup c y
  | .killing q y | .kill q y => ∃ x, C.prog p x = .kill q y
  | .table y => ∃ x, (∃ c, C.prog p x = .wakeup c y) ∨ ∃ q, C.prog p x = .kill q y

section Arcs
variable {p : ι} {x y : Place ι L κ α} {k : Lock L} {c : κ}

theorem takes_called (arc : Takes C p x k y) (h : Called C p x) : Called C p y := by
  cases arc with
  | code | retake => trivial
  | enter | waking | killing => exact h

theorem drops_called (arc : Drops C p x k y) (h : Called C p x) : Called C p y := by
  cases arc with
  | code | table => trivial
  | drop | tidy => exact h

theorem goes_called (arc : Goes C p x y) (h : Called C p x) : Called C p y := by
  cases arc with
  | sleep prog | wakeup prog | kill prog => exact ⟨_,prog⟩
  | enter => exact h
  | tidy => trivial

theorem wakes_called (arc : Wakes C p x c y) (h : Called C p x) : Called C p y := by
  cases arc with
  | code => trivial
  | wake =>
    obtain ⟨x,hx⟩ := h
    exact ⟨x,.inl ⟨_,hx⟩⟩

end Arcs

theorem called_thread [DecidableEq ι] (h : ∀ q, Called C q (s.place q))
    (hx : Called C p x) (q : ι) : Called C q (update s.place p x q) := by
  by_cases hq : q = p
  · subst hq
    rwa [update_self]
  · rw [update_of_ne hq]
    exact h q

theorem called_turn [DecidableEq ι] [DecidableEq L] [DecidableEq κ] (h : ∀ q, Called C q (s.place q))
    (m : Turn C s l s' o) (q : ι) :
    Called C q (s'.place q) := by
  cases m with
  | @take p b k x arc free => exact called_thread h (takes_called arc (h p)) q
  | @drop p b k x arc held => exact called_thread h (drops_called arc (h p)) q
  | @go p b x arc => exact called_thread h (goes_called arc (h p)) q
  | @step p b x y => exact called_thread h (p := p) (x := .code y) trivial q
  | @mark p b c k y here =>
    have hp := h p
    rw [here] at hp
    exact called_thread h (x := .sched c k y) hp q
  | @sched p b c k y here =>
    have hp := h p
    rw [here] at hp
    exact called_thread h (x := .off c k y) hp q
  | @back p b c k y here =>
    have hp := h p
    rw [here] at hp
    exact called_thread h (x := .tidy c k y) hp q
  | @wake p b c x arc => exact called_thread h (wakes_called arc (h p)) q
  | @kill p r b y here =>
    have hp := h p
    rw [here] at hp
    obtain ⟨x,hx⟩ := hp
    exact called_thread h (x := .table y) ⟨x,.inr ⟨r,hx⟩⟩ q
  | schedTake | idle => exact h q
  | @give p c k y held ready here =>
    have hp := h p
    rw [here] at hp
    exact called_thread h (x := .back c k y) hp q

theorem called_run [DecidableEq ι] [DecidableEq L] [DecidableEq κ]
    (h : Run (machine C) G tr s) : ∀ p, Called C p (s.place p) :=
  run_invariant (fun _ s => ∀ p, Called C p (s.place p))
    (fun p => show Called C p (.code _) from trivial)
    (fun _ _ _ _ _ _ hs _ hn => called_turn hs (step_turn hn)) h

def returns : Place ι L κ α → Option α
  | .code _ => none
  | .enter _ _ y | .drop _ _ y | .mark _ _ y | .sched _ _ y | .off _ _ y | .back _ _ y
  | .tidy _ _ y | .retake _ _ y | .waking _ y | .wake _ y | .killing _ y | .kill _ y
  | .table y => some y

theorem called_next {y : α} (h : Called C p x)
    (hx : returns x = some y) : ∃ z, (C.prog p z).next = some y := by
  have hfind : ∀ {i : Instr ι L κ σ α β ω}, i.next = some y → (∃ z, C.prog p z = i) →
      ∃ z, (C.prog p z).next = some y := by
    rintro i hi ⟨z,hz⟩
    exact ⟨z,by rw [hz, hi]⟩
  cases x <;> cases hx
  case table =>
    obtain ⟨z,⟨c,hz⟩ | ⟨q,hz⟩⟩ := h
    · exact ⟨z,by rw [hz]; rfl⟩
    · exact ⟨z,by rw [hz]; rfl⟩
  all_goals exact hfind rfl h

/-- How the place of one thread changes, from a state where its `killed` is `d`
and the memory is `m`, with what the step shows. -/
inductive Arc (C : Client ι L κ σ α β ω) (p : ι) (d : Bool) (m : σ) :
    Place ι L κ α → Place ι L κ α → List (Event ι κ ω) → Prop
  | take {k : Lock L} {x y : Place ι L κ α} (arc : Takes C p x k y) : Arc C p d m x y []
  | drop {k : Lock L} {x y : Place ι L κ α} (arc : Drops C p x k y) : Arc C p d m x y []
  | go {x y : Place ι L κ α} (arc : Goes C p x y) : Arc C p d m x y []
  | step {x y : α} {f : Bool → σ → β → Option (σ × α × List ω)} {m' : σ} {b : β}
      {e : List ω} (prog : C.prog p x = .step f) (next : f d m b = some (m',y,e)) :
      Arc C p d m (.code x) (.code y) (e.map (.own p))
  | mark {c : κ} {k : Lock L} {y : α} : Arc C p d m (.mark c k y) (.sched c k y) []
  | sched {c : κ} {k : Lock L} {y : α} : Arc C p d m (.sched c k y) (.off c k y) []
  | give {c : κ} {k : Lock L} {y : α} : Arc C p d m (.off c k y) (.back c k y) []
  | back {c : κ} {k : Lock L} {y : α} : Arc C p d m (.back c k y) (.tidy c k y) []
  | wake {c : κ} {x y : Place ι L κ α} (arc : Wakes C p x c y) : Arc C p d m x y [.woke p c]
  | kill {q : ι} {y : α} : Arc C p d m (.kill q y) (.table y) []

theorem place_turn [DecidableEq ι] [DecidableEq L] [DecidableEq κ] (m : Turn C s l s' o)
    (h : actor l = some p) :
    Arc C p (s.killed p) s.shared (s.place p) (s'.place p) o := by
  have hself : ∀ {t : State ι L κ σ α} {x : Place ι L κ α}, (t.at p x).place p = x := by
    intro t x
    simp
  cases m with
  | take arc => cases h; rw [hself]; exact .take arc
  | drop arc => cases h; rw [hself]; exact .drop arc
  | go arc => cases h; rw [hself]; exact .go arc
  | step here prog next => cases h; rw [hself, here]; exact .step prog next
  | mark here => cases h; rw [hself, here]; exact .mark
  | sched here => cases h; rw [hself, here]; exact .sched
  | back here => cases h; rw [hself, here]; exact .back
  | wake arc => cases h; rw [hself]; exact .wake arc
  | kill here => cases h; rw [hself, here]; exact .kill
  | schedTake | idle => cases h
  | give held ready here => cases h; rw [hself, here]; exact .give

theorem arc_code {d : Bool} {m : σ} {y : α}
    (arc : Arc C p d m x (.code y) o) (h : Called C p x) :
    (∃ z, (C.prog p z).next = some y) ∨
      ∃ z f b m' e, x = .code z ∧ C.prog p z = .step f ∧ f d m b = some (m',y,e) ∧
        o = e.map (.own p) := by
  cases arc with
  | take arc =>
    cases arc with
    | @code x y k prog => exact .inl ⟨x,by rw [prog]; rfl⟩
    | retake => exact .inl (called_next h rfl)
  | drop arc =>
    cases arc with
    | @code x y k prog => exact .inl ⟨x,by rw [prog]; rfl⟩
    | table => exact .inl (called_next h rfl)
  | go arc =>
    cases arc
    exact .inl (called_next h rfl)
  | step prog next => exact .inr ⟨_,_,_,_,_,rfl,prog,next,rfl⟩
  | wake arc =>
    cases arc with
    | @code x y c prog => exact .inl ⟨x,by rw [prog]; rfl⟩

def InstrOk (holds : α → Lock L → Prop) (x : α) : Instr ι L κ σ α β ω → Prop
  | .acquire k y => ∀ j, holds y j ↔ j = k ∨ holds x j
  | .release k y => ∀ j, holds y j ↔ j ≠ k ∧ holds x j
  | .step f => ∀ d m b m' y o, f d m b = some (m',y,o) → ∀ j, holds y j ↔ holds x j
  | .sleep _ k y => (∀ j, holds x j ↔ j = k) ∧ ∀ j, holds y j ↔ j = k
  | .wakeup _ y | .kill _ y => ¬ holds x .ptable ∧ ∀ j, holds y j ↔ holds x j
  | .wakeup1 _ y => holds x .ptable ∧ ∀ j, holds y j ↔ holds x j

structure Disciplined (C : Client ι L κ σ α β ω) (holds : α → Lock L → Prop) : Prop where
  start : ∀ p k, ¬ holds (C.start p) k
  instr : ∀ p x, InstrOk holds x (C.prog p x)

def PlaceHolds (holds : α → Lock L → Prop) : Place ι L κ α → Lock L → Prop
  | .code x, j => holds x j
  | .enter _ k _, j => j = k
  | .drop _ l _, j => j = .ptable ∨ j = .spin l
  | .mark _ _ _, j | .sched _ _ _, j | .back _ _ _, j | .tidy _ _ _, j => j = .ptable
  | .off _ _ _, _ | .retake _ _ _, _ => False
  | .waking _ y, j | .killing _ y, j => holds y j
  | .wake _ y, j | .kill _ y, j | .table y, j => j = .ptable ∨ holds y j

def PlaceOk (holds : α → Lock L → Prop) : Place ι L κ α → Prop
  | .code _ => True
  | .enter _ k y | .mark _ k y | .sched _ k y | .off _ k y | .back _ k y | .tidy _ k y =>
      ∀ j, holds y j ↔ j = k
  | .drop _ l y | .retake _ l y => ∀ j, holds y j ↔ j = .spin l
  | .waking _ y | .killing _ y | .wake _ y | .kill _ y | .table y => ¬ holds y .ptable

section Arcs
variable {holds : α → Lock L → Prop} {p : ι} {x y : Place ι L κ α} {k : Lock L} {c : κ}

theorem called_ok (d : Disciplined C holds) (h : Called C p x) : PlaceOk holds x := by
  have hsleep : ∀ {c k y}, (∃ x, C.prog p x = .sleep c k y) → ∀ j, holds y j ↔ j = k := by
    rintro c k y ⟨x,hx⟩
    have hi := d.instr p x
    rw [hx] at hi
    exact hi.2
  have hwakeup : ∀ {c y}, (∃ x, C.prog p x = .wakeup c y) → ¬ holds y .ptable := by
    rintro c y ⟨x,hx⟩
    have hi := d.instr p x
    rw [hx] at hi
    rw [hi.2]
    exact hi.1
  have hkill : ∀ {q y}, (∃ x, C.prog p x = .kill q y) → ¬ holds y .ptable := by
    rintro q y ⟨x,hx⟩
    have hi := d.instr p x
    rw [hx] at hi
    rw [hi.2]
    exact hi.1
  cases x with
  | code => trivial
  | enter | mark | sched | off | back | tidy | drop | retake => exact hsleep h
  | waking | wake => exact hwakeup h
  | killing | kill => exact hkill h
  | table y =>
    obtain ⟨x,⟨c,hx⟩ | ⟨q,hx⟩⟩ := h
    · exact hwakeup ⟨x,hx⟩
    · exact hkill ⟨x,hx⟩

theorem takes_holds (d : Disciplined C holds) (h : Takes C p x k y) (ok : PlaceOk holds x)
    (j : Lock L) : PlaceHolds holds y j ↔ j = k ∨ PlaceHolds holds x j := by
  cases h with
  | @code x y k prog =>
    have hi := d.instr p x
    rw [prog] at hi
    exact hi j
  | retake => simpa [PlaceHolds] using ok j
  | enter | waking | killing => exact Iff.rfl

theorem drops_holds (d : Disciplined C holds) (h : Drops C p x k y) (ok : PlaceOk holds x)
    (j : Lock L) : PlaceHolds holds y j ↔ j ≠ k ∧ PlaceHolds holds x j := by
  cases h with
  | @code x y k prog =>
    have hi := d.instr p x
    rw [prog] at hi
    exact hi j
  | drop => cases j <;> simp [PlaceHolds]
  | tidy => simp [PlaceHolds]
  | @table y =>
    cases j with
    | ptable =>
      have hy : ¬ holds y .ptable := ok
      simp [PlaceHolds, hy]
    | spin l => simp [PlaceHolds]

theorem goes_holds (d : Disciplined C holds) (h : Goes C p x y) (ok : PlaceOk holds x)
    (j : Lock L) : PlaceHolds holds y j ↔ PlaceHolds holds x j := by
  cases h with
  | @sleep x y c k prog =>
    have hi := d.instr p x
    rw [prog] at hi
    exact (hi.1 j).symm
  | @wakeup x y c prog =>
    have hi := d.instr p x
    rw [prog] at hi
    exact hi.2 j
  | @kill x y q prog =>
    have hi := d.instr p x
    rw [prog] at hi
    exact hi.2 j
  | enter => exact Iff.rfl
  | tidy => exact ok j

theorem wakes_holds (d : Disciplined C holds) (h : Wakes C p x c y) :
    PlaceHolds holds x .ptable ∧ ∀ j, PlaceHolds holds y j ↔ PlaceHolds holds x j := by
  cases h with
  | @code x y c prog =>
    have hi := d.instr p x
    rw [prog] at hi
    exact hi
  | wake => exact ⟨.inl rfl,fun j => Iff.rfl⟩

end Arcs

variable {holds : α → Lock L → Prop}

structure Owned (holds : α → Lock L → Prop) (s : State ι L κ σ α) : Prop where
  owner : ∀ k p, s.holder k = some (.thread p) ↔ PlaceHolds holds (s.place p) k
  spin : ∀ l, s.holder (.spin l) ≠ some .sched

theorem mutual_exclusion (h : Owned holds s) {k : Lock L} {p q : ι}
    (hp : PlaceHolds holds (s.place p) k) (hq : PlaceHolds holds (s.place q) k) : p = q := by
  have heq := ((h.owner k p).mpr hp).symm.trans ((h.owner k q).mpr hq)
  cases heq
  rfl

theorem owned_thread [DecidableEq ι] (h : Owned holds s)
    (hplace : s'.place = update s.place p x)
    (hspin : ∀ l, s'.holder (.spin l) ≠ some .sched)
    (hother : ∀ k q, q ≠ p → (s'.holder k = some (.thread q) ↔ s.holder k = some (.thread q)))
    (hself : ∀ k, s'.holder k = some (.thread p) ↔ PlaceHolds holds x k) : Owned holds s' := by
  refine ⟨fun k q => ?_,hspin⟩
  by_cases hq : q = p
  · subst hq
    rw [hplace, update_self]
    exact hself k
  · rw [hplace, update_of_ne hq, hother k q hq]
    exact h.owner k q

theorem owned_same [DecidableEq ι] (h : Owned holds s)
    (hplace : s'.place = update s.place p x) (hholder : s'.holder = s.holder)
    (hx : ∀ k, PlaceHolds holds x k ↔ PlaceHolds holds (s.place p) k) : Owned holds s' :=
  owned_thread h hplace (by rw [hholder]; exact h.spin) (fun k q _ => by rw [hholder])
    (fun k => by rw [hholder, h.owner, hx])

theorem owned_sched (h : Owned holds s) (hplace : s'.place = s.place)
    (hspin : ∀ l, s'.holder (.spin l) = s.holder (.spin l))
    (hold : ∀ p, s.holder .ptable ≠ some (.thread p))
    (hnew : ∀ p, s'.holder .ptable ≠ some (.thread p)) : Owned holds s' := by
  refine ⟨?_,fun l => by rw [hspin]; exact h.spin l⟩
  intro k p
  cases k with
  | spin l => rw [hspin, hplace]; exact h.owner _ p
  | ptable =>
    rw [hplace, ← h.owner]
    exact ⟨fun hp => absurd hp (hnew p),fun hp => absurd hp (hold p)⟩

variable [DecidableEq L] [DecidableEq ι] [DecidableEq κ]

theorem owned_turn (d : Disciplined C holds) (hcall : ∀ p, Called C p (s.place p))
    (h : Owned holds s) (m : Turn C s l s' o) : Owned holds s' := by
  cases m with
  | @take p b k x arc free =>
    have hx := takes_holds d arc (called_ok d (hcall p))
    refine owned_thread h (p := p) rfl ?_ ?_ ?_
    · intro l
      by_cases hk : .spin l = k <;> simp [hk, h.spin]
    · intro j q hq
      by_cases hj : j = k
      · simp [hj, free, hq.symm]
      · simp [hj]
    · intro j
      rw [hx, ← h.owner]
      by_cases hj : j = k <;> simp [hj]
  | @drop p b k x arc held =>
    have hx := drops_holds d arc (called_ok d (hcall p))
    refine owned_thread h (p := p) rfl ?_ ?_ ?_
    · intro l
      by_cases hk : .spin l = k <;> simp [hk, h.spin]
    · intro j q hq
      by_cases hj : j = k
      · simp [hj, held, hq.symm]
      · simp [hj]
    · intro j
      rw [hx, ← h.owner]
      by_cases hj : j = k <;> simp [hj]
  | @go p b x arc =>
    exact owned_same h (p := p) rfl rfl (goes_holds d arc (called_ok d (hcall p)))
  | @step p b x y f m o here prog next =>
    have hi := d.instr p x
    rw [prog] at hi
    exact owned_same h (x := .code y) (p := p) rfl rfl (by rw [here]; exact hi _ _ _ _ _ _ next)
  | @mark p b c k y here =>
    exact owned_same h (x := .sched c k y) (p := p) rfl rfl (by rw [here]; exact fun j => Iff.rfl)
  | @sched p b c k y here =>
    have held : s.holder .ptable = some (.thread p) := by
      rw [h.owner, here]
      rfl
    refine owned_thread h (x := .off c k y) (p := p) rfl ?_ ?_ ?_
    · intro l
      simp [h.spin]
    · intro j q hq
      by_cases hj : j = .ptable
      · simp [hj, held, hq.symm]
      · simp [hj]
    · intro j
      by_cases hj : j = .ptable
      · simp [hj, PlaceHolds]
      · simp [hj, PlaceHolds, h.owner, here]
  | @back p b c k y here =>
    exact owned_same h (x := .tidy c k y) (p := p) rfl rfl (by rw [here]; exact fun j => Iff.rfl)
  | @wake p b c x arc => exact owned_same h (p := p) rfl rfl (wakes_holds d arc).2
  | @kill p q b y here =>
    exact owned_same h (x := .table y) (p := p) rfl rfl (by rw [here]; exact fun j => Iff.rfl)
  | schedTake free =>
    exact owned_sched h rfl (fun l => by simp) (by simp [free]) (by simp)
  | @give p c k y held ready here =>
    refine owned_thread h (x := .back c k y) (p := p) rfl ?_ ?_ ?_
    · intro l
      simp [h.spin]
    · intro j q hq
      by_cases hj : j = .ptable
      · simp [hj, held, hq.symm]
      · simp [hj]
    · intro j
      by_cases hj : j = .ptable
      · simp [hj, PlaceHolds]
      · simp [hj, PlaceHolds, h.owner, here]
  | idle held =>
    exact owned_sched h rfl (fun l => by simp) (by simp [held]) (by simp)

theorem owned_run (d : Disciplined C holds)
    (h : Run (machine C) G tr s) : Owned holds s := by
  refine run_invariant (fun _ s => Owned holds s) ⟨?_,?_⟩
    (fun _ _ _ _ _ hr hs _ hn => owned_turn d (called_run hr) hs (step_turn hn)) h
  · intro k p
    have hnone : (machine C).boot.holder k ≠ some (.thread p) := by
      intro hp
      cases hp
    exact ⟨fun hp => absurd hp hnone,fun hp => absurd hp (d.start p k)⟩
  · intro l hl
    cases hl

end Xv6.SleepLocks

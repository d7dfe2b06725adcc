import Xv6.SleepLocks
import Mathlib.Algebra.Order.BigOperators.Group.Finset
import Mathlib.Algebra.Order.Ring.Int

/-!
# Threads without their calls

What a thread's code does to the shared memory does not depend on how its calls
of `acquire`, `sleep` and `wakeup` are carried out, only on where they return.
Here a call is one step to the point behind it, and any thread may take it at
any time. Every run of the threads with their locks is a run of this machine,
so what holds in all its runs needs no lock.
-/

set_option autoImplicit false

namespace Xv6.CodeMachine
open TransitionSystem SleepMachine SleepLocks
open Function

variable {ι L κ σ α β ω : Type}

structure Code (ι σ α : Type) where
  shared : σ
  spot : ι → α

structure Move (ι β : Type) where
  p : ι
  killed : Bool
  input : β

def step [DecidableEq ι] (C : Client ι L κ σ α β ω) (s : Code ι σ α) (l : Move ι β) :
    Option (Code ι σ α × List (ι × ω)) :=
  match C.prog l.p (s.spot l.p) with
  | .step f => (f l.killed s.shared l.input).map
      (fun r => (⟨r.1,update s.spot l.p r.2.1⟩,r.2.2.map (Prod.mk l.p)))
  | i => i.next.map (fun y => (⟨s.shared,update s.spot l.p y⟩,[]))

def code [DecidableEq ι] (C : Client ι L κ σ α β ω) : System (Code ι σ α) (Move ι β) (ι × ω) :=
  ⟨⟨C.shared,C.start⟩,step C⟩

/-- What a thread may do at a point of its code, and so in a run of the machine
with locks. -/
def Allows (g : ι → α → σ → β → Prop) (s : Code ι σ α) (l : Move ι β) : Prop :=
  g l.p (s.spot l.p) s.shared l.input

def AtCode (P : α → Prop) : Place ι L κ α → Prop
  | .code x => P x
  | _ => True

instance (P : α → Prop) [DecidablePred P] : DecidablePred (AtCode (ι := ι) (L := L) (κ := κ) P)
  | .code x => inferInstanceAs (Decidable (P x))
  | .enter _ _ _ | .drop _ _ _ | .mark _ _ _ | .sched _ _ _ | .off _ _ _ | .back _ _ _
  | .tidy _ _ _ | .retake _ _ _ | .waking _ _ | .wake _ _ | .killing _ _ | .kill _ _
  | .table _ => inferInstanceAs (Decidable True)

def Permits (g : ι → α → σ → β → Prop) (s : State ι L κ σ α) : Label ι β → Prop
  | .thread p b => AtCode (fun x => g p x s.shared b) (s.place p)
  | _ => True

instance (g : ι → α → σ → β → Prop) [∀ p x m b, Decidable (g p x m b)] (s : State ι L κ σ α) :
    DecidablePred (Permits g s)
  | .thread p b => inferInstanceAs (Decidable (AtCode (fun x => g p x s.shared b) (s.place p)))
  | .take | .give _ | .idle => inferInstanceAs (Decidable True)

theorem permits_all (s : State ι L κ σ α) (l : Label ι β) :
    Permits (fun _ _ _ _ => True) s l := by
  cases l with
  | thread p b =>
    show AtCode (fun _ => True) (s.place p)
    cases s.place p <;> trivial
  | _ => trivial

def spot : Place ι L κ α → α
  | .code x => x
  | .enter _ _ y | .drop _ _ y | .mark _ _ y | .sched _ _ y | .off _ _ y | .back _ _ y
  | .tidy _ _ y | .retake _ _ y | .waking _ y | .wake _ y | .killing _ y | .kill _ y
  | .table y => y

def view (s : State ι L κ σ α) : Code ι σ α := ⟨s.shared,fun p => spot (s.place p)⟩

def own : Event ι κ ω → Option (ι × ω)
  | .own p e => some (p,e)
  | .woke _ _ => none

section Arcs
variable {C : Client ι L κ σ α β ω} {p : ι} {x y : Place ι L κ α} {k : Lock L} {c : κ}

/-- A call is left at the point where it was entered for. -/
def Follows (C : Client ι L κ σ α β ω) (p : ι) (x y : Place ι L κ α) : Prop :=
  spot y = spot x ∨ ∃ z, x = .code z ∧ (C.prog p z).next = some (spot y)

theorem takes_follows (arc : Takes C p x k y) : Follows C p x y := by
  cases arc with
  | @code x y k prog => exact .inr ⟨x,rfl,by rw [prog]; rfl⟩
  | _ => exact .inl rfl

theorem drops_follows (arc : Drops C p x k y) : Follows C p x y := by
  cases arc with
  | @code x y k prog => exact .inr ⟨x,rfl,by rw [prog]; rfl⟩
  | _ => exact .inl rfl

theorem goes_follows (arc : Goes C p x y) : Follows C p x y := by
  cases arc with
  | @sleep x y c k prog => exact .inr ⟨x,rfl,by rw [prog]; rfl⟩
  | @wakeup x y c prog => exact .inr ⟨x,rfl,by rw [prog]; rfl⟩
  | @kill x y q prog => exact .inr ⟨x,rfl,by rw [prog]; rfl⟩
  | _ => exact .inl rfl

theorem wakes_follows (arc : Wakes C p x c y) : Follows C p x y := by
  cases arc with
  | @code x y c prog => exact .inr ⟨x,rfl,by rw [prog]; rfl⟩
  | wake => exact .inl rfl

end Arcs

variable {C : Client ι L κ σ α β ω} {s s' : State ι L κ σ α} {l : Label ι β}
  {o : List (Event ι κ ω)} {g : ι → α → σ → β → Prop}

/-- A step of the machine with locks is a step of a thread's own code, or it
leaves the memory alone and takes a thread along a call at most. -/
theorem turn_kind [DecidableEq ι] [DecidableEq L] [DecidableEq κ] (m : Turn C s l s' o) :
    (∃ p b x y f m' e, l = .thread p b ∧ s.place p = .code x ∧ C.prog p x = .step f ∧
      f (s.killed p) s.shared b = some (m',y,e) ∧ s'.shared = m' ∧ s'.place p = .code y ∧
      o = e.map (.own p)) ∨
    (s'.shared = s.shared ∧ o.filterMap own = [] ∧
      ∀ p, actor l = some p → Follows C p (s.place p) (s'.place p)) := by
  have hself : ∀ {t : State ι L κ σ α} {p : ι} {x : Place ι L κ α}, (t.at p x).place p = x := by
    intro t p x
    simp
  cases m with
  | @step p b x y f m' e here prog next =>
    exact .inl ⟨p,b,x,y,f,m',e,rfl,here,prog,next,rfl,hself,rfl⟩
  | take arc =>
    refine .inr ⟨rfl,rfl,fun p h => ?_⟩
    cases h
    rw [hself]
    exact takes_follows arc
  | drop arc =>
    refine .inr ⟨rfl,rfl,fun p h => ?_⟩
    cases h
    rw [hself]
    exact drops_follows arc
  | go arc =>
    refine .inr ⟨rfl,rfl,fun p h => ?_⟩
    cases h
    rw [hself]
    exact goes_follows arc
  | wake arc =>
    refine .inr ⟨rfl,rfl,fun p h => ?_⟩
    cases h
    rw [hself]
    exact wakes_follows arc
  | mark here | sched here | back here | kill here | give _ _ here =>
    refine .inr ⟨rfl,rfl,fun p h => ?_⟩
    cases h
    rw [hself, here]
    exact .inl rfl
  | schedTake | idle => exact .inr ⟨rfl,rfl,fun p h => by cases h⟩

theorem view_actor [DecidableEq ι] [DecidableEq L] [DecidableEq κ] (m : Turn C s l s' o) {p : ι}
    (h : actor l = some p) :
    view s' = ⟨s'.shared,update (view s).spot p (spot (s'.place p))⟩ := by
  refine congrArg (Code.mk s'.shared) (funext fun q => ?_)
  by_cases hq : q = p
  · subst hq
    rw [update_self]
  · rw [update_of_ne hq, view]
    rw [other_place m (fun hp => hq (by rw [h] at hp; cases hp; rfl))]

theorem view_idle [DecidableEq ι] [DecidableEq L] [DecidableEq κ] (m : Turn C s l s' o) (h : actor l = none)
    (hm : s'.shared = s.shared) :
    view s' = view s := by
  rw [view, view, hm]
  exact congrArg (Code.mk s.shared) (funext fun q => by rw [other_place m (by simp [h])])

theorem step_call [DecidableEq ι] {t : Code ι σ α} {p : ι} {d : Bool} {b : β} {y : α}
    (h : (C.prog p (t.spot p)).next = some y) :
    step C t ⟨p,d,b⟩ = some (⟨t.shared,update t.spot p y⟩,[]) := by
  unfold step
  cases hp : C.prog p (t.spot p) <;> rw [hp] at h <;> cases h <;> rfl

theorem step_own [DecidableEq ι] {t : Code ι σ α} {p : ι} {d : Bool} {b : β} {y : α} {m' : σ} {e : List ω}
    {f : Bool → σ → β → Option (σ × α × List ω)} (hp : C.prog p (t.spot p) = .step f)
    (hf : f d t.shared b = some (m',y,e)) :
    step C t ⟨p,d,b⟩ = some (⟨m',update t.spot p y⟩,e.map (Prod.mk p)) := by
  unfold step
  rw [hp]
  simp only [hf, Option.map_some]

theorem own_events (p : ι) (e : List ω) :
    (e.map (Event.own (κ := κ) p)).filterMap own = e.map (Prod.mk p) := by
  induction e with
  | nil => rfl
  | cons a e ih => simpa [own] using ih

theorem actor_code [DecidableEq ι] [DecidableEq L] [DecidableEq κ] (m : Turn C s l s' o) {p : ι} {z : α}
    (h : actor l = some p)
    (hz : s.place p = .code z) : ∃ b, l = .thread p b := by
  cases m with
  | schedTake | idle => cases h
  | give _ _ here =>
    cases h
    rw [here] at hz
    cases hz
  | _ =>
    cases h
    exact ⟨_,rfl⟩

theorem view_code {p : ι} {x : α} (h : s.place p = .code x) : (view s).spot p = x := by
  rw [view]
  simp only [h, spot]

theorem permits_code {p : ι} {b : β} {x : α} (h : s.place p = .code x)
    (hg : Permits g s (.thread p b)) (d : Bool) : Allows g (view s) ⟨p,d,b⟩ := by
  have hg' : AtCode (fun x => g p x s.shared b) (s.place p) := hg
  rw [h] at hg'
  rw [Allows, view_code h]
  exact hg'

variable [DecidableEq L] [DecidableEq ι] [DecidableEq κ]

theorem run_view {tr : List (Event ι κ ω)} (h : Run (machine C) (Permits g) tr s) :
    Run (code C) (Allows g) (tr.filterMap own) (view s) := by
  have hsim := run_simulation (T := code C) (H := Allows g) (fun s t => view s = t) own rfl (by
    rintro s t tr l s' o - rfl guard next
    have m := step_turn next
    rcases turn_kind m with ⟨p,b,x,y,f,m',e,rfl,here,prog,hf,hm,hy,rfl⟩ | ⟨hm,hown,hcall⟩
    · refine .inl ⟨⟨p,s.killed p,b⟩,view s',permits_code here guard _,?_,rfl⟩
      rw [view_actor m (p := p) rfl, hy, hm, own_events]
      exact step_own (by rw [view_code here, prog]) hf
    · cases hact : actor l with
      | none => exact .inr ⟨hown,view_idle m hact hm⟩
      | some p =>
        rw [hown, view_actor m hact, hm]
        rcases hcall p hact with hsame | ⟨z,hz,hnext⟩
        · refine .inr ⟨rfl,?_⟩
          rw [hsame]
          exact congrArg (Code.mk s.shared) (update_eq_self p _)
        · obtain ⟨b,rfl⟩ := actor_code m hact hz
          exact .inl ⟨⟨p,s.killed p,b⟩,_,permits_code hz guard _,
            step_call (by rw [view_code hz, hnext]),rfl⟩) h
  obtain ⟨t,ht,rfl⟩ := hsim
  exact ht

section Rule
variable {t t' : Code ι σ α} {v : Move ι β} {q : List (ι × ω)}

omit [DecidableEq L] [DecidableEq κ] in
theorem step_cases (h : step C t v = some (t',q)) :
    (∃ y, (C.prog v.p (t.spot v.p)).next = some y ∧
      t' = ⟨t.shared,update t.spot v.p y⟩ ∧ q = []) ∨
    (∃ f m' y e, C.prog v.p (t.spot v.p) = .step f ∧
      f v.killed t.shared v.input = some (m',y,e) ∧
      t' = ⟨m',update t.spot v.p y⟩ ∧ q = e.map (Prod.mk v.p)) := by
  unfold step at h
  split at h
  · rename_i f hp
    obtain ⟨⟨m',y,e⟩,hf,heq⟩ := Option.map_eq_some_iff.mp h
    cases heq
    exact .inr ⟨f,m',y,e,hp,hf,rfl,rfl⟩
  · obtain ⟨y,hy,heq⟩ := Option.map_eq_some_iff.mp h
    cases heq
    exact .inl ⟨y,hy,rfl,rfl⟩

omit [DecidableEq L] [DecidableEq κ] in
theorem code_invariant (P : List (ι × ω) → σ → (ι → α) → Prop) (hboot : P [] C.shared C.start)
    (hcall : ∀ tr m x p y, P tr m x → (C.prog p (x p)).next = some y →
      P tr m (update x p y))
    (hstep : ∀ tr m x p d b f m' y e, Run (code C) (Allows g) tr ⟨m,x⟩ → P tr m x →
      g p (x p) m b → C.prog p (x p) = .step f → f d m b = some (m',y,e) →
      P (tr++e.map (Prod.mk p)) m' (update x p y))
    {tr : List (ι × ω)} (h : Run (code C) (Allows g) tr t) : P tr t.shared t.spot := by
  refine run_invariant (fun tr t => P tr t.shared t.spot) hboot ?_ h
  intro tr t v t' o hr hp hg hn
  rcases step_cases hn with ⟨y,hy,rfl,rfl⟩ | ⟨f,m',y,e,hf,he,rfl,rfl⟩
  · rw [List.append_nil]
    exact hcall tr _ _ _ y hp hy
  · exact hstep tr _ _ _ _ _ f m' y e hr hp hg hf he

end Rule

section Locked
variable {K : α → Prop} {holds : α → Lock L → Prop} {k : Lock L} {tr : List (Event ι κ ω)}
  {G : State ι L κ σ α → Label ι β → Prop}

omit [DecidableEq L] [DecidableEq ι] [DecidableEq κ] in
theorem spot_holds (hK : ∀ x, K x → holds x k)
    (hsleep : ∀ p x c j y, C.prog p x = .sleep c j y → ¬K y) {p : ι}
    {x : Place ι L κ α} (hcall : Called C p x) (hx : K (spot x)) : PlaceHolds holds x k := by
  have hno : ∀ {c j y}, (∃ z, C.prog p z = .sleep c j y) → ¬K y := fun {c j y} ⟨z,hz⟩ => hsleep p z c j y hz
  cases x with
  | code x => exact hK x hx
  | enter | drop | mark | sched | off | back | tidy | retake => exact absurd hx (hno hcall)
  | waking | killing => exact hK _ hx
  | wake | kill | table => exact .inr (hK _ hx)

theorem one_holds (hd : Disciplined C holds) (hK : ∀ x, K x → holds x k)
    (hsleep : ∀ p x c j y, C.prog p x = .sleep c j y → ¬K y) (h : Run (machine C) G tr s) {p q : ι}
    (hp : K ((view s).spot p)) (hq : K ((view s).spot q)) : p = q :=
  mutual_exclusion (owned_run hd h) (spot_holds hK hsleep (called_run h p) hp)
    (spot_holds hK hsleep (called_run h q) hq)

/-- What calls keep, and every step of the code keeps while no two threads have the lock, holds in
all runs with locks. -/
theorem locked_invariant (hd : Disciplined C holds) (hK : ∀ x, K x → holds x k)
    (hsleep : ∀ p x c j y, C.prog p x = .sleep c j y → ¬K y) (P : List (ι × ω) → σ → (ι → α) → Prop)
    (hboot : P [] C.shared C.start)
    (hcall : ∀ tr m x p y, P tr m x → (C.prog p (x p)).next = some y → P tr m (update x p y))
    (hstep : ∀ tr m x p d b f m' y e, (∀ q, q ≠ p → K (x p) → ¬K (x q)) → P tr m x →
    C.prog p (x p) = .step f →
      f d m b = some (m',y,e) → P (tr++e.map (Prod.mk p)) m' (update x p y))
    (h : Run (machine C) G tr s) : P (tr.filterMap own) s.shared (view s).spot := by
  refine run_invariant (S := machine C) (fun tr s => P (tr.filterMap own) s.shared (view s).spot) hboot ?_ h
  intro tr s l s' o hrun hP _ hn
  have m := step_turn hn
  rw [List.filterMap_append]
  rcases turn_kind m with ⟨p,b,x,y,f,m',e,rfl,here,prog,hf,rfl,hy,rfl⟩ | ⟨hm,hown,hnext⟩
  · have hone : ∀ q, q ≠ p → K ((view s).spot p) → ¬K ((view s).spot q) := fun q hq hp hKq =>
      hq (one_holds hd hK hsleep hrun hKq hp)
    rw [own_events, view_actor m (p := p) rfl, hy]
    exact hstep _ _ _ p _ b f _ y e hone hP (by rw [view_code here, prog]) hf
  · rw [hown, List.append_nil, hm]
    cases hact : actor l with
    | none =>
      rw [view_idle m hact hm]
      exact hP
    | some p =>
      rw [view_actor m hact]
      rcases hnext p hact with hsame | ⟨z,hz,hnext⟩
      · rw [hsame]
        show P _ _ (update (view s).spot p ((view s).spot p))
        rw [update_eq_self]
        exact hP
      · exact hcall _ _ _ p _ hP (by rw [view_code hz, hnext])

end Locked

section Solo
variable {p : ι} {x y : α} {m m' : σ} {tr : List (Event ι κ ω)} {H : L → Option (Holder ι)} {l : L}

/-- There is a run to where thread `p` is at `x` of its code and the spinlocks
are held as `H` says. -/
def Gets (C : Client ι L κ σ α β ω) (p : ι) (tr : List (Event ι κ ω)) (m : σ) (x : α)
    (H : L → Option (Holder ι)) : Prop :=
  ∃ s, Run (machine C) (fun _ _ => True) tr s ∧ s.shared = m ∧ s.place p = .code x ∧
    ∀ l, s.holder (.spin l) = H l

theorem thread_code {b : β} (h : s.place p = .code x) :
    (machine C).step s (.thread p b) = codeStep s p b (C.prog p x) := by
  show threadStep C s p b = _
  unfold threadStep
  rw [h]

theorem gets_lock {h : Option (Holder ι)} (hr : Run (machine C) (fun _ _ => True) tr s)
    (hH : ∀ l, s.holder (.spin l) = H l) {b : β} (hnext : (machine C).step s (.thread p b) =
      some ((s.own (.spin l) h).at p (.code y),[])) :
    Gets C p tr s.shared y (update H l h) := by
  have hr' := hr.step trivial hnext
  rw [List.append_nil] at hr'
  refine ⟨_,hr',rfl,by simp,fun k => ?_⟩
  by_cases hk : k = l
  · subst hk
    simp
  · simp [hk, hH]

theorem gets_acquire (hg : Gets C p tr m x H) (b : β) (hp : C.prog p x = .acquire (.spin l) y)
    (hl : H l = none) : Gets C p tr m y (update H l (some (.thread p))) := by
  obtain ⟨s,hr,rfl,hx,hH⟩ := hg
  refine gets_lock hr hH (b := b) ?_
  rw [thread_code hx, hp]
  exact if_pos (by rw [hH, hl])

theorem gets_release (hg : Gets C p tr m x H) (b : β) (hp : C.prog p x = .release (.spin l) y)
    (hl : H l = some (.thread p)) : Gets C p tr m y (update H l none) := by
  obtain ⟨s,hr,rfl,hx,hH⟩ := hg
  refine gets_lock hr hH (b := b) ?_
  rw [thread_code hx, hp]
  exact if_pos (by rw [hH, hl])

theorem gets_step {e : List ω} {f : Bool → σ → β → Option (σ × α × List ω)}
    (hg : Gets C p tr m x H) (b : β) (hp : C.prog p x = .step f)
    (hf : ∀ d, f d m b = some (m',y,e)) : Gets C p (tr++e.map (.own p)) m' y H := by
  obtain ⟨s,hr,hm,hx,hH⟩ := hg
  have hnext : (machine C).step s (.thread p b) =
      some ({ s with shared := m' }.at p (.code y),e.map (.own p)) := by
    rw [thread_code hx, hp]
    simp only [codeStep, hm, hf, Option.map_some]
  exact ⟨_,hr.step trivial hnext,rfl,by simp,hH⟩

end Solo

section Tally
variable {w : α → ℤ} {x : ι → α}
variable [Fintype ι]

/-- What the points of all threads weigh together. -/
def tally (w : α → ℤ) (x : ι → α) : ℤ := ∑ p, w (x p)

theorem tally_update (w : α → ℤ) (x : ι → α) (p : ι) (y : α) :
    tally w (update x p y) = tally w x-w (x p)+w y := by
  have h1 := Finset.add_sum_erase Finset.univ (fun q => w (update x p y q))
    (Finset.mem_univ p)
  have h2 := Finset.add_sum_erase Finset.univ (fun q => w (x q)) (Finset.mem_univ p)
  have h3 : ∑ q ∈ Finset.univ.erase p, w (update x p y q) =
      ∑ q ∈ Finset.univ.erase p, w (x q) :=
    Finset.sum_congr rfl fun q hq => by rw [update_of_ne (Finset.ne_of_mem_erase hq)]
  simp only [update_self] at h1
  unfold tally
  omega

omit [DecidableEq ι] in
theorem tally_ge (hw : ∀ a, 0 ≤ w a) (p : ι) : w (x p) ≤ tally w x :=
  Finset.single_le_sum (f := fun q => w (x q)) (fun q _ => hw (x q)) (Finset.mem_univ p)

theorem tally_pair (hw : ∀ a, 0 ≤ w a) {p q : ι} (hpq : p ≠ q) :
    w (x p)+w (x q) ≤ tally w x := by
  have hp := Finset.add_sum_erase Finset.univ (fun r => w (x r)) (Finset.mem_univ p)
  have hq : w (x q) ≤ ∑ r ∈ Finset.univ.erase p, w (x r) :=
    Finset.single_le_sum (f := fun r => w (x r)) (fun r _ => hw (x r))
      (Finset.mem_erase.mpr ⟨hpq.symm,Finset.mem_univ q⟩)
  unfold tally
  omega

end Tally

end Xv6.CodeMachine

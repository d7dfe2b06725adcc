import Mathlib.Logic.Function.Basic
import Mathlib.Data.List.FinRange
import Mathlib.Tactic.Common

/-!
# The process table of proc.c

The slots of `ptable.proc` and the loops that run over them under
`ptable.lock`. Pointers to a `struct proc` are slot numbers. A slot's memory
image, open files and trap frame are not part of the table; `birth` is a
ghost that numbers the calls of `allocproc` that found a slot, so that a
process keeps an identity when its slot or its 32 bit pid is used again.
-/

set_option autoImplicit false

namespace Xv6.ProcTable
open Function

abbrev NPROC : ℕ := 64
abbrev Slot := Fin NPROC
abbrev Pid := BitVec 32

instance : @NeZero ℕ Zero.ofOfNat0 NPROC := ⟨by decide⟩

inductive ProcState where
  | UNUSED
  | EMBRYO
  | SLEEPING
  | RUNNABLE
  | RUNNING
  | ZOMBIE
  deriving DecidableEq

def Living (x : ProcState) : Prop := x = .SLEEPING ∨ x = .RUNNABLE ∨ x = .RUNNING

instance (x : ProcState) : Decidable (Living x) := inferInstanceAs (Decidable (_ ∨ _ ∨ _))

/-- Sleep channels: the address of a `struct proc`, or of anything else. -/
inductive Chan where
  | proc (p : Slot)
  | other (a : ℕ)
  deriving DecidableEq

structure Proc where
  state : ProcState
  pid : Pid
  parent : Option Slot
  chan : Option Chan
  killed : Bool
  birth : ℕ
  deriving DecidableEq

abbrev Table := Slot → Proc

def zeroProc : Proc := ⟨.UNUSED,0,none,none,false,0⟩

/-- The slots in the order of `for(p = ptable.proc; p < &ptable.proc[NPROC]; p++)`. -/
def slots : List Slot := List.finRange NPROC

@[simp] theorem mem_slots (p : Slot) : p ∈ slots := List.mem_finRange p

def setState (p : Slot) (x : ProcState) (t : Table) : Table :=
  update t p { t p with state := x }

def setChan (p : Slot) (c : Option Chan) (t : Table) : Table :=
  update t p { t p with chan := c }

def setParent (p : Slot) (q : Option Slot) (t : Table) : Table :=
  update t p { t p with parent := q }

def setKilled (p : Slot) (k : Bool) (t : Table) : Table :=
  update t p { t p with killed := k }

def wakeup1 (c : Option Chan) (t : Table) : Table := fun p =>
  if (t p).state = .SLEEPING ∧ (t p).chan = c then { t p with state := .RUNNABLE } else t p

def freeSlot (t : Table) : Option Slot := slots.find? (fun p => (t p).state = .UNUSED)

/-- One iteration of the loop of `exit` that passes abandoned children to init. -/
def passChild (cur initproc : Slot) (p : Slot) (t : Table) : Table :=
  if (t p).parent = some cur then
    let t' := setParent p (some initproc) t
    if (t' p).state = .ZOMBIE then wakeup1 (some (.proc initproc)) t' else t'
  else t

def passChildren (cur initproc : Slot) : List Slot → Table → Table
  | [], t => t
  | p::ps, t => passChildren cur initproc ps (passChild cur initproc p t)

/-- The part of `exit` between `acquire(&ptable.lock)` and `sched()`. -/
def exitTable (cur initproc : Slot) (t : Table) : Table :=
  setState cur .ZOMBIE
    (passChildren cur initproc slots (wakeup1 ((t cur).parent.map Chan.proc) t))

def reap (p : Slot) (t : Table) : Table :=
  update t p
    { t p with pid := 0, parent := none, killed := false, state := .UNUSED }

inductive Scan where
  | reaped (p : Slot)
  | fail
  | sleep
  deriving DecidableEq

/-- One pass of the loop shared by `wait` and `waitForProcess`; `m` is the
test that continues the loop when it fails. -/
def reapScan (m : Proc → Bool) (killed : Bool) (t : Table) : Scan :=
  match slots.find? (fun p => m (t p) && (t p).state = .ZOMBIE) with
  | some p => .reaped p
  | none => if !slots.any (fun p => m (t p)) || killed then .fail else .sleep

def waitScan (cur : Slot) (t : Table) : Scan :=
  reapScan (fun p => p.parent = some cur) (t cur).killed t

def waitForProcessScan (process_id : Pid) (cur : Slot) (t : Table) : Scan :=
  reapScan (fun p => p.pid = process_id) (t cur).killed t

/-- The loop of `kill` under the lock; no slot is the return of -1. -/
def killSlot (pid : Pid) (t : Table) : Option Slot := slots.find? (fun p => (t p).pid = pid)

def killTable (p : Slot) (t : Table) : Table :=
  let t := setKilled p true t
  if (t p).state = .SLEEPING then setState p .RUNNABLE t else t

/-- The slot `allocproc` takes; the pid and the ghost come from one counter. -/
def embryo (np : Slot) (nextpid : ℕ) (t : Table) : Table :=
  update t np
    { t np with state := .EMBRYO, pid := BitVec.ofNat 32 nextpid, birth := nextpid }

section Fields
variable (p q : Slot) (t : Table)

@[simp] theorem set_state_fields (x : ProcState) :
    (setState p x t q).state = (if q = p then x else (t q).state) ∧
    (setState p x t q).pid = (t q).pid ∧
    (setState p x t q).parent = (t q).parent ∧
    (setState p x t q).chan = (t q).chan ∧
    (setState p x t q).killed = (t q).killed ∧
    (setState p x t q).birth = (t q).birth := by
  by_cases h : q = p <;> simp [setState, h]

@[simp] theorem set_chan_fields (c : Option Chan) :
    (setChan p c t q).state = (t q).state ∧
    (setChan p c t q).pid = (t q).pid ∧
    (setChan p c t q).parent = (t q).parent ∧
    (setChan p c t q).chan = (if q = p then c else (t q).chan) ∧
    (setChan p c t q).killed = (t q).killed ∧
    (setChan p c t q).birth = (t q).birth := by
  by_cases h : q = p <;> simp [setChan, h]

theorem set_chan_self : setChan p (t p).chan t = t := by
  simp [setChan]

theorem set_chan_twice (c d : Option Chan) : setChan p c (setChan p d t) = setChan p c t := by
  simp [setChan]

@[simp] theorem set_parent_fields (r : Option Slot) :
    (setParent p r t q).state = (t q).state ∧
    (setParent p r t q).pid = (t q).pid ∧
    (setParent p r t q).parent = (if q = p then r else (t q).parent) ∧
    (setParent p r t q).chan = (t q).chan ∧
    (setParent p r t q).killed = (t q).killed ∧
    (setParent p r t q).birth = (t q).birth := by
  by_cases h : q = p <;> simp [setParent, h]

@[simp] theorem set_killed_fields (k : Bool) :
    (setKilled p k t q).state = (t q).state ∧
    (setKilled p k t q).pid = (t q).pid ∧
    (setKilled p k t q).parent = (t q).parent ∧
    (setKilled p k t q).chan = (t q).chan ∧
    (setKilled p k t q).killed = (if q = p then k else (t q).killed) ∧
    (setKilled p k t q).birth = (t q).birth := by
  by_cases h : q = p <;> simp [setKilled, h]

@[simp] theorem reap_fields :
    (reap p t q).state = (if q = p then .UNUSED else (t q).state) ∧
    (reap p t q).pid = (if q = p then 0 else (t q).pid) ∧
    (reap p t q).parent = (if q = p then none else (t q).parent) ∧
    (reap p t q).chan = (t q).chan ∧
    (reap p t q).killed = (if q = p then false else (t q).killed) ∧
    (reap p t q).birth = (t q).birth := by
  by_cases h : q = p <;> simp [reap, h]

@[simp] theorem kill_fields :
    (killTable p t q).state = (if q = p ∧ (t p).state = .SLEEPING then .RUNNABLE else (t q).state) ∧
    (killTable p t q).pid = (t q).pid ∧
    (killTable p t q).parent = (t q).parent ∧
    (killTable p t q).chan = (t q).chan ∧
    (killTable p t q).killed = (if q = p then true else (t q).killed) ∧
    (killTable p t q).birth = (t q).birth := by
  unfold killTable
  by_cases h : q = p <;> by_cases hs : (t p).state = .SLEEPING <;> simp [h, hs]

@[simp] theorem embryo_fields (k : ℕ) :
    (embryo p k t q).state = (if q = p then .EMBRYO else (t q).state) ∧
    (embryo p k t q).pid = (if q = p then BitVec.ofNat 32 k else (t q).pid) ∧
    (embryo p k t q).parent = (t q).parent ∧
    (embryo p k t q).chan = (t q).chan ∧
    (embryo p k t q).killed = (t q).killed ∧
    (embryo p k t q).birth = (if q = p then k else (t q).birth) := by
  by_cases h : q = p <;> simp [embryo, h]

@[simp] theorem wakeup1_fields (c : Option Chan) :
    (wakeup1 c t q).pid = (t q).pid ∧
    (wakeup1 c t q).parent = (t q).parent ∧
    (wakeup1 c t q).chan = (t q).chan ∧
    (wakeup1 c t q).killed = (t q).killed ∧
    (wakeup1 c t q).birth = (t q).birth := by
  unfold wakeup1
  split <;> simp

end Fields

def Woken (t t' : Slot → ProcState) : Prop :=
  ∀ p, t' p = t p ∨ (t p = .SLEEPING ∧ t' p = .RUNNABLE)

theorem woken_refl (t : Slot → ProcState) : Woken t t := fun _ => .inl rfl

theorem woken_trans {t t' t'' : Slot → ProcState} (h : Woken t t') (h' : Woken t' t'') :
    Woken t t'' := by
  intro p
  rcases h p with h | h <;> rcases h' p with h' | h' <;> simp_all

variable {m : Proc → Bool} {t t' : Slot → ProcState} {killed : Bool}

theorem woken_eq (h : Woken t t') (p : Slot) {x : ProcState}
    (hs : x ≠ .SLEEPING) (hr : x ≠ .RUNNABLE) : t' p = x ↔ t p = x := by
  rcases h p with h | ⟨h,h'⟩
  · rw [h]
  · rw [h, h']
    exact ⟨fun e => absurd e.symm hr,fun e => absurd e.symm hs⟩

theorem woken_sleeping (h : Woken t t') (p : Slot)
    (hp : t' p = .SLEEPING) : t p = .SLEEPING := by
  rcases h p with h | ⟨h,-⟩
  · rwa [h] at hp
  · exact h

theorem wakeup1_woken (c : Option Chan) (t : Table) :
    Woken (fun p => (t p).state) (fun p => (wakeup1 c t p).state) := by
  intro p
  simp only [wakeup1]
  split_ifs with h
  · exact .inr ⟨h.1,rfl⟩
  · exact .inl rfl

theorem wakeup1_wakes (c : Option Chan) (t : Table) (p : Slot)
    (h : (wakeup1 c t p).state = .SLEEPING) : (t p).chan ≠ c := by
  intro hc
  by_cases hs : (t p).state = .SLEEPING
  · simp [wakeup1, hs, hc] at h
  · exact hs (woken_sleeping (wakeup1_woken c t) p h)

theorem pass_child_fields (cur initproc p q : Slot) (t : Table) :
    (passChild cur initproc p t q).pid = (t q).pid ∧
    (passChild cur initproc p t q).chan = (t q).chan ∧
    (passChild cur initproc p t q).killed = (t q).killed ∧
    (passChild cur initproc p t q).birth = (t q).birth := by
  unfold passChild
  split
  · simp only
    split <;> simp
  · simp

theorem pass_child_parent (cur initproc p q : Slot) (t : Table) :
    (passChild cur initproc p t q).parent =
      if q = p ∧ (t p).parent = some cur then some initproc else (t q).parent := by
  unfold passChild
  split
  · simp only
    split <;> simp [*]
  · simp [*]

theorem pass_child_woken (cur initproc p : Slot) (t : Table) :
    Woken (fun q => (t q).state) (fun q => (passChild cur initproc p t q).state) := by
  intro q
  unfold passChild
  split
  · simp only
    split
    · simpa using wakeup1_woken (some (.proc initproc)) (setParent p (some initproc) t) q
    · exact .inl (by simp)
  · exact .inl rfl

theorem pass_child_wakes (cur initproc p q : Slot) (t : Table)
    (hp : (t p).parent = some cur) (hz : (t p).state = .ZOMBIE)
    (hq : (passChild cur initproc p t q).state = .SLEEPING) :
    (t q).chan ≠ some (.proc initproc) := by
  unfold passChild at hq
  simp only [hp, if_true, set_parent_fields, hz] at hq
  simpa using wakeup1_wakes _ _ q hq

theorem pass_children_fields (cur initproc q : Slot) (ps : List Slot) (t : Table) :
    (passChildren cur initproc ps t q).pid = (t q).pid ∧
    (passChildren cur initproc ps t q).chan = (t q).chan ∧
    (passChildren cur initproc ps t q).killed = (t q).killed ∧
    (passChildren cur initproc ps t q).birth = (t q).birth := by
  induction ps generalizing t with
  | nil => simp [passChildren]
  | cons p ps ih =>
    obtain ⟨h1,h2,h3,h4⟩ := pass_child_fields cur initproc p q t
    simpa [passChildren, h1, h2, h3, h4] using ih (passChild cur initproc p t)

theorem pass_children_parent (cur initproc q : Slot) (ps : List Slot) (t : Table) :
    (passChildren cur initproc ps t q).parent =
      if q ∈ ps ∧ (t q).parent = some cur then some initproc else (t q).parent := by
  induction ps generalizing t with
  | nil => simp [passChildren]
  | cons p ps ih =>
    rw [passChildren, ih, pass_child_parent]
    by_cases hq : q = p
    · subst hq
      by_cases hc : (t q).parent = some cur <;> simp [hc]
    · simp [hq]

theorem pass_children_woken (cur initproc : Slot) (ps : List Slot) (t : Table) :
    Woken (fun q => (t q).state) (fun q => (passChildren cur initproc ps t q).state) := by
  induction ps generalizing t with
  | nil => exact woken_refl _
  | cons p ps ih => exact woken_trans (pass_child_woken cur initproc p t) (ih _)

theorem pass_children_wakes (cur initproc q z : Slot) (ps : List Slot) (t : Table)
    (hz : z ∈ ps) (hp : (t z).parent = some cur) (hs : (t z).state = .ZOMBIE)
    (hq : (passChildren cur initproc ps t q).state = .SLEEPING) :
    (t q).chan ≠ some (.proc initproc) := by
  induction ps generalizing t with
  | nil => simp at hz
  | cons p ps ih =>
    rw [passChildren] at hq
    by_cases hzp : z = p
    · subst hzp
      exact pass_child_wakes cur initproc z q t hp hs
        (woken_sleeping (pass_children_woken cur initproc ps _) q hq)
    · have hz' : z ∈ ps := (List.mem_cons.mp hz).resolve_left hzp
      have hp' : (passChild cur initproc p t z).parent = some cur := by
        rw [pass_child_parent]
        simp [hzp, hp]
      have hs' : (passChild cur initproc p t z).state = .ZOMBIE :=
        (woken_eq (pass_child_woken cur initproc p t) z (by decide) (by decide)).mpr hs
      rw [← (pass_child_fields cur initproc p q t).2.1]
      exact ih _ hz' hp' hs' hq

section Exit
variable (cur initproc : Slot) (t : Table)

@[simp] theorem exit_fields (q : Slot) :
    (exitTable cur initproc t q).pid = (t q).pid ∧
    (exitTable cur initproc t q).chan = (t q).chan ∧
    (exitTable cur initproc t q).killed = (t q).killed ∧
    (exitTable cur initproc t q).birth = (t q).birth := by
  simpa [exitTable] using pass_children_fields cur initproc q slots
    (wakeup1 ((t cur).parent.map Chan.proc) t)

theorem exit_parent (q : Slot) :
    (exitTable cur initproc t q).parent =
      if (t q).parent = some cur then some initproc else (t q).parent := by
  simpa [exitTable] using pass_children_parent cur initproc q slots
    (wakeup1 ((t cur).parent.map Chan.proc) t)

theorem exit_orphans (h : cur ≠ initproc) (q : Slot) :
    (exitTable cur initproc t q).parent ≠ some cur := by
  rw [exit_parent]
  split
  · simpa using h.symm
  · assumption

theorem exit_state_self : (exitTable cur initproc t cur).state = .ZOMBIE := by
  simp [exitTable]

theorem exit_state_other (q : Slot) (hq : q ≠ cur) :
    (exitTable cur initproc t q).state = (t q).state ∨
    ((t q).state = .SLEEPING ∧ (exitTable cur initproc t q).state = .RUNNABLE) := by
  have h := woken_trans (wakeup1_woken ((t cur).parent.map Chan.proc) t)
    (pass_children_woken cur initproc slots _) q
  simpa [exitTable, hq] using h

theorem exit_wakes_parent (q : Slot) (hs : (exitTable cur initproc t q).state = .SLEEPING) :
    (t q).chan ≠ (t cur).parent.map Chan.proc := by
  have hq : q ≠ cur := by
    rintro rfl
    simp [exit_state_self] at hs
  simp only [exitTable, set_state_fields, if_neg hq] at hs
  exact wakeup1_wakes _ _ q (woken_sleeping (pass_children_woken cur initproc slots _) q hs)

theorem exit_wakes_init (q z : Slot) (hp : (t z).parent = some cur)
    (hz : (t z).state = .ZOMBIE) (hs : (exitTable cur initproc t q).state = .SLEEPING) :
    (t q).chan ≠ some (.proc initproc) := by
  have hq : q ≠ cur := by
    rintro rfl
    simp [exit_state_self] at hs
  simp only [exitTable, set_state_fields, if_neg hq] at hs
  have h := pass_children_wakes cur initproc q z slots
    (wakeup1 ((t cur).parent.map Chan.proc) t) (mem_slots z) (by simpa using hp)
    ((woken_eq (wakeup1_woken _ t) z (by decide) (by decide)).mpr hz) hs
  simpa using h

end Exit

theorem find_slot_some {m : Slot → Bool} {p : Slot} (h : slots.find? m = some p) : m p = true :=
  List.find?_some h

theorem find_slot_none {m : Slot → Bool} (h : slots.find? m = none) (p : Slot) : m p = false := by
  simpa using List.find?_eq_none.mp h p (mem_slots p)

theorem reap_scan_reaped {t : Table} {p : Slot}
    (h : reapScan m killed t = .reaped p) : m (t p) = true ∧ (t p).state = .ZOMBIE := by
  unfold reapScan at h
  split at h
  · rename_i q hq
    cases h
    simpa using find_slot_some hq
  · split at h <;> cases h

theorem reap_scan_fail {t : Table}
    (h : reapScan m killed t = .fail) : killed = true ∨ ∀ p, m (t p) = false := by
  unfold reapScan at h
  split at h
  · cases h
  · split at h
    · rename_i hc
      rcases Bool.or_eq_true _ _ ▸ hc with hc | hc
      · right
        intro p
        simp only [Bool.not_eq_eq_eq_not, Bool.not_true, List.any_eq_false] at hc
        simpa using hc p (mem_slots p)
      · exact .inl hc
    · cases h

theorem reap_scan_sleep {t : Table} :
    reapScan m killed t = .sleep ↔
      killed = false ∧ (∃ p, m (t p) = true) ∧ ∀ p, m (t p) = true → (t p).state ≠ .ZOMBIE := by
  unfold reapScan
  split
  · rename_i q hq
    have := find_slot_some hq
    simp only [Bool.and_eq_true, decide_eq_true_eq] at this
    simp only [reduceCtorEq, false_iff, not_and, not_forall]
    intro _ _
    exact ⟨q,this.1,fun h => h this.2⟩
  · rename_i hq
    have hz : ∀ p, m (t p) = true → (t p).state ≠ .ZOMBIE := by
      intro p hp
      simpa [hp] using find_slot_none hq p
    by_cases hk : killed = true
    · simp [hk]
    · have hk' : killed = false := by simpa using hk
      by_cases ha : ∃ p, m (t p) = true
      · obtain ⟨p,hp⟩ := ha
        have : slots.any (fun p => m (t p)) = true := List.any_eq_true.mpr ⟨p,mem_slots p,hp⟩
        simp only [this, hk', Bool.not_true, Bool.or_self, Bool.false_eq_true, if_false, true_iff]
        exact ⟨trivial,⟨p,hp⟩,hz⟩
      · have : slots.any (fun p => m (t p)) = false := by
          apply List.any_eq_false.mpr
          intro p _ hp
          exact ha ⟨p,hp⟩
        simp [this, ha]

end Xv6.ProcTable

import Mathlib.Data.List.Basic
import Mathlib.Tactic.Common

/-!
# Runs of a labelled system with observations

One step takes a label, may be refused, and may emit observations. A run is
taken under a guard, a condition on the state before a step and its label:
the guard that always holds gives every run, a stronger one the runs whose
steps all meet it. Invariants may speak about the trace as well as the state.
-/

set_option autoImplicit false

namespace Xv6.TransitionSystem

structure System (σ lab obs : Type*) where
  boot : σ
  step : σ → lab → Option (σ × List obs)

variable {σ lab obs : Type*}

inductive Run (S : System σ lab obs) (G : σ → lab → Prop) : List obs → σ → Prop
  | boot : Run S G [] S.boot
  | step {tr o : List obs} {s s' : σ} {l : lab} (run : Run S G tr s) (guard : G s l)
      (next : S.step s l = some (s',o)) : Run S G (tr++o) s'

def Reachable (S : System σ lab obs) (s : σ) : Prop :=
  ∃ tr, Run S (fun _ _ => True) tr s

variable {S : System σ lab obs} {G : σ → lab → Prop} {tr : List obs} {s : σ}

theorem run_invariant
    (P : List obs → σ → Prop) (hboot : P [] S.boot)
    (hstep : ∀ tr s l s' o, Run S G tr s → P tr s → G s l → S.step s l = some (s',o) →
      P (tr++o) s')
    (h : Run S G tr s) : P tr s := by
  induction h with
  | boot => exact hboot
  | step run guard next ih => exact hstep _ _ _ _ _ run ih guard next

theorem run_mono {G H : σ → lab → Prop} (hGH : ∀ s l, G s l → H s l)
    (h : Run S G tr s) : Run S H tr s := by
  induction h with
  | boot => exact .boot
  | step run guard next ih => exact .step ih (hGH _ _ guard) next

theorem snoc_split {α : Type} {t u v : List α} {a b : α} (h : t++[a] = u++b::v) :
    (v = [] ∧ a = b ∧ t = u) ∨ ∃ w, v = w++[a] ∧ t = u++b::w := by
  rcases List.eq_nil_or_concat v with rfl | ⟨w,c,rfl⟩
  · obtain ⟨rfl,hab⟩ := List.append_inj' h rfl
    cases hab
    exact .inl ⟨rfl,rfl,rfl⟩
  · rw [List.concat_eq_append, ← List.cons_append, ← List.append_assoc] at h
    obtain ⟨rfl,hac⟩ := List.append_inj' h rfl
    cases hac
    exact .inr ⟨w,by simp,rfl⟩

theorem run_split
    (h : Run S G tr s) {t1 t2 : List obs} {x : obs} (htr : tr = t1 ++ x :: t2) :
    ∃ tr1 s1 l s2 o1 o2, Run S G tr1 s1 ∧ G s1 l ∧ S.step s1 l = some (s2,o1 ++ x :: o2) ∧
      t1 = tr1 ++ o1 := by
  induction h generalizing t2 with
  | boot => simp at htr
  | @step tr o s s' l run guard next ih =>
    rcases List.append_eq_append_iff.mp htr with ⟨bs,hb,ho⟩ | ⟨as,ha,ho⟩
    · exact ⟨tr,s,l,s',bs,t2,run,guard,by rw [next, ho],hb⟩
    · cases as with
      | nil =>
        refine ⟨tr,s,l,s',[],t2,run,guard,?_,by simpa using ha.symm⟩
        rw [next, List.nil_append]
        simpa using ho.symm
      | cons y ys =>
        simp only [List.cons_append, List.cons.injEq] at ho
        obtain ⟨rfl,-⟩ := ho
        exact ih ha

/-- Every step of `S` is, as far as `see` shows, a step of `T` from a related
state or no step at all; so every run of `S` is seen as a run of `T`. -/
theorem run_simulation {τ lab' obs' : Type*} {T : System τ lab' obs'}
    {H : τ → lab' → Prop} (R : σ → τ → Prop) (see : obs → Option obs')
    (hboot : R S.boot T.boot)
    (hstep : ∀ s t tr l s' o, Run T H tr t → R s t → G s l → S.step s l = some (s',o) →
      (∃ l' t', H t l' ∧ T.step t l' = some (t',o.filterMap see) ∧ R s' t') ∨
        (o.filterMap see = [] ∧ R s' t))
    (h : Run S G tr s) :
    ∃ t, Run T H (tr.filterMap see) t ∧ R s t := by
  induction h with
  | boot => exact ⟨T.boot,.boot,hboot⟩
  | step run guard next ih =>
    obtain ⟨t,ht,hR⟩ := ih
    rw [List.filterMap_append]
    rcases hstep _ t _ _ _ _ ht hR guard next with ⟨l',t',hg,hl,hR'⟩ | ⟨hnone,hR'⟩
    · exact ⟨t',.step ht hg hl,hR'⟩
    · rw [hnone, List.append_nil]
      exact ⟨t,ht,hR'⟩

section Exec
variable {S : System σ lab obs} {G : σ → lab → Prop} [∀ s l, Decidable (G s l)]

/-- The state and the trace after a list of labels, if none is refused and
every step meets the guard. -/
def exec (S : System σ lab obs) (G : σ → lab → Prop) [∀ s l, Decidable (G s l)] :
    List lab → σ → Option (σ × List obs)
  | [], s => some (s,[])
  | l::ls, s => if G s l then
      match S.step s l with
      | none => none
      | some (s',o) => (exec S G ls s').map (fun r => (r.1,o++r.2))
    else none

theorem exec_cons {l : lab} {ls : List lab} {s s' : σ} {o : List obs} (hg : G s l)
    (h : S.step s l = some (s',o)) :
    exec S G (l::ls) s = (exec S G ls s').map (fun r => (r.1,o++r.2)) := by
  rw [exec, if_pos hg, h]

theorem exec_refused {l : lab} {ls : List lab} {s : σ} (h : S.step s l = none) :
    exec S G (l::ls) s = none := by
  rw [exec, h]
  split <;> rfl

theorem exec_run_from (ls : List lab) {tr : List obs} {s : σ} (h : Run S G tr s) {s' : σ}
    {o : List obs} (he : exec S G ls s = some (s',o)) : Run S G (tr++o) s' := by
  induction ls generalizing tr s o with
  | nil =>
    simp only [exec, Option.some.injEq, Prod.mk.injEq] at he
    obtain ⟨rfl,rfl⟩ := he
    simpa using h
  | cons l ls ih =>
    rw [exec] at he
    split at he
    · rename_i hg
      split at he
      · cases he
      · rename_i s1 o1 h1
        obtain ⟨⟨s2,o2⟩,h2,heq⟩ := Option.map_eq_some_iff.mp he
        simp only [Prod.mk.injEq] at heq
        obtain ⟨rfl,rfl⟩ := heq
        rw [← List.append_assoc]
        exact ih (.step h hg h1) h2
    · cases he

/-- A test that holds at the end of a list of labels gives a run whose last
state and trace pass it. -/
theorem exec_reaches (ls : List lab) (P : σ → List obs → Prop) [∀ s o, Decidable (P s o)]
    (h : (exec S G ls S.boot).any (fun r => P r.1 r.2) = true) : ∃ o s, Run S G o s ∧ P s o := by
  obtain ⟨⟨s,o⟩,he,hp⟩ := (Option.any_eq_true _ _).mp h
  exact ⟨o,s,by simpa using exec_run_from ls .boot he,of_decide_eq_true hp⟩

end Exec

end Xv6.TransitionSystem

import Mathlib.Logic.Function.Basic
import Mathlib.Data.List.Basic
import Mathlib.Tactic.Common

/-!
# Finite write traces on a store

A store is a function from addresses to contents and a trace is the list of
writes a program issues to it, in order. Power can fail between any two
writes, so a prefix of the trace is what reached the store. The lemmas say
which addresses a trace leaves alone and when replaying it a second time
over any of its own prefixes changes nothing.
-/

set_option autoImplicit false

namespace Xv6.WriteTrace

variable {α β : Type*} [DecidableEq α]

def replay : List (α × β) → (α → β) → (α → β)
  | [], d => d
  | w::ws, d => replay ws (Function.update d w.1 w.2)

@[simp] theorem replay_nil (d : α → β) : replay [] d = d := rfl

theorem replay_cons (w : α × β) (ws : List (α × β)) (d : α → β) :
    replay (w::ws) d = replay ws (Function.update d w.1 w.2) := rfl

theorem replay_append (ws vs : List (α × β)) (d : α → β) :
    replay (ws++vs) d = replay vs (replay ws d) := by
  induction ws generalizing d with
  | nil => rfl
  | cons w ws ih => exact ih _

theorem replay_frame (ws : List (α × β)) (d : α → β) (a : α)
    (h : ∀ w ∈ ws, w.1 ≠ a) : replay ws d a = d a := by
  induction ws generalizing d with
  | nil => rfl
  | cons w ws ih =>
    rw [replay_cons, ih _ (fun v hv => h v (by simp [hv]))]
    exact Function.update_of_ne (h w (by simp)).symm _ _

/-- An address the trace writes ends with the same contents on every store,
so two stores need to agree only where the trace is silent. -/
theorem replay_agree (ws : List (α × β)) (d d' : α → β) (a : α)
    (h : (∀ w ∈ ws, w.1 ≠ a) → d a = d' a) : replay ws d a = replay ws d' a := by
  induction ws generalizing d d' with
  | nil => exact h (by simp)
  | cons w ws ih =>
    apply ih
    intro hs
    by_cases hw : a = w.1
    · simp [hw]
    · rw [Function.update_of_ne hw, Function.update_of_ne hw]
      apply h
      intro v hv
      rcases List.mem_cons.mp hv with rfl | hv
      · exact fun e => hw e.symm
      · exact hs v hv

theorem replay_absorbs_prefix (ws : List (α × β)) (k : ℕ) (d : α → β) (a : α) :
    replay ws (replay (ws.take k) d) a = replay ws d a := by
  apply replay_agree
  intro hs
  exact replay_frame _ _ _ (fun w hw => hs w (List.mem_of_mem_take hw))

theorem replay_idem (ws : List (α × β)) (d : α → β) :
    replay ws (replay ws d) = replay ws d := by
  funext a
  simpa using replay_absorbs_prefix ws ws.length d a

theorem replay_comm (ws vs : List (α × β)) (d : α → β)
    (h : ∀ w ∈ ws, ∀ v ∈ vs, w.1 ≠ v.1) :
    replay ws (replay vs d) = replay vs (replay ws d) := by
  funext a
  by_cases ha : ∀ w ∈ ws, w.1 ≠ a
  · rw [replay_frame ws _ a ha]
    exact replay_agree _ _ _ _ (fun _ => (replay_frame ws d a ha).symm)
  · push Not at ha
    obtain ⟨w,hw,rfl⟩ := ha
    have hv : ∀ v ∈ vs, v.1 ≠ w.1 := fun v hv => (h w hw v hv).symm
    rw [replay_frame vs _ _ hv]
    exact replay_agree _ _ _ _ (fun _ => replay_frame vs d _ hv)

theorem replay_mem (ws : List (α × β)) (hn : (ws.map Prod.fst).Nodup)
    (d : α → β) (w : α × β) (hw : w ∈ ws) : replay ws d w.1 = w.2 := by
  induction ws generalizing d with
  | nil => simp at hw
  | cons v ws ih =>
    rw [List.map_cons, List.nodup_cons] at hn
    rw [replay_cons]
    rcases List.mem_cons.mp hw with rfl | hw
    · rw [replay_frame]
      · simp
      · intro u hu he
        exact hn.1 (by rw [← he]; exact List.mem_map_of_mem hu)
    · exact ih hn.2 _ hw

end Xv6.WriteTrace

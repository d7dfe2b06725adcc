import Mathlib.Logic.Function.Basic
import Mathlib.Tactic.Common

/-!
# Regions of a heap

A heap gives the contents of the cells that are owned. A region is a set of cells of it. A
piece of work takes the cells of one region and leaves those of another: it does not touch
the cells outside, the new cells were not owned, and the cells it gives up are not owned
afterwards.
-/

set_option autoImplicit false

namespace Xv6.HeapRegions

variable {α β : Type}

abbrev Heap (α β : Type) := α → Option β

structure Moves (h : Heap α β) (A : α → Prop) (h' : Heap α β) (A' : α → Prop) : Prop where
  rest : ∀ v, ¬A v → ¬A' v → h' v = h v
  fresh : ∀ v, A' v → ¬A v → h v = none
  gone : ∀ v, A v → ¬A' v → h' v = none

variable {h h' h'' : Heap α β} {A A' A'' B : α → Prop} {v : α} {x : β}

theorem moves_refl (h : Heap α β) (A : α → Prop) : Moves h A h A :=
  ⟨fun _ _ _ => rfl,fun _ hin hout => absurd hin hout,fun _ hin hout => absurd hin hout⟩

theorem moves_trans (h1 : Moves h A h' A') (h2 : Moves h' A' h'' A'') : Moves h A h'' A'' := by
  refine ⟨fun v ha ha'' => ?_,fun v ha'' ha => ?_,fun v ha ha'' => ?_⟩
  · by_cases ha' : A' v
    · rw [h2.gone v ha' ha'', h1.fresh v ha' ha]
    · rw [h2.rest v ha' ha'', h1.rest v ha ha']
  · by_cases ha' : A' v
    · exact h1.fresh v ha' ha
    · rw [← h1.rest v ha ha']
      exact h2.fresh v ha'' ha'
  · by_cases ha' : A' v
    · exact h2.gone v ha' ha''
    · rw [h2.rest v ha' ha'']
      exact h1.gone v ha ha'

theorem moves_keep (hm : Moves h A h' A') (hv : h v ≠ none) (ha : ¬A v) : h' v = h v ∧ ¬A' v := by
  have ha' : ¬A' v := fun hin => hv (hm.fresh v hin ha)
  exact ⟨hm.rest v ha ha',ha'⟩

theorem moves_grow (hm : Moves h A h' A') (B : α → Prop) :
    Moves h (fun v => A v ∨ B v) h' (fun v => A' v ∨ B v) := by
  refine ⟨fun v ha ha' => ?_,fun v ha' ha => ?_,fun v ha ha' => ?_⟩
  · exact hm.rest v (fun hin => ha (.inl hin)) (fun hin => ha' (.inl hin))
  · rcases ha' with hin | hin
    · exact hm.fresh v hin (fun hin => ha (.inl hin))
    · exact absurd (.inr hin) ha
  · rcases ha with hin | hin
    · exact hm.gone v hin (fun hin => ha' (.inl hin))
    · exact absurd (.inr hin) ha'

theorem moves_congr (hm : Moves h A h' A') (hA : ∀ v, A v ↔ B v) (hA' : ∀ v, A' v ↔ A'' v) :
    Moves h B h' A'' := by
  have h1 : A = B := funext fun v => propext (hA v)
  have h2 : A' = A'' := funext fun v => propext (hA' v)
  exact h1 ▸ h2 ▸ hm

theorem moves_none (hm : Moves h (fun _ => False) h' (fun _ => False)) : h' = h :=
  funext fun v => hm.rest v id id

variable [DecidableEq α]

theorem moves_alloc (hv : h v = none) (A : α → Prop) :
    Moves h A (Function.update h v (some x)) (fun u => A u ∨ u = v) := by
  refine ⟨fun u ha ha' => ?_,fun u ha' ha => ?_,fun u ha ha' => absurd (.inl ha) ha'⟩
  · exact Function.update_of_ne (fun heq => ha' (.inr heq)) _ _
  · rcases ha' with hin | rfl
    · exact absurd hin ha
    · exact hv

theorem moves_free (hA : ¬A v) : Moves h (fun u => A u ∨ u = v) (Function.update h v none) A := by
  refine ⟨fun u ha _ => ?_,fun u ha' ha => absurd (.inl ha') ha,fun u ha ha' => ?_⟩
  · exact Function.update_of_ne (fun heq => ha (.inr heq)) _ _
  · rcases ha with hin | rfl
    · exact absurd hin ha'
    · exact Function.update_self _ _ _

theorem moves_write (hA : A v) : Moves h A (Function.update h v (some x)) A :=
  ⟨fun _ ha _ => Function.update_of_ne (fun heq => ha (by rw [heq]; exact hA)) _ _,
    fun _ hin hout => absurd hin hout,fun _ hin hout => absurd hin hout⟩

end Xv6.HeapRegions

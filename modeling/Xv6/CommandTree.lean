import Mathlib.Tactic.Common

/-!
# Programs over commands

A program is a tree: it has a result, or it gives a command and goes on with the
reply. A handler says what a command does to the state, and whether it stops the
program for good. The weakest precondition of a program has a postcondition for
its result and one for its stops, and is taken apart along the program.
-/

set_option autoImplicit false

namespace Xv6.CommandTree

inductive Program (C : Type) (R : C → Type) (α : Type) where
  | ret (a : α)
  | call (c : C) (next : R c → Program C R α)

variable {C : Type} {R : C → Type} {α β σ ε : Type}

def Program.bind : Program C R α → (α → Program C R β) → Program C R β
  | .ret a, f => f a
  | .call c next, f => .call c (fun r => (next r).bind f)

instance : Monad (Program C R) where
  pure := .ret
  bind := .bind

def perform (c : C) : Program C R (R c) := .call c .ret

abbrev Handler (C : Type) (R : C → Type) (σ ε : Type) := (c : C) → σ → Except ε (R c × σ)

def run (H : Handler C R σ ε) : Program C R α → σ → Except ε (α × σ)
  | .ret a, s => .ok (a,s)
  | .call c next, s => (H c s).bind (fun r => run H (next r.1) r.2)

/-- What holds of the outcome: `Q` of a result and the state with it, `E` of a
stop. -/
def Meets (Q : α → σ → Prop) (E : ε → Prop) : Except ε (α × σ) → Prop
  | .ok (a,s) => Q a s
  | .error e => E e

def wp (H : Handler C R σ ε) (p : Program C R α) (Q : α → σ → Prop) (E : ε → Prop) (s : σ) : Prop :=
  Meets Q E (run H p s)

variable {H : Handler C R σ ε} {p : Program C R α} {f : α → Program C R β} {Q Q' : α → σ → Prop}
  {E E' : ε → Prop} {s : σ}

theorem run_bind : run H (p >>= f) s = (run H p s).bind (fun r => run H (f r.1) r.2) := by
  induction p generalizing s with
  | ret a => rfl
  | call c next ih =>
    show (H c s).bind (fun r => run H (next r.1 >>= f) r.2) =
      ((H c s).bind (fun r => run H (next r.1) r.2)).bind _
    cases H c s with
    | ok r => exact ih r.1
    | error e => rfl

theorem wp_pure (a : α) : wp H (pure a) Q E s ↔ Q a s := Iff.rfl

theorem wp_bind {Q : β → σ → Prop} :
    wp H (p >>= f) Q E s ↔ wp H p (fun a t => wp H (f a) Q E t) E s := by
  unfold wp
  rw [run_bind]
  cases run H p s <;> exact Iff.rfl

theorem wp_perform {c : C} {Q : R c → σ → Prop} : wp H (perform c) Q E s ↔ Meets Q E (H c s) := by
  show Meets Q E ((H c s).bind (fun r => .ok (r.1,r.2))) ↔ _
  cases H c s <;> exact Iff.rfl

theorem wp_mono (h : wp H p Q E s) (hQ : ∀ a t, Q a t → Q' a t) (hE : ∀ e, E e → E' e) :
    wp H p Q' E' s := by
  unfold wp at h ⊢
  cases hr : run H p s with
  | ok r =>
    rw [hr] at h
    exact hQ r.1 r.2 h
  | error e =>
    rw [hr] at h
    exact hE e h

theorem wp_and (h : wp H p Q E s) (h' : wp H p Q' E' s) :
    wp H p (fun a t => Q a t ∧ Q' a t) (fun e => E e ∧ E' e) s := by
  unfold wp at h h' ⊢
  cases hr : run H p s with
  | ok r =>
    rw [hr] at h h'
    exact ⟨h,h'⟩
  | error e =>
    rw [hr] at h h'
    exact ⟨h,h'⟩

theorem wp_seq {Q : β → σ → Prop} {Q' : α → σ → Prop} (h : wp H p Q' E' s)
    (hE : ∀ e, E' e → E e) (hnext : ∀ a t, Q' a t → wp H (f a) Q E t) :
    wp H (p >>= f) Q E s :=
  wp_bind.mpr (wp_mono h hnext hE)

theorem wp_post (h : wp H p Q E s) (hQ : ∀ a t, Q a t → Q' a t) : wp H p Q' E s := wp_mono h hQ fun _ => id

theorem wp_then {Q : β → σ → Prop} {Q' : α → σ → Prop} (h : wp H p Q' E s)
    (hnext : ∀ a t, Q' a t → wp H (f a) Q E t) : wp H (p >>= f) Q E s := wp_seq h (fun _ => id) hnext

theorem wp_ran (h : wp H p Q E s) : wp H p (fun a t => Q a t ∧ run H p s = .ok (a,t)) E s := by
  unfold wp at h ⊢
  cases hr : run H p s with
  | ok r =>
    rw [hr] at h
    exact ⟨h,rfl⟩
  | error e =>
    rw [hr] at h
    exact h

theorem wp_result (h : wp H p Q (fun _ => False) s) : ∃ a t, run H p s = .ok (a,t) ∧ Q a t := by
  unfold wp at h
  cases hr : run H p s with
  | ok r =>
    rw [hr] at h
    exact ⟨r.1,r.2,rfl,h⟩
  | error e =>
    rw [hr] at h
    exact h.elim

end Xv6.CommandTree

import Xv6.CommandTree

/-!
# Runs that leave marks

A command may leave marks, which depend on the state it is given in. The trail of a
program has the marks of its run in order, up to the result or to the stop, and is
specified together with the outcome.
-/

set_option autoImplicit false

namespace Xv6.MarkedRuns
open CommandTree

variable {C : Type} {R : C → Type} {α β σ ε L : Type}

def onward (next : α → σ → List L) : Except ε (α × σ) → List L
  | .ok (a,t) => next a t
  | .error _ => []

def trail (H : Handler C R σ ε) (mark : C → σ → List L) : Program C R α → σ → List L
  | .ret _, _ => []
  | .call c next, s => mark c s++onward (fun r t => trail H mark (next r) t) (H c s)

def Leaves (H : Handler C R σ ε) (mark : C → σ → List L) (p : Program C R α) (Q : α → σ → List L → Prop)
    (E : ε → List L → Prop) (s : σ) : Prop :=
  wp H p (fun a t => Q a t (trail H mark p s)) (fun e => E e (trail H mark p s)) s

variable {H : Handler C R σ ε} {mark : C → σ → List L} {p : Program C R α} {f : α → Program C R β}
  {Q Q' : α → σ → List L → Prop} {E E' : ε → List L → Prop} {s : σ}

theorem trail_bind : trail H mark (p >>= f) s =
    trail H mark p s++onward (fun a t => trail H mark (f a) t) (run H p s) := by
  induction p generalizing s with
  | ret a => rfl
  | call c next ih =>
    show mark c s++onward (fun r t => trail H mark (next r >>= f) t) (H c s) =
      (mark c s++onward (fun r t => trail H mark (next r) t) (H c s))++
        onward (fun a t => trail H mark (f a) t) ((H c s).bind (fun r => run H (next r.1) r.2))
    rw [List.append_assoc]
    congr 1
    cases H c s with
    | ok r => exact ih r.1
    | error e => rfl

theorem leaves_pure (a : α) : Leaves H mark (pure a) Q E s ↔ Q a s [] := Iff.rfl

theorem leaves_step {c : C} {r : R c} {t : σ} {g : R c → Program C R α} (hc : H c s = .ok (r,t)) :
    Leaves H mark (perform c >>= g) Q E s ↔
      Leaves H mark (g r) (fun a u l => Q a u (mark c s++l)) (fun e l => E e (mark c s++l)) t := by
  have hrun : run H (perform c >>= g) s = run H (g r) t := by
    show (H c s).bind (fun r => run H (g r.1) r.2) = _
    rw [hc]
    rfl
  have htrail : trail H mark (perform c >>= g) s = mark c s++trail H mark (g r) t := by
    show mark c s++onward (fun r t => trail H mark (g r) t) (H c s) = _
    rw [hc]
    rfl
  rw [Leaves, Leaves, wp, wp, hrun, htrail]

theorem leaves_mono (h : Leaves H mark p Q E s) (hQ : ∀ a t l, Q a t l → Q' a t l)
    (hE : ∀ e l, E e l → E' e l) : Leaves H mark p Q' E' s :=
  wp_mono h (fun a t => hQ a t _) (fun e => hE e _)

theorem leaves_and (h : Leaves H mark p Q E s) (h' : Leaves H mark p Q' E' s) :
    Leaves H mark p (fun a t l => Q a t l ∧ Q' a t l) (fun e l => E e l ∧ E' e l) s := wp_and h h'

theorem leaves_of_wp {Q : α → σ → Prop} {E : ε → Prop} (h : wp H p Q E s) :
    Leaves H mark p (fun a t _ => Q a t) (fun e _ => E e) s := h

theorem leaves_seq {Q : β → σ → List L → Prop} {Q' : α → σ → List L → Prop} (h : Leaves H mark p Q' E' s)
    (hE : ∀ e l, E' e l → E e l)
    (hnext : ∀ a t l, Q' a t l →
    Leaves H mark (f a) (fun b u l' => Q b u (l++l')) (fun e l' => E e (l++l')) t) :
    Leaves H mark (p >>= f) Q E s := by
  unfold Leaves at h ⊢
  rw [wp_bind, trail_bind]
  unfold wp at h ⊢
  cases hr : run H p s with
  | ok r =>
    rw [hr] at h
    exact hnext r.1 r.2 _ h
  | error e =>
    rw [hr] at h
    show E e (trail H mark p s++[])
    rw [List.append_nil]
    exact hE e _ h

theorem leaves_trail {P : List L → Prop} (h : Leaves H mark p (fun _ _ l => P l) (fun _ l => P l) s) :
    P (trail H mark p s) := by
  unfold Leaves wp at h
  cases hr : run H p s with
  | ok r =>
    rw [hr] at h
    exact h
  | error e =>
    rw [hr] at h
    exact h

section Silent
variable {Q Q' : α → σ → Prop} {E E' : ε → Prop}

def Silent (H : Handler C R σ ε) (mark : C → σ → List L) (p : Program C R α) (Q : α → σ → Prop)
    (E : ε → Prop) (s : σ) : Prop :=
  Leaves H mark p (fun a t l => l = [] ∧ Q a t) (fun e l => l = [] ∧ E e) s

theorem silent_iff : Silent H mark p Q E s ↔ trail H mark p s = [] ∧ wp H p Q E s := by
  unfold Silent Leaves wp
  cases run H p s <;> exact Iff.rfl

theorem silent_pure (a : α) : Silent H mark (pure a) Q E s ↔ Q a s := and_iff_right rfl

theorem silent_perform {c : C} {Q : R c → σ → Prop} (hc : mark c s = []) :
    Silent H mark (perform c) Q E s ↔ Meets Q E (H c s) := by
  have htrail : trail H mark (perform c) s = [] := by
    show mark c s++onward (fun _ _ => []) (H c s) = _
    rw [hc]
    cases H c s <;> rfl
  rw [silent_iff, wp_perform]
  exact and_iff_right htrail

theorem silent_bind {Q : β → σ → Prop} :
    Silent H mark (p >>= f) Q E s ↔ Silent H mark p (fun a t => Silent H mark (f a) Q E t) E s := by
  simp only [silent_iff, wp_bind, trail_bind, List.append_eq_nil_iff, and_assoc]
  refine and_congr_right fun _ => ?_
  unfold wp
  cases run H p s with
  | ok r => exact Iff.rfl
  | error e => exact and_iff_right rfl

theorem silent_mono (h : Silent H mark p Q E s) (hQ : ∀ a t, Q a t → Q' a t) (hE : ∀ e, E e → E' e) :
    Silent H mark p Q' E' s :=
  leaves_mono h (fun a t _ => And.imp_right (hQ a t)) (fun e _ => And.imp_right (hE e))

theorem silent_seq {Q : β → σ → Prop} {Q' : α → σ → Prop} (h : Silent H mark p Q' E' s)
    (hE : ∀ e, E' e → E e) (hnext : ∀ a t, Q' a t → Silent H mark (f a) Q E t) :
    Silent H mark (p >>= f) Q E s :=
  silent_bind.mpr (silent_mono h hnext hE)

theorem leaves_silent {Q : β → σ → List L → Prop} {Q' : α → σ → Prop} {E : ε → List L → Prop}
    (h : Silent H mark p Q' E' s) (hE : ∀ e, E' e → E e [])
    (hnext : ∀ a t, Q' a t → Leaves H mark (f a) Q E t) :
    Leaves H mark (p >>= f) Q E s := by
  refine leaves_seq h ?_ ?_
  · rintro e _ ⟨rfl,he⟩
    exact hE e he
  · rintro a t _ ⟨rfl,ha⟩
    exact hnext a t ha

end Silent

def Returns (P : α → Prop) : Program C R α → Prop
  | .ret a => P a
  | .call _ next => ∀ r, Returns P (next r)

theorem returns_bind {P : β → Prop} (p : Program C R α) (h : ∀ a, Returns P (f a)) : Returns P (p >>= f) := by
  induction p with
  | ret a => exact h a
  | call c next ih => exact fun r => ih r

theorem leaves_returns {P : α → Prop} (h : Returns P p) :
    Leaves H mark p (fun a _ _ => P a) (fun _ _ => True) s := by
  show Meets (fun a _ => P a) (fun _ => True) (run H p s)
  induction p generalizing s with
  | ret a => exact h
  | call c next ih =>
    show Meets _ _ ((H c s).bind (fun r => run H (next r.1) r.2))
    cases H c s with
    | ok r => exact ih r.1 (h r.1)
    | error e => trivial

end Xv6.MarkedRuns

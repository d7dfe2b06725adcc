import Mathlib.Data.Nat.Notation

/-!
# Parsers with fuel

A parser moves a place in its input. It ends with a result, or stops with an error, or has no
fuel left. `Gives` is for what holds of a result; a loop gives it where each turn brings a
measure down.
-/

set_option autoImplicit false

namespace Xv6.FuelParsers

inductive Outcome (ε σ α : Type) where
  | ok (a : α) (s : σ)
  | stop (e : ε)
  | spent
  deriving DecidableEq

def Parser (ε σ α : Type) : Type := σ → Outcome ε σ α

variable {ε σ α β : Type}

def Parser.run (m : Parser ε σ α) (s : σ) : Outcome ε σ α := m s

def andThen (m : Parser ε σ α) (f : α → Parser ε σ β) : Parser ε σ β := fun s =>
  match m.run s with
  | .ok a t => (f a).run t
  | .stop e => .stop e
  | .spent => .spent

instance : Monad (Parser ε σ) where
  pure a := fun s => .ok a s
  bind := andThen

def stop (e : ε) : Parser ε σ α := fun _ => .stop e

def spent : Parser ε σ α := fun _ => .spent

def here : Parser ε σ σ := fun s => .ok s s

def loop (body : α → Parser ε σ (α ⊕ β)) : ℕ → α → Parser ε σ β
  | 0, _ => spent
  | k+1, a => do
    match ← body a with
    | .inl a => loop body k a
    | .inr b => pure b

section Rules
variable {m : Parser ε σ α} {f : α → Parser ε σ β} {s t : σ} {a : α} {Q Q' : α → σ → Prop}

theorem here_run (s : σ) : (here : Parser ε σ σ).run s = .ok s s := rfl

theorem bind_ok (h : m.run s = .ok a t) : (m >>= f).run s = (f a).run t := by
  show andThen m f s = _
  rw [andThen, h]

theorem bind_stop {e : ε} (h : m.run s = .stop e) : (m >>= f).run s = .stop e := by
  show andThen m f s = _
  rw [andThen, h]

theorem bind_spent (h : m.run s = .spent) : (m >>= f).run s = .spent := by
  show andThen m f s = _
  rw [andThen, h]

def Gives (m : Parser ε σ α) (Q : α → σ → Prop) (s : σ) : Prop :=
  match m.run s with
  | .ok a t => Q a t
  | .stop _ => True
  | .spent => False

theorem gives_pure (hQ : Q a s) : Gives (pure a : Parser ε σ α) Q s := hQ

theorem gives_stop (e : ε) : Gives (stop e : Parser ε σ α) Q s := trivial

theorem gives_mono (hm : Gives m Q s) (hQ : ∀ a t, Q a t → Q' a t) : Gives m Q' s := by
  rw [Gives] at hm ⊢
  cases hr : m.run s with
  | ok a t =>
    rw [hr] at hm
    exact hQ a t hm
  | stop e => trivial
  | spent =>
    rw [hr] at hm
    exact hm

theorem gives_bind {R : β → σ → Prop} (hm : Gives m Q s) (hf : ∀ a t, Q a t → Gives (f a) R t) :
    Gives (m >>= f) R s := by
  rw [Gives] at hm ⊢
  cases hr : m.run s with
  | ok a t =>
    rw [hr] at hm
    rw [bind_ok hr]
    exact hf a t hm
  | stop e =>
    rw [bind_stop hr]
    trivial
  | spent =>
    rw [hr] at hm
    exact hm.elim

theorem gives_next {R : β → σ → Prop} (h : m.run s = .ok a t) (hf : Gives (f a) R t) :
    Gives (m >>= f) R s := by
  rw [Gives, bind_ok h]
  exact hf

def Keeps (I : σ → Prop) (m : Parser ε σ α) : Prop := ∀ {s a t}, I s → m.run s = .ok a t → I t

variable {I : σ → Prop}

theorem keeps_pure (a : α) : Keeps I (pure a : Parser ε σ α) := fun hI h => by
  cases h
  exact hI

theorem keeps_stop (e : ε) : Keeps I (stop e : Parser ε σ α) := nofun

theorem keeps_spent : Keeps I (spent : Parser ε σ α) := nofun

theorem keeps_bind (hm : Keeps I m) (hf : ∀ a, Keeps I (f a)) : Keeps I (m >>= f) := by
  intro s b u hI h
  cases hr : m.run s with
  | ok a t =>
    rw [bind_ok hr] at h
    exact hf a (hm hI hr) h
  | stop e =>
    rw [bind_stop hr] at h
    cases h
  | spent =>
    rw [bind_spent hr] at h
    cases h

theorem keeps_ite {b : Prop} [Decidable b] {m m' : Parser ε σ α} (h : Keeps I m) (h' : Keeps I m') :
    Keeps I (if b then m else m') := by
  by_cases hb : b
  · rw [if_pos hb]
    exact h
  · rw [if_neg hb]
    exact h'

end Rules

section Loops
variable {body : α → Parser ε σ (α ⊕ β)} {a a' : α} {b : β} {s t : σ} {k : ℕ}

theorem loop_next (h : (body a).run s = .ok (.inl a') t) :
    (loop body (k+1) a).run s = (loop body k a').run t := by
  rw [loop, bind_ok h]

theorem loop_end (h : (body a).run s = .ok (.inr b) t) : (loop body (k+1) a).run s = .ok b t := by
  rw [loop, bind_ok h]
  rfl

theorem loop_gives (measure : σ → ℕ) (Inv : α → σ → Prop) {Q : β → σ → Prop}
    (hbody : ∀ a s, Inv a s → Gives (body a)
      (fun r t => (∀ a', r = .inl a' → Inv a' t ∧ measure t < measure s) ∧ ∀ b, r = .inr b → Q b t) s)
    (hinv : Inv a s) (hk : measure s < k) : Gives (loop body k a) Q s := by
  induction k generalizing a s with
  | zero => exact absurd hk (Nat.not_lt_zero _)
  | succ k ih =>
    rw [loop]
    refine gives_bind (hbody a s hinv) ?_
    rintro (a' | b) t ⟨hnext,hend⟩
    · obtain ⟨hinv',hlt⟩ := hnext a' rfl
      exact ih hinv' (Nat.lt_of_lt_of_le hlt (Nat.le_of_lt_succ hk))
    · exact gives_pure (hend b rfl)

theorem keeps_loop {I : σ → Prop} (hbody : ∀ a, Keeps I (body a)) (k : ℕ) (a : α) :
    Keeps I (loop body k a) := by
  induction k generalizing a with
  | zero => exact keeps_spent
  | succ k ih =>
    rw [loop]
    refine keeps_bind (hbody a) ?_
    rintro (a' | b)
    · exact ih a'
    · exact keeps_pure b

end Loops

end Xv6.FuelParsers

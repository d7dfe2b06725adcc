import Mathlib.Logic.Function.Basic

/-!
# Queues through pointers

A queue that is kept by a pointer to its first cell and a pointer in each cell to the next
one. A cell is put at the end through the pointer that is null there, and taken at the front.
-/

set_option autoImplicit false

namespace Xv6.LinkedQueue

variable {α : Type}

def Linked (next : α → Option α) : Option α → List α → Prop
  | o, [] => o = none
  | o, b::q => o = some b ∧ Linked next (next b) q

abbrev Link (α : Type) := Option α

def deref (head : Option α) (next : α → Option α) : Link α → Option α
  | none => head
  | some c => next c

structure Before (head : Option α) (next : α → Option α) (q : List α) (l : Link α) (rest : List α) :
    Prop where
  behind : Linked next (deref head next l) rest
  front : (l = none ∧ q = rest) ∨ ∃ pre c, l = some c ∧ q = pre++c::rest

section Cells
variable {head : Option α} {next next' : α → Option α} {q rest : List α} {l : Link α} {b c : α}

theorem linked_congr (h : Linked next head q) (hsame : ∀ c ∈ q, next' c = next c) : Linked next' head q := by
  induction q generalizing head with
  | nil => exact h
  | cons c q ih =>
    refine ⟨h.1,?_⟩
    rw [hsame c List.mem_cons_self]
    exact ih h.2 fun d hd => hsame d (List.mem_cons_of_mem _ hd)

theorem linked_none (h : Linked next none q) : q = [] := by
  cases q with
  | nil => rfl
  | cons c q => cases h.1

theorem linked_some (h : Linked next (some b) q) : ∃ rest, q = b::rest ∧ Linked next (next b) rest := by
  cases q with
  | nil => cases h
  | cons c q =>
    obtain ⟨hb,hq⟩ := h
    cases hb
    exact ⟨q,rfl,hq⟩

theorem before_head (h : Linked next head q) : Before head next q none q := ⟨h,.inl ⟨rfl,rfl⟩⟩

theorem before_next (h : Before head next q l rest) (hc : deref head next l = some c) :
    ∃ rest', Before head next q (some c) rest' := by
  have hbehind := h.behind
  rw [hc] at hbehind
  obtain ⟨rest',rfl,hrest'⟩ := linked_some hbehind
  refine ⟨rest',hrest',.inr ?_⟩
  rcases h.front with ⟨-,rfl⟩ | ⟨pre,d,-,rfl⟩
  · exact ⟨[],c,rfl,rfl⟩
  · exact ⟨pre++[d],c,rfl,by simp⟩

variable [DecidableEq α]

def storeHead (head : Option α) (l : Link α) (b : α) : Option α :=
  match l with
  | none => some b
  | some _ => head

def storeNext (next : α → Option α) (l : Link α) (b : α) : α → Option α :=
  match l with
  | none => next
  | some c => Function.update next c (some b)

theorem linked_snoc (h : Linked next head (q++[c])) (hnodup : (q++[c]).Nodup) (hb : next b = none)
    (hout : b ∉ q++[c]) :
    Linked (Function.update next c (some b)) head (q++[c]++[b]) := by
  induction q generalizing head with
  | nil =>
    have hne : b ≠ c := fun heq => hout (by rw [heq]; exact List.mem_singleton_self c)
    refine ⟨h.1,?_⟩
    rw [Function.update_self]
    refine ⟨rfl,?_⟩
    rw [Function.update_of_ne hne]
    exact hb
  | cons d q ih =>
    rw [List.cons_append, List.nodup_cons] at hnodup
    rw [List.cons_append, List.mem_cons, not_or] at hout
    have hne : d ≠ c :=
      fun heq => hnodup.1 (by rw [heq]; exact List.mem_append_right q (List.mem_singleton_self c))
    refine ⟨h.1,?_⟩
    rw [Function.update_of_ne hne]
    exact ih h.2 hnodup.2 hout.2

theorem linked_store (hq : Linked next head q) (h : Before head next q l rest)
    (hend : deref head next l = none)
    (hnodup : q.Nodup) (hb : next b = none) (hout : b ∉ q) :
    Linked (storeNext next l b) (storeHead head l b) (q++[b]) := by
  have hbehind := h.behind
  rw [hend] at hbehind
  have hrest := linked_none hbehind
  subst hrest
  rcases h.front with ⟨rfl,rfl⟩ | ⟨pre,c,rfl,rfl⟩
  · exact ⟨rfl,hb⟩
  · exact linked_snoc hq hnodup hb hout

end Cells

end Xv6.LinkedQueue

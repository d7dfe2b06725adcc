import Mathlib.Computability.Language

/-!
# Patterns of items

A pattern is a row of items, each for one letter of a class or for any number of them. Its
language is the product of the languages of its items. A text begins with a word of a
language, or has one anywhere in it; at the end of the text if that is asked for.
-/

set_option autoImplicit false

namespace Xv6.ItemPatterns
open scoped Computability

variable {α : Type}

inductive Item (α : Type) where
  | one (p : α → Prop)
  | many (p : α → Prop)

def single (p : α → Prop) : Language α := {w | ∃ a, p a ∧ w = [a]}

def Item.lang : Item α → Language α
  | .one p => single p
  | .many p => (single p)∗

def lang (is : List (Item α)) : Language α := (is.map Item.lang).prod

def Begins (L : Language α) (last : Bool) (text : List α) : Prop :=
  ∃ u v, text = u++v ∧ u ∈ L ∧ (last = true → v = [])

def Occurs (L : Language α) (last : Bool) (text : List α) : Prop := ∃ s t, text = s++t ∧ Begins L last t

variable {p : α → Prop} {is : List (Item α)} {L : Language α} {last : Bool} {a : α} {text : List α}

theorem lang_nil : lang ([] : List (Item α)) = 1 := rfl

theorem lang_one (p : α → Prop) (is : List (Item α)) : lang (.one p::is) = single p*lang is := List.prod_cons

theorem lang_many (p : α → Prop) (is : List (Item α)) :
    lang (.many p::is) = lang is+single p*lang (.many p::is) := by
  have hcons : lang (.many p::is) = (single p)∗*lang is := List.prod_cons
  rw [hcons]
  nth_rewrite 1 [← Language.one_add_self_mul_kstar_eq_kstar]
  rw [add_mul, one_mul, mul_assoc]

theorem begins_one : Begins (1 : Language α) last text ↔ (last = true → text = []) := by
  constructor
  · rintro ⟨u,v,rfl,hu,hv⟩ hlast
    rw [(Language.mem_one u).mp hu, hv hlast]
    rfl
  · exact fun h => ⟨[],text,rfl,rfl,h⟩

theorem begins_add {M : Language α} : Begins (L+M) last text ↔ Begins L last text ∨ Begins M last text := by
  constructor
  · rintro ⟨u,v,htext,hu | hu,hv⟩
    · exact .inl ⟨u,v,htext,hu,hv⟩
    · exact .inr ⟨u,v,htext,hu,hv⟩
  · rintro (⟨u,v,htext,hu,hv⟩ | ⟨u,v,htext,hu,hv⟩)
    · exact ⟨u,v,htext,.inl hu,hv⟩
    · exact ⟨u,v,htext,.inr hu,hv⟩

theorem begins_single : Begins (single p*L) last text ↔ ∃ a t, text = a::t ∧ p a ∧ Begins L last t := by
  constructor
  · rintro ⟨u,v,rfl,hu,hv⟩
    obtain ⟨x,⟨a,ha,rfl⟩,y,hy,rfl⟩ := Language.mem_mul.mp hu
    exact ⟨a,y++v,rfl,ha,y,v,rfl,hy,hv⟩
  · rintro ⟨a,t,rfl,ha,u,v,rfl,hu,hv⟩
    exact ⟨a::u,v,rfl,Language.mem_mul.mpr ⟨[a],⟨a,ha,rfl⟩,u,hu,rfl⟩,hv⟩

theorem occurs_step : Occurs L last text ↔ Begins L last text ∨ ∃ a t, text = a::t ∧ Occurs L last t := by
  constructor
  · rintro ⟨s,t,rfl,ht⟩
    cases s with
    | nil => exact .inl ht
    | cons a s => exact .inr ⟨a,s++t,rfl,s,t,rfl,ht⟩
  · rintro (h | ⟨a,t,rfl,s,t',rfl,ht⟩)
    · exact ⟨[],text,rfl,h⟩
    · exact ⟨a::s,t',rfl,ht⟩

end Xv6.ItemPatterns

import Mathlib.Data.List.Chain
import Mathlib.Logic.Function.Basic
import Mathlib.Tactic.Common

/-!
# Rings through pointers

Nodes that point to each other in a circle, from a base and back to it. What is known of a ring
around one of its nodes is the way to the node and the way from it back to the base.
-/

set_option autoImplicit false

namespace Xv6.PointerRing

variable {α : Type}

def Linked (next : α → α) (l : List α) : Prop := l.IsChain (fun a b => next a = b)

def Ring (next : α → α) (base : α) (nodes : List α) : Prop := Linked next (base::(nodes++[base]))

variable {next next' : α → α} {base p q x : α} {l u v nodes : List α}

theorem linked_append : Linked next (u++p::v) ↔ Linked next (u++[p]) ∧ Linked next (p::v) :=
  List.isChain_split

theorem linked_congr (hsame : ∀ x ∈ l, next' x = next x) (h : Linked next (l++[p])) :
    Linked next' (l++[p]) := by
  induction l with
  | nil => exact List.isChain_singleton p
  | cons x l ih =>
    have hrest := ih fun y hy => hsame y (List.mem_cons_of_mem _ hy)
    cases l with
    | nil =>
      refine List.isChain_cons_cons.mpr ⟨?_,List.isChain_singleton p⟩
      rw [hsame x List.mem_cons_self]
      exact (List.isChain_cons_cons.mp h).1
    | cons y l =>
      obtain ⟨hx,h⟩ := List.isChain_cons_cons.mp h
      exact List.isChain_cons_cons.mpr ⟨(hsame x List.mem_cons_self).trans hx,hrest h⟩

theorem linked_update [DecidableEq α] (hq : q ∉ l) (h : Linked next (l++[p])) :
    Linked (Function.update next q x) (l++[p]) :=
  linked_congr (fun _ hy => Function.update_of_ne (ne_of_mem_of_not_mem hy hq) _ _) h

theorem linked_replace [DecidableEq α] (hq : q ∉ l) (h : Linked next (p::(l++[base]))) :
    Linked (Function.update next q (next p)) (q::(l++[base])) := by
  cases l with
  | nil =>
    exact List.isChain_cons_cons.mpr
      ⟨(Function.update_self ..).trans (List.isChain_cons_cons.mp h).1,List.isChain_singleton base⟩
  | cons y l =>
    obtain ⟨hy,h⟩ := List.isChain_cons_cons.mp h
    exact List.isChain_cons_cons.mpr ⟨(Function.update_self ..).trans hy,linked_update hq h⟩

theorem ring_around (hp : base::nodes = u++p::v) :
    Ring next base nodes ↔ Linked next (u++[p]) ∧ Linked next (p::(v++[base])) := by
  rw [Ring, ← List.cons_append, hp, List.append_assoc, List.cons_append, linked_append]

theorem linked_next (h : Linked next (p::(l++[base]))) :
    (l = [] ∧ next p = base) ∨ ∃ y l', l = y::l' ∧ next p = y := by
  cases l with
  | nil => exact .inl ⟨rfl,(List.isChain_cons_cons.mp h).1⟩
  | cons y l => exact .inr ⟨y,l,rfl,(List.isChain_cons_cons.mp h).1⟩

theorem ring_next (hr : Ring next base nodes) (hp : p ∈ base::nodes) (hq : next p ≠ base) :
    ∃ u v, base::nodes = u++p::next p::v := by
  obtain ⟨u,v,hsplit⟩ := List.append_of_mem hp
  rcases linked_next ((ring_around hsplit).mp hr).2 with ⟨-,hbase⟩ | ⟨y,l',rfl,hy⟩
  · exact absurd hbase hq
  · exact ⟨u,l',hy ▸ hsplit⟩

theorem ring_tour (hr : Ring next base nodes) (hp : base::nodes = u++p::v) :
    Linked next (p::(v++(u++[p]))) := by
  obtain ⟨hto,hfrom⟩ := (ring_around hp).mp hr
  cases u with
  | nil =>
    cases hp
    exact hfrom
  | cons b u =>
    cases hp
    exact linked_append (u := p::v).mpr ⟨hfrom,hto⟩

end Xv6.PointerRing

import Mathlib.Data.List.Basic
import Mathlib.Logic.Function.Basic
import Mathlib.Tactic.Common

/-!
# Doubly linked rings

A ring through a head node: the nodes behind the head in order, no node twice,
with `next` and `prev` inverse to each other along the way round. A node is
taken out and put in behind the head by the usual stores, in their order. A
loop that follows one of the links from the head meets every node once.
-/

set_option autoImplicit false

namespace Xv6.LinkedRing

structure Links (ν : Type) where
  next : ν → ν
  prev : ν → ν

section Paths
variable {ν : Type}

def Path (r : Links ν) : ν → List ν → ν → Prop
  | a, [], b => r.next a = b ∧ r.prev b = a
  | a, x::l, b => (r.next a = x ∧ r.prev x = a) ∧ Path r x l b

structure Ring (r : Links ν) (h : ν) (order : List ν) : Prop where
  nodup : (h::order).Nodup
  path : Path r h order h

variable {r r' : Links ν} {a b c x : ν} {l l1 l2 : List ν}

theorem path_append : Path r a (l1++x::l2) b ↔ Path r a l1 x ∧ Path r x l2 b := by
  induction l1 generalizing a with
  | nil => exact Iff.rfl
  | cons y l ih => simp only [List.cons_append, Path, ih, and_assoc]

theorem path_frame (h : Path r a l b) (hn : ∀ u ∈ a::l, r'.next u = r.next u)
    (hp : ∀ v ∈ l++[b], r'.prev v = r.prev v) : Path r' a l b := by
  induction l generalizing a with
  | nil =>
    rw [Path, hn a (by simp), hp b (by simp)]
    exact h
  | cons x l ih =>
    refine ⟨?_,ih h.2 (fun u hu => hn u (List.mem_cons_of_mem _ hu))
      (fun v hv => hp v (List.mem_cons_of_mem _ hv))⟩
    rw [hn a (by simp), hp x (by simp)]
    exact h.1

theorem path_prev_mem (h : Path r a l b) : r.prev b ∈ a::l := by
  induction l generalizing a with
  | nil => simp [h.2]
  | cons x l ih => exact List.mem_cons_of_mem _ (ih h.2)

theorem path_retarget (h : Path r a l b) (hd : (a::l).Nodup)
    (hn : ∀ u ∈ a::l, u ≠ r.prev b → r'.next u = r.next u) (hp : ∀ v ∈ l, r'.prev v = r.prev v)
    (hz : r'.next (r.prev b) = c) (hc : r'.prev c = r.prev b) : Path r' a l c := by
  induction l generalizing a with
  | nil =>
    rw [Path, ← h.2]
    exact ⟨hz,hc⟩
  | cons x l ih =>
    have hne : a ≠ r.prev b := by
      intro hab
      exact (List.nodup_cons.mp hd).1 (hab ▸ path_prev_mem h.2)
    refine ⟨?_,ih h.2 (List.nodup_cons.mp hd).2 (fun u hu => hn u (List.mem_cons_of_mem _ hu))
      (fun v hv => hp v (List.mem_cons_of_mem _ hv))⟩
    rw [hn a (by simp) hne, hp x (by simp)]
    exact h.1

def Links.flip (r : Links ν) : Links ν := ⟨r.prev,r.next⟩

theorem path_flip (h : Path r a l b) : Path r.flip b l.reverse a := by
  induction l generalizing a with
  | nil => exact h.symm
  | cons x l ih =>
    rw [List.reverse_cons, ← List.append_nil [x], List.cons_append, List.nil_append]
    exact path_append.mpr ⟨ih h.2,h.1.symm⟩

end Paths

variable {ν : Type} [DecidableEq ν]

def Links.setNext (r : Links ν) (a b : ν) : Links ν := { r with next := Function.update r.next a b }

def Links.setPrev (r : Links ν) (a b : ν) : Links ν := { r with prev := Function.update r.prev a b }

/-- The stores `b->next->prev = b->prev` and `b->prev->next = b->next`. -/
def Links.unlink (r : Links ν) (b : ν) : Links ν :=
  let r1 := r.setPrev (r.next b) (r.prev b)
  r1.setNext (r1.prev b) (r1.next b)

/-- The stores `b->next = h.next`, `b->prev = &h`, `h.next->prev = b` and
`h.next = b`. -/
def Links.pushFront (r : Links ν) (h b : ν) : Links ν :=
  let r1 := (r.setNext b (r.next h)).setPrev b h
  (r1.setPrev (r1.next h) b).setNext h b

/-- A loop from `x` along `f` to the first node with `P` or to the head; no
result if it is still running after `n` nodes. -/
def chase (f : ν → ν) (h : ν) (P : ν → Bool) : ℕ → ν → Option (Option ν)
  | 0, _ => none
  | n+1, x => if x = h then some none else if P x then some (some x) else chase f h P n (f x)

variable {r : Links ν} {a b h : ν} {l l1 l2 order : List ν}

theorem unlink_next (hb : r.next b ≠ b) (u : ν) :
    (r.unlink b).next u = if u = r.prev b then r.next b else r.next u := by
  simp only [Links.unlink, Links.setNext, Links.setPrev, Function.update_of_ne hb.symm]
  exact Function.update_apply ..

theorem unlink_prev (u : ν) :
    (r.unlink b).prev u = if u = r.next b then r.prev b else r.prev u := by
  simp only [Links.unlink, Links.setNext, Links.setPrev]
  exact Function.update_apply ..

theorem unlink_path (hp : Path r h l1 b) (hd : (h::l1).Nodup) (hb : r.next b ≠ b)
    (hc : r.next b ∉ l1) : Path (r.unlink b) h l1 (r.next b) := by
  refine path_retarget hp hd (fun u _ hu => ?_) (fun v hv => ?_) ?_ ?_
  · rw [unlink_next hb, if_neg hu]
  · rw [unlink_prev, if_neg (fun hvc : v = r.next b => hc (hvc ▸ hv))]
  · rw [unlink_next hb, if_pos rfl]
  · rw [unlink_prev, if_pos rfl]

theorem ring_unlink (hr : Ring r h (l1++b::l2)) : Ring (r.unlink b) h (l1++l2) := by
  have hd := hr.nodup
  simp only [List.nodup_cons, List.nodup_append, List.mem_append, List.mem_cons, not_or] at hd
  obtain ⟨⟨hl1,hb,hl2⟩,hn1,⟨hb2,hn2⟩,hdis⟩ := hd
  have hb1 : b ∉ l1 := fun hin => hdis b hin b (.inl rfl) rfl
  obtain ⟨hp1,hp2⟩ := path_append.mp hr.path
  have hd1 : (h::l1).Nodup := List.nodup_cons.mpr ⟨hl1,hn1⟩
  refine ⟨?_,?_⟩
  · simp only [List.nodup_cons, List.nodup_append, List.mem_append, not_or]
    exact ⟨⟨hl1,hl2⟩,hn1,hn2,fun u hu v hv => hdis u hu v (.inr hv)⟩
  · cases l2 with
    | nil =>
      have hnext : r.next b = h := hp2.1
      have hp := unlink_path hp1 hd1 (hnext ▸ hb) (hnext ▸ hl1)
      rwa [hnext, ← List.append_nil l1] at hp
    | cons c l2 =>
      have hnext : r.next b = c := hp2.1.1
      simp only [List.mem_cons, not_or] at hl2 hb2
      have hcb : r.next b ≠ b := hnext ▸ (Ne.symm hb2.1)
      have hc1 : c ∉ l1 := fun hin => hdis c hin c (.inr (List.mem_cons_self ..)) rfl
      have hp := unlink_path hp1 hd1 hcb (hnext ▸ hc1)
      rw [hnext] at hp
      refine path_append.mpr ⟨hp,path_frame hp2.2 (fun u hu => ?_) (fun v hv => ?_)⟩
      · have hprev : u ≠ r.prev b := by
          rintro rfl
          rcases List.mem_cons.mp (path_prev_mem hp1) with he | he
          · rw [he] at hu
            exact (List.mem_cons.mp hu).elim hl2.1 hl2.2
          · exact hdis _ he _ (.inr hu) rfl
        rw [unlink_next hcb, if_neg hprev]
      · have hne : v ≠ r.next b := by
          rw [hnext]
          rintro rfl
          rcases List.mem_append.mp hv with hv | hv
          · exact (List.nodup_cons.mp hn2).1 hv
          · exact hl2.1 (List.mem_singleton.mp hv).symm
        rw [unlink_prev, if_neg hne]

theorem push_next (u : ν) : (r.pushFront h b).next u =
    if u = h then b else if u = b then r.next h else r.next u := by
  by_cases hu : u = h <;>
    simp [Links.pushFront, Links.setNext, Links.setPrev, Function.update_apply, hu]

theorem push_prev (hb : b ≠ h) (u : ν) : (r.pushFront h b).prev u =
    if u = r.next h then b else if u = b then h else r.prev u := by
  simp [Links.pushFront, Links.setNext, Links.setPrev, Function.update_apply, hb.symm]

theorem ring_push (hr : Ring r h order) (hb : b ∉ h::order) : Ring (r.pushFront h b) h (b::order) := by
  have hd := hr.nodup
  have hp := hr.path
  simp only [List.mem_cons, not_or] at hb
  refine ⟨?_,?_⟩
  · simp only [List.nodup_cons, List.mem_cons, not_or] at hd ⊢
    exact ⟨⟨Ne.symm hb.1,hd.1⟩,hb.2,hd.2⟩
  · cases order with
    | nil =>
      have hnext : r.next h = h := hp.1
      refine ⟨⟨?_,?_⟩,?_,?_⟩
      · simp [push_next]
      · simp [push_prev hb.1, hnext, hb.1]
      · simp [push_next, hb.1, hnext]
      · simp [push_prev hb.1, hnext]
    | cons c l =>
      have hnext : r.next h = c := hp.1.1
      simp only [List.nodup_cons, List.mem_cons, not_or] at hd hb
      refine ⟨⟨?_,?_⟩,⟨?_,?_⟩,path_frame hp.2 (fun u hu => ?_) (fun v hv => ?_)⟩
      · simp [push_next]
      · simp [push_prev hb.1, hnext, hb.2.1]
      · simp [push_next, hb.1, hnext]
      · simp [push_prev hb.1, hnext]
      · have huh : u ≠ h := by
          rintro rfl
          exact (List.mem_cons.mp hu).elim hd.1.1 hd.1.2
        have hub : u ≠ b := by
          rintro rfl
          exact (List.mem_cons.mp hu).elim hb.2.1 hb.2.2
        rw [push_next, if_neg huh, if_neg hub]
      · have hvc : v ≠ c := by
          rintro rfl
          rcases List.mem_append.mp hv with hv | hv
          · exact hd.2.1 hv
          · exact hd.1.1 (List.mem_singleton.mp hv).symm
        have hvb : v ≠ b := by
          rintro rfl
          rcases List.mem_append.mp hv with hv | hv
          · exact hb.2.2 hv
          · exact hb.1 (List.mem_singleton.mp hv)
        rw [push_prev hb.1, hnext, if_neg hvc, if_neg hvb]

theorem ring_pushes (hr : Ring r h order) (hl : (h::(l++order)).Nodup) :
    Ring (l.foldl (fun r b => r.pushFront h b) r) h (l.reverse++order) := by
  induction l generalizing r order with
  | nil => exact hr
  | cons b l ih =>
    have hb : b ∉ h::order := by
      simp only [List.cons_append, List.nodup_cons, List.mem_cons, List.mem_append, not_or] at hl ⊢
      exact ⟨fun hbh => hl.1.1 hbh.symm,hl.2.1.2⟩
    rw [List.foldl_cons, List.reverse_cons, List.append_assoc]
    refine ih (ring_push hr hb) ?_
    refine (List.Perm.nodup_iff ?_).mp hl
    exact (List.perm_middle.symm).cons h

theorem ring_front (hr : Ring r h (l1++b::l2)) :
    Ring ((r.unlink b).pushFront h b) h (b::(l1++l2)) := by
  refine ring_push (ring_unlink hr) ?_
  have hd := hr.nodup
  simp only [List.nodup_cons, List.nodup_append, List.mem_append, List.mem_cons, not_or] at hd ⊢
  obtain ⟨⟨hl1,hb,hl2⟩,hn1,⟨hb2,hn2⟩,hdis⟩ := hd
  exact ⟨Ne.symm hb,fun hin => hdis b hin b (.inl rfl) rfl,hb2⟩

theorem chase_found {f : ν → ν} {P : ν → Bool} {n : ℕ} {x y : ν}
    (hc : chase f h P n x = some (some y)) : P y = true := by
  induction n generalizing x with
  | zero => cases hc
  | succ n ih =>
    rw [chase] at hc
    split at hc
    · cases hc
    · split at hc
      · cases hc
        assumption
      · exact ih hc

theorem chase_path (P : ν → Bool) (hp : Path r a l h) (hl : h ∉ l) {n : ℕ} (hn : l.length < n) :
    chase r.next h P n (r.next a) = some (l.find? P) := by
  induction l generalizing a n with
  | nil =>
    obtain ⟨n,rfl⟩ : ∃ k, n = k+1 := ⟨n-1,by simp at hn; omega⟩
    rw [hp.1]
    simp [chase]
  | cons x l ih =>
    obtain ⟨n,rfl⟩ : ∃ k, n = k+1 := ⟨n-1,by simp at hn; omega⟩
    simp only [List.mem_cons, not_or] at hl
    rw [hp.1.1, chase, if_neg (Ne.symm hl.1), List.find?_cons]
    cases hx : P x with
    | true => simp
    | false =>
      simp only [Bool.false_eq_true, if_false]
      exact ih hp.2 hl.2 (by simp at hn; omega)

theorem chase_next (P : ν → Bool) (hr : Ring r h order) {n : ℕ} (hn : order.length < n) :
    chase r.next h P n (r.next h) = some (order.find? P) :=
  chase_path P hr.path (List.nodup_cons.mp hr.nodup).1 hn

theorem chase_prev (P : ν → Bool) (hr : Ring r h order) {n : ℕ} (hn : order.length < n) :
    chase r.prev h P n (r.prev h) = some (order.reverse.find? P) :=
  chase_path (r := r.flip) P (path_flip hr.path)
    (by simpa using (List.nodup_cons.mp hr.nodup).1) (by simpa using hn)

end Xv6.LinkedRing

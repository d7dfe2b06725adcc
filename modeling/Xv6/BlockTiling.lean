import Mathlib.Algebra.GroupWithZero.Nat
import Mathlib.Algebra.Order.BigOperators.Group.List
import Mathlib.Algebra.Order.Group.Nat
import Mathlib.Tactic.Common

/-!
# Blocks that fill regions

A block is its address and its number of units of `u` bytes. A measure of blocks is additive if a
block that is cut in two measures as much as its parts. Blocks fill regions if every additive
measure is the same of both: then they are as many units, they lie in the regions, and where the
regions are apart so are the blocks.
-/

set_option autoImplicit false

namespace Xv6.BlockTiling

abbrev Block := ℕ × ℕ

def Additive (u : ℕ) (μ : ℕ → ℕ → ℕ) : Prop := ∀ a m n, μ a (m+n) = μ a m+μ (a+u*m) n

def total (μ : ℕ → ℕ → ℕ) (bs : List Block) : ℕ := (bs.map fun b => μ b.1 b.2).sum

def Fill (u : ℕ) (bs regions : List Block) : Prop := ∀ μ, Additive u μ → total μ bs = total μ regions

def Has (u : ℕ) (b : Block) (x : ℕ) : Prop := b.1 ≤ x ∧ x < b.1+u*b.2

instance (u : ℕ) (b : Block) (x : ℕ) : Decidable (Has u b x) := inferInstanceAs (Decidable (_ ∧ _))

def Apart (u : ℕ) (b c : Block) : Prop := b.1+u*b.2 ≤ c.1 ∨ c.1+u*c.2 ≤ b.1

def count (u x : ℕ) (a n : ℕ) : ℕ := if Has u (a,n) x then 1 else 0

section Measures
variable {u x : ℕ} {μ : ℕ → ℕ → ℕ} {b : Block} {bs cs regions : List Block}

theorem additive_units : Additive u fun _ n => n := fun _ _ _ => rfl

theorem additive_count : Additive u (count u x) := by
  intro a m n
  have hcut : Has u (a,m+n) x ↔ Has u (a,m) x ∨ Has u (a+u*m,n) x := by
    simp only [Has, Nat.mul_add]
    omega
  have hone : Has u (a,m) x → ¬Has u (a+u*m,n) x := by
    simp only [Has]
    omega
  rw [count, count, count, if_congr hcut rfl rfl]
  by_cases h : Has u (a,m) x
  · rw [if_pos h, if_pos (.inl h), if_neg (hone h)]
  · rw [if_neg h, Nat.zero_add, if_congr (or_iff_right h) rfl rfl]

theorem additive_zero (h : Additive u μ) (a : ℕ) : μ a 0 = 0 := by
  have := h a 0 0
  rw [Nat.mul_zero, Nat.add_zero, Nat.add_zero] at this
  omega

@[simp] theorem total_cons : total μ (b::bs) = μ b.1 b.2+total μ bs := rfl

@[simp] theorem total_append : total μ (bs++cs) = total μ bs+total μ cs := by
  rw [total, List.map_append, List.sum_append]
  rfl

theorem total_perm (h : bs.Perm cs) : total μ bs = total μ cs := (h.map _).sum_eq

theorem fill_inside (h : Fill u bs regions) (hb : b ∈ bs) (hx : Has u b x) : ∃ r ∈ regions, Has u r x := by
  by_contra hnone
  have hzero : total (count u x) regions = 0 := by
    refine List.sum_eq_zero fun n hn => ?_
    obtain ⟨r,hr,rfl⟩ := List.mem_map.mp hn
    exact if_neg fun hr' => hnone ⟨r,hr,hr'⟩
  have hle : count u x b.1 b.2 ≤ total (count u x) bs :=
    List.single_le_sum (fun _ _ => Nat.zero_le _) _ (List.mem_map_of_mem hb)
  rw [h _ additive_count, hzero, count, if_pos hx] at hle
  omega

theorem count_apart (h : regions.Pairwise (Apart u)) : total (count u x) regions ≤ 1 := by
  induction regions with
  | nil => exact Nat.zero_le 1
  | cons r regions ih =>
    obtain ⟨hr,hrest⟩ := List.pairwise_cons.mp h
    rw [total_cons, count]
    split_ifs with hx
    · have hzero : total (count u x) regions = 0 := by
        refine List.sum_eq_zero fun n hn => ?_
        obtain ⟨q,hq,rfl⟩ := List.mem_map.mp hn
        refine if_neg fun hq' => ?_
        have hapart := hr q hq
        simp only [Apart, Has] at hapart hx hq'
        omega
      omega
    · have := ih hrest
      omega

theorem fill_apart (h : Fill u bs regions) (hregions : regions.Pairwise (Apart u))
    (hbs : ∀ b ∈ bs, 0 < u*b.2) :
    bs.Pairwise (Apart u) := by
  have hcount : ∀ x, total (count u x) bs ≤ 1 := fun x => by
    rw [h _ additive_count]
    exact count_apart hregions
  clear h
  induction bs with
  | nil => exact List.Pairwise.nil
  | cons b bs ih =>
    refine List.pairwise_cons.mpr
      ⟨fun c hc => ?_,ih (fun d hd => hbs d (List.mem_cons_of_mem _ hd)) fun x => ?_⟩
    · by_contra hover
      have hone := hcount (max b.1 c.1)
      have hle : count u (max b.1 c.1) c.1 c.2 ≤ total (count u (max b.1 c.1)) bs :=
        List.single_le_sum (fun _ _ => Nat.zero_le _) _ (List.mem_map_of_mem hc)
      have hb' := hbs b List.mem_cons_self
      have hc' := hbs c (List.mem_cons_of_mem _ hc)
      simp only [Apart] at hover
      rw [total_cons, count, if_pos (by simp only [Has]; omega)] at hone
      rw [count, if_pos (by simp only [Has]; omega)] at hle
      omega
    · have := hcount x
      rw [total_cons] at this
      omega

end Measures

end Xv6.BlockTiling

import Mathlib.Data.List.Basic
import Mathlib.Data.Nat.ModEq
import Mathlib.Logic.Function.Basic
import Mathlib.Tactic.Common

/-!
# Rings with free-running counters

A ring of `c` cells is read and written at counters of 32 bits that are never set
back; a counter taken modulo `c` is the cell. If `c` divides the range of the
counters, up to `c` elements in a row are in different cells, through any number
of wraps.
-/

set_option autoImplicit false

namespace Xv6.CounterRing

abbrev Counter := BitVec 32

variable {α : Type} {c : ℕ}

def cell (hc : 0 < c) (i : Counter) : Fin c := ⟨i.toNat % c,Nat.mod_lt _ hc⟩

def held (hc : 0 < c) (buf : Fin c → α) (r : Counter) (n : ℕ) : List α :=
  (List.range n).map (fun k => buf (cell hc (r+BitVec.ofNat 32 k)))

variable {hc : 0 < c} {buf : Fin c → α} {r : Counter} {n : ℕ}

@[simp] theorem held_zero : held hc buf r 0 = [] := rfl

@[simp] theorem held_length : (held hc buf r n).length = n := by simp [held]

theorem held_snoc : held hc buf r (n+1) = held hc buf r n++[buf (cell hc (r+BitVec.ofNat 32 n))] := by
  simp [held, List.range_succ]

theorem ofNat_succ (r : Counter) (k : ℕ) : r+BitVec.ofNat 32 (k+1) = r+1+BitVec.ofNat 32 k := by
  rw [BitVec.ofNat_add, BitVec.add_assoc, BitVec.add_comm (BitVec.ofNat 32 k)]
  rfl

theorem held_cons : held hc buf r (n+1) = buf (cell hc r)::held hc buf (r+1) n := by
  rw [held, List.range_succ_eq_map, List.map_cons, List.map_map, BitVec.ofNat_eq_ofNat, BitVec.add_zero]
  refine congrArg (List.cons _) (List.map_congr_left (fun k _ => ?_))
  exact congrArg (fun i => buf (cell hc i)) (ofNat_succ r k)

theorem ofNat_add (r : Counter) (a b : ℕ) :
    r+BitVec.ofNat 32 (a+b) = r+BitVec.ofNat 32 a+BitVec.ofNat 32 b := by
  rw [BitVec.ofNat_add, BitVec.add_assoc]

theorem held_append (m : ℕ) :
    held hc buf r (n+m) = held hc buf r n++held hc buf (r+BitVec.ofNat 32 n) m := by
  induction m with
  | zero => simp
  | succ m ih => rw [← Nat.add_assoc, held_snoc, ih, held_snoc, List.append_assoc, ofNat_add]

theorem cell_injective (hdvd : c ∣ 2^32) {j k : ℕ} (hj : j < c) (hk : k < c)
    (h : cell hc (r+BitVec.ofNat 32 j) = cell hc (r+BitVec.ofNat 32 k)) : j = k := by
  have hval : ∀ i, (r+BitVec.ofNat 32 i).toNat % c = (r.toNat+i) % c := by
    intro i
    rw [BitVec.toNat_add, BitVec.toNat_ofNat, Nat.add_mod_mod, Nat.mod_mod_of_dvd _ hdvd]
  have he : (r.toNat+j) % c = (r.toNat+k) % c := by
    rw [← hval j, ← hval k]
    exact congrArg Fin.val h
  have hmod : j % c = k % c := Nat.ModEq.add_left_cancel' r.toNat he
  rwa [Nat.mod_eq_of_lt hj, Nat.mod_eq_of_lt hk] at hmod

variable (hc buf) in
theorem held_store (hdvd : c ∣ 2^32) (x : α) (hn : n < c) :
    held hc (Function.update buf (cell hc (r+BitVec.ofNat 32 n)) x) r n = held hc buf r n := by
  refine List.map_congr_left (fun k hk => Function.update_of_ne (fun he => ?_) _ _)
  have hlt := List.mem_range.mp hk
  have := cell_injective hdvd (by omega) hn he
  omega

variable (hc buf) in
theorem held_push (hdvd : c ∣ 2^32) (x : α) (hn : n < c) :
    held hc (Function.update buf (cell hc (r+BitVec.ofNat 32 n)) x) r (n+1) = held hc buf r n++[x] := by
  rw [held_snoc, held_store hc buf hdvd x hn, Function.update_self]

theorem add_diff (r w : Counter) : r+BitVec.ofNat 32 (w-r).toNat = w := by
  rw [BitVec.ofNat_toNat, BitVec.setWidth_eq, BitVec.add_comm, BitVec.sub_add_cancel]

end Xv6.CounterRing

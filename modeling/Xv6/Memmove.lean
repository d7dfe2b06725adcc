import Xv6.ByteFields

/-!
# Copies between ranges that overlap

`memmove` of the kernel's `string.c` and of the user library's `ulib.c`. Memory is a byte for each
address; pointers are 32 bit numbers and wrap.
-/

set_option autoImplicit false

namespace Xv6.Memmove
open ByteFields
open Function

abbrev WORD : ℕ := 4294967296

def copyUp : ℕ → ℕ → ℕ → Block → Block
  | 0, _, _, m => m
  | n+1, d, s, m => copyUp n ((d+1)%WORD) ((s+1)%WORD) (update m d (m s))

def copyDown : ℕ → ℕ → ℕ → Block → Block
  | 0, _, _, m => m
  | n+1, d, s, m =>
    let d := (d+WORD-1)%WORD
    let s := (s+WORD-1)%WORD
    copyDown n d s (update m d (m s))

namespace Kernel

/-- `memmove` of `string.c`, with `n` a `uint`. -/
def memmove (dst src n : ℕ) (m : Block) : Block :=
  if src < dst ∧ dst < (src+n)%WORD then copyDown n ((dst+n)%WORD) ((src+n)%WORD) m
  else copyUp n dst src m

end Kernel

namespace User

/-- `memmove` of `ulib.c`, with `n` an `int`. -/
def memmove (dst src : ℕ) (n : ℤ) (m : Block) : Block := copyUp n.toNat dst src m

end User

/-- Where the loop upwards finds the byte for an offset. If the destination is above the source,
it comes upon its own copies and repeats the bytes between the two. -/
def origin (d s i : ℕ) : ℕ := if s < d then s+i%(d-s) else s+i

section Loops
variable {n d s i : ℕ} {m : Block}

theorem copyUp_succ (hd : d < WORD) (hs : s < WORD) :
    copyUp (n+1) d s m = update (copyUp n d s m) ((d+n)%WORD) (copyUp n d s m ((s+n)%WORD)) := by
  induction n generalizing d s m with
  | zero =>
    have hzero : ∀ a, a < WORD → (a+0)%WORD = a := fun a => Nat.mod_eq_of_lt
    rw [hzero d hd, hzero s hs]
    rfl
  | succ n ih =>
    have hnext : ∀ a, ((a+1)%WORD+n)%WORD = (a+(n+1))%WORD := fun a => by
      rw [Nat.mod_add_mod, Nat.add_assoc, Nat.add_comm 1]
    rw [copyUp, ih (Nat.mod_lt _ (by decide)) (Nat.mod_lt _ (by decide)), hnext, hnext]
    rfl

theorem origin_direct (h : s < d → i < d-s) : origin d s i = s+i := by
  by_cases hlt : s < d
  · rw [origin, if_pos hlt, Nat.mod_eq_of_lt (h hlt)]
  · rw [origin, if_neg hlt]

theorem origin_copied (hlt : s < d) (h : d ≤ s+i) : origin d s (s+i-d) = origin d s i := by
  rw [origin, if_pos hlt, origin, if_pos hlt, Nat.mod_eq_sub_mod (a := i) (by omega)]
  congr 2
  omega

theorem copyUp_eq (hd : d+n ≤ WORD) (hs : s+n ≤ WORD) :
    copyUp n d s m = fun x => if d ≤ x ∧ x < d+n then m (origin d s (x-d)) else m x := by
  induction n with
  | zero =>
    funext x
    rw [if_neg (by omega)]
    rfl
  | succ n ih =>
    rw [copyUp_succ (by omega) (by omega), ih (by omega) (by omega), Nat.mod_eq_of_lt (a := d+n) (by omega),
      Nat.mod_eq_of_lt (a := s+n) (by omega)]
    funext x
    by_cases hx : x = d+n
    · subst hx
      rw [update_self, if_pos (by omega), Nat.add_sub_cancel_left]
      beta_reduce
      split
      · rw [origin_copied (by omega) (by omega)]
      · rw [origin_direct (by omega)]
    · have hin : (d ≤ x ∧ x < d+(n+1)) ↔ (d ≤ x ∧ x < d+n) := by omega
      simp only [update_of_ne hx, hin]

theorem copyDown_eq (hlt : s < d) (hd : d+n ≤ WORD) :
    copyDown n ((d+n)%WORD) ((s+n)%WORD) m = fun x => if d ≤ x ∧ x < d+n then m (s+(x-d)) else m x := by
  induction n generalizing m with
  | zero =>
    funext x
    rw [if_neg (by omega)]
    rfl
  | succ n ih =>
    have hback : ∀ a, a+(n+1) ≤ WORD → ((a+(n+1))%WORD+WORD-1)%WORD = (a+n)%WORD := fun a ha => by
      simp only [WORD] at ha ⊢
      omega
    rw [copyDown, hback d hd, hback s (by omega), ih (by omega), Nat.mod_eq_of_lt (a := d+n) (by omega),
      Nat.mod_eq_of_lt (a := s+n) (by omega)]
    funext x
    by_cases hx : x = d+n
    · subst hx
      rw [if_neg (by omega), update_self, if_pos (by omega), Nat.add_sub_cancel_left]
    · have hin : (d ≤ x ∧ x < d+(n+1)) ↔ (d ≤ x ∧ x < d+n) := by omega
      simp only [hin, update_of_ne hx]
      split
      · rw [update_of_ne (by omega)]
      · rfl

end Loops

theorem memmove_eq {dst src n : ℕ} {m : Block} (hdst : dst+n ≤ WORD) (hsrc : src+n ≤ WORD) :
    Kernel.memmove dst src n m = fun x => if dst ≤ x ∧ x < dst+n then m (src+(x-dst)) else m x := by
  rw [Kernel.memmove]
  split_ifs with h
  · exact copyDown_eq h.1 hdst
  · -- The sum wraps only if the source ends with the memory, and then it is not below.
    have hapart : src < dst → src+n ≤ dst := fun hlt => by
      by_contra hover
      exact h ⟨hlt,by rw [Nat.mod_eq_of_lt (by omega)]; omega⟩
    rw [copyUp_eq hdst hsrc]
    funext x
    split
    · rw [origin_direct (by omega)]
    · rfl

/-- The kernel's copy reads all of the source before it writes, whatever the overlap. -/
theorem kernel_memmove_simultaneous (m : Block) (dst src n : ℕ) (hdst : dst+n ≤ WORD) (hsrc : src+n ≤ WORD) :
    (∀ i < n, Kernel.memmove dst src n m (dst+i) = m (src+i)) ∧
    ∀ x, (x < dst ∨ dst+n ≤ x) → Kernel.memmove dst src n m x = m x := by
  rw [memmove_eq hdst hsrc]
  refine ⟨fun i hi => ?_,fun x hx => ?_⟩
  · simp only [Nat.le_add_right, Nat.add_lt_add_left hi, and_self, if_true, Nat.add_sub_cancel_left]
  · exact if_neg (by omega)

theorem kernel_memmove_overlap :
    (∀ i < 3, Kernel.memmove 11 10 3 UInt8.ofNat (11+i) = UInt8.ofNat (10+i)) ∧
    ∀ x, (x < 11 ∨ 11+3 ≤ x) → Kernel.memmove 11 10 3 UInt8.ofNat x = UInt8.ofNat x :=
  kernel_memmove_simultaneous UInt8.ofNat 11 10 3 (by decide) (by decide)

/-- The two leave the same memory exactly if the bytes that the loop of the library comes upon
again are equal to those it has not copied yet. -/
theorem user_memmove_agrees (m : Block) (dst src n : ℕ) (hdst : dst+n ≤ WORD) (hsrc : src+n ≤ WORD) :
    User.memmove dst src n m = Kernel.memmove dst src n m ↔
      (src < dst → ∀ i < n, m (src+i) = m (src+i%(dst-src))) := by
  rw [memmove_eq hdst hsrc, User.memmove, Int.toNat_natCast, copyUp_eq hdst hsrc, funext_iff]
  constructor
  · intro h hlt i hi
    have hi' := h (dst+i)
    rw [if_pos (by omega), if_pos (by omega), Nat.add_sub_cancel_left, origin, if_pos hlt] at hi'
    exact hi'.symm
  · intro h x
    split
    · by_cases hlt : src < dst
      · rw [origin, if_pos hlt, h hlt (x-dst) (by omega)]
      · rw [origin, if_neg hlt]
    · rfl

def periodic : Block := fun x => if x%2 = 0 then 5 else 7

theorem user_memmove_periodic : User.memmove 2 0 3 periodic = Kernel.memmove 2 0 3 periodic :=
  (user_memmove_agrees periodic 2 0 3 (by decide) (by decide)).mpr fun _ => by decide

theorem user_memmove_differs : ∃ m : Block, User.memmove 1 0 2 m ≠ Kernel.memmove 1 0 2 m :=
  ⟨UInt8.ofNat,fun h => absurd (congrFun h 2) (by decide)⟩

end Xv6.Memmove

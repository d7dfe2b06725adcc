import Mathlib.Algebra.Group.Nat.Defs
import Mathlib.Data.List.Basic
import Mathlib.Logic.Function.Basic
import Mathlib.Tactic.Common

/-!
# Numbers and bits in blocks of bytes

A block is a function from offsets to bytes. A number takes some bytes of it, the low
byte first; a bit is found in its byte by a mask.
-/

set_option autoImplicit false

namespace Xv6.ByteFields

abbrev Block := ℕ → UInt8

def paste (f : Block) (o : ℕ) (xs : List UInt8) : Block :=
  fun k => if o ≤ k ∧ k < o+xs.length then xs.getD (k-o) 0 else f k

def slice (f : Block) (o n : ℕ) : List UInt8 := (List.range n).map (fun k => f (o+k))

@[simp] theorem slice_length (f : Block) (o n : ℕ) : (slice f o n).length = n := by
  rw [slice, List.length_map, List.length_range]

theorem slice_append (f : Block) (o m n : ℕ) : slice f o (m+n) = slice f o m++slice f (o+m) n := by
  simp only [slice, List.range_add, List.map_append, List.map_map]
  refine congrArg _ (List.map_congr_left fun k _ => ?_)
  rw [Function.comp_apply, Nat.add_assoc]

variable {xs : List UInt8} {f : Block}

theorem slice_congr {f g : Block} {o p n : ℕ} (h : ∀ k < n, f (o+k) = g (p+k)) : slice f o n = slice g p n :=
  List.map_congr_left fun k hk => h k (List.mem_range.mp hk)

theorem slice_nil (f : Block) (o : ℕ) : slice f o 0 = [] := rfl

theorem slice_drop (f : Block) (o m d : ℕ) : (slice f o m).drop d = slice f (o+d) (m-d) := by
  by_cases h : d ≤ m
  · obtain ⟨r,rfl⟩ := Nat.exists_eq_add_of_le h
    rw [slice_append, List.drop_left' (slice_length f o d), Nat.add_sub_cancel_left]
  · rw [List.drop_of_length_le (by rw [slice_length]; omega), Nat.sub_eq_zero_of_le (by omega), slice_nil]

theorem slice_take (f : Block) (o m d : ℕ) : (slice f o m).take d = slice f o (min d m) := by
  by_cases h : d ≤ m
  · obtain ⟨r,rfl⟩ := Nat.exists_eq_add_of_le h
    rw [slice_append, List.take_left' (slice_length f o d), Nat.min_eq_left h]
  · rw [List.take_of_length_le (by rw [slice_length]; omega), Nat.min_eq_right (by omega)]

theorem paste_outside {o k : ℕ} (h : k < o ∨ o+xs.length ≤ k) :
    paste f o xs k = f k := by
  rw [paste, if_neg (by omega)]

theorem paste_inside {o k : ℕ} (h : k < xs.length) :
    paste f o xs (o+k) = xs.getD k 0 := by
  rw [paste, if_pos (by omega), Nat.add_sub_cancel_left]

theorem slice_paste_self (f : Block) (o : ℕ) (xs : List UInt8) : slice (paste f o xs) o xs.length = xs := by
  refine List.ext_getElem? fun k => ?_
  by_cases hk : k < xs.length
  · rw [slice, List.getElem?_map, List.getElem?_range hk, Option.map_some, paste_inside hk,
      List.getD_eq_getElem?_getD, List.getElem?_eq_getElem hk, Option.getD_some]
  · rw [List.getElem?_eq_none (by rw [slice_length]; omega), List.getElem?_eq_none (by omega)]

theorem slice_paste (f : Block) {o m : ℕ} (h : o ≤ m) (xs : List UInt8) :
    slice (paste f o xs) 0 (max m (o+xs.length)) =
      (slice f 0 m).take o++xs++(slice f 0 m).drop (o+xs.length) := by
  have hlen : max m (o+xs.length) = o+xs.length+(m-(o+xs.length)) := by omega
  have hlow : slice (paste f o xs) 0 o = slice f 0 o := slice_congr fun k hk => paste_outside (by omega)
  have hhigh : slice (paste f o xs) (o+xs.length) (m-(o+xs.length)) =
      slice f (o+xs.length) (m-(o+xs.length)) := slice_congr fun k hk => paste_outside (by omega)
  rw [hlen, slice_append, slice_append, Nat.zero_add, Nat.zero_add, hlow, slice_paste_self, hhigh, slice_drop,
    slice_take, Nat.zero_add, Nat.min_eq_left h]

theorem paste_congr {f g : Block} {o k : ℕ} (h : f k = g k) :
    paste f o xs k = paste g o xs k := by
  rw [paste, paste, h]

theorem paste_append (f : Block) (o : ℕ) (xs ys : List UInt8) :
    paste (paste f o xs) (o+xs.length) ys = paste f o (xs++ys) := by
  funext k
  simp only [paste, List.length_append, List.getD_eq_getElem?_getD]
  by_cases hlow : o ≤ k ∧ k < o+xs.length
  · rw [if_neg (by omega), if_pos hlow, if_pos (by omega), List.getElem?_append_left (by omega)]
  · by_cases hhigh : o+xs.length ≤ k ∧ k < o+xs.length+ys.length
    · rw [if_pos hhigh, if_pos (by omega), List.getElem?_append_right (by omega), Nat.sub_add_eq]
    · rw [if_neg hhigh, if_neg hlow, if_neg (by omega)]

theorem paste_shift {f g : Block} {o p k : ℕ} (h : f (p+k) = g (o+k)) {d : ℕ} :
    paste f (p+d) xs (p+k) = paste g (o+d) xs (o+k) := by
  simp only [paste, h]
  congr 1
  · rw [eq_iff_iff]
    omega
  · congr 1
    omega

def field : ℕ → Block → ℕ → ℕ
  | 0, _, _ => 0
  | n+1, f, o => (f o).toNat+256*field n f (o+1)

def byte (v j : ℕ) : UInt8 := UInt8.ofNat (v/256^j)

def bytes (n v : ℕ) : List UInt8 := (List.range n).map (byte v)

@[simp] theorem bytes_length (n v : ℕ) : (bytes n v).length = n := by
  rw [bytes, List.length_map, List.length_range]

theorem byte_succ (v j : ℕ) : byte v (j+1) = byte (v/256) j := by
  rw [byte, byte, Nat.pow_succ', Nat.div_div_eq_div_mul]

theorem field_congr {f g : Block} {n o p : ℕ} (h : ∀ j < n, f (o+j) = g (p+j)) :
    field n f o = field n g p := by
  induction n generalizing o p with
  | zero => rfl
  | succ n ih =>
    have hhead : f o = g p := h 0 (Nat.succ_pos n)
    rw [field, field, hhead, ih (fun j hj => ?_)]
    rw [Nat.add_right_comm, Nat.add_assoc, h (j+1) (by omega), Nat.add_right_comm, Nat.add_assoc]

theorem field_of_bytes {n o v : ℕ} (h : ∀ j < n, f (o+j) = byte v j) :
    field n f o = v%256^n := by
  induction n generalizing o v with
  | zero => rw [field, Nat.pow_zero, Nat.mod_one]
  | succ n ih =>
    have hhead : f o = byte v 0 := h 0 (Nat.succ_pos n)
    have hrest := ih (o := o+1) (v := v/256) (fun j hj => by
      rw [Nat.add_right_comm, Nat.add_assoc, h (j+1) (by omega), byte_succ])
    have hlow : (byte v 0).toNat = v%256 := by
      rw [byte, Nat.pow_zero, Nat.div_one, UInt8.toNat_ofNat']
    rw [field, hhead, hlow, hrest, Nat.pow_succ', Nat.mod_mul]

theorem byte_field (f : Block) {n j : ℕ} (o : ℕ) (h : j < n) : byte (field n f o) j = f (o+j) := by
  induction n generalizing j o with
  | zero => omega
  | succ n ih =>
    have hlow : ((f o).toNat+256*field n f (o+1))%256 = (f o).toNat := by
      have := (f o).toNat_lt
      omega
    have hhigh : ((f o).toNat+256*field n f (o+1))/256 = field n f (o+1) := by
      have := (f o).toNat_lt
      omega
    rw [field]
    cases j with
    | zero =>
      refine UInt8.toNat_inj.mp ?_
      rw [byte, Nat.pow_zero, Nat.div_one, UInt8.toNat_ofNat', Nat.add_zero]
      exact hlow
    | succ j =>
      rw [byte_succ, hhigh, ih (o+1) (by omega), Nat.add_right_comm, Nat.add_assoc]

theorem field_lt (n : ℕ) (f : Block) (o : ℕ) : field n f o < 256^n := by
  induction n generalizing o with
  | zero => exact Nat.one_pos
  | succ n ih =>
    have := (f o).toNat_lt
    have := ih (o+1)
    rw [field, Nat.pow_succ']
    omega

theorem field_zero {n o : ℕ} (h : ∀ j < n, f (o+j) = 0) : field n f o = 0 := by
  rw [field_of_bytes (v := 0) (fun j hj => (h j hj).trans ?_), Nat.zero_mod]
  rw [byte, Nat.zero_div]
  rfl

theorem field_paste_same {n o v : ℕ} (h : v < 256^n) :
    field n (paste f o (bytes n v)) o = v := by
  rw [field_of_bytes (v := v) (fun j hj => ?_), Nat.mod_eq_of_lt h]
  rw [paste_inside (by rwa [bytes_length]), bytes, List.getD_eq_getElem?_getD, List.getElem?_map,
    List.getElem?_range hj]
  rfl

theorem field_paste_other {n o p : ℕ}
    (h : p+n ≤ o ∨ o+xs.length ≤ p) : field n (paste f o xs) p = field n f p :=
  field_congr fun j hj => paste_outside (by omega)

def mask (b : ℕ) : UInt8 := ⟨BitVec.twoPow 8 (b%8)⟩

def isSet (f : Block) (b : ℕ) : Bool := f (b/8) &&& mask b != 0

def setBit (f : Block) (b : ℕ) : Block := Function.update f (b/8) (f (b/8) ||| mask b)

theorem isSet_eq (f : Block) (b : ℕ) : isSet f b = (f (b/8)).toBitVec.getLsbD (b%8) := by
  have hpow : BitVec.twoPow 8 (b%8) ≠ 0#8 := by
    have : b%8 < 8 := Nat.mod_lt _ (by decide)
    generalize b%8 = k at this ⊢
    revert k
    decide
  have hand := BitVec.and_twoPow (f (b/8)).toBitVec (b%8)
  rw [isSet, bne, Bool.eq_iff_iff, Bool.not_eq_true', beq_eq_false_iff_ne, ne_eq, ← UInt8.toBitVec_inj,
    UInt8.toBitVec_and, mask, hand]
  split_ifs with hbit
  · simpa [hbit] using hpow
  · simp [hbit]

theorem isSet_setBit (f : Block) (b c : ℕ) : isSet (setBit f b) c = (decide (c = b) || isSet f c) := by
  rw [isSet_eq, isSet_eq, setBit]
  by_cases hbyte : c/8 = b/8
  · rw [hbyte, Function.update_self, UInt8.toBitVec_or, BitVec.getLsbD_or, mask, BitVec.getLsbD_twoPow,
      Bool.or_comm]
    congr 1
    rw [Bool.eq_iff_iff, Bool.and_eq_true, decide_eq_true_eq, decide_eq_true_eq, decide_eq_true_eq]
    omega
  · rw [Function.update_of_ne hbyte, decide_eq_false (fun h : c = b => hbyte (h ▸ rfl)), Bool.false_or]

end Xv6.ByteFields

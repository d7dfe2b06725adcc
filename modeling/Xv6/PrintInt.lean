import Mathlib.Algebra.Group.Nat.Defs
import Mathlib.Data.Int.Notation
import Mathlib.Data.List.GetD
import Mathlib.Tactic.Common

/-!
# Printing and reading numbers

`printint` of the kernel's `console.c` and of the user library's `printf.c`, and `atoi` of `ulib.c`.
A character that is put is an element of the output.
-/

set_option autoImplicit false

namespace Xv6.PrintInt

abbrev Word := BitVec 32

/-- The do-while loop, with a bound on its rounds: the characters in `buf`, the last digit first. -/
def digitLoop (digits : List Char) (base : ℕ) : ℕ → ℕ → List Char → List Char
  | 0, _, buf => buf
  | k+1, x, buf =>
    let buf := buf++[digits.getD (x%base) ' ']
    if x/base ≠ 0 then digitLoop digits base k (x/base) buf else buf

def buffered (digits : List Char) (neg : Bool) (x : Word) (base : ℕ) : List Char :=
  let buf := digitLoop digits base 32 x.toNat []
  if neg = true then buf++['-'] else buf

/-- The loop `while(--i >= 0) putc(buf[i])`. -/
def emit (buf : List Char) : ℕ → List Char
  | 0 => []
  | i+1 => buf.getD i ' '::emit buf i

namespace Console

def digits : List Char := "0123456789abcdef".toList

def buf (xx : Word) (base : ℕ) (sign : Bool) : List Char :=
  let sign := sign && decide (xx.toInt < 0)
  buffered digits sign (if sign = true then -xx else xx) base

/-- `printint` of `console.c`. -/
def printint (xx : Word) (base : ℕ) (sign : Bool) : List Char :=
  emit (buf xx base sign) (buf xx base sign).length

end Console

namespace Printf

def digits : List Char := "0123456789ABCDEF".toList

def buf (xx : Word) (base : ℕ) (sgn : Bool) : List Char :=
  if sgn = true ∧ xx.toInt < 0 then buffered digits true (-xx) base else buffered digits false xx base

/-- `printint` of `printf.c`. -/
def printint (xx : Word) (base : ℕ) (sgn : Bool) : List Char :=
  emit (buf xx base sgn) (buf xx base sgn).length

end Printf

/-- The loop of `atoi` over a string without its NUL. -/
def atoiFrom : Word → List Char → Word
  | n, [] => n
  | n, c::s => if '0' ≤ c ∧ c ≤ '9' then atoiFrom (n*10+BitVec.ofNat 32 c.toNat-48) s else n

def atoi (s : List Char) : Word := atoiFrom 0 s

def decimal (x : ℤ) : List Char := (if x < 0 then ['-'] else [])++Nat.toDigits 10 x.natAbs

section Digits
variable {digits : List Char} {base k n : ℕ} {f : Char → Char}

theorem emit_reverse (buf : List Char) : emit buf buf.length = buf.reverse := by
  have hemit : ∀ i ≤ buf.length, emit buf i = (buf.take i).reverse := by
    intro i
    induction i with
    | zero => exact fun _ => rfl
    | succ i ih =>
      intro hi
      rw [emit, ih (by omega), List.getD_eq_getElem _ _ hi, ← List.take_append_getElem hi,
        List.reverse_append]
      rfl
  rw [hemit _ (Nat.le_refl _), List.take_length]

theorem digitLoop_numeral (hbase : 1 < base) (htable : ∀ d < base, digits.getD d ' ' = f (Nat.digitChar d))
    (buf : List Char) {x : ℕ} (hk : 0 < k) (hx : x < base^k) :
    digitLoop digits base k x buf = buf++((Nat.toDigits base x).map f).reverse := by
  induction k generalizing x buf with
  | zero => omega
  | succ k ih =>
    have hdigit := htable (x%base) (Nat.mod_lt _ (by omega))
    rw [digitLoop, Nat.toDigits_eq_if hbase, hdigit]
    by_cases hlt : x < base
    · rw [if_pos hlt, if_neg (not_not_intro (Nat.div_eq_of_lt hlt)), Nat.mod_eq_of_lt hlt]
      rfl
    · have hpos : x/base ≠ 0 := Nat.ne_of_gt (Nat.div_pos (by omega : base ≤ x) (by omega))
      have hnext : x/base < base^k := Nat.div_lt_of_lt_mul (by rwa [← Nat.pow_succ'])
      have hk' : 0 < k := by
        rcases Nat.eq_zero_or_pos k with rfl | hk'
        · exact absurd (Nat.lt_one_iff.mp hnext) hpos
        · exact hk'
      rw [if_neg hlt, if_pos hpos, ih _ hk' hnext]
      simp

theorem numeral_head (hbase : 1 < base) (hsmall : base ≤ 16) (h : (Nat.toDigits base n).head? = some '0') :
    n = 0 := by
  induction n using Nat.strongRecOn with
  | ind n ih =>
    rw [Nat.toDigits_eq_if hbase] at h
    split at h
    · rename_i hlt
      have hzero : ∀ d < 16, Nat.digitChar d = '0' → d = 0 := by decide
      exact hzero n (by omega) (Option.some.inj h)
    · rename_i hle
      obtain ⟨c,s,hcons⟩ := List.exists_cons_of_ne_nil (Nat.toDigits_ne_nil (b := base) (n := n/base))
      rw [hcons, List.cons_append, List.head?_cons] at h
      have hpos := Nat.div_pos (Nat.le_of_not_lt hle) (by omega : 0 < base)
      have hzero := ih (n/base) (Nat.div_lt_self (by omega) hbase) (by rw [hcons, List.head?_cons, h])
      omega

theorem atoiFrom_append {s : List Char} (hs : ∀ c ∈ s, '0' ≤ c ∧ c ≤ '9') (n : Word) (t : List Char) :
    atoiFrom n (s++t) = atoiFrom (atoiFrom n s) t := by
  induction s generalizing n with
  | nil => rfl
  | cons c s ih =>
    have hc := hs c List.mem_cons_self
    rw [List.cons_append, atoiFrom, if_pos hc, atoiFrom, if_pos hc]
    exact ih (fun d hd => hs d (List.mem_cons_of_mem _ hd)) _

theorem digit_of_numeral {c : Char} (h : c ∈ Nat.toDigits 10 n) : '0' ≤ c ∧ c ≤ '9' := by
  have hc := Nat.isDigit_of_mem_toDigits (by decide) (by decide) h
  simpa [Char.isDigit, Char.le_def] using hc

theorem atoi_digit (n : Word) {d : ℕ} (hd : d < 10) :
    atoiFrom n [Nat.digitChar d] = n*10+BitVec.ofNat 32 d := by
  have hdigit : ∀ d < 10, '0' ≤ Nat.digitChar d ∧ Nat.digitChar d ≤ '9' := by decide
  rw [atoiFrom, if_pos (hdigit d hd), atoiFrom, Nat.toNat_digitChar_of_lt_ten hd, BitVec.ofNat_add]
  bv_omega

theorem atoi_numeral (n : ℕ) : atoi (Nat.toDigits 10 n) = BitVec.ofNat 32 n := by
  rw [atoi]
  induction n using Nat.strongRecOn with
  | ind n ih =>
    rw [Nat.toDigits_eq_if (by decide)]
    split
    · rename_i hlt
      rw [atoi_digit 0 hlt]
      simp
    · rename_i hle
      rw [atoiFrom_append fun c => digit_of_numeral, ih (n/10) (by omega),
        atoi_digit _ (Nat.mod_lt _ (by decide))]
      apply BitVec.eq_of_toNat_eq
      simp
      omega

theorem lower_digits : ∀ d < 16, Console.digits.getD d ' ' = Nat.digitChar d := by decide

theorem upper_digits : ∀ d < 16, Printf.digits.getD d ' ' = (Nat.digitChar d).toUpper := by decide

theorem upper_decimal : ∀ d < 10, Printf.digits.getD d ' ' = Nat.digitChar d := by decide

theorem buffered_numeral (hbase : 1 < base) (htable : ∀ d < base, digits.getD d ' ' = f (Nat.digitChar d))
    (neg : Bool) (x : Word) :
    (buffered digits neg x base).reverse =
    (if neg = true then ['-'] else [])++(Nat.toDigits base x.toNat).map f := by
  have hx : x.toNat < base^32 := Nat.lt_of_lt_of_le x.isLt (Nat.pow_le_pow_left hbase 32)
  rw [buffered, digitLoop_numeral hbase htable [] (by decide) hx]
  cases neg <;> simp

theorem buffered_length (hten : 10 ≤ base) (htable : ∀ d < base, digits.getD d ' ' = f (Nat.digitChar d))
    (neg : Bool) (x : Word) : (buffered digits neg x base).length ≤ 11 := by
  have hx : x.toNat < base^10 := Nat.lt_of_lt_of_le (by omega) (Nat.pow_le_pow_left hten 10)
  have hlen := (Nat.length_toDigits_le_iff (by omega) (by decide)).mpr hx
  rw [← List.length_reverse, buffered_numeral (by omega) htable]
  cases neg <;> simp <;> omega

end Digits

theorem neg_toNat {x : Word} (h : x.toInt < 0) : (-x).toNat = x.toInt.natAbs := by
  rw [BitVec.toInt_eq_toNat_cond] at *
  split at h
  · omega
  · rw [if_neg (by assumption), BitVec.toNat_neg]
    omega

theorem pos_toNat {x : Word} (h : ¬x.toInt < 0) : x.toNat = x.toInt.natAbs := by
  rw [BitVec.toInt_eq_toNat_cond] at *
  split at h
  · rw [if_pos (by assumption)]
    omega
  · omega

theorem console_decimal (x : Word) : Console.printint x 10 true = decimal x.toInt := by
  have htable : ∀ d < 10, Console.digits.getD d ' ' = id (Nat.digitChar d) :=
    fun d hd => lower_digits d (by omega)
  rw [Console.printint, emit_reverse, Console.buf, buffered_numeral (by decide) htable, decimal, List.map_id]
  by_cases h : x.toInt < 0
  · simp [h, neg_toNat h]
  · simp [h, pos_toNat h]

theorem printf_decimal (x : Word) : Printf.printint x 10 true = decimal x.toInt := by
  have hbuf := buffered_numeral (f := id) (by decide) upper_decimal
  rw [Printf.printint, emit_reverse, Printf.buf, decimal]
  by_cases h : x.toInt < 0
  · rw [if_pos ⟨rfl,h⟩, hbuf, if_pos h, neg_toNat h, List.map_id]
    rfl
  · rw [if_neg fun hn => h hn.2, hbuf, if_neg h, pos_toNat h, List.map_id]
    rfl

theorem buf_length (x : Word) {base : ℕ} (hbase : base = 10 ∨ base = 16) (sign : Bool) :
    (Console.buf x base sign).length ≤ 11 ∧ (Printf.buf x base sign).length ≤ 11 := by
  have hlower : ∀ d < base, Console.digits.getD d ' ' = id (Nat.digitChar d) :=
    fun d hd => lower_digits d (by omega)
  have hprintf : ∀ neg y, (buffered Printf.digits neg y base).length ≤ 11 := by
    rcases hbase with rfl | rfl
    · exact buffered_length (f := id) (by decide) upper_decimal
    · exact buffered_length (by decide) upper_digits
  refine ⟨buffered_length (by omega) hlower _ _,?_⟩
  rw [Printf.buf]
  split
  · exact hprintf true (-x)
  · exact hprintf false x

theorem atoi_decimal {x : Word} (h : 0 ≤ x.toInt) : atoi (decimal x.toInt) = x := by
  have hneg : ¬x.toInt < 0 := by omega
  rw [decimal, if_neg hneg, ← pos_toNat hneg, List.nil_append, atoi_numeral, BitVec.ofNat_toNat,
    BitVec.setWidth_eq]

/-- Both functions print the canonical numeral in at most 16 characters, and `atoi` reads it back. -/
theorem printint_canonical (x : Word) :
    Console.printint x 10 true = decimal x.toInt ∧ Printf.printint x 10 true = decimal x.toInt ∧
    ((Nat.toDigits 10 x.toInt.natAbs).head? = some '0' → x = 0) ∧
    Console.printint x 16 false = Nat.toDigits 16 x.toNat ∧
    Printf.printint x 16 false = (Nat.toDigits 16 x.toNat).map Char.toUpper ∧
    ((Nat.toDigits 16 x.toNat).head? = some '0' → x = 0) ∧
    (∀ base, base = 10 ∨ base = 16 →
    ∀ sign, (Console.buf x base sign).length ≤ 16 ∧ (Printf.buf x base sign).length ≤ 16) ∧
    (0 ≤ x.toInt → atoi (Console.printint x 10 true) = x ∧ atoi (Printf.printint x 10 true) = x) := by
  have hbuf : ∀ base, base = 10 ∨ base = 16 →
    ∀ sign, (Console.buf x base sign).length ≤ 16 ∧ (Printf.buf x base sign).length ≤ 16 := by
    intro base hbase sign
    have h := buf_length x hbase sign
    omega
  refine ⟨console_decimal x,printf_decimal x,fun h => ?_,?_,?_,fun h => ?_,hbuf,fun h => ?_⟩
  · have hzero := numeral_head (by decide) (by decide) h
    exact BitVec.eq_of_toInt_eq (Int.natAbs_eq_zero.mp hzero)
  · rw [Console.printint, emit_reverse, Console.buf, buffered_numeral (f := id) (by decide) lower_digits,
      List.map_id]
    rfl
  · rw [Printf.printint, emit_reverse, Printf.buf, if_neg (fun hn => Bool.false_ne_true hn.1),
      buffered_numeral (by decide) upper_digits]
    rfl
  · exact BitVec.eq_of_toNat_eq (numeral_head (by decide) (by decide) h)
  · rw [console_decimal, printf_decimal]
    exact ⟨atoi_decimal h,atoi_decimal h⟩

/-- The most negative number is its own negation. -/
example : Console.printint 2147483648 10 true = "-2147483648".toList := by decide

end Xv6.PrintInt

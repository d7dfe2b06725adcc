import Xv6.ProcTable
import Mathlib.NumberTheory.LucasLehmer

/-!
# The next prime

`find_next_prime_number` counts up from its argument and tries every divisor of each number.
An `int` is an integer up to `INTMAX`; what C does at `number++` behind it is not defined, and
the search stops there.
-/

set_option autoImplicit false

namespace Xv6.NextPrime

abbrev INTMAX : ℤ := 2147483647

inductive Search where
  | found (number : ℤ)
  | overflow
  | running
  deriving DecidableEq

/-- The loop over `i`, with the rounds that are left; the result is `flag`. -/
def divisorLoop (number : ℤ) : ℕ → ℤ → ℤ → ℤ
  | 0, _, flag => flag
  | k+1, i, flag =>
    if i < number then divisorLoop number k (i+1) (if number.tmod i = 0 then 1 else flag) else flag

def hasDivisor (number : ℤ) : ℤ := divisorLoop number (number-2).toNat 2 0

/-- The loop `while(1)`, for so many rounds. -/
def searchLoop : ℕ → ℤ → Search
  | 0, _ => .running
  | k+1, number =>
    if hasDivisor number = 0 then .found number
    else if number = INTMAX then .overflow
    else searchLoop k (number+1)

def findNextPrimeNumber (rounds : ℕ) (number : ℤ) : Search :=
  if number = INTMAX then .overflow else searchLoop rounds (number+1)

/-- The argument is what the register `ebx` holds. -/
def sysGetnextprime (rounds : ℕ) (ebx : BitVec 32) : Search := findNextPrimeNumber rounds ebx.toInt

/-- The call returns the least prime number above its argument, and no round passes
`INTMAX`. -/
def FindsNextPrime (ebx : BitVec 32) : Prop :=
  (∀ k, sysGetnextprime k ebx ≠ .overflow) ∧
    ∃ k p, sysGetnextprime k ebx = .found p ∧ 0 ≤ p ∧ p.toNat.Prime ∧ ebx.toInt < p ∧
      ∀ q : ℕ, q.Prime → ebx.toInt < q → p ≤ q

theorem divisor_loop_flag {number : ℤ} {k : ℕ} (i flag : ℤ) (hflag : 0 ≤ flag) :
    0 ≤ divisorLoop number k i flag ∧
      (divisorLoop number k i flag = 0 ↔ flag = 0 ∧ ∀ j, i ≤ j → j < i+k → j < number →
      number.tmod j ≠ 0) := by
  induction k generalizing i flag with
  | zero =>
    refine ⟨hflag,fun h => ⟨h,fun j h1 h2 => ?_⟩,fun h => h.1⟩
    omega
  | succ k ih =>
    rw [divisorLoop]
    split
    · rename_i hlt
      obtain ⟨hpos,hiff⟩ := ih (i+1) (if number.tmod i = 0 then 1 else flag) (by split <;> omega)
      refine ⟨hpos,hiff.trans ⟨fun ⟨h0,hall⟩ => ?_,fun ⟨h0,hall⟩ => ?_⟩⟩
      · split at h0
        · omega
        · rename_i hmod
          refine ⟨h0,fun j h1 h2 h3 => ?_⟩
          rcases eq_or_lt_of_le h1 with rfl | h1
          · exact hmod
          · exact hall j (by omega) (by push_cast at h2; omega) h3
      · rw [if_neg (hall i le_rfl (by push_cast; omega) hlt)]
        exact ⟨h0,fun j h1 h2 h3 => hall j (by omega) (by push_cast; omega) h3⟩
    · exact ⟨hflag,fun h => ⟨h,fun j h1 h2 h3 => by omega⟩,fun h => h.1⟩

theorem has_divisor_zero {number : ℤ} : hasDivisor number = 0 ↔ number < 2 ∨ number.toNat.Prime := by
  rw [hasDivisor, (divisor_loop_flag 2 0 le_rfl).2]
  by_cases hlow : number < 2
  · refine ⟨fun _ => .inl hlow,fun _ => ⟨rfl,fun j h1 h2 h3 => ?_⟩⟩
    omega
  obtain ⟨m,rfl⟩ : ∃ m : ℕ, number = m := ⟨number.toNat,by omega⟩
  rw [Int.toNat_natCast, Nat.prime_def]
  constructor
  · rintro ⟨-,hall⟩
    refine .inr ⟨by omega,fun d hd => ?_⟩
    by_contra hne
    rw [not_or] at hne
    have hpos := Nat.pos_of_dvd_of_pos hd (by omega)
    have hle := Nat.le_of_dvd (by omega) hd
    refine hall d (by omega) (by omega) (by omega) ?_
    rw [← Int.ofNat_tmod, Nat.mod_eq_zero_of_dvd hd]
    rfl
  · rintro (h | ⟨-,hdvd⟩)
    · exact absurd h hlow
    refine ⟨rfl,fun j h1 h2 h3 h0 => ?_⟩
    obtain ⟨d,rfl⟩ : ∃ d : ℕ, j = d := ⟨j.toNat,by omega⟩
    have hd : d ∣ m := Int.natCast_dvd_natCast.mp (Int.dvd_of_tmod_eq_zero h0)
    rcases hdvd d hd with rfl | rfl <;> omega

theorem intmax_prime : (2147483647 : ℕ).Prime := by
  have hp : (mersenne 31).Prime := lucas_lehmer_sufficiency _ (by norm_num) (by norm_num)
  exact hp

theorem search_found {k : ℕ} {n p : ℤ} (hle : n ≤ p) (hstop : hasDivisor p = 0)
    (hfirst : ∀ m, n ≤ m → m < p → hasDivisor m ≠ 0) (hmax : p ≤ INTMAX) :
    searchLoop k n = if p-n < k then .found p else .running := by
  induction k generalizing n with
  | zero =>
    rw [if_neg (by push_cast; omega)]
    rfl
  | succ k ih =>
    rw [searchLoop]
    rcases eq_or_lt_of_le hle with rfl | hlt
    · rw [if_pos hstop, if_pos (by push_cast; omega)]
    · rw [if_neg (hfirst n le_rfl hlt), if_neg (by omega), ih hlt (fun m h1 h2 => hfirst m (by omega) h2)]
      refine if_congr ?_ rfl rfl
      push_cast
      omega

theorem found_next {n p : ℤ} (hn : n < INTMAX) (hlt : n < p) (hstop : hasDivisor p = 0)
    (hfirst : ∀ m, n < m → m < p → hasDivisor m ≠ 0) (hmax : p ≤ INTMAX) (k : ℕ) :
    findNextPrimeNumber k n = if p-(n+1) < k then .found p else .running := by
  rw [findNextPrimeNumber, if_neg (by omega)]
  exact search_found hlt hstop hfirst hmax

theorem next_prime_exists {n : ℤ} (hn : n < INTMAX) :
    ∃ p : ℕ, p.Prime ∧ n < p ∧ (p : ℤ) ≤ INTMAX ∧ ∀ q : ℕ, q.Prime → n < q → p ≤ q := by
  classical
  have hex : ∃ p : ℕ, p.Prime ∧ n < p := ⟨2147483647,intmax_prime,hn⟩
  refine ⟨Nat.find hex,(Nat.find_spec hex).1,(Nat.find_spec hex).2,?_,
    fun q hq hlt => Nat.find_min' hex ⟨hq,hlt⟩⟩
  exact Int.ofNat_le.mpr (Nat.find_min' hex ⟨intmax_prime,hn⟩)

/-- The call does what its name says exactly for positive arguments. -/
theorem next_prime_found_iff (n : BitVec 32) (hn : n.toInt < INTMAX) : FindsNextPrime n ↔ 1 ≤ n.toInt := by
  constructor
  · rintro ⟨-,k,p,hfound,hpos,hprime,-,-⟩
    by_contra hlow
    have hstop : hasDivisor (n.toInt+1) = 0 := has_divisor_zero.mpr (.inl (by omega))
    rw [sysGetnextprime, found_next hn (by omega) hstop (fun m h1 h2 => by omega) (by omega)] at hfound
    split at hfound
    · cases hfound
      have := hprime.two_le
      omega
    · cases hfound
  · intro hlow
    obtain ⟨p,hprime,hlt,hmax,hleast⟩ := next_prime_exists hn
    have hstop : hasDivisor p = 0 := has_divisor_zero.mpr (.inr (by rwa [Int.toNat_natCast]))
    have hfirst : ∀ m, n.toInt < m → m < p → hasDivisor m ≠ 0 := fun m h1 h2 h0 => by
      rcases has_divisor_zero.mp h0 with h | h
      · omega
      · have := hleast m.toNat h (by omega)
        omega
    have heq := found_next hn hlt hstop hfirst hmax
    refine ⟨fun k => ?_,(p-n.toInt).toNat,p,?_,by omega,by rwa [Int.toNat_natCast],hlt,?_⟩
    · rw [sysGetnextprime, heq k]
      split <;> exact nofun
    · rw [sysGetnextprime, heq, if_pos (by omega)]
    · exact fun q hq hnq => by exact_mod_cast hleast q hq hnq

theorem next_prime_of_seven : (7 : BitVec 32).toInt < INTMAX ∧ FindsNextPrime 7 :=
  ⟨by decide,(next_prime_found_iff 7 (by decide)).mpr (by decide)⟩

/-- For 0 the call returns 1. -/
theorem next_prime_of_zero : sysGetnextprime 1 0 = .found 1 ∧ ¬FindsNextPrime 0 := by
  refine ⟨by decide,fun ⟨_,k,p,hfound,_,hprime,_⟩ => ?_⟩
  cases k with
  | zero => cases hfound
  | succ k =>
    cases hfound
    exact Nat.not_prime_one hprime

end Xv6.NextPrime

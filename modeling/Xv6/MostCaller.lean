import Xv6.SyscallCount

/-!
# The process that calls most

`getMostCaller` goes over all slots with a running maximum. What it stores there is not the
count it has found but the number of the call, and it does not look at the states. So one slot
decides: the last with a count above the number of the call, or else the first that has called
at all.
-/

set_option autoImplicit false

namespace Xv6.MostCaller
open ByteMemory ProcTable SyscallCount

section Table
variable (base syscallid : Word) (m : Mem) (p : Slot)

/-- The field `p->state` is behind `kstack`; UNUSED is 0. -/
def InUse : Prop := load (procAddr base p + 12) m ≠ 0

def pidOf : Word := load (pidAddr base p) m

def countOf : ℤ := (load (counterAddr base p syscallid) m).toInt

def Called : Prop := ∃ q, InUse base m q ∧ 0 < countOf base syscallid m q

def Most : Prop := InUse base m p ∧ ∀ q, InUse base m q →
    countOf base syscallid m q ≤ countOf base syscallid m p

/-- The slot whose pid the loop ends with. -/
def Decides : Prop :=
  0 < countOf base syscallid m p ∧
    ((syscallid.toInt < countOf base syscallid m p ∧ ∀ q, p < q →
    countOf base syscallid m q ≤ syscallid.toInt) ∨
      ((∀ q, countOf base syscallid m q ≤ syscallid.toInt) ∧ ∀ q, q < p → countOf base syscallid m q ≤ 0))

end Table

/-- The process that has made most calls, or 0 if no process has made the call. -/
def FindsMost (base syscallid : Word) (k : Kernel) : Prop :=
  (Called base syscallid k.mem → ∃ p, Most base syscallid k.mem p ∧
    (getMostCaller base syscallid k).2 = pidOf base k.mem p) ∧
  ((getMostCaller base syscallid k).2 = 0 ↔ ¬Called base syscallid k.mem)

/-- What the deciding slot has to be: its pid is that of a process that has made most calls,
or 0 if no process in use has made the call. -/
def GoodSlot (base syscallid : Word) (m : Mem) (p : Slot) : Prop :=
  (Called base syscallid m → pidOf base m p ≠ 0 ∧ ∃ q, Most base syscallid m q ∧
  pidOf base m q = pidOf base m p) ∧
  (¬Called base syscallid m → pidOf base m p = 0)

section Decidable
variable (base syscallid : Word) (m : Mem) (p : Slot)

instance : Decidable (InUse base m p) := inferInstanceAs (Decidable (_ ≠ _))
instance : Decidable (Called base syscallid m) := inferInstanceAs (Decidable (∃ _, _ ∧ _))
instance : Decidable (Most base syscallid m p) := inferInstanceAs (Decidable (_ ∧ ∀ _, _ → _))
instance : Decidable (Decides base syscallid m p) :=
  inferInstanceAs (Decidable (_ ∧ ((_ ∧ ∀ _, _ → _) ∨ ((∀ _, _) ∧ ∀ _, _ → _))))
instance : Decidable (GoodSlot base syscallid m p) :=
  inferInstanceAs (Decidable ((_ → _ ∧ ∃ _, _ ∧ _) ∧ (_ → _)))

end Decidable

variable {base syscallid : Word} {k : Kernel} {pid : Word} {ps : List Slot}

theorem loop_over (pid : Word) (k : Kernel) (hs : ps.Pairwise (· < ·)) :
    ((∀ p ∈ ps, countOf base syscallid k.mem p ≤ syscallid.toInt) ∧
      (mostCallerLoop base syscallid ps syscallid pid k).2 = pid) ∨
    ∃ p ∈ ps, syscallid.toInt < countOf base syscallid k.mem p ∧
      (∀ q ∈ ps, p < q → countOf base syscallid k.mem q ≤ syscallid.toInt) ∧
      (mostCallerLoop base syscallid ps syscallid pid k).2 = pidOf base k.mem p := by
  induction ps generalizing pid k with
  | nil => exact .inl ⟨fun _ h => absurd h List.not_mem_nil,rfl⟩
  | cons p ps ih =>
    obtain ⟨hp,hrest⟩ := List.pairwise_cons.mp hs
    rw [mostCallerLoop]
    by_cases hover : (readCounter base p syscallid k).2.toInt > syscallid.toInt
    · rw [if_pos hover]
      rcases ih (load (pidAddr base p) (readCounter base p syscallid k).1.mem)
        (readCounter base p syscallid k).1 hrest with ⟨hnone,heq⟩ | hlast
      · refine .inr ⟨p,List.mem_cons_self,hover,fun q hq hlt => ?_,heq⟩
        rcases List.mem_cons.mp hq with rfl | hq
        · exact absurd hlt (lt_irrefl _)
        · exact hnone q hq
      · obtain ⟨q,hq,hqover,hqlast,heq⟩ := hlast
        refine .inr ⟨q,List.mem_cons_of_mem _ hq,hqover,fun q' hq' hlt => ?_,heq⟩
        rcases List.mem_cons.mp hq' with rfl | hq'
        · exact absurd (hp q hq) (not_lt_of_gt hlt)
        · exact hqlast q' hq' hlt
    · rw [if_neg hover]
      rcases ih pid (readCounter base p syscallid k).1 hrest with ⟨hnone,heq⟩ | hlast
      · refine .inl ⟨fun q hq => ?_,heq⟩
        rcases List.mem_cons.mp hq with rfl | hq
        · exact not_lt.mp hover
        · exact hnone q hq
      · obtain ⟨q,hq,hqover,hqlast,heq⟩ := hlast
        refine .inr ⟨q,List.mem_cons_of_mem _ hq,hqover,fun q' hq' hlt => ?_,heq⟩
        rcases List.mem_cons.mp hq' with rfl | hq'
        · exact not_lt.mp hover
        · exact hqlast q' hq' hlt

theorem loop_start (base : Word) (k : Kernel) (hid : 0 ≤ syscallid.toInt) (hs : ps.Pairwise (· < ·)) :
    ((∀ p ∈ ps, countOf base syscallid k.mem p ≤ 0) ∧
      (mostCallerLoop base syscallid ps 0 0 k).2 = 0) ∨
    ∃ p ∈ ps, 0 < countOf base syscallid k.mem p ∧
      ((syscallid.toInt < countOf base syscallid k.mem p ∧
          ∀ q ∈ ps, p < q → countOf base syscallid k.mem q ≤ syscallid.toInt) ∨
        ((∀ q ∈ ps, countOf base syscallid k.mem q ≤ syscallid.toInt) ∧
          ∀ q ∈ ps, q < p → countOf base syscallid k.mem q ≤ 0)) ∧
      (mostCallerLoop base syscallid ps 0 0 k).2 = pidOf base k.mem p := by
  induction ps generalizing k with
  | nil => exact .inl ⟨fun _ h => absurd h List.not_mem_nil,rfl⟩
  | cons p ps ih =>
    obtain ⟨hp,hrest⟩ := List.pairwise_cons.mp hs
    have hzero : (0 : Word).toInt = 0 := by decide
    rw [mostCallerLoop]
    by_cases hpos : (readCounter base p syscallid k).2.toInt > (0 : Word).toInt
    · rw [if_pos hpos]
      have hpos' : 0 < countOf base syscallid k.mem p := by
        rw [← hzero]
        exact hpos
      have hfirst : ∀ q ∈ p::ps, q < p → countOf base syscallid k.mem q ≤ 0 := by
        intro q hq hlt
        rcases List.mem_cons.mp hq with rfl | hq
        · exact absurd hlt (lt_irrefl _)
        · exact absurd (hp q hq) (not_lt_of_gt hlt)
      rcases loop_over (load (pidAddr base p) (readCounter base p syscallid k).1.mem)
        (readCounter base p syscallid k).1
        hrest with ⟨hnone,heq⟩ | hlast
      · refine .inr ⟨p,List.mem_cons_self,hpos',?_,heq⟩
        by_cases hover : syscallid.toInt < countOf base syscallid k.mem p
        · refine .inl ⟨hover,fun q hq hlt => ?_⟩
          rcases List.mem_cons.mp hq with rfl | hq
          · exact absurd hlt (lt_irrefl _)
          · exact hnone q hq
        · refine .inr ⟨fun q hq => ?_,hfirst⟩
          rcases List.mem_cons.mp hq with rfl | hq
          · exact not_lt.mp hover
          · exact hnone q hq
      · obtain ⟨q,hq,hqover,hqlast,heq⟩ := hlast
        refine .inr ⟨q,List.mem_cons_of_mem _ hq,lt_of_le_of_lt hid hqover,
          .inl ⟨hqover,fun q' hq' hlt => ?_⟩,heq⟩
        rcases List.mem_cons.mp hq' with rfl | hq'
        · exact absurd (hp q hq) (not_lt_of_gt hlt)
        · exact hqlast q' hq' hlt
    · rw [if_neg hpos]
      have hle : countOf base syscallid k.mem p ≤ 0 := by
        rw [← hzero]
        exact not_lt.mp hpos
      rcases ih (k := (readCounter base p syscallid k).1) hrest with ⟨hnone,heq⟩ | hsome
      · refine .inl ⟨fun q hq => ?_,heq⟩
        rcases List.mem_cons.mp hq with rfl | hq
        · exact hle
        · exact hnone q hq
      · obtain ⟨q,hq,hqpos,hqcase,heq⟩ := hsome
        refine .inr ⟨q,List.mem_cons_of_mem _ hq,hqpos,?_,heq⟩
        rcases hqcase with ⟨hqover,hqlast⟩ | ⟨hqall,hqfirst⟩
        · refine .inl ⟨hqover,fun q' hq' hlt => ?_⟩
          rcases List.mem_cons.mp hq' with rfl | hq'
          · exact le_trans hle hid
          · exact hqlast q' hq' hlt
        · refine .inr ⟨fun q' hq' => ?_,fun q' hq' hlt => ?_⟩
          all_goals rcases List.mem_cons.mp hq' with rfl | hq'
          · exact le_trans hle hid
          · exact hqall q' hq'
          · exact hle
          · exact hqfirst q' hq' hlt

theorem most_caller_decides (base : Word) (k : Kernel) (hid : 0 ≤ syscallid.toInt) :
    ((∀ p, countOf base syscallid k.mem p ≤ 0) ∧ (getMostCaller base syscallid k).2 = 0) ∨
    ∃ p, Decides base syscallid k.mem p ∧ (getMostCaller base syscallid k).2 = pidOf base k.mem p := by
  have hs : slots.Pairwise (· < ·) := List.pairwise_lt_finRange NPROC
  rcases loop_start base k hid hs with ⟨hnone,heq⟩ | ⟨p,-,hpos,hcase,heq⟩
  · exact .inl ⟨fun p => hnone p (mem_slots p),heq⟩
  · refine .inr ⟨p,⟨hpos,?_⟩,heq⟩
    rcases hcase with ⟨hover,hlast⟩ | ⟨hall,hfirst⟩
    · exact .inl ⟨hover,fun q => hlast q (mem_slots q)⟩
    · exact .inr ⟨fun q => hall q (mem_slots q),fun q => hfirst q (mem_slots q)⟩

theorem decides_unique {m : Mem} {p q : Slot} (hp : Decides base syscallid m p)
    (hq : Decides base syscallid m q) :
    p = q := by
  rcases hp with ⟨hppos,⟨hpover,hplast⟩ | ⟨hpall,hpfirst⟩⟩
  · rcases hq with ⟨-,⟨hqover,hqlast⟩ | ⟨hqall,-⟩⟩
    · refine le_antisymm (not_lt.mp fun hlt => ?_) (not_lt.mp fun hlt => ?_)
      · exact absurd hpover (not_lt.mpr (hqlast p hlt))
      · exact absurd hqover (not_lt.mpr (hplast q hlt))
    · exact absurd hpover (not_lt.mpr (hqall p))
  · rcases hq with ⟨hqpos,⟨hqover,-⟩ | ⟨-,hqfirst⟩⟩
    · exact absurd hqover (not_lt.mpr (hpall q))
    · refine le_antisymm (not_lt.mp fun hlt => ?_) (not_lt.mp fun hlt => ?_)
      · exact absurd hqpos (not_lt.mpr (hpfirst q hlt))
      · exact absurd hppos (not_lt.mpr (hqfirst p hlt))

/-- Where no two slots have the same pid, but for 0, and those in use have one, a good slot is that
of the process with most calls, or has pid 0 if there is no call. -/
theorem good_slot_iff {m : Mem} {p : Slot} (hused : ∀ q, InUse base m q → pidOf base m q ≠ 0)
    (hpids : ∀ q r, pidOf base m q ≠ 0 → pidOf base m q = pidOf base m r → q = r) :
    GoodSlot base syscallid m p ↔
      (Called base syscallid m → Most base syscallid m p) ∧
      (¬Called base syscallid m → pidOf base m p = 0) := by
  refine and_congr_left fun _ => forall_congr' fun _ => ⟨?_,fun hp => ⟨hused p hp.1,p,hp,rfl⟩⟩
  rintro ⟨-,q,hq,heq⟩
  rwa [← hpids q p (hused q hq.1) heq]

/-- The result is right exactly when the slot that decides is a good one. -/
theorem most_caller_found_iff (base syscallid : Word) (hid : syscallid.toNat ≤ 99) (k : Kernel) :
    FindsMost base syscallid k ↔ ∀ p, Decides base syscallid k.mem p → GoodSlot base syscallid k.mem p := by
  have hnonneg : 0 ≤ syscallid.toInt := by
    rw [BitVec.toInt_eq_toNat_of_lt (by omega)]
    exact Int.natCast_nonneg _
  rcases most_caller_decides base k hnonneg with ⟨hnone,heq⟩ | ⟨p,hp,heq⟩
  · have hcalled : ¬Called base syscallid k.mem := fun ⟨q,_,hq⟩ => absurd hq (not_lt.mpr (hnone q))
    refine ⟨fun _ p hp => absurd hp.1 (not_lt.mpr (hnone p)),fun _ => ⟨fun hc => absurd hc hcalled,?_⟩⟩
    exact ⟨fun _ => hcalled,fun _ => heq⟩
  · rw [FindsMost, heq]
    constructor
    · rintro ⟨hmost,hzero⟩ q hq
      rw [← decides_unique hp hq]
      refine ⟨fun hc => ⟨fun h0 => hzero.mp h0 hc,?_⟩,hzero.mpr⟩
      obtain ⟨q,hq,hpid⟩ := hmost hc
      exact ⟨q,hq,hpid.symm⟩
    · intro hgood
      obtain ⟨hsome,hnone⟩ := hgood p hp
      refine ⟨fun hc => ?_,fun h0 hc => (hsome hc).1 h0,hnone⟩
      obtain ⟨-,q,hq,hpid⟩ := hsome hc
      exact ⟨q,hq,hpid.symm⟩

def twoCallers (a b : Word) : Mem :=
  store (procAddr 0x80110000 0 + 12) 3 <| store (pidAddr 0x80110000 0) 1 <|
  store (counterAddr 0x80110000 0 16) a <| store (procAddr 0x80110000 1 + 12) 4 <|
  store (pidAddr 0x80110000 1) 2 <| store (counterAddr 0x80110000 1 16) b <| fun _ => 0

theorem most_caller_of_one : (16 : Word).toNat ≤ 99 ∧ FindsMost 0x80110000 16 ⟨twoCallers 300 7,[],[]⟩ :=
  ⟨by decide,(most_caller_found_iff 0x80110000 16 (by decide) ⟨twoCallers 300 7,[],[]⟩).mpr
    (by decide +kernel)⟩

/-- The process with 20 calls is found where another has 300. -/
theorem most_caller_missed : ¬FindsMost 0x80110000 16 ⟨twoCallers 300 20,[],[]⟩ := by
  rintro ⟨hmost,-⟩
  have hcalled : Called 0x80110000 16 (twoCallers 300 20) := by decide +kernel
  have hfound : (getMostCaller 0x80110000 16 ⟨twoCallers 300 20,[],[]⟩).2 = 2 := by decide +kernel
  have hless : ∀ p, Most 0x80110000 16 (twoCallers 300 20) p →
    pidOf 0x80110000 (twoCallers 300 20) p ≠ 2 := by
    decide +kernel
  obtain ⟨p,hp,heq⟩ := hmost hcalled
  exact hless p hp (by rw [← heq]; exact hfound)

end Xv6.MostCaller

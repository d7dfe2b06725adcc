import Mathlib.Algebra.Group.Nat.Defs
import Xv6.ByteMemory
import Xv6.ProcTable

/-!
# System call dispatch and the call counters

`syscall()` counts a call in `counter[num]` before it looks at `num`, and
`getcallcount` and `getmostcaller` use their argument as an index as it is.
The array is the last field of `struct proc`, inside `ptable.proc`, so the
model works on the bytes of memory: an index outside 0..99 is the address of
something else. Besides memory it keeps the indices used and the lines that
`syscall()` prints. The other entries of `syscalls[]` are a parameter.
-/

set_option autoImplicit false

namespace Xv6.SyscallCount
open ByteMemory ProcTable

abbrev PROCSIZE : ℕ := 524

structure Line where
  pid : Word
  name : List (BitVec 8)
  num : Word
  deriving DecidableEq

structure Kernel where
  mem : Mem
  indices : List ℤ
  lines : List Line

/-- Here `base` is the address of `ptable.proc`. -/
def procAddr (base : Word) (p : Slot) : Word := base + BitVec.ofNat 32 (PROCSIZE*p.val)

section Fields
variable (base : Word) (p : Slot)

def szAddr : Word := procAddr base p
def pidAddr : Word := procAddr base p + 16
def tfAddr : Word := procAddr base p + 24
def nameAddr : Word := procAddr base p + 108
def counterAddr (i : Word) : Word := procAddr base p + 124 + 4*i

end Fields

/-- The fields `p->tf->eax` and `p->tf->esp` as addresses. -/
def eaxAddr (base : Word) (p : Slot) (m : Mem) : Word := load (tfAddr base p) m + 28

def espAddr (base : Word) (p : Slot) (m : Mem) : Word := load (tfAddr base p) m + 68

def readCounter (base : Word) (p : Slot) (i : Word) (k : Kernel) : Kernel × Word :=
  ({ k with indices := k.indices ++ [i.toInt] },load (counterAddr base p i) k.mem)

def writeCounter (base : Word) (p : Slot) (i v : Word) (k : Kernel) : Kernel :=
  { k with indices := k.indices ++ [i.toInt], mem := store (counterAddr base p i) v k.mem }

def fetchint (base : Word) (cur : Slot) (addr : Word) (m : Mem) : Option Word :=
  let sz := load (szAddr base cur) m
  if addr ≥ sz ∨ addr+4 > sz then none else some (load addr m)

def argint (base : Word) (cur : Slot) (n : Word) (m : Mem) : Option Word :=
  fetchint base cur (load (espAddr base cur m) m + 4 + 4*n) m

/-- The loop of `getMostCaller` over the slots that are left. -/
def mostCallerLoop (base syscallid : Word) : List Slot → Word → Word → Kernel → Kernel × Word
  | [], _, pid, k => (k,pid)
  | p::ps, mostCallerCnt, pid, k =>
    let r := readCounter base p syscallid k
    if r.2.toInt > mostCallerCnt.toInt then
      mostCallerLoop base syscallid ps syscallid (load (pidAddr base p) r.1.mem) r.1
    else mostCallerLoop base syscallid ps mostCallerCnt pid r.1

def getMostCaller (base syscallid : Word) (k : Kernel) : Kernel × Word :=
  mostCallerLoop base syscallid slots 0 0 k

def sysGetcallcount (base : Word) (cur : Slot) (k : Kernel) : Kernel × Word :=
  match argint base cur 0 k.mem with
  | none => (k,-1)
  | some syscallid => readCounter base cur syscallid k

def sysGetmostcaller (base : Word) (cur : Slot) (k : Kernel) : Kernel × Word :=
  match argint base cur 0 k.mem with
  | none => (k,-1)
  | some syscallid => getMostCaller base syscallid k

abbrev SYSGetcallcount : Word := 24
abbrev SYSGetmostcaller : Word := 25

/-- The value of `NELEM(syscalls)`; all entries but the first are set. -/
abbrev NSYSCALLS : ℕ := 27

def Known (num : Word) : Prop := num.toInt > 0 ∧ num.toNat < NSYSCALLS

instance (num : Word) : Decidable (Known num) := inferInstanceAs (Decidable (_ ∧ _))

section Dispatch
variable (other : Word → Mem → Mem × Word) (base : Word) (cur : Slot)

def call (num : Word) (k : Kernel) : Kernel × Word :=
  if num = SYSGetcallcount then sysGetcallcount base cur k
  else if num = SYSGetmostcaller then sysGetmostcaller base cur k
  else ({ k with mem := (other num k.mem).1 },(other num k.mem).2)

/-- The counter is read and written back before anything is checked. -/
def count (num : Word) (k : Kernel) : Kernel :=
  let r := readCounter base cur num k
  writeCounter base cur num (r.2+1) r.1

def setEax (v : Word) (k : Kernel) : Kernel :=
  { k with mem := store (eaxAddr base cur k.mem) v k.mem }

/-- The line for an unknown call, and its return value. -/
def unknownCall (num : Word) (k : Kernel) : Kernel :=
  setEax base cur (-1) { k with lines := k.lines ++
    [⟨load (pidAddr base cur) k.mem,
      (List.range 16).map (fun i => k.mem (nameAddr base cur + BitVec.ofNat 32 i)),num⟩] }

def syscall (k : Kernel) : Kernel :=
  let num := load (eaxAddr base cur k.mem) k.mem
  let k := count base cur num k
  if Known num then
    let r := call other base cur num k
    setEax base cur r.2 r.1
  else unknownCall base cur num k

end Dispatch

def InRange (i : ℤ) : Prop := 0 ≤ i ∧ i ≤ 99

/-- The layout the kernel is linked and set up with: the table does not wrap,
user memory ends below it, and the trap frame is elsewhere. -/
structure Placed (base : Word) (cur : Slot) (m : Mem) : Prop where
  table : base.toNat + PROCSIZE*NPROC ≤ 2^32
  user : (load (szAddr base cur) m).toNat ≤ base.toNat
  frame : (load (tfAddr base cur) m).toNat + 76 ≤ base.toNat ∨
    (base.toNat + PROCSIZE*NPROC ≤ (load (tfAddr base cur) m).toNat ∧
      (load (tfAddr base cur) m).toNat + 76 ≤ 2^32)

theorem most_caller_loop_indices (base i : Word) (ps : List Slot) (cnt pid : Word) (k : Kernel) :
    (mostCallerLoop base i ps cnt pid k).1.indices =
      k.indices ++ List.replicate ps.length i.toInt := by
  induction ps generalizing cnt pid k with
  | nil => simp [mostCallerLoop]
  | cons p ps ih =>
    simp only [mostCallerLoop]
    split <;> rw [ih] <;> simp [readCounter, List.replicate_succ]

theorem counter_addr_val {base : Word} (h : base.toNat + PROCSIZE*NPROC ≤ 2^32) (p : Slot)
    {i : Word} (hi : i.toNat ≤ 99) :
    (counterAddr base p i).toNat = base.toNat + PROCSIZE*p.val + 124 + 4*i.toNat := by
  have hp := p.isLt
  simp only [PROCSIZE, NPROC] at h hp ⊢
  have hproc : (procAddr base p).toNat = base.toNat + 524*p.val := by
    have hmod : (BitVec.ofNat 32 (PROCSIZE*p.val)).toNat = 524*p.val := by
      rw [BitVec.toNat_ofNat, Nat.mod_eq_of_lt]
      simp only [PROCSIZE]
      omega
    rw [procAddr, BitVec.toNat_add_of_lt, hmod]
    omega
  have hindex : (4*i).toNat = 4*i.toNat := by bv_omega
  have hcounter : (procAddr base p + 124).toNat = base.toNat + 524*p.val + 124 := by bv_omega
  rw [counterAddr, BitVec.toNat_add_of_lt, hcounter, hindex]
  omega

theorem counter_in_table {base : Word} (h : base.toNat + PROCSIZE*NPROC ≤ 2^32) (p : Slot)
    {i : Word} (hi : i.toNat ≤ 99) : base.toNat ≤ (counterAddr base p i).toNat ∧
      (counterAddr base p i).toNat + 4 ≤ base.toNat + PROCSIZE*NPROC := by
  have hp := p.isLt
  rw [counter_addr_val h p hi]
  simp only [PROCSIZE, NPROC] at hp ⊢
  omega

theorem table_apart {base : Word} (h : base.toNat + PROCSIZE*NPROC ≤ 2^32) (p : Slot)
    {i a : Word} (hi : i.toNat ≤ 99) (ha : a.toNat + 4 ≤ base.toNat ∨
      (base.toNat + PROCSIZE*NPROC ≤ a.toNat ∧ a.toNat + 4 ≤ 2^32)) :
    Apart (counterAddr base p i) a := by
  obtain ⟨h1,h2⟩ := counter_in_table h p hi
  generalize counterAddr base p i = c at h1 h2
  unfold Apart
  constructor <;> bv_omega

theorem field_apart (base : Word) (p : Slot) {i off : Word} (hi : i.toNat ≤ 99)
    (hoff : off.toNat ≤ 120) : Apart (counterAddr base p i) (procAddr base p + off) := by
  unfold Apart counterAddr
  constructor <;> bv_omega

section Count
variable {base : Word} {cur : Slot} {m : Mem} {i v : Word}

theorem tf_kept (hi : i.toNat ≤ 99) :
    load (tfAddr base cur) (store (counterAddr base cur i) v m) = load (tfAddr base cur) m :=
  load_store_apart (field_apart base cur hi (by decide)) v m

theorem sz_kept (hi : i.toNat ≤ 99) :
    load (szAddr base cur) (store (counterAddr base cur i) v m) = load (szAddr base cur) m := by
  have hsz : szAddr base cur = procAddr base cur + 0 := by simp [szAddr]
  rw [hsz]
  exact load_store_apart (field_apart base cur hi (by decide)) v m

theorem fetchint_kept (h : Placed base cur m) (hi : i.toNat ≤ 99) (addr : Word) :
    fetchint base cur addr (store (counterAddr base cur i) v m) = fetchint base cur addr m := by
  unfold fetchint
  simp only [sz_kept hi]
  split_ifs with hin
  · rfl
  · have hu := h.user
    have ht := h.table
    simp only [PROCSIZE, NPROC] at ht
    generalize load (szAddr base cur) m = sz at hin hu
    rw [load_store_apart (table_apart h.table cur hi (.inl (by bv_omega))) v m]

theorem argint_kept (h : Placed base cur m) (hi : i.toNat ≤ 99) (n : Word) :
    argint base cur n (store (counterAddr base cur i) v m) = argint base cur n m := by
  have hesp : load (espAddr base cur (store (counterAddr base cur i) v m))
      (store (counterAddr base cur i) v m) = load (espAddr base cur m) m := by
    have hf := h.frame
    have ht := h.table
    unfold espAddr
    rw [tf_kept hi]
    generalize load (tfAddr base cur) m = tf at hf
    refine load_store_apart (table_apart h.table cur hi ?_) v m
    rcases hf with hf | hf
    · exact .inl (by bv_omega)
    · exact .inr (by constructor <;> bv_omega)
  unfold argint
  rw [hesp, fetchint_kept h hi]

end Count

theorem in_range_val {i : Word} (h : InRange i.toInt) : i.toNat ≤ 99 := by
  obtain ⟨h0,h1⟩ := h
  rw [BitVec.toInt_eq_toNat_cond] at h0 h1
  split at h0 <;> omega

section Syscall
variable (other : Word → Mem → Mem × Word) (base : Word) (cur : Slot) (m : Mem)

theorem call_indices (num : Word) (k : Kernel) (x : ℤ) :
    x ∈ (call other base cur num k).1.indices ↔ x ∈ k.indices ∨
      ((num = SYSGetcallcount ∨ num = SYSGetmostcaller) ∧
        ∃ a, argint base cur 0 k.mem = some a ∧ x = a.toInt) := by
  unfold call
  split
  · rename_i hnum
    unfold sysGetcallcount
    cases harg : argint base cur 0 k.mem with
    | none => simp
    | some a => simp [hnum, readCounter]
  · split
    · rename_i hnum
      unfold sysGetmostcaller
      cases harg : argint base cur 0 k.mem with
      | none => simp
      | some a => simp [hnum, getMostCaller, most_caller_loop_indices, slots]
    · rename_i h1 h2
      have hnot : ¬ (num = SYSGetcallcount ∨ num = SYSGetmostcaller) := by tauto
      simp only [hnot, false_and, or_false]

theorem syscall_indices (x : ℤ) :
    x ∈ (syscall other base cur ⟨m,[],[]⟩).indices ↔
      x = (load (eaxAddr base cur m) m).toInt ∨
      ((load (eaxAddr base cur m) m = SYSGetcallcount ∨
          load (eaxAddr base cur m) m = SYSGetmostcaller) ∧
        ∃ a, argint base cur 0
          (count base cur (load (eaxAddr base cur m) m) ⟨m,[],[]⟩).mem = some a ∧
          x = a.toInt) := by
  unfold syscall
  generalize load (eaxAddr base cur m) m = num
  have hcount : x ∈ (count base cur num ⟨m,[],[]⟩).indices ↔ x = num.toInt := by
    simp [count, readCounter, writeCounter]
  by_cases hk : Known num
  · simp only [hk, if_true, setEax, call_indices, hcount]
  · have hnum : ¬ (num = SYSGetcallcount ∨ num = SYSGetmostcaller) := by
      rintro (rfl | rfl) <;> exact hk (by decide)
    simp only [hk, if_false, unknownCall, setEax, hcount, hnum, false_and, or_false]

theorem unknown_frame {num : Word} (hi : num.toNat ≤ 99) :
    load (eaxAddr base cur m) (unknownCall base cur num (count base cur num ⟨m,[],[]⟩)).mem = -1 ∧
    ∀ x, ¬ InWord (eaxAddr base cur m) x → ¬ InWord (counterAddr base cur num) x →
      (unknownCall base cur num (count base cur num ⟨m,[],[]⟩)).mem x = m x := by
  have heax : eaxAddr base cur (count base cur num ⟨m,[],[]⟩).mem = eaxAddr base cur m := by
    unfold eaxAddr
    exact congrArg (· + 28) (tf_kept hi)
  simp only [unknownCall, setEax, heax]
  constructor
  · exact load_store_self _ _ _
  · intro x hx hx'
    rw [store_frame hx]
    exact store_frame hx' _ m

end Syscall

/-- A system call keeps to the counters exactly if its number is in 0..99
and, where it takes an index for its argument, that is too. -/
theorem counter_indices_iff (other : Word → Mem → Mem × Word) (base : Word) (cur : Slot)
    (m : Mem) (h : Placed base cur m) :
    ((∀ i ∈ (syscall other base cur ⟨m,[],[]⟩).indices, InRange i) ∧
      (¬ Known (load (eaxAddr base cur m) m) →
        load (eaxAddr base cur m) (syscall other base cur ⟨m,[],[]⟩).mem = -1 ∧
        ∃ i : Word, i.toNat ≤ 99 ∧ ∀ x, ¬ InWord (eaxAddr base cur m) x →
          ¬ InWord (counterAddr base cur i) x →
          (syscall other base cur ⟨m,[],[]⟩).mem x = m x)) ↔
    (InRange (load (eaxAddr base cur m) m).toInt ∧
      (load (eaxAddr base cur m) m = SYSGetcallcount ∨
          load (eaxAddr base cur m) m = SYSGetmostcaller →
        ∀ a, argint base cur 0 m = some a → InRange a.toInt)) := by
  have hmem := syscall_indices other base cur m
  have hcall : ∀ num, num.toNat ≤ 99 →
      argint base cur 0 (count base cur num ⟨m,[],[]⟩).mem = argint base cur 0 m :=
    fun num hi => argint_kept h hi 0
  constructor
  · rintro ⟨hin,-⟩
    have hnum := hin _ ((hmem _).mpr (.inl rfl))
    refine ⟨hnum,fun hargs a ha => hin _ ((hmem _).mpr (.inr ⟨hargs,a,?_,rfl⟩))⟩
    rw [hcall _ (in_range_val hnum), ha]
  · rintro ⟨hnum,hargs⟩
    have hi := in_range_val hnum
    constructor
    · intro i hmi
      rcases (hmem i).mp hmi with rfl | ⟨hcalls,a,ha,rfl⟩
      · exact hnum
      · rw [hcall _ hi] at ha
        exact hargs hcalls a ha
    · intro hunknown
      obtain ⟨heax,hframe⟩ := unknown_frame base cur m hi
      simp only [syscall, if_neg hunknown]
      exact ⟨heax,_,hi,hframe⟩

def callMem (eax arg : Word) : Mem :=
  store (szAddr 0x80110000 0) 0x1000 <| store (tfAddr 0x80110000 0) 0x8dfff000 <|
  store 0x8dfff01c eax <| store 0x8dfff044 0xf00 <| store 0xf04 arg <| fun _ => 0

/-- Call number 100 counts in the `sz` of the next slot, and -27 in the
caller's pid. -/
theorem counter_index_escapes :
    Placed 0x80110000 0 (callMem 100 0) ∧
    100 ∈ (syscall (fun _ m => (m,0)) 0x80110000 0 ⟨callMem 100 0,[],[]⟩).indices ∧
    load (szAddr 0x80110000 1) (callMem 100 0) = 0 ∧
    load (szAddr 0x80110000 1)
      (syscall (fun _ m => (m,0)) 0x80110000 0 ⟨callMem 100 0,[],[]⟩).mem = 1 ∧
    Placed 0x80110000 0 (callMem (-27) 0) ∧
    -27 ∈ (syscall (fun _ m => (m,0)) 0x80110000 0 ⟨callMem (-27) 0,[],[]⟩).indices ∧
    load (pidAddr 0x80110000 0) (callMem (-27) 0) = 0 ∧
    load (pidAddr 0x80110000 0)
      (syscall (fun _ m => (m,0)) 0x80110000 0 ⟨callMem (-27) 0,[],[]⟩).mem = 1 := by
  refine ⟨⟨?_,?_,?_⟩,?_,?_,?_,⟨?_,?_,?_⟩,?_,?_,?_⟩ <;> decide +kernel

theorem counter_indices_iff_getcallcount :
    Placed 0x80110000 0 (callMem 24 6) ∧
    (∀ i ∈ (syscall (fun _ m => (m,0)) 0x80110000 0 ⟨callMem 24 6,[],[]⟩).indices, InRange i) := by
  have hplaced : Placed 0x80110000 0 (callMem 24 6) := by
    refine ⟨?_,?_,?_⟩ <;> decide +kernel
  have heax : load (eaxAddr 0x80110000 0 (callMem 24 6)) (callMem 24 6) = 24 := by decide +kernel
  have harg : argint 0x80110000 0 0 (callMem 24 6) = some 6 := by decide +kernel
  refine ⟨hplaced,((counter_indices_iff _ _ _ _ hplaced).mpr ⟨?_,fun _ a ha => ?_⟩).1⟩
  · rw [heax]; unfold InRange; decide
  · rw [harg] at ha
    cases ha
    unfold InRange
    decide

end Xv6.SyscallCount

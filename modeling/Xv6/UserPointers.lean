import Xv6.SyscallCount

/-!
# Pointers from user space

`fetchstr`, `argptr` and `argstr` next to `fetchint` and `argint`, and the beginnings of
`sys_read` and `sys_write` up to the call of `fileread` or `filewrite`. All sums are of 32 bits.
-/

set_option autoImplicit false

namespace Xv6.UserPointers
open ByteMemory ProcTable SyscallCount

abbrev KERNBASE : ℕ := 0x80000000
abbrev NOFILE : ℕ := 16

section Code
variable (base : Word) (cur : Slot)

def procSize (m : Mem) : Word := load (szAddr base cur) m

/-- The loop of `fetchstr`: the place of the NUL. -/
def findNul (ep : Word) (m : Mem) (s : Word) : Option Word :=
  if h : s < ep then
    if m s = 0 then some s else findNul ep m (s+1)
  else none
termination_by ep.toNat-s.toNat
decreasing_by bv_omega

/-- The pointer `*pp` and what is returned. -/
def fetchstr (addr : Word) (m : Mem) : Option (Word × Word) :=
  if addr ≥ procSize base cur m then none
  else (findNul (procSize base cur m) m addr).map fun s => (addr,s-addr)

def argptr (n size : Word) (m : Mem) : Option Word :=
  match argint base cur n m with
  | none => none
  | some i =>
    if size.toInt < 0 ∨ i ≥ procSize base cur m ∨ i+size > procSize base cur m then none else some i

def argstr (n : Word) (m : Mem) : Option (Word × Word) :=
  match argint base cur n m with
  | none => none
  | some addr => fetchstr base cur addr m

def ofileAddr (fd : Word) : Word := procAddr base cur + 40 + 4*fd

def argfd (n : Word) (m : Mem) : Option Word :=
  match argint base cur n m with
  | none => none
  | some fd =>
    if fd.toInt < 0 ∨ fd.toInt ≥ NOFILE ∨ load (ofileAddr base cur fd) m = 0 then none
    else some (load (ofileAddr base cur fd) m)

structure FileCall where
  f : Word
  addr : Word
  n : Word
  deriving DecidableEq

/-- What a call on a file and a buffer passes on; otherwise it returns -1. -/
def fileArgs (m : Mem) : Option FileCall :=
  match argfd base cur 0 m with
  | none => none
  | some f =>
    match argint base cur 2 m with
    | none => none
    | some n =>
      match argptr base cur 1 n m with
      | none => none
      | some p => some ⟨f,p,n⟩

def sysRead (m : Mem) : Option FileCall := fileArgs base cur m

def sysWrite (m : Mem) : Option FileCall := fileArgs base cur m

end Code

/-- The `k` bytes from `p` on are below `sz`, and no address among them wraps. -/
def Inside (sz p : Word) (k : ℕ) : Prop :=
  ∀ j < k, (p+BitVec.ofNat 32 j).toNat = p.toNat+j ∧ p.toNat+j < sz.toNat

/-- The string from `p` on has the length `len`. -/
def FirstNul (m : Mem) (p len : Word) : Prop := m (p+len) = 0 ∧ ∀ j < len.toNat, m (p+BitVec.ofNat 32 j) ≠ 0

section Checks
variable {base : Word} {cur : Slot} {m : Mem} {sz p n v addr : Word}

theorem inside_of_le {k : ℕ} (h : p.toNat+k ≤ sz.toNat) : Inside sz p k := fun j hj => by
  have hsz := sz.isLt
  refine ⟨?_,by omega⟩
  rw [BitVec.toNat_add, BitVec.toNat_ofNat]
  omega

theorem fetchint_inside (hsz : (procSize base cur m).toNat < KERNBASE)
    (h : fetchint base cur addr m = some v) :
    Inside (procSize base cur m) addr 4 := by
  simp only [fetchint] at h
  split at h
  · cases h
  · rename_i hno
    rw [← procSize] at hno
    simp only [KERNBASE] at hsz
    exact inside_of_le (by bv_omega)

theorem argint_inside (hsz : (procSize base cur m).toNat < KERNBASE) (h : argint base cur n m = some v) :
    Inside (procSize base cur m) (load (espAddr base cur m) m+4+4*n) 4 := fetchint_inside hsz h

theorem argptr_inside {size : Word} (hsz : (procSize base cur m).toNat < KERNBASE)
    (h : argptr base cur n size m = some p) :
    0 ≤ size.toInt ∧ Inside (procSize base cur m) p size.toNat := by
  rw [argptr] at h
  split at h
  · cases h
  · split at h
    · cases h
    · rename_i hno
      cases h
      simp only [not_or, not_lt] at hno
      obtain ⟨hpos,hlow,hhigh⟩ := hno
      have hsize : size.toNat < KERNBASE := by
        have hint := BitVec.toInt_eq_toNat_cond size
        have hlt := size.isLt
        simp only [KERNBASE]
        split at hint <;> omega
      simp only [KERNBASE] at hsz hsize
      exact ⟨hpos,inside_of_le (by bv_omega)⟩

theorem findNul_first {ep s t : Word} (h : findNul ep m s = some t) :
    s.toNat ≤ t.toNat ∧ t.toNat < ep.toNat ∧ m t = 0 ∧
      ∀ j, j < t.toNat-s.toNat → m (s+BitVec.ofNat 32 j) ≠ 0 := by
  fun_induction findNul ep m s with
  | case1 s hs hnul =>
    cases h
    exact ⟨le_refl _,hs,hnul,fun j hj => by omega⟩
  | case2 s hs hnul ih =>
    obtain ⟨hle,hlt,ht,hfirst⟩ := ih h
    have hnext : (s+1).toNat = s.toNat+1 := by bv_omega
    refine ⟨by omega,hlt,ht,fun j hj => ?_⟩
    cases j with
    | zero =>
      rw [BitVec.add_zero]
      exact hnul
    | succ j =>
      have heq : s+BitVec.ofNat 32 (j+1) = s+1+BitVec.ofNat 32 j := by bv_omega
      rw [heq]
      exact hfirst j (by omega)
  | case3 s hs => cases h

theorem fetchstr_inside {len : Word} (h : fetchstr base cur addr m = some (p,len)) :
    p = addr ∧ Inside (procSize base cur m) p (len.toNat+1) ∧ FirstNul m p len := by
  rw [fetchstr] at h
  split at h
  · cases h
  · obtain ⟨t,ht,heq⟩ := Option.map_eq_some_iff.mp h
    cases heq
    obtain ⟨hle,hlt,hnul,hfirst⟩ := findNul_first ht
    have hlen : (t-p).toNat = t.toNat-p.toNat := by bv_omega
    have hend : p+(t-p) = t := by bv_omega
    refine ⟨rfl,inside_of_le (by omega),by rw [hend]; exact hnul,fun j hj => hfirst j (by omega)⟩

theorem argstr_inside {len : Word} (h : argstr base cur n m = some (p,len)) :
    Inside (procSize base cur m) p (len.toNat+1) ∧ FirstNul m p len := by
  rw [argstr] at h
  split at h
  · cases h
  · exact (fetchstr_inside h).2

theorem fileArgs_inside {c : FileCall} (hsz : (procSize base cur m).toNat < KERNBASE)
    (h : fileArgs base cur m = some c) :
    0 ≤ c.n.toInt ∧ Inside (procSize base cur m) c.addr c.n.toNat := by
  rw [fileArgs] at h
  split at h
  · cases h
  split at h
  · cases h
  split at h
  · cases h
  rename_i hp
  cases h
  exact argptr_inside hsz hp

end Checks

/-- Every address that a user passes and the checks let through is in the process. -/
theorem user_pointers_confined (base : Word) (cur : Slot) (m : Mem)
    (hsz : (procSize base cur m).toNat < KERNBASE) :
    (∀ addr v, fetchint base cur addr m = some v → Inside (procSize base cur m) addr 4) ∧
    (∀ n v, argint base cur n m = some v →
      Inside (procSize base cur m) (load (espAddr base cur m) m+4+4*n) 4) ∧
    (∀ n size p, argptr base cur n size m = some p →
    0 ≤ size.toInt ∧ Inside (procSize base cur m) p size.toNat) ∧
    (∀ addr p len, fetchstr base cur addr m = some (p,len) →
      p = addr ∧ Inside (procSize base cur m) p (len.toNat+1) ∧ FirstNul m p len) ∧
    (∀ n p len, argstr base cur n m = some (p,len) →
      Inside (procSize base cur m) p (len.toNat+1) ∧ FirstNul m p len) ∧
    (∀ c, sysRead base cur m = some c → 0 ≤ c.n.toInt ∧ Inside (procSize base cur m) c.addr c.n.toNat) ∧
    ∀ c, sysWrite base cur m = some c → 0 ≤ c.n.toInt ∧ Inside (procSize base cur m) c.addr c.n.toNat :=
  ⟨fun _ _ => fetchint_inside hsz,fun _ _ => argint_inside hsz,fun _ _ _ => argptr_inside hsz,
    fun _ _ _ => fetchstr_inside,fun _ _ _ => argstr_inside,fun _ => fileArgs_inside hsz,fun _ =>
    fileArgs_inside hsz⟩

def readMem : Mem :=
  store (szAddr 0x80110000 0) 0x1000 <| store (tfAddr 0x80110000 0) 0x8dfff000 <|
  store 0x8dfff044 0xf00 <| store
    (ofileAddr 0x80110000 0 0) 0x80120000 <| store 0xf08 0x100 <| store 0xf0c 16 <| fun _ => 0

theorem user_pointers_confined_read : sysRead 0x80110000 0 readMem = some ⟨0x80120000,0x100,16⟩ ∧
    Inside 0x1000 0x100 16 := by
  have hsz : procSize 0x80110000 0 readMem = 0x1000 := by decide +kernel
  have hcall : sysRead 0x80110000 0 readMem = some ⟨0x80120000,0x100,16⟩ := by decide +kernel
  have hmain := (user_pointers_confined 0x80110000 0 readMem (by rw [hsz]; decide)).2.2.2.2.2.1 _ hcall
  rw [hsz] at hmain
  exact ⟨hcall,hmain.2⟩

end Xv6.UserPointers

import Xv6.VmCode
import Xv6.HeapRegions

/-!
# Programs on pages of their own

A program on memory is looked at by itself: it has a heap of pages that no one else uses,
`kalloc` adds a page with any words or fails, and `kfree` takes one away. Every other page
is out of reach.
-/

set_option autoImplicit false

namespace Xv6.VmHeap
open CommandTree HeapRegions VmCode ByteFields
open Function

abbrev PageHeap := Heap ℕ Words

/-- What may happen to a program: panics, and that `kalloc` fails with the pages at hand. -/
structure Terms where
  panic : Panic → Prop
  fail : PageHeap → Prop

/-- No panic, and `kalloc` fails where it will. -/
def calm : Terms := ⟨fun _ => False,fun _ => True⟩

/-- What holds behind a command, whatever `kalloc` returns. -/
def Steps (lay : Layout) (A : Terms) : (c : Mem) → (Mem.Reply c → PageHeap → Prop) → PageHeap → Prop
  | .kalloc, R, h => (A.fail h → R (0 : ℕ) h) ∧
      ∀ v x, v ≠ 0 → h v = none → Page lay v → R v (update h v (some x))
  | .kfree v, R, h => ∃ x, h v = some x ∧ R () (update h v none)
  | .word v i, R, h => ∃ x, h v = some x ∧ R (x i) h
  | .null, _, _ => A.panic .null
  | .setWord v i y, R, h => ∃ x, h v = some x ∧ R () (update h v (some (update x i y)))
  | .clear v, R, h => ∃ x, h v = some x ∧ R () (update h v (some fun _ => 0))
  | .copy v src, R, h => ∃ x y, h v = some x ∧ h src = some y ∧ R () (update h v (some y))
  | .patch v o xs, R, h => ∃ x, h v = some x ∧ R () (update h v (some (ofBytes (paste (toBytes x) o xs))))
  | .panic msg, _, _ => A.panic msg

/-- What holds of the result and the pages of a program. -/
def Does (lay : Layout) (A : Terms) {α : Type} : MemProg α → (α → PageHeap → Prop) → PageHeap → Prop
  | .ret a, Q, h => Q a h
  | .call c next, Q, h => Steps lay A c (fun r => Does lay A (next r) Q) h

section Does
variable {lay : Layout} {A A' : Terms} {α β : Type} {m : MemProg α} {f : α → MemProg β}
  {Q Q' : α → PageHeap → Prop} {h : PageHeap} {v : ℕ} {x : Words} {i : Index}

theorem steps_mono {c : Mem} {R R' : Mem.Reply c → PageHeap → Prop} (hs : Steps lay A c R h)
    (hR : ∀ r h', R r h' → R' r h') (hp : ∀ msg, A.panic msg → A'.panic msg)
    (hf : ∀ g, A'.fail g → A.fail g) :
    Steps lay A' c R' h := by
  cases c with
  | kalloc =>
    exact ⟨fun h0 => hR _ _ (hs.1 (hf h h0)),fun v x hv hnone hpage => hR _ _ (hs.2 v x hv hnone hpage)⟩
  | null => exact hp _ hs
  | panic msg => exact hp _ hs
  | copy v src =>
    obtain ⟨x,y,hx,hy,hr⟩ := hs
    exact ⟨x,y,hx,hy,hR _ _ hr⟩
  | _ =>
    obtain ⟨x,hx,hr⟩ := hs
    exact ⟨x,hx,hR _ _ hr⟩

theorem does_weaken (hm : Does lay A m Q h) (hQ : ∀ a h', Q a h' → Q' a h')
    (hp : ∀ msg, A.panic msg → A'.panic msg)
    (hf : ∀ g, A'.fail g → A.fail g) : Does lay A' m Q' h := by
  induction m generalizing h with
  | ret a => exact hQ a h hm
  | call c next ih => exact steps_mono hm (fun r h' hr => ih r hr) hp hf

theorem does_ret {a : α} : Does lay A (.ret a) Q h ↔ Q a h := Iff.rfl

theorem does_call {c : Mem} {next : Mem.Reply c → MemProg α} :
    Does lay A (.call c next) Q h ↔ Steps lay A c (fun r => Does lay A (next r) Q) h := Iff.rfl

theorem does_pure {a : α} (hQ : Q a h) : Does lay A (pure a) Q h := hQ

theorem does_mono (hm : Does lay A m Q h) (hQ : ∀ a h', Q a h' → Q' a h') : Does lay A m Q' h :=
  does_weaken hm hQ (fun _ => id) fun _ => id

theorem does_bind {R : β → PageHeap → Prop} (hm : Does lay A m (fun a h' => Does lay A (f a) R h') h) :
    Does lay A (m >>= f) R h := by
  induction m generalizing h with
  | ret a => exact hm
  | call c next ih => exact steps_mono (A := A) hm (fun r h' hr => ih r hr) (fun _ => id) fun _ => id

theorem does_seq {R : β → PageHeap → Prop} (hm : Does lay A m Q h)
    (hf : ∀ a h', Q a h' → Does lay A (f a) R h') : Does lay A (m >>= f) R h :=
  does_bind (does_mono hm hf)

theorem does_panic {msg : Panic} (hA : A.panic msg) : Does lay A (panic msg : MemProg α) Q h := hA

theorem does_null {Q : ℕ → PageHeap → Prop} (hA : A.panic .null) : Does lay A null Q h := hA

theorem does_kalloc {Q : ℕ → PageHeap → Prop} (hnone : A.fail h → Q 0 h)
    (hsome : ∀ v x, v ≠ 0 → h v = none → Page lay v → Q v (update h v (some x))) :
    Does lay A kalloc Q h := ⟨hnone,hsome⟩

theorem does_word {Q : ℕ → PageHeap → Prop} (hv : h v = some x) (hQ : Q (x i) h) :
    Does lay A (word v i) Q h :=
  ⟨x,hv,hQ⟩

theorem does_kfree {Q : Unit → PageHeap → Prop} (hv : h v = some x) (hQ : Q () (update h v none)) :
    Does lay A (kfree v) Q h := ⟨x,hv,hQ⟩

theorem does_setWord {Q : Unit → PageHeap → Prop} {y : ℕ} (hv : h v = some x)
    (hQ : Q () (update h v (some (update x i y)))) : Does lay A (setWord v i y) Q h := ⟨x,hv,hQ⟩

theorem does_clear {Q : Unit → PageHeap → Prop} (hv : h v = some x)
    (hQ : Q () (update h v (some fun _ => 0))) : Does lay A (clear v) Q h := ⟨x,hv,hQ⟩

theorem does_patch {Q : Unit → PageHeap → Prop} {o : ℕ} {xs : List UInt8} (hv : h v = some x)
    (hQ : Q () (update h v (some (ofBytes (paste (toBytes x) o xs))))) :
    Does lay A (patch v o xs) Q h := ⟨x,hv,hQ⟩

theorem does_copy {Q : Unit → PageHeap → Prop} {src : ℕ} {y : Words} (hv : h v = some x)
    (hsrc : h src = some y)
    (hQ : Q () (update h v (some y))) : Does lay A (copy v src) Q h := ⟨x,y,hv,hsrc,hQ⟩

end Does

/-- A region of at most `k` pages. -/
def AtMost (k : ℕ) (R : ℕ → Prop) : Prop := ∃ l : List ℕ, l.length ≤ k ∧ ∀ v, R v → v ∈ l

/-- Work on a region has come to a `kalloc` that fails, with at most `k` pages taken. -/
def Scarce (A : Terms) (h : PageHeap) (R : ℕ → Prop) (k : ℕ) : Prop :=
  ∃ g R', A.fail g ∧ Moves h R g R' ∧ AtMost k R'

section Scarce
variable {A : Terms} {h h' : PageHeap} {R R' : ℕ → Prop} {k k' v : ℕ}

theorem atMost_cons (hR : AtMost k R) : AtMost (k+1) (fun u => R u ∨ u = v) := by
  obtain ⟨l,hl,hmem⟩ := hR
  refine ⟨v::l,Nat.succ_le_succ hl,fun u hu => List.mem_cons.mpr ?_⟩
  exact hu.symm.imp id (hmem u)

theorem scarce_mono (hs : Scarce A h R k) (hk : k ≤ k') : Scarce A h R k' := by
  obtain ⟨g,R1,hfail,hmove,l,hl,hmem⟩ := hs
  exact ⟨g,R1,hfail,hmove,l,Nat.le_trans hl hk,hmem⟩

theorem scarce_trans (hm : Moves h R h' R') (hs : Scarce A h' R' k) : Scarce A h R k := by
  obtain ⟨g,R1,hfail,hmove,hsmall⟩ := hs
  exact ⟨g,R1,hfail,moves_trans hm hmove,hsmall⟩

end Scarce

attribute [irreducible] Does

theorem has_p (x : ℕ) : has x PTE_P = decide (x%2 = 1) := by
  rw [has, PTE_P, Nat.and_one_is_mod]
  rcases Nat.mod_two_eq_zero_or_one x with h | h <;> simp [h]

theorem has_u (x : ℕ) : has x PTE_U = decide (x/4%2 = 1) := by
  have h : x &&& PTE_U = (x.testBit 2).toNat*4 := Nat.and_two_pow x 2
  rw [has, h, Nat.testBit_eq_decide_div_mod_eq]
  rcases Nat.mod_two_eq_zero_or_one (x/4) with h4 | h4 <;> simp [h4]

theorem clear_u_eq (x : ℕ) : clearU x = x-4*(x/4%2) := by
  have h : x &&& PTE_U = (x.testBit 2).toNat*4 := Nat.and_two_pow x 2
  rw [clearU, h, Nat.testBit_eq_decide_div_mod_eq]
  rcases Nat.mod_two_eq_zero_or_one (x/4) with h4 | h4 <;> simp [h4]

def frame (x : ℕ) : ℕ := P2V (PTE_ADDR x)

theorem frame_eq (x : ℕ) : frame x = P2V (PTE_ADDR x) := rfl

attribute [irreducible] frame

theorem clear_u_entry (x : ℕ) : frame (clearU x) = frame x ∧ has (clearU x) PTE_P = has x PTE_P ∧
    has (clearU x) PTE_U = false := by
  rw [clear_u_eq, has_p, has_p, has_u, frame_eq, frame_eq, PTE_ADDR, PTE_ADDR]
  refine ⟨?_,?_,?_⟩
  · have : (x-4*(x/4%2))/PGSIZE = x/PGSIZE := by
      simp only [PGSIZE]
      omega
    rw [this]
  · have : (x-4*(x/4%2))%2 = x%2 := by omega
    rw [this]
  · rw [decide_eq_false_iff_not]
    omega

theorem or_page {pa p : ℕ} (hpa : pa%PGSIZE = 0) (hp : p < PGSIZE) : pa ||| p = pa+p := by
  have h := Nat.two_pow_add_eq_or_of_lt (i := 12) hp (pa/PGSIZE)
  have hmul : 2^12*(pa/PGSIZE) = pa := by
    have : (2 : ℕ)^12 = 4096 := by decide
    rw [this]
    simp only [PGSIZE] at hpa ⊢
    omega
  rw [hmul] at h
  exact h.symm

theorem entry_facts {pa perm : ℕ} (hpa : pa%PGSIZE = 0) (hperm : perm < PGSIZE) :
    has (pa ||| perm ||| PTE_P) PTE_P = true ∧ PTE_ADDR (pa ||| perm ||| PTE_P) = pa ∧
      has (pa ||| perm ||| PTE_P) PTE_U = has perm PTE_U := by
  have hlt : perm ||| PTE_P < PGSIZE := Nat.or_lt_two_pow (n := 12) hperm (by decide)
  have hodd : (perm ||| PTE_P)%2 = 1 := by simp
  have huser : has (perm ||| PTE_P) PTE_U = has perm PTE_U := by
    have h := Nat.testBit_or perm PTE_P 2
    have h1 : PTE_P.testBit 2 = false := by decide
    rw [h1, Bool.or_false, Nat.testBit_eq_decide_div_mod_eq, Nat.testBit_eq_decide_div_mod_eq] at h
    rw [has_u, has_u]
    exact h
  rw [Nat.or_assoc, or_page hpa hlt]
  simp only [PGSIZE] at hpa hlt
  refine ⟨?_,?_,?_⟩
  · rw [has_p, decide_eq_true_eq]
    omega
  · simp only [PTE_ADDR, PGSIZE]
    omega
  · rw [← huser, has_u, has_u]
    have : (pa+(perm ||| PTE_P))/4%2 = (perm ||| PTE_P)/4%2 := by omega
    rw [this]

theorem table_entry_eq (v : ℕ) : V2P v ||| PTE_P ||| PTE_W ||| PTE_U = V2P v ||| 6 ||| PTE_P := by
  have h : PTE_P ||| (PTE_W ||| PTE_U) = 6 ||| PTE_P := by decide
  rw [Nat.or_assoc, Nat.or_assoc, h, ← Nat.or_assoc]

section Page
variable {lay : Layout} {v : ℕ}

theorem page_pos (hv : Page lay v) : KERNBASE < v := by
  have hlow := lay.data_low
  have hdata := lay.data_stop
  have hstop := hv.2.1
  simp only [KERNLINK, EXTMEM] at hlow
  omega

theorem page_v2p (hv : Page lay v) : V2P v = v-KERNBASE := by
  have hpos := page_pos hv
  have hhigh := hv.2.2
  simp only [V2P, KERNBASE, PHYSTOP, WORD] at hpos hhigh ⊢
  omega

theorem page_frame {perm : ℕ} (hv : Page lay v) (hperm : perm < PGSIZE) :
    has (V2P v ||| perm ||| PTE_P) PTE_P = true ∧ frame (V2P v ||| perm ||| PTE_P) = v ∧
      has (V2P v ||| perm ||| PTE_P) PTE_U = has perm PTE_U := by
  have hpos := page_pos hv
  have hpa : V2P v%PGSIZE = 0 := by
    have := hv.1
    rw [page_v2p hv]
    simp only [PGSIZE, KERNBASE] at this ⊢
    omega
  obtain ⟨h1,h2,h3⟩ := entry_facts hpa hperm
  refine ⟨h1,?_,h3⟩
  have hhigh := hv.2.2
  rw [frame_eq, h2, page_v2p hv]
  simp only [P2V, KERNBASE, PHYSTOP, WORD] at hpos hhigh ⊢
  omega

theorem page_flags {x : ℕ} (hv : Page lay v) (hx : has x PTE_P = true) :
    PTE_FLAGS (V2P v ||| PTE_FLAGS x ||| PTE_P) = PTE_FLAGS x := by
  have hpa : V2P v%PGSIZE = 0 := by
    have := hv.1
    rw [page_v2p hv]
    simp only [PGSIZE, KERNBASE] at this ⊢
    omega
  have hlt : PTE_FLAGS x < PGSIZE := Nat.mod_lt _ (by decide)
  have hodd : PTE_FLAGS x%2 = 1 := by
    rw [has_p, decide_eq_true_eq] at hx
    simp only [PTE_FLAGS, PGSIZE]
    omega
  have hor : PTE_FLAGS x ||| PTE_P = PTE_FLAGS x := by
    have hhalf := Nat.two_pow_add_eq_or_of_lt (i := 1) (by decide : PTE_P < 2^1) (PTE_FLAGS x/2)
    have heven : 2^1*(PTE_FLAGS x/2)+PTE_P = PTE_FLAGS x := by
      simp only [PTE_P]
      omega
    rw [heven] at hhalf
    rw [hhalf, Nat.or_assoc, Nat.or_self]
  rw [Nat.or_assoc, hor, or_page hpa hlt]
  simp only [PTE_FLAGS, PGSIZE] at hpa hlt ⊢
  omega

theorem table_entry (hv : Page lay v) : has (V2P v ||| PTE_P ||| PTE_W ||| PTE_U) PTE_P = true ∧
    frame (V2P v ||| PTE_P ||| PTE_W ||| PTE_U) = v := by
  rw [table_entry_eq]
  have := page_frame hv (by decide : 6 < PGSIZE)
  exact ⟨this.1,this.2.1⟩

end Page

end Xv6.VmHeap

import Xv6.VmSpaces

/-!
# A program on memory by itself

A program runs alone on the machine. What it does on its own pages, whatever `kalloc`
returns, is then what it does to the memory; the free list and the pages of the program
together are the same pages before and behind it, and no other page changes.
-/

set_option autoImplicit false

namespace Xv6.VmAlone
open CommandTree VmCode VmHeap VmSpaces
open Function

variable {n : ℕ} {lay : Layout} {A : Terms} {α β : Type} {m : MemProg α} {Q : α → PageHeap → Prop}
  {w w' : World n} {h h' h'' : PageHeap} {L L' : List ℕ} {v : ℕ} {f : Words}

def Chain (mem : ℕ → Words) : ℕ → List ℕ → Prop
  | r, [] => r = 0
  | r, v::rest => r = v ∧ v ≠ 0 ∧ Chain mem (mem v link) rest

/-- The free list, and the pages of the program. -/
structure Owns (lay : Layout) (w : World n) (h : PageHeap) (L : List ℕ) : Prop where
  chain : Chain w.mem w.freelist L
  nodup : L.Nodup
  free : ∀ {v}, v ∈ L → Page lay v ∧ h v = none
  stored : ∀ {v f}, h v = some f → w.mem v = f ∧ Page lay v

/-- What is neither free nor of the program is the same, and so is all but the memory. -/
structure Alone (w : World n) (h : PageHeap) (L : List ℕ) (w' : World n) (h' : PageHeap) (L' : List ℕ) :
    Prop where
  same : w' = { w with mem := w'.mem, freelist := w'.freelist, asked := w'.asked }
  rest : ∀ v, h v = none → v ∉ L → w'.mem v = w.mem v
  pages : ∀ v, (h' v ≠ none ∨ v ∈ L') ↔ (h v ≠ none ∨ v ∈ L)

theorem owns_congr {k : ℕ} {w' : World k} (ho : Owns lay w h L) (hmem : w'.mem = w.mem)
    (hfree : w'.freelist = w.freelist) : Owns lay w' h L :=
  ⟨by rw [hmem, hfree]; exact ho.chain,ho.nodup,ho.free,fun hv => by rw [hmem]; exact ho.stored hv⟩

theorem chain_congr {mem mem' : ℕ → Words} {r : ℕ} {L : List ℕ} (hL : ∀ v ∈ L, mem' v = mem v)
    (hc : Chain mem r L) :
    Chain mem' r L := by
  induction L generalizing r with
  | nil => exact hc
  | cons u L ih =>
    obtain ⟨hr,hne,hrest⟩ := hc
    refine ⟨hr,hne,ih (fun v hv => hL v (List.mem_cons_of_mem _ hv)) ?_⟩
    rw [hL u List.mem_cons_self]
    exact hrest

theorem alone_refl (w : World n) (h : PageHeap) (L : List ℕ) : Alone w h L w h L :=
  ⟨rfl,fun _ _ _ => rfl,fun _ => Iff.rfl⟩

theorem alone_trans {w'' : World n} {L'' : List ℕ} (h1 : Alone w h L w' h' L')
    (h2 : Alone w' h' L' w'' h'' L'') :
    Alone w h L w'' h'' L'' := by
  refine ⟨?_,fun v hv hL => ?_,fun v => (h2.pages v).trans (h1.pages v)⟩
  · rw [h2.same, h1.same]
  · have hout : ¬(h' v ≠ none ∨ v ∈ L') := fun hin => ((h1.pages v).mp hin).elim (fun hne => hne hv) hL
    rw [not_or, not_not] at hout
    rw [h2.rest v hout.1 hout.2, h1.rest v hv hL]

theorem alone_free (ho : Owns lay w h L) (ho' : Owns lay w' h L') (ha : Alone w h L w' h L') (v : ℕ) :
    v ∈ L' ↔ v ∈ L := by
  have hpages := ha.pages v
  constructor
  · intro hv
    exact (hpages.mp (.inr hv)).resolve_left fun hne => hne (ho'.free hv).2
  · intro hv
    exact (hpages.mpr (.inr hv)).resolve_left fun hne => hne (ho.free hv).2

theorem owns_write (ho : Owns lay w h L) {x : Words} (hv : h v = some x) :
    Owns lay (w.setMem v f) (update h v (some f)) L ∧
      Alone w h L (w.setMem v f) (update h v (some f)) L := by
  have hL : v ∉ L := fun hin => by
    rw [(ho.free hin).2] at hv
    cases hv
  have hkeep : ∀ {u}, u ≠ v → update h v (some f) u = h u := fun hu => update_of_ne hu _ _
  refine ⟨⟨chain_congr (fun u hu => ?_) ho.chain,ho.nodup,fun {u} hu => ⟨(ho.free hu).1,?_⟩,
    fun {u g} hu => ?_⟩,
    rfl,fun u hu _ => ?_,fun u => ?_⟩
  · exact update_of_ne (fun heq : u = v => hL (by rw [← heq]; exact hu)) _ _
  · rw [hkeep (fun heq => hL (by rw [← heq]; exact hu))]
    exact (ho.free hu).2
  · by_cases heq : u = v
    · subst heq
      rw [update_self] at hu
      cases hu
      exact ⟨update_self _ _ _,(ho.stored hv).2⟩
    · rw [hkeep heq] at hu
      exact ⟨(update_of_ne heq _ _).trans (ho.stored hu).1,(ho.stored hu).2⟩
  · refine update_of_ne (fun heq : u = v => ?_) _ _
    rw [heq, hv] at hu
    cases hu
  · by_cases heq : u = v
    · subst heq
      rw [update_self, hv]
      simp
    · rw [hkeep heq]

theorem owns_kalloc (ho : Owns lay w h L) (hne : w.freelist ≠ 0) :
    h w.freelist = none ∧ Page lay w.freelist ∧ ∃ L', ∀ k,
      Owns lay { w with asked := k, freelist := w.mem w.freelist link }
        (update h w.freelist (some (w.mem w.freelist))) L' ∧
      Alone w h L { w with asked := k, freelist := w.mem w.freelist link }
        (update h w.freelist (some (w.mem w.freelist))) L' := by
  have hc := ho.chain
  have hnodup := ho.nodup
  cases L with
  | nil => exact absurd hc hne
  | cons u rest =>
    obtain ⟨hu,-,hchain⟩ := hc
    obtain ⟨hpage,hnone⟩ := ho.free (v := u) List.mem_cons_self
    rw [List.nodup_cons] at hnodup
    rw [hu]
    refine ⟨hnone,hpage,rest,fun k =>
      ⟨⟨hchain,hnodup.2,fun {v} hv => ?_,fun {v g} hv => ?_⟩,rfl,fun _ _ _ => rfl,fun v => ?_⟩⟩
    · have hvu : v ≠ u := fun heq => hnodup.1 (by rw [← heq]; exact hv)
      rw [update_of_ne hvu]
      exact ho.free (List.mem_cons_of_mem _ hv)
    · by_cases heq : v = u
      · subst heq
        rw [update_self] at hv
        cases hv
        exact ⟨rfl,hpage⟩
      · rw [update_of_ne heq] at hv
        exact ho.stored hv
    · by_cases heq : v = u
      · subst heq
        rw [update_self]
        simp
      · rw [update_of_ne heq, List.mem_cons]
        simp [heq]

theorem owns_kfree (ho : Owns lay w h L) {x : Words} (hv : h v = some x) :
    handleMem lay (.kfree v) w = .ok ((),{ w.setMem v (junk w.freelist) with freelist := v }) ∧
      Owns lay { w.setMem v (junk w.freelist) with freelist := v } (update h v none) (v::L) ∧
      Alone w h L { w.setMem v (junk w.freelist) with freelist := v } (update h v none) (v::L) := by
  obtain ⟨-,hpage⟩ := ho.stored hv
  have hpos := page_pos hpage
  have hL : v ∉ L := fun hin => by
    rw [(ho.free hin).2] at hv
    cases hv
  refine ⟨if_neg ?_,⟨⟨rfl,by omega,?_⟩,List.nodup_cons.mpr ⟨hL,ho.nodup⟩,fun {u} hu => ?_,fun {u g} hu => ?_⟩,
    rfl,fun u hu _ => ?_,fun u => ?_⟩
  · rw [not_or, not_or, not_not, page_v2p hpage]
    have hhigh := hpage.2.2
    exact ⟨hpage.1,Nat.not_lt.mpr hpage.2.1,by omega⟩
  · show Chain _ (update w.mem v (junk w.freelist) v link) L
    rw [update_self, junk, update_self]
    exact chain_congr (fun u hu => update_of_ne
      (fun heq : u = v => hL (by rw [← heq]; exact hu)) _ _) ho.chain
  · rcases List.mem_cons.mp hu with rfl | hmem
    · exact ⟨hpage,update_self _ _ _⟩
    · rw [update_of_ne (fun heq => hL (by rw [← heq]; exact hmem))]
      exact ho.free hmem
  · have heq : u ≠ v := by
      rintro rfl
      rw [update_self] at hu
      cases hu
    rw [update_of_ne heq] at hu
    exact ⟨(update_of_ne heq _ _).trans (ho.stored hu).1,(ho.stored hu).2⟩
  · refine update_of_ne (fun heq : u = v => ?_) _ _
    rw [heq, hv] at hu
    cases hu
  · by_cases heq : u = v
    · subst heq
      rw [update_self, hv]
      simp
    · rw [update_of_ne heq, List.mem_cons]
      simp [heq]

/-- A call of `kalloc` returns 0. -/
def Refused (lay : Layout) : MemProg α → World n → Prop
  | .ret _, _ => False
  | .call c next, w => (c = .kalloc ∧ (w.fails w.asked = true ∨ w.freelist = 0)) ∨
      ∃ r w', handleMem lay c w = .ok (r,w') ∧ Refused lay (next r) w'

/-- A call of `kalloc` fails at will, or no page is left. -/
def Denied (w : World n) (h : PageHeap) (L : List ℕ) (g : PageHeap) : Prop :=
  (∃ k, w.fails k = true) ∨ ∀ v, h v ≠ none ∨ v ∈ L → g v ≠ none

theorem denied_alone {g : PageHeap} (ha : Alone w h L w' h' L') (hd : Denied w' h' L' g) :
    Denied w h L g := by
  rcases hd with ⟨k,hk⟩ | hall
  · rw [ha.same] at hk
    exact .inl ⟨k,hk⟩
  · exact .inr fun v hv => hall v ((ha.pages v).mpr hv)

theorem denied_now (ho : Owns lay w h L) (hf : w.fails w.asked = true ∨ w.freelist = 0) : Denied w h L h := by
  refine hf.imp (fun hf => ⟨_,hf⟩) fun h0 v hv => ?_
  have hc := ho.chain
  rw [h0] at hc
  cases L with
  | nil => exact hv.resolve_right List.not_mem_nil
  | cons u L => exact absurd hc.1.symm hc.2.1

/-- With more than `k` pages on the list and a `kalloc` that does not fail at will, `k` can be
taken. -/
def Short (w : World n) (L : List ℕ) (k : ℕ) : Prop := (∃ i, w.fails i = true) ∨ L.length ≤ k

theorem not_short {k : ℕ} (hf : ∀ i, w.fails i = false) (hk : k < L.length) : ¬Short w L k := by
  rintro (⟨i,hi⟩ | hle)
  · rw [hf] at hi
    cases hi
  · omega

theorem scarce_short {R : ℕ → Prop} {k : ℕ} (ho : Owns lay w h L) (hs : Scarce A h R k)
    (hA : ∀ g, A.fail g → Denied w h L g) : Short w L k := by
  obtain ⟨g,R',hfail,hmove,l,hl,hmem⟩ := hs
  refine (hA g hfail).imp id fun hall => Nat.le_trans (ho.nodup.subperm fun v hv => hmem v ?_).length_le hl
  by_contra hout
  have hg := hall v (.inr hv)
  by_cases hin : R v
  · exact hg (hmove.gone v hin hout)
  · exact hg ((hmove.rest v hin hout).trans (ho.free hv).2)

theorem does_alone (hm : Does lay A m Q h) (ho : Owns lay w h L)
    (hA : ∀ g, Refused lay m w → Denied w h L g → A.fail g) :
    wp (handleMem lay) m (fun a w' => ∃ h' L', Q a h' ∧ Owns lay w' h' L' ∧ Alone w h L w' h' L')
      (fun e => ∃ msg, e = .panic msg ∧ A.panic msg) w := by
  induction m generalizing w h L with
  | ret a => exact ⟨h,L,does_ret.mp hm,ho,alone_refl w h L⟩
  | call c next ih =>
    have hs := does_call.mp hm
    -- the rest of the program, behind what one command does
    have hstep : ∀ {r w1 h1 L1}, handleMem lay c w = .ok (r,w1) → Does lay A (next r) Q h1 →
      Owns lay w1 h1 L1 →
        Alone w h L w1 h1 L1 → wp (handleMem lay) (.call c next)
          (fun a w' => ∃ h' L', Q a h' ∧ Owns lay w' h' L' ∧ Alone w h L w' h' L')
          (fun e => ∃ msg, e = .panic msg ∧ A.panic msg) w := by
      intro r w1 h1 L1 hc hnext ho1 ha1
      rw [wp, run, hc]
      refine wp_mono (ih r hnext ho1 fun g hr hd => hA g (.inr ⟨r,w1,hc,hr⟩) (denied_alone ha1 hd)) ?_
        fun _ => id
      rintro a w' ⟨h',L',hQ,ho',ha'⟩
      exact ⟨h',L',hQ,ho',alone_trans ha1 ha'⟩
    have hwrite : ∀ {r v x f}, h v = some x → handleMem lay c w = .ok (r,w.setMem v f) →
        Does lay A (next r) Q (update h v (some f)) → wp (handleMem lay) (.call c next)
          (fun a w' => ∃ h' L', Q a h' ∧ Owns lay w' h' L' ∧ Alone w h L w' h' L')
          (fun e => ∃ msg, e = .panic msg ∧ A.panic msg) w := fun hv hc hnext =>
      hstep hc hnext (owns_write ho hv).1 (owns_write ho hv).2
    cases c with
    | kalloc =>
      by_cases hfail : w.fails w.asked = true ∨ w.freelist = 0
      · have ho1 : Owns lay { w with asked := w.asked+1 } h L := ⟨ho.chain,ho.nodup,ho.free,ho.stored⟩
        exact hstep (if_pos hfail) (hs.1 (hA h (.inl ⟨rfl,hfail⟩) (denied_now ho hfail))) ho1
          ⟨rfl,fun _ _ _ => rfl,fun _ => Iff.rfl⟩
      · have hne : w.freelist ≠ 0 := fun h0 => hfail (.inr h0)
        obtain ⟨hnone,hpage,L1,h1⟩ := owns_kalloc ho hne
        exact hstep (if_neg hfail) (hs.2 _ _ hne hnone hpage) (h1 _).1 (h1 _).2
    | kfree v =>
      obtain ⟨x,hv,hnext⟩ := hs
      obtain ⟨hc,ho1,ha1⟩ := owns_kfree ho hv
      exact hstep hc hnext ho1 ha1
    | word v i =>
      obtain ⟨x,hv,hnext⟩ := hs
      refine hstep (r := x i) ?_ hnext ho (alone_refl w h L)
      rw [handleMem, (ho.stored hv).1]
    | null => exact ⟨_,rfl,hs⟩
    | panic msg => exact ⟨msg,rfl,hs⟩
    | setWord v i y =>
      obtain ⟨x,hv,hnext⟩ := hs
      exact hwrite hv (by rw [handleMem, (ho.stored hv).1]) hnext
    | clear v =>
      obtain ⟨x,hv,hnext⟩ := hs
      exact hwrite hv rfl hnext
    | copy v src =>
      obtain ⟨x,y,hv,hy,hnext⟩ := hs
      exact hwrite hv (by rw [handleMem, (ho.stored hy).1]) hnext
    | patch v o xs =>
      obtain ⟨x,hv,hnext⟩ := hs
      exact hwrite hv (by rw [handleMem, (ho.stored hv).1]) hnext

def Range (a vend v : ℕ) : Prop := v%PGSIZE = 0 ∧ a ≤ v ∧ v+PGSIZE ≤ vend

theorem kfree_first (ho : Owns lay w (fun _ => none) L) (hp : Page lay v) (hv : v ∉ L) :
    ∃ w', handleMem lay (.kfree v) w = .ok ((),w') ∧ Owns lay w' (fun _ => none) (v::L) := by
  have ho' : Owns lay w (update (fun _ => none) v (some (w.mem v))) L := by
    refine ⟨ho.chain,ho.nodup,fun {u} hu => ⟨(ho.free hu).1,update_of_ne (ne_of_mem_of_not_mem hu hv) _ _⟩,
      fun {u f} hu => ?_⟩
    by_cases heq : u = v
    · subst heq
      rw [update_self] at hu
      exact ⟨Option.some.inj hu,hp⟩
    · rw [update_of_ne heq] at hu
      cases hu
  obtain ⟨hc,hfree,-⟩ := owns_kfree ho' (update_self _ _ _)
  rw [Function.update_idem, Function.update_eq_self] at hfree
  exact ⟨_,hc,hfree⟩

/-- Of the pages that nobody uses those of a range come to the free list. -/
def Frees (lay : Layout) (w : World n) (L : List ℕ) (m : MemProg Unit) (a vend : ℕ) : Prop :=
  ∃ w' L', run (handleMem lay) m w = .ok ((),w') ∧ Owns lay w' (fun _ => none) L' ∧ ∀ v, v ∈ L' ↔
  v ∈ L ∨ Range a vend v

section Kinit
variable {vend k a : ℕ} (ho : Owns lay w (fun _ => none) L)
include ho

theorem frees_none (hlt : vend < a+PGSIZE) : Frees lay w L (pure ()) a vend := by
  refine ⟨w,L,rfl,ho,fun v => (or_iff_left fun hv => ?_).symm⟩
  have := hv.2
  omega

-- the pages of the list are below the next one to be freed
theorem freeFrom_frees (hL : ∀ v ∈ L, v < a) (ha : a%PGSIZE = 0) (hlow : lay.stop ≤ a)
    (hle : a ≤ KERNBASE+PHYSTOP)
    (hvend : vend ≤ KERNBASE+PHYSTOP) (hk : vend < a+PGSIZE*k+PGSIZE) :
    Frees lay w L (freeFrom vend k a) a vend := by
  simp only [KERNBASE, PHYSTOP, PGSIZE] at hvend ha hle hk
  induction k generalizing a w L with
  | zero => exact frees_none ho (by simp only [PGSIZE]; omega)
  | succ k ih =>
    have hnext : (a+PGSIZE)%WORD = a+4096 := Nat.mod_eq_of_lt (by simp only [PGSIZE, WORD]; omega)
    rw [freeFrom, hnext]
    split
    · obtain ⟨w1,hc,ho1⟩ :=
        kfree_first (v := a) ho ⟨ha,hlow,by simp only [KERNBASE, PHYSTOP]; omega⟩ fun hin =>
        Nat.lt_irrefl a (hL a hin)
      obtain ⟨w',L',hrun,ho',hmem⟩ := ih (a := a+4096) ho1 (fun v hv => by
        rcases List.mem_cons.mp hv with rfl | hv
        · omega
        · have := hL v hv
          omega) (by omega) (by omega) (by omega) (by omega)
      refine ⟨w',L',?_,ho',fun v => ?_⟩
      · rw [← hrun]
        show run _ (.call _ _) w = _
        rw [run, hc]
        rfl
      · rw [hmem v, List.mem_cons, or_comm (a := v = a), or_assoc]
        refine or_congr_right ?_
        simp only [Range, PGSIZE]
        omega
    · exact frees_none ho (by simp only [PGSIZE]; omega)

theorem freerange_frees (vstart vend : ℕ) (hL : ∀ v ∈ L, v < vstart) (hlow : lay.stop ≤ vstart)
    (hle : vstart ≤ KERNBASE+4194304)
    (hvend : vend ≤ KERNBASE+PHYSTOP) : Frees lay w L (freerange vstart vend) vstart vend := by
  have hup : vstart ≤ PGROUNDUP vstart ∧ PGROUNDUP vstart < vstart+PGSIZE := by
    simp only [PGROUNDUP, PGSIZE, KERNBASE, WORD] at *
    omega
  obtain ⟨w',L',hrun,ho',hmem⟩ :=
    freeFrom_frees (k := vend/PGSIZE) ho (fun v hv => Nat.lt_of_lt_of_le (hL v hv) hup.1)
    (Nat.mul_mod_left _ _) (Nat.le_trans hlow hup.1)
      (by simp only [KERNBASE, PHYSTOP, PGSIZE] at *; omega) hvend
    (by simp only [PGSIZE]; omega)
  refine ⟨w',L',hrun,ho',fun v => (hmem v).trans (or_congr_right ?_)⟩
  simp only [Range, PGROUNDUP, PGSIZE, KERNBASE, WORD] at *
  omega

end Kinit

/-- `kinit1` puts the pages of the first 4 MB on the empty list. Whatever is left of them there when
`kinit2` is called, it adds all others. -/
theorem kinit_frees (lay : Layout) (w : World n) : ∃ w1 L1,
    run (handleMem lay) (kinit1 lay.stop (P2V 4194304)) { w with freelist := 0 } = .ok ((),w1) ∧
      Owns lay w1 (fun _ => none) L1 ∧ (∀ v, v ∈ L1 ↔ Page lay v ∧ v < P2V 4194304) ∧
    ∀ (w2 : World n) L2, Owns lay w2 (fun _ => none) L2 → L2 ⊆ L1 → ∃ w3 L3,
      run (handleMem lay) (kinit2 (P2V 4194304) (P2V PHYSTOP)) w2 = .ok ((),w3) ∧
        Owns lay w3 (fun _ => none) L3 ∧ ∀ v, v ∈ L3 ↔ v ∈ L2 ∨ (Page lay v ∧ P2V 4194304 ≤ v) := by
  have hno : Owns lay { w with freelist := 0 } (fun _ => none) [] :=
    ⟨rfl,List.nodup_nil,fun hv => absurd hv List.not_mem_nil,fun hv => absurd hv.symm (Option.some_ne_none _)⟩
  have hhigh := lay.stop_high
  obtain ⟨w1,L1,hrun1,ho1,hmem1⟩ :=
    freerange_frees hno lay.stop (P2V 4194304) (by simp) (Nat.le_refl lay.stop) hhigh (by decide)
  have hfirst : ∀ v, v ∈ L1 ↔ Page lay v ∧ v < P2V 4194304 := fun v => by
    rw [hmem1]
    simp only [List.not_mem_nil, false_or, Range, Page, P2V, PGSIZE, KERNBASE, PHYSTOP, WORD]
    omega
  refine ⟨w1,L1,hrun1,ho1,hfirst,fun w2 L2 ho2 hsub => ?_⟩
  obtain ⟨w3,L3,hrun3,ho3,hmem3⟩ :=
    freerange_frees ho2 (P2V 4194304) (P2V PHYSTOP) (fun v hv => ((hfirst v).mp (hsub hv)).2)
    hhigh (by decide) (by decide)
  refine ⟨w3,L3,hrun3,ho3,fun v => (hmem3 v).trans (or_congr_right ?_)⟩
  simp only [Range, Page, P2V, PGSIZE, KERNBASE, PHYSTOP, WORD] at hhigh ⊢
  omega

end Xv6.VmAlone

import Xv6.UserMalloc
import Mathlib.Logic.Relation

/-!
# Programs that call the allocator

A program calls `malloc` and `free` and writes to the blocks that it holds. Its free list stays a
ring of separate blocks, and a block is as large as was asked for where the rounding and the amount
for `sbrk` do not overflow.
-/

set_option autoImplicit false

namespace Xv6.AllocatorRuns
open PointerRing BlockTiling UserAlloc UserFree UserMalloc

/-- The allocator and the pointers that came from `malloc` and were not freed since. -/
structure World where
  heap : Heap
  held : List ℕ

def heads (held : List ℕ) : List ℕ := held.map (·-HEADER)

inductive Call (base : ℕ) : World → World → Prop
  | malloc {w : World} {sbrk : Sbrk} {nbytes r : ℕ} {s : Heap} (hsbrk : Fresh base sbrk) (hn : nbytes < WORD)
      (hunits : units nbytes*HEADER ≤ 2^31-1)
      (h : Returns (fun k => malloc base sbrk k nbytes w.heap) (r,s)) :
      Call base w ⟨s,if r = 0 then w.held else r::w.held⟩
  | free {w : World} {ap : ℕ} {s : Heap} (hap : ap ∈ w.held) (h : Returns (fun k => free k ap w.heap) s) :
      Call base w ⟨s,w.held.erase ap⟩

/-- The header at an address shares no byte with the memory behind a pointer that is held. -/
def Outside (w : World) (x : ℕ) : Prop :=
  ∀ ap ∈ w.held, x+HEADER ≤ ap ∨ ap-HEADER+HEADER*w.heap.size (ap-HEADER) ≤ x

def Wrote (w w' : World) : Prop :=
  w'.held = w.held ∧ ∃ ptr size, w'.heap = { w.heap with ptr := ptr, size := size } ∧
    ∀ x, Outside w x → ptr x = w.heap.ptr x ∧ size x = w.heap.size x

def Step (base : ℕ) (w w' : World) : Prop := Call base w w' ∨ Wrote w w'

def Unused (w : World) : Prop := w.heap.freep = 0 ∧ w.heap.regions = [] ∧ w.held = []

def Good (base : ℕ) (w : World) : Prop := ∃ nodes, Kept base w.heap nodes (heads w.held)

section Runs
variable {base : ℕ} {w w' w0 : World} {nodes : List ℕ}

theorem tidy_perm {s : Heap} {held held' : List ℕ} (hperm : held'.Perm held) (h : Tidy base s nodes held) :
    Tidy base s nodes held' :=
  ⟨h.ring,h.sorted,h.base_size,fun b hb => h.size b ((hperm.append_left nodes).mem_iff.mp hb),
    fill_perm (hperm.append_left nodes) h.fill,h.freep,h.stacked⟩

theorem heads_erase {ap : ℕ} {held : List ℕ} (hap : ap ∈ held) :
    ((ap-HEADER)::heads (held.erase ap)).Perm (heads held) :=
  ((List.perm_cons_erase hap).map (·-HEADER)).symm

theorem held_plus {s : Heap} {held : List ℕ} {ap : ℕ} (h : Tidy base s nodes (heads held))
    (hap : ap ∈ held) : plus (ap-HEADER) 1 = ap := by
  have hin : ap-HEADER ∈ nodes++heads held := List.mem_append_right nodes (List.mem_map_of_mem hap)
  have hsize := h.size _ hin
  have hbounds := tidy_bounds h hin
  simp only [plus, HEADER, WORD] at hsize hbounds ⊢
  omega

theorem new_plus {s : Heap} {held : List ℕ} {b : ℕ} (h : Tidy base s nodes (b::held)) :
    plus b 1 = b+HEADER := by
  have hsize := h.size b (by simp)
  have hbounds := tidy_bounds h (b := b) (by simp)
  simp only [plus, HEADER, WORD] at hbounds ⊢
  omega

theorem good_tidy (hap : w.held ≠ []) (h : Good base w) : ∃ nodes, Tidy base w.heap nodes (heads w.held) := by
  obtain ⟨nodes,⟨-,-,-,hheld⟩ | h⟩ := h
  · exact absurd (List.map_eq_nil_iff.mp hheld) hap
  · exact ⟨nodes,h⟩

theorem good_free {ap : ℕ} (h : Good base w) (hap : ap ∈ w.held) :
    Ends (fun k => free k ap w.heap) (fun s => ∃ nodes, Tidy base s nodes (heads (w.held.erase ap))) := by
  obtain ⟨nodes,h⟩ := good_tidy (List.ne_nil_of_mem hap) h
  obtain ⟨s,⟨-,-,nodes',htidy,-⟩,hends⟩ := free_ends (tidy_perm (heads_erase hap) h)
  rw [held_plus h hap] at hends
  exact ⟨s,⟨nodes',htidy⟩,hends⟩

theorem good_malloc {sbrk : Sbrk} {nbytes : ℕ} (hbase : 0 < base) (h : Good base w) (hsbrk : Fresh base sbrk)
    (hunits : units nbytes*HEADER ≤ 2^31-1) :
    Ends (fun k => malloc base sbrk k nbytes w.heap)
      (fun r => ∃ nodes, Tidy base r.2 nodes (heads (if r.1 = 0 then w.held else r.1::w.held))) := by
  obtain ⟨nodes,h⟩ := h
  obtain ⟨⟨p,s⟩,⟨-,hr⟩,hends⟩ := malloc_ends hbase hsbrk h (Nat.lt_of_le_of_lt hunits (by decide))
  refine ⟨(p,s),?_,hends⟩
  rcases hr with ⟨rfl,htidy⟩ | ⟨b,nodes',rfl,-,htidy⟩
  · exact ⟨nodes,htidy⟩
  · dsimp only at htidy ⊢
    refine ⟨nodes',?_⟩
    rw [new_plus htidy, if_neg (show b+HEADER ≠ 0 from Nat.succ_ne_zero _), heads, List.map_cons,
      Nat.add_sub_cancel]
    exact htidy

theorem call_tidy (hbase : 0 < base) (h : Good base w) (hcall : Call base w w') :
    ∃ nodes, Tidy base w'.heap nodes (heads w'.held) := by
  cases hcall with
  | malloc hsbrk hn hunits hr =>
    have htidy := ends_returns (good_malloc hbase h hsbrk hunits) hr
    exact htidy
  | free hap hr =>
    have htidy := ends_returns (good_free h hap) hr
    exact htidy

theorem tidy_outside (h : Tidy base w.heap nodes (heads w.held)) {b : ℕ}
    (hb : b ∈ base::(nodes++heads w.held)) : Outside w b := by
  intro ap hap
  have hin : ap-HEADER ∈ nodes++heads w.held := List.mem_append_right nodes (List.mem_map_of_mem hap)
  have hbounds := tidy_bounds h hin
  have hsize := h.size _ hin
  rcases List.mem_cons.mp hb with rfl | hb
  · simp only [HEADER] at hbounds ⊢
    omega
  · by_cases hne : b = ap-HEADER
    · simp only [HEADER] at hbounds hne ⊢
      omega
    · have : Std.Symm (fun b c => Apart HEADER (b,w.heap.size b) (c,w.heap.size c)) := ⟨fun _ _ => Or.symm⟩
      have hapart := (tidy_apart h).forall hb hin hne
      have := h.size b hb
      simp only [Apart, HEADER] at hapart hbounds ⊢
      omega

theorem wrote_good (h : Good base w) (hw : Wrote w w') : Good base w' := by
  obtain ⟨nodes,h⟩ := h
  obtain ⟨hheld,ptr,size,hheap,hsame⟩ := hw
  refine ⟨nodes,?_⟩
  rw [Kept, hheld, hheap]
  refine h.imp id fun h => ?_
  have hsize : ∀ b ∈ base::(nodes++heads w.held), size b = w.heap.size b :=
    fun b hb => (hsame b (tidy_outside h hb)).2
  refine ⟨?_,sorted_congr (fun b hb => hsize b (List.mem_append_left _ hb)) h.sorted,
    (hsize base List.mem_cons_self).trans h.base_size,fun b hb => ?_,?_,
    h.freep,h.stacked⟩
  · exact linked_congr (l := base::nodes)
      (fun b hb => (hsame b (tidy_outside h (List.mem_append_left _ hb))).1) h.ring
  · exact Nat.le_trans (h.size b hb) (hsize b (List.mem_cons_of_mem base hb)).symm.le
  · have hblocks : blocks size (nodes++heads w.held) = blocks w.heap.size (nodes++heads w.held) :=
      List.map_congr_left fun b hb => by rw [hsize b (List.mem_cons_of_mem base hb)]
    exact hblocks ▸ h.fill

theorem run_good (hbase : 0 < base) (hstart : Unused w0) (hrun : Relation.ReflTransGen (Step base) w0 w) :
    Good base w := by
  induction hrun with
  | refl =>
    obtain ⟨hfreep,hregions,hheld⟩ := hstart
    exact ⟨[],.inl ⟨hfreep,hregions,rfl,by rw [hheld]; rfl⟩⟩
  | tail _ hstep ih =>
    rcases hstep with hcall | hwrote
    · obtain ⟨nodes,htidy⟩ := call_tidy hbase ih hcall
      exact ⟨nodes,.inr htidy⟩
    · exact wrote_good ih hwrote

/-- The free list is a ring through the base that goes up once. Its blocks and the blocks that are
held are separate, no two free blocks touch, and the units are those that `sbrk` gave. -/
structure FreeList (base : ℕ) (w : World) (nodes : List ℕ) : Prop where
  ring : Ring w.heap.ptr base nodes
  sorted : (base::nodes).Pairwise (· < ·)
  size : ∀ b ∈ nodes++heads w.held, 1 ≤ w.heap.size b
  apart : (nodes++heads w.held).Pairwise (fun b c => Apart HEADER (b,w.heap.size b) (c,w.heap.size c))
  merged : ∀ b ∈ nodes, ∀ c ∈ nodes, b+HEADER*w.heap.size b ≠ c
  total : ((nodes++heads w.held).map w.heap.size).sum = (w.heap.regions.map Prod.snd).sum

theorem tidy_list (h : Tidy base w.heap nodes (heads w.held)) : FreeList base w nodes := by
  refine ⟨h.ring,tidy_lt h,h.size,tidy_apart h,fun b hb c hc heq => ?_,?_⟩
  · have hsize := h.size b (List.mem_append_left _ hb)
    have hne : b ≠ c := by
      simp only [HEADER] at heq
      omega
    have hsorted := (List.pairwise_cons.mp h.sorted).2
    obtain ⟨u,v,rfl⟩ := List.append_of_mem hb
    obtain ⟨-,hafter,hbefore⟩ := List.pairwise_append.mp hsorted
    rcases List.mem_append.mp hc with hc | hc
    · have hgap : Gap w.heap.size c b := hbefore c hc b List.mem_cons_self
      simp only [Gap] at hgap
      omega
    · have hgap : Gap w.heap.size b c :=
        (List.pairwise_cons.mp hafter).1 c ((List.mem_cons.mp hc).resolve_left hne.symm)
      exact Nat.ne_of_lt hgap heq
  · have htotal := h.fill _ additive_units
    simp only [BlockTiling.total, blocks, List.map_map] at htotal
    exact htotal

/-- In every run, after every call the free list is sound, and all loops of a call end. -/
theorem free_list_sound (hbase : 0 < base) (hstart : Unused w0)
    (hrun : Relation.ReflTransGen (Step base) w0 w) :
    (∀ w', Call base w w' → ∃ nodes, FreeList base w' nodes) ∧
    (∀ sbrk nbytes, Fresh base sbrk → nbytes < WORD → units nbytes*HEADER ≤ 2^31-1 →
    ∃ r, Returns (fun k => malloc base sbrk k nbytes w.heap) r) ∧
    ∀ ap ∈ w.held, ∃ s, Returns (fun k => free k ap w.heap) s := by
  have hgood := run_good hbase hstart hrun
  refine ⟨fun w' hcall => ?_,fun sbrk nbytes hsbrk _ hunits => ?_,fun ap hap => ?_⟩
  · obtain ⟨nodes,htidy⟩ := call_tidy hbase hgood hcall
    exact ⟨nodes,tidy_list htidy⟩
  · obtain ⟨r,-,hr⟩ := good_malloc hbase hgood hsbrk hunits
    exact ⟨r,hr⟩
  · obtain ⟨s,-,hs⟩ := good_free hgood hap
    exact ⟨s,hs⟩

def newWorld : World := ⟨⟨fun _ => 0,fun _ => 0,0,[],[]⟩,[]⟩

def oneRegion : Sbrk := fun s n => if s.regions = [] ∧ n < 65536 then some 16 else none

theorem oneRegion_fresh : Fresh 8 oneRegion := by
  intro s n p hp
  obtain ⟨⟨hregions,hn⟩,rfl⟩ : (s.regions = [] ∧ n < 65536) ∧ 16 = p := by simpa [oneRegion] using hp
  refine ⟨by decide,by simp [hregions],?_⟩
  simp only [WORD]
  omega

def oneHeld : Heap := ((malloc 8 oneRegion 3 100 newWorld.heap).getD (0,newWorld.heap)).2
def bothHeld : Heap := ((malloc 8 oneRegion 3 100 oneHeld).getD (0,oneHeld)).2
def oneFreed : Heap := (free 3 32680 bothHeld).getD bothHeld
def bothFreed : Heap := (free 3 32568 oneFreed).getD oneFreed

theorem returns_from {α : Type} {f : ℕ → Option α} {a : α} (n : ℕ) (h : ∀ k, f (k+n) = some a) :
    Returns f a := by
  refine ⟨n,fun k hk => ?_⟩
  obtain ⟨k,rfl⟩ := Nat.exists_eq_add_of_le' hk
  exact h k

theorem hundred_call {r : ℕ} {s : Heap} (h : Returns (fun k => malloc 8 oneRegion k 100 w.heap) (r,s)) :
    Call 8 w ⟨s,if r = 0 then w.held else r::w.held⟩ :=
  .malloc oneRegion_fresh (by decide) (by decide) h

theorem one_freed : Relation.ReflTransGen (Step 8) newWorld ⟨oneFreed,[32568]⟩ := by
  have h1 : Call 8 newWorld ⟨oneHeld,[32680]⟩ := hundred_call (r := 32680) (returns_from 3 fun _ => rfl)
  have h2 : Call 8 ⟨oneHeld,[32680]⟩ ⟨bothHeld,[32568,32680]⟩ :=
    hundred_call (r := 32568) (returns_from 3 fun _ => rfl)
  have h3 : Call 8 ⟨bothHeld,[32568,32680]⟩ ⟨oneFreed,[32568]⟩ :=
    @Call.free 8 _ 32680 _ (by decide) (returns_from 3 fun _ => rfl)
  exact ((Relation.ReflTransGen.single (.inl h1)).tail (.inl h2)).tail (.inl h3)

/-- Of two blocks of 100 bytes the one that is freed last is merged with the other and with the
rest, which is all that `sbrk` gave. -/
theorem free_list_sound_merged : Call 8 ⟨oneFreed,[32568]⟩ ⟨bothFreed,[]⟩ ∧ oneFreed.size 16 = 4068 ∧
    bothFreed.size 16 = 4096 ∧ ∃ nodes, FreeList 8 ⟨bothFreed,[]⟩ nodes := by
  have hcall : Call 8 ⟨oneFreed,[32568]⟩ ⟨bothFreed,[]⟩ :=
    @Call.free 8 _ 32568 _ (by decide) (returns_from 3 fun _ => rfl)
  exact ⟨hcall,by decide +kernel,by decide +kernel,
    (free_list_sound (by decide) ⟨rfl,rfl,rfl⟩ one_freed).1 _ hcall⟩

end Runs

/-- The result is 0 or a pointer to enough memory from `sbrk`, and `sbrk` was asked for no amount that
is negative or too small. -/
def Enough (nbytes : ℕ) (s : Heap) (r : ℕ × Heap) : Prop :=
  (r.1 = 0 ∨ (nbytes ≤ (r.2.size (r.1-HEADER)-1)*HEADER ∧
    ∀ x, Has HEADER (r.1-HEADER,r.2.size (r.1-HEADER)) x → ∃ region ∈ r.2.regions, Has HEADER region x)) ∧
  ∃ amounts, r.2.asked = amounts++s.asked ∧ ∀ n ∈ amounts, n < 2^31 ∧ nbytes+HEADER ≤ n

section Sizes
variable {base nbytes : ℕ} {s : Heap} {nodes held : List ℕ} {r : ℕ × Heap}

theorem allocated_enough (h : Allocated base (units nbytes) held r) (hn : nbytes ≤ 2^32-8) :
    nbytes ≤ (r.2.size (r.1-HEADER)-1)*HEADER ∧
    ∀ x, Has HEADER (r.1-HEADER,r.2.size (r.1-HEADER)) x → ∃ region ∈ r.2.regions, Has HEADER region x := by
  obtain ⟨b,nodes,hr,hsize,htidy⟩ := h
  rw [hr, new_plus htidy, Nat.add_sub_cancel]
  refine ⟨?_,fun x hx => fill_inside htidy.fill (List.mem_map_of_mem (by simp)) hx⟩
  rw [hsize]
  simp only [units, HEADER, WORD]
  omega

theorem allocated_short (h : Allocated base (units nbytes) held r) (hn : nbytes < WORD)
    (hover : ¬nbytes ≤ 2^32-8) :
    r.1 ≠ 0 ∧ r.2.size (r.1-HEADER) = 1 := by
  obtain ⟨b,nodes,hr,hsize,htidy⟩ := h
  rw [hr, new_plus htidy, Nat.add_sub_cancel, hsize]
  simp only [units, HEADER, WORD] at hn ⊢
  omega

theorem more_enough (hn : nbytes < WORD) :
    (more (units nbytes)*HEADER%WORD < 2^31 ∧ nbytes+HEADER ≤ more (units nbytes)*HEADER%WORD) ↔
    nbytes ≤ 2^31-16 := by
  have hunits : units nbytes = (nbytes+HEADER-1)%WORD/HEADER+1 := rfl
  rw [more]
  simp only [HEADER, WORD] at hn hunits ⊢
  split <;> omega

theorem refused_fresh : Fresh base fun _ _ => none := fun _ _ _ hp => absurd hp (Option.some_ne_none _).symm

theorem start_size {n : ℕ} (hbase : 0 < base) (hpos : 1 ≤ n) (h : Kept base s nodes held) :
    (∃ b ∈ base::nodes, n ≤ (start base s).size b) ↔ ∃ b ∈ nodes, n ≤ s.size b := by
  have hsame : ∀ b ∈ nodes, (start base s).size b = s.size b := by
    rcases h with ⟨-,-,rfl,-⟩ | h
    · simp
    · rw [start, if_neg (Nat.ne_of_gt (Nat.lt_of_lt_of_le hbase (base_le h h.freep)))]
      exact fun _ _ => rfl
  constructor
  · rintro ⟨b,hb,hle⟩
    rcases List.mem_cons.mp hb with rfl | hb
    · rw [(start_tidy hbase h).base_size] at hle
      omega
    · exact ⟨b,hb,hsame b hb ▸ hle⟩
  · rintro ⟨b,hb,hle⟩
    exact ⟨b,List.mem_cons_of_mem base hb,(hsame b hb).symm ▸ hle⟩

/-- `malloc` gives enough memory exactly if the request is at most 2^31-16, or the rounding does not
overflow and a free block is large enough. -/
theorem malloc_enough (hbase : 0 < base) (hn : nbytes < WORD) (h : Kept base s nodes held) :
    (∀ sbrk, Fresh base sbrk → Ends (fun k => malloc base sbrk k nbytes s) (Enough nbytes s)) ↔
      nbytes ≤ 2^31-16 ∨ (nbytes ≤ 2^32-8 ∧ ∃ b ∈ nodes, units nbytes ≤ s.size b) := by
  have htidy := start_tidy hbase h
  have hsmall : (¬∃ b ∈ nodes, units nbytes ≤ s.size b) →
    ∀ b ∈ base::nodes, (start base s).size b < units nbytes := by
    rw [← start_size hbase units_pos h]
    simp
  constructor
  · intro hall
    by_cases hfit : ∃ b ∈ nodes, units nbytes ≤ s.size b
    · -- a free block is taken, with one unit if the rounding overflows
      refine .inr ⟨?_,hfit⟩
      by_contra hover
      obtain ⟨r,⟨-,halloc⟩,hr⟩ :=
        search_found (fun _ _ => none) htidy units_pos ((start_size hbase units_pos h).mpr hfit)
      obtain ⟨hne,hone⟩ := allocated_short halloc hn hover
      rcases (ends_returns (hall _ refused_fresh) hr).1 with hzero | ⟨hle,-⟩
      · exact hne hzero
      · rw [hone] at hle
        omega
    · -- the amount shows in what `sbrk` was asked for, also if it refuses
      obtain ⟨r,⟨-,hasked⟩,hr⟩ := search_refused htidy (hsmall hfit)
      obtain ⟨amounts,hamounts,hok⟩ := (ends_returns (hall _ refused_fresh) hr).2
      rw [start_asked] at hasked
      have hlist : [more (units nbytes)*HEADER%WORD] = amounts :=
        List.append_cancel_right (hasked.symm.trans hamounts)
      exact .inl ((more_enough hn).mp (hok _ (hlist ▸ List.mem_singleton_self _)))
  · intro hcond sbrk hsbrk
    have hbound : nbytes ≤ 2^32-8 := by omega
    by_cases hfit : ∃ b ∈ nodes, units nbytes ≤ s.size b
    · obtain ⟨r,⟨hasked,halloc⟩,hr⟩ :=
        search_found sbrk htidy units_pos ((start_size hbase units_pos h).mpr hfit)
      exact ⟨r,⟨.inr (allocated_enough halloc hbound),[],hasked.trans start_asked,by simp⟩,hr⟩
    · have hle : nbytes ≤ 2^31-16 := hcond.resolve_right fun hr => hfit hr.2
      have hamount := (more_enough hn).mpr hle
      have hmore : more (units nbytes)*HEADER < WORD := by
        have hunits : units nbytes = (nbytes+HEADER-1)%WORD/HEADER+1 := rfl
        rw [more]
        simp only [HEADER, WORD] at hunits ⊢
        split <;> omega
      rw [Nat.mod_eq_of_lt hmore] at hamount
      obtain ⟨r,⟨hasked,hres⟩,hr⟩ := search_grows hbase hsbrk htidy units_pos hmore (hsmall hfit)
      rw [start_asked] at hasked
      exact ⟨r,⟨hres.imp And.left fun halloc => allocated_enough halloc hbound,[_],hasked,
        fun n hin => List.mem_singleton.mp hin ▸ hamount⟩,hr⟩

theorem malloc_enough_new :
    Ends (fun k => malloc 8 oneRegion k 100 newWorld.heap) (Enough 100 newWorld.heap) :=
  (malloc_enough (by decide) (by decide) (show Kept 8 newWorld.heap [] [] from .inl ⟨rfl,rfl,rfl,rfl⟩)).mpr
    (.inl (by decide))
    oneRegion oneRegion_fresh

/-- For 0xFFFFFFF9 bytes the result is a block of one unit, which is its header. For 2^31 bytes `sbrk`
is asked for a negative amount. -/
theorem malloc_short :
    (malloc 8 oneRegion 3 4294967289 newWorld.heap).map (fun r => (r.1,r.2.size (r.1-HEADER))) =
    some (32784,1) ∧
    (malloc 8 oneRegion 3 (2^31) newWorld.heap).map (fun r => (r.1,r.2.asked)) = some (0,[2^31+8]) := by
  decide +kernel

end Sizes

end Xv6.AllocatorRuns

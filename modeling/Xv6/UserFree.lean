import Xv6.UserAlloc

/-!
# Blocks go back to the free list

`free` finds the place of a block by its address. First the block takes in the one above it, then the
one below takes the block in. Between the two steps the block is tied to what follows it only.
-/

set_option autoImplicit false

namespace Xv6.UserFree
open PointerRing BlockTiling UserAlloc
open Function

def Returns {α : Type} (f : ℕ → Option α) (a : α) : Prop := ∃ n, ∀ k ≥ n, f k = some a

def Ends {α : Type} (f : ℕ → Option α) (P : α → Prop) : Prop := ∃ a, P a ∧ Returns f a

section Ends
variable {α : Type} {f g : ℕ → Option α} {P : α → Prop}

theorem ends_now {a : α} (ha : P a) (h : ∀ k, f (k+1) = some a) : Ends f P := by
  refine ⟨a,ha,1,fun k hk => ?_⟩
  obtain ⟨k,rfl⟩ := Nat.exists_eq_add_of_le' hk
  exact h k

theorem ends_next (h : Ends g P) (hf : ∀ k, f (k+1) = g k) : Ends f P := by
  obtain ⟨a,ha,n,hn⟩ := h
  refine ⟨a,ha,n+1,fun k hk => ?_⟩
  obtain ⟨k,rfl⟩ := Nat.exists_eq_add_of_le' (Nat.le_trans (Nat.le_add_left 1 n) hk)
  rw [hf, hn k (Nat.le_of_succ_le_succ hk)]

theorem ends_returns {a : α} (h : Ends f P) (ha : Returns f a) : P a := by
  obtain ⟨b,hb,n,hn⟩ := h
  obtain ⟨m,hm⟩ := ha
  have heq := (hn (n+m) (Nat.le_add_right n m)).symm.trans (hm (n+m) (Nat.le_add_left m n))
  cases heq
  exact hb

end Ends

def Place (base : ℕ) (nodes : List ℕ) (bp p : ℕ) : Prop :=
  ∃ u v, base::nodes = u++p::v ∧ p < bp ∧ ∀ x ∈ v, bp < x

section Search
variable {base bp p : ℕ} {s : Heap} {nodes held u v : List ℕ}

theorem tidy_lt (h : Tidy base s nodes held) : (base::nodes).Pairwise (· < ·) :=
  h.sorted.imp fun hab => Nat.lt_of_le_of_lt (Nat.le_add_right ..) hab

theorem base_le (h : Tidy base s nodes held) (hp : p ∈ base::nodes) : base ≤ p := by
  rcases List.mem_cons.mp hp with rfl | hp
  · exact Nat.le_refl p
  · exact Nat.le_of_lt ((List.pairwise_cons.mp (tidy_lt h)).1 p hp)

theorem lt_behind {y : ℕ} (h : Tidy base s nodes held) (hsplit : base::nodes = u++p::v) (hy : y ∈ v) :
    p < y := by
  have hlt := tidy_lt h
  rw [hsplit] at hlt
  exact (List.pairwise_cons.mp (List.pairwise_append.mp hlt).2.1).1 y hy

theorem search_up (h : Tidy base s nodes held) (hbp : bp ∉ base::nodes) (hlow : base < bp)
    (hsplit : base::nodes = u++p::v) (hp : p < bp) :
    Ends (fun k => freeLoop s bp k p) (Place base nodes bp) := by
  have hfrom := ((ring_around hsplit).mp h.ring).2
  induction v generalizing u p with
  | nil =>
    have hptr : s.ptr p = base := (List.isChain_cons_cons.mp hfrom).1
    have hle := base_le h (p := p) (hsplit ▸ by simp)
    refine ends_now ⟨u,[],hsplit,hp,by simp⟩ fun k => ?_
    rw [freeLoop, hptr, if_neg (by omega), if_pos (by omega)]
  | cons y v ih =>
    obtain ⟨hptr,hrest⟩ := List.isChain_cons_cons.mp hfrom
    have hpy : p < y := lt_behind h hsplit List.mem_cons_self
    by_cases hy : bp < y
    · refine ends_now ⟨u,y::v,hsplit,hp,fun x hx => ?_⟩ fun k => ?_
      · rcases List.mem_cons.mp hx with rfl | hx
        · exact hy
        · exact Nat.lt_trans hy (lt_behind (u := u++[p]) h (by rw [hsplit, List.append_assoc]; rfl) hx)
      · rw [freeLoop, hptr, if_pos ⟨hp,hy⟩]
    · have hne : y ≠ bp := by
        rintro rfl
        exact hbp (hsplit ▸ by simp)
      refine ends_next (ih (u := u++[p]) (by rw [hsplit, List.append_assoc]; rfl) (by omega) hrest)
        fun k => ?_
      rw [freeLoop, hptr, if_neg (by omega), if_neg (by omega)]

theorem search_down (h : Tidy base s nodes held) (hbp : bp ∉ base::nodes) (hlow : base < bp)
    (hsplit : base::nodes = u++p::v) (hp : bp < p) :
    Ends (fun k => freeLoop s bp k p) (Place base nodes bp) := by
  have hfrom := ((ring_around hsplit).mp h.ring).2
  induction v generalizing u p with
  | nil =>
    have hptr : s.ptr p = base := (List.isChain_cons_cons.mp hfrom).1
    refine ends_next (search_up (u := []) h hbp hlow rfl hlow) fun k => ?_
    rw [freeLoop, hptr, if_neg (by omega), if_neg (by omega)]
  | cons y v ih =>
    obtain ⟨hptr,hrest⟩ := List.isChain_cons_cons.mp hfrom
    have hpy : p < y := lt_behind h hsplit List.mem_cons_self
    refine ends_next (ih (u := u++[p]) (by rw [hsplit, List.append_assoc]; rfl) (by omega) hrest) fun k => ?_
    rw [freeLoop, hptr, if_neg (by omega), if_neg (by omega)]

theorem search_ends (h : Tidy base s nodes held) (hbp : bp ∉ base::nodes) (hlow : base < bp) :
    Ends (fun k => freeLoop s bp k s.freep) (Place base nodes bp) := by
  obtain ⟨u,v,hsplit⟩ := List.append_of_mem h.freep
  rcases Nat.lt_trichotomy s.freep bp with hlt | rfl | hgt
  · exact search_up h hbp hlow hsplit hlt
  · exact absurd h.freep hbp
  · exact search_down h hbp hlow hsplit hgt

end Search

/-- The block `bp` is tied to the nodes behind it. The nodes up to `p` do not lead to it yet. -/
structure Between (base : ℕ) (s : Heap) (u : List ℕ) (p bp : ℕ) (v rest : List ℕ) : Prop where
  first : (u++[p]).head? = some base
  before : Linked s.ptr (u++[p])
  behind : Linked s.ptr (bp::(v++[base]))
  sorted : (u++p::v).Pairwise (Gap s.size)
  below : p+HEADER*s.size p ≤ bp
  above : ∀ x ∈ v, Gap s.size bp x
  base_size : s.size base = 0
  size : ∀ b ∈ (u++p::v)++bp::rest, b ≠ base → 1 ≤ s.size b
  fill : Fill HEADER (blocks s.size ((u++p::v)++bp::rest)) s.regions
  nodup : ((u++p::v)++bp::rest).Nodup
  bound : bp+HEADER*s.size bp < WORD

section Joins
variable {base bp p : ℕ} {s : Heap} {nodes rest u v : List ℕ}

theorem plus_eq {n : ℕ} (h : p+HEADER*n < WORD) : plus p n = p+HEADER*n := Nat.mod_eq_of_lt h

theorem place_facts (h : Tidy base s nodes (bp::rest)) (hsplit : base::nodes = u++p::v) (hp : p < bp)
    (hv : ∀ x ∈ v, bp < x) :
    p+HEADER*s.size p ≤ bp ∧ (∀ x ∈ v, bp+HEADER*s.size bp ≤ x) ∧
    (∀ b ∈ (u++p::v)++bp::rest, b ≠ base → 1 ≤ s.size b) ∧
    Fill HEADER (blocks s.size ((u++p::v)++bp::rest)) s.regions ∧ ((u++p::v)++bp::rest).Nodup := by
  have happart : ∀ x ∈ nodes, Apart HEADER (x,s.size x) (bp,s.size bp) := fun x hx =>
    (List.pairwise_append.mp (tidy_apart h)).2.2 x hx bp List.mem_cons_self
  have hall : base::(nodes++bp::rest) = (u++p::v)++bp::rest := by rw [← hsplit, List.cons_append]
  have hmem : ∀ x ∈ p::v, x = base ∨ x ∈ nodes := fun x hx =>
    List.mem_cons.mp (hsplit ▸ List.mem_append_right u hx)
  have hbase := base_le h (p := p) (hsplit ▸ by simp)
  refine ⟨?_,fun x hx => ?_,fun b hb hne => ?_,?_,?_⟩
  · rcases hmem p List.mem_cons_self with rfl | hin
    · rw [h.base_size]
      omega
    · rcases happart p hin with hle | hle
      · exact hle
      · have hpos := Nat.le_add_right bp (HEADER*s.size bp)
        exact absurd (Nat.le_trans hpos hle) (Nat.not_le.mpr hp)
  · have hbx := hv x hx
    rcases hmem x (List.mem_cons_of_mem p hx) with rfl | hin
    · omega
    · rcases happart x hin with hle | hle
      · have hpos := Nat.le_add_right x (HEADER*s.size x)
        exact absurd (Nat.le_trans hpos hle) (Nat.not_le.mpr hbx)
      · exact hle
  · rw [← hall] at hb
    exact h.size b ((List.mem_cons.mp hb).resolve_left hne)
  · rw [← hall]
    exact (fill_base h.base_size).mpr h.fill
  · rw [← hall]
    exact tidy_nodup h

theorem joined {μ : ℕ → ℕ → ℕ} {a m n y : ℕ} (hμ : Additive HEADER μ) (hy : a+HEADER*m = y) :
    μ a (m+n) = μ a m+μ y n := by
  rw [hμ, hy]

theorem sorted_congr {size size' : ℕ → ℕ} {l : List ℕ} (hsame : ∀ b ∈ l, size' b = size b)
    (h : l.Pairwise (Gap size)) : l.Pairwise (Gap size') :=
  h.imp_of_mem fun {a b} ha _ hab => by
    rw [Gap, hsame a ha]
    exact hab

theorem joinUpper_between (h : Tidy base s nodes (bp::rest)) (hsplit : base::nodes = u++p::v) (hp : p < bp)
    (hv : ∀ x ∈ v, bp < x) :
    (joinUpper s bp p).regions = s.regions ∧ s.size bp ≤ (joinUpper s bp p).size bp ∧
    ∃ v', Between base (joinUpper s bp p) u p bp v' rest := by
  obtain ⟨hbelow,habove,hsize,hfill,hnodup⟩ := place_facts h hsplit hp hv
  obtain ⟨hto,hfrom⟩ := (ring_around hsplit).mp h.ring
  have hfirst : (u++[p]).head? = some base := by
    cases u <;> cases hsplit <;> rfl
  have hbase := base_le h (p := p) (hsplit ▸ by simp)
  have hbound := (tidy_bounds h (b := bp) (by simp)).2
  have hsorted := h.sorted
  rw [hsplit] at hsorted
  have hout : bp ∉ u++p::v := fun hin => (List.nodup_append.mp hnodup).2.2 bp hin bp List.mem_cons_self rfl
  have hrest : bp ∉ rest := (List.nodup_cons.mp (List.nodup_append.mp hnodup).2.1).1
  obtain ⟨hu,hne,hv'⟩ : bp ∉ u ∧ bp ≠ p ∧ bp ∉ v := by simpa using hout
  by_cases hmerge : plus bp (s.size bp) = s.ptr p
  · -- the block behind is the next node
    rw [joinUpper, if_pos hmerge]
    rw [plus_eq hbound] at hmerge
    rcases linked_next hfrom with ⟨-,hptr⟩ | ⟨y,l,rfl,hptr⟩
    · omega
    rw [hptr] at hmerge ⊢
    have hyb := hv y List.mem_cons_self
    have hin : y ∈ base::nodes := hsplit ▸ by simp
    have hy := (tidy_bounds h (List.mem_append_left _ ((List.mem_cons.mp hin).resolve_left (by omega)))).2
    have hsum : s.size bp+s.size y < WORD := by
      simp only [HEADER] at hmerge hy
      omega
    rw [Nat.mod_eq_of_lt hsum]
    have hsub : List.Sublist (u++p::l) (u++p::y::l) :=
      ((List.sublist_cons_self y l).cons_cons p).append_left u
    have hsame : ∀ b ∈ u++p::l, update s.size bp (s.size bp+s.size y) b = s.size b := fun b hb =>
      update_of_ne (ne_of_mem_of_not_mem (hsub.subset hb) hout) _ _
    have hself : update s.size bp (s.size bp+s.size y) bp = s.size bp+s.size y := update_self ..
    refine ⟨rfl,Nat.le_trans (Nat.le_add_right ..) hself.symm.le,l,⟨hfirst,linked_update hu hto,?_,
      sorted_congr hsame (hsorted.sublist hsub),?_,?_,?_,?_,?_,
      hnodup.sublist (hsub.append (List.Sublist.refl _)),?_⟩⟩
    all_goals simp only [Heap.setPtr, Heap.setSize, hptr]
    · exact linked_replace (fun hm => hv' (List.mem_cons_of_mem y hm)) (List.isChain_cons_cons.mp hfrom).2
    · rw [hsame p (by simp)]
      exact hbelow
    · intro x hx
      have hgap : Gap s.size y x :=
        (List.pairwise_cons.mp (List.pairwise_cons.mp (List.pairwise_append.mp hsorted).2.1).2).1 x hx
      simp only [Gap, HEADER] at hgap hmerge ⊢
      rw [hself]
      omega
    · rw [update_of_ne (by omega)]
      exact h.base_size
    · intro b hb hb'
      by_cases hbb : b = bp
      · have := hsize bp (by simp) (by omega)
        rw [hbb, hself]
        omega
      · rw [update_of_ne hbb]
        exact hsize b ((hsub.append (List.Sublist.refl _)).subset hb) hb'
    · intro μ hμ
      rw [← hfill μ hμ]
      simp only [blocks_append, blocks_cons, total_append, total_cons, blocks_update hu, blocks_update hrest,
        blocks_update (fun hm => hv' (List.mem_cons_of_mem y hm)), hself, joined hμ hmerge,
        update_of_ne hne.symm]
      omega
    · rw [hself]
      simp only [HEADER] at hmerge hy ⊢
      omega
  · rw [joinUpper, if_neg hmerge]
    rw [plus_eq hbound] at hmerge
    refine ⟨rfl,Nat.le_refl _,v,
      ⟨hfirst,linked_update hu hto,linked_replace hv' hfrom,hsorted,hbelow,fun x hx => ?_,
      h.base_size,hsize,hfill,hnodup,hbound⟩⟩
    -- the first node behind does not begin where the block ends
    rcases linked_next hfrom with ⟨rfl,-⟩ | ⟨y,l,rfl,hptr⟩
    · exact absurd hx (List.not_mem_nil)
    · have hy := habove y List.mem_cons_self
      have hgap : x = y ∨ y < x := (List.mem_cons.mp hx).imp id fun hx =>
        lt_behind (u := u++[p]) h (by rw [hsplit, List.append_assoc]; rfl) hx
      rw [hptr] at hmerge
      show bp+HEADER*s.size bp < x
      omega

theorem first_node {x : ℕ} (h : (u++[p]).head? = some base) :
    ∃ nodes, base::nodes = u++p::v ∧ (p ≠ base → p ∈ nodes) ∧ (x ∈ v → x ∈ nodes) := by
  cases u with
  | nil =>
    cases h
    exact ⟨v,rfl,fun hne => absurd rfl hne,id⟩
  | cons b u =>
    cases h
    exact ⟨u++p::v,rfl,fun _ => by simp,fun hx => by simp [hx]⟩

theorem behind_size (nodes : List ℕ) (h : Between base s u p bp v rest)
    (hsub : List.Subperm (base::(nodes++rest)) ((u++p::v)++bp::rest)) :
    ∀ b ∈ nodes++rest, 1 ≤ s.size b := by
  obtain ⟨l,hperm,hl⟩ := hsub
  have hnodup := hperm.nodup_iff.mp (h.nodup.sublist hl)
  intro b hb
  exact h.size b (hl.subset (hperm.mem_iff.mpr (List.mem_cons_of_mem base hb)))
    (ne_of_mem_of_not_mem hb (List.nodup_cons.mp hnodup).1)

theorem joinLower_tidy (h : Between base s u p bp v rest) (hs : Stacked base s.regions) :
    ∃ nodes, Tidy base { joinLower s bp p with freep := p } nodes rest ∧
      ∃ b ∈ nodes, s.size bp ≤ (joinLower s bp p).size b := by
  obtain ⟨hfront,hback,happ⟩ := List.nodup_append.mp h.nodup
  obtain ⟨hu,hpl2,hdis⟩ := List.nodup_append.mp hfront
  have hp1 : p ∉ u := fun hin => hdis p hin p List.mem_cons_self rfl
  have hp2 : p ∉ v := (List.nodup_cons.mp hpl2).1
  have hpb : p ≠ bp := happ p (by simp) bp List.mem_cons_self
  have hpr : p ∉ rest := fun hin => happ p (by simp) p (List.mem_cons_of_mem bp hin) rfl
  have hle : p+HEADER*s.size p < WORD :=
    Nat.lt_of_le_of_lt h.below (Nat.lt_of_le_of_lt (Nat.le_add_right ..) h.bound)
  by_cases hmerge : plus p (s.size p) = bp
  · rw [joinLower, if_pos hmerge]
    rw [plus_eq hle] at hmerge
    have hbase : p ≠ base := by
      rintro rfl
      rw [h.base_size] at hmerge
      omega
    have hsum : s.size p+s.size bp < WORD := by
      have := h.bound
      simp only [HEADER] at hmerge this
      omega
    rw [Nat.mod_eq_of_lt hsum]
    obtain ⟨nodes,hsplit,hin,-⟩ := first_node (v := v) (x := p) h.first
    have hsize := behind_size nodes h (by
      rw [← List.cons_append, hsplit]
      exact ((List.sublist_cons_self bp rest).append_left _).subperm)
    have hself : update s.size p (s.size p+s.size bp) p = s.size p+s.size bp := update_self ..
    have hbase_size : update s.size p (s.size p+s.size bp) base = 0 := by
      rw [update_of_ne hbase.symm]
      exact h.base_size
    refine ⟨nodes,⟨?_,?_,hbase_size,?_,?_,?_,hs⟩,p,hin hbase,Nat.le_trans (Nat.le_add_left ..) hself.symm.le⟩
    all_goals simp only [Heap.setPtr, Heap.setSize]
    · exact (ring_around hsplit).mpr ⟨linked_update hp1 h.before,linked_replace hp2 h.behind⟩
    · obtain ⟨hs1,hs2,hs12⟩ := List.pairwise_append.mp h.sorted
      have hsame : ∀ b, b ∈ u ∨ b ∈ v → update s.size p (s.size p+s.size bp) b = s.size b := by
        rintro b (hb | hb)
        · exact update_of_ne (ne_of_mem_of_not_mem hb hp1) _ _
        · exact update_of_ne (ne_of_mem_of_not_mem hb hp2) _ _
      rw [hsplit]
      refine List.pairwise_append.mpr
        ⟨sorted_congr (fun b hb => hsame b (.inl hb)) hs1,List.pairwise_cons.mpr ⟨fun x hx => ?_,
        sorted_congr (fun b hb => hsame b (.inr hb)) (List.pairwise_cons.mp hs2).2⟩,fun a ha b hb => ?_⟩
      · have hgap := h.above x hx
        simp only [Gap, HEADER] at hgap hmerge ⊢
        rw [hself]
        omega
      · rw [Gap, hsame a (.inl ha)]
        exact hs12 a ha b hb
    · intro b hb
      by_cases hbp : b = p
      · have := h.size p (by simp) hbase
        rw [hbp, hself]
        omega
      · rw [update_of_ne hbp]
        exact hsize b hb
    · refine (fill_base hbase_size).mp ?_
      rw [← List.cons_append, hsplit]
      intro μ hμ
      rw [← h.fill μ hμ]
      simp only [blocks_append, blocks_cons, total_append, total_cons, blocks_update hp1, blocks_update hp2,
        blocks_update hpr, hself, joined hμ hmerge]
      omega
    · rw [hsplit]
      simp
  · rw [joinLower, if_neg hmerge]
    rw [plus_eq hle] at hmerge
    obtain ⟨nodes,hsplit,-,hin⟩ := first_node (v := bp::v) (x := bp) h.first
    have hsize := behind_size nodes h (by
      rw [← List.cons_append, hsplit]
      exact List.Perm.subperm (by grind))
    refine ⟨nodes,⟨?_,?_,h.base_size,?_,?_,?_,hs⟩,bp,hin List.mem_cons_self,Nat.le_refl _⟩
    all_goals simp only [Heap.setPtr]
    · exact (ring_around hsplit).mpr ⟨linked_update hp1 h.before,List.isChain_cons_cons.mpr ⟨update_self ..,
        linked_update (l := bp::v) (by simp [hpb, hp2]) h.behind⟩⟩
    · obtain ⟨hs1,hs2,hs12⟩ := List.pairwise_append.mp h.sorted
      obtain ⟨hp,hs2⟩ := List.pairwise_cons.mp hs2
      have hgap : Gap s.size p bp := Nat.lt_of_le_of_ne h.below hmerge
      rw [hsplit]
      refine List.pairwise_append.mpr
        ⟨hs1,List.pairwise_cons.mpr ⟨?_,List.pairwise_cons.mpr ⟨h.above,hs2⟩⟩,fun a ha b hb => ?_⟩
      · exact List.forall_mem_cons.mpr ⟨hgap,hp⟩
      · rcases List.mem_cons.mp hb with rfl | hb
        · exact hs12 a ha b List.mem_cons_self
        · rcases List.mem_cons.mp hb with rfl | hb
          · exact Nat.lt_of_lt_of_le (hs12 a ha p List.mem_cons_self)
              (Nat.le_trans (Nat.le_add_right ..) h.below)
          · exact hs12 a ha b (List.mem_cons_of_mem p hb)
    · exact hsize
    · refine (fill_base h.base_size).mp ?_
      rw [← List.cons_append, hsplit]
      intro μ hμ
      rw [← h.fill μ hμ]
      simp only [blocks_append, blocks_cons, total_append, total_cons]
      omega
    · rw [hsplit]
      simp

theorem free_ends (h : Tidy base s nodes (bp::rest)) :
    Ends (fun k => free k (plus bp 1) s) (fun s' => s'.regions = s.regions ∧ s'.asked = s.asked ∧
      ∃ nodes', Tidy base s' nodes' rest ∧ ∃ b ∈ nodes', s.size bp ≤ s'.size b) := by
  have hsize := h.size bp (by simp)
  have hbounds := tidy_bounds h (b := bp) (by simp)
  have hout : bp ∉ base::nodes := by
    intro hin
    have hnodup := tidy_nodup h
    rw [← List.cons_append] at hnodup
    exact (List.nodup_append.mp hnodup).2.2 bp hin bp List.mem_cons_self rfl
  have hbp : (plus bp 1+WORD-HEADER)%WORD = bp := by
    simp only [plus, HEADER, WORD] at hbounds ⊢
    omega
  obtain ⟨p,⟨u,v,hsplit,hp,hv⟩,n,hn⟩ := search_ends h hout (by simp only [HEADER] at hbounds; omega)
  obtain ⟨hregions,hgrown,v',hbetween⟩ := joinUpper_between h hsplit hp hv
  obtain ⟨nodes',htidy,b,hb,hbsize⟩ := joinLower_tidy hbetween (hregions ▸ h.stacked)
  refine ⟨{ joinLower (joinUpper s bp p) bp p with freep := p },
    ⟨?_,?_,nodes',htidy,b,hb,Nat.le_trans hgrown hbsize⟩,n,fun k hk => ?_⟩
  · rw [← hregions, joinLower]
    split <;> rfl
  · rw [joinLower, joinUpper]
    split <;> split <;> rfl
  · have hfound : freeLoop s bp k s.freep = some p := hn k hk
    simp only [free, hbp, hfound]
    rfl

end Joins

end Xv6.UserFree

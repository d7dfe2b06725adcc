import Xv6.UserFree

/-!
# Blocks from the free list

`malloc` goes round the list for the first block that is large enough. If there is none, `morecore`
frees a new region, and the second round finds a block.
-/

set_option autoImplicit false

namespace Xv6.UserMalloc
open PointerRing BlockTiling UserAlloc UserFree
open Function

/-- A region that `sbrk` returns is above the base and above all earlier regions. It does not reach
the last address: `growproc` refuses memory from `KERNBASE` on. -/
def Fresh (base : ℕ) (sbrk : Sbrk) : Prop :=
  ∀ s n p, sbrk s n = some p → base+HEADER ≤ p ∧ (∀ r ∈ s.regions, r.1+HEADER*r.2 ≤ p) ∧ p+n < WORD

def Allocated (base nunits : ℕ) (held : List ℕ) (r : ℕ × Heap) : Prop :=
  ∃ b nodes, r.1 = plus b 1 ∧ r.2.size b = nunits ∧ Tidy base r.2 nodes (b::held)

section Take
variable {base a b nunits : ℕ} {s : Heap} {nodes held u v : List ℕ}

theorem take_same : (take nunits s a b).2.regions = s.regions ∧ (take nunits s a b).2.asked = s.asked := by
  rw [take]
  split <;> exact ⟨rfl,rfl⟩

theorem fill_perm {size : ℕ → ℕ} {l l' : List ℕ} {regions : List Block} (hperm : l.Perm l')
    (h : Fill HEADER (blocks size l') regions) : Fill HEADER (blocks size l) regions := fun μ hμ =>
  (total_perm (hperm.map _)).trans (h μ hμ)

theorem take_whole (h : Tidy base s nodes held) (hsplit : base::nodes = u++a::b::v) :
    ∃ nodes', Tidy base { s.setPtr a (s.ptr b) with freep := a } nodes' (b::held) := by
  obtain ⟨hto,hfrom⟩ := (ring_around hsplit).mp h.ring
  have hsorted := h.sorted
  have hlt := tidy_lt h
  rw [hsplit] at hsorted hlt
  obtain ⟨ha1,ha2⟩ : a ∉ u ∧ a ∉ v := by
    have hnodup := List.nodup_iff_pairwise_ne.mpr (hlt.imp Nat.ne_of_lt)
    grind
  obtain ⟨nodes',hsplit',-,-⟩ := first_node (v := v) (x := a) (u := u) (p := a) (show _ = some base by
    cases u <;> cases hsplit <;> rfl)
  have hperm : (nodes'++b::held).Perm (nodes++held) := by
    refine List.Perm.cons_inv (a := base) ?_
    rw [← List.cons_append, ← List.cons_append, hsplit', hsplit]
    grind
  refine ⟨nodes',⟨(ring_around hsplit').mpr
    ⟨linked_update ha1 hto,linked_replace ha2 (List.isChain_cons_cons.mp hfrom).2⟩,?_,
    h.base_size,fun x hx => h.size x (hperm.mem_iff.mp hx),fill_perm hperm h.fill,?_,h.stacked⟩⟩
  · rw [hsplit']
    exact hsorted.sublist (((List.sublist_cons_self b v).cons_cons a).append_left u)
  · rw [hsplit']
    exact List.mem_append_right u List.mem_cons_self

theorem inside_new (h : Tidy base s nodes held) (hb : b ∈ nodes) {x : ℕ} (hx : Has HEADER (b,s.size b) x)
    (hne : x ≠ b) :
    x ∉ base::(nodes++held) := by
  intro hin
  obtain ⟨hlow,-⟩ := tidy_bounds h (List.mem_append_left held hb)
  rcases List.mem_cons.mp hin with rfl | hin
  · have := hx.1
    simp only [HEADER] at hlow this
    omega
  · have : Std.Symm (fun b c => Apart HEADER (b,s.size b) (c,s.size c)) := ⟨fun _ _ => Or.symm⟩
    have hapart := (tidy_apart h).forall (List.mem_append_left held hb) hin hne.symm
    have hsize := h.size x hin
    simp only [Has, Apart, HEADER] at hx hapart
    omega

theorem take_end (h : Tidy base s nodes held) (ha : a ∈ base::nodes) (hb : b ∈ nodes) (hpos : 1 ≤ nunits)
    (hlt : nunits < s.size b) :
    Tidy base { (s.setSize b (s.size b-nunits)).setSize
      (b+HEADER*(s.size b-nunits)) nunits with freep := a } nodes
      ((b+HEADER*(s.size b-nunits))::held) := by
  have hnew := inside_new h hb (x := b+HEADER*(s.size b-nunits)) (by simp only [Has, HEADER]; omega)
    (by simp only [HEADER]; omega)
  obtain ⟨hlow,-⟩ := tidy_bounds h (List.mem_append_left held hb)
  have hcb : b+HEADER*(s.size b-nunits) ≠ b := by
    simp only [HEADER]
    omega
  generalize hc : b+HEADER*(s.size b-nunits) = c at hnew hcb
  generalize hsize' : update (update s.size b (s.size b-nunits)) c nunits = size'
  obtain ⟨hatb,hatc,hat⟩ : size' b = s.size b-nunits ∧ size' c = nunits ∧ ∀ x ∈ base::(nodes++held), x ≠ b →
    size' x = s.size x := by
    subst hsize'
    refine ⟨by rw [update_of_ne hcb.symm, update_self],update_self ..,fun x hx hne => ?_⟩
    rw [update_of_ne (ne_of_mem_of_not_mem hx hnew), update_of_ne hne]
  have hnodup := tidy_nodup h
  refine ⟨h.ring,?_,?_,?_,?_,ha,h.stacked⟩
  all_goals simp only [Heap.setSize, hsize']
  · refine h.sorted.imp_of_mem fun {x y} hx _ hxy => ?_
    have hle : size' x ≤ s.size x := by
      by_cases hxb : x = b
      · rw [hxb, hatb]
        exact Nat.sub_le ..
      · exact (hat x (List.mem_append_left held hx) hxb).le
    exact Nat.lt_of_le_of_lt (Nat.add_le_add_left (Nat.mul_le_mul_left _ hle) x) hxy
  · rw [hat base List.mem_cons_self (by rintro rfl; simp only [HEADER] at hlow; omega)]
    exact h.base_size
  · intro x hx
    by_cases hxb : x = b
    · rw [hxb, hatb]
      omega
    · rcases List.mem_cons.mp (List.perm_middle.mem_iff.mp hx) with rfl | hx
      · rw [hatc]
        exact hpos
      · rw [hat x (List.mem_cons_of_mem base hx) hxb]
        exact h.size x hx
  · intro μ hμ
    rw [← h.fill μ hμ]
    obtain ⟨u,v,rfl⟩ := List.append_of_mem hb
    have hsame : ∀ l, (∀ x ∈ l, x ∈ base::(u++b::v++held)) → b ∉ l → blocks size' l = blocks s.size l :=
      fun l hl hbl =>
      List.map_congr_left fun x hx => by rw [hat x (hl x hx) (ne_of_mem_of_not_mem hx hbl)]
    have hcut := joined (n := nunits) hμ hc
    rw [Nat.sub_add_cancel hlt.le] at hcut
    simp only [blocks_append, blocks_cons, total_append, total_cons, hatb, hatc, hcut]
    rw [hsame u (by grind) (by grind), hsame v (by grind) (by grind), hsame held (by grind) (by grind)]
    omega

theorem take_allocates (h : Tidy base s nodes held) (ha : a ∈ base::nodes) (hpos : 1 ≤ nunits)
    (hle : nunits ≤ s.size (s.ptr a)) :
    Allocated base nunits held (take nunits s a (s.ptr a)) := by
  have hbase : s.ptr a ≠ base := by
    intro heq
    rw [heq, h.base_size] at hle
    omega
  obtain ⟨u,v,hsplit⟩ := ring_next h.ring ha hbase
  have hin : s.ptr a ∈ nodes := (List.mem_cons.mp (hsplit ▸ by simp)).resolve_left hbase
  by_cases hwhole : s.size (s.ptr a) = nunits
  · obtain ⟨nodes',htidy⟩ := take_whole h hsplit
    rw [take, if_pos hwhole]
    exact ⟨s.ptr a,nodes',rfl,hwhole,htidy⟩
  · have hlt := Nat.lt_of_le_of_ne hle (Ne.symm hwhole)
    have hbound := (tidy_bounds h (List.mem_append_left held hin)).2
    rw [take, if_neg hwhole]
    have hplus : plus (s.ptr a) (s.size (s.ptr a)-nunits) = s.ptr a+HEADER*(s.size (s.ptr a)-nunits) :=
      plus_eq (by
      simp only [HEADER] at hbound ⊢
      omega)
    have hself : (s.setSize (s.ptr a) (s.size (s.ptr a)-nunits)).size (s.ptr a) = s.size (s.ptr a)-nunits :=
      update_self ..
    simp only [hself, hplus]
    exact ⟨_,nodes,rfl,update_self ..,take_end h ha hin hpos hlt⟩

end Take

section Search
variable {base a nu nunits : ℕ} {sbrk : Sbrk} {s : Heap} {nodes held l : List ℕ}

theorem tidy_region {p n : ℕ} (asked : List ℕ) (h : Tidy base s nodes held) (hpos : 1 ≤ n)
    (hlow : base+HEADER ≤ p)
    (habove : ∀ r ∈ s.regions, r.1+HEADER*r.2 ≤ p) (htop : p+HEADER*n < WORD) :
    Tidy base (Heap.setSize { s with asked := asked, regions := (p,n)::s.regions } p n) nodes (p::held) := by
  have hnew : p ∉ base::(nodes++held) := by
    intro hin
    rcases List.mem_cons.mp hin with rfl | hin
    · simp only [HEADER] at hlow
      omega
    · have hsize := h.size p hin
      obtain ⟨r,hr,-,hlt⟩ :=
        fill_inside h.fill (List.mem_map_of_mem hin) (x := p) (by simp only [Has, HEADER]; omega)
      exact absurd (habove r hr) (Nat.not_le.mpr hlt)
  have hout := List.not_mem_of_not_mem_cons hnew
  have hsame : ∀ x ∈ base::(nodes++held), update s.size p n x = s.size x := fun x hx =>
    update_of_ne (ne_of_mem_of_not_mem hx hnew) _ _
  refine ⟨h.ring,sorted_congr (fun x hx => hsame x (List.mem_append_left held hx)) h.sorted,
    (hsame base List.mem_cons_self).trans h.base_size,fun x hx => ?_,fun μ hμ => ?_,h.freep,
    ⟨List.pairwise_cons.mpr ⟨habove,h.stacked.order⟩,
      List.forall_mem_cons.mpr ⟨⟨hlow,htop⟩,h.stacked.bounds⟩⟩⟩
  · simp only [Heap.setSize]
    rcases List.mem_cons.mp (List.perm_middle.mem_iff.mp hx) with rfl | hx
    · rw [update_self]
      exact hpos
    · rw [hsame x (List.mem_cons_of_mem base hx)]
      exact h.size x hx
  · have hfill := h.fill μ hμ
    simp only [Heap.setSize, blocks_append, blocks_cons, total_append, total_cons, update_self,
      blocks_update (fun hm => hout (List.mem_append_left held hm)),
      blocks_update (fun hm => hout (List.mem_append_right nodes hm))] at hfill ⊢
    omega

theorem morecore_ends (h : Tidy base s nodes held) (hsbrk : Fresh base sbrk) (hmore : more nu*HEADER < WORD) :
    Ends (fun k => morecore sbrk k nu s) (fun r => r.2.asked = (more nu*HEADER)::s.asked ∧
      ((r.1 = 0 ∧ Tidy base r.2 nodes held) ∨
      (r.1 = r.2.freep ∧ ∃ nodes', Tidy base r.2 nodes' held ∧ ∃ b ∈ nodes', nu ≤ r.2.size b))) := by
  have hle : nu ≤ more nu ∧ 1 ≤ more nu := by
    rw [more]
    split <;> omega
  simp only [morecore, Nat.mod_eq_of_lt hmore, Nat.mul_div_cancel _ (by decide : 0 < HEADER)]
  cases hp : sbrk { s with asked := (more nu*HEADER)::s.asked } (more nu*HEADER) with
  | none =>
    exact ⟨_,⟨rfl,.inl ⟨rfl,⟨h.ring,h.sorted,h.base_size,h.size,h.fill,h.freep,h.stacked⟩⟩⟩,0,fun k _ => rfl⟩
  | some p =>
    obtain ⟨hlow,habove,htop⟩ := hsbrk _ _ _ hp
    rw [Nat.mul_comm] at htop
    obtain ⟨s',⟨-,hasked,nodes',htidy,b,hb,hsize⟩,n,hn⟩ :=
      free_ends (tidy_region ((more nu*HEADER)::s.asked) h hle.2 hlow habove htop)
    have hself : (Heap.setSize { s with
        asked := (more nu*HEADER)::s.asked, regions := (p,more nu)::s.regions } p
      (more nu)).size p = more nu :=
      update_self ..
    rw [hself] at hsize
    refine ⟨(s'.freep,s'),⟨hasked,.inr ⟨rfl,nodes',htidy,b,hb,Nat.le_trans hle.1 hsize⟩⟩,n,fun k hk => ?_⟩
    exact congrArg (Option.map fun s => (s.freep,s)) (hn k hk)

def refill (sbrk : Sbrk) (fuel nunits k : ℕ) (s : Heap) : Option (ℕ × Heap) :=
  (morecore sbrk fuel nunits s).bind fun r => if r.1 = 0 then some (0,r.2)
  else mallocLoop sbrk fuel nunits k r.2 r.1 (r.2.ptr r.1)

theorem walk (sbrk : Sbrk) (nunits : ℕ) (h : Linked s.ptr (a::(l++[s.freep]))) (hl : s.freep ∉ l) :
    (∃ b ∈ a::l, nunits ≤ s.size (s.ptr b) ∧
    ∀ fuel k, mallocLoop sbrk fuel nunits (k+(l.length+1)) s a (s.ptr a) = some (take nunits s b (s.ptr b))) ∨
    ((∀ x ∈ l++[s.freep], s.size x < nunits) ∧
    ∀ fuel k, mallocLoop sbrk fuel nunits (k+(l.length+1)) s a (s.ptr a) = refill sbrk fuel nunits k s) := by
  induction l generalizing a with
  | nil =>
    have hptr : s.ptr a = s.freep := (List.isChain_cons_cons.mp h).1
    by_cases hfit : nunits ≤ s.size (s.ptr a)
    · exact .inl ⟨a,List.mem_cons_self,hfit,fun fuel k => by rw [List.length_nil, mallocLoop, if_pos hfit]⟩
    · refine .inr ⟨?_,fun fuel k => ?_⟩
      · rw [hptr] at hfit
        simpa using hfit
      · rw [List.length_nil, mallocLoop, if_neg hfit, if_pos hptr]
        rfl
  | cons y l ih =>
    obtain ⟨hptr,hrest⟩ := List.isChain_cons_cons.mp h
    obtain ⟨hy,hl⟩ : s.freep ≠ y ∧ s.freep ∉ l := by simpa using hl
    by_cases hfit : nunits ≤ s.size (s.ptr a)
    · exact .inl ⟨a,List.mem_cons_self,hfit,
        fun fuel k => by rw [List.length_cons, ← Nat.add_assoc, mallocLoop, if_pos hfit]⟩
    have hstep : ∀ fuel k, mallocLoop sbrk fuel nunits (k+((y::l).length+1)) s a (s.ptr a) =
      mallocLoop sbrk fuel nunits (k+(l.length+1)) s y (s.ptr y) := by
      intro fuel k
      rw [List.length_cons, ← Nat.add_assoc, mallocLoop, if_neg hfit, if_neg (hptr ▸ Ne.symm hy), hptr]
    rcases ih hrest hl with ⟨b,hb,hfits,hrun⟩ | ⟨hsmall,hrun⟩
    · exact .inl ⟨b,List.mem_cons_of_mem a hb,hfits,fun fuel k => (hstep fuel k).trans (hrun fuel k)⟩
    · refine .inr ⟨List.forall_mem_cons.mpr ⟨?_,hsmall⟩,fun fuel k => (hstep fuel k).trans (hrun fuel k)⟩
      rw [hptr] at hfit
      exact Nat.not_le.mp hfit

theorem round (sbrk : Sbrk) (nunits : ℕ) (h : Tidy base s nodes held) :
    (∃ b ∈ base::nodes, nunits ≤ s.size (s.ptr b) ∧
      ∃ n, ∀ fuel, ∀ k ≥ n, mallocLoop sbrk fuel nunits k s s.freep (s.ptr s.freep) =
      some (take nunits s b (s.ptr b))) ∨
    ((∀ x ∈ base::nodes, s.size x < nunits) ∧
      ∃ n, ∀ fuel, ∀ k, mallocLoop sbrk fuel nunits (k+n) s s.freep (s.ptr s.freep) =
      refill sbrk fuel nunits k s) := by
  obtain ⟨u,v,hsplit⟩ := List.append_of_mem h.freep
  have htour := ring_tour h.ring hsplit
  rw [← List.append_assoc] at htour
  have hnodup := List.nodup_iff_pairwise_ne.mpr ((tidy_lt h).imp Nat.ne_of_lt)
  rw [hsplit] at hnodup ⊢
  rcases walk sbrk nunits htour (by grind) with ⟨b,hb,hfits,hrun⟩ | ⟨hsmall,hrun⟩
  · refine .inl ⟨b,by grind,hfits,(v++u).length+1,fun fuel k hk => ?_⟩
    obtain ⟨k,rfl⟩ := Nat.exists_eq_add_of_le' hk
    exact hrun fuel k
  · exact .inr ⟨fun x hx => hsmall x (by grind),_,hrun⟩

def search (sbrk : Sbrk) (nunits : ℕ) (s : Heap) (k : ℕ) : Option (ℕ × Heap) :=
  mallocLoop sbrk k nunits k s s.freep (s.ptr s.freep)

theorem search_found (sbrk : Sbrk) (h : Tidy base s nodes held) (hpos : 1 ≤ nunits)
    (hfit : ∃ b ∈ base::nodes, nunits ≤ s.size b) :
    Ends (search sbrk nunits s) (fun r => r.2.asked = s.asked ∧ Allocated base nunits held r) := by
  rcases round sbrk nunits h with ⟨b,hb,hfits,n,hn⟩ | ⟨hsmall,-⟩
  · exact ⟨_,⟨take_same.2,take_allocates h hb hpos hfits⟩,n,fun k hk => hn k k hk⟩
  · obtain ⟨b,hb,hle⟩ := hfit
    exact absurd hle (Nat.not_le.mpr (hsmall b hb))

theorem search_refill (sbrk : Sbrk) (h : Tidy base s nodes held)
    (hsmall : ∀ b ∈ base::nodes, s.size b < nunits) :
    ∃ n, ∀ fuel, ∀ k, mallocLoop sbrk fuel nunits (k+n) s s.freep (s.ptr s.freep) =
    refill sbrk fuel nunits k s := by
  rcases round sbrk nunits h with ⟨b,hb,hfits,-⟩ | ⟨-,hrun⟩
  · have hin : s.ptr b ∈ base::nodes := by
      by_cases hbase : s.ptr b = base
      · rw [hbase]
        exact List.mem_cons_self
      · obtain ⟨u,v,hsplit⟩ := ring_next h.ring hb hbase
        rw [hsplit]
        simp
    exact absurd hfits (Nat.not_le.mpr (hsmall _ hin))
  · exact hrun

theorem search_refused (h : Tidy base s nodes held) (hsmall : ∀ b ∈ base::nodes, s.size b < nunits) :
    Ends (search (fun _ _ => none) nunits s)
      (fun r => r.1 = 0 ∧ r.2.asked = (more nunits*HEADER%WORD)::s.asked) := by
  obtain ⟨n,hn⟩ := search_refill (fun _ _ => none) h hsmall
  refine ⟨(0,{ s with asked := (more nunits*HEADER%WORD)::s.asked }),⟨rfl,rfl⟩,n,fun k hk => ?_⟩
  obtain ⟨j,rfl⟩ := Nat.exists_eq_add_of_le' hk
  exact hn (j+n) j

theorem search_grows (hbase : 0 < base) (hsbrk : Fresh base sbrk) (h : Tidy base s nodes held)
    (hpos : 1 ≤ nunits)
    (hmore : more nunits*HEADER < WORD) (hsmall : ∀ b ∈ base::nodes, s.size b < nunits) :
    Ends (search sbrk nunits s) (fun r => r.2.asked = (more nunits*HEADER)::s.asked ∧
      ((r.1 = 0 ∧ Tidy base r.2 nodes held) ∨ Allocated base nunits held r)) := by
  obtain ⟨n,hn⟩ := search_refill sbrk h hsmall
  obtain ⟨⟨p,s'⟩,⟨hasked,hmorecore⟩,m,hm⟩ := morecore_ends h hsbrk hmore
  dsimp only at hasked hmorecore hm
  rcases hmorecore with ⟨rfl,htidy⟩ | ⟨rfl,nodes',htidy,b,hb,hfit⟩
  · refine ⟨(0,s'),⟨hasked,.inl ⟨rfl,htidy⟩⟩,n+m,fun k hk => ?_⟩
    obtain ⟨j,rfl⟩ := Nat.exists_eq_add_of_le' (Nat.le_trans (Nat.le_add_right n m) hk)
    rw [search, hn, refill, hm _ (by omega)]
    rfl
  · -- the second round begins at the new `freep`
    have hne : s'.freep ≠ 0 := Nat.ne_of_gt (Nat.lt_of_lt_of_le hbase (base_le htidy htidy.freep))
    rcases round sbrk nunits htidy with ⟨c,hc,hfits,i,hi⟩ | ⟨hsmall',-⟩
    · refine ⟨_,⟨take_same.2.trans hasked,.inr (take_allocates htidy hc hpos hfits)⟩,n+m+i,fun k hk => ?_⟩
      obtain ⟨j,rfl⟩ :=
        Nat.exists_eq_add_of_le' (Nat.le_trans (Nat.le_add_right n (m+i)) (by omega : n+(m+i) ≤ k))
      rw [search, hn, refill, hm _ (by omega)]
      exact (if_neg hne).trans (hi _ j (by omega))
    · exact absurd hfit (Nat.not_le.mpr (hsmall' b (List.mem_cons_of_mem base hb)))

end Search

def Kept (base : ℕ) (s : Heap) (nodes held : List ℕ) : Prop :=
  (s.freep = 0 ∧ s.regions = [] ∧ nodes = [] ∧ held = []) ∨ Tidy base s nodes held

section Start
variable {base nbytes : ℕ} {sbrk : Sbrk} {s : Heap} {nodes held : List ℕ}

theorem start_tidy (hbase : 0 < base) (h : Kept base s nodes held) : Tidy base (start base s) nodes held := by
  rcases h with ⟨hfreep,hregions,rfl,rfl⟩ | h
  · rw [start, if_pos hfreep]
    refine ⟨?_,List.pairwise_singleton ..,update_self ..,by simp,?_,List.mem_cons_self,?_⟩
    · exact List.isChain_cons_cons.mpr ⟨update_self ..,List.isChain_singleton base⟩
    · simp only [Heap.setPtr, Heap.setSize, hregions]
      exact fun μ _ => rfl
    · simp only [Heap.setPtr, Heap.setSize, hregions]
      exact ⟨List.Pairwise.nil,by simp⟩
  · rw [start, if_neg (Nat.ne_of_gt (Nat.lt_of_lt_of_le hbase (base_le h h.freep)))]
    exact h

theorem start_asked : (start base s).asked = s.asked := by
  rw [start]
  split <;> rfl

theorem units_pos : 1 ≤ units nbytes := Nat.le_add_left ..

theorem malloc_ends (hbase : 0 < base) (hsbrk : Fresh base sbrk) (h : Kept base s nodes held)
    (hn : units nbytes*HEADER < WORD) :
    Ends (fun k => malloc base sbrk k nbytes s)
      (fun r => (r.2.asked = s.asked ∨ r.2.asked = (more (units nbytes)*HEADER)::s.asked) ∧
      ((r.1 = 0 ∧ Tidy base r.2 nodes held) ∨ Allocated base (units nbytes) held r)) := by
  have htidy := start_tidy hbase h
  by_cases hfit : ∃ b ∈ base::nodes, units nbytes ≤ (start base s).size b
  · obtain ⟨r,⟨hasked,halloc⟩,hends⟩ := search_found sbrk htidy units_pos hfit
    exact ⟨r,⟨.inl (hasked.trans start_asked),.inr halloc⟩,hends⟩
  · have hmore : more (units nbytes)*HEADER < WORD := by
      rw [more]
      split
      · decide
      · exact hn
    obtain ⟨r,⟨hasked,hr⟩,hends⟩ := search_grows hbase hsbrk htidy units_pos hmore (by simpa using hfit)
    rw [start_asked] at hasked
    exact ⟨r,⟨.inr hasked,hr⟩,hends⟩

end Start

end Xv6.UserMalloc

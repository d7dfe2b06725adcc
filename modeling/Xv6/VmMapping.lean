import Xv6.PageTables

/-!
# Making and freeing page tables

The functions `walkpgdir`, `mappages`, `deallocuvm`, `freevm` and `setupkvm` on a sound
address space. Where `setupkvm` fails, it has given back all it took.
-/

set_option autoImplicit false

namespace Xv6.VmMapping
open CommandTree HeapRegions VmCode VmHeap VmSpaces PageTables
open Function

variable {lay : Layout} {A : Terms} {h h' : PageHeap} {S S' : Space} {i j : Index} {a va v t x : ℕ}

theorem pde_none (hi : S.tab i = none) : has (S.pde i) PTE_P = false := by
  have : S.pde i = 0 := by
    rw [Space.pde, hi]
  rw [this]
  decide

theorem pde_some (hs : Sound lay h S) (hi : S.tab i = some t) :
    has (S.pde i) PTE_P = true ∧ P2V (PTE_ADDR (S.pde i)) = t := by
  have hpde : S.pde i = V2P t ||| PTE_P ||| PTE_W ||| PTE_U := by
    rw [Space.pde, hi]
  have hentry := table_entry (hs.valid (hs.table hi))
  rw [hpde, ← frame_eq]
  exact hentry

theorem walk_spec (hs : Sound lay h S) {Q : Option (ℕ × Index) → PageHeap → Prop}
    (hnone : S.tab (PDX va) = none → Q none h)
    (hsome : ∀ t, S.tab (PDX va) = some t → Q (some (t,PTX va)) h) :
    Does lay A (walkpgdir S.dir va false) Q h := by
  refine does_bind (does_word hs.dir ?_)
  cases htab : S.tab (PDX va) with
  | none =>
    rw [if_neg (by rw [pde_none htab]; exact Bool.false_ne_true), if_pos rfl]
    exact does_pure (hnone htab)
  | some t =>
    obtain ⟨hp,ht⟩ := pde_some hs htab
    rw [if_pos hp, ht]
    exact does_pure (hsome t htab)

structure Walked (S : Space) (va t : ℕ) (S' : Space) : Prop where
  tab : S'.tab (PDX va) = some t
  other : ∀ i, i ≠ PDX va → S'.tab i = S.tab i
  dir : S'.dir = S.dir
  pte : S'.pte = S.pte
  data : S'.data = S.data

theorem walk_alloc_spec (hs : Sound lay h S) {Q : Option (ℕ × Index) → PageHeap → Prop} 
    (hfail : A.fail h → Q none h)
    (hok : ∀ t S' h', Walked S va t S' → Sound lay h' S' → Moves h S.In h' S'.In → Q (some (t,PTX va)) h') :
    Does lay A (walkpgdir S.dir va true) Q h := by
  refine does_bind (does_word hs.dir ?_)
  cases htab : S.tab (PDX va) with
  | some t =>
    obtain ⟨hp,ht⟩ := pde_some hs htab
    rw [if_pos hp, ht]
    exact does_pure (hok t S h ⟨htab,fun _ _ => rfl,rfl,rfl,rfl⟩ hs (moves_refl _ _))
  | none =>
    rw [if_neg (by rw [pde_none htab]; exact Bool.false_ne_true), if_neg (by decide)]
    refine does_bind (does_kalloc (fun hf => ?_) fun t x ht hfree hpage => ?_)
    · rw [if_pos rfl]
      exact does_pure (hfail hf)
    · rw [if_neg ht]
      have hout := sound_out hs hfree
      have hdir : S.dir ≠ t := fun heq => hout ⟨.dir,heq.symm⟩
      refine does_bind (does_clear (update_self _ _ _) ?_)
      rw [update_idem]
      have hs1 : Sound lay (update h t (some fun _ => 0)) S := sound_outside hs hpage hout
      refine does_bind (does_setWord hs1.dir (does_pure ?_))
      refine hok t (S.setTab (PDX va) t) _
        ⟨update_self _ _ _,fun _ hi => update_of_ne hi _ _,rfl,rfl,rfl⟩
        (sound_setTab hs1 htab (update_self _ _ _) hout) ?_
      have hmove := moves_trans (moves_alloc (x := fun _ => 0) hfree S.In)
        (moves_write (A := fun u => S.In u ∨ u = t) (v := S.dir)
          (x := update S.pde (PDX va) (V2P t ||| PTE_P ||| PTE_W ||| PTE_U)) (.inl ⟨.dir,rfl⟩))
      exact moves_congr hmove (fun _ => Iff.rfl) (fun _ => (in_setTab htab).symm)

theorem sound_write (hs : Sound lay h S) (htab : S.tab i = some t)
    (hnew : i.val < 512 → has x PTE_P = true ∧ h (frame x) = some (S.data i j) ∧ ¬S.In (frame x)) :
    Sound lay (update h t (some (update (S.pte i) j x))) (S.setPte i j x) := by
  refine sound_setPte hs htab (valid_write hs.valid (hs.valid (hs.table htab))) (update_self _ _ _)
    (fun v a _ _ hv => update_of_ne hv _ _) (fun hi _ => ?_) (fun hi hp => ?_)
  · obtain ⟨-,hf,hout⟩ := hnew hi
    have hne : frame x ≠ t := fun heq => hout ⟨.table i,heq ▸ htab⟩
    exact ⟨by rw [update_of_ne hne, hf],fun a _ ha => hout ⟨a,ha⟩⟩
  · rw [(hnew hi).1] at hp
    cases hp

structure Mapped (S : Space) (a x : ℕ) (f : Words) (S' : Space) : Prop where
  dir : S'.dir = S.dir
  tab : ∀ i, 512 ≤ i.val → S'.tab i = S.tab i
  pte : ∀ i j, S'.pte i j = if addr i j = a then x else S.pte i j
  data : ∀ i j, S'.data i j = if addr i j = a then f else S.data i j

theorem map_user_spec {perm : ℕ} {f : Words} (hs : Sound lay h S) (hpage : a%PGSIZE = 0) (ha : a < KERNBASE)
    (hfree : S.pte (PDX a) (PTX a) = 0) (hv : h v = some f) (hout : ¬S.In v) (hperm : perm < PGSIZE)
    {Q : Bool → PageHeap → Prop} (hfail : A.fail h → Q false h)
    (hok : ∀ S' h', Sound lay h' S' → Mapped S a (V2P v ||| perm ||| PTE_P) f S' →
      Moves h (fun u => S.In u ∨ u = v) h' S'.In → Q true h') :
    Does lay A (mappages S.dir a PGSIZE (V2P v) perm) Q h := by
  obtain ⟨hp,hframe,-⟩ := page_frame (hs.valid hv) hperm
  have hdown : PGROUNDDOWN a = a := by
    simp only [PGROUNDDOWN, PGSIZE] at hpage ⊢
    omega
  have hlast : PGROUNDDOWN ((a+PGSIZE+WORD-1)%WORD) = a := by
    simp only [PGROUNDDOWN, PGSIZE, WORD, KERNBASE] at hpage ha ⊢
    omega
  have hrounds : (a+WORD-a)%WORD/PGSIZE+1 = 1 := by
    simp only [PGSIZE, WORD]
    omega
  simp only [mappages, hdown, hlast, hrounds]
  rw [mapFrom]
  refine does_bind (walk_alloc_spec hs (fun hf => ?_) fun t S1 h1 hwalk hs1 hmove => ?_)
  · exact does_pure (hfail hf)
  · obtain ⟨htab,hother,hdir,hpte,hdata⟩ := hwalk
    have hv1 : h v ≠ none := by
      rw [hv]
      exact Option.some_ne_none f
    obtain ⟨hkeep,hout1⟩ := moves_keep hmove hv1 hout
    refine does_bind (does_word (hs1.table htab) ?_)
    have hold : S1.pte (PDX a) (PTX a) = 0 := by
      rw [hpte]
      exact hfree
    rw [hold, if_neg (by decide)]
    refine does_bind (does_setWord (hs1.table htab) ?_)
    rw [if_pos rfl]
    have hwide : a < WORD := Nat.lt_trans ha (by decide)
    have hs2 := sound_setData (f := f) hs1 (i := PDX a) (j := PTX a) (by rw [hold]; decide)
    refine does_pure (hok ((S1.setData (PDX a) (PTX a) f).setPte (PDX a) (PTX a) (V2P v ||| perm ||| PTE_P)) _
      (sound_write hs2 htab fun _ => ?_) ⟨hdir,fun i hi => hother i ?_,fun i j => ?_,fun i j => ?_⟩ ?_)
    · rw [hframe]
      exact ⟨hp,by rw [setData_data, if_pos ⟨rfl,rfl⟩]; exact hkeep.trans hv,hout1⟩
    · rintro rfl
      have := pdx_user ha
      omega
    · rw [setPte_pte]
      refine (if_congr (addr_page hpage hwide).symm rfl ?_)
      exact congrFun (congrFun hpte i) j
    · rw [show ((S1.setData (PDX a) (PTX a) f).setPte (PDX a) (PTX a) (V2P v ||| perm ||| PTE_P)).data i j =
        (S1.setData (PDX a) (PTX a) f).data i j from rfl, setData_data]
      refine (if_congr (addr_page hpage hwide).symm rfl ?_)
      exact congrFun (congrFun hdata i) j
    · have hgrow := moves_grow hmove (fun u => u = v)
      have hwrite : Moves h1 (fun u => S1.In u ∨ u = v)
          (update h1 t (some (update (S1.pte (PDX a)) (PTX a) (V2P v ||| perm ||| PTE_P))))
          (fun u => S1.In u ∨ u = v) := moves_write (.inl ⟨.table _,htab⟩)
      refine moves_congr (moves_trans hgrow hwrite) (fun _ => Iff.rfl) (fun u => ?_)
      rw [in_map (pdx_user ha)
        (by rw [show (S1.setData (PDX a) (PTX a) f).pte = S1.pte from rfl, hold]; decide) hp,
        hframe]
      exact Iff.rfl

theorem map_kernel_spec {last perm pa k m : ℕ} (hs : Sound lay h S) (hlow : KERNBASE ≤ a)
    (hpage : a%PGSIZE = 0)
    (hlast : last = a+PGSIZE*m) (hhigh : last+PGSIZE ≤ WORD) (hpa : pa+PGSIZE*m < WORD) (hk : m < k)
    (hfree : ∀ i j, a ≤ addr i j → addr i j ≤ last → S.pte i j = 0) :
    Does lay A (mapFrom S.dir last perm k a pa) (fun r h' => ∃ S', Sound lay h' S' ∧ S'.dir = S.dir ∧
      Moves h S.In h' S'.In ∧ (∀ i j, i.val < 512 → S'.pte i j = S.pte i j) ∧
      (∀ i, S'.tab i ≠ none → S.tab i ≠ none ∨ ∃ j, a ≤ addr i j ∧ addr i j ≤ last) ∧
      (r = false → A.fail h') ∧ (r = true → ∀ i j, 512 ≤ i.val → S'.pte i j =
        if a ≤ addr i j ∧ addr i j ≤ last then pa+(addr i j-a) ||| perm ||| PTE_P else S.pte i j)) h := by
  induction k generalizing a pa m h S with
  | zero => omega
  | succ k ih =>
    have hwide : a < WORD := by
      simp only [PGSIZE] at hlast hhigh
      omega
    have hindex := addr_index hpage hwide
    have hkernel := pdx_kernel hlow hwide
    rw [mapFrom]
    refine does_bind (walk_alloc_spec hs (fun hf => ?_) fun t S1 h1 hwalk hs1 hmove => ?_)
    · exact does_pure ⟨S,hs,rfl,moves_refl _ _,fun _ _ _ => rfl,fun _ => .inl,fun _ => hf,
        fun hr => by cases hr⟩
    · obtain ⟨htab,hother,hdir,hpte,-⟩ := hwalk
      refine does_bind (does_word (hs1.table htab) ?_)
      have hold : S1.pte (PDX a) (PTX a) = 0 := by
        rw [hpte]
        exact hfree _ _ hindex.ge (by omega)
      rw [hold, if_neg (by decide)]
      refine does_bind (does_setWord (hs1.table htab) ?_)
      have hs2 :=
        sound_write (j := PTX a) (x := pa ||| perm ||| PTE_P) hs1 htab (fun hi => absurd hi (by omega))
      have hmove2 : Moves h S.In (update h1 t (some (update (S1.pte (PDX a)) (PTX a)
          (pa ||| perm ||| PTE_P)))) (S1.setPte (PDX a) (PTX a) (pa ||| perm ||| PTE_P)).In :=
        moves_trans hmove (moves_congr (moves_write ⟨.table _,htab⟩) (fun _ => Iff.rfl)
          (fun _ => (in_kernel hkernel).symm))
      have hpte2 : ∀ i j, (S1.setPte (PDX a) (PTX a) (pa ||| perm ||| PTE_P)).pte i j =
          if addr i j = a then pa ||| perm ||| PTE_P else S.pte i j := fun i j => by
        rw [setPte_pte, hpte]
        exact if_congr (addr_page hpage hwide).symm rfl rfl
      have hdir2 : (S1.setPte (PDX a) (PTX a) (pa ||| perm ||| PTE_P)).dir = S.dir := hdir
      have huser : ∀ i j, i.val < 512 →
        (S1.setPte (PDX a) (PTX a) (pa ||| perm ||| PTE_P)).pte i j = S.pte i j :=
        fun i j hi => by
          rw [hpte2, if_neg]
          have := (addr_bounds i j).2.2.mpr hi
          omega
      have htabs : ∀ i, (S1.setPte (PDX a) (PTX a) (pa ||| perm ||| PTE_P)).tab i ≠ none →
          S.tab i ≠ none ∨ ∃ j, a ≤ addr i j ∧ addr i j ≤ last := fun i hi => by
        by_cases heq : i = PDX a
        · subst heq
          exact .inr ⟨PTX a,hindex.ge,by omega⟩
        · exact .inl (by rw [← hother i heq]; exact hi)
      generalize S1.setPte (PDX a) (PTX a) (pa ||| perm ||| PTE_P) = S2 at *
      simp only [PGSIZE, WORD] at hpage hlast hhigh hpa hwide
      by_cases hend : a = last
      · rw [if_pos hend]
        refine does_pure ⟨S2,hs2,hdir2,hmove2,huser,htabs,(fun hr => by cases hr),fun _ i j _ => ?_⟩
        rw [hpte2]
        by_cases heq : addr i j = a
        · rw [if_pos heq, if_pos ⟨heq.ge,by omega⟩, heq, Nat.sub_self, Nat.add_zero]
        · rw [if_neg heq, if_neg (by omega)]
      · rw [if_neg hend]
        have hnext : (a+PGSIZE)%WORD = a+PGSIZE ∧ (pa+PGSIZE)%WORD = pa+PGSIZE := by
          simp only [PGSIZE, WORD]
          omega
        rw [hnext.1, hnext.2, ← hdir2]
        refine does_mono (ih (m := m-1) hs2 (by omega) ?_ ?_ ?_ (by omega) fun i j hfrom hto => ?_) ?_
        · simp only [PGSIZE]
          omega
        · simp only [PGSIZE]
          omega
        · simp only [PGSIZE, WORD]
          omega
        · simp only [PGSIZE] at hfrom
          rw [hpte2, if_neg (by omega)]
          exact hfree i j (by omega) hto
        · rintro r h' ⟨S',hs',hdir',hmove',huser',htabs',hf',hall⟩
          refine ⟨S',hs',hdir',moves_trans hmove2 hmove',
            fun i j hi => (huser' i j hi).trans (huser i j hi),fun i hi => ?_,hf',fun hr i j hi => ?_⟩
          · rcases htabs' i hi with hi2 | ⟨j,hfrom,hto⟩
            · exact htabs i hi2
            · exact .inr ⟨j,by simp only [PGSIZE] at hfrom; omega,hto⟩
          rw [hall hr i j hi, hpte2]
          have hround := (addr_bounds i j).1
          simp only [PGSIZE] at hround ⊢
          by_cases heq : addr i j = a
          · rw [if_neg (by omega), if_pos heq, if_pos ⟨heq.ge,by omega⟩, heq, Nat.sub_self, Nat.add_zero]
          · rw [if_neg heq]
            by_cases hin : a ≤ addr i j ∧ addr i j ≤ last
            · have hsum : pa+4096+(addr i j-(a+4096)) = pa+(addr i j-a) := by omega
              rw [if_pos (by omega), if_pos hin, hsum]
            · rw [if_neg (by omega), if_neg hin]

def Cleared (S : Space) (lo hi : ℕ) (S' : Space) : Prop :=
  S'.dir = S.dir ∧ S'.tab = S.tab ∧ S'.data = S.data ∧
    ∀ i j, S'.pte i j = if lo ≤ addr i j ∧ addr i j < hi then 0 else S.pte i j

def directory (S : Space) : Directory := ⟨S.dir,S.pde,S.pte⟩

theorem tabled (hs : Sound lay h S) (hp : has (S.pde i) PTE_P = true) : S.tab i = some (frame (S.pde i)) := by
  cases htab : S.tab i with
  | none =>
    rw [pde_none htab] at hp
    cases hp
  | some t => rw [frame_eq, (pde_some hs htab).2]

theorem sound_stored (hs : Sound lay h S) : Stored lay h (directory S) where
  valid := hs.valid
  dir := hs.dir
  table hp := hs.table (tabled hs hp)
  apart {i} hp heq := by cases hs.once (a := .table i) (b := .dir) (tabled hs hp) heq
  once {i i'} hp hp' heq := by
    cases hs.once (a := .table i) (b := .table i') (tabled hs hp) (heq ▸ tabled hs hp')
    rfl

theorem at_user {lo hi : ℕ} (hhi : hi ≤ KERNBASE) (hij : (directory S).Has lo hi i j) :
    S.At (frame (S.pte i j)) (.user i j) :=
  ⟨(addr_bounds i j).2.2.mp (Nat.lt_of_lt_of_le hij.2.1 hhi),(look_some.mp hij.2.2).2,rfl⟩

theorem sound_backed {lo hi : ℕ} (hs : Sound lay h S) (hhi : hi ≤ KERNBASE) :
    Backed h (directory S) lo hi where
  owned {i j} hij := by
    have hat := at_user hhi hij
    rw [directory, hs.user hat.1 hat.2.1]
    exact Option.some_ne_none _
  dir hij heq := by cases hs.once (at_user hhi hij) (b := .dir) heq
  table {i j i'} hij hp heq := by cases hs.once (at_user hhi hij) (b := .table i') (heq ▸ tabled hs hp)
  once hij hij' heq := by
    cases hs.once (at_user hhi hij) (heq ▸ at_user hhi hij')
    exact ⟨rfl,rfl⟩

theorem sound_emptied {lo hi : ℕ} {D' : Directory} (hs : Sound lay h S) (hhi : hi ≤ KERNBASE)
    (he : Emptied lay h (directory S) lo hi h' D') :
    Sound lay h' { S with pte := D'.pte } ∧ Moves h S.In h' ({ S with pte := D'.pte } : Space).In := by
  have hpte : ∀ i j, D'.pte i j = if (directory S).Has lo hi i j then 0 else S.pte i j := he.pte
  have hleft : ∀ {i j}, has (D'.pte i j) PTE_P = true →
    ¬(directory S).Has lo hi i j ∧ D'.pte i j = S.pte i j := by
    intro i j hp
    by_cases hij : (directory S).Has lo hi i j
    · rw [hpte, if_pos hij] at hp
      cases hp
    · exact ⟨hij,by rw [hpte, if_neg hij]⟩
  have hat : ∀ {v p}, ({ S with pte := D'.pte } : Space).At v p → S.At v p := by
    rintro v (_ | i | ⟨i,j⟩) hv
    · exact hv
    · exact hv
    · obtain ⟨hi,hp,hv⟩ := hv
      have hsame := (hleft hp).2
      exact ⟨hi,hsame ▸ hp,hsame ▸ hv⟩
  -- A page that stays is not among those that are freed.
  have hkeep : ∀ {v}, S.In v → (∀ i j, (directory S).Has lo hi i j → v ≠ frame (S.pte i j)) →
    h' v ≠ none := by
    intro v hv hne hnone
    obtain ⟨f,hf⟩ := sound_in hs hv
    rcases (he.freed v).mp hnone with hnone | ⟨i,j,hij,heq⟩
    · rw [hf] at hnone
      cases hnone
    · exact hne i j hij heq
  have hrest : ∀ {v}, v ≠ S.dir → (∀ i, S.tab i ≠ some v) → h' v ≠ none → h' v = h v := fun hdir htab =>
    he.rest _ hdir fun i hp heq => htab i (heq ▸ tabled hs hp)
  refine ⟨⟨he.stored.valid,?_,fun {i t} ht => ?_,fun {i j} hi hp => ?_,fun ha hb => hs.once (hat ha) (hat hb),
    fun {i} htab => ?_,fun {i j} hi' hp => ?_⟩,?_,?_,?_⟩
  · have hdir := he.stored.dir
    rwa [he.dir, he.pde] at hdir
  · obtain ⟨hp,hframe⟩ := pde_some hs ht
    have htable := he.stored.table (i := i)
    rw [he.pde] at htable
    rw [← hframe, ← frame_eq]
    exact htable hp
  · obtain ⟨hnot,hsame⟩ := hleft hp
    have hplace : S.At (frame (S.pte i j)) (.user i j) := ⟨hi,hsame ▸ hp,rfl⟩
    show h' (frame (D'.pte i j)) = some (S.data i j)
    rw [hsame, hrest (fun heq => ?_) (fun i' htab => ?_) (hkeep ⟨_,hplace⟩ fun i' j' hij heq => ?_)]
    · exact hs.user hi (hsame ▸ hp)
    · cases hs.once hplace (b := .dir) heq
    · cases hs.once hplace (b := .table i') htab
    · cases hs.once hplace (heq ▸ at_user hhi hij)
      exact hnot hij
  · funext j
    exact (hpte i j).trans (by rw [hs.absent htab, ite_self])
  · show D'.pte i j = 0
    by_cases hij : (directory S).Has lo hi i j
    · rw [hpte, if_pos hij]
    · have hsame : D'.pte i j = S.pte i j := by rw [hpte, if_neg hij]
      rw [hsame]
      exact hs.blank hi' (hsame ▸ hp)
  · intro v hout _
    by_cases hnone : h' v = none
    · rcases (he.freed v).mp hnone with hv | ⟨i,j,hij,rfl⟩
      · rw [hnone, hv]
      · exact absurd ⟨_,at_user hhi hij⟩ hout
    · exact hrest (fun heq => hout ⟨.dir,heq⟩) (fun i htab => hout ⟨.table i,htab⟩) hnone
  · rintro v ⟨p,hp⟩ hout
    exact absurd ⟨p,hat hp⟩ hout
  · rintro v ⟨_ | i | ⟨i,j⟩,hv⟩ hout
    · exact absurd ⟨.dir,hv⟩ hout
    · exact absurd ⟨.table i,hv⟩ hout
    · by_cases hij : (directory S).Has lo hi i j
      · exact (he.freed v).mpr (.inr ⟨i,j,hij,hv.2.2⟩)
      · have hsame : D'.pte i j = S.pte i j := by rw [hpte, if_neg hij]
        have hplace : ({ S with pte := D'.pte } : Space).At v (.user i j) := by
          show i.val < 512 ∧ has (D'.pte i j) PTE_P = true ∧ v = frame (D'.pte i j)
          rwa [hsame]
        exact absurd ⟨_,hplace⟩ hout

theorem dealloc_from_spec {oldsz k : ℕ} (hs : Sound lay h S) (hold : oldsz ≤ KERNBASE) (hpage : a%PGSIZE = 0)
    (hk : oldsz ≤ a+PGSIZE*k) :
    Does lay A (deallocFrom S.dir oldsz k a)
      (fun _ h' => ∃ S', Sound lay h' S' ∧ Cleared S a oldsz S' ∧ Moves h S.In h' S'.In) h := by
  refine does_mono (dealloc_from (sound_stored hs) (sound_backed hs hold) hold hpage hk) ?_
  rintro - h' ⟨D',he⟩
  obtain ⟨hs',hmove⟩ := sound_emptied hs hold he
  refine ⟨_,hs',⟨rfl,rfl,rfl,fun i j => (he.pte i j).trans ?_⟩,hmove⟩
  by_cases hin : a ≤ addr i j ∧ addr i j < oldsz
  · rw [if_pos hin]
    refine ite_eq_left_iff.mpr fun hnot => ?_
    have hi := (addr_bounds i j).2.2.mp (Nat.lt_of_lt_of_le hin.2 hold)
    by_cases hp : has (S.pte i j) PTE_P = true
    · refine absurd ⟨hin.1,hin.2,look_some.mpr ⟨?_,hp⟩⟩ hnot
      cases htab : S.tab i with
      | none =>
        rw [hs.absent htab] at hp
        exact absurd (show has 0 PTE_P = true from hp) (by decide)
      | some t => exact (pde_some hs htab).1
    · exact hs.blank hi (Bool.not_eq_true _ ▸ hp)
  · rw [if_neg hin, if_neg fun h => hin ⟨h.1,h.2.1⟩]
    rfl

theorem round_up {sz : ℕ} (hsz : sz ≤ KERNBASE) :
    PGROUNDUP sz%PGSIZE = 0 ∧ sz ≤ PGROUNDUP sz ∧ PGROUNDUP sz < sz+PGSIZE := by
  simp only [PGROUNDUP, PGSIZE, WORD, KERNBASE] at hsz ⊢
  omega

theorem rounds_bound (a sz : ℕ) : sz ≤ a+PGSIZE*(sz/PGSIZE+1) := by
  simp only [PGSIZE]
  omega

theorem dealloc_spec {oldsz newsz : ℕ} (hs : Sound lay h S) (hold : oldsz ≤ KERNBASE) (hnew : newsz < oldsz) :
    Does lay A (deallocuvm S.dir oldsz newsz)
      (fun r h' => r = newsz ∧ ∃ S', Sound lay h' S' ∧ Cleared S newsz oldsz S' ∧
      Moves h S.In h' S'.In) h := by
  obtain ⟨hpage,hge,hlt⟩ := round_up (Nat.le_trans (Nat.le_of_lt hnew) hold)
  rw [deallocuvm, if_neg (by omega)]
  refine does_seq (dealloc_from_spec hs hold hpage (rounds_bound _ _)) ?_
  rintro - h' ⟨S',hs',⟨hdir,htab,hdata,hpte⟩,hmove⟩
  refine does_pure ⟨rfl,S',hs',⟨hdir,htab,hdata,fun i j => ?_⟩,hmove⟩
  rw [hpte]
  exact if_congr (and_congr_left' (round_le_addr hpage hge hlt)) rfl rfl

theorem free_tables_spec {rest : List Index} (hnodup : rest.Nodup) (hdir : h S.dir = some S.pde)
    (hvalid : ∀ {v f}, h v = some f → Page lay v)
    (htab : ∀ {i t}, i ∈ rest → S.tab i = some t → t ≠ S.dir ∧ ∃ f, h t = some f)
    (honce : ∀ {i i' t}, S.tab i = some t → S.tab i' = some t → i = i') :
    Does lay A (freeTables S.dir rest)
      (fun _ h' => (∀ v, (∀ i ∈ rest, S.tab i ≠ some v) → h' v = h v) ∧
        ∀ i ∈ rest, ∀ t, S.tab i = some t → h' t = none) h := by
  induction rest generalizing h with
  | nil =>
    rw [freeTables]
    exact does_pure ⟨fun _ _ => rfl,fun i hi => absurd hi List.not_mem_nil⟩
  | cons i rest ih =>
    obtain ⟨hnew,hnodup⟩ := List.nodup_cons.mp hnodup
    rw [freeTables]
    refine does_bind (does_word hdir ?_)
    cases hi : S.tab i with
    | none =>
      rw [if_neg (by rw [pde_none hi]; exact Bool.false_ne_true)]
      refine does_mono (ih hnodup hdir hvalid (fun hm => htab (List.mem_cons_of_mem _ hm))) ?_
      rintro - h' ⟨hkeep,hgone⟩
      refine ⟨fun v hv => hkeep v (fun i' hi' => hv i' (List.mem_cons_of_mem _ hi')),fun i' hi' t ht => ?_⟩
      rcases List.mem_cons.mp hi' with rfl | hmem
      · cases hi.symm.trans ht
      · exact hgone i' hmem t ht
    | some t =>
      obtain ⟨hne,f,hf⟩ := htab List.mem_cons_self hi
      have hpde : S.pde i = V2P t ||| PTE_P ||| PTE_W ||| PTE_U := by
        rw [Space.pde, hi]
      obtain ⟨hp,ht⟩ := table_entry (hvalid hf)
      rw [hpde, if_pos hp, ← frame_eq, ht]
      refine does_bind (does_kfree hf ?_)
      have hdir1 : update h t none S.dir = some S.pde := by
        rw [update_of_ne (Ne.symm hne)]
        exact hdir
      refine does_mono (ih hnodup hdir1 (fun {v g} hv => ?_) fun {i' t'} hm ht' => ?_) ?_
      · by_cases heq : v = t
        · rw [heq, update_self] at hv
          cases hv
        · rw [update_of_ne heq] at hv
          exact hvalid hv
      · obtain ⟨hne',f',hf'⟩ := htab (List.mem_cons_of_mem _ hm) ht'
        have hother : t' ≠ t := by
          rintro rfl
          cases honce hi ht'
          exact hnew hm
        exact ⟨hne',f',by rw [update_of_ne hother]; exact hf'⟩
      · rintro - h' ⟨hkeep,hgone⟩
        refine ⟨fun v hv => ?_,fun i' hi' t' ht' => ?_⟩
        · have hvt : v ≠ t := by
            rintro rfl
            exact hv i List.mem_cons_self hi
          rw [hkeep v (fun i' hi' => hv i' (List.mem_cons_of_mem _ hi')), update_of_ne hvt]
        · rcases List.mem_cons.mp hi' with rfl | hmem
          · cases hi.symm.trans ht'
            rw [hkeep t fun i' hi' ht' => ?_, update_self]
            cases honce hi ht'
            exact hnew hi'
          · exact hgone i' hmem t' ht'

theorem freevm_spec (hs : Sound lay h S) :
    Does lay A (freevm S.dir) (fun _ h' => Moves h S.In h' (fun _ => False)) h := by
  have hpos := page_pos (hs.valid hs.dir)
  have hnodup := List.nodup_finRange NPDENTRIES
  have hall := List.mem_finRange (n := NPDENTRIES)
  rw [freevm, if_neg (by omega)]
  generalize List.finRange NPDENTRIES = rest at *
  refine does_seq (dealloc_spec hs (Nat.le_refl _) (by decide : 0 < KERNBASE)) ?_
  rintro - h1 ⟨-,S1,hs1,⟨hdir1,-,-,hpte1⟩,hmove1⟩
  have hempty : ∀ i j, i.val < 512 → S1.pte i j = 0 := fun i j hi => by
    rw [hpte1, if_pos ⟨Nat.zero_le _,(addr_bounds i j).2.2.mpr hi⟩]
  have hplaces : ∀ v, S1.In v ↔ v = S1.dir ∨ ∃ i, S1.tab i = some v := fun v => by
    constructor
    · rintro ⟨a,ha⟩
      cases a with
      | dir => exact .inl ha
      | table i => exact .inr ⟨i,ha⟩
      | user i j =>
        have := ha.2.1
        rw [hempty i j ha.1] at this
        exact absurd this (by decide)
    · rintro (hv | ⟨i,hi⟩)
      · exact ⟨.dir,hv⟩
      · exact ⟨.table i,hi⟩
  have honce : ∀ {i i' t}, S1.tab i = some t → S1.tab i' = some t → i = i' := fun {i i' t} hi hi' => by
    cases hs1.once (a := .table i) (b := .table i') hi hi'
    rfl
  have hdir : ∀ {i t}, S1.tab i = some t → t ≠ S1.dir := fun {i t} hi heq => by
    cases hs1.once (v := t) (a := .table i) (b := .dir) hi heq
  rw [← hdir1]
  refine does_seq (free_tables_spec hnodup hs1.dir hs1.valid
    (fun _ hi => ⟨hdir hi,_,hs1.table hi⟩) honce) ?_
  rintro - h2 ⟨hkeep,hgone⟩
  have hdir2 : h2 S1.dir = some S1.pde := (hkeep _ (fun i _ hi => hdir hi rfl)).trans hs1.dir
  refine does_kfree hdir2 ?_
  refine moves_trans hmove1 ⟨fun v hv _ => ?_,fun v hv => hv.elim,fun v hv _ => ?_⟩
  · rw [hplaces, not_or, not_exists] at hv
    rw [update_of_ne hv.1]
    exact hkeep v (fun i _ => hv.2 i)
  · rcases (hplaces v).mp hv with rfl | ⟨i,hi⟩
    · exact update_self _ _ _
    · rw [update_of_ne (hdir hi)]
      exact hgone i (hall i) v hi

def Kmap.covers (k : Kmap) (va : ℕ) : Bool := decide (k.virt ≤ va ∧ va < k.virt+k.size)

def prescribed (rows : List Kmap) (va : ℕ) : ℕ :=
  match rows.find? (fun k => Kmap.covers k va) with
  | none => 0
  | some k => k.physStart+(va-k.virt) ||| k.perm ||| PTE_P

/-- The kernel part of the space is what `kmap` prescribes, with no other page tables. -/
structure Kernel (lay : Layout) (S : Space) : Prop where
  entry : ∀ i j, 512 ≤ i.val → S.pte i j = prescribed (kmap lay) (addr i j)
  table : ∀ i, 512 ≤ i.val → S.tab i ≠ none → ∃ j, ∃ k ∈ kmap lay, Kmap.covers k (addr i j) = true

theorem kernel_same (hk : Kernel lay S) (hpte : ∀ i j, 512 ≤ i.val → S'.pte i j = S.pte i j)
    (htab : ∀ i, 512 ≤ i.val → S'.tab i = S.tab i) : Kernel lay S' :=
  ⟨fun i j hi => (hpte i j hi).trans (hk.entry i j hi),
  fun i hi hne => hk.table i hi (by rw [← htab i hi]; exact hne)⟩

structure RowFits (k : Kmap) : Prop where
  page : k.virt%PGSIZE = 0
  low : KERNBASE ≤ k.virt
  whole : k.size%PGSIZE = 0 ∧ 0 < k.size
  high : k.virt+k.size ≤ WORD
  phys : k.physStart+k.size ≤ WORD
  aligned : k.physStart%PGSIZE = 0
  perm : k.perm < PGSIZE ∧ has k.perm PTE_U = false

def Apart (k k' : Kmap) : Prop := k.virt+k.size ≤ k'.virt

theorem prescribed_snoc {rows : List Kmap} {k : Kmap} (hapart : ∀ r ∈ rows, Apart r k) :
    prescribed (rows++[k]) va =
      if k.virt ≤ va ∧ va < k.virt+k.size then k.physStart+(va-k.virt) ||| k.perm ||| PTE_P
      else prescribed rows va := by
  by_cases hk : k.virt ≤ va ∧ va < k.virt+k.size
  · have hnone : rows.find? (fun k => Kmap.covers k va) = none := by
      rw [List.find?_eq_none]
      intro r hr hcover
      have := hapart r hr
      simp only [Kmap.covers, Apart, decide_eq_true_eq] at hcover this
      omega
    have hself : Kmap.covers k va = true := decide_eq_true hk
    rw [if_pos hk, prescribed, List.find?_append, hnone, Option.none_or,
      List.find?_cons_of_pos (p := fun k => Kmap.covers k va) hself]
  · have hself : ¬Kmap.covers k va = true := by
      rw [Kmap.covers, decide_eq_true_eq]
      exact hk
    rw [if_neg hk, prescribed, List.find?_append,
      List.find?_cons_of_neg (p := fun k => Kmap.covers k va) hself,
      List.find?_nil, Option.or_none, prescribed]

theorem map_rows_spec {rows : List Kmap} (before : List Kmap) (hs : Sound lay h S)
    (hrows : ∀ k ∈ rows, RowFits k)
    (hapart : (before++rows).Pairwise Apart)
    (hpte : ∀ i j, 512 ≤ i.val → S.pte i j = prescribed before (addr i j)) :
    Does lay A (mapRows S.dir rows)
      (fun r h' => ∃ S', Sound lay h' S' ∧ S'.dir = S.dir ∧ Moves h S.In h' S'.In ∧
      (∀ i j, i.val < 512 → S'.pte i j = S.pte i j) ∧
      (∀ i, S'.tab i ≠ none → S.tab i ≠ none ∨ ∃ j, ∃ k ∈ rows, Kmap.covers k (addr i j) = true) ∧
      (r = false → A.fail h') ∧
      (r = true → ∀ i j, 512 ≤ i.val → S'.pte i j = prescribed (before++rows) (addr i j))) h := by
  induction rows generalizing before h S with
  | nil =>
    rw [mapRows]
    refine does_pure ⟨S,hs,rfl,moves_refl _ _,fun _ _ _ => rfl,fun _ => .inl,(fun hr => by cases hr),
      fun _ => ?_⟩
    rw [List.append_nil]
    exact hpte
  | cons k rows ih =>
    obtain ⟨hpage,hlow,⟨hwhole,hsize⟩,hhigh,hphys,-,-⟩ := hrows k List.mem_cons_self
    have hbefore : ∀ r ∈ before, Apart r k := fun r hr =>
      (List.pairwise_append.mp hapart).2.2 r hr k List.mem_cons_self
    have hsnoc : before++[k]++rows = before++k::rows := by rw [List.append_assoc, List.singleton_append]
    have hdown : PGROUNDDOWN k.virt = k.virt := by
      simp only [PGROUNDDOWN, PGSIZE] at hpage ⊢
      omega
    have hlast : PGROUNDDOWN ((k.virt+k.size+WORD-1)%WORD) = k.virt+k.size-PGSIZE := by
      simp only [PGROUNDDOWN, PGSIZE, WORD] at hpage hwhole hhigh ⊢
      omega
    have hsteps : k.virt+k.size-PGSIZE = k.virt+PGSIZE*(k.size/PGSIZE-1) := by
      simp only [PGSIZE] at hpage hwhole ⊢
      omega
    have hmap : Does lay A (mappages S.dir k.virt k.size k.physStart k.perm)
        (fun r h' => ∃ S', Sound lay h' S' ∧ S'.dir = S.dir ∧ Moves h S.In h' S'.In ∧
          (∀ i j, i.val < 512 → S'.pte i j = S.pte i j) ∧
          (∀ i, S'.tab i ≠ none → S.tab i ≠ none ∨ ∃ j, Kmap.covers k (addr i j) = true) ∧
          (r = false → A.fail h') ∧
          (r = true → ∀ i j, 512 ≤ i.val → S'.pte i j = prescribed (before++[k]) (addr i j))) h := by
      simp only [mappages, hdown, hlast]
      refine does_mono (map_kernel_spec hs hlow hpage hsteps ?_ ?_ ?_ fun i j hfrom hto => ?_) ?_
      · simp only [PGSIZE, WORD] at hwhole hhigh ⊢
        omega
      · simp only [PGSIZE, WORD] at hwhole hphys ⊢
        omega
      · simp only [PGSIZE, WORD] at hwhole hphys ⊢
        omega
      · have hi : 512 ≤ i.val := by
          have := (addr_bounds i j).2.2
          omega
        rw [hpte i j hi, prescribed, List.find?_eq_none.mpr]
        intro r hr hcover
        have := hbefore r hr
        simp only [Kmap.covers, Apart, decide_eq_true_eq] at hcover this
        omega
      · rintro r h' ⟨S',hs',hdir',hmove',huser',htabs',hf',hall'⟩
        refine ⟨S',hs',hdir',hmove',huser',fun i hi => (htabs' i hi).imp id ?_,hf',fun hr i j hi => ?_⟩
        · rintro ⟨j,hfrom,hto⟩
          refine ⟨j,decide_eq_true ⟨hfrom,?_⟩⟩
          simp only [PGSIZE] at hto hwhole
          omega
        rw [hall' hr i j hi, prescribed_snoc hbefore, ← hpte i j hi]
        refine if_congr ?_ rfl rfl
        have hround := (addr_bounds i j).1
        simp only [PGSIZE] at hround hpage hwhole ⊢
        omega
    rw [mapRows]
    refine does_seq hmap ?_
    rintro r h1 ⟨S1,hs1,hdir1,hmove1,huser1,htabs1,hf1,hall1⟩
    have htabs : ∀ i, S1.tab i ≠ none →
      S.tab i ≠ none ∨ ∃ j, ∃ r ∈ k::rows, Kmap.covers r (addr i j) = true :=
      fun i hi => (htabs1 i hi).imp id fun ⟨j,hj⟩ => ⟨j,k,List.mem_cons_self,hj⟩
    cases r with
    | false => exact does_pure ⟨S1,hs1,hdir1,hmove1,huser1,htabs,hf1,fun hr => by cases hr⟩
    | true =>
      rw [if_pos rfl, ← hdir1]
      refine does_mono (ih (before++[k]) hs1 (fun k' hk' => hrows k' (List.mem_cons_of_mem _ hk'))
        (by rw [hsnoc]; exact hapart) (hall1 rfl)) ?_
      rintro r h' ⟨S',hs',hdir',hmove',huser',htabs',hf',hall'⟩
      rw [hsnoc] at hall'
      refine ⟨S',hs',hdir',moves_trans hmove1 hmove',fun i j hi => (huser' i j hi).trans (huser1 i j hi),
        fun i hi => ?_,hf',hall'⟩
      rcases htabs' i hi with hi1 | ⟨j,r,hr,hj⟩
      · exact htabs i hi1
      · exact .inr ⟨j,r,List.mem_cons_of_mem _ hr,hj⟩

theorem layout_bounds (lay : Layout) : lay.data%4096 = 0 ∧ 2148532224 < lay.data ∧ lay.data ≤ 2151677952 ∧
    V2P lay.data = lay.data-2147483648 ∧ V2P KERNLINK = 1048576 := by
  have hlow : 2148532224 < lay.data := lay.data_low
  have hhigh : lay.data ≤ 2151677952 := Nat.le_trans lay.data_stop lay.stop_high
  refine ⟨lay.data_page,hlow,hhigh,?_,by decide⟩
  simp only [V2P, KERNBASE, WORD]
  omega

theorem kmap_fits (lay : Layout) : (∀ k ∈ kmap lay, RowFits k) ∧ (kmap lay).Pairwise Apart := by
  obtain ⟨hpage,hlow,hhigh,hv2p,hphys⟩ := layout_bounds lay
  constructor
  · intro k hk
    simp only [kmap, List.mem_cons, List.not_mem_nil, or_false] at hk
    rcases hk with rfl | rfl | rfl | rfl <;> constructor <;>
      simp only [Kmap.size, hv2p, hphys, KERNBASE, KERNLINK, EXTMEM, PHYSTOP, DEVSPACE, PGSIZE, WORD] <;>
      first | omega | decide
  · simp only [kmap, List.pairwise_cons, List.mem_cons, List.not_mem_nil, or_false,
      forall_eq_or_imp, forall_eq,
      false_imp_iff, implies_true, and_true, List.Pairwise.nil, Apart, Kmap.size, hv2p, hphys,
      KERNBASE, KERNLINK,
      EXTMEM, PHYSTOP, DEVSPACE, WORD]
    omega

theorem kmap_hole (hlow : KERNBASE+PHYSTOP ≤ va) (hhigh : va < DEVSPACE) :
    ∀ k ∈ kmap lay, Kmap.covers k va = false := by
  obtain ⟨hpage,hdata,hstop,hv2p,hphys⟩ := layout_bounds lay
  intro k hk
  simp only [kmap, List.mem_cons, List.not_mem_nil, or_false] at hk
  rw [Kmap.covers, decide_eq_false_iff_not]
  rcases hk with rfl | rfl | rfl | rfl <;>
    simp only [Kmap.size, hv2p, hphys, KERNBASE, KERNLINK, EXTMEM, PHYSTOP, DEVSPACE,
      WORD] at hlow hhigh ⊢ <;> omega

theorem kernel_no_user (hk : Kernel lay S) (hi : 512 ≤ i.val) : has (S.pte i j) PTE_U = false := by
  rw [hk.entry i j hi, prescribed]
  split
  · decide
  · rename_i k hfind
    have hfits := (kmap_fits lay).1 k (List.mem_of_find?_eq_some hfind)
    have hcover := List.find?_some hfind
    rw [Kmap.covers, decide_eq_true_eq] at hcover
    have haligned : (k.physStart+(addr i j-k.virt))%PGSIZE = 0 := by
      have hround := (addr_bounds i j).1
      have hpage := hfits.page
      have hphys := hfits.aligned
      simp only [PGSIZE] at hround hpage hphys ⊢
      omega
    rw [(entry_facts haligned hfits.perm.1).2.2]
    exact hfits.perm.2

def blankSpace (d : ℕ) : Space := ⟨d,fun _ => none,fun _ _ => 0,fun _ _ _ => 0⟩

theorem blank_at {d : ℕ} {p : Place} : (blankSpace d).At v p ↔ p = .dir ∧ v = d := by
  cases p with
  | dir => exact ⟨fun hv => ⟨rfl,hv⟩,fun hv => hv.2⟩
  | table i => exact ⟨fun hv => (by cases hv),fun hv => (by cases hv.1)⟩
  | user i j => exact ⟨fun hv => absurd hv.2.1 (by decide : ¬has 0 PTE_P = true),fun hv => (by cases hv.1)⟩

theorem blank_in {d : ℕ} : (blankSpace d).In v ↔ v = d :=
  ⟨fun ⟨_,hv⟩ => (blank_at.mp hv).2,fun hv => ⟨.dir,hv⟩⟩

theorem blank_sound {d : ℕ} (hvalid : ∀ {v f}, h v = some f → Page lay v) (hpage : Page lay d) :
    Sound lay (update h d (some fun _ => 0)) (blankSpace d) where
  valid := valid_write hvalid hpage
  dir := update_self _ _ _
  table := fun ht => by cases ht
  user := fun _ hp => absurd hp (by decide : ¬has 0 PTE_P = true)
  once := fun ha hb => (blank_at.mp ha).1.trans (blank_at.mp hb).1.symm
  absent := fun _ => rfl
  blank := fun _ _ => rfl

theorem setupkvm_spec (hvalid : ∀ {v f}, h v = some f → Page lay v) :
    Does lay A (setupkvm lay) (fun r h' => (r = 0 ∧ h' = h ∧ Scarce A h (fun _ => False) (room 0)) ∨
      (r ≠ 0 ∧ ∃ S, S.dir = r ∧ Sound lay h' S ∧ Kernel lay S ∧ (∀ i j, i.val < 512 → S.pte i j = 0) ∧
        Moves h (fun _ => False) h' S.In)) h := by
  refine does_bind (does_kalloc (fun hf => ?_) fun d x hd hfree hpage => ?_)
  · rw [if_pos rfl]
    exact does_pure (.inl ⟨rfl,rfl,h,_,hf,moves_refl _ _,[],Nat.zero_le _,fun _ => False.elim⟩)
  · rw [if_neg hd]
    refine does_bind (does_clear (update_self _ _ _) ?_)
    rw [update_idem, if_neg (by decide)]
    have hs := blank_sound hvalid hpage
    have hmove : Moves h (fun _ => False) (update h d (some fun _ => 0)) (blankSpace d).In :=
      moves_congr (moves_alloc hfree (fun _ => False)) (fun _ => Iff.rfl)
        (fun _ => (or_iff_right not_false).trans blank_in.symm)
    have hrows := map_rows_spec (A := A) [] hs (kmap_fits lay).1 (kmap_fits lay).2
      (fun i j _ => rfl)
    refine does_seq hrows ?_
    rintro r h1 ⟨S1,hs1,hdir1,hmove1,huser1,htabs1,hf1,hall1⟩
    cases r with
    | true =>
      refine does_pure (.inr ⟨hd,S1,hdir1,hs1,⟨hall1 rfl,fun i _ hi => ?_⟩,huser1,moves_trans hmove hmove1⟩)
      exact (htabs1 i hi).resolve_left fun h0 => h0 rfl
    | false =>
      have hdir : S1.dir = d := hdir1
      have hfreevm := freevm_spec (A := A) hs1
      rw [hdir] at hfreevm
      refine does_seq hfreevm ?_
      intro _ h2 hmove2
      have hbelow : Below S1 0 := fun i j hi hp => by
        rw [huser1 i j hi] at hp
        exact absurd hp (by decide : ¬has 0 PTE_P = true)
      refine does_pure (.inl ⟨rfl,moves_none (moves_trans hmove (moves_trans hmove1 hmove2)),?_⟩)
      exact scarce_mono ⟨h1,_,hf1 rfl,moves_trans hmove hmove1,space_atMost hbelow⟩ (Nat.le_succ _)

end Xv6.VmMapping

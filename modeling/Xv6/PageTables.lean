import Xv6.VmSpaces

/-!
# Page directories with any entries

`mappages` and `deallocuvm` on a page directory with any words in it and in its page tables,
as long as no page is two of them.
-/

set_option autoImplicit false

namespace Xv6.PageTables
open CommandTree HeapRegions VmCode VmHeap VmSpaces
open Function

/-- The words of a page directory and of its page tables. -/
structure Directory where
  dir : ℕ
  pde : Words
  pte : Index → Words

def Directory.look (D : Directory) (i j : Index) : Option ℕ :=
  if has (D.pde i) PTE_P = true ∧ has (D.pte i j) PTE_P = true then some (D.pte i j) else none

structure Stored (lay : Layout) (h : PageHeap) (D : Directory) : Prop where
  valid : ∀ {v f}, h v = some f → Page lay v
  dir : h D.dir = some D.pde
  table : ∀ {i}, has (D.pde i) PTE_P = true → h (frame (D.pde i)) = some (D.pte i)
  apart : ∀ {i}, has (D.pde i) PTE_P = true → frame (D.pde i) ≠ D.dir
  once : ∀ {i i'}, has (D.pde i) PTE_P = true → has (D.pde i') PTE_P = true →
  frame (D.pde i) = frame (D.pde i') → i = i'

def Directory.set (D : Directory) (i j : Index) (x : ℕ) : Directory :=
  { D with pte := update D.pte i (update (D.pte i) j x) }

def Directory.addTable (D : Directory) (i : Index) (t : ℕ) : Directory :=
  { D with
    pde := update D.pde i (V2P t ||| PTE_P ||| PTE_W ||| PTE_U)
    pte := update D.pte i (fun _ => 0) }

section Entries
variable {lay : Layout} {A : Terms} {h : PageHeap} {D : Directory} {i j i' j' : Index} {a va t v x : ℕ}

theorem set_self : (D.set i j x).pte i = update (D.pte i) j x := update_self _ _ _

theorem set_other (hi : i' ≠ i) : (D.set i j x).pte i' = D.pte i' := update_of_ne hi _ _

theorem set_pte : (D.set i j x).pte i' j' = if i' = i ∧ j' = j then x else D.pte i' j' := by
  by_cases hi : i' = i
  · subst hi
    simp only [set_self, update_apply, true_and]
  · rw [if_neg fun h => hi h.1, set_other hi]

theorem set_look (hi : has (D.pde i) PTE_P = true) (hx : has x PTE_P = true) :
    (D.set i j x).look i' j' = if i' = i ∧ j' = j then some x else D.look i' j' := by
  rw [Directory.look, set_pte]
  split
  · rename_i heq
    rw [heq.1]
    exact if_pos ⟨hi,hx⟩
  · rfl

theorem stored_set (hs : Stored lay h D) (hi : has (D.pde i) PTE_P = true) :
    Stored lay (update h (frame (D.pde i)) (some (update (D.pte i) j x))) (D.set i j x) where
  valid := valid_write hs.valid (hs.valid (hs.table hi))
  dir := (update_of_ne (hs.apart hi).symm _ _).trans hs.dir
  table := by
    intro i' hi'
    by_cases heq : i' = i
    · subst heq
      rw [set_self]
      exact update_self _ _ _
    · rw [set_other heq]
      exact (update_of_ne (fun hf => heq (hs.once hi' hi hf)) _ _).trans (hs.table hi')
  apart := hs.apart
  once := hs.once

theorem addTable_self : (D.addTable i t).pde i = V2P t ||| PTE_P ||| PTE_W ||| PTE_U ∧
    (D.addTable i t).pte i = fun _ => 0 :=
  ⟨update_self _ _ _,update_self _ _ _⟩

theorem addTable_other (hi : i' ≠ i) :
    (D.addTable i t).pde i' = D.pde i' ∧ (D.addTable i t).pte i' = D.pte i' :=
  ⟨update_of_ne hi _ _,update_of_ne hi _ _⟩

theorem addTable_look (hi : has (D.pde i) PTE_P = false) : (D.addTable i t).look i' j' = D.look i' j' := by
  by_cases heq : i' = i
  · subst heq
    rw [Directory.look, Directory.look, if_neg, if_neg]
    · rw [hi]
      exact fun h => Bool.false_ne_true h.1
    · rw [addTable_self.2]
      exact fun h => absurd (show has 0 PTE_P = true from h.2) (by decide)
  · rw [Directory.look, (addTable_other heq).1, (addTable_other heq).2]
    rfl

theorem stored_addTable (hs : Stored lay h D) (hpage : Page lay t) (hfree : h t = none) :
    Stored lay (update (update h t (some fun _ => 0)) D.dir
      (some (update D.pde i (V2P t ||| PTE_P ||| PTE_W ||| PTE_U)))) (D.addTable i t) := by
  obtain ⟨hp,hframe⟩ := table_entry hpage
  have hnew : ∀ {i'}, has (D.pde i') PTE_P = true → frame (D.pde i') ≠ t := fun hi' heq => by
    have := hs.table hi'
    rw [heq, hfree] at this
    cases this
  have hdir : D.dir ≠ t := fun heq => by
    have := hs.dir
    rw [heq, hfree] at this
    cases this
  have hframes : ∀ i', has ((D.addTable i t).pde i') PTE_P = true →
      (i' = i ∧ frame ((D.addTable i t).pde i') = t) ∨
      (i' ≠ i ∧ (D.addTable i t).pde i' = D.pde i' ∧ has (D.pde i') PTE_P = true) := by
    intro i' hi'
    by_cases heq : i' = i
    · subst heq
      exact .inl ⟨rfl,by rw [addTable_self.1, hframe]⟩
    · have hsame := (addTable_other (D := D) (t := t) heq).1
      exact .inr ⟨heq,hsame,hsame ▸ hi'⟩
  refine ⟨?_,update_self _ _ _,fun {i'} hi' => ?_,fun {i'} hi' => ?_,fun {i1 i2} h1 h2 heq => ?_⟩
  · exact valid_write (valid_write hs.valid hpage) (hs.valid hs.dir)
  · rcases hframes i' hi' with ⟨rfl,hf⟩ | ⟨hne,hsame,hp'⟩
    · rw [hf, update_of_ne hdir.symm, update_self, addTable_self.2]
    · rw [hsame, update_of_ne (hs.apart hp'), update_of_ne (hnew hp'), hs.table hp',
        (addTable_other hne).2]
  · rcases hframes i' hi' with ⟨-,hf⟩ | ⟨-,hsame,hp'⟩
    · rw [hf]
      exact hdir.symm
    · rw [hsame]
      exact hs.apart hp'
  · rcases hframes i1 h1 with ⟨rfl,hf1⟩ | ⟨-,hsame1,hp1⟩ <;>
      rcases hframes i2 h2 with ⟨rfl,hf2⟩ | ⟨-,hsame2,hp2⟩
    · rfl
    · rw [hf1, hsame2] at heq
      exact absurd heq.symm (hnew hp2)
    · rw [hsame1, hf2] at heq
      exact absurd heq (hnew hp1)
    · rw [hsame1, hsame2] at heq
      exact hs.once hp1 hp2 heq

theorem walk_find (hs : Stored lay h D) {Q : Option (ℕ × Index) → PageHeap → Prop}
    (hnone : has (D.pde (PDX va)) PTE_P = false → Q none h)
    (hsome : has (D.pde (PDX va)) PTE_P = true → Q (some (frame (D.pde (PDX va)),PTX va)) h) :
    Does lay A (walkpgdir D.dir va false) Q h := by
  refine does_bind (does_word hs.dir ?_)
  cases hp : has (D.pde (PDX va)) PTE_P with
  | false =>
    rw [if_neg Bool.false_ne_true, if_pos rfl]
    exact does_pure (hnone hp)
  | true =>
    rw [if_pos rfl, ← frame_eq]
    exact does_pure (hsome hp)

theorem walk_make (hs : Stored lay h D) {Q : Option (ℕ × Index) → PageHeap → Prop}
    (hfail : A.fail h → has (D.pde (PDX va)) PTE_P = false → Q none h)
    (hok : ∀ D' h', Stored lay h' D' → D'.dir = D.dir → (∀ i j, D'.look i j = D.look i j) →
      has (D'.pde (PDX va)) PTE_P = true → Q (some (frame (D'.pde (PDX va)),PTX va)) h') :
    Does lay A (walkpgdir D.dir va true) Q h := by
  refine does_bind (does_word hs.dir ?_)
  cases hp : has (D.pde (PDX va)) PTE_P with
  | true =>
    rw [if_pos rfl, ← frame_eq]
    exact does_pure (hok D h hs rfl (fun _ _ => rfl) hp)
  | false =>
    rw [if_neg Bool.false_ne_true, if_neg (by decide)]
    refine does_bind (does_kalloc (fun hf => ?_) fun t x ht hfree hpage => ?_)
    · rw [if_pos rfl]
      exact does_pure (hfail hf hp)
    · rw [if_neg ht]
      refine does_bind (does_clear (update_self _ _ _) ?_)
      rw [update_idem]
      have hdir : D.dir ≠ t := fun heq => by
        have := hs.dir
        rw [heq, hfree] at this
        cases this
      refine does_bind (does_setWord ((update_of_ne hdir _ _).trans hs.dir) (does_pure ?_))
      obtain ⟨hp',hframe⟩ := table_entry hpage
      have h :=
        hok (D.addTable (PDX va) t) _ (stored_addTable hs hpage hfree) rfl (fun _ _ => addTable_look hp)
      rw [addTable_self.1, hframe] at h
      exact h hp'

end Entries

/-- The pages from `a` to `stop` are mapped in order, and no other translation is different. -/
def Maps (D : Directory) (a stop pa perm : ℕ) (D' : Directory) : Prop :=
  D'.dir = D.dir ∧ ∀ i j, D'.look i j =
    if a ≤ addr i j ∧ addr i j < stop then some ((pa+(addr i j-a))%WORD ||| perm ||| PTE_P) else D.look i j

def Lacks (D : Directory) (a last stop : ℕ) : Prop :=
  stop%PGSIZE = 0 ∧ a ≤ stop ∧ stop ≤ last ∧ has (D.pde (PDX stop)) PTE_P = false

section Mapping
variable {lay : Layout} {A : Terms} {h : PageHeap} {D D' D'' : Directory} {i j : Index}
    {a last pa perm stop k m : ℕ}

theorem has_entry (x perm : ℕ) : has (x ||| perm ||| PTE_P) PTE_P = true := by
  rw [has_p, decide_eq_true_eq]
  simp

theorem maps_none : Maps D a a pa perm D := ⟨rfl,fun i j => by rw [if_neg (by omega)]⟩

theorem maps_cons (ha : a%PGSIZE = 0) (hpa : pa < WORD) (hstop : a+PGSIZE ≤ stop) (hdir : D'.dir = D.dir)
    (hfirst : ∀ i j, D'.look i j = if addr i j = a then some (pa ||| perm ||| PTE_P) else D.look i j)
    (hrest : Maps D' (a+PGSIZE) stop ((pa+PGSIZE)%WORD) perm D'') : Maps D a stop pa perm D'' := by
  refine ⟨hrest.1.trans hdir,fun i j => ?_⟩
  have hround := (addr_bounds i j).1
  rw [hrest.2, hfirst]
  simp only [PGSIZE, WORD] at ha hpa hstop hround ⊢
  by_cases heq : addr i j = a
  · rw [if_neg (by omega), if_pos heq, if_pos (by omega), heq, Nat.sub_self, Nat.add_zero,
      Nat.mod_eq_of_lt hpa]
  · by_cases hin : a ≤ addr i j ∧ addr i j < stop
    · have hsum : ((pa+4096)%4294967296+(addr i j-(a+4096)))%4294967296 = (pa+(addr i j-a))%4294967296 := by
        omega
      rw [if_pos (by omega), if_pos hin, hsum]
    · rw [if_neg (by omega), if_neg heq, if_neg hin]

theorem map_from (hs : Stored lay h D) (ha : a%PGSIZE = 0) (hlast : last = a+PGSIZE*m)
    (hhigh : last+PGSIZE ≤ WORD)
    (hpa : pa < WORD) (hk : m < k) (hfree : ∀ i j, a ≤ addr i j → addr i j ≤ last → D.look i j = none) :
    Does lay A (mapFrom D.dir last perm k a pa)
      (fun r h' => ∃ D' stop, Stored lay h' D' ∧ Maps D a stop pa perm D' ∧
      if r = true then stop = last+PGSIZE else A.fail h' ∧ Lacks D' a last stop) h := by
  induction k generalizing a pa m h D with
  | zero => omega
  | succ k ih =>
    simp only [PGSIZE, WORD] at hlast hhigh
    have hwide : a < WORD := by
      simp only [WORD]
      omega
    have hindex := addr_index ha hwide
    rw [mapFrom]
    refine does_bind (walk_make hs (fun hf hp => ?_) fun D1 h1 hs1 hdir1 hlook1 hp1 => ?_)
    · exact does_pure ⟨D,a,hs,maps_none,hf,ha,le_rfl,by omega,hp⟩
    · have hold : has (D1.pte (PDX a) (PTX a)) PTE_P ≠ true := fun hold => by
        have hnone := hfree (PDX a) (PTX a) hindex.ge (by omega)
        rw [← hlook1, Directory.look, if_pos ⟨hp1,hold⟩] at hnone
        cases hnone
      refine does_bind (does_word (hs1.table hp1) ?_)
      rw [if_neg hold]
      refine does_bind (does_setWord (hs1.table hp1) ?_)
      have hs2 := stored_set (j := PTX a) (x := pa ||| perm ||| PTE_P) hs1 hp1
      have hlook2 : ∀ i j, (D1.set (PDX a) (PTX a) (pa ||| perm ||| PTE_P)).look i j =
          if addr i j = a then some (pa ||| perm ||| PTE_P) else D.look i j := fun i j => by
        rw [set_look hp1 (has_entry pa perm), hlook1]
        exact if_congr (addr_page ha hwide).symm rfl rfl
      have hdir2 : (D1.set (PDX a) (PTX a) (pa ||| perm ||| PTE_P)).dir = D.dir := hdir1
      generalize D1.set (PDX a) (PTX a) (pa ||| perm ||| PTE_P) = D2 at hs2 hlook2 hdir2
      by_cases hend : a = last
      · rw [if_pos hend]
        refine does_pure ⟨_,last+PGSIZE,hs2,?_,rfl⟩
        rw [← hend]
        exact maps_cons ha hpa (Nat.le_refl _) hdir2 hlook2 maps_none
      · rw [if_neg hend]
        have hnext : (a+PGSIZE)%WORD = a+PGSIZE := by
          simp only [PGSIZE, WORD]
          omega
        rw [hnext, ← hdir2]
        simp only [PGSIZE] at ha
        refine does_mono (ih (m := m-1) hs2 ?_ ?_ (Nat.mod_lt _ (by decide))
          (by omega) fun i j hfrom hto => ?_) ?_
        · simp only [PGSIZE]
          omega
        · simp only [PGSIZE]
          omega
        · simp only [PGSIZE] at hfrom
          rw [hlook2, if_neg (by omega)]
          exact hfree i j (by omega) hto
        · rintro r h' ⟨D',stop,hs',hmaps,hr⟩
          have hstop : a+PGSIZE ≤ stop := by
            split at hr
            · omega
            · exact hr.2.2.1
          refine ⟨D',stop,hs',maps_cons ha hpa hstop hdir2 hlook2 hmaps,?_⟩
          split_ifs with hr'
          · rwa [if_pos hr'] at hr
          · rw [if_neg hr'] at hr
            exact ⟨hr.1,hr.2.1,by omega,hr.2.2.2⟩

end Mapping

def Directory.Has (D : Directory) (lo hi : ℕ) (i j : Index) : Prop :=
  lo ≤ addr i j ∧ addr i j < hi ∧ D.look i j ≠ none

instance (D : Directory) (lo hi : ℕ) (i j : Index) : Decidable (D.Has lo hi i j) :=
  inferInstanceAs (Decidable (_ ∧ _ ∧ _))

/-- The pages between the addresses are pages of the heap, no page is there twice, and none is the
directory or a table of it. -/
structure Backed (h : PageHeap) (D : Directory) (lo hi : ℕ) : Prop where
  owned : ∀ {i j}, D.Has lo hi i j → h (frame (D.pte i j)) ≠ none
  dir : ∀ {i j}, D.Has lo hi i j → frame (D.pte i j) ≠ D.dir
  table : ∀ {i j i'}, D.Has lo hi i j → has (D.pde i') PTE_P = true → frame (D.pte i j) ≠ frame (D.pde i')
  once : ∀ {i j i' j'}, D.Has lo hi i j → D.Has lo hi i' j' → frame (D.pte i j) = frame (D.pte i' j') →
  i = i' ∧ j = j'

/-- The pages between the addresses are freed, and their entries are cleared. -/
structure Emptied (lay : Layout) (h : PageHeap) (D : Directory) (lo hi : ℕ) (h' : PageHeap)
    (D' : Directory) : Prop where
  stored : Stored lay h' D'
  dir : D'.dir = D.dir
  pde : D'.pde = D.pde
  pte : ∀ i j, D'.pte i j = if D.Has lo hi i j then 0 else D.pte i j
  freed : ∀ v, h' v = none ↔ h v = none ∨ ∃ i j, D.Has lo hi i j ∧ v = frame (D.pte i j)
  rest : ∀ v, v ≠ D.dir → (∀ i, has (D.pde i) PTE_P = true → v ≠ frame (D.pde i)) → h' v ≠ none → h' v = h v

section Freeing
variable {lay : Layout} {A : Terms} {h h' : PageHeap} {D D' : Directory} {i j i' j' : Index}
    {a lo lo' hi k : ℕ}

theorem look_some : D.look i j ≠ none ↔ has (D.pde i) PTE_P = true ∧ has (D.pte i j) PTE_P = true := by
  rw [Directory.look]
  split <;> simp_all

theorem emptied_refl (hs : Stored lay h D) (hnone : ∀ i j, ¬D.Has lo hi i j) : Emptied lay h D lo hi h D :=
  ⟨hs,rfl,rfl,fun i j => by rw [if_neg (hnone i j)],
  fun v => ⟨.inl,fun hv => hv.resolve_right fun ⟨i,j,hij,_⟩ => hnone i j hij⟩,
    fun _ _ _ _ => rfl⟩

theorem emptied_congr (hsame : ∀ i j, D.Has lo hi i j ↔ D.Has lo' hi i j)
    (he : Emptied lay h D lo' hi h' D') :
    Emptied lay h D lo hi h' D' where
  stored := he.stored
  dir := he.dir
  pde := he.pde
  pte i j := (he.pte i j).trans (if_congr (hsame i j).symm rfl rfl)
  freed v := (he.freed v).trans
    (or_congr_right (exists_congr fun i => exists_congr fun j => and_congr_left' (hsame i j).symm))
  rest := he.rest

theorem backed_congr (hsame : ∀ i j, D.Has lo hi i j ↔ D.Has lo' hi i j) (hb : Backed h D lo hi) :
    Backed h D lo' hi where
  owned hij := hb.owned ((hsame _ _).mpr hij)
  dir hij := hb.dir ((hsame _ _).mpr hij)
  table hij := hb.table ((hsame _ _).mpr hij)
  once hij hij' := hb.once ((hsame _ _).mpr hij) ((hsame _ _).mpr hij')

theorem has_step (ha : a%PGSIZE = 0) (hlt : a < hi) (hwide : a < WORD) :
    D.Has a hi i j ↔ (i = PDX a ∧ j = PTX a ∧ D.look i j ≠ none) ∨ D.Has (a+PGSIZE) hi i j := by
  have hround := (addr_bounds i j).1
  rw [← and_assoc, ← addr_page ha hwide, Directory.Has, Directory.Has, ← and_assoc, ← and_assoc,
    ← or_and_right]
  refine and_congr_left' ?_
  simp only [PGSIZE] at ha hround ⊢
  omega

theorem stored_drop {v : ℕ} (hs : Stored lay h D) (hdir : v ≠ D.dir)
    (htable : ∀ i, has (D.pde i) PTE_P = true → v ≠ frame (D.pde i)) :
    Stored lay (update h v none) D where
  valid := by
    intro u f hu
    by_cases heq : u = v
    · rw [heq, update_self] at hu
      cases hu
    · rw [update_of_ne heq] at hu
      exact hs.valid hu
  dir := (update_of_ne hdir.symm _ _).trans hs.dir
  table hi := (update_of_ne (htable _ hi).symm _ _).trans (hs.table hi)
  apart := hs.apart
  once := hs.once

theorem set_behind (ha : a%PGSIZE = 0) (hwide : a < WORD) (hij : a+PGSIZE ≤ addr i j) :
    (D.set (PDX a) (PTX a) 0).pte i j = D.pte i j := by
  rw [set_pte, if_neg]
  intro heq
  have := (addr_page ha hwide).mpr heq
  simp only [PGSIZE] at hij
  omega

theorem has_behind (ha : a%PGSIZE = 0) (hwide : a < WORD) :
    (D.set (PDX a) (PTX a) 0).Has (a+PGSIZE) hi i j ↔ D.Has (a+PGSIZE) hi i j := by
  refine and_congr_right fun hij => and_congr_right fun _ => ?_
  rw [look_some, look_some, set_behind ha hwide hij]
  exact Iff.rfl

def unmapped (h : PageHeap) (D : Directory) (i j : Index) : PageHeap :=
  update (update h (frame (D.pte i j)) none) (frame (D.pde i)) (some (update (D.pte i) j 0))

theorem stored_unmapped (hs : Stored lay h D) (hb : Backed h D lo hi) (hin : D.Has lo hi i j)
    (hp : has (D.pde i) PTE_P = true) :
    Stored lay (unmapped h D i j) (D.set i j 0) :=
  stored_set (stored_drop hs (hb.dir hin) fun _ hi => hb.table hin hi) hp

theorem unmapped_none (hs : Stored lay h D) (hb : Backed h D lo hi) (hin : D.Has lo hi i j)
    (hp : has (D.pde i) PTE_P = true)
    (v : ℕ) : unmapped h D i j v = none ↔ h v = none ∨ v = frame (D.pte i j) := by
  rw [unmapped]
  by_cases hv : v = frame (D.pde i)
  · subst hv
    rw [update_self, hs.table hp]
    exact iff_of_false nofun (not_or.mpr ⟨nofun,(hb.table hin hp).symm⟩)
  · rw [update_of_ne hv]
    by_cases hv' : v = frame (D.pte i j)
    · rw [hv', update_self]
      exact iff_of_true rfl (.inr rfl)
    · rw [update_of_ne hv', or_iff_left hv']

theorem backed_unmapped (ha : a%PGSIZE = 0) (hlt : a < hi) (hwide : a < WORD) (hb : Backed h D a hi)
    (hin : D.Has a hi (PDX a) (PTX a)) (hp : has (D.pde (PDX a)) PTE_P = true) :
    Backed (unmapped h D (PDX a) (PTX a)) (D.set (PDX a) (PTX a) 0) (a+PGSIZE) hi := by
  have hold : ∀ {i j}, (D.set (PDX a) (PTX a) 0).Has (a+PGSIZE) hi i j →
      D.Has a hi i j ∧ (D.set (PDX a) (PTX a) 0).pte i j = D.pte i j := fun hij =>
    ⟨(has_step ha hlt hwide).mpr (.inr ((has_behind ha hwide).mp hij)),set_behind ha hwide hij.1⟩
  refine ⟨fun {i j} hij => ?_,fun hij => ?_,fun hij => ?_,fun hij hij' => ?_⟩
  · obtain ⟨hij',hpte⟩ := hold hij
    have hbehind := hij.1
    rw [hpte, unmapped, update_of_ne (hb.table hij' hp), update_of_ne]
    · exact hb.owned hij'
    · intro heq
      obtain ⟨rfl,rfl⟩ := hb.once hij' hin heq
      rw [addr_index ha hwide] at hbehind
      simp only [PGSIZE] at hbehind
      omega
  · rw [(hold hij).2]
    exact hb.dir (hold hij).1
  · rw [(hold hij).2]
    exact hb.table (hold hij).1
  · rw [(hold hij).2, (hold hij').2]
    exact hb.once (hold hij).1 (hold hij').1

theorem emptied_unmapped (ha : a%PGSIZE = 0) (hlt : a < hi) (hwide : a < WORD) (hs : Stored lay h D)
    (hb : Backed h D a hi)
    (hin : D.Has a hi (PDX a) (PTX a)) (hp : has (D.pde (PDX a)) PTE_P = true)
    (he : Emptied lay (unmapped h D (PDX a) (PTX a)) (D.set (PDX a) (PTX a) 0) (a+PGSIZE) hi h' D') :
    Emptied lay h D a hi h' D' := by
  have hfirst : ∀ i j, D.Has a hi i j ↔ (i = PDX a ∧ j = PTX a) ∨ D.Has (a+PGSIZE) hi i j := fun i j => by
    rw [has_step ha hlt hwide, ← and_assoc]
    refine or_congr_left (and_iff_left_of_imp ?_)
    rintro ⟨rfl,rfl⟩
    exact hin.2.2
  refine ⟨he.stored,he.dir,he.pde,fun i j => ?_,fun v => ?_,fun v hdir htable hv => ?_⟩
  · rw [he.pte, set_pte, if_congr (has_behind ha hwide) rfl rfl, if_congr (hfirst i j) rfl rfl]
    by_cases hij : i = PDX a ∧ j = PTX a
    · rw [if_pos hij, ite_self, if_pos (.inl hij)]
    · rw [if_neg hij, if_congr (or_iff_right hij) rfl rfl]
  · rw [he.freed, unmapped_none hs hb hin hp, or_assoc]
    refine or_congr_right ⟨?_,?_⟩
    · rintro (rfl | ⟨i,j,hij,rfl⟩)
      · exact ⟨_,_,hin,rfl⟩
      · rw [set_behind ha hwide hij.1]
        exact ⟨i,j,(hfirst i j).mpr (.inr ((has_behind ha hwide).mp hij)),rfl⟩
    · rintro ⟨i,j,hij,rfl⟩
      rcases (hfirst i j).mp hij with ⟨rfl,rfl⟩ | hij'
      · exact .inl rfl
      · exact .inr ⟨i,j,(has_behind ha hwide).mpr hij',by rw [set_behind ha hwide hij'.1]⟩
  · have hkept : v ≠ frame (D.pte (PDX a) (PTX a)) := fun heq =>
      hv ((he.freed v).mpr (.inl ((unmapped_none hs hb hin hp v).mpr (.inr heq))))
    rw [he.rest v hdir htable hv, unmapped, update_of_ne (htable _ hp), update_of_ne hkept]

theorem dealloc_from (hs : Stored lay h D) (hb : Backed h D a hi) (hhi : hi ≤ KERNBASE) (ha : a%PGSIZE = 0)
    (hk : hi ≤ a+PGSIZE*k) :
    Does lay A (deallocFrom D.dir hi k a) (fun _ h' => ∃ D', Emptied lay h D a hi h' D') h := by
  have hnone : ∀ {a : ℕ} {D : Directory}, hi ≤ a → ∀ i j, ¬D.Has a hi i j := fun hle i j hij => by
    have := hij.1
    have := hij.2.1
    omega
  induction k generalizing a h D with
  | zero =>
    rw [deallocFrom]
    exact does_pure ⟨D,emptied_refl hs (hnone (by omega))⟩
  | succ k ih =>
    rw [deallocFrom]
    by_cases hlt : a < hi
    · have huser : a < KERNBASE := Nat.lt_of_lt_of_le hlt hhi
      have hwide : a < WORD := Nat.lt_trans huser (by decide)
      have hindex := addr_index ha hwide
      obtain ⟨hnext,ha'⟩ := page_next ha huser
      have hk' := rounds_next hk
      rw [if_pos hlt]
      refine does_bind (walk_find hs (fun hp => ?_) fun hp => ?_)
      · -- no page of the table is there, and the loop goes to the next table
        obtain ⟨hjump,hround,hover,-⟩ := table_end ha huser
        have hsame : ∀ i j, D.Has a hi i j ↔ D.Has (tableEnd a) hi i j := fun i j => by
          refine and_congr_left fun hlook => addr_behind huser ?_
          rintro rfl
          have := (look_some.mp hlook.2).1
          rw [hp] at this
          cases this
        simp only [hjump]
        refine does_mono (ih hs (backed_congr hsame hb) hround (by omega)) ?_
        rintro - h' ⟨D',he⟩
        exact ⟨D',emptied_congr hsame he⟩
      · refine does_bind (does_word (hs.table hp) ?_)
        by_cases hp' : has (D.pte (PDX a) (PTX a)) PTE_P = true
        · have hin : D.Has a hi (PDX a) (PTX a) := ⟨hindex.ge,by omega,look_some.mpr ⟨hp,hp'⟩⟩
          obtain ⟨f,hf⟩ := Option.ne_none_iff_exists'.mp (hb.owned hin)
          have haddr : PTE_ADDR (D.pte (PDX a) (PTX a)) ≠ 0 := fun h0 => by
            have hpos := page_pos (hs.valid hf)
            rw [frame_eq, h0] at hpos
            exact absurd hpos (by decide)
          have hne := hb.table hin hp
          rw [if_pos hp', if_neg haddr, ← frame_eq]
          refine does_bind (does_kfree hf
            (does_bind (does_setWord ((update_of_ne hne.symm _ _).trans (hs.table hp)) ?_)))
          rw [hnext]
          have hrest := ih (stored_unmapped hs hb hin hp) (backed_unmapped ha hlt hwide hb hin hp) ha' hk'
          refine does_mono hrest ?_
          rintro - h' ⟨D',he⟩
          exact ⟨D',emptied_unmapped ha hlt hwide hs hb hin hp he⟩
        · rw [if_neg hp', hnext]
          have hsame : ∀ i j, D.Has a hi i j ↔ D.Has (a+PGSIZE) hi i j := fun i j => by
            rw [has_step ha hlt hwide, or_iff_right]
            rintro ⟨rfl,rfl,hlook⟩
            exact hp' (look_some.mp hlook).2
          refine does_mono (ih hs (backed_congr hsame hb) ha' hk') ?_
          rintro - h' ⟨D',he⟩
          exact ⟨D',emptied_congr hsame he⟩
    · rw [if_neg hlt]
      exact does_pure ⟨D,emptied_refl hs (hnone (by omega))⟩

end Freeing

end Xv6.PageTables

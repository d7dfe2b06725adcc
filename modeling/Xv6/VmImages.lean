import Xv6.VmMapping

/-!
# Growing, copying and loading an image

The functions `allocuvm`, `copyuvm`, `loaduvm`, `clearpteu` and `copyout`, and the parts of
`exec` that make the new image. Each either gives what it says or has given back all it took.
-/

set_option autoImplicit false

namespace Xv6.VmImages
open CommandTree HeapRegions ByteFields VmCode VmHeap VmSpaces VmMapping
open Function

variable {lay : Layout} {A : Terms} {h h' : PageHeap} {S S' : Space} {i j : Index}
    {a va v t sz newsz oldsz : ℕ}

def Exact (S : Space) (sz : ℕ) : Prop := ∀ i j, i.val < 512 → (has (S.pte i j) PTE_P = true ↔ addr i j < sz)

structure Grown (S : Space) (lo hi : ℕ) (S' : Space) : Prop where
  dir : S'.dir = S.dir
  tab : ∀ i, 512 ≤ i.val → S'.tab i = S.tab i
  new : ∀ i j, lo ≤ addr i j → addr i j < hi →
    has (S'.pte i j) PTE_P = true ∧ has (S'.pte i j) PTE_U = true ∧ S'.data i j = fun _ => 0
  same : ∀ i j, ¬(lo ≤ addr i j ∧ addr i j < hi) → S'.pte i j = S.pte i j ∧ S'.data i j = S.data i j

structure Same (S S' : Space) : Prop where
  dir : S'.dir = S.dir
  tab : ∀ i, 512 ≤ i.val → S'.tab i = S.tab i
  pte : S'.pte = S.pte
  data : ∀ i j, i.val < 512 → has (S.pte i j) PTE_P = true → S'.data i j = S.data i j

theorem same_refl (S : Space) : Same S S := ⟨rfl,fun _ _ => rfl,rfl,fun _ _ _ _ => rfl⟩

def Space.withData (S : Space) (data : Index → Index → Words) : Space := { S with data := data }

theorem not_has_zero : ¬has 0 PTE_P = true := by decide

theorem exact_below (he : Exact S sz) : Below S sz := fun i j hi hp => (he i j hi).mp hp

theorem below_zero (hs : Sound lay h S) (hb : Below S sz) (hi : i.val < 512) (hj : sz ≤ addr i j) :
    S.pte i j = 0 := by
  refine hs.blank hi ?_
  by_contra hp
  have := hb i j hi (by simpa using hp)
  omega

theorem grown_exact (hg : Grown S oldsz newsz S') (hle : oldsz ≤ newsz) (he : Exact S oldsz) :
    Exact S' newsz := by
  intro i j hi
  by_cases hin : oldsz ≤ addr i j ∧ addr i j < newsz
  · exact ⟨fun _ => hin.2,fun _ => (hg.new i j hin.1 hin.2).1⟩
  · rw [(hg.same i j hin).1, he i j hi]
    omega

theorem grown_kernel (hg : Grown S oldsz newsz S') (hnew : newsz < KERNBASE) (hk : Kernel lay S) :
    Kernel lay S' := by
  refine kernel_same hk (fun i j hi => (hg.same i j ?_).1) hg.tab
  have := (addr_bounds i j).2.2
  omega

theorem grown_map {S0 S1 : Space} {x : ℕ} (hg : Grown S0 oldsz a S) (hpage : a%PGSIZE = 0) (hge : oldsz ≤ a)
    (hp : has x PTE_P = true ∧ has x PTE_U = true) (hm : Mapped S a x (fun _ => 0) S1) :
    Grown S0 oldsz (a+PGSIZE) S1 := by
  refine ⟨hm.dir.trans hg.dir,fun i hi => (hm.tab i hi).trans (hg.tab i hi),fun i j hlo hhi => ?_,
    fun i j hout => ?_⟩
  · rw [hm.pte, hm.data]
    by_cases heq : addr i j = a
    · rw [if_pos heq, if_pos heq]
      exact ⟨hp.1,hp.2,rfl⟩
    · rw [if_neg heq, if_neg heq]
      exact hg.new i j hlo (((addr_lt_next hpage).mp hhi).resolve_right heq)
  · simp only [PGSIZE] at hout
    rw [hm.pte, hm.data, if_neg (by omega), if_neg (by omega)]
    exact hg.same i j (by omega)

theorem grown_round {S0 : Space} (hg : Grown S0 oldsz a S) (hpage : a%PGSIZE = 0) (hle : newsz ≤ a)
    (hnear : a < newsz+PGSIZE) : Grown S0 oldsz newsz S :=
  ⟨hg.dir,hg.tab,fun i j hlo hhi => hg.new i j hlo (Nat.lt_of_lt_of_le hhi hle),
    fun i j hout => hg.same i j (by rwa [addr_lt_round hpage hle hnear])⟩

theorem exact_round (hpage : a%PGSIZE = 0) (hle : sz ≤ a) (hnear : a < sz+PGSIZE) :
    Exact S a ↔ Exact S sz := by
  simp only [Exact, addr_lt_round hpage hle hnear]

theorem exact_map {S1 : Space} {x : ℕ} {f : Words} (he : Exact S a) (hpage : a%PGSIZE = 0)
    (hx : has x PTE_P = true)
    (hm : Mapped S a x f S1) : Exact S1 (a+PGSIZE) := by
  intro i j hi
  rw [hm.pte, addr_lt_next hpage]
  by_cases heq : addr i j = a
  · rw [if_pos heq]
    exact iff_of_true hx (.inr heq)
  · rw [if_neg heq, or_iff_left heq]
    exact he i j hi

theorem shrink_spec {S0 : Space} (hs : Sound lay h S) (hnew : newsz < KERNBASE) (hg : Grown S0 oldsz a S)
    (hlt : a < newsz) (hge : oldsz ≤ a) (hzero : ∀ i j, i.val < 512 → oldsz ≤ addr i j → S0.pte i j = 0) :
    Does lay A (deallocuvm S.dir newsz oldsz)
      (fun _ h' => ∃ S', Sound lay h' S' ∧ Moves h S.In h' S'.In ∧ Same S0 S') h := by
  refine does_mono (dealloc_spec hs (Nat.le_of_lt hnew) (by omega)) ?_
  rintro - h' ⟨-,S',hs',⟨hdir,htab,hdata,hpte⟩,hmove⟩
  refine ⟨S',hs',hmove,hdir.trans hg.dir,fun i hi => ?_,funext fun i => funext fun j => ?_,
    fun i j hi hp => ?_⟩
  · rw [htab]
    exact hg.tab i hi
  · rw [hpte]
    split_ifs with hin
    · exact (hzero i j ((addr_bounds i j).2.2.mp (by omega)) hin.1).symm
    · exact (hg.same i j (by omega)).1
  · rw [hdata]
    refine (hg.same i j fun hin => ?_).2
    rw [hzero i j hi hin.1] at hp
    exact absurd hp not_has_zero

theorem alloc_from_spec {S0 : Space} {h0 : PageHeap} {k : ℕ} (hs : Sound lay h S) (hnew : newsz < KERNBASE)
    (hzero : ∀ i j, i.val < 512 → oldsz ≤ addr i j → S0.pte i j = 0) (hg : Grown S0 oldsz a S)
    (hmove : Moves h0 S0.In h S.In) (hpage : a%PGSIZE = 0) (hge : oldsz ≤ a) (hnear : a < newsz+PGSIZE)
    (hk : newsz ≤ a+PGSIZE*k) :
    Does lay A (allocFrom S.dir oldsz newsz k a)
      (fun r h' => ∃ S', Sound lay h' S' ∧ Moves h0 S0.In h' S'.In ∧
      ((r = 0 ∧ Same S0 S' ∧ Scarce A h0 S0.In (room newsz)) ∨ (r = newsz ∧ Grown S0 oldsz newsz S'))) h := by
  induction k generalizing a h S with
  | zero =>
    rw [allocFrom]
    exact does_pure ⟨S,hs,hmove,.inr ⟨rfl,grown_round hg hpage (by omega) hnear⟩⟩
  | succ k ih =>
    rw [allocFrom]
    by_cases hlt : a < newsz
    · have ha : a < KERNBASE := Nat.lt_trans hlt hnew
      have hwide : a < WORD := Nat.lt_trans ha (by decide)
      have hindex := addr_index hpage hwide
      have hbelow : Below S a := fun i j hi hp => by
        by_contra hout
        rw [(hg.same i j (by omega)).1, hzero i j hi (by omega)] at hp
        exact absurd hp not_has_zero
      have hroom : 1027+a/PGSIZE ≤ room newsz := room_mono (Nat.le_of_lt hlt)
      rw [if_pos hlt]
      refine does_bind (does_kalloc (fun hf => ?_) fun v x hv hfree hvpage => ?_)
      · rw [if_pos rfl]
        refine does_seq (shrink_spec hs hnew hg hlt hge hzero) ?_
        rintro - h' ⟨S',hs',hmove',hsame⟩
        exact does_pure ⟨S',hs',moves_trans hmove hmove',.inl ⟨rfl,hsame,
          scarce_mono ⟨h,_,hf,hmove,space_atMost hbelow⟩ (by omega)⟩⟩
      · rw [if_neg hv]
        refine does_bind (does_clear (update_self _ _ _) ?_)
        rw [update_idem]
        have hout := sound_out hs hfree
        have hs1 := sound_outside (f := fun _ => 0) hs hvpage hout
        have hnew1 := moves_alloc (x := fun _ => 0) hfree S.In
        have hempty : S.pte (PDX a) (PTX a) = 0 := by
          rw [(hg.same _ _ (by rw [hindex]; omega)).1]
          exact hzero _ _ (pdx_user ha) (by rw [hindex]; exact hge)
        refine does_bind (map_user_spec hs1 hpage ha hempty (update_self _ _ _) hout (by decide)
          (fun hf => ?_) ?_)
        · rw [if_neg Bool.false_ne_true]
          refine does_seq (shrink_spec hs1 hnew hg hlt hge hzero) ?_
          rintro - h2 ⟨S2,hs2,hmove2,hsame⟩
          have hv1 : update h v (some fun _ => 0) v ≠ none := by
            rw [update_self]
            exact Option.some_ne_none _
          obtain ⟨hkeep,hout2⟩ := moves_keep hmove2 hv1 hout
          refine does_bind (does_kfree (hkeep.trans (update_self _ _ _)) (does_pure ?_))
          refine ⟨S2,sound_drop hs2 hout2,?_,.inl ⟨rfl,hsame,
            scarce_mono ⟨_,_,hf,moves_trans hmove hnew1,atMost_cons (space_atMost hbelow)⟩ (by omega)⟩⟩
          exact moves_trans hmove (moves_trans hnew1 (moves_trans (moves_grow hmove2 (fun u => u = v))
            (moves_free hout2)))
        · intro S2 h2 hs2 hmap hmove2
          obtain ⟨hp,-,hu⟩ := page_frame hvpage (by decide : PTE_W ||| PTE_U < PGSIZE)
          have hu2 : has (PTE_W ||| PTE_U) PTE_U = true := by decide
          rw [hu2] at hu
          obtain ⟨hnext,hpage'⟩ := page_next hpage ha
          rw [if_pos rfl, hnext, ← hmap.dir]
          exact ih hs2 (grown_map hg hpage hge ⟨hp,hu⟩ hmap)
            (moves_trans hmove (moves_trans hnew1 hmove2)) hpage' (by omega) (by omega) (rounds_next hk)
    · rw [if_neg hlt]
      exact does_pure ⟨S,hs,hmove,.inr ⟨rfl,grown_round hg hpage (by omega) hnear⟩⟩

def Allocated (S : Space) (oldsz newsz r : ℕ) (S' : Space) : Prop :=
  (Same S S' ∧ (r = 0 ∨ r = oldsz ∧ newsz < oldsz ∧ newsz < KERNBASE)) ∨
    (Grown S oldsz newsz S' ∧ r = newsz ∧ oldsz ≤ newsz ∧ newsz < KERNBASE)

theorem alloc_spec (hs : Sound lay h S) (hold : oldsz ≤ KERNBASE) (hb : Below S oldsz) :
    Does lay A (allocuvm S.dir oldsz newsz)
      (fun r h' => ∃ S', Sound lay h' S' ∧ Moves h S.In h' S'.In ∧ Allocated S oldsz newsz r S' ∧
        (r = 0 → KERNBASE ≤ newsz ∨ max oldsz newsz = 0 ∨ Scarce A h S.In (room newsz))) h := by
  rw [allocuvm]
  by_cases hbig : KERNBASE ≤ newsz
  · rw [if_pos hbig]
    exact does_pure ⟨S,hs,moves_refl _ _,.inl ⟨same_refl S,.inl rfl⟩,fun _ => .inl hbig⟩
  · rw [if_neg hbig]
    by_cases hless : newsz < oldsz
    · rw [if_pos hless]
      exact does_pure ⟨S,hs,moves_refl _ _,.inl ⟨same_refl S,.inr ⟨rfl,hless,by omega⟩⟩,fun h0 => by omega⟩
    · rw [if_neg hless]
      obtain ⟨hpage,hge,hlt⟩ := round_up hold
      have hstart : Grown S oldsz (PGROUNDUP oldsz) S := by
        refine ⟨rfl,fun _ _ => rfl,fun i j hlo hhi => ?_,fun _ _ _ => ⟨rfl,rfl⟩⟩
        exact absurd ((addr_lt_round hpage hge hlt).mp hhi) (by omega)
      refine does_mono (alloc_from_spec hs (by omega) (fun i j hi hj => below_zero hs hb hi hj) hstart
        (moves_refl _ _)
        hpage hge (by omega) (rounds_bound _ _)) ?_
      rintro r h' ⟨S',hs',hmove,⟨rfl,hsame,hscarce⟩ | ⟨rfl,hg⟩⟩
      · exact ⟨S',hs',hmove,.inl ⟨hsame,.inl rfl⟩,fun _ => .inr (.inr hscarce)⟩
      · exact ⟨S',hs',hmove,.inr ⟨hg,rfl,by omega,by omega⟩,fun h0 => .inr (.inl (by omega))⟩

theorem allocated_dir {r : ℕ} (ha : Allocated S oldsz newsz r S') : S'.dir = S.dir := by
  rcases ha with ha | ha
  · exact ha.1.dir
  · exact ha.1.dir

theorem allocated_kernel {r : ℕ} (ha : Allocated S oldsz newsz r S') (hk : Kernel lay S) : Kernel lay S' := by
  rcases ha with ha | ha
  · exact kernel_same hk (fun i j _ => by rw [ha.1.pte]) ha.1.tab
  · exact grown_kernel ha.1 ha.2.2.2 hk

theorem allocated_exact {r : ℕ} (ha : Allocated S oldsz newsz r S') (hr : r ≠ 0) (he : Exact S oldsz) :
    Exact S' r := by
  rcases ha with ⟨hsame,hr' | ⟨rfl,-,-⟩⟩ | ⟨hg,rfl,hle,-⟩
  · exact absurd hr' hr
  · intro i j hi
    rw [hsame.pte]
    exact he i j hi
  · exact grown_exact hg hle he

theorem sound_keep {P : Space} (hP : Sound lay h P) (hs : Sound lay h' S') (hmove : Moves h S.In h' S'.In)
    (happart : ∀ v, P.In v → ¬S.In v) : Sound lay h' P ∧ ∀ v, P.In v → ¬S'.In v := by
  have hkeep : ∀ v, P.In v → h' v = h v ∧ ¬S'.In v := fun v hv => by
    obtain ⟨f,hf⟩ := sound_in hP hv
    exact moves_keep hmove (by rw [hf]; exact Option.some_ne_none f) (happart v hv)
  exact ⟨sound_frame hP hs.valid fun v hv => (hkeep v hv).1,fun v hv => (hkeep v hv).2⟩

structure Copied (P S : Space) (a : ℕ) : Prop where
  flags : ∀ i j, i.val < 512 → addr i j < a → PTE_FLAGS (S.pte i j) = PTE_FLAGS (P.pte i j)
  data : ∀ i j, i.val < 512 → addr i j < a → S.data i j = P.data i j

theorem copied_map {P S1 : Space} {x : ℕ} {f : Words} (hc : Copied P S a) (hpage : a%PGSIZE = 0)
    (hwide : a < WORD)
    (hx : PTE_FLAGS x = PTE_FLAGS (P.pte (PDX a) (PTX a))) (hf : f = P.data (PDX a) (PTX a))
    (hm : Mapped S a x f S1) :
    Copied P S1 (a+PGSIZE) := by
  have hbefore : ∀ i j, addr i j < a+PGSIZE → addr i j ≠ a → addr i j < a := fun i j hlt hne =>
    ((addr_lt_next hpage).mp hlt).resolve_right hne
  refine ⟨fun i j hi hlt => ?_,fun i j hi hlt => ?_⟩
  · rw [hm.pte]
    by_cases heq : addr i j = a
    · obtain ⟨rfl,rfl⟩ := (addr_page hpage hwide).mp heq
      rw [if_pos heq, hx]
    · rw [if_neg heq]
      exact hc.flags i j hi (hbefore i j hlt heq)
  · rw [hm.data]
    by_cases heq : addr i j = a
    · obtain ⟨rfl,rfl⟩ := (addr_page hpage hwide).mp heq
      rw [if_pos heq, hf]
    · rw [if_neg heq]
      exact hc.data i j hi (hbefore i j hlt heq)

theorem copy_from_spec {P : Space} {k : ℕ} (hP : Sound lay h P) (hs : Sound lay h S)
    (happart : ∀ v, P.In v → ¬S.In v) (hsz : sz ≤ KERNBASE) (hpage : a%PGSIZE = 0) (he : Exact S a)
    (hc : Copied P S a) (hnear : a < sz+PGSIZE) (hk : sz ≤ a+PGSIZE*k)
    (hA : (∀ i j, i.val < 512 → addr i j < sz → has (P.pte i j) PTE_P = true) ∨
    A.panic .copyuvmExist ∧ A.panic .copyuvmPresent) :
    Does lay A (copyFrom S.dir P.dir sz k a) (fun r h' => ∃ S', Sound lay h' S' ∧ S'.dir = S.dir ∧
      Moves h S.In h' S'.In ∧ (∀ i j, 512 ≤ i.val → S'.pte i j = S.pte i j) ∧
      (∀ i, 512 ≤ i.val → S'.tab i = S.tab i) ∧ (r = false → Scarce A h S.In (room sz)) ∧
      (r = true → Exact S' sz ∧ Copied P S' sz)) h := by
  have hdone : ∀ {a S}, Exact S a → Copied P S a → a%PGSIZE = 0 → sz ≤ a → a < sz+PGSIZE →
      Exact S sz ∧ Copied P S sz := by
    intro a S he hc hpage hle hnear
    exact ⟨(exact_round hpage hle hnear).mp he,fun i j hi hlt => hc.flags i j hi (by omega),
      fun i j hi hlt => hc.data i j hi (by omega)⟩
  induction k generalizing a h S with
  | zero =>
    rw [copyFrom]
    exact does_pure ⟨S,hs,rfl,moves_refl _ _,fun _ _ _ => rfl,fun _ _ => rfl,(fun hr => by cases hr),
        fun _ => hdone he hc hpage (by omega) hnear⟩
  | succ k ih =>
    rw [copyFrom]
    by_cases hlt : a < sz
    · have ha : a < KERNBASE := Nat.lt_of_lt_of_le hlt hsz
      have hwide : a < WORD := Nat.lt_trans ha (by decide)
      have hindex := addr_index hpage hwide
      have hi := pdx_user ha
      have hroom : 1027+a/PGSIZE ≤ room sz := room_mono (Nat.le_of_lt hlt)
      rw [if_pos hlt]
      refine does_bind (walk_spec hP (fun htab => ?_) fun t htab => ?_)
      · rcases hA with hfull | hA
        · have := hfull (PDX a) (PTX a) hi (by rw [hindex]; exact hlt)
          rw [hP.absent htab] at this
          exact absurd this not_has_zero
        · exact does_panic hA.1
      · refine does_bind (does_word (hP.table htab) ?_)
        by_cases hp : has (P.pte (PDX a) (PTX a)) PTE_P = true
        · rw [hp, if_neg (by decide)]
          refine does_bind (does_kalloc (fun hf => ?_) fun v x hv hfree hvpage => ?_)
          · rw [if_pos rfl]
            exact does_pure ⟨S,hs,rfl,moves_refl _ _,fun _ _ _ => rfl,fun _ _ => rfl,fun _ => scarce_mono
              ⟨h,_,hf,moves_refl _ _,space_atMost (exact_below he)⟩ (by omega),fun hr => by cases hr⟩
          · rw [if_neg hv]
            have hsrc := hP.user hi hp
            have hne : frame (P.pte (PDX a) (PTX a)) ≠ v := by
              intro heq
              rw [heq, hfree] at hsrc
              cases hsrc
            rw [← frame_eq]
            refine does_bind (does_copy (update_self _ _ _)
              ((update_of_ne hne _ _).trans hsrc) ?_)
            rw [update_idem]
            have hout := sound_out hs hfree
            have hs1 := sound_outside (f := P.data (PDX a) (PTX a)) hs hvpage hout
            have hnew1 := moves_alloc (x := P.data (PDX a) (PTX a)) hfree S.In
            have hempty : S.pte (PDX a) (PTX a) = 0 :=
              below_zero hs (exact_below he) hi (by rw [hindex])
            have hflags : PTE_FLAGS (P.pte (PDX a) (PTX a)) < PGSIZE := Nat.mod_lt _ (by decide)
            refine does_bind (map_user_spec hs1 hpage ha hempty (update_self _ _ _) hout hflags
              (fun hf => ?_) ?_)
            · rw [if_neg Bool.false_ne_true]
              refine does_bind (does_kfree (update_self _ _ _) (does_pure ?_))
              refine ⟨S,sound_drop hs1 hout,rfl,?_,fun _ _ _ => rfl,fun _ _ => rfl,fun _ => scarce_mono
                ⟨_,_,hf,hnew1,atMost_cons (space_atMost (exact_below he))⟩ (by omega),fun hr => by cases hr⟩
              exact moves_trans hnew1 (moves_free hout)
            · intro S2 h2 hs2 hmap hmove2
              obtain ⟨hnext,hpage'⟩ := page_next hpage ha
              have hmove := moves_trans hnew1 hmove2
              obtain ⟨hP2,happart2⟩ := sound_keep hP hs2 hmove happart
              have he2 := exact_map he hpage (page_frame hvpage hflags).1 hmap
              have hc2 := copied_map hc hpage hwide (page_flags hvpage hp) rfl hmap
              rw [if_pos rfl, hnext, ← hmap.dir]
              refine does_mono (ih hP2 hs2 happart2 hpage' he2 hc2 (by omega) (rounds_next hk)) ?_
              rintro r h3 ⟨S3,hs3,hdir3,hmove3,hkernel3,htab3,hfail3,hend3⟩
              refine ⟨S3,hs3,hdir3,moves_trans hmove hmove3,fun i j hi' => ?_,
                fun i hi' => (htab3 i hi').trans (hmap.tab i hi'),fun hr =>
                scarce_trans hmove (hfail3 hr),hend3⟩
              rw [hkernel3 i j hi', hmap.pte, if_neg]
              have := (addr_bounds i j).2.2
              omega
        · rw [Bool.not_eq_true] at hp
          rcases hA with hfull | hA
          · have := hfull (PDX a) (PTX a) hi (by rw [hindex]; exact hlt)
            rw [hp] at this
            cases this
          · rw [hp, if_pos rfl]
            exact does_panic hA.2
    · rw [if_neg hlt]
      exact does_pure ⟨S,hs,rfl,moves_refl _ _,fun _ _ _ => rfl,fun _ _ => rfl,(fun hr => by cases hr),
        fun _ => hdone he hc hpage (by omega) hnear⟩

theorem copy_spec {P : Space} (hP : Sound lay h P) (hsz : sz ≤ KERNBASE)
    (hA : (∀ i j, i.val < 512 → addr i j < sz → has (P.pte i j) PTE_P = true) ∨
    A.panic .copyuvmExist ∧ A.panic .copyuvmPresent) :
    Does lay A (copyuvm lay P.dir sz) (fun r h' => (r = 0 ∧ h' = h ∧ Scarce A h (fun _ => False) (room sz)) ∨
      (r ≠ 0 ∧ ∃ S, S.dir = r ∧ Sound lay h' S ∧ Kernel lay S ∧ Exact S sz ∧ Copied P S sz ∧
        Moves h (fun _ => False) h' S.In)) h := by
  refine does_seq (setupkvm_spec hP.valid) ?_
  rintro d h1 (⟨rfl,rfl,hscarce⟩ | ⟨hd,S,rfl,hs,hkernel,huser,hmove⟩)
  · rw [if_pos rfl]
    exact does_pure (.inl ⟨rfl,rfl,scarce_mono hscarce (room_mono (Nat.zero_le sz))⟩)
  · rw [if_neg hd]
    have hkeep : ∀ v, P.In v → h1 v = h v ∧ ¬S.In v := fun v hv => by
      obtain ⟨f,hf⟩ := sound_in hP hv
      exact moves_keep hmove (by rw [hf]; exact Option.some_ne_none f) id
    have hP1 := sound_frame hP hs.valid fun v hv => (hkeep v hv).1
    have he : Exact S 0 := by
      intro i j hi
      rw [huser i j hi]
      exact ⟨fun hp => absurd hp not_has_zero,fun hlt => absurd hlt (Nat.not_lt_zero _)⟩
    have hnear : 0 < sz+PGSIZE := Nat.add_pos_right _ (by decide)
    have hc : Copied P S 0 :=
      ⟨fun _ _ _ hlt => absurd hlt (Nat.not_lt_zero _),fun _ _ _ hlt => absurd hlt (Nat.not_lt_zero _)⟩
    have hfrom := copy_from_spec (A := A) hP1 hs (fun v hv => (hkeep v hv).2) hsz (Nat.zero_mod _) he hc hnear
      (rounds_bound _ _) hA
    refine does_seq hfrom ?_
    rintro r h2 ⟨S2,hs2,hdir2,hmove2,hkernel2,htab2,hfail2,hend2⟩
    cases r with
    | true =>
      obtain ⟨he2,hc2⟩ := hend2 rfl
      exact does_pure
        (.inr ⟨hd,S2,hdir2,hs2,kernel_same hkernel hkernel2 htab2,he2,hc2,moves_trans hmove hmove2⟩)
    | false =>
      rw [if_neg Bool.false_ne_true, ← hdir2]
      refine does_seq (freevm_spec hs2) ?_
      intro _ h3 hmove3
      exact does_pure (.inl ⟨rfl,moves_none (moves_trans hmove (moves_trans hmove2 hmove3)),
        scarce_trans hmove (hfail2 rfl)⟩)

theorem kernel_withData {data : Index → Index → Words} (hk : Kernel lay S) :
    Kernel lay (Space.withData S data) :=
  ⟨hk.entry,hk.table⟩

theorem patch_spec {o : ℕ} {xs : List UInt8} {Q : Unit → PageHeap → Prop} (hs : Sound lay h S)
    (hi : i.val < 512)
    (hp : has (S.pte i j) PTE_P = true)
    (hQ : ∀ h', Sound lay h' (S.setData i j (ofBytes (paste (toBytes (S.data i j)) o xs))) →
    Moves h S.In h' S.In →
      Q () h') :
    Does lay A (patch (frame (S.pte i j)) o xs) Q h :=
  does_patch (hs.user hi hp) (hQ _ (sound_fill hs hi hp) (moves_write ⟨.user _ _,hi,hp,rfl⟩))

/-- Every call of `readi` in `loaduvm` reads all that it is asked for. -/
def reads (readi : Readi) (off filesz : ℕ) : ℕ → ℕ → Bool
  | 0, _ => true
  | k+1, a =>
    if a < filesz then
      let n := if filesz-a < PGSIZE then filesz-a else PGSIZE
      if ((readi ((off+a)%WORD) n).take n).length = n
        then reads readi off filesz k ((a+PGSIZE)%WORD) else false
    else true

theorem load_from_spec {k filesz : ℕ} (off : ℕ) (readi : Readi) (hs : Sound lay h S)
    (hfull : ∀ i j, i.val < 512 → addr i j < sz → has (S.pte i j) PTE_P = true) (hva : va%PGSIZE = 0)
    (ha : a%PGSIZE = 0) (hin : va+filesz ≤ sz) (hsz : sz ≤ KERNBASE) :
    Does lay A (loadFrom S.dir va off filesz readi k a)
      (fun r h' => r = reads readi off filesz k a ∧ ∃ data, Sound lay h' (Space.withData S data) ∧
      Moves h S.In h' S.In) h := by
  induction k generalizing a h S with
  | zero =>
    rw [loadFrom, reads]
    exact does_pure ⟨rfl,S.data,hs,moves_refl _ _⟩
  | succ k ih =>
    rw [loadFrom, reads]
    by_cases hlt : a < filesz
    · have hsum : va+a < KERNBASE := by omega
      have hmod : (va+a)%WORD = va+a := Nat.mod_eq_of_lt (Nat.lt_trans hsum (by decide))
      have hindex : addr (PDX (va+a)) (PTX (va+a)) = va+a :=
        addr_index (by simp only [PGSIZE] at hva ha ⊢; omega) (Nat.lt_trans hsum (by decide))
      have hi := pdx_user hsum
      have hp := hfull (PDX (va+a)) (PTX (va+a)) hi (by rw [hindex]; omega)
      rw [if_pos hlt, if_pos hlt, hmod]
      refine does_bind (walk_spec hs (fun htab => ?_) fun t htab => ?_)
      · rw [hs.absent htab] at hp
        exact absurd hp not_has_zero
      · refine does_bind (does_word (hs.table htab) ?_)
        rw [← frame_eq]
        dsimp only
        generalize (if filesz-a < PGSIZE then filesz-a else PGSIZE) = n
        refine does_bind (patch_spec hs hi hp fun h1 hs1 hmove1 => ?_)
        split
        · have hnext : (a+PGSIZE)%WORD%PGSIZE = 0 := by
            simp only [PGSIZE, WORD] at ha ⊢
            omega
          have hrest := ih hs1 hfull hnext
          exact does_mono hrest fun _ h' ⟨hr,data,hend,hmove2⟩ => ⟨hr,data,hend,moves_trans hmove1 hmove2⟩
        · exact does_pure ⟨rfl,_,hs1,hmove1⟩
    · rw [if_neg hlt, if_neg hlt]
      exact does_pure ⟨rfl,S.data,hs,moves_refl _ _⟩

theorem clearpteu_spec (hs : Sound lay h S) (hpage : va%PGSIZE = 0) (hva : va < KERNBASE)
    (hp : has (S.pte (PDX va) (PTX va)) PTE_P = true) :
    Does lay A (clearpteu S.dir va)
      (fun _ h' => ∃ S', Sound lay h' S' ∧ Moves h S.In h' S'.In ∧ S'.dir = S.dir ∧
      S'.tab = S.tab ∧ S'.data = S.data ∧
      ∀ i j, S'.pte i j = if addr i j = va then clearU (S.pte i j) else S.pte i j) h := by
  have hi := pdx_user hva
  obtain ⟨hframe,hsame,-⟩ := clear_u_entry (S.pte (PDX va) (PTX va))
  refine does_bind (walk_spec hs (fun htab => ?_) fun t htab => ?_)
  · rw [hs.absent htab] at hp
    exact absurd hp not_has_zero
  · refine does_bind (does_word (hs.table htab) (does_setWord (hs.table htab) ?_))
    have hplace : S.At (frame (S.pte (PDX va) (PTX va))) (.user (PDX va) (PTX va)) := ⟨hi,hp,rfl⟩
    have hne : frame (S.pte (PDX va) (PTX va)) ≠ t := by
      intro heq
      cases hs.once (v := t) (a := .table (PDX va)) (b := .user (PDX va) (PTX va)) htab (heq ▸ hplace)
    refine ⟨S.setPte (PDX va) (PTX va) (clearU (S.pte (PDX va) (PTX va))),?_,?_,rfl,rfl,rfl,fun i j => ?_⟩
    · refine sound_setPte hs htab (valid_write hs.valid (hs.valid (hs.table htab))) (update_self _ _ _)
        (fun v a _ _ hv => update_of_ne hv _ _) (fun _ _ => ?_) (fun _ h0 => ?_)
      · rw [hframe]
        exact ⟨by rw [update_of_ne hne]; exact hs.user hi hp,fun b hb hat => hb (hs.once hat hplace)⟩
      · rw [hsame, hp] at h0
        cases h0
    · exact moves_congr (moves_write ⟨.table _,htab⟩) (fun _ => Iff.rfl) fun _ => (in_flags hsame hframe).symm
    · rw [setPte_pte]
      by_cases heq : addr i j = va
      · obtain ⟨rfl,rfl⟩ := (addr_page hpage (Nat.lt_trans hva (by decide))).mp heq
        rw [if_pos ⟨rfl,rfl⟩, if_pos heq]
      · rw [if_neg (fun hij => heq ((addr_page hpage (Nat.lt_trans hva (by decide))).mpr hij)), if_neg heq]

theorem uva2ka_spec {Q : ℕ → PageHeap → Prop} (hs : Sound lay h S)
    (hnull : S.tab (PDX va) = none → A.panic .null)
    (hbad : S.tab (PDX va) ≠ none → has (S.pte (PDX va) (PTX va)) PTE_P = false ∨
      has (S.pte (PDX va) (PTX va)) PTE_U = false → Q 0 h)
    (hok : has (S.pte (PDX va) (PTX va)) PTE_P = true → has (S.pte (PDX va) (PTX va)) PTE_U = true →
      Q (frame (S.pte (PDX va) (PTX va))) h) :
    Does lay A (uva2ka S.dir va) Q h := by
  refine does_bind (walk_spec hs (fun htab => does_bind (does_null (hnull htab))) fun t htab => ?_)
  have hne : S.tab (PDX va) ≠ none := by
    rw [htab]
    exact Option.some_ne_none t
  refine does_bind (does_word (hs.table htab) ?_)
  dsimp only
  cases hp : has (S.pte (PDX va) (PTX va)) PTE_P with
  | false =>
    rw [if_pos rfl]
    exact does_pure (hbad hne (.inl hp))
  | true =>
    rw [if_neg nofun]
    cases hu : has (S.pte (PDX va) (PTX va)) PTE_U with
    | false =>
      rw [if_pos rfl]
      exact does_pure (hbad hne (.inr hu))
    | true =>
      rw [if_neg nofun, ← frame_eq]
      exact does_pure (hok hp hu)

theorem allocated_lt {r : ℕ} (ha : Allocated S oldsz newsz r S') (hr : r ≠ 0) (hold : oldsz < KERNBASE) :
    r < KERNBASE ∧ newsz ≤ r := by
  rcases ha with ⟨-,hr' | ⟨rfl,hlt,-⟩⟩ | ⟨-,rfl,-,hlt⟩
  · exact absurd hr' hr
  · exact ⟨hold,Nat.le_of_lt hlt⟩
  · exact ⟨hlt,Nat.le_refl _⟩

theorem proghdr_lt (xs : List UInt8) : (proghdr xs).vaddr < WORD ∧ (proghdr xs).memsz < WORD :=
  ⟨field_lt 4 _ _,field_lt 4 _ _⟩

/-- The size that the program headers ask for, with as many pages as it needs. -/
def segments (readi : Readi) : ℕ → ℕ → ℕ → Option ℕ
  | 0, _, sz => some sz
  | k+1, off, sz =>
    let xs := (readi off PROGHDR).take PROGHDR
    if xs.length ≠ PROGHDR then none
    else
      let ph := proghdr xs
      if ph.type ≠ ELF_PROG_LOAD then segments readi k ((off+PROGHDR)%WORD) sz
      else if ph.memsz < ph.filesz then none
      else if (ph.vaddr+ph.memsz)%WORD < ph.vaddr then none
      else if KERNBASE ≤ (ph.vaddr+ph.memsz)%WORD then none
      else if max sz ((ph.vaddr+ph.memsz)%WORD) = 0 then none
      else if ph.vaddr%PGSIZE ≠ 0 then none
      else if reads readi ph.off ph.filesz (ph.filesz/PGSIZE+1) 0 then
        segments readi k ((off+PROGHDR)%WORD) (max sz ((ph.vaddr+ph.memsz)%WORD))
      else none

theorem segments_le {readi : Readi} {k off : ℕ} (h : segments readi k off oldsz = some sz) : oldsz ≤ sz := by
  fun_induction segments with
  | case1 => exact Nat.le_of_eq (Option.some.inj h)
  | case3 _ _ _ _ _ _ _ ih => exact ih h
  | case9 _ _ _ _ _ _ _ _ _ _ _ _ _ ih => exact Nat.le_trans (Nat.le_max_left _ _) (ih h)
  | _ => cases h

/-- What there is behind the segments, from a space with nothing above its size. -/
def Segments (lay : Layout) (A : Terms) (h : PageHeap) (S : Space) (o r : Option ℕ) (h' : PageHeap) : Prop :=
  ∃ S', Sound lay h' S' ∧ Moves h S.In h' S'.In ∧ S'.dir = S.dir ∧ Kernel lay S' ∧
    (∀ sz, r = some sz → o = some sz ∧ Exact S' sz ∧ sz < KERNBASE) ∧
    (r = none → ∀ sz, o = some sz → Scarce A h S.In (room sz))

theorem load_segments_spec {k : ℕ} {readi : Readi} (off : ℕ) (hs : Sound lay h S) (hk : Kernel lay S)
    (he : Exact S sz)
    (hsz : sz < KERNBASE) :
    Does lay A (loadSegments S.dir readi k off sz) (Segments lay A h S (segments readi k off sz)) h := by
  have hbad : ∀ {h0 h S0 S}, Sound lay h S → Kernel lay S → Moves h0 S0.In h S.In → S.dir = S0.dir →
      Segments lay A h0 S0 none none h := fun hs hk hm hd =>
    ⟨_,hs,hm,hd,hk,(fun _ hr => by cases hr),fun _ _ hr => by cases hr⟩
  induction k generalizing off sz h S with
  | zero =>
    rw [loadSegments, segments]
    refine does_pure ⟨S,hs,moves_refl _ _,rfl,hk,fun sz' hr => ⟨hr,?_⟩,fun hr => by cases hr⟩
    cases hr
    exact ⟨he,hsz⟩
  | succ k ih =>
    rw [loadSegments, segments]
    obtain ⟨hvaddr,hmemsz⟩ := proghdr_lt ((readi off PROGHDR).take PROGHDR)
    dsimp only
    generalize proghdr ((readi off PROGHDR).take PROGHDR) = ph at *
    split
    · exact does_pure (hbad hs hk (moves_refl _ _) rfl)
    split
    · exact ih _ hs hk he hsz
    split
    · exact does_pure (hbad hs hk (moves_refl _ _) rfl)
    rename_i hfile
    split
    · exact does_pure (hbad hs hk (moves_refl _ _) rfl)
    rename_i hwrap
    have hmem : (ph.vaddr+ph.memsz)%WORD = ph.vaddr+ph.memsz := by
      simp only [WORD] at hwrap hvaddr hmemsz ⊢
      omega
    rw [hmem]
    refine does_seq (alloc_spec hs (Nat.le_of_lt hsz) (exact_below he)) ?_
    rintro r h1 ⟨S1,hs1,hmove1,ha,hfail⟩
    have hdir1 := allocated_dir ha
    have hk1 := allocated_kernel ha hk
    by_cases hr : r = 0
    · rw [if_pos hr]
      refine does_pure ⟨S1,hs1,hmove1,hdir1,hk1,(fun _ hr => by cases hr),fun _ sz' ho => ?_⟩
      rcases hfail hr with hbig | hzero | hscarce
      · rw [if_pos hbig] at ho
        cases ho
      · rw [if_pos hzero, ite_self] at ho
        cases ho
      · simp only [Option.ite_none_left_eq_some, Option.ite_none_right_eq_some] at ho
        exact scarce_mono hscarce (room_mono (Nat.le_trans (Nat.le_max_right _ _) (segments_le ho.2.2.2.2)))
    rw [if_neg hr]
    have he1 := allocated_exact ha hr he
    obtain ⟨hr1,hnew1⟩ := allocated_lt ha hr hsz
    have hmax : max sz (ph.vaddr+ph.memsz) = r := by
      rcases ha with ⟨-,h0 | ⟨rfl,hlt,-⟩⟩ | ⟨-,rfl,hle,-⟩
      · exact absurd h0 hr
      · exact Nat.max_eq_left (Nat.le_of_lt hlt)
      · exact Nat.max_eq_right hle
    have hlow : ¬KERNBASE ≤ ph.vaddr+ph.memsz := by omega
    rw [hmax, if_neg hlow, if_neg hr]
    split
    · exact does_pure (hbad hs1 hk1 hmove1 hdir1)
    rename_i hpage
    rw [loaduvm, if_neg hpage, ← hdir1]
    have hfile : ph.vaddr+ph.filesz ≤ ph.vaddr+ph.memsz := by omega
    have hload := load_from_spec (A := A) (k := ph.filesz/PGSIZE+1) (a := 0) ph.off readi
      hs1 (fun i j hi hlt => (he1 i j hi).mpr hlt) (not_not.mp hpage) (Nat.zero_mod _)
        (hfile.trans (by omega))
      (Nat.le_of_lt hr1)
    refine does_seq hload ?_
    rintro r2 h2 ⟨rfl,data,hs2,hmove2⟩
    have hmove := moves_trans hmove1 hmove2
    split
    · have hrest := fun off => ih off hs2 (kernel_withData hk1) he1 hr1
      refine does_mono (hrest _) ?_
      rintro r3 h3 ⟨S3,hs3,hmove3,hdir3,hk3,hend,hnone⟩
      exact ⟨S3,hs3,moves_trans hmove hmove3,hdir3.trans hdir1,hk3,hend,
        fun hr sz' ho => scarce_trans hmove (hnone hr sz' ho)⟩
    · exact does_pure (hbad hs2 (kernel_withData hk1) hmove hdir1)

theorem give_up_spec {α : Type} {h0 : PageHeap} (hs : Sound lay h S)
    (hmove : Moves h0 (fun _ => False) h S.In) :
    Does lay A (freevm S.dir >>= fun _ => (pure none : MemProg (Option α)))
      (fun r h' => r = none ∧ h' = h0) h := by
  refine does_seq (freevm_spec hs) ?_
  intro _ h2 hmove2
  exact does_pure ⟨rfl,moves_none (moves_trans hmove hmove2)⟩

/-- The size of the image of a file, with as many pages as it needs. -/
def fileSize (readi : Readi) : Option ℕ :=
  let xs := (readi 0 ELFHDR).take ELFHDR
  if xs.length ≠ ELFHDR then none
  else if (elfhdr xs).magic ≠ ELF_MAGIC then none
  else segments readi (elfhdr xs).phnum (elfhdr xs).phoff 0

/-- The image of a file of a size, or what it took is given back. -/
def Loaded (lay : Layout) (A : Terms) (size : Option ℕ) (h : PageHeap) (o : Option (ℕ × ℕ × ℕ))
    (h' : PageHeap) : Prop :=
  (o = none ∧ h' = h ∧ ∀ sz, size = some sz → Scarce A h (fun _ => False) (room sz)) ∨
    ∃ S sz entry, o = some (S.dir,sz,entry) ∧ size = some sz ∧ Sound lay h' S ∧ Kernel lay S ∧ Exact S sz ∧
      sz < KERNBASE ∧ Moves h (fun _ => False) h' S.In

theorem load_image_spec (readi : Readi) (hvalid : ∀ {v f}, h v = some f → Page lay v) :
    Does lay A (loadImage lay readi) (Loaded lay A (fileSize readi) h) h := by
  rw [loadImage, fileSize]
  dsimp only
  split
  · exact does_pure (.inl ⟨rfl,rfl,fun _ ho => by cases ho⟩)
  split
  · exact does_pure (.inl ⟨rfl,rfl,fun _ ho => by cases ho⟩)
  refine does_seq (setupkvm_spec hvalid) ?_
  rintro d h1 (⟨rfl,rfl,hscarce⟩ | ⟨hd,S,rfl,hs,hk,huser,hmove⟩)
  · rw [if_pos rfl]
    exact does_pure (.inl ⟨rfl,rfl,fun sz _ => scarce_mono hscarce (room_mono (Nat.zero_le sz))⟩)
  rw [if_neg hd]
  have he : Exact S 0 := by
    intro i j hi
    rw [huser i j hi]
    exact ⟨fun hp => absurd hp not_has_zero,fun hlt => absurd hlt (Nat.not_lt_zero _)⟩
  refine does_seq (load_segments_spec _ hs hk he (by decide)) ?_
  rintro r h2 ⟨S2,hs2,hmove2,hdir2,hk2,hend2,hnone2⟩
  have hm2 := moves_trans hmove hmove2
  rw [← hdir2]
  cases r with
  | none =>
    refine does_mono (give_up_spec hs2 hm2) fun _ _ hr => .inl ⟨hr.1,hr.2,fun sz ho => ?_⟩
    exact scarce_trans hmove (hnone2 rfl sz ho)
  | some sz =>
    obtain ⟨ho,he2,hsz⟩ := hend2 sz rfl
    exact does_pure (.inr ⟨S2,sz,_,rfl,ho,hs2,hk2,he2,hsz,hm2⟩)

/-- The image of a program with its stack: the page at the top is one of the user, and the
page below it is not. -/
structure Stacked (S : Space) (sz : ℕ) : Prop where
  page : sz%PGSIZE = 0
  two : 2*PGSIZE ≤ sz
  size : sz < KERNBASE
  exact : Exact S sz
  guard : has (S.pte (PDX (sz-2*PGSIZE)) (PTX (sz-2*PGSIZE))) PTE_U = false
  top : has (S.pte (PDX (sz-PGSIZE)) (PTX (sz-PGSIZE))) PTE_U = true

structure Added (S : Space) (top sz : ℕ) (S' : Space) : Prop where
  size : sz = top+2*PGSIZE
  same : ∀ i j, i.val < 512 → addr i j < top → S'.pte i j = S.pte i j ∧ S'.data i j = S.data i j
  zero : ∀ i j, i.val < 512 → top ≤ addr i j → addr i j < sz → S'.data i j = fun _ => 0

theorem alloc_stack_spec (hs : Sound lay h S) (hk : Kernel lay S) (he : Exact S sz) (hsz : sz < KERNBASE) :
    Does lay A (allocStack S.dir sz)
      (fun r h' => ∃ S', Sound lay h' S' ∧ Moves h S.In h' S'.In ∧ S'.dir = S.dir ∧
      Kernel lay S' ∧ (r ≠ 0 → Stacked S' r ∧ Added S (PGROUNDUP sz) r S') ∧
      (r = 0 → KERNBASE ≤ PGROUNDUP sz+2*PGSIZE ∨ Scarce A h S.In (room (PGROUNDUP sz+2*PGSIZE)))) h := by
  obtain ⟨hpage,hge,hlt⟩ := round_up (Nat.le_of_lt hsz)
  have he2 := (exact_round hpage hge hlt).mpr he
  rw [allocStack]
  generalize PGROUNDUP sz = top at *
  have htop : top ≤ KERNBASE := by
    simp only [PGSIZE, KERNBASE] at hpage hlt hsz ⊢
    omega
  obtain ⟨all,hall⟩ : ∃ all, top+2*PGSIZE = all := ⟨_,rfl⟩
  have hsum : (top+2*PGSIZE)%WORD = all := by
    rw [← hall]
    simp only [PGSIZE, KERNBASE, WORD] at htop ⊢
    omega
  rw [hsum]
  refine does_seq (alloc_spec hs htop (exact_below he2)) ?_
  rintro r h3 ⟨S3,hs3,hmove3,ha,hfail⟩
  have hdir3 := allocated_dir ha
  have hk3 := allocated_kernel ha hk
  by_cases hr : r = 0
  · rw [if_pos hr]
    refine does_pure ⟨S3,hs3,hmove3,hdir3,hk3,fun h0 => absurd rfl h0,fun _ => ?_⟩
    rw [hall]
    refine (hfail hr).imp id fun h0 => h0.resolve_left ?_
    simp only [PGSIZE] at hall
    omega
  rw [if_neg hr]
  have he3 := allocated_exact ha hr he2
  obtain ⟨hg,hr3,hsize⟩ : Grown S top all S3 ∧ r = all ∧ r < KERNBASE := by
    rcases ha with ⟨-,hr' | ⟨-,hlt',-⟩⟩ | ⟨hg,hr',-,hlt'⟩
    · exact absurd hr' hr
    · exact absurd hlt' (Nat.not_lt.mpr (by rw [← hall]; exact Nat.le_add_right _ _))
    · exact ⟨hg,hr',hr' ▸ hlt'⟩
  subst hr3
  subst hall
  have hguard : (top+2*PGSIZE+WORD-2*PGSIZE)%WORD = top := by
    simp only [PGSIZE, KERNBASE, WORD] at htop ⊢
    omega
  have hlow : top < KERNBASE := by
    simp only [PGSIZE] at hsize ⊢
    omega
  have hindex := addr_index hpage (Nat.lt_trans hlow (by decide))
  have hpresent : has (S3.pte (PDX top) (PTX top)) PTE_P = true := by
    refine (hg.new _ _ hindex.ge ?_).1
    rw [hindex]
    exact Nat.lt_add_of_pos_right (by decide)
  rw [hguard, ← hdir3]
  refine does_seq (clearpteu_spec hs3 hpage hlow hpresent) ?_
  rintro - h4 ⟨S4,hs4,hmove4,hdir4,htab4,hdata4,hpte4⟩
  have hpresent4 : ∀ i j, has (S4.pte i j) PTE_P = has (S3.pte i j) PTE_P := fun i j => by
    rw [hpte4]
    split
    · exact (clear_u_entry _).2.1
    · rfl
  have hkeep : ∀ i j, addr i j ≠ top → S4.pte i j = S3.pte i j := fun i j hne => by
    rw [hpte4, if_neg hne]
  refine does_pure ⟨S4,hs4,moves_trans hmove3 hmove4,hdir4,?_,fun _ => ⟨?_,rfl,?_,?_⟩,fun h0 => absurd h0 hr⟩
  · refine kernel_same hk3 (fun i j hi => hkeep i j ?_) (fun i _ => by rw [htab4])
    have := (addr_bounds i j).2.2
    omega
  · have htwo : top+2*PGSIZE-2*PGSIZE = top ∧ top+2*PGSIZE-PGSIZE = top+PGSIZE := by
      simp only [PGSIZE]
      omega
    have hup : (top+PGSIZE)%PGSIZE = 0 ∧ top+PGSIZE < WORD ∧ top ≤ top+PGSIZE ∧ top+PGSIZE < top+2*PGSIZE ∧
      top+PGSIZE ≠ top := by
      simp only [PGSIZE, KERNBASE, WORD] at hpage hlow ⊢
      omega
    have hindex2 := addr_index hup.1 hup.2.1
    refine ⟨?_,Nat.le_add_left _ _,hsize,fun i j hi => by rw [hpresent4]; exact he3 i j hi,?_,?_⟩
    · simp only [PGSIZE] at hpage ⊢
      omega
    · rw [htwo.1, hpte4, if_pos hindex]
      exact (clear_u_entry _).2.2
    · rw [htwo.2, hkeep _ _ (by rw [hindex2]; exact hup.2.2.2.2)]
      exact (hg.new _ _ (by rw [hindex2]; exact hup.2.2.1) (by rw [hindex2]; exact hup.2.2.2.1)).2.1
  · intro i j _ hlt'
    have hsame := hg.same i j (by omega)
    rw [hkeep i j (by omega), hdata4]
    exact hsame
  · intro i j _ hlo hhi
    rw [hdata4]
    exact (hg.new i j hlo hhi).2.2

end Xv6.VmImages

import Xv6.VmUser

/-!
# Ranges of pages

What `mappages` and `deallocuvm` do to any page directory: the first maps the pages that a range
overlaps, the second frees those between two sizes. Where a page table is missing `deallocuvm` goes
on behind it, with the same result as a scan of all the pages.
-/

set_option autoImplicit false

namespace Xv6.PageRanges
open CommandTree VmCode VmHeap VmSpaces PageTables VmMapping VmImages VmUser
open Function

def Overlaps (va size page : ℕ) : Prop := page < va+size ∧ va < page+PGSIZE

instance (va size page : ℕ) : Decidable (Overlaps va size page) := inferInstanceAs (Decidable (_ ∧ _))

theorem mapped_iff {i j : Index} {va size : ℕ} (hsize : 1 ≤ size) :
    PGROUNDDOWN va ≤ addr i j ∧ addr i j < PGROUNDDOWN (va+size-1)+PGSIZE ↔ Overlaps va size (addr i j) := by
  have hround := (addr_bounds i j).1
  simp only [Overlaps, PGROUNDDOWN, PGSIZE] at hround ⊢
  omega

/-- Of the pages that overlap the range those below `stop` are mapped in order, with the flags of `perm`;
every
other page is translated as before. -/
def Covered (D : Directory) (va size pa perm stop : ℕ) (D' : Directory) : Prop :=
  ∀ i j, D'.look i j = if Overlaps va size (addr i j) ∧ addr i j < stop
    then some ((pa+(addr i j-PGROUNDDOWN va))%WORD ||| perm ||| PTE_P) else D.look i j

theorem covered_maps {D D' : Directory} {va size pa perm stop : ℕ} (hsize : 1 ≤ size)
    (hstop : stop ≤ PGROUNDDOWN (va+size-1)+PGSIZE)
    (hmaps : Maps D (PGROUNDDOWN va) stop pa perm D') : Covered D va size pa perm stop D' := by
  intro i j
  rw [hmaps.2]
  refine if_congr ?_ rfl rfl
  rw [← mapped_iff hsize]
  omega

/-- `mappages` returns 0 with all the pages mapped that overlap the range. It fails only where `kalloc` fails,
which it does where `F` holds of the pages: then a page table is missing and the pages before are mapped. -/
theorem mappages_covers {lay : Layout} {h : PageHeap} {D : Directory} (hs : Stored lay h D)
    {va size pa perm : ℕ}
    (F : PageHeap → Prop)
    (hsize : 1 ≤ size) (hend : va+size-1 < WORD) (hpa : pa < WORD)
    (hfree : ∀ i j, Overlaps va size (addr i j) → D.look i j = none) :
    Does lay ⟨fun _ => False,F⟩ (mappages D.dir va size pa perm)
      (fun r h' => ∃ D', Stored lay h' D' ∧ D'.dir = D.dir ∧
      if r = true then Covered D va size pa perm WORD D'
      else F h' ∧ ∃ stop, Overlaps va size stop ∧ has (D'.pde (PDX stop)) PTE_P = false ∧
      Covered D va size pa perm stop D') h := by
  have hlast : (va+size+WORD-1)%WORD = va+size-1 := by
    simp only [WORD] at hend ⊢
    omega
  obtain ⟨m,hm⟩ : ∃ m, PGROUNDDOWN (va+size-1) = PGROUNDDOWN va+PGSIZE*m := by
    refine ⟨(va+size-1)/PGSIZE-va/PGSIZE,?_⟩
    simp only [PGROUNDDOWN, PGSIZE]
    omega
  have hrounds : m < (PGROUNDDOWN (va+size-1)+WORD-PGROUNDDOWN va)%WORD/PGSIZE+1 := by
    simp only [PGROUNDDOWN, PGSIZE, WORD] at hend hm ⊢
    omega
  have htop : PGROUNDDOWN (va+size-1)+PGSIZE ≤ WORD := by
    simp only [PGROUNDDOWN, PGSIZE, WORD] at hend ⊢
    omega
  simp only [mappages, hlast]
  refine does_mono (map_from hs ?_ hm htop hpa hrounds fun i j hfrom hto => ?_) ?_
  · simp only [PGROUNDDOWN, PGSIZE]
    omega
  · exact hfree i j ((mapped_iff hsize).mp ⟨hfrom,by simp only [PGSIZE]; omega⟩)
  · rintro r h' ⟨D',stop,hs',hmaps,hr⟩
    refine ⟨D',hs',hmaps.1,?_⟩
    cases r with
    | true =>
      rw [if_pos rfl] at hr ⊢
      intro i j
      have hwide := (addr_bounds i j).2.1
      rw [covered_maps hsize (by omega) hmaps i j, hr]
      refine if_congr (and_congr_right fun hov => ?_) rfl rfl
      have := ((mapped_iff hsize).mpr hov).2
      simp only [PGSIZE] at hwide
      omega
    | false =>
      rw [if_neg Bool.false_ne_true] at hr ⊢
      obtain ⟨hfail,hpage,hfrom,hto,hlacks⟩ := hr
      refine ⟨hfail,stop,?_,hlacks,covered_maps hsize (by omega) hmaps⟩
      simp only [Overlaps, PGROUNDDOWN, PGSIZE] at hpage hfrom hto ⊢
      omega

/-- Three pages over the end of the first page table, for a process with two pages. -/
theorem mappages_sample : ∃ h D, Stored layout h D ∧
    Does layout ⟨fun _ => False,fun _ => True⟩ (mappages D.dir 4190000 9000 8192 PTE_W)
      (fun r h' => ∃ D', Stored layout h' D' ∧
      D'.dir = D.dir ∧ if r = true then Covered D 4190000 9000 8192 PTE_W WORD D'
      else True ∧ ∃ stop, Overlaps 4190000 9000 stop ∧ has (D'.pde (PDX stop)) PTE_P = false ∧
        Covered D 4190000 9000 8192 PTE_W stop D') h := by
  obtain ⟨mem,r,k,h,S,L,hb⟩ := two_pages
  refine ⟨h,directory S,sound_stored hb.sound,
    mappages_covers (sound_stored hb.sound) _ (by decide) (by decide) (by decide)
    fun i j hov => ?_⟩
  have hi : i.val < 512 := (addr_bounds i j).2.2.mp (by simp only [Overlaps, KERNBASE] at hov ⊢; omega)
  by_contra hlook
  have hlt := (hb.exact i j hi).mp (look_some.mp hlook).2
  simp only [Overlaps, PGSIZE] at hov
  omega

/-- The loop of `deallocuvm` without the jump over a missing page table. -/
def scanFrom (pgdir oldsz : ℕ) : ℕ → ℕ → MemProg Unit
  | 0, _ => pure ()
  | k+1, a =>
    if a < oldsz then do
      match ← walkpgdir pgdir a false with
      | none => scanFrom pgdir oldsz k ((a+PGSIZE)%WORD)
      | some (pgtab,i) =>
        let pte ← word pgtab i
        if has pte PTE_P = true then
          let pa := PTE_ADDR pte
          if pa = 0 then panic .kfree
          else
            kfree (P2V pa)
            setWord pgtab i 0
            scanFrom pgdir oldsz k ((a+PGSIZE)%WORD)
        else scanFrom pgdir oldsz k ((a+PGSIZE)%WORD)
    else pure ()

def scan (pgdir oldsz newsz : ℕ) : MemProg ℕ :=
  if oldsz ≤ newsz then pure oldsz
  else do
    scanFrom pgdir oldsz (oldsz/PGSIZE+1) (PGROUNDUP newsz)
    pure newsz

section Scan
variable {lay : Layout} {n : ℕ} {s : World n} {pgdir hi a k k' m : ℕ}

theorem run_congr {α β : Type} {p : MemProg α} {f g : α → MemProg β}
    (h : ∀ x (t : World n), run (handleMem lay) (f x) t = run (handleMem lay) (g x) t) (s : World n) :
    run (handleMem lay) (p >>= f) s = run (handleMem lay) (p >>= g) s := by
  rw [run_bind, run_bind]
  exact congrArg _ (funext fun r => h r.1 r.2)

theorem run_walk :
    run (handleMem lay) (walkpgdir pgdir a false) s = .ok (if has (s.mem pgdir (PDX a)) PTE_P = true
    then some (P2V (PTE_ADDR (s.mem pgdir (PDX a))),PTX a) else none,s) := by
  show run (handleMem lay) (if has (s.mem pgdir (PDX a)) PTE_P = true then _ else _) s = _
  split <;> rfl

theorem dealloc_done (h : hi ≤ a) : run (handleMem lay) (deallocFrom pgdir hi k a) s = .ok ((),s) := by
  cases k with
  | zero => rfl
  | succ k =>
    rw [deallocFrom, if_neg (by omega)]
    rfl

theorem scan_done (h : hi ≤ a) : run (handleMem lay) (scanFrom pgdir hi k a) s = .ok ((),s) := by
  cases k with
  | zero => rfl
  | succ k =>
    rw [scanFrom, if_neg (by omega)]
    rfl

theorem dealloc_absent (hp : has (s.mem pgdir (PDX a)) PTE_P = false) (ha : a%PGSIZE = 0) (hlt : a < hi)
    (hhi : hi ≤ KERNBASE) :
    run (handleMem lay) (deallocFrom pgdir hi (k+1) a) s =
    run (handleMem lay) (deallocFrom pgdir hi k (tableEnd a)) s := by
  rw [deallocFrom, if_pos hlt, run_bind, run_walk, hp, if_neg Bool.false_ne_true]
  simp only [(table_end ha (by omega)).1]
  rfl

theorem scan_absent (hp : has (s.mem pgdir (PDX a)) PTE_P = false) (hlt : a < hi) :
    run (handleMem lay) (scanFrom pgdir hi (k+1) a) s =
    run (handleMem lay) (scanFrom pgdir hi k ((a+PGSIZE)%WORD)) s := by
  rw [scanFrom, if_pos hlt, run_bind, run_walk, hp, if_neg Bool.false_ne_true]
  rfl

theorem dealloc_from_scan (hhi : hi ≤ KERNBASE) (ha : a%PGSIZE = 0) (hm : hi ≤ a+PGSIZE*m)
    (hk : hi ≤ a+PGSIZE*k)
    (hk' : hi ≤ a+PGSIZE*k') (s : World n) :
    run (handleMem lay) (deallocFrom pgdir hi k a) s = run (handleMem lay) (scanFrom pgdir hi k' a) s := by
  induction m generalizing a k k' s with
  | zero => rw [dealloc_done (by omega), scan_done (by omega)]
  | succ m ih =>
    by_cases hlt : a < hi
    · obtain ⟨-,-,hover,hinside⟩ := table_end ha (by omega)
      obtain ⟨k,rfl⟩ : ∃ m, k = m+1 := ⟨k-1,by simp only [PGSIZE] at hk; omega⟩
      obtain ⟨k',rfl⟩ : ∃ m, k' = m+1 := ⟨k'-1,by simp only [PGSIZE] at hk'; omega⟩
      obtain ⟨hnext,ha'⟩ := page_next ha (Nat.lt_of_lt_of_le hlt hhi)
      have hk1 : hi ≤ a+PGSIZE+PGSIZE*(k+1) :=
        Nat.le_trans hk (Nat.add_le_add_right (Nat.le_add_right a PGSIZE) _)
      have hrest := fun t => ih ha' (rounds_next hm) (rounds_next hk) (rounds_next hk') t
      cases hp : has (s.mem pgdir (PDX a)) PTE_P with
      | true =>
        rw [deallocFrom, scanFrom, if_pos hlt, if_pos hlt, run_bind, run_bind, run_walk, hp,
          if_pos rfl, hnext]
        refine run_congr (fun pte t => ?_) s
        split
        · by_cases hpa : PTE_ADDR pte = 0
          · simp only [hpa, if_true]
          · simp only [hpa, if_false]
            exact run_congr (fun _ t => run_congr (fun _ t => hrest t) t) t
        · exact hrest t
      | false =>
        -- Behind the table both loops go on alike, and up to there the scan finds nothing.
        rw [dealloc_absent hp ha hlt hhi, scan_absent hp hlt, hnext]
        by_cases hlast : a+PGSIZE = tableEnd a
        · rw [← hlast]
          exact hrest s
        · by_cases hin : a+PGSIZE < hi
          · have hsame := hinside (Nat.lt_of_le_of_ne hover hlast)
            have hscan := ih (k := k+1) ha' (rounds_next hm) hk1 (rounds_next hk') s
            rw [dealloc_absent (by rw [hsame]; exact hp) ha' hin hhi, tableEnd_congr hsame] at hscan
            exact hscan
          · have hdone := Nat.le_of_not_lt hin
            exact (dealloc_done (Nat.le_trans hdone hover)).trans (scan_done hdone).symm
    · rw [dealloc_done (by omega), scan_done (by omega)]

end Scan

/-- `deallocuvm` does what a scan of all pages does, in every state of memory. It clears the entries of the
pages from `newsz` to `oldsz` that are present and frees those pages; a page that is not owned, as one that
is freed already, could not be freed. -/
theorem deallocuvm_scans (lay : Layout) (pgdir oldsz newsz : ℕ) (hold : oldsz ≤ KERNBASE) :
    (∀ {n} (s : World n), run (handleMem lay) (deallocuvm pgdir oldsz newsz) s =
    run (handleMem lay) (scan pgdir oldsz newsz) s) ∧
    ∀ h D, D.dir = pgdir → Stored lay h D → Backed h D newsz oldsz →
      Does lay calm (deallocuvm pgdir oldsz newsz)
        (fun r h' => r = (if newsz < oldsz then newsz else oldsz) ∧
        ∃ D', Emptied lay h D newsz oldsz h' D') h := by
  by_cases hle : oldsz ≤ newsz
  · rw [deallocuvm, scan, if_pos hle, if_pos hle, if_neg (Nat.not_lt.mpr hle)]
    refine ⟨fun _ => rfl,fun h D _ hs _ => does_pure ⟨rfl,D,emptied_refl hs fun i j hij => ?_⟩⟩
    have := hij.1
    have := hij.2.1
    omega
  · obtain ⟨hpage,hge,hlt⟩ := round_up (Nat.le_trans (Nat.le_of_not_le hle) hold)
    rw [deallocuvm, scan, if_neg hle, if_neg hle, if_pos (by omega)]
    constructor
    · intro n s
      rw [run_bind, run_bind, dealloc_from_scan hold hpage (rounds_bound _ _) (rounds_bound _ _)
        (rounds_bound _ _)]
    · rintro h D rfl hs hb
      have hsame : ∀ i j, D.Has newsz oldsz i j ↔ D.Has (PGROUNDUP newsz) oldsz i j := fun i j =>
        and_congr_left' (round_le_addr hpage hge hlt).symm
      refine does_seq (dealloc_from hs (backed_congr hsame hb) hold hpage (rounds_bound _ _)) ?_
      rintro - h' ⟨D',he⟩
      exact does_pure ⟨rfl,D',emptied_congr hsame he⟩

/-- A page directory with one page table and one page. -/
theorem one_table : ∃ h S, Sound layout h S ∧ S.tab (PDX 4194304) = none ∧
    has (S.pte (PDX 4096) (PTX 4096)) PTE_P = true := by
  have hp : ∀ k < 3, Page layout (pg k) := fun k hk => pg_page (by omega)
  have hvalid : ∀ {v f}, update (update (fun _ => none) (pg 1) (some fun _ => 0)) (pg 2)
    (some fun _ => 0) v = some f →
      Page layout v :=
    valid_write (valid_write (fun hv => by cases hv) (hp 1 (by decide))) (hp 2 (by decide))
  have hblank := blank_sound (d := pg 0) hvalid (hp 0 (by decide))
  obtain ⟨hpres,hframe,-⟩ := page_frame (hp 2 (by decide)) (by decide : 6 < PGSIZE)
  have htab := sound_setTab (i := PDX 4096) (t := pg 1) hblank rfl (by simp [pg]) fun hin => by
    cases blank_in.mp hin
  refine ⟨_,_,sound_write (j := PTX 4096) htab (update_self _ _ _) fun _ => ⟨hpres,?_,?_⟩,?_,?_⟩
  · rw [hframe]
    simp [pg, blankSpace, Space.setTab]
  · rw [hframe, in_setTab rfl, blank_in]
    decide
  · exact update_of_ne (by decide : PDX 4194304 ≠ PDX 4096) (some (pg 1)) fun _ => none
  · rw [setPte_pte, if_pos ⟨rfl,rfl⟩]
    exact hpres

/-- From 16 MB to a page, where only the first page table is there. -/
theorem deallocuvm_scans_sample : ∃ h D, Stored layout h D ∧ has (D.pde (PDX 4194304)) PTE_P = false ∧
    D.Has 4096 16777216 (PDX 4096) (PTX 4096) ∧
    (∀ {n} (s : World n), run (handleMem layout) (deallocuvm D.dir 16777216 4096) s =
      run (handleMem layout) (scan D.dir 16777216 4096) s) ∧
    Does layout calm (deallocuvm D.dir 16777216 4096)
      (fun r h' => r = 4096 ∧ ∃ D', Emptied layout h D 4096 16777216 h' D') h := by
  obtain ⟨h,S,hs,htab,hp⟩ := one_table
  obtain ⟨hscan,hdoes⟩ := deallocuvm_scans layout S.dir 16777216 4096 (by decide)
  refine ⟨h,directory S,sound_stored hs,pde_none htab,⟨by decide,by decide,look_some.mpr ⟨?_,hp⟩⟩,hscan,
    hdoes h (directory S) rfl (sound_stored hs) (sound_backed hs (by decide))⟩
  cases ht : S.tab (PDX 4096) with
  | none =>
    rw [hs.absent ht] at hp
    exact absurd hp not_has_zero
  | some t => exact (pde_some hs ht).1

end Xv6.PageRanges

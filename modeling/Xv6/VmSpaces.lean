import Xv6.VmHeap

/-!
# Address spaces

A page directory with its page tables and the pages of the user: each page is at one place
in it. The entries for the addresses from KERNBASE on lead to no page of the heap. What the
functions of `vm.c` do is said by the entries of the space before and behind them.
-/

set_option autoImplicit false

namespace Xv6.VmSpaces
open CommandTree HeapRegions VmCode VmHeap
open Function

def addr (i j : Index) : ℕ := i.val*4194304+j.val*PGSIZE

section Indexes
variable {i j i' j' : Index} {va sz k : ℕ}

theorem addr_index (hpage : va%PGSIZE = 0) (hlt : va < WORD) : addr (PDX va) (PTX va) = va := by
  simp only [addr, PDX, PTX, PGSIZE, NPDENTRIES, WORD] at hpage hlt ⊢
  omega

theorem pdx_addr (i j : Index) : PDX (addr i j) = i := by
  have hi := i.isLt
  have hj := j.isLt
  refine Fin.ext ?_
  simp only [addr, PDX, PGSIZE, NPDENTRIES] at hi hj ⊢
  omega

theorem ptx_addr (i j : Index) : PTX (addr i j) = j := by
  have hi := i.isLt
  have hj := j.isLt
  refine Fin.ext ?_
  simp only [addr, PTX, PGSIZE, NPDENTRIES] at hi hj ⊢
  omega

theorem addr_bounds (i j : Index) :
    addr i j%PGSIZE = 0 ∧ addr i j+PGSIZE ≤ WORD ∧ (addr i j < KERNBASE ↔ i.val < 512) := by
  have hi := i.isLt
  have hj := j.isLt
  simp only [addr, PGSIZE, NPDENTRIES, KERNBASE, WORD] at hi hj ⊢
  omega

theorem addr_page (hpage : va%PGSIZE = 0) (hlt : va < WORD) : addr i j = va ↔ i = PDX va ∧ j = PTX va := by
  constructor
  · rintro rfl
    exact ⟨(pdx_addr i j).symm,(ptx_addr i j).symm⟩
  · rintro ⟨rfl,rfl⟩
    exact addr_index hpage hlt

theorem page_next (hpage : va%PGSIZE = 0) (hlt : va < KERNBASE) :
    (va+PGSIZE)%WORD = va+PGSIZE ∧ (va+PGSIZE)%PGSIZE = 0 := by
  simp only [PGSIZE, KERNBASE, WORD] at hpage hlt ⊢
  omega

theorem addr_lt_next (hpage : va%PGSIZE = 0) : addr i j < va+PGSIZE ↔ addr i j < va ∨ addr i j = va := by
  have hround := (addr_bounds i j).1
  simp only [PGSIZE] at hpage hround ⊢
  omega

theorem addr_lt_round (hpage : va%PGSIZE = 0) (hle : sz ≤ va) (hnear : va < sz+PGSIZE) :
    addr i j < va ↔ addr i j < sz := by
  have hround := (addr_bounds i j).1
  simp only [PGSIZE] at hpage hnear hround
  omega

theorem round_le_addr (hpage : va%PGSIZE = 0) (hle : sz ≤ va) (hnear : va < sz+PGSIZE) :
    va ≤ addr i j ↔ sz ≤ addr i j := by
  rw [← Nat.not_lt, addr_lt_round hpage hle hnear, Nat.not_lt]

theorem rounds_next (h : sz ≤ va+PGSIZE*(k+1)) : sz ≤ va+PGSIZE+PGSIZE*k := by
  rw [Nat.mul_succ] at h
  omega

def tableEnd (va : ℕ) : ℕ := ((PDX va).val+1)*4194304

theorem table_end (hpage : va%PGSIZE = 0) (hlt : va < KERNBASE) :
    ((PGADDR ((PDX va).val+1) 0 0+WORD-PGSIZE)%WORD+PGSIZE)%WORD = tableEnd va ∧ tableEnd va%PGSIZE = 0 ∧
      va+PGSIZE ≤ tableEnd va ∧ (va+PGSIZE < tableEnd va → PDX (va+PGSIZE) = PDX va) := by
  simp only [PGADDR, tableEnd, PDX, PGSIZE, WORD, KERNBASE, NPDENTRIES, Fin.mk.injEq] at hpage hlt ⊢
  omega

theorem tableEnd_congr {va' : ℕ} (h : PDX va' = PDX va) : tableEnd va' = tableEnd va := by
  rw [tableEnd, h, tableEnd]

theorem addr_behind (hlt : va < KERNBASE) (hne : i ≠ PDX va) : va ≤ addr i j ↔ tableEnd va ≤ addr i j := by
  have hj := j.isLt
  have hne : i.val ≠ (PDX va).val := fun heq => hne (Fin.ext heq)
  simp only [addr, tableEnd, PDX, PGSIZE, NPDENTRIES, KERNBASE] at hlt hne hj ⊢
  omega

attribute [irreducible] tableEnd

theorem pdx_user (hlt : va < KERNBASE) : (PDX va).val < 512 := by
  simp only [PDX, NPDENTRIES, KERNBASE] at hlt ⊢
  omega

theorem pdx_kernel (hlow : KERNBASE ≤ va) (hlt : va < WORD) : 512 ≤ (PDX va).val := by
  simp only [PDX, NPDENTRIES, KERNBASE, WORD] at hlow hlt ⊢
  omega

end Indexes

/-- The page directory, the page tables with their entries, and the words in the pages of the
user. -/
structure Space where
  dir : ℕ
  tab : Index → Option ℕ
  pte : Index → Words
  data : Index → Index → Words

def Space.pde (S : Space) : Words := fun i => match S.tab i with
  | none => 0
  | some t => V2P t ||| PTE_P ||| PTE_W ||| PTE_U

inductive Place where
  | dir
  | table (i : Index)
  | user (i j : Index)
  deriving DecidableEq

def Space.At (S : Space) (v : ℕ) : Place → Prop
  | .dir => v = S.dir
  | .table i => S.tab i = some v
  | .user i j => i.val < 512 ∧ has (S.pte i j) PTE_P = true ∧ v = frame (S.pte i j)

def Space.In (S : Space) (v : ℕ) : Prop := ∃ a, S.At v a

structure Sound (lay : Layout) (h : PageHeap) (S : Space) : Prop where
  valid : ∀ {v f}, h v = some f → Page lay v
  dir : h S.dir = some S.pde
  table : ∀ {i t}, S.tab i = some t → h t = some (S.pte i)
  user : ∀ {i j}, i.val < 512 → has (S.pte i j) PTE_P = true → h (frame (S.pte i j)) = some (S.data i j)
  once : ∀ {v a b}, S.At v a → S.At v b → a = b
  absent : ∀ {i}, S.tab i = none → S.pte i = fun _ => 0
  blank : ∀ {i j}, i.val < 512 → has (S.pte i j) PTE_P = false → S.pte i j = 0

def Space.setTab (S : Space) (i : Index) (t : ℕ) : Space := { S with tab := update S.tab i (some t) }

def Space.setPte (S : Space) (i j : Index) (x : ℕ) : Space :=
  { S with pte := update S.pte i (update (S.pte i) j x) }

def Space.setData (S : Space) (i j : Index) (f : Words) : Space :=
  { S with data := update S.data i (update (S.data i) j f) }

section Places
variable {S : Space} {i j i' j' : Index} {t v x : ℕ} {a : Place}

theorem setPte_pte : (S.setPte i j x).pte i' j' = if i' = i ∧ j' = j then x else S.pte i' j' := by
  simp only [Space.setPte]
  by_cases hi : i' = i
  · subst hi
    by_cases hj : j' = j
    · subst hj
      simp
    · simp [hj]
  · simp [hi]

theorem setData_data {f : Words} :
    (S.setData i j f).data i' j' = if i' = i ∧ j' = j then f else S.data i' j' := by
  simp only [Space.setData]
  by_cases hi : i' = i
  · subst hi
    by_cases hj : j' = j
    · subst hj
      simp
    · simp [hj]
  · simp [hi]

theorem at_setTab (ha : a ≠ .table i) : (S.setTab i t).At v a ↔ S.At v a := by
  cases a with
  | dir => exact Iff.rfl
  | user i' j' => exact Iff.rfl
  | table i' =>
    have hne : i' ≠ i := fun heq => ha (by rw [heq])
    simp only [Space.At, Space.setTab, update_of_ne hne]

theorem at_setTab_self : (S.setTab i t).At v (.table i) ↔ v = t := by
  simp only [Space.At, Space.setTab, update_self, Option.some_inj, eq_comm]

theorem at_setPte (ha : a ≠ .user i j) : (S.setPte i j x).At v a ↔ S.At v a := by
  cases a with
  | dir => exact Iff.rfl
  | table i' => exact Iff.rfl
  | user i' j' =>
    have hne : ¬(i' = i ∧ j' = j) := fun heq => ha (by rw [heq.1, heq.2])
    simp only [Space.At, setPte_pte, if_neg hne]

theorem at_setPte_self : (S.setPte i j x).At v (.user i j) ↔
    i.val < 512 ∧ has x PTE_P = true ∧ v = frame x := by
  simp only [Space.At, setPte_pte, and_self, if_true]

theorem in_setTab (htab : S.tab i = none) : (S.setTab i t).In v ↔ S.In v ∨ v = t := by
  constructor
  · rintro ⟨a,ha⟩
    by_cases heq : a = .table i
    · subst heq
      exact .inr (at_setTab_self.mp ha)
    · exact .inl ⟨a,(at_setTab heq).mp ha⟩
  · rintro (⟨a,ha⟩ | rfl)
    · have heq : a ≠ .table i := by
        rintro rfl
        simp only [Space.At, htab] at ha
        cases ha
      exact ⟨a,(at_setTab heq).mpr ha⟩
    · exact ⟨.table i,at_setTab_self.mpr rfl⟩

theorem in_map (hi : i.val < 512) (hold : has (S.pte i j) PTE_P = false) (hnew : has x PTE_P = true) :
    (S.setPte i j x).In v ↔ S.In v ∨ v = frame x := by
  constructor
  · rintro ⟨a,ha⟩
    by_cases heq : a = .user i j
    · subst heq
      exact .inr (at_setPte_self.mp ha).2.2
    · exact .inl ⟨a,(at_setPte heq).mp ha⟩
  · rintro (⟨a,ha⟩ | rfl)
    · have heq : a ≠ .user i j := by
        rintro rfl
        rw [Space.At, hold] at ha
        exact Bool.noConfusion ha.2.1
      exact ⟨a,(at_setPte heq).mpr ha⟩
    · exact ⟨.user i j,at_setPte_self.mpr ⟨hi,hnew,rfl⟩⟩

theorem in_kernel (hi : 512 ≤ i.val) : (S.setPte i j x).In v ↔ S.In v := by
  refine exists_congr fun a => ?_
  by_cases heq : a = .user i j
  · subst heq
    rw [at_setPte_self, Space.At]
    exact ⟨fun h => absurd h.1 (by omega),fun h => absurd h.1 (by omega)⟩
  · exact at_setPte heq

theorem in_flags (hp : has x PTE_P = has (S.pte i j) PTE_P) (hx : frame x = frame (S.pte i j)) :
    (S.setPte i j x).In v ↔ S.In v := by
  refine exists_congr fun a => ?_
  by_cases heq : a = .user i j
  · subst heq
    rw [at_setPte_self, Space.At, hp, hx]
  · exact at_setPte heq

end Places

section Sound
variable {lay : Layout} {h h' : PageHeap} {S : Space} {i j : Index} {t v x : ℕ} {f : Words}

theorem sound_in (hs : Sound lay h S) (hv : S.In v) : ∃ f, h v = some f := by
  obtain ⟨a,ha⟩ := hv
  cases a with
  | dir => exact ⟨_,by rw [ha]; exact hs.dir⟩
  | table i => exact ⟨_,hs.table ha⟩
  | user i j =>
    rw [ha.2.2]
    exact ⟨_,hs.user ha.1 ha.2.1⟩

theorem sound_out (hs : Sound lay h S) (hv : h v = none) : ¬S.In v := by
  intro hin
  obtain ⟨f,hf⟩ := sound_in hs hin
  rw [hv] at hf
  cases hf

theorem sound_frame (hs : Sound lay h S) (hvalid : ∀ {v f}, h' v = some f → Page lay v)
    (hkeep : ∀ v, S.In v → h' v = h v) : Sound lay h' S where
  valid := hvalid
  dir := (hkeep _ ⟨.dir,rfl⟩).trans hs.dir
  table := fun ht => (hkeep _ ⟨.table _,ht⟩).trans (hs.table ht)
  user := fun hi hp => by
    rw [hkeep _ ⟨.user _ _,hi,hp,rfl⟩]
    exact hs.user hi hp
  once := hs.once
  absent := hs.absent
  blank := hs.blank

theorem valid_write (hvalid : ∀ {v f}, h v = some f → Page lay v) (hv : Page lay v) {u : ℕ} {g : Words}
    (hu : update h v (some f) u = some g) : Page lay u := by
  by_cases heq : u = v
  · rw [heq]
    exact hv
  · rw [update_of_ne heq] at hu
    exact hvalid hu

theorem sound_outside (hs : Sound lay h S) (hpage : Page lay v) (hv : ¬S.In v) :
    Sound lay (update h v (some f)) S :=
  sound_frame hs (valid_write hs.valid hpage)
    fun _ hu => update_of_ne (fun heq => hv (by rw [← heq]; exact hu)) _ _

theorem sound_drop (hs : Sound lay h S) (hv : ¬S.In v) : Sound lay (update h v none) S := by
  refine sound_frame hs (fun {u g} hu => ?_)
    fun _ hu => update_of_ne (fun heq => hv (by rw [← heq]; exact hu)) _ _
  by_cases heq : u = v
  · rw [heq, update_self] at hu
    cases hu
  · rw [update_of_ne heq] at hu
    exact hs.valid hu

theorem sound_setData (hs : Sound lay h S) (hp : has (S.pte i j) PTE_P = false) :
    Sound lay h (S.setData i j f) where
  valid := hs.valid
  dir := hs.dir
  table := hs.table
  user := fun {i' j'} hi' hp' => by
    rw [setData_data, if_neg]
    · exact hs.user hi' hp'
    · rintro ⟨rfl,rfl⟩
      have : has (S.pte i' j') PTE_P = true := hp'
      rw [hp] at this
      cases this
  once := hs.once
  absent := hs.absent
  blank := hs.blank

theorem sound_fill (hs : Sound lay h S) (hi : i.val < 512) (hp : has (S.pte i j) PTE_P = true) :
    Sound lay (update h (frame (S.pte i j)) (some f)) (S.setData i j f) where
  valid := valid_write hs.valid (hs.valid (hs.user hi hp))
  dir := by
    show update h (frame (S.pte i j)) (some f) S.dir = some S.pde
    rw [update_of_ne, hs.dir]
    intro heq
    have := hs.once (v := S.dir) (a := .dir) (b := .user i j) rfl ⟨hi,hp,heq⟩
    cases this
  table := fun {i' t} ht => by
    show update h (frame (S.pte i j)) (some f) t = some (S.pte i')
    rw [update_of_ne, hs.table ht]
    intro heq
    have := hs.once (a := .table i') (b := .user i j) ht ⟨hi,hp,heq⟩
    cases this
  user := fun {i' j'} hi' hp' => by
    show update h (frame (S.pte i j)) (some f) (frame (S.pte i' j')) = _
    rw [setData_data]
    by_cases heq : i' = i ∧ j' = j
    · rw [if_pos heq, heq.1, heq.2, update_self]
    · rw [if_neg heq, update_of_ne]
      · exact hs.user hi' hp'
      · intro hframe
        have := hs.once (a := .user i' j') (b := .user i j) ⟨hi',hp',rfl⟩ ⟨hi,hp,hframe⟩
        cases this
        exact heq ⟨rfl,rfl⟩
  once := hs.once
  absent := hs.absent
  blank := hs.blank

theorem sound_setTab (hs : Sound lay h S) (htab : S.tab i = none) (ht : h t = some fun _ => 0)
    (hnew : ¬S.In t) :
    Sound lay (update h S.dir (some (update S.pde i (V2P t ||| PTE_P ||| PTE_W ||| PTE_U))))
      (S.setTab i t) where
  valid := valid_write hs.valid (hs.valid hs.dir)
  dir := by
    show update h S.dir _ S.dir = _
    rw [update_self]
    refine congrArg some (funext fun i' => ?_)
    by_cases heq : i' = i
    · subst heq
      simp [Space.pde, Space.setTab]
    · simp [Space.pde, Space.setTab, heq]
  table := fun {i' t'} ht' => by
    have hne : t' ≠ S.dir := by
      rintro rfl
      by_cases heq : i' = i
      · subst heq
        exact hnew ⟨.dir,(at_setTab_self.mp ht').symm⟩
      · have hold : S.At S.dir (.table i') :=
          (at_setTab (fun h => heq (by cases h; rfl))).mp ht'
        cases hs.once hold (b := .dir) rfl
    rw [update_of_ne hne]
    by_cases heq : i' = i
    · subst heq
      rw [at_setTab_self.mp ht', ht]
      exact congrArg some (hs.absent htab).symm
    · have hne' : Place.table i' ≠ .table i := fun h => heq (by cases h; rfl)
      exact hs.table ((at_setTab hne').mp (show (S.setTab i t).At t' (.table i') from ht'))
  user := fun {i' j'} hi' hp' => by
    have hne : frame (S.pte i' j') ≠ S.dir := by
      intro heq
      cases hs.once (v := S.dir) (a := .dir) (b := .user i' j') rfl ⟨hi',hp',heq.symm⟩
    show update h S.dir _ (frame (S.pte i' j')) = _
    rw [update_of_ne hne]
    exact hs.user hi' hp'
  once := fun {v a b} ha hb => by
    by_cases hai : a = .table i
    · by_cases hbi : b = .table i
      · rw [hai, hbi]
      · subst hai
        exact absurd ⟨b,at_setTab_self.mp ha ▸ (at_setTab hbi).mp hb⟩ hnew
    · by_cases hbi : b = .table i
      · subst hbi
        exact absurd ⟨a,at_setTab_self.mp hb ▸ (at_setTab hai).mp ha⟩ hnew
      · exact hs.once ((at_setTab hai).mp ha) ((at_setTab hbi).mp hb)
  absent := fun {i'} hi' => by
    refine hs.absent ?_
    by_cases heq : i' = i
    · rw [heq]
      exact htab
    · simpa [Space.setTab, heq] using hi'
  blank := hs.blank

theorem sound_setPte (hs : Sound lay h S) (htab : S.tab i = some t)
    (hvalid : ∀ {v f}, h' v = some f → Page lay v) (ht : h' t = some (update (S.pte i) j x))
    (hkeep : ∀ v a, S.At v a → a ≠ .user i j → v ≠ t → h' v = h v)
    (hnew : i.val < 512 → has x PTE_P = true → h' (frame x) = some (S.data i j) ∧
      ∀ a, a ≠ .user i j → ¬S.At (frame x) a)
    (hblank : i.val < 512 → has x PTE_P = false → x = 0) : Sound lay h' (S.setPte i j x) where
  valid := hvalid
  dir := by
    have hne : S.dir ≠ t := by
      intro heq
      cases hs.once (v := S.dir) (a := .dir) (b := .table i) rfl (heq ▸ htab)
    exact (hkeep _ .dir rfl (fun h => by cases h) hne).trans hs.dir
  table := fun {i' t'} ht' => by
    by_cases heq : i' = i
    · subst heq
      cases htab.symm.trans ht'
      rw [ht]
      refine congrArg some (funext fun j' => ?_)
      simp [Space.setPte]
    · have hne : t' ≠ t := by
        rintro rfl
        have hold : S.At t' (.table i') := ht'
        cases hs.once hold (b := .table i) htab
        exact heq rfl
      rw [hkeep t' (.table i') ht' (fun h => by cases h) hne, hs.table ht']
      simp [Space.setPte, heq]
  user := fun {i' j'} hi' hp' => by
    show h' (frame ((S.setPte i j x).pte i' j')) = some (S.data i' j')
    rw [setPte_pte] at hp' ⊢
    split at hp'
    · rename_i heq
      obtain ⟨rfl,rfl⟩ := heq
      rw [if_pos ⟨rfl,rfl⟩]
      exact (hnew hi' hp').1
    · rename_i hne
      have hplace : Place.user i' j' ≠ .user i j := fun h => hne (by cases h; exact ⟨rfl,rfl⟩)
      have htable : frame (S.pte i' j') ≠ t := by
        intro heq
        cases hs.once (v := t) (a := .table i) (b := .user i' j') htab ⟨hi',hp',heq.symm⟩
      rw [if_neg hne, hkeep _ (.user i' j') ⟨hi',hp',rfl⟩ hplace htable]
      exact hs.user hi' hp'
  once := fun {v a b} ha hb => by
    by_cases hai : a = .user i j
    · by_cases hbi : b = .user i j
      · rw [hai, hbi]
      · subst hai
        obtain ⟨hi,hp,rfl⟩ := at_setPte_self.mp ha
        exact absurd ((at_setPte hbi).mp hb) ((hnew hi hp).2 b hbi)
    · by_cases hbi : b = .user i j
      · subst hbi
        obtain ⟨hi,hp,rfl⟩ := at_setPte_self.mp hb
        exact absurd ((at_setPte hai).mp ha) ((hnew hi hp).2 a hai)
      · exact hs.once ((at_setPte hai).mp ha) ((at_setPte hbi).mp hb)
  absent := fun {i'} hi' => by
    have hne : i' ≠ i := by
      rintro rfl
      cases htab.symm.trans hi'
    simp only [Space.setPte, update_of_ne hne]
    exact hs.absent hi'
  blank := fun {i' j'} hi' hp' => by
    rw [setPte_pte] at hp' ⊢
    split at hp'
    · rename_i heq
      rw [if_pos heq]
      exact hblank (heq.1 ▸ hi') hp'
    · rename_i hne
      rw [if_neg hne]
      exact hs.blank hi' hp'

end Sound

def Below (S : Space) (sz : ℕ) : Prop := ∀ i j, i.val < 512 → has (S.pte i j) PTE_P = true → addr i j < sz

/-- As many pages as a space of a size can have, and one more. -/
def room (sz : ℕ) : ℕ := 1027+sz/PGSIZE

theorem space_atMost {S : Space} {sz : ℕ} (hb : Below S sz) : AtMost (1026+sz/PGSIZE) S.In := by
  refine ⟨S.dir::((List.finRange NPDENTRIES).filterMap S.tab++
    (List.range (sz/PGSIZE+1)).map fun k => frame (S.pte (PDX (PGSIZE*k)) (PTX (PGSIZE*k)))),?_,?_⟩
  · have htab := List.length_filterMap_le S.tab (List.finRange NPDENTRIES)
    rw [List.length_finRange] at htab
    rw [List.length_cons, List.length_append, List.length_map, List.length_range]
    simp only [NPDENTRIES] at htab ⊢
    omega
  · rintro v ⟨a,ha⟩
    rw [List.mem_cons, List.mem_append, List.mem_filterMap, List.mem_map]
    cases a with
    | dir => exact .inl ha
    | table i => exact .inr (.inl ⟨i,List.mem_finRange i,ha⟩)
    | user i j =>
      obtain ⟨hi,hp,rfl⟩ := ha
      have hlt := hb i j hi hp
      have hround := (addr_bounds i j).1
      refine .inr (.inr ⟨addr i j/PGSIZE,
        List.mem_range.mpr (Nat.lt_succ_of_le (Nat.div_le_div_right (Nat.le_of_lt hlt))),?_⟩)
      rw [Nat.mul_div_cancel' (Nat.dvd_of_mod_eq_zero hround), pdx_addr, ptx_addr]

theorem room_mono {sz sz' : ℕ} (h : sz ≤ sz') : room sz ≤ room sz' :=
  Nat.add_le_add_left (Nat.div_le_div_right h) _

end Xv6.VmSpaces

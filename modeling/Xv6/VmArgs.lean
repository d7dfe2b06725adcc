import Xv6.VmUser

/-!
# The arguments of a new program

The strings of `argv` go to the top page of the new image, one below the other, and the
words of `ustack` below them. A string that does not fit ends in the page below, which is not
one of the user, and `copyout` fails there; or `sp` wraps around to the part of the kernel,
where it fails too if there is a page table.
-/

set_option autoImplicit false

namespace Xv6.VmArgs
open CommandTree HeapRegions ByteFields VmCode VmHeap VmSpaces VmMapping VmImages
open VmUser VmAlone

theorem toBytes_ofBytes (b : Block) {k : ℕ} (hk : k < PGSIZE) : toBytes (ofBytes b) k = b k := by
  have hword : k/4%NPDENTRIES = k/4 := Nat.mod_eq_of_lt (by simp only [PGSIZE, NPDENTRIES] at hk ⊢; omega)
  have hsum : 4*(k/4%NPDENTRIES)+k%4 = k := by
    rw [hword]
    omega
  rw [toBytes, ofBytes, byte_field b (4*(k/4%NPDENTRIES)) (Nat.mod_lt _ (by decide)), hsum]

def Hole (va : ℕ) : Prop := KERNBASE+PHYSTOP ≤ va ∧ va < DEVSPACE

instance (va : ℕ) : Decidable (Hole va) := inferInstanceAs (Decidable (_ ∧ _))

section Kernel
variable {lay : Layout} {A : Terms} {h : PageHeap} {S : Space} {va : ℕ}

theorem pdx_down (va : ℕ) : PDX (PGROUNDDOWN va) = PDX va ∧ PTX (PGROUNDDOWN va) = PTX va := by
  constructor
  · refine Fin.ext ?_
    simp only [PDX, PGROUNDDOWN, PGSIZE, NPDENTRIES]
    omega
  · refine Fin.ext ?_
    simp only [PTX, PGROUNDDOWN, PGSIZE, NPDENTRIES]
    omega

theorem kmap_covers (lay : Layout) (va : ℕ) (hlow : KERNBASE ≤ va) (hhigh : va < WORD) (hhole : ¬Hole va) :
    ∃ k ∈ kmap lay, Kmap.covers k va = true := by
  obtain ⟨-,hdata,hstop,hv2p,hphys⟩ := layout_bounds lay
  simp only [Hole, KERNBASE, PHYSTOP, DEVSPACE, WORD] at hlow hhigh hhole
  by_cases h0 : va < 2148532224
  · refine ⟨⟨KERNBASE,0,EXTMEM,PTE_W⟩,by simp [kmap],decide_eq_true ?_⟩
    simp only [Kmap.size, KERNBASE, EXTMEM, WORD]
    omega
  by_cases h1 : va < lay.data
  · refine ⟨⟨KERNLINK,V2P KERNLINK,V2P lay.data,0⟩,by simp [kmap],decide_eq_true ?_⟩
    rw [Kmap.size, hv2p, hphys]
    simp only [KERNLINK, KERNBASE, EXTMEM, WORD]
    omega
  by_cases h2 : va < 2382364672
  · refine ⟨⟨lay.data,V2P lay.data,PHYSTOP,PTE_W⟩,by simp [kmap],decide_eq_true ?_⟩
    rw [Kmap.size, hv2p]
    simp only [PHYSTOP, WORD]
    omega
  · refine ⟨⟨DEVSPACE,DEVSPACE,0,PTE_W⟩,by simp [kmap],decide_eq_true ?_⟩
    simp only [Kmap.size, DEVSPACE, WORD]
    omega

theorem prescribed_ne_zero {rows : List Kmap} {k : Kmap} (hk : k ∈ rows) (hcover : Kmap.covers k va = true) :
    prescribed rows va ≠ 0 := by
  rw [prescribed]
  split
  · rename_i hnone
    exact absurd hcover (List.find?_eq_none.mp hnone k hk)
  · intro h0
    have hodd : ∀ x, (x ||| PTE_P)%2 = 1 := fun x => by simp
    rename_i r _
    have := hodd (r.physStart+(va-r.virt) ||| r.perm)
    rw [h0] at this
    cases this

theorem kernel_table_iff (hs : Sound lay h S) (hk : Kernel lay S) (hlow : KERNBASE ≤ va) (hhigh : va < WORD) :
    S.tab (PDX va) = none ↔ Hole va := by
  have hi := pdx_kernel hlow hhigh
  constructor
  · intro htab
    by_contra hhole
    have hdown : PGROUNDDOWN va ≤ va := by
      simp only [PGROUNDDOWN, PGSIZE]
      omega
    have hhole' : ¬Hole (PGROUNDDOWN va) := by
      simp only [Hole, PGROUNDDOWN, PGSIZE, KERNBASE, PHYSTOP, DEVSPACE] at hhole ⊢
      omega
    obtain ⟨k,hk',hcover⟩ := kmap_covers lay (PGROUNDDOWN va)
      (by simp only [PGROUNDDOWN, PGSIZE, KERNBASE] at hlow ⊢; omega) (by omega) hhole'
    have hentry := hk.entry (PDX va) (PTX va) hi
    rw [hs.absent htab, addr_down hhigh] at hentry
    exact prescribed_ne_zero hk' hcover hentry.symm
  · intro hhole
    by_contra hne
    obtain ⟨j,k,hk',hcover⟩ := hk.table _ hi hne
    have hj := j.isLt
    have hrow : Hole (addr (PDX va) j) := by
      simp only [Hole, addr, PDX, KERNBASE, PHYSTOP, DEVSPACE, PGSIZE, NPDENTRIES] at hhole hj ⊢
      omega
    rw [kmap_hole hrow.1 hrow.2 k hk'] at hcover
    cases hcover

end Kernel

def topPage (S : Space) (sz : ℕ) : Block := toBytes (S.data (PDX (sz-PGSIZE)) (PTX (sz-PGSIZE)))

def OnTop (S : Space) (sz : ℕ) (data : Index → Index → Words) : Prop :=
  ∀ i j, ¬(i = PDX (sz-PGSIZE) ∧ j = PTX (sz-PGSIZE)) → data i j = S.data i j

section Copy
variable {lay : Layout} {A : Terms} {h : PageHeap} {S : Space} {va sz : ℕ} {buf : List UInt8}

theorem stacked_withData {data : Index → Index → Words} (hst : Stacked S sz) :
    Stacked (Space.withData S data) sz :=
  ⟨hst.page,hst.two,hst.size,hst.exact,hst.guard,hst.top⟩

theorem stacked_present (va : ℕ) (hst : Stacked S sz) (hva : va < sz) :
    (PDX va).val < 512 ∧ has (S.pte (PDX va) (PTX va)) PTE_P = true := by
  obtain ⟨hlt,hp,-⟩ := exact_present hst.exact (Nat.le_of_lt hst.size) hva
  exact ⟨pdx_user hlt,hp⟩

theorem table_of_present (hs : Sound lay h S) (hp : has (S.pte (PDX va) (PTX va)) PTE_P = true) :
    S.tab (PDX va) ≠ none := by
  intro htab
  rw [hs.absent htab] at hp
  exact absurd hp not_has_zero

theorem copyout_from_nil {k : ℕ} : copyoutFrom S.dir k va [] = pure true := by
  cases k with
  | zero => rfl
  | succ k =>
    rw [copyoutFrom]
    exact if_neg (Nat.lt_irrefl 0)

theorem copyout_top (va : ℕ) (buf : List UInt8) (hs : Sound lay h S) (hst : Stacked S sz)
    (hlow : sz-PGSIZE ≤ va) (hfit : va+buf.length ≤ sz)
    (hne : 0 < buf.length) :
    Does lay A (copyout S.dir va buf) (fun r h' => r = true ∧ ∃ data, Sound lay h' (Space.withData S data) ∧
      Moves h S.In h' S.In ∧ OnTop S sz data ∧
      ∀ k < PGSIZE, toBytes (data (PDX (sz-PGSIZE)) (PTX (sz-PGSIZE))) k =
      paste (topPage S sz) (va-(sz-PGSIZE)) buf k) h := by
  have hpage := hst.page
  have htwo := hst.two
  obtain ⟨hi,hp⟩ := stacked_present (sz-PGSIZE) hst (by simp only [PGSIZE] at htwo ⊢; omega)
  have hdown : PGROUNDDOWN va = sz-PGSIZE := by
    simp only [PGROUNDDOWN, PGSIZE] at hpage htwo hlow hfit ⊢
    omega
  have hmin : min (PGSIZE-(va-(sz-PGSIZE))) buf.length = buf.length := by
    simp only [PGSIZE] at htwo hlow ⊢
    omega
  obtain ⟨k,hk⟩ : ∃ k, buf.length = k+1 := ⟨buf.length-1,by omega⟩
  rw [copyout, hk, copyoutFrom, if_pos hne]
  dsimp only
  rw [hdown, hmin, List.take_length, List.drop_length]
  refine does_bind (uva2ka_spec hs (fun htab => absurd htab (table_of_present hs hp))
    (fun _ hbad => ?_) fun _ _ => ?_)
  · rw [hp, hst.top] at hbad
    exact hbad.elim (fun h0 => by cases h0) fun h0 => by cases h0
  · have hpos := page_pos (hs.valid (hs.user hi hp))
    rw [if_neg (by omega)]
    refine does_bind (patch_spec hs hi hp fun h1 hs1 hmove1 => ?_)
    rw [copyout_from_nil]
    refine does_pure ⟨rfl,_,hs1,hmove1,fun i j hij => ?_,fun k hk => ?_⟩
    · exact (setData_data (S := S)).trans (if_neg hij)
    · rw [Function.update_self, Function.update_self, toBytes_ofBytes _ hk]
      rfl

theorem copyout_from_low {k : ℕ} (va : ℕ) (buf : List UInt8) (hs : Sound lay h S) (hst : Stacked S sz)
    (hlow : va < sz-PGSIZE) (hreach : sz-2*PGSIZE < va+buf.length) (hne : 0 < buf.length)
    (hk : buf.length ≤ k) :
    Does lay A (copyoutFrom S.dir k va buf)
      (fun r h' => r = false ∧ ∃ data, Sound lay h' (Space.withData S data) ∧ Moves h S.In h' S.In) h := by
  have hpage := hst.page
  have htwo := hst.two
  induction k generalizing va buf h S with
  | zero => omega
  | succ k ih =>
    have hdown : PGROUNDDOWN va = va-va%PGSIZE := by
      simp only [PGROUNDDOWN, PGSIZE]
      omega
    obtain ⟨hi,hp⟩ := stacked_present (PGROUNDDOWN va) hst (by rw [hdown]; omega)
    rw [copyoutFrom, if_pos hne]
    refine does_bind (uva2ka_spec hs (fun htab => absurd htab (table_of_present hs hp))
      (fun _ _ => ?_) fun _ hu => ?_)
    · rw [if_pos rfl]
      exact does_pure ⟨rfl,S.data,hs,moves_refl _ _⟩
    · -- the page is one of the user, so it is not the guard page
      have hguard : PGROUNDDOWN va ≠ sz-2*PGSIZE := by
        intro heq
        have hno := hst.guard
        rw [← heq, hu] at hno
        cases hno
      have hpos := page_pos (hs.valid (hs.user hi hp))
      rw [if_neg (by omega)]
      dsimp only
      have hmin : min (PGSIZE-(va-PGROUNDDOWN va)) buf.length = PGSIZE-va%PGSIZE := by
        rw [hdown] at hguard ⊢
        simp only [PGSIZE] at hpage htwo hlow hreach hguard ⊢
        omega
      have hnext : (PGROUNDDOWN va+PGSIZE)%WORD = va-va%PGSIZE+PGSIZE := by
        have hsize := hst.size
        rw [hdown]
        simp only [PGSIZE, WORD, KERNBASE] at hlow hsize ⊢
        omega
      rw [hdown] at hguard
      rw [hmin, hnext]
      refine does_bind (patch_spec hs hi hp fun h1 hs1 hmove1 => ?_)
      have hrest := fun hlow' hreach' hne' hk' => ih (va-va%PGSIZE+PGSIZE) (buf.drop (PGSIZE-va%PGSIZE)) hs1
        (stacked_withData hst) hlow' hreach' hne' hk'
      refine does_mono (hrest ?_ ?_ ?_ ?_) ?_
      · simp only [PGSIZE] at hpage htwo hlow hguard ⊢
        omega
      · rw [List.length_drop]
        simp only [PGSIZE] at hpage htwo hlow hreach hguard ⊢
        omega
      · rw [List.length_drop]
        simp only [PGSIZE] at hpage htwo hlow hreach hguard ⊢
        omega
      · rw [List.length_drop]
        simp only [PGSIZE]
        omega
      · rintro r h2 ⟨hr,data,hs2,hmove2⟩
        exact ⟨hr,data,hs2,moves_trans hmove1 hmove2⟩

theorem copyout_high {k : ℕ} (hs : Sound lay h S) (hk : Kernel lay S) (hlow : KERNBASE ≤ va)
    (hhigh : va < WORD)
    (hne : 0 < buf.length) (hA : Hole va → A.panic .null) :
    Does lay A (copyoutFrom S.dir (k+1) va buf) (fun r h' => r = false ∧ h' = h ∧ ¬Hole va) h := by
  have htable := kernel_table_iff hs hk hlow hhigh
  rw [copyoutFrom, if_pos hne]
  refine does_bind (uva2ka_spec hs ?_ ?_ ?_)
  · rw [(pdx_down va).1, htable]
    exact hA
  · rw [(pdx_down va).1]
    intro htab _
    rw [if_pos rfl]
    exact does_pure ⟨rfl,rfl,fun hhole => htab (htable.mpr hhole)⟩
  · rw [(pdx_down va).1, (pdx_down va).2]
    intro _ hu
    rw [kernel_no_user hk (pdx_kernel hlow hhigh)] at hu
    cases hu

end Copy

/-- Strings one below the other: each begins at its pointer, and its NUL is below what was put
down before. -/
inductive Laid (read : ℕ → ℕ → List UInt8) : ℕ → List (List UInt8) → List ℕ → ℕ → Prop
  | nil (sp : ℕ) : Laid read sp [] [] sp
  | cons {sp low ptr : ℕ} {arg : List UInt8} {rest : List (List UInt8)} {ptrs : List ℕ}
      (fits : ptr+(arg.length+1) ≤ sp) (text : read ptr (arg.length+1) = arg++[0])
      (below : Laid read ptr rest ptrs low) : Laid read sp (arg::rest) (ptr::ptrs) low

/-- A string that does not fit in the rest of the top page takes `sp` around to the hole. -/
def Jumps (sz : ℕ) : ℕ → List (List UInt8) → Prop
  | _, [] => False
  | sp, arg::rest =>
    if sz-PGSIZE+(arg.length+1) ≤ sp then Jumps sz ((sp-(arg.length+1))/4*4) rest
    else sp < arg.length+1 ∧ Hole ((sp+WORD-(arg.length+1))/4*4)

instance decideJumps (sz : ℕ) : ∀ sp args, Decidable (Jumps sz sp args)
  | _, [] => isFalse id
  | sp, arg::rest =>
    if h : sz-PGSIZE+(arg.length+1) ≤ sp then
      have := decideJumps sz ((sp-(arg.length+1))/4*4) rest
      decidable_of_iff (Jumps sz ((sp-(arg.length+1))/4*4) rest) (by rw [Jumps, if_pos h])
    else decidable_of_iff (sp < arg.length+1 ∧ Hole ((sp+WORD-(arg.length+1))/4*4)) (by rw [Jumps, if_neg h])

/-- Where `sp` is below the strings, if they fit in a page. -/
def lowered (low : ℕ) : ℕ → List (List UInt8) → Option ℕ
  | sp, [] => some sp
  | sp, arg::rest => if low+(arg.length+1) ≤ sp then lowered low ((sp-(arg.length+1))/4*4) rest else none

section Strings
variable {read read' : ℕ → ℕ → List UInt8} {args : List (List UInt8)} {ptrs : List ℕ} {sp low : ℕ}

theorem laid_le (hl : Laid read sp args ptrs low) : low ≤ sp := by
  induction hl with
  | nil sp => exact Nat.le_refl _
  | cons fits _ _ ih => omega

theorem laid_length (hl : Laid read sp args ptrs low) : ptrs.length = args.length := by
  induction hl with
  | nil sp => rfl
  | cons _ _ _ ih => rw [List.length_cons, List.length_cons, ih]

theorem laid_congr (hl : Laid read sp args ptrs low)
    (hread : ∀ va n, low ≤ va → va+n ≤ sp → read' va n = read va n) : Laid read' sp args ptrs low := by
  induction hl with
  | nil sp => exact .nil sp
  | cons fits text below ih =>
    have hlow := laid_le below
    refine .cons fits ((hread _ _ hlow fits).trans text) (ih fun va n hva hn => hread va n hva ?_)
    omega

end Strings

def topRead (data : Index → Index → Words) (sz va n : ℕ) : List UInt8 :=
  slice (toBytes (data (PDX (sz-PGSIZE)) (PTX (sz-PGSIZE)))) (va-(sz-PGSIZE)) n

section Push
variable {lay : Layout} {A : Terms} {h : PageHeap} {S : Space} {sz : ℕ}

structure Strings (S : Space) (sz sp : ℕ) (args : List (List UInt8)) (data : Index → Index → Words) (sp' : ℕ)
    (new : List ℕ) : Prop where
  top : OnTop S sz data
  low : sz-PGSIZE ≤ sp'
  laid : Laid (topRead data sz) sp args new sp'
  above : ∀ k, sp ≤ sz-PGSIZE+k → k < PGSIZE →
    toBytes (data (PDX (sz-PGSIZE)) (PTX (sz-PGSIZE))) k = topPage S sz k

theorem strings_cons {data1 data2 : Index → Index → Words} {arg : List UInt8} {rest : List (List UInt8)}
    {sp sp1 sp' : ℕ}
    {new : List ℕ} (htop1 : OnTop S sz data1) (hlow : sz-PGSIZE ≤ sp1) (hfit : sp1+(arg.length+1) ≤ sp)
    (hsp : sp ≤ sz)
    (hpaste : ∀ k < PGSIZE, toBytes (data1 (PDX (sz-PGSIZE)) (PTX (sz-PGSIZE))) k =
      paste (topPage S sz) (sp1-(sz-PGSIZE)) (arg++[0]) k)
    (hrest : Strings (Space.withData S data1) sz sp1 rest data2 sp' new) :
    Strings S sz sp (arg::rest) data2 sp' (sp1::new) := by
  have hlen : (arg++[0]).length = arg.length+1 := by simp
  have hkeep : ∀ k, sp1 ≤ sz-PGSIZE+k → k < PGSIZE → toBytes (data2 (PDX (sz-PGSIZE)) (PTX (sz-PGSIZE))) k =
      paste (topPage S sz) (sp1-(sz-PGSIZE)) (arg++[0]) k :=
        fun k hk hk' => (hrest.above k hk hk').trans (hpaste k hk')
  refine ⟨fun i j hij => (hrest.top i j hij).trans (htop1 i j hij),hrest.low,.cons hfit ?_ hrest.laid,
    fun k hk hk' => ?_⟩
  · have hself := slice_paste_self (topPage S sz) (sp1-(sz-PGSIZE)) (arg++[0])
    rw [hlen] at hself
    rw [topRead, ← hself]
    refine slice_congr fun k hk => hkeep _ ?_ ?_
    · omega
    · simp only [PGSIZE] at hlow ⊢
      omega
  · rw [hkeep k (by omega) hk', paste_outside]
    rw [hlen]
    omega

theorem push_args_laid {args : List (List UInt8)} (argc sp : ℕ) (ptrs : List ℕ) (hs : Sound lay h S)
    (hk : Kernel lay S)
    (hst : Stacked S sz) (hlow : sz-PGSIZE ≤ sp) (hsp : sp ≤ sz) (hargc : argc+args.length ≤ MAXARG)
    (hargs : ∀ arg ∈ args, arg.length < KERNBASE) (hA : Jumps sz sp args → A.panic .null) :
    Does lay A (pushArgs S.dir args argc sp ptrs)
      (fun r h' => ¬Jumps sz sp args ∧ ∃ data, Sound lay h' (Space.withData S data) ∧ Moves h S.In h' S.In ∧
        r.map Prod.fst = lowered (sz-PGSIZE) sp args ∧ ∀ sp' ptrs', r = some (sp',ptrs') →
        ∃ new, ptrs' = ptrs++new ∧ Strings S sz sp args data sp' new) h := by
  have hsize := hst.size
  have hpage := hst.page
  have htwo := hst.two
  induction args generalizing argc sp ptrs h S with
  | nil =>
    rw [pushArgs]
    refine does_pure ⟨id,S.data,hs,moves_refl _ _,rfl,fun sp' ptrs' hr => ?_⟩
    cases hr
    exact ⟨[],(List.append_nil _).symm,fun _ _ _ => rfl,hlow,.nil _,fun _ _ _ => rfl⟩
  | cons arg rest ih =>
    have harg := hargs arg List.mem_cons_self
    have hlen : (arg++[0]).length = arg.length+1 := by simp
    have hmod : (arg.length+1)%WORD = arg.length+1 := by
      simp only [KERNBASE, WORD] at harg ⊢
      omega
    rw [List.length_cons] at hargc
    rw [pushArgs, if_neg (by omega), lowered]
    dsimp only
    rw [hmod]
    by_cases hfit : sz-PGSIZE+(arg.length+1) ≤ sp
    · -- the string fits in the page
      have hsub : (sp+WORD-(arg.length+1))%WORD/4*4 = (sp-(arg.length+1))/4*4 := by
        simp only [KERNBASE, WORD, PGSIZE] at hsize hfit ⊢
        omega
      have hjump : Jumps sz sp (arg::rest) ↔ Jumps sz ((sp-(arg.length+1))/4*4) rest := by
        rw [Jumps, if_pos hfit]
      have hfits : sz-PGSIZE ≤ (sp-(arg.length+1))/4*4 ∧ (sp-(arg.length+1))/4*4+(arg.length+1) ≤ sp := by
        simp only [PGSIZE] at hpage htwo hfit ⊢
        omega
      rw [hsub, hjump, if_pos hfit]
      rw [hjump] at hA
      generalize (sp-(arg.length+1))/4*4 = sp1 at *
      refine does_seq (copyout_top _ _ hs hst hfits.1 (by rw [hlen]; omega) (by rw [hlen]; omega)) ?_
      rintro - h1 ⟨rfl,data1,hs1,hmove1,htop1,hpaste⟩
      rw [if_pos rfl]
      have hnext :=
        ih (argc+1) sp1 (ptrs++[sp1]) hs1 (kernel_withData hk) (stacked_withData hst) hfits.1 (by omega)
        (by omega) (fun a ha => hargs a (List.mem_cons_of_mem _ ha)) hA
      refine does_mono hnext ?_
      rintro r h2 ⟨hno,data2,hs2,hmove2,hlow2,hend⟩
      refine ⟨hno,data2,hs2,moves_trans hmove1 hmove2,hlow2,fun sp' ptrs' hr => ?_⟩
      obtain ⟨new,rfl,hrest⟩ := hend sp' ptrs' hr
      exact ⟨sp1::new,by rw [List.append_assoc, List.singleton_append],
        strings_cons htop1 hfits.1 hfits.2 hsp hpaste hrest⟩
    · rw [if_neg hfit]
      by_cases hwrap : sp < arg.length+1
      · -- `sp` goes around to the kernel part
        have hjump : Jumps sz sp (arg::rest) ↔ Hole ((sp+WORD-(arg.length+1))/4*4) := by
          rw [Jumps, if_neg hfit, and_iff_right hwrap]
        have hhigh : (sp+WORD-(arg.length+1))%WORD/4*4 = (sp+WORD-(arg.length+1))/4*4 ∧
            KERNBASE ≤ (sp+WORD-(arg.length+1))/4*4 ∧ (sp+WORD-(arg.length+1))/4*4 < WORD := by
          simp only [KERNBASE, WORD] at harg ⊢
          omega
        rw [hhigh.1, hjump]
        rw [copyout, hlen]
        refine does_seq (copyout_high hs hk hhigh.2.1 hhigh.2.2 (by rw [hlen]; omega) fun hhole => hA
          (hjump.mpr hhole)) ?_
        rintro - h1 ⟨rfl,rfl,hhole⟩
        rw [if_neg Bool.false_ne_true]
        exact does_pure ⟨hhole,S.data,hs,moves_refl _ _,rfl,fun _ _ hr => by cases hr⟩
      · -- the string comes to the page below
        have hsub : (sp+WORD-(arg.length+1))%WORD/4*4 = (sp-(arg.length+1))/4*4 := by
          simp only [KERNBASE, WORD] at hsize ⊢
          omega
        have hjump : ¬Jumps sz sp (arg::rest) := by
          rw [Jumps, if_neg hfit]
          exact fun h0 => hwrap h0.1
        rw [hsub]
        refine does_seq (copyout_from_low _ _ hs hst ?_ ?_ (by rw [hlen]; omega) (Nat.le_refl _)) ?_
        · simp only [PGSIZE] at hpage hfit ⊢
          omega
        · rw [hlen]
          simp only [PGSIZE] at hpage htwo hlow hfit ⊢
          omega
        · rintro - h1 ⟨rfl,data,hs1,hmove1⟩
          rw [if_neg Bool.false_ne_true]
          exact does_pure ⟨hjump,data,hs1,hmove1,rfl,fun _ _ hr => by cases hr⟩

structure Frame (S : Space) (sz : ℕ) (argv : List (List UInt8)) (data : Index → Index → Words) (top : ℕ)
    (ptrs : List ℕ) :
    Prop where
  only : OnTop S sz data
  low : sz-PGSIZE ≤ top
  laid : Laid (topRead data sz) sz argv ptrs (top+4*(argv.length+4))
  words : topRead data sz top (4*(argv.length+4)) =
    ([4294967295,argv.length,top+12]++ptrs++[0]).flatMap (bytes 4)

abbrev frameBytes (argc top : ℕ) (ptrs : List ℕ) : List UInt8 :=
  ([4294967295,argc,top+12]++ptrs++[0]).flatMap (bytes 4)

theorem words_length (xs : List ℕ) : (xs.flatMap (bytes 4)).length = 4*xs.length := by
  induction xs with
  | nil => rfl
  | cons x xs ih =>
    rw [List.flatMap_cons, List.length_append, bytes_length, ih, List.length_cons]
    omega

theorem frame_length {argc : ℕ} (top : ℕ) {ptrs : List ℕ} (hptrs : ptrs.length = argc) :
    (frameBytes argc top ptrs).length = 4*(argc+4) := by
  rw [words_length, List.length_append, List.length_append, hptrs]
  simp only [List.length_cons, List.length_nil]
  omega

theorem frame_of_strings {argv : List (List UInt8)} {data1 data2 : Index → Index → Words} {sp top : ℕ}
    {ptrs : List ℕ}
    (hsp : sp = top+4*(argv.length+4)) (hsz : sp ≤ sz) (hlow : sz-PGSIZE ≤ top)
    (hstr : Strings S sz sz argv data1 sp ptrs) (htop2 : OnTop (Space.withData S data1) sz data2)
    (hpaste : ∀ k < PGSIZE, toBytes (data2 (PDX (sz-PGSIZE)) (PTX (sz-PGSIZE))) k =
      paste (topPage (Space.withData S data1) sz) (top-(sz-PGSIZE))
        (frameBytes argv.length top ptrs) k) :
    Frame S sz argv data2 top ptrs := by
  have hlen := frame_length top (laid_length hstr.laid)
  refine ⟨fun i j hij => (htop2 i j hij).trans (hstr.top i j hij),hlow,?_,?_⟩
  · rw [← hsp]
    refine laid_congr hstr.laid fun va n hva hn => slice_congr fun k hk => ?_
    rw [hpaste _ (by simp only [PGSIZE] at hlow ⊢; omega), paste_outside]
    · rfl
    · rw [hlen]
      omega
  · have hself := slice_paste_self (topPage (Space.withData S data1) sz) (top-(sz-PGSIZE))
      (frameBytes argv.length top ptrs)
    rw [hlen] at hself
    refine Eq.trans (slice_congr fun k hk => hpaste _ ?_) hself
    simp only [PGSIZE] at hlow ⊢
    omega

/-- The strings and the words below them fit in the top page. -/
def Placed (sz : ℕ) (argv : List (List UInt8)) : Prop :=
  ∃ sp, lowered (sz-PGSIZE) sz argv = some sp ∧ sz-PGSIZE+4*(argv.length+4) ≤ sp

theorem push_stack_laid {argv : List (List UInt8)} (hs : Sound lay h S) (hk : Kernel lay S)
    (hst : Stacked S sz)
    (hargc : argv.length < MAXARG) (hargs : ∀ arg ∈ argv, arg.length < KERNBASE)
    (hA : Jumps sz sz argv → A.panic .null) :
    Does lay A (pushStack S.dir sz argv)
      (fun r h' => ¬Jumps sz sz argv ∧ ∃ data, Sound lay h' (Space.withData S data) ∧ Moves h S.In h' S.In ∧
        (r = none → ¬Placed sz argv) ∧ ∀ top, r = some top → ∃ ptrs, Frame S sz argv data top ptrs) h := by
  have hsize := hst.size
  have htwo := hst.two
  rw [pushStack]
  refine does_seq (push_args_laid 0 sz [] hs hk hst (Nat.sub_le _ _) (Nat.le_refl _) (by omega) hargs hA) ?_
  rintro o h1 ⟨hno,data1,hs1,hmove1,hlowered,hend⟩
  cases o with
  | none =>
    refine does_pure ⟨hno,data1,hs1,hmove1,fun _ hplaced => ?_,fun _ hr => by cases hr⟩
    obtain ⟨sp,hsp,-⟩ := hplaced
    cases hlowered.trans hsp
  | some x =>
    obtain ⟨sp,ptrs⟩ := x
    obtain ⟨new,hnew,hstr⟩ := hend sp ptrs rfl
    rw [List.nil_append] at hnew
    subst hnew
    have hlow := hstr.low
    have hsp := laid_le hstr.laid
    obtain ⟨top,hsum,htop⟩ : ∃ top, sp = top+4*(argv.length+4) ∧
      (sp+WORD-(3+argv.length+1)*4)%WORD = top := by
      refine ⟨sp-4*(argv.length+4),?_,?_⟩ <;>
        simp only [PGSIZE, KERNBASE, WORD, MAXARG] at hlow hsp hsize htwo hargc ⊢ <;> omega
    have hthird : (sp+WORD-(argv.length+1)*4)%WORD = top+12 := by
      simp only [KERNBASE, WORD] at hsize ⊢
      omega
    have hwords : ustack argv.length sp ptrs = [4294967295,argv.length,top+12]++ptrs++[0] := by
      rw [ustack, hthird]
    have hlen := frame_length top (laid_length hstr.laid)
    dsimp only
    rw [htop, hwords]
    by_cases hfit : sz-PGSIZE ≤ top
    · have hcopy := copyout_top (A := A) top
        (frameBytes argv.length top ptrs) hs1 (stacked_withData hst) hfit
        (by rw [hlen]; omega) (by rw [hlen]; omega)
      refine does_seq hcopy ?_
      rintro - h2 ⟨rfl,data2,hs2,hmove2,htop2,hpaste⟩
      rw [if_pos rfl]
      refine does_pure ⟨hno,data2,hs2,moves_trans hmove1 hmove2,(fun hr => by cases hr),fun t hr => ?_⟩
      cases hr
      exact ⟨ptrs,frame_of_strings hsum hsp hfit hstr htop2 hpaste⟩
    · have hcopy := copyout_from_low (A := A) top
        (frameBytes argv.length top ptrs) hs1 (stacked_withData hst) (by omega)
        (by rw [hlen]; simp only [PGSIZE] at hlow htwo ⊢; omega) (by rw [hlen]; omega) (Nat.le_refl _)
      refine does_seq hcopy ?_
      rintro - h2 ⟨rfl,data2,hs2,hmove2⟩
      rw [if_neg Bool.false_ne_true]
      refine does_pure ⟨hno,data2,hs2,moves_trans hmove1 hmove2,fun _ hplaced => ?_,fun _ hr => by cases hr⟩
      obtain ⟨sp',hsp',hroom⟩ := hplaced
      cases hlowered.trans hsp'
      rw [hsum] at hroom
      exact hfit (Nat.le_of_add_le_add_right hroom)

/-- The size with the stack. -/
def stackTop (sz : ℕ) : ℕ := PGROUNDUP sz+2*PGSIZE

theorem stack_image_spec {h0 : PageHeap} {argv : List (List UInt8)} (hs : Sound lay h S) (hk : Kernel lay S)
    (he : Exact S sz)
    (hsz : sz < KERNBASE) (hmove : Moves h0 (fun _ => False) h S.In) (hargc : argv.length < MAXARG)
    (hargs : ∀ arg ∈ argv, arg.length < KERNBASE)
    (hA : Jumps (stackTop sz) (stackTop sz) argv → A.panic .null) :
    Does lay A (stackImage S.dir sz argv) (fun r h' =>
      (r = none ∧ h' = h0 ∧ (KERNBASE ≤ stackTop sz ∨ ¬Placed (stackTop sz) argv ∨
        Scarce A h0 (fun _ => False) (room (stackTop sz)))) ∨
      ∃ S' data sp ptrs, r = some (stackTop sz,sp) ∧ S'.dir = S.dir ∧ Sound lay h' (Space.withData S' data) ∧
      Kernel lay S' ∧
        Stacked S' (stackTop sz) ∧ Added S (PGROUNDUP sz) (stackTop sz) S' ∧
        Moves h0 (fun _ => False) h' S'.In ∧
        Frame S' (stackTop sz) argv data sp ptrs) h := by
  rw [stackImage]
  refine does_seq (alloc_stack_spec hs hk he hsz) ?_
  rintro r h1 ⟨S1,hs1,hmove1,hdir1,hk1,hend1,hfail1⟩
  have hm1 := moves_trans hmove hmove1
  rw [← hdir1]
  by_cases hr : r = 0
  · rw [if_pos hr]
    refine does_mono (give_up_spec hs1 hm1) fun _ _ h2 => .inl ⟨h2.1,h2.2,?_⟩
    exact (hfail1 hr).imp id fun hscarce => .inr (scarce_trans hmove hscarce)
  rw [if_neg hr]
  obtain ⟨hst,hadd⟩ := hend1 hr
  obtain rfl : r = stackTop sz := hadd.size
  refine does_seq (push_stack_laid hs1 hk1 hst hargc hargs hA) ?_
  rintro o h2 ⟨-,data,hs2,hmove2,hnone,hframe⟩
  have hm2 := moves_trans hm1 hmove2
  cases o with
  | none =>
    have hend := give_up_spec (A := A) (α := ℕ × ℕ) hs2 hm2
    exact does_mono hend fun _ _ h3 => .inl ⟨h3.1,h3.2,.inr (.inl (hnone rfl))⟩
  | some sp =>
    obtain ⟨ptrs,hframe⟩ := hframe sp rfl
    exact does_pure (.inr ⟨S1,data,sp,ptrs,rfl,rfl,hs2,hk1,hst,hadd,hm2,hframe⟩)

end Push

section Null
variable {n : ℕ} {lay : Layout} {w : World n} {h : PageHeap} {S : Space} {L : List ℕ} {sz : ℕ}
    {argv : List (List UInt8)}

theorem push_stack_ends (ho : Owns lay w h L) (hs : Sound lay h S) (hk : Kernel lay S) (hst : Stacked S sz)
    (hargc : argv.length < MAXARG) (hargs : ∀ arg ∈ argv, arg.length < KERNBASE) :
    (¬Jumps sz sz argv ∧ ∃ r w', run (handleMem lay) (pushStack S.dir sz argv) w = .ok (r,w')) ∨
      (Jumps sz sz argv ∧ run (handleMem lay) (pushStack S.dir sz argv) w = .error (.panic .null)) := by
  have hrun :=
    does_alone
      (push_stack_laid (A := ⟨fun msg => msg = .null ∧ Jumps sz sz argv,fun _ => True⟩) hs hk hst hargc hargs
    fun hjump => ⟨rfl,hjump⟩) ho fun _ _ _ => trivial
  rw [wp] at hrun
  cases hr : run (handleMem lay) (pushStack S.dir sz argv) w with
  | ok x =>
    rw [hr] at hrun
    obtain ⟨h',L',⟨hno,-⟩,-⟩ := hrun
    exact .inl ⟨hno,x.1,x.2,rfl⟩
  | error e =>
    rw [hr] at hrun
    obtain ⟨msg,rfl,rfl,hjump⟩ := hrun
    exact .inr ⟨hjump,rfl⟩

/-- In a new image of any size, the copies of the arguments all find a page table unless a
string jumps. -/
theorem copyout_table_iff (ho : Owns lay w h L) (hs : Sound lay h S) (hk : Kernel lay S) (hst : Stacked S sz)
    (hargc : argv.length ≤ 31) (hargs : ∀ arg ∈ argv, arg.length < KERNBASE) :
    run (handleMem lay) (pushStack S.dir sz argv) w ≠ .error (.panic .null) ↔ ¬Jumps sz sz argv := by
  rcases push_stack_ends ho hs hk hst (Nat.lt_succ_of_le hargc) hargs with ⟨hno,r,w',hr⟩ | ⟨hjump,hr⟩
  · rw [hr]
    exact ⟨fun _ => hno,fun _ => nofun⟩
  · rw [hr]
    exact ⟨fun hne => absurd rfl hne,fun hno => absurd hjump hno⟩

end Null

attribute [local irreducible] wp

/-- The stack of an image with two pages. -/
theorem image_stacked : ∃ (w : World 1) (h : PageHeap) (S : Space) (L : List ℕ),
    Owns layout w h L ∧ Sound layout h S ∧
    Kernel layout S ∧ Stacked S 16384 := by
  obtain ⟨mem,r,k,h,S,L,hb⟩ := two_pages
  have ho : Owns layout (alone mem r k S.dir 8192 noFiles) h L := hb.owns _ rfl rfl
  have hspec :=
    does_alone (alloc_stack_spec (A := ⟨fun _ => False,Denied _ h L⟩) hb.sound hb.kernel hb.exact
      (by decide)) ho
    fun _ _ => id
  obtain ⟨r,w',-,h',L',⟨S',hs,-,-,hk,hst,hfail⟩,ho',-⟩ :=
    wp_result (wp_mono hspec (fun _ _ => id) fun e ⟨_,_,h0⟩ => h0)
  by_cases hr : r = 0
  · rcases hfail hr with hbig | hscarce
    · exact absurd hbig (by decide)
    · have hleft := hb.left
      refine absurd (scarce_short ho hscarce fun _ => id) (not_short (fun _ => rfl) ?_)
      simp only [room, PGROUNDUP, PGSIZE, WORD] at hleft ⊢
      omega
  · obtain ⟨hst,hadd⟩ := hst hr
    obtain rfl : r = 16384 := hadd.size
    exact ⟨w',h',S',L',ho',hs,hk,hst⟩

/-- The argument is a string of two bytes. -/
theorem copyout_table_hi : ∃ (w : World 1) (S : Space), Stacked S 16384 ∧
    run (handleMem layout) (pushStack S.dir 16384 [[104,105]]) w ≠ .error (.panic .null) := by
  obtain ⟨w,h,S,L,ho,hs,hk,hst⟩ := image_stacked
  exact ⟨w,S,hst,(copyout_table_iff ho hs hk hst (by decide) (by decide)).mpr (by decide)⟩

/-- The argument is a string of some 34 MB. -/
theorem copyout_table_missing :
    ∃ (w : World 1) (h : PageHeap) (S : Space) (L : List ℕ), Owns layout w h L ∧ Sound layout h S ∧
    Kernel layout S ∧ Stacked S 16384 ∧
      run (handleMem layout) (pushStack S.dir 16384 [List.replicate 33999999 1]) w =
      .error (.panic .null) := by
  obtain ⟨w,h,S,L,ho,hs,hk,hst⟩ := image_stacked
  have hlen : (List.replicate 33999999 (1 : UInt8)).length = 33999999 := List.length_replicate
  generalize List.replicate 33999999 (1 : UInt8) = arg at hlen ⊢
  have hargs : ∀ a ∈ [arg], a.length < KERNBASE := fun a ha => by
    rw [List.mem_singleton.mp ha, hlen]
    decide
  rcases push_stack_ends ho hs hk hst
    (Nat.lt_of_lt_of_le Nat.one_lt_two (by decide)) hargs with ⟨hno,-⟩ | ⟨-,hr⟩
  · rw [Jumps, hlen, if_neg (by decide)] at hno
    exact absurd (by decide) hno
  · exact ⟨w,h,S,L,ho,hs,hk,hst,hr⟩

end Xv6.VmArgs

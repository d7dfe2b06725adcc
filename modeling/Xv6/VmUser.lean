import Xv6.VmImages
import Xv6.VmAlone

/-!
# What a user reads

The bytes that a user address stands for, by the words of the page tables in memory. `sbrk`
changes the size by what it is asked for, except where that is below nothing; `copyuvm`
makes a space that reads the same and shares no page with the old one.
-/

set_option autoImplicit false

namespace Xv6.VmUser
open CommandTree HeapRegions ByteFields VmCode VmHeap VmSpaces VmMapping VmImages
open VmAlone
open Function

def readByte (mem : ℕ → Words) (pgdir va : ℕ) : UInt8 := toBytes (mem (pageAt mem pgdir va)) (va%PGSIZE)

section Reading
variable {lay : Layout} {mem : ℕ → Words} {h : PageHeap} {S : Space} {va : ℕ}

theorem addr_down (hva : va < WORD) : addr (PDX va) (PTX va) = PGROUNDDOWN va := by
  simp only [addr, PDX, PTX, PGROUNDDOWN, PGSIZE, NPDENTRIES, WORD] at hva ⊢
  omega

theorem pteAt_space (hmem : ∀ {v f}, h v = some f → mem v = f) (hs : Sound lay h S) :
    pteAt mem S.dir va = S.pte (PDX va) (PTX va) := by
  have hdir := hmem hs.dir
  rw [pteAt, hdir]
  cases htab : S.tab (PDX va) with
  | none => rw [if_neg (by rw [pde_none htab]; exact Bool.false_ne_true), hs.absent htab]
  | some t =>
    obtain ⟨hp,ht⟩ := pde_some hs htab
    rw [if_pos hp, ht, hmem (hs.table htab)]

theorem pageAt_space (hmem : ∀ {v f}, h v = some f → mem v = f) (hs : Sound lay h S) :
    pageAt mem S.dir va = frame (S.pte (PDX va) (PTX va)) := by
  rw [pageAt, pteAt_space hmem hs, frame_eq]

theorem words_space (hmem : ∀ {v f}, h v = some f → mem v = f) (hs : Sound lay h S) (hva : va < KERNBASE)
    (hp : has (S.pte (PDX va) (PTX va)) PTE_P = true) :
    mem (pageAt mem S.dir va) = S.data (PDX va) (PTX va) := by
  rw [pageAt_space hmem hs]
  exact hmem (hs.user (pdx_user hva) hp)

theorem write_outside {v : ℕ} {f : Words} (hmem : ∀ {v f}, h v = some f → mem v = f) (hs : Sound lay h S)
    (hv : ¬S.In v) :
    pteAt (update mem v f) S.dir va = pteAt mem S.dir va ∧
      (va < KERNBASE → has (S.pte (PDX va) (PTX va)) PTE_P = true →
        readByte (update mem v f) S.dir va = readByte mem S.dir va) := by
  have hs' := sound_drop hs hv
  have hmem' : ∀ {u g}, update h v none u = some g → update mem v f u = g := fun {u g} hu => by
    have hne : u ≠ v := by
      rintro rfl
      rw [update_self] at hu
      cases hu
    rw [update_of_ne hne] at hu ⊢
    exact hmem hu
  refine ⟨by rw [pteAt_space hmem hs, pteAt_space hmem' hs'],fun hva hp => ?_⟩
  rw [readByte, readByte, words_space hmem' hs' hva hp, words_space hmem hs hva hp]

end Reading

section Process
variable {n : ℕ} {lay : Layout} {A : Terms} {α β : Type} {p : Fin n} {m : MemProg α} {w w' : World n}
  {Q : α → PageHeap → Prop} {h : PageHeap} {L : List ℕ}

theorem run_lift : run (handle lay p) (lift m) w = run (handleMem lay) m w := by
  induction m generalizing w with
  | ret a => rfl
  | call c next ih =>
    show (handleMem lay c w).bind (fun r => run (handle lay p) (lift (next r.1)) r.2) =
      (handleMem lay c w).bind (fun r => run (handleMem lay) (next r.1) r.2)
    cases handleMem lay c w with
    | error e => rfl
    | ok r => exact ih r.1

theorem lift_pure {a : α} {f : α → Prog n β} : lift (pure a : MemProg α) >>= f = f a := rfl

theorem lift_alone (p : Fin n) (hm : Does lay A m Q h) (ho : Owns lay w h L)
    (hA : ∀ g, Denied w h L g → A.fail g) :
    wp (handle lay p) (lift m) (fun a w' => ∃ h' L', Q a h' ∧ Owns lay w' h' L' ∧ Alone w h L w' h' L')
      (fun e => ∃ msg, e = .panic msg ∧ A.panic msg) w := by
  have hrun := does_alone hm ho fun g _ => hA g
  rw [wp, ← run_lift (p := p)] at hrun
  exact hrun

variable {R : β → World n → Prop} {E : Stop → Prop}

theorem wp_lift {F : PageHeap → Prop} {f : α → Prog n β} (hm : Does lay ⟨fun _ => False,F⟩ m Q h)
    (ho : Owns lay w h L) (hF : ∀ g, Denied w h L g → F g)
    (hf : ∀ a w' h' L', Q a h' → Owns lay w' h' L' → Alone w h L w' h' L' → wp (handle lay p) (f a) R E w') :
    wp (handle lay p) (lift m >>= f) R E w := by
  refine wp_seq (lift_alone p hm ho hF) ?_ ?_
  · rintro e ⟨msg,-,h0⟩
    exact h0.elim
  · rintro a w' ⟨h',L',hQ,ho',ha'⟩
    exact hf a w' h' L' hQ ho' ha'

theorem wp_command {c : Cmd n} {r : Reply c} {t : World n} {f : Reply c → Prog n β}
    (hc : handle lay p c w = .ok (r,t)) (hf : wp (handle lay p) (f r) R E t) :
    wp (handle lay p) (command c >>= f) R E w := by
  refine wp_bind.mpr (wp_perform.mpr ?_)
  rw [hc]
  exact hf

/-- The process has an address space of its own, and no page of it is free. -/
structure Process (lay : Layout) (w : World n) (p : Fin n) (h : PageHeap) (S : Space) (L : List ℕ) :
    Prop where
  owns : Owns lay w h L
  sound : Sound lay h S
  kernel : Kernel lay S
  dir : S.dir = (w.proc p).body.pgdir
  stack : (w.proc p).body.kstack ≠ 0
  below : Below S (w.proc p).body.sz
  size : (w.proc p).body.sz < KERNBASE

theorem alone_proc {h' : PageHeap} {L' : List ℕ} (ha : Alone w h L w' h' L') : w'.proc = w.proc := by
  rw [ha.same]

theorem switchuvm_spec {f : Unit → Prog n β}
    (hstack : (w.proc p).body.kstack ≠ 0) (hdir : (w.proc p).body.pgdir ≠ 0)
    (hf : wp (handle lay p) (f ()) R E w) :
    wp (handle lay p) (switchuvm >>= f) R E w := by
  refine wp_bind.mpr (wp_command (c := .me) rfl (wp_command (c := .proc p) rfl ?_))
  rw [if_neg hstack, if_neg hdir]
  exact hf

end Process

section Machine

def layout : Layout where
  data := 2148536320
  stop := 2151677952
  data_page := by decide
  data_low := by decide
  data_stop := by decide
  stop_high := by decide

def pg (k : ℕ) : ℕ := 2151677952+4096*k

/-- A file with one segment of two bytes, the rest of it zeros. -/
def elf (memsz : ℕ) : List UInt8 :=
  bytes 4 ELF_MAGIC++List.replicate 24 0++bytes 4 52++List.replicate 12 0++bytes 2 1++List.replicate 6 0++
    bytes 4 ELF_PROG_LOAD++bytes 4 84++List.replicate 8 0++bytes 4 2++bytes 4 memsz++List.replicate 8
      0++[0xEB,0xFE]

def readElf (memsz : ℕ) : Readi := fun off k => ((elf memsz).drop off).take k

/-- The free list, the kernel stack and the memory of one process, and no other page. -/
structure Booted (mem : ℕ → Words) (r k : ℕ) (h : PageHeap) (S : Space) (L : List ℕ) (sz : ℕ) : Prop where
  owns : ∀ {n} (w : World n), w.mem = mem → w.freelist = r → Owns layout w h L
  sound : Sound layout h S
  kernel : Kernel layout S
  exact : Exact S sz
  stack : k ≠ 0 ∧ h k ≠ none ∧ ¬S.In k
  whole : ∀ {v}, h v ≠ none → S.In v ∨ v = k
  left : 50000 ≤ L.length+room sz

theorem pg_page {k : ℕ} (hk : k < 56320) : Page layout (pg k) := by
  simp only [Page, pg, layout, PGSIZE, KERNBASE, PHYSTOP]
  omega

theorem pages_length {L : List ℕ} (hL : ∀ k < 50001, pg k ∈ L) : 50001 ≤ L.length := by
  generalize 50001 = m at *
  have hn : ((List.range m).map pg).Nodup :=
    (List.nodup_map_iff fun k l hkl => by simp only [pg] at hkl; omega).mpr List.nodup_range
  have hsub : (List.range m).map pg ⊆ L := fun v hv => by
    obtain ⟨k,hk,rfl⟩ := List.mem_map.mp hv
    exact hL k (List.mem_range.mp hk)
  have hle := (hn.subperm hsub).length_le
  rwa [List.length_map, List.length_range] at hle

/-- A kernel stack is taken after `kinit1` and `kinit2`. -/
theorem free_pages : ∃ (w : World 0) (k : ℕ) (f : Words) (L : List ℕ),
    (∀ i, w.fails i = false) ∧ 50000 ≤ L.length ∧
    k ≠ 0 ∧ k ∉ L ∧ Owns layout w (update (fun _ => none) k (some f)) L := by
  obtain ⟨w1,L1,-,ho1,hmem1,hrest⟩ := kinit_frees layout
    (⟨fun _ _ => 0,0,fun _ => false,0,Fin.elim0,
    ⟨0,fun _ => none,fun _ _ _ => [],fun _ => 0,fun _ => false⟩⟩ : World 0)
  obtain ⟨w,L,-,ho,hmem⟩ := hrest w1 L1 ho1 (List.Subset.refl L1)
  have hall : ∀ v, Page layout v → v ∈ L := fun v hv => by
    rw [hmem, hmem1]
    exact (Nat.lt_or_ge v (P2V 4194304)).imp (fun hlt => ⟨hv,hlt⟩) fun hge => ⟨hv,hge⟩
  have hlen := pages_length fun k hk => hall (pg k) (pg_page (by omega))
  have hne : w.freelist ≠ 0 := fun h0 => by
    have hc := ho.chain
    cases L with
    | nil => exact absurd hlen (by decide)
    | cons u L => exact hc.2.1 (hc.1.symm.trans h0)
  obtain ⟨-,-,L',h1⟩ := owns_kalloc ho hne
  have ho' := (h1 0).1
  have hk : w.freelist ∉ L' := fun hin => by
    have := (ho'.free hin).2
    rw [update_self] at this
    cases this
  have hle := (ho.nodup.subperm fun v hv => List.mem_cons.mpr (?_ : v = w.freelist ∨ v ∈ L')).length_le
  · rw [List.length_cons] at hle
    exact ⟨{ w with freelist := w.mem w.freelist link, fails := fun _ => false },_,_,L',fun _ => rfl,by omega,
      hne,hk,owns_congr ho' rfl rfl⟩
  · refine ((((h1 0).2.pages v).mpr (.inr hv)).imp_left fun h0 => ?_)
    by_contra hvk
    exact h0 (update_of_ne hvk _ _)

-- else Lean runs the programs to see what kind of statement a `wp` is
attribute [local irreducible] wp

/-- Beside the kernel stack the segments of a file are loaded. -/
theorem booted {sz : ℕ} (hsz : fileSize (readElf sz) = some sz) (hroom : room sz < 50000) :
    ∃ mem r k h S L, Booted mem r k h S L sz := by
  obtain ⟨w,k,f,L,hfails,hlen,hk0,hk,ho⟩ := free_pages
  have hstack : update (fun _ => none) k (some f) k ≠ none := by
    rw [update_self]
    exact Option.some_ne_none f
  have hnone : ∀ v, v ≠ k → update (fun _ => none) k (some f) v = none := fun v hv => update_of_ne hv _ _
  generalize update (fun _ => none) k (some f) = h0 at *
  have hload := load_image_spec (A := ⟨fun _ => False,Denied w h0 L⟩) (readElf sz) fun hv => (ho.stored hv).2
  obtain ⟨o,w',-,h',L',hload,ho',ha⟩ := wp_result (wp_mono (does_alone hload ho fun _ _ => id) (fun _ _ => id)
    fun e ⟨_,_,h0⟩ => h0)
  rcases hload with ⟨-,-,hscarce⟩ | ⟨S,sz',-,-,hsz',hs,hkernel,he,-,hmove⟩
  · exact absurd (scarce_short ho (hscarce sz hsz) fun _ => id) (not_short hfails (by omega))
  cases hsz.symm.trans hsz'
  obtain ⟨hsame,hout⟩ := moves_keep hmove hstack id
  have hwhole : ∀ {v}, h' v ≠ none → S.In v ∨ v = k := fun {v} hv => by
    by_cases hin : S.In v
    · exact .inl hin
    · rw [hmove.rest v id hin] at hv
      by_contra hne
      rw [not_or] at hne
      exact hv (hnone v hne.2)
  obtain ⟨l,hl,hmem⟩ := space_atMost (exact_below he)
  refine ⟨w'.mem,w'.freelist,k,h',S,L',fun _ hm hr => owns_congr ho' hm hr,hs,hkernel,he,
    ⟨hk0,by rw [hsame]; exact hstack,hout⟩,hwhole,?_⟩
  have hsub : L ⊆ l++L' := fun v hv => by
    rcases (ha.pages v).mpr (.inr hv) with hne | hin
    · exact List.mem_append_left _ (hmem v ((hwhole hne).resolve_right (ne_of_mem_of_not_mem hv hk)))
    · exact List.mem_append_right _ hin
  have hle := (ho.nodup.subperm hsub).length_le
  rw [List.length_append] at hle
  rw [room]
  omega

def alone (mem : ℕ → Words) (r k d sz : ℕ) (fs : Fs) : World 1 :=
  ⟨mem,r,fun _ => false,0,fun _ => ⟨.live,1,none,⟨k,d,sz,0,0,[]⟩⟩,fs⟩

abbrev noFiles : Fs := ⟨0,fun _ => none,fun _ _ _ => [],fun _ => 0,fun _ => false⟩

theorem booted_process {mem : ℕ → Words} {r k sz : ℕ} {h : PageHeap} {S : Space} {L : List ℕ}
    (hb : Booted mem r k h S L sz)
    (hsz : sz < KERNBASE) (fs : Fs) : Process layout (alone mem r k S.dir sz fs) ⟨0,Nat.one_pos⟩ h S L :=
  ⟨hb.owns _ rfl rfl,hb.sound,hb.kernel,rfl,hb.stack.1,exact_below hb.exact,hsz⟩

theorem two_pages : ∃ mem r k h S L, Booted mem r k h S L 8192 := booted (by decide +kernel) (by decide)

end Machine

section Sbrk
variable {n : ℕ} {lay : Layout} {p : Fin n} {w w' : World n} {h h' : PageHeap} {S S' : Space} {L L' : List ℕ}
  {m : BitVec 32} {sz : ℕ}

/-- The process has the size that was asked for. The pages below both sizes are the same, and
the new ones are empty. -/
structure Resized (w w' : World n) (p : Fin n) (m : BitVec 32) : Prop where
  size : ((w'.proc p).body.sz : ℤ) = (w.proc p).body.sz+m.toInt
  fits : (w'.proc p).body.sz < KERNBASE
  kept : ∀ va, va < min (w.proc p).body.sz (w'.proc p).body.sz →
    pteAt w'.mem (w'.proc p).body.pgdir va = pteAt w.mem (w.proc p).body.pgdir va ∧
      (has (pteAt w.mem (w.proc p).body.pgdir va) PTE_P = true →
        w'.mem (pageAt w'.mem (w'.proc p).body.pgdir va) = w.mem (pageAt w.mem (w.proc p).body.pgdir va))
  zero : ∀ va, va < KERNBASE → has (pteAt w.mem (w.proc p).body.pgdir va) PTE_P = false →
    has (pteAt w'.mem (w'.proc p).body.pgdir va) PTE_P = true →
    w'.mem (pageAt w'.mem (w'.proc p).body.pgdir va) = fun _ => 0

def World.sized (w : World n) (p : Fin n) (sz : ℕ) : World n := w.setBody p { (w.proc p).body with sz := sz }

theorem sized_body (w : World n) (p : Fin n) (sz : ℕ) :
    ((World.sized w p sz).proc p).body = { (w.proc p).body with sz := sz } := by
  simp only [World.sized, World.setBody, World.setProc, update_self]

theorem resized_of_spaces (hp : Process lay w p h S L) (ho : Owns lay w' h' L') (hproc : w'.proc = w.proc)
    (hs : Sound lay h' S') (hdir : S'.dir = S.dir) (hsize : (sz : ℤ) = (w.proc p).body.sz+m.toInt)
    (hfits : sz < KERNBASE)
    (hkept : ∀ i j, addr i j < min (w.proc p).body.sz sz → S'.pte i j = S.pte i j ∧ S'.data i j = S.data i j)
    (hzero : ∀ i j, i.val < 512 → has (S.pte i j) PTE_P = false → has (S'.pte i j) PTE_P = true →
      S'.data i j = fun _ => 0) :
    Resized w (World.sized w' p sz) p m := by
  have hmem : ∀ {v f}, h v = some f → w.mem v = f := fun hv => (hp.owns.stored hv).1
  have hmem' : ∀ {v f}, h' v = some f → w'.mem v = f := fun hv => (ho.stored hv).1
  have hbody := sized_body w' p sz
  have hpgdir : ((World.sized w' p sz).proc p).body.pgdir = S'.dir := by
    rw [hbody, hproc, hdir, hp.dir]
  have hold : pteAt w.mem (w.proc p).body.pgdir = pteAt w.mem S.dir ∧
      pageAt w.mem (w.proc p).body.pgdir = pageAt w.mem S.dir := by
    rw [hp.dir]
    exact ⟨rfl,rfl⟩
  refine ⟨by rw [hbody]; exact hsize,by rw [hbody]; exact hfits,fun va hva => ?_,fun va hva hno hyes => ?_⟩
  · rw [hbody] at hva
    rw [hpgdir, hold.1, hold.2]
    have hlt : va < KERNBASE :=
      Nat.lt_of_lt_of_le hva (Nat.le_trans (Nat.min_le_left _ _) (Nat.le_of_lt hp.size))
    have hdown : addr (PDX va) (PTX va) ≤ va := by
      rw [addr_down (Nat.lt_trans hlt (by decide))]
      simp only [PGROUNDDOWN, PGSIZE]
      omega
    obtain ⟨hpte,hdata⟩ := hkept (PDX va) (PTX va) (Nat.lt_of_le_of_lt hdown hva)
    show pteAt w'.mem S'.dir va = pteAt w.mem S.dir va ∧ (has (pteAt w.mem S.dir va) PTE_P = true →
      w'.mem (pageAt w'.mem S'.dir va) = w.mem (pageAt w.mem S.dir va))
    rw [pteAt_space hmem hp.sound, pteAt_space hmem' hs]
    refine ⟨hpte,fun hpres => ?_⟩
    rw [words_space hmem hp.sound hlt hpres, words_space hmem' hs hlt (by rw [hpte]; exact hpres), hdata]
  · rw [hpgdir] at hyes ⊢
    rw [hold.1, pteAt_space hmem hp.sound] at hno
    have hyes' : has (S'.pte (PDX va) (PTX va)) PTE_P = true := by
      rw [← pteAt_space hmem' hs]
      exact hyes
    show w'.mem (pageAt w'.mem S'.dir va) = fun _ => 0
    rw [words_space hmem' hs hva hyes']
    exact hzero _ _ (pdx_user hva) hno hyes'

theorem sized_spec {R : ℤ → World n → Prop} {E : Stop → Prop} (hp : Process lay w p h S L)
    (hproc : w'.proc = w.proc)
    (hR : R 0 (World.sized w' p sz)) :
    wp (handle lay p) (setSz p sz >>= fun _ => switchuvm >>= fun _ => pure 0) R E w' := by
  refine wp_command rfl (switchuvm_spec (w := World.sized w' p sz) ?_ ?_ hR)
  · rw [sized_body, hproc]
    exact hp.stack
  · rw [sized_body, hproc]
    have hpos := page_pos (hp.sound.valid hp.sound.dir)
    rw [hp.dir] at hpos
    show (w.proc p).body.pgdir ≠ 0
    omega

theorem signed (m : BitVec 32) :
    m.toInt = if m.toNat < 2147483648 then (m.toNat : ℤ) else (m.toNat : ℤ)-4294967296 := by
  rw [BitVec.toInt_eq_toNat_cond]
  split <;> split <;> omega

/-- What `growproc` returns. Below nothing it does nothing, and says that it did. -/
def Grew (w w' : World n) (p : Fin n) (m : BitVec 32) (g : ℤ) : Prop :=
  (g = -1 ∧ (0 ≤ ((w.proc p).body.sz : ℤ)+m.toInt ∨ (w.proc p).body.sz = 0)) ∨
  (g = 0 ∧ 0 ≤ ((w.proc p).body.sz : ℤ)+m.toInt ∧ Resized w w' p m) ∨
  (g = 0 ∧ (((w.proc p).body.sz : ℤ)+m.toInt < 0 ∧ (w.proc p).body.sz ≠ 0) ∧
  (w'.proc p).body.sz = (w.proc p).body.sz)

theorem growproc_spec (hp : Process lay w p h S L) (m : BitVec 32) :
    wp (handle lay p) (growproc m) (fun g w' => Grew w w' p m g ∧ (g = -1 → 0 < m.toInt →
      KERNBASE ≤ (w.proc p).body.sz+m.toNat ∨ Short w L (room ((w.proc p).body.sz+m.toNat))))
        (fun _ => False) w := by
  have hsz := hp.size
  have hm := m.isLt
  have hsign := signed m
  refine wp_command (c := .me) rfl (wp_command (c := .proc p) rfl ?_)
  rw [← hp.dir]
  by_cases hpos : 0 < m.toInt
  · have hnat : (m.toNat : ℤ) = m.toInt := by
      rw [hsign]
      split <;> [rfl; (rw [hsign] at hpos; split at hpos <;> omega)]
    have hsum : ((w.proc p).body.sz+m.toNat)%WORD = (w.proc p).body.sz+m.toNat := by
      simp only [KERNBASE, WORD] at hsz ⊢
      rw [hsign] at hnat
      split at hnat <;> omega
    rw [if_pos hpos, hsum]
    refine wp_lift (alloc_spec hp.sound (Nat.le_of_lt hsz) hp.below) hp.owns (fun _ => id) ?_
    rintro r w1 h1 L1 ⟨S1,hs1,-,ha,hfail⟩ ho1 halone
    have hproc := alone_proc halone
    by_cases hr : r = 0
    · rw [if_pos hr]
      refine ⟨.inl ⟨rfl,.inl (by omega)⟩,fun _ _ => (hfail hr).imp id fun hs => ?_⟩
      exact scarce_short hp.owns (hs.resolve_left (by omega)) fun _ => id
    · rw [if_neg hr]
      rcases ha with ⟨-,hr' | ⟨-,hlt,-⟩⟩ | ⟨hg,rfl,hle,hfits⟩
      · exact absurd hr' hr
      · omega
      · refine sized_spec hp hproc ⟨.inr (.inl ⟨rfl,by omega,?_⟩),fun h0 => by cases h0⟩
        refine resized_of_spaces hp ho1 hproc hs1 hg.dir (by omega) hfits (fun i j hlt => ?_)
          fun i j hi hno hyes => ?_
        · exact hg.same i j (by omega)
        · by_cases hin : (w.proc p).body.sz ≤ addr i j ∧ addr i j < (w.proc p).body.sz+m.toNat
          · exact (hg.new i j hin.1 hin.2).2.2
          · rw [(hg.same i j hin).1, hno] at hyes
            cases hyes
  · rw [if_neg hpos]
    by_cases hneg : m.toInt < 0
    · have hnat : (m.toNat : ℤ) = m.toInt+4294967296 := by
        rw [hsign] at hneg ⊢
        split at hneg <;> [omega; (rename_i hbig; rw [if_neg hbig]; omega)]
      rw [if_pos hneg]
      by_cases hunder : ((w.proc p).body.sz : ℤ)+m.toInt < 0
      · have hsum : (w.proc p).body.sz ≤ ((w.proc p).body.sz+m.toNat)%WORD := by
          simp only [KERNBASE, WORD] at hsz ⊢
          omega
        rw [deallocuvm, if_pos hsum, lift_pure]
        by_cases h0 : (w.proc p).body.sz = 0
        · rw [if_pos h0]
          exact ⟨.inl ⟨rfl,.inr h0⟩,fun _ h1 => absurd h1 hpos⟩
        · rw [if_neg h0]
          refine sized_spec hp rfl ⟨.inr (.inr ⟨rfl,⟨hunder,h0⟩,?_⟩),fun h0 => by cases h0⟩
          rw [sized_body]
      · have hsum : ((w.proc p).body.sz+m.toNat)%WORD < (w.proc p).body.sz ∧
            ((((w.proc p).body.sz+m.toNat)%WORD : ℕ) : ℤ) = (w.proc p).body.sz+m.toInt := by
          simp only [KERNBASE, WORD] at hsz ⊢
          omega
        refine wp_lift (dealloc_spec hp.sound (Nat.le_of_lt hsz) hsum.1) hp.owns (fun _ => id) ?_
        rintro r w1 h1 L1 ⟨rfl,S1,hs1,⟨hdir,-,hdata,hpte⟩,-⟩ ho1 halone
        have hproc := alone_proc halone
        by_cases hr : ((w.proc p).body.sz+m.toNat)%WORD = 0
        · rw [if_pos hr]
          exact ⟨.inl ⟨rfl,.inl (by omega)⟩,fun _ h1 => absurd h1 hpos⟩
        · rw [if_neg hr]
          refine sized_spec hp hproc ⟨.inr (.inl ⟨rfl,by omega,?_⟩),fun h0 => by cases h0⟩
          refine resized_of_spaces hp ho1 hproc hs1 hdir hsum.2 (Nat.lt_trans hsum.1 hsz) (fun i j hlt => ?_)
            fun i j hi hno hyes => ?_
          · rw [hpte, hdata, if_neg (by omega)]
            exact ⟨rfl,rfl⟩
          · rw [hpte] at hyes
            split at hyes
            · exact absurd hyes not_has_zero
            · rw [hno] at hyes
              cases hyes
    · have hzero : m.toInt = 0 := by omega
      rw [if_neg hneg]
      refine sized_spec hp rfl ⟨.inr (.inl ⟨rfl,by omega,?_⟩),fun h0 => by cases h0⟩
      refine resized_of_spaces hp hp.owns rfl hp.sound rfl (by omega) hsz
        (fun _ _ _ => ⟨rfl,rfl⟩) fun i j _ hno hyes => ?_
      rw [hno] at hyes
      cases hyes

theorem sbrk_spec (hp : Process lay w p h S L) (m : BitVec 32) : wp (handle lay p) (sysSbrk m)
    (fun r w' => (r = -1 ∧ (0 ≤ ((w.proc p).body.sz : ℤ)+m.toInt ∨ (w.proc p).body.sz = 0) ∧ (0 < m.toInt →
        KERNBASE ≤ (w.proc p).body.sz+m.toNat ∨ Short w L (room ((w.proc p).body.sz+m.toNat)))) ∨
      (r = (w.proc p).body.sz ∧ Grew w w' p m 0)) (fun _ => False) w := by
  refine wp_command (c := .me) rfl (wp_command (c := .proc p) rfl (wp_then (growproc_spec hp m) ?_))
  rintro g w' ⟨hg,hfail⟩
  rcases hg with ⟨rfl,hcond⟩ | ⟨rfl,hok⟩ | ⟨rfl,hok⟩
  · exact .inl ⟨rfl,hcond,hfail rfl⟩
  · exact .inr ⟨rfl,.inr (.inl ⟨rfl,hok⟩)⟩
  · exact .inr ⟨rfl,.inr (.inr ⟨rfl,hok⟩)⟩

/-- The call returns the old size for the size that was asked for, unless it would be below
nothing. -/
theorem sbrk_exact_iff (hp : Process lay w p h S L) (m : BitVec 32) :
    (∀ r w', run (handle lay p) (sysSbrk m) w = .ok (r,w') → r ≠ -1 →
      r = (w.proc p).body.sz ∧ Resized w w' p m) ↔
      (0 ≤ ((w.proc p).body.sz : ℤ)+m.toInt ∨ (w.proc p).body.sz = 0) := by
  obtain ⟨r,w',hrun,hout⟩ := wp_result (sbrk_spec hp m)
  constructor
  · intro hall
    rcases hout with ⟨-,hcond,-⟩ | ⟨rfl,⟨h0,-⟩ | ⟨-,hcond,-⟩ | ⟨-,⟨hunder,-⟩,hsame⟩⟩
    · exact hcond
    · cases h0
    · exact .inl hcond
    · obtain ⟨-,hres⟩ := hall _ w' hrun (by omega)
      have hsize := hres.size
      rw [hsame] at hsize
      omega
  · intro hcond r' w'' hrun' hr
    rw [hrun] at hrun'
    cases hrun'
    rcases hout with ⟨rfl,-⟩ | ⟨rfl,⟨h0,-⟩ | ⟨-,-,hres⟩ | ⟨-,⟨hunder,hne⟩,-⟩⟩
    · exact absurd rfl hr
    · cases h0
    · exact ⟨rfl,hres⟩
    · omega

attribute [local irreducible] wp

/-- One more page for a process with two. -/
theorem sbrk_exact_page : ∃ (w w' : World 1) (h : PageHeap) (S : Space) (L : List ℕ),
    Process layout w ⟨0,Nat.one_pos⟩ h S L ∧ (w.proc ⟨0,Nat.one_pos⟩).body.sz = 8192 ∧
      run (handle layout ⟨0,Nat.one_pos⟩) (sysSbrk 4096#32) w = .ok (8192,w') ∧
      Resized w w' ⟨0,Nat.one_pos⟩ 4096#32 := by
  obtain ⟨mem,r,k,h,S,L,hb⟩ := two_pages
  have hp := booted_process hb (by decide) noFiles
  obtain ⟨r,w',hrun,hout⟩ := wp_result (sbrk_spec hp 4096#32)
  rcases hout with ⟨-,-,hfail⟩ | ⟨rfl,-⟩
  · rcases hfail (by decide) with hbig | hshort
    · exact absurd hbig (by decide : ¬KERNBASE ≤ 8192+4096)
    · have hleft := hb.left
      refine absurd hshort (not_short (fun _ => rfl) (show room (8192+4096) < L.length from ?_))
      simp only [room, PGSIZE] at hleft ⊢
      omega
  · have hall := (sbrk_exact_iff hp 4096#32).mpr (.inl (by decide : (0 : ℤ) ≤ 8192+(4096#32).toInt))
    exact ⟨_,w',h,S,L,hp,rfl,hrun,(hall _ w' hrun (by decide : (8192 : ℤ) ≠ -1)).2⟩

/-- Three pages less than two are as many as before. -/
theorem sbrk_below_nothing : ∃ (w w' : World 1) (h : PageHeap) (S : Space) (L : List ℕ),
    Process layout w ⟨0,Nat.one_pos⟩ h S L ∧ (w.proc ⟨0,Nat.one_pos⟩).body.sz = 8192 ∧
      run (handle layout ⟨0,Nat.one_pos⟩) (sysSbrk (-12288#32)) w = .ok (8192,w') ∧
      (w'.proc ⟨0,Nat.one_pos⟩).body.sz = 8192 ∧ ¬Resized w w' ⟨0,Nat.one_pos⟩ (-12288#32) := by
  obtain ⟨mem,r,k,h,S,L,hb⟩ := two_pages
  have hp := booted_process hb (by decide) noFiles
  obtain ⟨r,w',hrun,hout⟩ := wp_result (sbrk_spec hp (-12288#32))
  have hcond : ¬((0 : ℤ) ≤ 8192+(-12288#32).toInt ∨ 8192 = 0) := by decide
  rcases hout with ⟨-,h0,-⟩ | ⟨rfl,⟨h0,-⟩ | ⟨-,h0,-⟩ | ⟨-,-,hsame⟩⟩
  · exact absurd h0 hcond
  · cases h0
  · exact absurd (.inl h0) hcond
  · refine ⟨_,w',h,S,L,hp,rfl,hrun,hsame,fun hres => hcond (.inl ?_)⟩
    exact hres.size ▸ Int.natCast_nonneg _

end Sbrk

section Copies
variable {n : ℕ} {lay : Layout} {w w' : World n} {h h' : PageHeap} {P S : Space} {L L' : List ℕ} {sz d : ℕ}

/-- The space at `d` reads as the one of the parent did and shares no page with it, and what is
written to one is not seen by the other. -/
structure IsCopy (w w' : World n) (P : Space) (sz d : ℕ) : Prop where
  read : ∀ va, va < sz → readByte w'.mem d va = readByte w.mem P.dir va
  flags : ∀ va, va < sz → PTE_FLAGS (pteAt w'.mem d va) = PTE_FLAGS (pteAt w.mem P.dir va)
  distinct : ∀ va va', va < sz → va' < sz → pageAt w'.mem d va = pageAt w'.mem d va' → va/PGSIZE = va'/PGSIZE
  apart : ∀ va v, va < sz → P.In v → pageAt w'.mem d va ≠ v
  present : ∀ va < KERNBASE, has (pteAt w'.mem d va) PTE_P = true ↔ PGROUNDDOWN va < sz
  parent : ∀ v, P.In v → w'.mem v = w.mem v
  hidden : ∀ va va' f, va < sz → va' < sz →
    readByte (update w'.mem (pageAt w'.mem d va) f) P.dir va' = readByte w'.mem P.dir va'
  secret : ∀ va va' f, va < sz → va' < sz →
    readByte (update w'.mem (pageAt w'.mem P.dir va) f) d va' = readByte w'.mem d va'

theorem exact_present (he : Exact S sz) (hsz : sz ≤ KERNBASE) {va : ℕ} (hva : va < sz) :
    va < KERNBASE ∧ has (S.pte (PDX va) (PTX va)) PTE_P = true ∧ addr (PDX va) (PTX va) < sz := by
  have hlt : va < KERNBASE := by omega
  have hdown : addr (PDX va) (PTX va) < sz := by
    rw [addr_down (Nat.lt_trans hlt (by decide))]
    simp only [PGROUNDDOWN, PGSIZE]
    omega
  exact ⟨hlt,(he _ _ (pdx_user hlt)).mpr hdown,hdown⟩

theorem is_copy (ho : Owns lay w h L) (hP : Sound lay h P) (he : Exact P sz) (hsz : sz ≤ KERNBASE)
    (ho' : Owns lay w' h' L') (hs : Sound lay h' S) (heS : Exact S sz) (hc : Copied P S sz)
    (hmove : Moves h (fun _ => False) h' S.In) : IsCopy w w' P sz S.dir := by
  have hmem : ∀ {v f}, h v = some f → w.mem v = f := fun hv => (ho.stored hv).1
  have hmem' : ∀ {v f}, h' v = some f → w'.mem v = f := fun hv => (ho'.stored hv).1
  have hkeep : ∀ v, P.In v → h' v = h v ∧ ¬S.In v := fun v hv => by
    obtain ⟨f,hf⟩ := sound_in hP hv
    exact moves_keep hmove (by rw [hf]; exact Option.some_ne_none f) id
  have hP' := sound_frame hP hs.valid fun v hv => (hkeep v hv).1
  -- where the pages of the two spaces are
  have hchild : ∀ va, va < sz → S.At (pageAt w'.mem S.dir va) (.user (PDX va) (PTX va)) := fun va hva => by
    obtain ⟨hlt,hp,-⟩ := exact_present heS hsz hva
    exact ⟨pdx_user hlt,hp,pageAt_space hmem' hs⟩
  have hparent : ∀ va, va < sz → P.At (pageAt w'.mem P.dir va) (.user (PDX va) (PTX va)) := fun va hva => by
    obtain ⟨hlt,hp,-⟩ := exact_present he hsz hva
    exact ⟨pdx_user hlt,hp,pageAt_space hmem' hP'⟩
  refine ⟨fun va hva => ?_,fun va hva => ?_,fun va va' hva hva' heq => ?_,fun va v hva hv heq => ?_,
    fun va hva => ?_,
    fun v hv => ?_,fun va va' f hva hva' => ?_,fun va va' f hva hva' => ?_⟩
  · obtain ⟨hlt,hp,hdown⟩ := exact_present he hsz hva
    obtain ⟨-,hpS,-⟩ := exact_present heS hsz hva
    rw [readByte, readByte, words_space hmem' hs hlt hpS, words_space hmem hP hlt hp,
      hc.data _ _ (pdx_user hlt) hdown]
  · obtain ⟨hlt,-,hdown⟩ := exact_present he hsz hva
    rw [pteAt_space hmem' hs, pteAt_space hmem hP]
    exact hc.flags _ _ (pdx_user hlt) hdown
  · have hother : S.At (pageAt w'.mem S.dir va) (.user (PDX va') (PTX va')) := by
      rw [heq]
      exact hchild va' hva'
    have hplace := hs.once (hchild va hva) hother
    rw [Place.user.injEq] at hplace
    have hdown : addr (PDX va) (PTX va) = addr (PDX va') (PTX va') := by rw [hplace.1, hplace.2]
    rw [addr_down (by simp only [KERNBASE] at hsz; simp only [WORD]; omega),
      addr_down (by simp only [KERNBASE] at hsz; simp only [WORD]; omega)] at hdown
    simp only [PGROUNDDOWN, PGSIZE] at hdown ⊢
    omega
  · exact (hkeep v hv).2 ⟨_,heq ▸ hchild va hva⟩
  · rw [pteAt_space hmem' hs, heS _ _ (pdx_user hva), addr_down (Nat.lt_trans hva (by decide))]
  · obtain ⟨f,hf⟩ := sound_in hP hv
    rw [hmem hf, hmem' ((hkeep v hv).1.trans hf)]
  · obtain ⟨hlt,hp,-⟩ := exact_present he hsz hva'
    exact (write_outside hmem' hP' fun hin => (hkeep _ hin).2 ⟨_,hchild va hva⟩).2 hlt hp
  · obtain ⟨hlt,hp,-⟩ := exact_present heS hsz hva'
    exact (write_outside hmem' hs (hkeep _ ⟨_,hparent va hva⟩).2).2 hlt hp

/-- `copyuvm` makes a copy that is apart, or `kalloc` has failed and all that it took is free again. -/
theorem copyuvm_isolates (ho : Owns lay w h L) (hP : Sound lay h P) (he : Exact P sz) (hsz : sz ≤ KERNBASE) :
    ∃ d w', run (handleMem lay) (copyuvm lay P.dir sz) w = .ok (d,w') ∧ ((d ≠ 0 ∧ IsCopy w w' P sz d) ∨
      (d = 0 ∧ Refused lay (copyuvm lay P.dir sz) w ∧ (∀ v, P.In v → w'.mem v = w.mem v) ∧
        ∃ L', Chain w'.mem w'.freelist L' ∧ L'.Nodup ∧ ∀ v, v ∈ L' ↔ v ∈ L)) := by
  have hcopy := copy_spec (A := ⟨fun _ => False,fun _ => Refused lay (copyuvm lay P.dir sz) w⟩) hP hsz
    (.inl fun i j hi hlt => (he i j hi).mpr hlt)
  refine wp_result (wp_mono (does_alone hcopy ho fun _ hr _ => hr) ?_ fun e ⟨_,_,h0⟩ => h0)
  rintro d w' ⟨h',L',hd,ho',halone⟩
  rcases hd with ⟨rfl,rfl,_,_,hrefused,-⟩ | ⟨hd,S,rfl,hs,-,heS,hc,hmove⟩
  · refine .inr ⟨rfl,hrefused,fun v hv => ?_,L',ho'.chain,ho'.nodup,alone_free ho ho' halone⟩
    obtain ⟨f,hf⟩ := sound_in hP hv
    rw [(ho.stored hf).1, (ho'.stored hf).1]
  · exact .inl ⟨hd,is_copy ho hP he hsz ho' hs heS hc hmove⟩

end Copies

/-- The copy of two pages. -/
theorem copyuvm_isolates_two : ∃ (w w' : World 1) (P : Space) (d : ℕ),
    run (handleMem layout) (copyuvm layout P.dir 8192) w = .ok (d,w') ∧ d ≠ 0 ∧ IsCopy w w' P 8192 d := by
  obtain ⟨mem,r,k,h,P,L,hb⟩ := two_pages
  have ho : Owns layout (alone mem r k P.dir 8192 noFiles) h L := hb.owns _ rfl rfl
  obtain ⟨d,w',hrun,⟨hd,hcopy⟩ | ⟨rfl,-⟩⟩ := copyuvm_isolates ho hb.sound hb.exact (by decide)
  · exact ⟨_,w',P,d,hrun,hd,hcopy⟩
  · have hspec :=
      does_alone (copy_spec (A := ⟨fun _ => False,Denied _ h L⟩) hb.sound (by decide : 8192 ≤ KERNBASE)
      (.inl fun i j hi => (hb.exact i j hi).mpr)) ho fun _ _ => id
    rw [wp, hrun] at hspec
    obtain ⟨h',L',⟨-,-,hscarce⟩ | ⟨h0,-⟩,-⟩ := hspec
    · have hleft := hb.left
      refine absurd (scarce_short ho hscarce fun _ => id) (not_short (fun _ => rfl) ?_)
      simp only [room, PGSIZE] at hleft ⊢
      omega
    · exact absurd rfl h0

end Xv6.VmUser

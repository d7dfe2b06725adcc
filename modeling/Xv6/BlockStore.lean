import Xv6.BlockCode
import Mathlib.Data.Finset.Card
import Mathlib.Data.Finset.Range

/-!
# Owners of blocks

An inode points to blocks from the slots of `addrs` and from its indirect block. In a
sound store no block is pointed to twice, and each has its bit in the bitmap. `bmap`
puts fresh blocks into slots that were empty and changes no other pointer.
-/

set_option autoImplicit false

namespace Xv6.BlockStore
open CommandTree ByteFields BlockCode
open InodeCode (Blocks slots BSIZE MAXFILE WORD)
open Function

/-- The pointers of an inode: `addrs`, with the indirect block the last, and the entries
of the indirect block behind them. -/
abbrev SLOTS : ℕ := 141

def slotOf (bn : ℕ) : ℕ := if bn < NDIRECT then bn else bn+1

def dataStart (sb : Superblock) : ℕ := sb.bmapstart+sb.size/BPB+1

section Pointers
variable (s : Store) (i k b : ℕ)

def ptr : ℕ :=
  if k ≤ NDIRECT then (s.mem i).addrs k
  else if (s.mem i).addrs NDIRECT = 0 then 0
  else field 4 (s.blocks ((s.mem i).addrs NDIRECT)) (4*(k-NDIRECT-1))

def inUse : Bool := isSet (s.blocks (BBLOCK b s.sb)) (b%BPB)

def Live : Prop := i < s.sb.ninodes ∧ (s.mem i).type ≠ 0

end Pointers

structure Sound (s : Store) : Prop where
  small : s.sb.size ≤ WORD
  disk : dataStart s.sb ≤ s.sb.size
  inodes : ∀ i, i < s.sb.ninodes → IBLOCK i s.sb < s.sb.bmapstart
  metas : ∀ b, b < dataStart s.sb → inUse s b = true
  owned : ∀ {i k}, Live s i → k < SLOTS → ptr s i k ≠ 0 →
    dataStart s.sb ≤ ptr s i k ∧ ptr s i k < s.sb.size ∧ inUse s (ptr s i k) = true
  once : ∀ {i j k l}, Live s i → Live s j → k < SLOTS → l < SLOTS → ptr s i k ≠ 0 →
    ptr s i k = ptr s j l → i = j ∧ k = l

variable {s t u : Store} {i j k l b c : ℕ} {α : Type} {E : Panic → Prop}

section Commands
variable {Q : Unit → Store → Prop}

@[simp] theorem wp_superblock {Q : Superblock → Store → Prop} : wp exec superblock Q E s ↔ Q s.sb s := Iff.rfl

@[simp] theorem wp_inode {Q : Dinode → Store → Prop} : wp exec (inode i) Q E s ↔ Q (s.mem i) s := Iff.rfl

@[simp] theorem wp_load : wp exec (load i) Q E s ↔ Q () (s.setMem i (s.dinode i)) := Iff.rfl

@[simp] theorem wp_addr {Q : ℕ → Store → Prop} : wp exec (addr i k) Q E s ↔ Q ((s.mem i).addrs k) s := Iff.rfl

@[simp] theorem wp_set_addr {v : ℕ} : wp exec (setAddr i k v) Q E s ↔
    Q () (s.setMem i { s.mem i with addrs := update (s.mem i).addrs k v }) := Iff.rfl

@[simp] theorem wp_set_size {n : ℕ} :
    wp exec (setSize i n) Q E s ↔ Q () (s.setMem i { s.mem i with size := n }) := Iff.rfl

def updated (s : Store) (i : ℕ) : Store :=
  s.setBlock (IBLOCK i s.sb) (writeDinode (s.blocks (IBLOCK i s.sb)) (i%IPB) (s.mem i))

@[simp] theorem wp_iupdate : wp exec (iupdate i) Q E s ↔ Q () (updated s i) := Iff.rfl

@[simp] theorem wp_zero : wp exec (zero b) Q E s ↔ Q () (s.setBlock b (fun _ => 0)) := Iff.rfl

@[simp] theorem wp_read {Q : Block → Store → Prop} : wp exec (read b) Q E s ↔ Q (s.blocks b) s := Iff.rfl

@[simp] theorem wp_patch {o : ℕ} {xs : List UInt8} :
    wp exec (patch b o xs) Q E s ↔ Q () (s.setBlock b (paste (s.blocks b) o xs)) := Iff.rfl

variable {Q : Option ℕ → Store → Prop}

theorem wp_take_some
    (h : firstClear (s.blocks (BBLOCK b s.sb)) b s.sb.size = some c) : wp exec (takeBit b) Q E s ↔
      Q (some c) (s.setBlock (BBLOCK b s.sb) (setBit (s.blocks (BBLOCK b s.sb)) c)) := by
  refine (wp_perform (c := Cmd.takeBit b)).trans ?_
  rw [exec, h]
  exact Iff.rfl

theorem wp_take_none
    (h : firstClear (s.blocks (BBLOCK b s.sb)) b s.sb.size = none) :
    wp exec (takeBit b) Q E s ↔ Q none s := by
  refine (wp_perform (c := Cmd.takeBit b)).trans ?_
  rw [exec, h]
  exact Iff.rfl

end Commands

structure Typed (d : Dinode) : Prop where
  type : d.type < 256^2
  major : d.major < 256^2
  minor : d.minor < 256^2
  nlink : d.nlink < 256^2
  size : d.size < 256^4
  addrs : ∀ k, k ≤ NDIRECT → d.addrs k < 256^4
  rest : ∀ k, NDIRECT < k → d.addrs k = 0

theorem read_typed (f : Block) (slot : ℕ) : Typed (readDinode f slot) := by
  refine ⟨field_lt _ _ _,field_lt _ _ _,field_lt _ _ _,field_lt _ _ _,field_lt _ _ _,fun k hk => ?_,
    fun k hk => ?_⟩
  · simp only [readDinode, if_pos hk]
    exact field_lt _ _ _
  · simp only [readDinode, if_neg (Nat.not_le_of_lt hk)]

variable {lim : ℕ} {f : Block} {d : Dinode}

theorem write_dinode_field {slot r n v : ℕ} (hr : r+n ≤ DINODE)
    (hbyte : ∀ j, j < n → d.byteAt (r+j) = byte v j) (hv : v < 256^n) :
    field n (writeDinode f slot d) (DINODE*slot+r) = v := by
  rw [field_of_bytes (v := v) (fun j hj => ?_), Nat.mod_eq_of_lt hv]
  rw [writeDinode, if_pos (by omega), ← hbyte j hj]
  congr 1
  omega

theorem read_write_dinode {slot : ℕ} (h : Typed d) :
    readDinode (writeDinode f slot d) slot = d := by
  have hstart : ∀ v, (∀ j, j < 2 → d.byteAt (0+j) = byte v j) → v < 256^2 →
      field 2 (writeDinode f slot d) (DINODE*slot) = v := fun v h1 h2 => write_dinode_field (by decide) h1 h2
  have htype := hstart _ (fun j hj => by rw [Dinode.byteAt, if_pos (by omega), Nat.zero_add]) h.type
  have hmajor : field 2 (writeDinode f slot d) (DINODE*slot+2) = d.major := by
    refine write_dinode_field (by decide) (fun j hj => ?_) h.major
    rw [Dinode.byteAt, if_neg (by omega), if_pos (by omega), Nat.add_sub_cancel_left]
  have hminor : field 2 (writeDinode f slot d) (DINODE*slot+4) = d.minor := by
    refine write_dinode_field (by decide) (fun j hj => ?_) h.minor
    rw [Dinode.byteAt, if_neg (by omega), if_neg (by omega), if_pos (by omega), Nat.add_sub_cancel_left]
  have hnlink : field 2 (writeDinode f slot d) (DINODE*slot+6) = d.nlink := by
    refine write_dinode_field (by decide) (fun j hj => ?_) h.nlink
    rw [Dinode.byteAt, if_neg (by omega), if_neg (by omega), if_neg (by omega), if_pos (by omega),
      Nat.add_sub_cancel_left]
  have hsize : field 4 (writeDinode f slot d) (DINODE*slot+8) = d.size := by
    refine write_dinode_field (by decide) (fun j hj => ?_) h.size
    rw [Dinode.byteAt, if_neg (by omega), if_neg (by omega), if_neg (by omega), if_neg (by omega),
      if_pos (by omega), Nat.add_sub_cancel_left]
  have haddrs : (fun k => if k ≤ NDIRECT then field 4 (writeDinode f slot d) (DINODE*slot+12+4*k) else 0) =
      d.addrs := by
    funext k
    split_ifs with hk
    · rw [Nat.add_assoc]
      have hk' : k ≤ 12 := hk
      refine write_dinode_field (by simp only [DINODE]; omega) (fun j hj => ?_) (h.addrs k hk)
      have h1 : (12+4*k+j-12)/4 = k := by omega
      have h2 : (12+4*k+j-12)%4 = j := by omega
      rw [Dinode.byteAt, if_neg (by omega), if_neg (by omega), if_neg (by omega), if_neg (by omega),
        if_neg (by omega), h1, h2]
    · exact (h.rest k (Nat.lt_of_not_le hk)).symm
  rw [readDinode, htype, hmajor, hminor, hnlink, hsize, haddrs]

theorem read_dinode_congr {f g : Block} {slot slot' : ℕ}
    (h : ∀ r, r < DINODE → f (DINODE*slot+r) = g (DINODE*slot'+r)) :
    readDinode f slot = readDinode g slot' := by
  have hfield : ∀ r n, r+n ≤ DINODE → field n f (DINODE*slot+r) = field n g (DINODE*slot'+r) := fun r n hr =>
    field_congr fun j hj => by rw [Nat.add_assoc, Nat.add_assoc, h (r+j) (by omega)]
  have haddrs : (fun k => if k ≤ NDIRECT then field 4 f (DINODE*slot+12+4*k) else 0) =
      fun k => if k ≤ NDIRECT then field 4 g (DINODE*slot'+12+4*k) else 0 := by
    funext k
    split_ifs with hk
    · have hk' : k ≤ 12 := hk
      rw [Nat.add_assoc, Nat.add_assoc, hfield _ 4 (by simp only [DINODE]; omega)]
    · rfl
  have htype : field 2 f (DINODE*slot) = field 2 g (DINODE*slot') := hfield 0 2 (by decide)
  simp only [readDinode]
  rw [htype, hfield 2 2 (by decide), hfield 4 2 (by decide), hfield 6 2 (by decide),
    hfield 8 4 (by decide), haddrs]

theorem read_write_other {slot slot' : ℕ} (h : slot' ≠ slot) :
    readDinode (writeDinode f slot d) slot' = readDinode f slot' :=
  read_dinode_congr fun r hr => by
    rw [writeDinode, if_neg]
    simp only [DINODE] at hr ⊢
    omega

theorem updated_dinode (h : Typed (s.mem i)) : (updated s i).dinode i = s.mem i := by
  simp only [Store.dinode, updated, Store.setBlock, update_self]
  exact read_write_dinode h

theorem updated_other (hj : j ≠ i) : (updated s i).dinode j = s.dinode j := by
  simp only [Store.dinode, updated, Store.setBlock]
  by_cases hblock : IBLOCK j s.sb = IBLOCK i s.sb
  · rw [hblock, update_self]
    refine read_write_other fun hslot => hj ?_
    simp only [IBLOCK, IPB] at hblock hslot
    omega
  · rw [update_of_ne hblock]

/-- What `balloc` does: the bit of a free block is set, and the block is all zeros. -/
structure Fresh (s t : Store) (b : ℕ) : Prop where
  sb : t.sb = s.sb
  mem : t.mem = s.mem
  here : b < s.sb.size
  free : inUse s b = false
  zero : t.blocks b = fun _ => 0
  other : ∀ c, c ≠ b → c < s.sb.bmapstart ∨ dataStart s.sb ≤ c → t.blocks c = s.blocks c
  bits : ∀ c, c < s.sb.size → inUse t c = (decide (c = b) || inUse s c)

theorem free_data (h : Sound s) (hb : inUse s b = false) : dataStart s.sb ≤ b := by
  by_contra hlow
  rw [h.metas b (Nat.lt_of_not_le hlow)] at hb
  cases hb

theorem data_pos (h : Sound s) (hb : inUse s b = false) : b ≠ 0 :=
  Nat.ne_of_gt (Nat.lt_of_lt_of_le (Nat.succ_pos _) (free_data h hb))

theorem bitmap_low (hb : b < s.sb.size) : BBLOCK b s.sb < dataStart s.sb := by
  have := Nat.div_le_div_right (c := BPB) (Nat.le_of_lt hb)
  simp only [BBLOCK, dataStart]
  omega

theorem take_fresh (h : Sound s) {q bi : ℕ} (hclear : inUse s (BPB*q+bi) = false) (hbi : bi < BPB)
    (hsize : BPB*q+bi < s.sb.size) :
    Fresh s ((s.setBlock (BBLOCK (BPB*q) s.sb) (setBit (s.blocks (BBLOCK (BPB*q) s.sb)) bi)).setBlock
      (BPB*q+bi) (fun _ => 0)) (BPB*q+bi) := by
  have hdata := free_data h hclear
  have hmap : BBLOCK (BPB*q) s.sb = q+s.sb.bmapstart := by
    simp only [BBLOCK, BPB]
    omega
  have hq : q+s.sb.bmapstart < dataStart s.sb := by
    have := bitmap_low hsize
    simp only [BBLOCK, BPB] at this hbi
    omega
  refine ⟨rfl,rfl,hsize,hclear,update_self _ _ _,fun c hc hplace => ?_,fun c hc => ?_⟩
  · have hne : c ≠ BBLOCK (BPB*q) s.sb := by omega
    simp only [Store.setBlock, update_of_ne hc, update_of_ne hne]
  · have hne : BBLOCK c s.sb ≠ BPB*q+bi := by
      have := bitmap_low hc
      omega
    simp only [inUse, Store.setBlock, update_of_ne hne]
    by_cases hsame : BBLOCK c s.sb = BBLOCK (BPB*q) s.sb
    · rw [hsame, update_self, isSet_setBit]
      congr 1
      rw [decide_eq_decide]
      rw [hmap] at hsame
      simp only [BBLOCK, BPB] at hsame hbi ⊢
      omega
    · rw [update_of_ne hsame, decide_eq_false (fun heq => hsame ?_), Bool.false_or]
      rw [heq, hmap]
      simp only [BBLOCK, BPB] at hbi ⊢
      omega

theorem first_clear_some {size bi : ℕ} (h : firstClear f b size = some bi) :
    bi < BPB ∧ b+bi < size ∧ isSet f bi = false ∧ ∀ c, c < bi → isSet f c = true := by
  obtain ⟨hclear,hmem,hlow⟩ := List.find?_range_eq_some.mp h
  rw [List.mem_range] at hmem
  exact ⟨by omega,by omega,by simpa using hclear,fun c hc => by simpa using hlow c hc⟩

theorem first_clear_none {size bi : ℕ} (h : firstClear f b size = none) (hbi : bi < BPB)
    (hsize : b+bi < size) : isSet f bi = true := by
  have := List.find?_eq_none.mp h bi (List.mem_range.mpr (by omega))
  simpa using this

theorem balloc_from_spec (h : Sound s) {n q : ℕ} (hfuel : s.sb.size/BPB+1 = n+q)
    (hlow : ∀ d, d < BPB*q → d < s.sb.size → inUse s d = true) :
    wp exec (ballocFrom s.sb.size n (BPB*q)) (fun b t => Fresh s t b ∧ ∀ c, c < b → inUse s c = true)
      (fun e => e = .ballocOutOfBlocks ∧ ∀ c, c < s.sb.size → inUse s c = true) s := by
  induction n generalizing q with
  | zero =>
    refine ⟨rfl,fun c hc => hlow c ?_ hc⟩
    simp only [BPB] at hfuel ⊢
    omega
  | succ n ih =>
    rw [ballocFrom]
    by_cases hq : BPB*q < s.sb.size
    · rw [if_pos hq]
      have hbit : ∀ {bi}, bi < BPB → inUse s (BPB*q+bi) = isSet (s.blocks (BBLOCK (BPB*q) s.sb)) bi :=
        fun {bi} hbi => by
        have hmap : BBLOCK (BPB*q+bi) s.sb = BBLOCK (BPB*q) s.sb ∧ (BPB*q+bi)%BPB = bi := by
          simp only [BBLOCK, BPB] at hbi ⊢
          omega
        rw [inUse, hmap.1, hmap.2]
      cases hfirst : firstClear (s.blocks (BBLOCK (BPB*q) s.sb)) (BPB*q) s.sb.size with
      | some bi =>
        obtain ⟨hbi,hsize,hclear,hset⟩ := first_clear_some hfirst
        rw [wp_bind, wp_take_some hfirst]
        simp only [wp_bind, wp_zero, wp_pure]
        refine ⟨take_fresh h ((hbit hbi).trans hclear) hbi hsize,fun c hc => ?_⟩
        by_cases hcq : c < BPB*q
        · exact hlow c hcq (by omega)
        · obtain ⟨bj,rfl⟩ := Nat.exists_eq_add_of_le (Nat.le_of_not_lt hcq)
          rw [hbit (by omega)]
          exact hset bj (by omega)
      | none =>
        rw [wp_bind, wp_take_none hfirst]
        refine ih (q := q+1) (by omega) (fun d hd hsize => ?_)
        by_cases hdq : d < BPB*q
        · exact hlow d hdq hsize
        · obtain ⟨bi,rfl⟩ := Nat.exists_eq_add_of_le (Nat.le_of_not_lt hdq)
          have hbi : bi < BPB := by
            rw [Nat.mul_add] at hd
            omega
          rw [hbit hbi]
          exact first_clear_none hfirst hbi hsize
    · rw [if_neg hq]
      exact ⟨rfl,fun c hc => hlow c (by omega) hc⟩

theorem balloc_spec (h : Sound s) : wp exec balloc (fun b t => Fresh s t b ∧ ∀ c, c < b → inUse s c = true)
    (fun e => e = .ballocOutOfBlocks ∧ ∀ c, c < s.sb.size → inUse s c = true) s := by
  unfold balloc
  simp only [wp_bind, wp_superblock]
  exact balloc_from_spec (q := 0) h (Nat.add_zero _).symm (fun d hd => by omega)

theorem fresh_owned (h : Sound s) (hf : Fresh s t b) (hi : Live s i) (hk : k < SLOTS) : ptr s i k ≠ b := by
  intro heq
  have huse := (h.owned hi hk (heq ▸ data_pos h hf.free)).2.2
  rw [heq, hf.free] at huse
  cases huse

theorem fresh_block (h : Sound s) (hf : Fresh s t b) (hi : Live s i) (hk : k < SLOTS) (hne : ptr s i k ≠ 0) :
    t.blocks (ptr s i k) = s.blocks (ptr s i k) :=
  hf.other _ (fresh_owned h hf hi hk) (.inr (h.owned hi hk hne).1)

theorem meta_low : s.sb.bmapstart ≤ dataStart s.sb := by
  rw [dataStart, Nat.add_assoc]
  exact Nat.le_add_right _ _

theorem fresh_low (h : Sound s) (hf : Fresh s t b) (hc : c < s.sb.bmapstart) : t.blocks c = s.blocks c := by
  have := free_data h hf.free
  have := meta_low (s := s)
  exact hf.other c (by omega) (.inl hc)

theorem ptr_direct (hk : k ≤ NDIRECT) : ptr s i k = (s.mem i).addrs k := if_pos hk

theorem ptr_indirect (hk : NDIRECT < k) : ptr s i k = if ptr s i NDIRECT = 0 then 0
    else field 4 (s.blocks (ptr s i NDIRECT)) (4*(k-NDIRECT-1)) := by
  rw [ptr_direct (Nat.le_refl _), ptr, if_neg (Nat.not_le_of_lt hk)]

theorem entry_place {bn : ℕ} : bn+1-NDIRECT-1 = bn-NDIRECT := by omega

theorem ptr_entry {bn : ℕ} (hbn : NDIRECT ≤ bn) (hind : ptr s i NDIRECT ≠ 0) :
    field 4 (s.blocks (ptr s i NDIRECT)) (4*(bn-NDIRECT)) = ptr s i (bn+1) := by
  rw [ptr_indirect (Nat.lt_succ_of_le hbn), if_neg hind, entry_place]

structure Gains (s u : Store) (i k b : ℕ) : Prop where
  sb : u.sb = s.sb
  kept : ∀ j, j ≠ i → u.mem j = s.mem j
  fields : { u.mem i with addrs := (s.mem i).addrs } = s.mem i
  rest : ∀ l, NDIRECT < l → (u.mem i).addrs l = (s.mem i).addrs l
  ptr : ∀ j l, Live s j → l < SLOTS → ptr u j l = if j = i ∧ l = k then b else ptr s j l
  empty : BlockStore.ptr s i k = 0
  slot : k < SLOTS
  size : b < s.sb.size
  free : inUse s b = false
  bits : ∀ c, c < s.sb.size → inUse u c = (decide (c = b) || inUse s c)
  low : ∀ c, c < s.sb.bmapstart → u.blocks c = s.blocks c
  data : ∀ j l, Live s j → l < SLOTS → l ≠ NDIRECT → BlockStore.ptr s j l ≠ 0 →
    u.blocks (BlockStore.ptr s j l) = s.blocks (BlockStore.ptr s j l)

theorem gains_live (h : Gains s u i k b) : Live u j ↔ Live s j := by
  by_cases hj : j = i
  · subst hj
    rw [Live, Live, h.sb, ← h.fields]
  · rw [Live, Live, h.sb, h.kept j hj]

theorem gains_sound (h : Sound s) (hg : Gains s u i k b) : Sound u := by
  have hdata := free_data h hg.free
  have howned : ∀ {j l}, Live s j → l < SLOTS → ptr s j l ≠ b := fun hj hl heq => by
    have := (h.owned hj hl (heq ▸ data_pos h hg.free)).2.2
    rw [heq, hg.free] at this
    cases this
  refine ⟨hg.sb ▸ h.small,hg.sb ▸ h.disk,hg.sb ▸ h.inodes,fun c hc => ?_,fun {j l} hj hl hne => ?_,
    fun {j j' l l'} hj hj' hl hl' hne heq => ?_⟩
  · rw [hg.sb] at hc
    rw [hg.bits c (by have := hg.size; omega), h.metas c hc, Bool.or_true]
  · rw [gains_live hg] at hj
    rw [hg.ptr j l hj hl] at hne ⊢
    rw [hg.sb]
    split at hne
    · rename_i heq
      rw [if_pos heq]
      exact ⟨hdata,hg.size,by rw [hg.bits b hg.size, decide_eq_true rfl, Bool.true_or]⟩
    · rename_i heq
      obtain ⟨h1,h2,h3⟩ := h.owned hj hl hne
      rw [if_neg heq]
      exact ⟨h1,h2,by rw [hg.bits _ h2, h3, Bool.or_true]⟩
  · rw [gains_live hg] at hj hj'
    rw [hg.ptr j l hj hl] at hne heq
    rw [hg.ptr j' l' hj' hl'] at heq
    split at heq <;> rename_i h1
    · split at heq <;> rename_i h2
      · exact ⟨h1.1.trans h2.1.symm,h1.2.trans h2.2.symm⟩
      · exact absurd heq.symm (howned hj' hl')
    · rw [if_neg h1] at hne
      split at heq
      · exact absurd heq (howned hj hl)
      · exact h.once hj hj' hl hl' hne heq

theorem assign_gains (h : Sound s) (hi : Live s i) (hk : k ≤ NDIRECT) (hempty : ptr s i k = 0)
    (hf : Fresh s t b) :
    Gains s (t.setMem i { t.mem i with addrs := update (t.mem i).addrs k b }) i k b := by
  have hother : ∀ {j l}, Live s j → l < SLOTS → l ≤ NDIRECT →
      ptr (t.setMem i { t.mem i with addrs := update (t.mem i).addrs k b }) j l =
        if j = i ∧ l = k then b else ptr s j l := fun {j l} hj hl hdirect => by
    rw [ptr_direct hdirect, ptr_direct hdirect]
    by_cases hji : j = i
    · subst hji
      by_cases hlk : l = k <;> simp [Store.setMem, hf.mem, hlk]
    · simp [Store.setMem, hf.mem, hji]
  refine ⟨hf.sb,fun j hj => ?_,?_,fun l hl => ?_,fun j l hj hl => ?_,hempty,
    Nat.lt_of_le_of_lt hk (by decide),hf.here,
    hf.free,hf.bits,fun c hc => ?_,fun j l hj hl _ hne => ?_⟩
  · simp only [Store.setMem, update_of_ne hj, hf.mem]
  · simp only [Store.setMem, update_self, hf.mem]
  · have hne : l ≠ k := by omega
    simp only [Store.setMem, update_self, hf.mem, update_of_ne hne]
  · by_cases hdirect : l ≤ NDIRECT
    · exact hother hj hl hdirect
    · have hlk : ¬(j = i ∧ l = k) := by omega
      rw [ptr_indirect (Nat.lt_of_not_le hdirect), hother hj (by decide) (Nat.le_refl _), if_neg hlk,
        ptr_indirect (s := s) (Nat.lt_of_not_le hdirect)]
      by_cases hnew : j = i ∧ NDIRECT = k
      · -- the entries of a fresh indirect block are empty, as they were without one
        obtain ⟨rfl,rfl⟩ := hnew
        rw [if_pos (And.intro rfl rfl), if_neg (data_pos h hf.free), if_pos hempty]
        exact field_zero (fun n _ => congrFun hf.zero _)
      · rw [if_neg hnew]
        split_ifs with hne
        · rfl
        · have hblock := fresh_block h hf hj (by decide) hne
          exact congrArg (fun f => field 4 f (4*(l-NDIRECT-1))) hblock
  · have hblock := fresh_low h hf hc
    exact hblock
  · have hblock := fresh_block h hf hj hl hne
    exact hblock

theorem patch_gains (h : Sound s) (hi : Live s i) (hk : NDIRECT < k) (hslot : k < SLOTS)
    (hind : ptr s i NDIRECT ≠ 0) (hempty : ptr s i k = 0) (hf : Fresh s t b) :
    Gains s (t.setBlock (ptr s i NDIRECT)
      (paste (t.blocks (ptr s i NDIRECT)) (4*(k-NDIRECT-1)) (bytes 4 b))) i k b := by
  have hdata := (h.owned hi (by decide) hind).1
  have hown : ∀ {j l}, Live s j → l < SLOTS → ptr s j l = ptr s i NDIRECT → i = j ∧ NDIRECT = l :=
    fun hj hl heq => h.once hi hj (by decide) hl hind heq.symm
  refine ⟨hf.sb,fun j _ => by simp only [Store.setBlock, hf.mem],by simp only [Store.setBlock, hf.mem],
    fun l _ => by simp only [Store.setBlock, hf.mem],fun j l hj hl => ?_,hempty,hslot,hf.here,hf.free,
    fun c hc => ?_,fun c hc => ?_,fun j l hj hl hne hl0 => ?_⟩
  · by_cases hdirect : l ≤ NDIRECT
    · rw [if_neg (by omega), ptr_direct hdirect, ptr_direct hdirect]
      simp only [Store.setBlock, hf.mem]
    · have hsame : ∀ f, ptr (t.setBlock (ptr s i NDIRECT) f) j NDIRECT = ptr s j NDIRECT := fun f => by
        rw [ptr_direct (Nat.le_refl _), ptr_direct (s := s) (i := j) (Nat.le_refl _)]
        simp only [Store.setBlock, hf.mem]
      rw [ptr_indirect (Nat.lt_of_not_le hdirect), hsame,
        ptr_indirect (s := s) (k := l) (Nat.lt_of_not_le hdirect)]
      by_cases hji : j = i
      · subst hji
        rw [if_neg hind, if_neg hind, fresh_block h hf hj (by decide) hind]
        simp only [Store.setBlock, update_self, true_and]
        have hword : b < 256^4 := Nat.lt_of_lt_of_le hf.here h.small
        split_ifs with hlk
        · rw [hlk, field_paste_same hword]
        · rw [field_paste_other (by rw [bytes_length]; omega)]
      · rw [if_neg (fun hand : j = i ∧ l = k => hji hand.1)]
        split_ifs with hne
        · rfl
        · have hother : ptr s j NDIRECT ≠ ptr s i NDIRECT := fun heq => hji (hown hj (by decide) heq).1.symm
          simp only [Store.setBlock, update_of_ne hother, fresh_block h hf hj (by decide) hne]
  · have hne : BBLOCK c (t.sb) ≠ ptr s i NDIRECT := by
      rw [hf.sb]
      have := bitmap_low hc
      omega
    rw [← hf.bits c hc]
    simp only [inUse, Store.setBlock, update_of_ne hne]
  · have := meta_low (s := s)
    have hne : c ≠ ptr s i NDIRECT := by omega
    simp only [Store.setBlock, update_of_ne hne, fresh_low h hf hc]
  · have hother : ptr s j l ≠ ptr s i NDIRECT := fun heq => hne (hown hj hl heq).2.symm
    simp only [Store.setBlock, update_of_ne hother, fresh_block h hf hj hl hl0]

structure Same (s u : Store) : Prop where
  sb : u.sb = s.sb
  live : ∀ j, Live u j ↔ Live s j
  ptr : ∀ j l, Live s j → l < SLOTS → ptr u j l = BlockStore.ptr s j l
  bits : ∀ c, c < s.sb.size → inUse u c = inUse s c

theorem same_sound (h : Sound s) (hu : Same s u) : Sound u := by
  refine ⟨hu.sb ▸ h.small,hu.sb ▸ h.disk,hu.sb ▸ h.inodes,fun c hc => ?_,fun {j l} hj hl hne => ?_,
    fun {j j' l l'} hj hj' hl hl' hne heq => ?_⟩
  · rw [hu.sb] at hc
    rw [hu.bits c (Nat.lt_of_lt_of_le hc h.disk), h.metas c hc]
  · rw [hu.live] at hj
    rw [hu.ptr j l hj hl] at hne ⊢
    obtain ⟨h1,h2,h3⟩ := h.owned hj hl hne
    rw [hu.sb, hu.bits _ h2]
    exact ⟨h1,h2,h3⟩
  · rw [hu.live] at hj hj'
    rw [hu.ptr j l hj hl] at hne heq
    rw [hu.ptr j' l' hj' hl'] at heq
    exact h.once hj hj' hl hl' hne heq

theorem set_block_same {a : ℕ} (f : Block) (hbits : ∀ c, c < s.sb.size → BBLOCK c s.sb ≠ a)
    (hind : ∀ j, Live s j → ptr s j NDIRECT ≠ 0 → ptr s j NDIRECT ≠ a) : Same s (s.setBlock a f) := by
  refine ⟨rfl,fun j => Iff.rfl,fun j l hj hl => ?_,fun c hc => ?_⟩
  · by_cases hdirect : l ≤ NDIRECT
    · rw [ptr_direct hdirect, ptr_direct hdirect]
      rfl
    · have hsame : ptr (s.setBlock a f) j NDIRECT = ptr s j NDIRECT := by
        rw [ptr_direct (Nat.le_refl _), ptr_direct (s := s) (i := j) (Nat.le_refl _)]
        rfl
      rw [ptr_indirect (Nat.lt_of_not_le hdirect), hsame,
        ptr_indirect (s := s) (k := l) (Nat.lt_of_not_le hdirect)]
      split_ifs with hne
      · rfl
      · simp only [Store.setBlock, update_of_ne (hind j hj hne)]
  · simp only [inUse, Store.setBlock, update_of_ne (hbits c hc)]

theorem updated_same (h : Sound s) (hi : i < s.sb.ninodes) : Same s (updated s i) := by
  have hlow := h.inodes i hi
  have hmap := meta_low (s := s)
  refine set_block_same _ (fun c _ => ?_) (fun j hj hne => ?_)
  · simp only [BBLOCK, BPB]
    omega
  · have := (h.owned hj (by decide) hne).1
    omega

def freeBlocks (s : Store) : Finset ℕ := {b ∈ Finset.range s.sb.size | inUse s b = false}

def emptySlots (s : Store) (i lim : ℕ) : Finset ℕ := {k ∈ Finset.range lim | ptr s i k = 0}

/-- There are as many free blocks as an inode needs to have none of these slots empty. -/
def Room (s : Store) (i lim : ℕ) : Prop := (emptySlots s i lim).card ≤ (freeBlocks s).card

instance (s : Store) (i lim : ℕ) : Decidable (Room s i lim) :=
  inferInstanceAs (Decidable (_ ≤ _))

/-- `balloc` has found no free block, and there were not enough of them. -/
def Exhausted (s : Store) (i lim : ℕ) (e : Panic) : Prop := e = .ballocOutOfBlocks ∧ ¬Room s i lim

/-- `balloc` has found no free block for a slot that is empty. -/
def Stuck (s : Store) (i k : ℕ) (e : Panic) : Prop :=
  e = .ballocOutOfBlocks ∧ ptr s i k = 0 ∧ ∀ c, c < s.sb.size → inUse s c = true

theorem stuck_exhausted {e : Panic} (hk : k < lim) (h : Stuck s i k e) : Exhausted s i lim e := by
  refine ⟨h.1,fun hr => ?_⟩
  have hmem : k ∈ emptySlots s i lim := Finset.mem_filter.mpr ⟨Finset.mem_range.mpr hk,h.2.1⟩
  have hpos : 0 < (freeBlocks s).card := Nat.lt_of_lt_of_le (Finset.card_pos.mpr ⟨k,hmem⟩) hr
  obtain ⟨c,hc⟩ := Finset.card_pos.mp hpos
  obtain ⟨hsize,hfree⟩ := Finset.mem_filter.mp hc
  rw [h.2.2 c (Finset.mem_range.mp hsize)] at hfree
  cases hfree

theorem gains_slots (h : Sound s) (hi : Live s i) (hg : Gains s u i k b) (hlim : lim ≤ SLOTS) :
    emptySlots u i lim = (emptySlots s i lim).erase k := by
  ext l
  simp only [emptySlots, Finset.mem_filter, Finset.mem_erase, Finset.mem_range]
  by_cases hl : l < lim
  · rw [hg.ptr i l hi (Nat.lt_of_lt_of_le hl hlim)]
    by_cases hlk : l = k
    · simp [hlk, data_pos h hg.free]
    · simp [hlk]
  · simp [hl]

theorem gains_blocks (hg : Gains s u i k b) : freeBlocks u = (freeBlocks s).erase b := by
  ext c
  simp only [freeBlocks, Finset.mem_filter, Finset.mem_erase, Finset.mem_range, hg.sb]
  by_cases hc : c < s.sb.size
  · rw [hg.bits c hc]
    by_cases hcb : c = b <;> simp [hcb, hc]
  · simp [hc]

theorem gains_room (h : Sound s) (hi : Live s i) (hg : Gains s u i k b) (hk : k < lim)
    (hlim : lim ≤ SLOTS) : Room u i lim ↔ Room s i lim := by
  have hslot : k ∈ emptySlots s i lim := Finset.mem_filter.mpr ⟨Finset.mem_range.mpr hk,hg.empty⟩
  have hblock : b ∈ freeBlocks s := Finset.mem_filter.mpr ⟨Finset.mem_range.mpr hg.size,hg.free⟩
  have hslots := Finset.card_pos.mpr ⟨k,hslot⟩
  have hblocks := Finset.card_pos.mpr ⟨b,hblock⟩
  unfold Room
  rw [gains_slots h hi hg hlim, gains_blocks hg, Finset.card_erase_of_mem hslot,
    Finset.card_erase_of_mem hblock]
  omega

theorem same_slots (hi : Live s i) (hlim : lim ≤ SLOTS) (hu : Same s u) :
    emptySlots u i lim = emptySlots s i lim :=
  Finset.filter_congr fun l hl => by
    rw [hu.ptr i l hi (Nat.lt_of_lt_of_le (Finset.mem_range.mp hl) hlim)]

theorem same_room (hi : Live s i) (hlim : lim ≤ SLOTS) (hu : Same s u) :
    Room u i lim ↔ Room s i lim := by
  have hblocks : freeBlocks u = freeBlocks s := by
    unfold freeBlocks
    rw [hu.sb]
    exact Finset.filter_congr fun c hc => by rw [hu.bits c (Finset.mem_range.mp hc)]
  rw [Room, Room, same_slots hi hlim hu, hblocks]

inductive Grows (i lim : ℕ) (s : Store) : Store → Prop
  | refl : Grows i lim s s
  | tail {t u : Store} {k b : ℕ} (grows : Grows i lim s t) (here : k < lim) (gains : Gains t u i k b) :
      Grows i lim s u

theorem grows_keeps (h : Sound s) (hi : Live s i) (hg : Grows i lim s t) : Sound t ∧ Live t i := by
  induction hg with
  | refl => exact ⟨h,hi⟩
  | tail _ _ gains ih => exact ⟨gains_sound ih.1 gains,(gains_live gains).mpr ih.2⟩

theorem grows_room (h : Sound s) (hi : Live s i) (hlim : lim ≤ SLOTS) (hg : Grows i lim s t) :
    Room t i lim ↔ Room s i lim := by
  induction hg with
  | refl => exact Iff.rfl
  | tail grows here gains ih =>
    obtain ⟨h1,h2⟩ := grows_keeps h hi grows
    exact (gains_room h1 h2 gains here hlim).trans ih

/-- A slot has its block, or it gets the first one that is free. -/
def Fills (s t : Store) (i k : ℕ) : Prop :=
  (t = s ∧ ptr s i k ≠ 0) ∨ ∃ b, Gains s t i k b ∧ ∀ c, c < b → inUse s c = true

theorem fills_grows (hk : k < lim) (h : Fills s t i k) : Grows i lim s t ∧ (ptr s i k ≠ 0 → t = s) := by
  rcases h with ⟨rfl,-⟩ | ⟨b,hg,-⟩
  · exact ⟨.refl,fun _ => rfl⟩
  · exact ⟨.tail .refl hk hg,fun hne => absurd hg.empty hne⟩

theorem slot_block_spec (h : Sound s) (hi : Live s i) (hk : k ≤ NDIRECT) :
    wp exec (slotBlock i k) (fun a t => ptr t i k = a ∧ a ≠ 0 ∧ Fills s t i k) (Stuck s i k) s := by
  unfold slotBlock
  simp only [wp_bind, wp_addr]
  rw [← ptr_direct hk]
  split
  · rename_i hempty
    rw [wp_bind]
    refine wp_mono (balloc_spec h) (fun b t hb => ?_) (fun _ he => ⟨he.1,hempty,he.2⟩)
    obtain ⟨hf,hfirst⟩ := hb
    simp only [wp_bind, wp_set_addr, wp_pure]
    have hg := assign_gains h hi hk hempty hf
    refine ⟨?_,data_pos h hf.free,.inr ⟨b,hg,hfirst⟩⟩
    rw [hg.ptr i k hi hg.slot, if_pos ⟨rfl,rfl⟩]
  · rename_i hne
    exact ⟨rfl,hne,.inl ⟨rfl,hne⟩⟩

theorem entry_spec {bn : ℕ} (h : Sound s) (hi : Live s i) (hbn : NDIRECT ≤ bn) (hslot : bn+1 < SLOTS)
    (hind : ptr s i NDIRECT ≠ 0) :
    wp exec (do
        let bp ← read (ptr s i NDIRECT)
        let a := field 4 bp (4*(bn-NDIRECT))
        if a = 0 then
          let b ← balloc
          patch (ptr s i NDIRECT) (4*(bn-NDIRECT)) (bytes 4 b)
          pure b
        else pure a)
      (fun a t => ptr t i (bn+1) = a ∧ a ≠ 0 ∧ Fills s t i (bn+1)) (Stuck s i (bn+1)) s := by
  simp only [wp_bind, wp_read, ptr_entry hbn hind]
  split
  · rename_i hempty
    rw [wp_bind]
    refine wp_mono (balloc_spec h) (fun b t hb => ?_) (fun _ he => ⟨he.1,hempty,he.2⟩)
    obtain ⟨hf,hfirst⟩ := hb
    simp only [wp_bind, wp_patch, wp_pure]
    have hg := patch_gains h hi (Nat.lt_succ_of_le hbn) hslot hind hempty hf
    rw [entry_place] at hg
    refine ⟨?_,data_pos h hf.free,.inr ⟨b,hg,hfirst⟩⟩
    rw [hg.ptr i _ hi hg.slot, if_pos ⟨rfl,rfl⟩]
  · rename_i hne
    exact ⟨rfl,hne,.inl ⟨rfl,hne⟩⟩

theorem grows_trans (h : Grows i lim s t) (h' : Grows i lim t u) : Grows i lim s u := by
  induction h' with
  | refl => exact h
  | tail _ here gains ih => exact .tail ih here gains

theorem bmap_spec {bn lim : ℕ} (h : Sound s) (hi : Live s i) (hbn : bn < MAXFILE) (hlim : slotOf bn < lim)
    (hslots : lim ≤ SLOTS) :
    wp exec (bmap i bn) (fun a t => ptr t i (slotOf bn) = a ∧ a ≠ 0 ∧ Grows i lim s t ∧
      (ptr s i (slotOf bn) ≠ 0 → t = s)) (Exhausted s i lim) s := by
  unfold bmap
  split
  · rename_i hdirect
    rw [slotOf, if_pos hdirect] at hlim ⊢
    exact wp_mono (slot_block_spec h hi (Nat.le_of_lt hdirect))
      (fun _ _ ha => ⟨ha.1,ha.2.1,fills_grows hlim ha.2.2⟩) (fun _ => stuck_exhausted hlim)
  · rename_i hdirect
    rw [slotOf, if_neg hdirect] at hlim ⊢
    rw [if_pos (by simp only [MAXFILE, NINDIRECT, NDIRECT] at hbn hdirect ⊢; omega)]
    have hlow : NDIRECT < lim := by omega
    refine wp_seq (slot_block_spec h hi (Nat.le_refl _)) (fun _ => stuck_exhausted hlow) ?_
    rintro - t ⟨rfl,hind,hf⟩
    obtain ⟨hg,hsame⟩ := fills_grows hlow hf
    obtain ⟨h1,h2⟩ := grows_keeps h hi hg
    refine wp_mono (entry_spec h1 h2 (Nat.le_of_not_lt hdirect) (Nat.lt_of_lt_of_le hlim hslots) hind) ?_
      (fun _ he => ⟨he.1,fun hr => (stuck_exhausted hlim he).2 ((grows_room h hi hslots hg).mpr hr)⟩)
    rintro a u ⟨ha,hne,hf'⟩
    obtain ⟨hg',hsame'⟩ := fills_grows hlim hf'
    refine ⟨ha,hne,grows_trans hg hg',fun hold => ?_⟩
    have hi0 : ptr s i NDIRECT ≠ 0 := fun h0 => hold (by rw [ptr_indirect (by omega), if_pos h0])
    cases hsame hi0
    exact hsame' hold

/-- The blocks of a file system whose inodes are those of a store. -/
structure Shows (B : Blocks) (s : Store) : Prop where
  size : B.size = s.sb.size
  used : ∀ c, c < s.sb.size → B.used c = inUse s c
  addrs : ∀ j k, Live s j → k < SLOTS → B.addrs j k = ptr s j k

variable {B : Blocks}

theorem same_shows (hu : Same s u) (h : Shows B s) : Shows B u :=
  ⟨hu.sb ▸ h.size,fun c hc => (h.used c (hu.sb ▸ hc)).trans (hu.bits c (hu.sb ▸ hc)).symm,
    fun j k hj hk => (h.addrs j k ((hu.live j).mp hj) hk).trans (hu.ptr j k ((hu.live j).mp hj) hk).symm⟩

theorem fills_shows (hi : Live s i) (hk : k < SLOTS) (hB : Shows B s) (h : Fills s t i k) :
    ∃ B', B.slotBlock i k = some B' ∧ Shows B' t := by
  rcases h with ⟨rfl,hne⟩ | ⟨b,hg,hfirst⟩
  · refine ⟨B,if_neg ?_,hB⟩
    rwa [hB.addrs i k hi hk]
  · have hfind : (List.range B.size).find? (fun b => !B.used b) = some b := by
      rw [hB.size, List.find?_range_eq_some, hB.used b hg.size, hg.free]
      refine ⟨rfl,List.mem_range.mpr hg.size,fun c hc => ?_⟩
      rw [hB.used c (hc.trans hg.size), hfirst c hc]
      rfl
    rw [Blocks.slotBlock, if_pos ((hB.addrs i k hi hk).trans hg.empty), hfind]
    refine ⟨_,rfl,hg.sb ▸ hB.size,fun c hc => ?_,fun j l hj hl => ?_⟩
    · rw [hg.sb] at hc
      rw [hg.bits c hc, ← hB.used c hc]
      by_cases hcb : c = b <;> simp [hcb]
    · rw [gains_live hg] at hj
      rw [hg.ptr j l hj hl, ← hB.addrs j l hj hl]
      by_cases hji : j = i <;> by_cases hlk : l = k <;> simp [hji, hlk]

theorem stuck_shows {e : Panic} (hi : Live s i) (hk : k < SLOTS) (hB : Shows B s) (h : Stuck s i k e) :
    B.slotBlock i k = none := by
  rw [Blocks.slotBlock, if_pos ((hB.addrs i k hi hk).trans h.2.1), Option.map_eq_none_iff, List.find?_eq_none]
  intro c hc
  rw [hB.size, List.mem_range] at hc
  rw [hB.used c hc, h.2.2 c hc]
  exact Bool.false_ne_true

/-- On the bitmap and the pointers `bmap` does what the coarse model has for it, and it
panics where that has nothing. -/
theorem bmap_shows {bn : ℕ} (h : Sound s) (hi : Live s i) (hbn : bn < MAXFILE) (hB : Shows B s) :
    wp exec (bmap i bn) (fun _ t => ∃ B', B.bmap i bn = some B' ∧ Shows B' t)
      (fun e => e = .ballocOutOfBlocks ∧ B.bmap i bn = none) s := by
  have hslot : bn+1 < SLOTS := Nat.succ_lt_succ hbn
  unfold bmap Blocks.bmap slots
  split
  · rename_i hdirect
    have hslot := Nat.lt_of_succ_lt hslot
    rw [List.foldlM_cons]
    refine wp_mono (slot_block_spec h hi (Nat.le_of_lt hdirect)) (fun a t ha => ?_) (fun e he => ⟨he.1,?_⟩)
    · obtain ⟨B',hB',hs⟩ := fills_shows hi hslot hB ha.2.2
      exact ⟨B',by rw [hB']; rfl,hs⟩
    · rw [stuck_shows hi hslot hB he]
      rfl
  · rename_i hdirect
    rw [if_pos (by simp only [MAXFILE, NINDIRECT, NDIRECT] at hbn hdirect ⊢; omega), List.foldlM_cons]
    refine wp_seq (slot_block_spec h hi (Nat.le_refl _)) (fun e he => ⟨he.1,?_⟩) ?_
    · rw [stuck_shows hi (by decide) hB he]
      rfl
    rintro - t ⟨rfl,hind,hf⟩
    obtain ⟨B',hB',hs⟩ := fills_shows hi (by decide) hB hf
    obtain ⟨h1,h2⟩ := grows_keeps h hi (fills_grows (Nat.lt_succ_self _) hf).1
    rw [hB']
    refine wp_mono (entry_spec h1 h2 (Nat.le_of_not_lt hdirect) hslot hind) (fun a u ha => ?_)
      (fun e he => ⟨he.1,?_⟩)
    · obtain ⟨B2,hB2,hs2⟩ := fills_shows h2 hslot hs ha.2.2
      exact ⟨B2,by simp [hB2],hs2⟩
    · simp [stuck_shows h2 hslot hs he]

end Xv6.BlockStore

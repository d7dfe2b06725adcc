import Xv6.BlockStore
import Xv6.TransitionSystem

/-!
# The bytes of an inode

On an image without holes an inode is an array of bytes: `readi` gives a part of it, and
`writei` replaces a part and may make it longer. Other inodes keep their bytes, since no
block has two owners.
-/

set_option autoImplicit false

namespace Xv6.BlockFiles
open CommandTree TransitionSystem ByteFields BlockCode BlockStore
open InodeCode (Blocks blocksOf BSIZE MAXFILE WORD T_DEV Byte)
open Function (update update_self update_of_ne)

variable {s t u : Store} {i j k l b c o off n : ℕ} {src : List Byte}

def byteAt (s : Store) (i : ℕ) : Block :=
  fun o => s.blocks (ptr s i (slotOf (o/BSIZE))) (o%BSIZE)

def bytesOf (s : Store) (i : ℕ) : List Byte := slice (byteAt s i) 0 (s.mem i).size

def blocksFor (n : ℕ) : ℕ := (n+BSIZE-1)/BSIZE

/-- The slots for so many bytes, with the indirect block. -/
def limit (n : ℕ) : ℕ := if blocksFor n ≤ NDIRECT then blocksFor n else blocksFor n+1

theorem slot_lt_limit (h : o < n) : slotOf (o/BSIZE) < limit n := by
  have hblock : o/BSIZE < blocksFor n := by
    simp only [blocksFor, BSIZE]
    omega
  unfold slotOf limit
  split <;> split <;> omega

theorem limit_slots (h : n ≤ MAXFILE*BSIZE) : limit n ≤ SLOTS := by
  have hblocks : blocksFor n ≤ 140 := by
    simp only [blocksFor, BSIZE, MAXFILE] at h ⊢
    omega
  unfold limit
  split <;> simp only [SLOTS] <;> omega

theorem slot_of_inj {m n : ℕ} (h : slotOf m = slotOf n) : m = n := by
  simp only [slotOf, NDIRECT] at h
  split at h <;> split at h <;> omega

theorem slot_not_indirect (n : ℕ) : slotOf n ≠ NDIRECT := by
  simp only [slotOf, NDIRECT]
  split <;> omega

theorem slot_lt (h : n < MAXFILE) : slotOf n < SLOTS := by
  simp only [slotOf, NDIRECT, SLOTS, MAXFILE] at h ⊢
  split <;> omega

theorem bmap_present (hn : n < MAXFILE) (hne : ptr s i (slotOf n) ≠ 0) :
    wp exec (bmap i n) (fun a t => a = ptr s i (slotOf n) ∧ s = t) (fun _ => False) s := by
  have hslot : ∀ k, k ≤ NDIRECT → ptr s i k ≠ 0 →
      wp exec (slotBlock i k) (fun a t => a = ptr s i k ∧ s = t) (fun _ => False) s := fun k hk hk0 => by
    rw [ptr_direct hk] at hk0 ⊢
    unfold slotBlock
    simp only [wp_bind, wp_addr]
    rw [if_neg hk0]
    exact ⟨rfl,rfl⟩
  unfold bmap
  by_cases hdirect : n < NDIRECT
  · rw [slotOf, if_pos hdirect] at hne ⊢
    rw [if_pos hdirect]
    exact hslot n (Nat.le_of_lt hdirect) hne
  · have hk : NDIRECT < n+1 := by omega
    rw [slotOf, if_neg hdirect] at hne ⊢
    rw [if_neg hdirect, if_pos (by simp only [MAXFILE, NINDIRECT, NDIRECT] at hn hdirect ⊢; omega)]
    have hind : ptr s i NDIRECT ≠ 0 := fun h0 => hne (by rw [ptr_indirect hk, if_pos h0])
    refine wp_then (hslot NDIRECT (Nat.le_refl _) hind) ?_
    rintro a t ⟨rfl,rfl⟩
    simp only [wp_bind, wp_read, ptr_entry (Nat.le_of_not_lt hdirect) hind]
    rw [if_neg hne]
    exact ⟨rfl,rfl⟩

theorem round_block {m : ℕ} (hm : m ≤ BSIZE-off%BSIZE) (hk : k < m) :
    (off+k)/BSIZE = off/BSIZE ∧ (off+k)%BSIZE = off%BSIZE+k := by
  simp only [BSIZE] at hm ⊢
  omega

theorem read_from_spec {r : ℕ} (hr : n ≤ r) (hthere : ∀ o, off ≤ o → o < off+n →
      o/BSIZE < MAXFILE ∧ ptr s i (slotOf (o/BSIZE)) ≠ 0) :
    wp exec (readFrom i r off n) (fun bytes t => bytes = slice (byteAt s i) off n ∧ s = t)
      (fun _ => False) s := by
  induction r generalizing off n with
  | zero =>
    cases Nat.le_zero.mp hr
    exact ⟨rfl,rfl⟩
  | succ r ih =>
    rw [readFrom]
    split_ifs with hn
    · obtain ⟨hmax,hne⟩ := hthere off (Nat.le_refl _) (by omega)
      refine wp_then (bmap_present hmax hne) ?_
      rintro a t ⟨rfl,rfl⟩
      simp only [wp_bind, wp_read]
      have hm : min n (BSIZE-off%BSIZE) ≤ n ∧ 0 < min n (BSIZE-off%BSIZE) := by
        simp only [BSIZE]
        omega
      have hround : ∀ k < min n (BSIZE-off%BSIZE), _ := fun k hk =>
        round_block (Nat.min_le_right n _) hk
      generalize min n (BSIZE-off%BSIZE) = m at hm hround ⊢
      refine wp_post (ih (n := n-m) (by omega) (fun o h1 h2 => hthere o (by omega) (by omega)))
        ?_
      rintro a t ⟨rfl,rfl⟩
      rw [wp_pure]
      refine ⟨?_,rfl⟩
      have hsplit : n = m+(n-m) := by omega
      conv_rhs => rw [hsplit, slice_append]
      congr 1
      refine slice_congr fun k hk => ?_
      rw [byteAt, (hround k hk).1, (hround k hk).2]
    · have hn : n = 0 := by omega
      subst hn
      exact ⟨rfl,rfl⟩

/-- What a call leaves alone that works for inode `i`: the other cached inodes, the fields
of this one but `addrs`, the blocks before the bitmap, and the pointers there are. -/
structure Frame (i : ℕ) (s t : Store) : Prop where
  sb : t.sb = s.sb
  kept : ∀ j, j ≠ i → t.mem j = s.mem j
  fields : { t.mem i with addrs := (s.mem i).addrs } = s.mem i
  rest : ∀ l, NDIRECT < l → (t.mem i).addrs l = (s.mem i).addrs l
  low : ∀ c, c < s.sb.bmapstart → t.blocks c = s.blocks c
  there : ∀ j l, Live s j → l < SLOTS → ptr s j l ≠ 0 → ptr t j l = ptr s j l
  others : ∀ j l, j ≠ i → Live s j → l < SLOTS → ptr t j l = ptr s j l

theorem frame_live (h : Frame i s t) : Live t j ↔ Live s j := by
  by_cases hj : j = i
  · subst hj
    rw [Live, Live, h.sb, ← h.fields]
  · rw [Live, Live, h.sb, h.kept j hj]

theorem frame_refl : Frame i s s :=
  ⟨rfl,fun _ _ => rfl,rfl,fun _ _ => rfl,fun _ _ => rfl,fun _ _ _ _ _ => rfl,fun _ _ _ _ _ => rfl⟩

theorem frame_trans (h : Frame i s t) (h' : Frame i t u) : Frame i s u := by
  refine ⟨h'.sb.trans h.sb,fun j hj => (h'.kept j hj).trans (h.kept j hj),?_,
    fun l hl => (h'.rest l hl).trans (h.rest l hl),fun c hc => ?_,fun j l hj hl hne => ?_,
    fun j l hji hj hl => ?_⟩
  · rw [← h.fields, ← h'.fields]
  · rw [h'.low c (h.sb ▸ hc), h.low c hc]
  · have hsame := h.there j l hj hl hne
    rw [h'.there j l ((frame_live h).mpr hj) hl (hsame ▸ hne), hsame]
  · rw [h'.others j l hji ((frame_live h).mpr hj) hl, h.others j l hji hj hl]

theorem gains_frame (h : Gains s u i k b) : Frame i s u := by
  refine ⟨h.sb,h.kept,h.fields,h.rest,h.low,fun j l hj hl hne => ?_,fun j l hji hj hl => ?_⟩
  · rw [h.ptr j l hj hl, if_neg]
    rintro ⟨rfl,rfl⟩
    exact hne h.empty
  · rw [h.ptr j l hj hl, if_neg (fun hand => hji hand.1)]

/-- Blocks of files, unlike indirect blocks, stay as they are. -/
def SameData (s t : Store) : Prop :=
  ∀ j l, Live s j → l < SLOTS → l ≠ NDIRECT → ptr s j l ≠ 0 → t.blocks (ptr s j l) = s.blocks (ptr s j l)

theorem grows_frame {lim : ℕ} (hg : Grows i lim s t) : Frame i s t ∧ SameData s t := by
  induction hg with
  | refl => exact ⟨frame_refl,fun _ _ _ _ _ _ => rfl⟩
  | @tail t u k b _ _ gains ih =>
    obtain ⟨hf,hd⟩ := ih
    have hgain : Frame i t u := gains_frame gains
    refine ⟨frame_trans hf hgain,fun j l hj hl hl' hne => ?_⟩
    have hsame := hf.there j l hj hl hne
    rw [← hd j l hj hl hl' hne, ← hsame]
    exact gains.data j l ((frame_live hf).mpr hj) hl hl' (hsame ▸ hne)

/-- What a write does: the bytes are in their place, no other byte of a file changes, and
`addrs` does not change but for a byte that had no block. -/
structure Wrote (i off : ℕ) (src : List Byte) (s t : Store) : Prop where
  frame : Frame i s t
  bytes : ∀ j o, Live s j → o/BSIZE < MAXFILE → ptr s j (slotOf (o/BSIZE)) ≠ 0 →
    byteAt t j o = if j = i then paste (byteAt s i) off src o else byteAt s j o
  new : ∀ o, off ≤ o → o < off+src.length →
    ptr t i (slotOf (o/BSIZE)) ≠ 0 ∧ byteAt t i o = paste (byteAt s i) off src o
  same : t.mem = s.mem ∨ ∃ o, off ≤ o ∧ o < off+src.length ∧ ptr s i (slotOf (o/BSIZE)) = 0

theorem wrote_nil : Wrote i off [] s s := by
  refine ⟨frame_refl,fun j o _ _ _ => ?_,fun o h1 h2 => ?_,.inl rfl⟩
  · split_ifs with hj
    · rw [paste_outside (by simp only [List.length_nil]; omega), hj]
    · rfl
  · simp only [List.length_nil] at h2
    omega

theorem wrote_append {xs : List Byte} (ys : List Byte) (hi : Live s i)
    (hmax : ∀ o, off ≤ o → o < off+xs.length+ys.length → o/BSIZE < MAXFILE) (h : Wrote i off xs s t)
    (h' : Wrote i (off+xs.length) ys t u) : Wrote i off (xs++ys) s u := by
  have hi' : Live t i := (frame_live h.frame).mpr hi
  refine ⟨frame_trans h.frame h'.frame,fun j o hj ho hne => ?_,fun o h1 h2 => ?_,?_⟩
  · have hsame := h.frame.there j _ hj (slot_lt ho) hne
    rw [h'.bytes j o ((frame_live h.frame).mpr hj) ho (hsame ▸ hne), ← paste_append]
    have hold := h.bytes j o hj ho hne
    split_ifs with hji
    · rw [hji, if_pos rfl] at hold
      exact paste_congr hold
    · rw [hold, if_neg hji]
  · rw [List.length_append, ← Nat.add_assoc] at h2
    rw [← paste_append]
    by_cases hx : o < off+xs.length
    · obtain ⟨hne,hbyte⟩ := h.new o h1 hx
      have ho := hmax o h1 (by omega)
      refine ⟨by rw [h'.frame.there i _ hi' (slot_lt ho) hne]; exact hne,?_⟩
      rw [h'.bytes i o hi' ho hne, if_pos rfl]
      exact paste_congr hbyte
    · obtain ⟨hne,hbyte⟩ := h'.new o (by omega) h2
      refine ⟨hne,hbyte.trans ?_⟩
      obtain ⟨k,rfl⟩ := Nat.exists_eq_add_of_le (Nat.le_of_not_lt hx)
      rw [paste_inside (by omega), paste_inside (by omega)]
  · rcases h.same with hsame | ⟨o,h1,h2,h0⟩
    · rcases h'.same with hsame' | ⟨o,h1,h2,h0⟩
      · exact .inl (hsame'.trans hsame)
      · refine .inr ⟨o,by omega,by rw [List.length_append]; omega,?_⟩
        by_contra hne
        rw [h.frame.there i _ hi (slot_lt (hmax o (by omega) h2)) hne] at h0
        exact hne h0
    · exact .inr ⟨o,h1,by rw [List.length_append]; omega,h0⟩

theorem data_same (h : Sound s) (hi : Live s i) (hl : l < SLOTS) (hind : l ≠ NDIRECT) (hne : ptr s i l ≠ 0)
    (f : Block) : Same s (s.setBlock (ptr s i l) f) := by
  have hdata := (h.owned hi hl hne).1
  refine set_block_same f (fun c hc heq => ?_) (fun j hj hj0 heq => ?_)
  · have := bitmap_low hc
    omega
  · exact hind (h.once hj hi (by decide) hl hj0 heq).2.symm

theorem blocksOf_step {n : ℕ} (off : ℕ) (hn : 0 < n) : blocksOf off n =
    off/BSIZE :: blocksOf (off+min n (BSIZE-off%BSIZE)) (n-min n (BSIZE-off%BSIZE)) := by
  simp only [blocksOf, if_pos hn, BSIZE]
  split
  · have hlast : (off+n-1)/512+1-off/512 = (off+n-1)/512+1-(off/512+1)+1 := by omega
    have hnext : (off+min n (512-off%512))/512 = off/512+1 := by omega
    have hsame : off+min n (512-off%512)+(n-min n (512-off%512))-1 = off+n-1 := by omega
    rw [hlast, List.range'_succ, hnext, hsame]
  · have hone : (off+n-1)/512+1-off/512 = 1 := by omega
    rw [hone]
    rfl

/-- On the bitmap and the pointers the loop of `writei` does what the coarse model of a write
has for it, and it panics where that panics. -/
theorem write_from_shows {r : ℕ} {B : Blocks} (h : Sound s) (hi : Live s i) (hfuel : src.length ≤ r)
    (hmax : off+src.length ≤ MAXFILE*BSIZE) (hB : Shows B s) :
    wp exec (writeFrom i r off src) (fun _ t => ∃ B', B.cover i off src.length = some B' ∧ Shows B' t)
      (fun e => e = .ballocOutOfBlocks ∧ B.cover i off src.length = none) s := by
  induction r generalizing off src s B with
  | zero =>
    cases List.length_eq_zero_iff.mp (Nat.le_zero.mp hfuel)
    exact ⟨B,rfl,hB⟩
  | succ r ih =>
    rw [writeFrom]
    split_ifs with hpos
    · have hbn : off/BSIZE < MAXFILE := Nat.div_lt_of_lt_mul (by rw [Nat.mul_comm]; omega)
      have hspec := wp_and (bmap_shows h hi hbn hB) (bmap_spec h hi hbn (slot_lt hbn) (Nat.le_refl _))
      rw [Blocks.cover, blocksOf_step off hpos, List.foldlM_cons]
      generalize hm : min src.length (BSIZE-off%BSIZE) = m
      have hlen : (src.drop m).length = src.length-m := List.length_drop
      simp only [BSIZE] at hm hmax
      refine wp_seq hspec (fun e he => ⟨he.1.1,by rw [he.1.2]; rfl⟩) ?_
      rintro a t ⟨⟨B',hB',hs⟩,rfl,hne,hg,-⟩
      obtain ⟨ht,hit⟩ := grows_keeps h hi hg
      have hpatch := data_same ht hit (slot_lt hbn) (slot_not_indirect _) hne
        (paste (t.blocks (ptr t i (slotOf (off/BSIZE)))) (off%BSIZE) (src.take m))
      have hfuel' : (src.drop m).length ≤ r := by omega
      have hmax' : off+m+(src.drop m).length ≤ MAXFILE*BSIZE := by
        simp only [BSIZE]
        omega
      rw [hB', ← hlen]
      exact ih (same_sound ht hpatch) ((hpatch.live i).mpr hit) hfuel' hmax' (same_shows hpatch hs)
    · have h0 : src.length = 0 := by omega
      rw [h0]
      exact ⟨B,rfl,hB⟩

theorem read_from_shows {r n : ℕ} {B : Blocks} (h : Sound s) (hi : Live s i) (hfuel : n ≤ r)
    (hmax : off+n ≤ MAXFILE*BSIZE) (hB : Shows B s) :
    wp exec (readFrom i r off n) (fun _ t => ∃ B', B.cover i off n = some B' ∧ Shows B' t)
      (fun e => e = .ballocOutOfBlocks ∧ B.cover i off n = none) s := by
  induction r generalizing off n s B with
  | zero =>
    cases Nat.le_zero.mp hfuel
    exact ⟨B,rfl,hB⟩
  | succ r ih =>
    rw [readFrom]
    split_ifs with hpos
    · have hbn : off/BSIZE < MAXFILE := Nat.div_lt_of_lt_mul (by rw [Nat.mul_comm]; omega)
      have hm : 0 < min n (BSIZE-off%BSIZE) := by
        simp only [BSIZE]
        omega
      have hspec := wp_and (bmap_shows h hi hbn hB) (bmap_spec h hi hbn (slot_lt hbn) (Nat.le_refl _))
      rw [Blocks.cover, blocksOf_step off hpos, List.foldlM_cons]
      refine wp_seq hspec (fun e he => ⟨he.1.1,by rw [he.1.2]; rfl⟩) ?_
      rintro a t ⟨⟨B',hB',hs⟩,-,-,hg,-⟩
      obtain ⟨ht,hit⟩ := grows_keeps h hi hg
      rw [hB', wp_bind, wp_read]
      exact wp_then (ih ht hit (by omega) (by omega) hs) fun _ _ => id
    · cases Nat.eq_zero_of_not_pos hpos
      exact ⟨B,rfl,hB⟩

theorem round_wrote {lim : ℕ} (xs : List Byte) (hi : Live s i) (ht : Sound t) (hmax : off/BSIZE < MAXFILE)
    (hg : Grows i lim s t)
    (hsame : ptr s i (slotOf (off/BSIZE)) ≠ 0 → t = s) (hne : ptr t i (slotOf (off/BSIZE)) ≠ 0)
    (hpos : 0 < xs.length) (hlen : xs.length ≤ BSIZE-off%BSIZE) :
    Wrote i off xs s (t.setBlock (ptr t i (slotOf (off/BSIZE)))
      (paste (t.blocks (ptr t i (slotOf (off/BSIZE)))) (off%BSIZE) xs)) := by
  obtain ⟨hf,hd⟩ := grows_frame hg
  have hit := (frame_live hf).mpr hi
  have hpatch := data_same ht hit (slot_lt hmax) (slot_not_indirect _) hne
    (paste (t.blocks (ptr t i (slotOf (off/BSIZE)))) (off%BSIZE) xs)
  have hwhere : ∀ o, off ≤ o → o < off+xs.length → o/BSIZE = off/BSIZE := fun o h1 h2 => by
    obtain ⟨k,rfl⟩ := Nat.exists_eq_add_of_le h1
    exact (round_block hlen (by omega)).1
  -- seen from the block, the bytes are where they are seen from the file
  have hsee : ∀ {f : Block} {o}, o/BSIZE = off/BSIZE → f (o%BSIZE) = byteAt s i o →
      paste f (off%BSIZE) xs (o%BSIZE) = paste (byteAt s i) off xs o := fun {f o} ho hbyte => by
    have hoff := Nat.div_add_mod off BSIZE
    have hmod := Nat.div_add_mod o BSIZE
    rw [ho] at hmod
    have hshift : paste f (0+off%BSIZE) xs (0+o%BSIZE) =
        paste (byteAt s i) (BSIZE*(off/BSIZE)+off%BSIZE) xs (BSIZE*(off/BSIZE)+o%BSIZE) :=
      paste_shift (by rw [Nat.zero_add, hmod]; exact hbyte)
    rwa [Nat.zero_add, Nat.zero_add, hoff, hmod] at hshift
  generalize ha : ptr t i (slotOf (off/BSIZE)) = a at hne hpatch ⊢
  have hblocks : ∀ j o, Live s j → o/BSIZE < MAXFILE →
      byteAt (t.setBlock a (paste (t.blocks a) (off%BSIZE) xs)) j o =
        update t.blocks a (paste (t.blocks a) (off%BSIZE) xs) (ptr t j (slotOf (o/BSIZE))) (o%BSIZE) :=
    fun j o hj ho => by
      rw [byteAt, hpatch.ptr j _ ((frame_live hf).mpr hj) (slot_lt ho)]
      rfl
  refine ⟨frame_trans hf ?_,fun j o hj ho hold => ?_,fun o h1 h2 => ?_,?_⟩
  · refine ⟨rfl,fun _ _ => rfl,rfl,fun _ _ => rfl,fun c hc => ?_,fun j l hj hl _ => hpatch.ptr j l hj hl,
      fun j l _ hj hl => hpatch.ptr j l hj hl⟩
    have hdata := (ht.owned hit (slot_lt hmax) (ha ▸ hne)).1
    have := meta_low (s := t)
    rw [ha] at hdata
    exact update_of_ne (by omega) _ _
  · have hptr := hf.there j _ hj (slot_lt ho) hold
    have hdata := hd j _ hj (slot_lt ho) (slot_not_indirect _) hold
    rw [hblocks j o hj ho]
    by_cases hja : ptr t j (slotOf (o/BSIZE)) = a
    · obtain ⟨rfl,hslot⟩ := ht.once ((frame_live hf).mpr hj) hit (slot_lt ho) (slot_lt hmax)
        (hptr ▸ hold) (hja.trans ha.symm)
      rw [hja, update_self, if_pos rfl]
      refine hsee (slot_of_inj hslot) ?_
      rw [← hja, hptr, hdata]
      rfl
    · rw [update_of_ne hja, hptr, hdata]
      split_ifs with hji
      · subst hji
        rw [paste_outside]
        · rfl
        · by_contra hin
          exact hja (by rw [hwhere o (by omega) (by omega), ha])
      · rfl
  · have ho := hwhere o h1 h2
    have hslot : ptr t i (slotOf (o/BSIZE)) = a := by rw [ho, ha]
    refine ⟨?_,?_⟩
    · rw [hpatch.ptr i _ hit (by rw [ho]; exact slot_lt hmax), hslot]
      exact hne
    · rw [hblocks i o hi (by rw [ho]; exact hmax), hslot, update_self]
      obtain ⟨k,rfl⟩ := Nat.exists_eq_add_of_le h1
      rw [(round_block hlen (by omega)).2, paste_inside (by omega), paste_inside (by omega)]
  · by_cases hold : ptr s i (slotOf (off/BSIZE)) = 0
    · exact .inr ⟨off,Nat.le_refl _,by omega,hold⟩
    · exact .inl (by rw [hsame hold]; rfl)

theorem write_from_spec {r stop : ℕ} (h : Sound s) (hi : Live s i) (hfuel : src.length ≤ r)
    (hstop : off+src.length ≤ stop) (hmax : stop ≤ MAXFILE*BSIZE) :
    wp exec (writeFrom i r off src)
      (fun _ t => Sound t ∧ Wrote i off src s t ∧ (Room t i (limit stop) ↔ Room s i (limit stop)))
      (Exhausted s i (limit stop)) s := by
  induction r generalizing off src s with
  | zero =>
    cases List.length_eq_zero_iff.mp (Nat.le_zero.mp hfuel)
    exact ⟨h,wrote_nil,Iff.rfl⟩
  | succ r ih =>
    rw [writeFrom]
    split_ifs with hpos
    · have hbound : ∀ o, o < stop → o/BSIZE < MAXFILE := fun o ho =>
        Nat.div_lt_of_lt_mul (by rw [Nat.mul_comm]; omega)
      have hlim := limit_slots hmax
      refine wp_then (bmap_spec h hi (hbound off (by omega)) (slot_lt_limit (by omega)) hlim) ?_
      rintro a t ⟨rfl,hne,hg,hsame⟩
      obtain ⟨ht,hit⟩ := grows_keeps h hi hg
      have hm : min src.length (BSIZE-off%BSIZE) ≤ src.length ∧ 0 < min src.length (BSIZE-off%BSIZE) ∧
          min src.length (BSIZE-off%BSIZE) ≤ BSIZE-off%BSIZE := by
        simp only [BSIZE]
        omega
      simp only [wp_bind, wp_patch]
      generalize min src.length (BSIZE-off%BSIZE) = m at hm ⊢
      have hlen : (src.take m).length = m := by
        rw [List.length_take]
        omega
      have hround := round_wrote (src.take m) hi ht (hbound off (by omega)) hg hsame hne (by omega)
        (by omega)
      have hpatch := data_same ht hit (slot_lt (hbound off (by omega))) (slot_not_indirect _) hne
        (paste (t.blocks (ptr t i (slotOf (off/BSIZE)))) (off%BSIZE) (src.take m))
      have hdrop : (src.drop m).length = src.length-m := List.length_drop
      have hroom := (same_room hit hlim hpatch).trans (grows_room h hi hlim hg)
      refine wp_mono (ih (same_sound ht hpatch) ((hpatch.live i).mpr hit) (by omega) (by omega)) ?_
        (fun _ he => ⟨he.1,fun hr => he.2 (hroom.mpr hr)⟩)
      rintro - v ⟨hv,hw,hrv⟩
      refine ⟨hv,?_,hrv.trans hroom⟩
      have hall := wrote_append (src.drop m) hi (fun o _ ho => hbound o (by omega)) hround
        (by rwa [hlen])
      rwa [List.take_append_drop] at hall
    · cases List.length_eq_zero_iff.mp (by omega : src.length = 0)
      exact ⟨h,wrote_nil,Iff.rfl⟩

/-- The cached inodes agree with the disk, and an inode has a block for each of its bytes. -/
structure Image (s : Store) : Prop where
  sound : Sound s
  agrees : ∀ i, i < s.sb.ninodes → s.mem i = s.dinode i
  size : ∀ i, Live s i → (s.mem i).size ≤ MAXFILE*BSIZE
  full : ∀ i o, Live s i → o < (s.mem i).size → ptr s i (slotOf (o/BSIZE)) ≠ 0

theorem size_bound (h : Image s) (hi : Live s i) (ho : o < (s.mem i).size) : o/BSIZE < MAXFILE := by
  have := h.size i hi
  exact Nat.div_lt_of_lt_mul (by rw [Nat.mul_comm]; omega)

def readArray (xs : List Byte) (off n : ℕ) : Option (List Byte) :=
  if off ≤ xs.length ∧ off+n < WORD then some ((xs.drop off).take n) else none

def writeArray (xs : List Byte) (off : ℕ) (src : List Byte) : Option ℕ × List Byte :=
  if off ≤ xs.length ∧ off+src.length < WORD ∧ off+src.length ≤ MAXFILE*BSIZE then
    (some src.length,xs.take off++src++xs.drop (off+src.length))
  else (none,xs)

theorem bytes_of_length : (bytesOf s i).length = (s.mem i).size := slice_length _ _ _

theorem readi_spec (hsize : (s.mem i).size ≤ MAXFILE*BSIZE) (hdev : (s.mem i).type ≠ T_DEV) (hn : n < WORD)
    (hfull : ∀ o, off ≤ o → o < off+n → o < (s.mem i).size → ptr s i (slotOf (o/BSIZE)) ≠ 0) :
    wp exec (readi i off n) (fun r t => r = readArray (bytesOf s i) off n ∧ s = t) (fun _ => False) s := by
  have hbound : ∀ o, o < (s.mem i).size → o/BSIZE < MAXFILE := fun o ho =>
    Nat.div_lt_of_lt_mul (by rw [Nat.mul_comm]; omega)
  simp only [MAXFILE, BSIZE] at hsize
  unfold readi
  simp only [wp_bind, wp_inode]
  rw [if_neg hdev, readArray, bytes_of_length]
  by_cases hbad : (s.mem i).size < off ∨ (off+n)%WORD < off
  · rw [if_pos hbad, if_neg (by simp only [WORD] at hbad hn ⊢; omega)]
    exact ⟨rfl,rfl⟩
  · have hsum : off+n < WORD := by
      simp only [WORD] at hbad hn ⊢
      omega
    have hok : off ≤ (s.mem i).size ∧ off+n < WORD := ⟨by omega,hsum⟩
    rw [if_neg hbad, if_pos hok, Nat.mod_eq_of_lt hsum]
    have hlen : (if (s.mem i).size < off+n then (s.mem i).size-off else n) = min n ((s.mem i).size-off) := by
      split <;> omega
    rw [hlen, wp_bind]
    refine wp_post (read_from_spec (Nat.le_refl _) fun o h1 h2 => ?_) ?_
    · exact ⟨hbound o (by omega),hfull o h1 (by omega) (by omega)⟩
    · rintro r t ⟨rfl,rfl⟩
      rw [wp_pure]
      rw [bytesOf, slice_drop, slice_take, Nat.zero_add]
      exact ⟨rfl,rfl⟩

/-- What is left to do after the loop of `writei`: the size, and the inode on the disk. -/
structure Finished (i off : ℕ) (src : List Byte) (s t u : Store) : Prop where
  same : Same t u
  kept : ∀ j, j ≠ i → u.mem j = t.mem j
  fields : { u.mem i with size := (t.mem i).size } = t.mem i
  size : (u.mem i).size = max (s.mem i).size (off+src.length)
  data : ∀ c, dataStart s.sb ≤ c → u.blocks c = t.blocks c
  agrees : ∀ j, j < s.sb.ninodes → u.mem j = u.dinode j

section Finish
variable (h : Image s) (hi : Live s i) (ht : Sound t) (hw : Wrote i off src s t)
  (hoff : off ≤ (s.mem i).size) (hmax : off+src.length ≤ MAXFILE*BSIZE) (hf : Finished i off src s t u)
include hw hf

theorem finished_live : Live u j ↔ Live s j := (hf.same.live j).trans (frame_live hw.frame)

theorem finished_type : (u.mem j).type = (s.mem j).type := by
  by_cases hj : j = i
  · rw [hj, ← hw.frame.fields, ← hf.fields]
  · rw [hf.kept j hj, hw.frame.kept j hj]

include ht in
theorem finished_byte (hj : Live s j) (ho : o/BSIZE < MAXFILE) (hne : ptr t j (slotOf (o/BSIZE)) ≠ 0) :
    ptr u j (slotOf (o/BSIZE)) ≠ 0 ∧ byteAt u j o = byteAt t j o := by
  have hjt := (frame_live hw.frame).mpr hj
  have hptr := hf.same.ptr j _ hjt (slot_lt ho)
  refine ⟨hptr ▸ hne,?_⟩
  rw [byteAt, byteAt, hptr, hf.data _ (hw.frame.sb ▸ (ht.owned hjt (slot_lt ho) hne).1)]

include h ht in
theorem finished_other (hj : Live s j) (hji : j ≠ i) (ho : o < (s.mem j).size) :
    ptr u j (slotOf (o/BSIZE)) ≠ 0 ∧ byteAt u j o = byteAt s j o := by
  have hne := h.full j o hj ho
  have hbound := size_bound h hj ho
  obtain ⟨h1,h2⟩ := finished_byte ht hw hf hj hbound
    (by rw [hw.frame.there j _ hj (slot_lt hbound) hne]; exact hne)
  exact ⟨h1,by rw [h2, hw.bytes j o hj hbound hne, if_neg hji]⟩

include h hi ht hoff hmax in
theorem finished_file (ho : o < max (s.mem i).size (off+src.length)) :
    ptr u i (slotOf (o/BSIZE)) ≠ 0 ∧ byteAt u i o = paste (byteAt s i) off src o := by
  by_cases hold : o < (s.mem i).size
  · have hne := h.full i o hi hold
    have hbound := size_bound h hi hold
    obtain ⟨h1,h2⟩ := finished_byte ht hw hf hi hbound
      (by rw [hw.frame.there i _ hi (slot_lt hbound) hne]; exact hne)
    exact ⟨h1,by rw [h2, hw.bytes i o hi hbound hne, if_pos rfl]⟩
  · obtain ⟨hne,hbyte⟩ := hw.new o (by omega) (by omega)
    have hbound : o/BSIZE < MAXFILE := Nat.div_lt_of_lt_mul (by rw [Nat.mul_comm]; omega)
    obtain ⟨h1,h2⟩ := finished_byte ht hw hf hi hbound hne
    exact ⟨h1,h2.trans hbyte⟩

include h hi ht hoff hmax in
theorem finished_image : Image u := by
  refine ⟨same_sound ht hf.same,fun j hj => hf.agrees j ?_,fun j hj => ?_,fun j o hj ho => ?_⟩
  · rwa [hf.same.sb, hw.frame.sb] at hj
  · rw [finished_live hw hf] at hj
    by_cases hji : j = i
    · subst hji
      have := h.size j hi
      rw [hf.size]
      omega
    · rw [hf.kept j hji, hw.frame.kept j hji]
      exact h.size j hj
  · rw [finished_live hw hf] at hj
    by_cases hji : j = i
    · subst hji
      rw [hf.size] at ho
      exact (finished_file h hi ht hw hoff hmax hf ho).1
    · rw [hf.kept j hji, hw.frame.kept j hji] at ho
      exact (finished_other h ht hw hf hj hji ho).1

include h hi ht hoff hmax in
theorem finished_bytes : bytesOf u i = (bytesOf s i).take off++src++(bytesOf s i).drop (off+src.length) := by
  rw [bytesOf, bytesOf, hf.size, ← slice_paste _ hoff]
  refine slice_congr fun o ho => ?_
  rw [Nat.zero_add]
  exact (finished_file h hi ht hw hoff hmax hf ho).2

include h ht in
theorem finished_others (hj : Live s j) (hji : j ≠ i) : bytesOf u j = bytesOf s j := by
  rw [bytesOf, bytesOf, hf.kept j hji, hw.frame.kept j hji]
  refine slice_congr fun o ho => ?_
  rw [Nat.zero_add]
  exact (finished_other h ht hw hf hj hji ho).2

end Finish

theorem unchanged_finished (h : Image s) (hi : Live s i) (hw : Wrote i off src s t)
    (hshort : src.length = 0 ∨ off+src.length ≤ (s.mem i).size) (hoff : off ≤ (s.mem i).size) :
    Finished i off src s t t := by
  have hmem : t.mem = s.mem := by
    rcases hw.same with hsame | ⟨o,h1,h2,h0⟩
    · exact hsame
    · exact absurd h0 (h.full i o hi (by omega))
  refine ⟨⟨rfl,fun _ => Iff.rfl,fun _ _ _ _ => rfl,fun _ _ => rfl⟩,fun _ _ => rfl,rfl,?_,fun _ _ => rfl,
    fun j hj => ?_⟩
  · rw [hmem]
    omega
  · have hblock := hw.frame.low _ (h.sound.inodes j hj)
    rw [hmem, Store.dinode, hw.frame.sb, hblock]
    exact h.agrees j hj

theorem wrote_typed (h : Image s) (hi : Live s i) (ht : Sound t) (hw : Wrote i off src s t)
    (hmax : off+src.length ≤ MAXFILE*BSIZE) : Typed { t.mem i with size := off+src.length } := by
  have hold : Typed (s.mem i) := h.agrees i hi.1 ▸ read_typed _ _
  have hrest : ∀ l, NDIRECT < l → (t.mem i).addrs l = 0 := fun l hl =>
    (hw.frame.rest l hl).trans (hold.rest l hl)
  rw [← hw.frame.fields] at hold
  refine ⟨hold.type,hold.major,hold.minor,hold.nlink,?_,fun k hk => ?_,hrest⟩
  · simp only [MAXFILE, BSIZE] at hmax ⊢
    omega
  · have hk' : k < SLOTS := Nat.lt_of_le_of_lt hk (by decide)
    show (t.mem i).addrs k < _
    rw [← ptr_direct hk]
    by_cases h0 : ptr t i k = 0
    · rw [h0]
      decide
    · exact Nat.lt_of_lt_of_le (ht.owned ((frame_live hw.frame).mpr hi) hk' h0).2.1 ht.small

theorem extended_finished (h : Image s) (hi : Live s i) (ht : Sound t) (hw : Wrote i off src s t)
    (hlong : (s.mem i).size < off+src.length) (hmax : off+src.length ≤ MAXFILE*BSIZE) :
    Finished i off src s t (updated (t.setMem i { t.mem i with size := off+src.length }) i) := by
  generalize hv : t.setMem i { t.mem i with size := off+src.length } = v
  have hmem : v.mem i = { t.mem i with size := off+src.length } := by
    rw [← hv]
    exact update_self _ _ _
  have hother : ∀ j, j ≠ i → v.mem j = t.mem j := fun j hj => by
    rw [← hv]
    exact update_of_ne hj _ _
  have hsb : v.sb = t.sb := by rw [← hv]; rfl
  have hblocks : v.blocks = t.blocks := by rw [← hv]; rfl
  have haddrs : ∀ j, (v.mem j).addrs = (t.mem j).addrs := fun j => by
    by_cases hj : j = i
    · rw [hj, hmem]
    · rw [hother j hj]
  have hsame : Same t v := by
    refine ⟨hsb,fun j => ?_,fun j l _ _ => ?_,fun c _ => ?_⟩
    · rw [Live, Live, hsb]
      by_cases hj : j = i
      · rw [hj, hmem]
      · rw [hother j hj]
    · rw [ptr, ptr, haddrs, hblocks]
    · rw [inUse, inUse, hsb, hblocks]
  have hiv : i < v.sb.ninodes := by
    rw [hsb, hw.frame.sb]
    exact hi.1
  have hup := updated_same (same_sound ht hsame) hiv
  have htyped : Typed (v.mem i) := by
    rw [hmem]
    exact wrote_typed h hi ht hw hmax
  refine ⟨⟨hup.sb.trans hsame.sb,fun j => (hup.live j).trans (hsame.live j),fun j l hj hl => ?_,
    fun c hc => ?_⟩,
    hother,?_,?_,fun c hc => ?_,fun j hj => ?_⟩
  · rw [hup.ptr j l ((hsame.live j).mpr hj) hl, hsame.ptr j l hj hl]
  · rw [hup.bits c (hsb ▸ hc), hsame.bits c hc]
  · have hsame : (updated v i).mem i = v.mem i := rfl
    rw [hsame, hmem]
  · have hsame : (updated v i).mem i = v.mem i := rfl
    rw [hsame, hmem]
    exact (Nat.max_eq_right (Nat.le_of_lt hlong)).symm
  · have hlow := h.sound.inodes i hi.1
    have := meta_low (s := s)
    have hne : c ≠ IBLOCK i s.sb := by omega
    simp only [updated, Store.setBlock, hsb, hw.frame.sb, hblocks, update_of_ne hne]
  · by_cases hji : j = i
    · subst hji
      exact (updated_dinode htyped).symm
    · rw [updated_other hji]
      show v.mem j = v.dinode j
      rw [hother j hji, hw.frame.kept j hji, Store.dinode, hblocks, hsb, hw.frame.sb,
        hw.frame.low _ (h.sound.inodes j hj)]
      exact h.agrees j hj

structure Written (i off : ℕ) (src : List Byte) (s u : Store) : Prop where
  image : Image u
  live : ∀ j, Live u j ↔ Live s j
  type : ∀ j, (u.mem j).type = (s.mem j).type
  file : bytesOf u i = (writeArray (bytesOf s i) off src).2
  others : ∀ j, Live s j → j ≠ i → bytesOf u j = bytesOf s j

theorem writei_refused (hsize : (s.mem i).size ≤ MAXFILE*BSIZE) (hn : src.length < WORD)
    (hno : ¬(off ≤ (s.mem i).size ∧ off+src.length ≤ MAXFILE*BSIZE)) :
    run exec (writei i off src) s = .ok (none,s) := by
  show run exec (if (s.mem i).type = T_DEV then pure none else _) s = _
  split
  · rfl
  · split
    · rfl
    · rename_i hgap
      simp only [MAXFILE, BSIZE] at hsize hno
      rw [if_pos (by simp only [WORD, MAXFILE, BSIZE] at hn hgap ⊢; omega)]
      rfl

theorem writei_fits {stop : ℕ} (h : Image s) (hi : Live s i) (hdev : (s.mem i).type ≠ T_DEV)
    (hoff : off ≤ (s.mem i).size) (hstop : off+src.length ≤ stop) (hmax : stop ≤ MAXFILE*BSIZE) :
    wp exec (writei i off src) (fun r u => r = some src.length ∧ Written i off src s u ∧
      (Room u i (limit stop) ↔ Room s i (limit stop))) (Exhausted s i (limit stop)) s := by
  have hsum : off+src.length < WORD := by
    simp only [MAXFILE, BSIZE, WORD] at hmax ⊢
    omega
  have hfit : off+src.length ≤ MAXFILE*BSIZE := Nat.le_trans hstop hmax
  unfold writei
  simp only [wp_bind, wp_inode]
  rw [if_neg hdev, Nat.mod_eq_of_lt hsum, if_neg (by omega), if_neg (by omega), wp_bind]
  refine wp_post (write_from_spec h.sound hi (Nat.le_refl _) hstop hmax) ?_
  rintro - t ⟨ht,hw,hr⟩
  have hdone : ∀ u, Finished i off src s t u →
      Written i off src s u ∧ (Room u i (limit stop) ↔ Room s i (limit stop)) := fun u hf => by
    refine ⟨⟨finished_image h hi ht hw hoff hfit hf,fun j => finished_live hw hf,
      fun j => finished_type hw hf,?_,fun j hj hji => finished_others h ht hw hf hj hji⟩,
      (same_room ((frame_live hw.frame).mpr hi) (limit_slots hmax) hf.same).trans hr⟩
    rw [writeArray, if_pos ⟨by rwa [bytes_of_length],hsum,hfit⟩]
    exact finished_bytes h hi ht hw hoff hfit hf
  have hold : (t.mem i).size = (s.mem i).size := by rw [← hw.frame.fields]
  unfold extend
  simp only [wp_bind, wp_inode, hold]
  split_ifs with hlong
  · simp only [wp_bind, wp_set_size, wp_iupdate, wp_pure]
    exact ⟨trivial,hdone _ (extended_finished h hi ht hw hlong.2 hfit)⟩
  · simp only [wp_pure]
    exact ⟨trivial,hdone _ (unchanged_finished h hi hw (by omega) hoff)⟩

theorem writei_spec (h : Image s) (hi : Live s i) (hdev : (s.mem i).type ≠ T_DEV) (hn : src.length < WORD)
    (hr : off ≤ (s.mem i).size → off+src.length ≤ MAXFILE*BSIZE → Room s i (limit (off+src.length))) :
    wp exec (writei i off src) (fun r u => r = (writeArray (bytesOf s i) off src).1 ∧ Written i off src s u)
      (fun _ => False) s := by
  by_cases hok : off ≤ (s.mem i).size ∧ off+src.length ≤ MAXFILE*BSIZE
  · have hyes : (writeArray (bytesOf s i) off src).1 = some src.length := by
      have hsum : off+src.length < WORD := by
        have := hok.2
        simp only [MAXFILE, BSIZE, WORD] at this ⊢
        omega
      rw [writeArray, if_pos ⟨by rw [bytes_of_length]; exact hok.1,hsum,hok.2⟩]
    refine wp_mono (writei_fits h hi hdev hok.1 (Nat.le_refl _) hok.2) (fun r u hu => ?_)
      (fun _ he => he.2 (hr hok.1 hok.2))
    exact ⟨hu.1.trans hyes.symm,hu.2.1⟩
  · have hno : writeArray (bytesOf s i) off src = (none,bytesOf s i) := by
      rw [writeArray, if_neg]
      rw [bytes_of_length]
      exact fun hand => hok ⟨hand.1,hand.2.2⟩
    rw [wp, writei_refused (h.size i hi) hn hok]
    exact ⟨by rw [hno],h,fun _ => Iff.rfl,fun _ => rfl,by rw [hno],fun _ _ _ => rfl⟩

inductive Op where
  | read (i off n : ℕ)
  | write (i off : ℕ) (src : List Byte)

inductive Answer where
  | bytes (r : Option (List Byte))
  | count (r : Option ℕ)
  deriving DecidableEq

structure State where
  store : Store
  stopped : Option Panic

def Op.inum : Op → ℕ
  | .read i _ _ | .write i _ _ => i

def Op.code : Op → Prog Answer
  | .read i off n => do
    let r ← readi i off n
    pure (.bytes r)
  | .write i off src => do
    let r ← writei i off src
    pure (.count r)

def step (s : State) (op : Op) : Option (State × List (Op × Answer)) :=
  if s.stopped = none ∧ op.inum < s.store.sb.ninodes ∧ (s.store.mem op.inum).type ≠ 0 ∧
      (s.store.mem op.inum).type ≠ T_DEV then
    match run BlockCode.exec op.code s.store with
    | .ok (r,t) => some ({ s with store := t },[(op,r)])
    | .error e => some ({ s with stopped := some e },[])
  else none

def inodes (s : Store) : System State Op (Op × Answer) := ⟨⟨s,none⟩,step⟩

/-- The arguments are words, and the disk has the blocks that a write needs. -/
def Enough (s : State) : Op → Prop
  | .read _ off n => off < WORD ∧ n < WORD
  | .write i off src => off < WORD ∧ src.length < WORD ∧
    (off ≤ (s.store.mem i).size → off+src.length ≤ MAXFILE*BSIZE →
      Room s.store i (limit (off+src.length)))

instance (s : State) : (op : Op) → Decidable (Enough s op)
  | .read _ off n => inferInstanceAs (Decidable (off < WORD ∧ n < WORD))
  | .write i off src => inferInstanceAs (Decidable (off < WORD ∧ src.length < WORD ∧
      (off ≤ (s.store.mem i).size → off+src.length ≤ MAXFILE*BSIZE →
        Room s.store i (limit (off+src.length)))))

def arrayStep (f : ℕ → List Byte) : Op → Option ((ℕ → List Byte) × List (Op × Answer))
  | .read i off n => some (f,[(.read i off n,.bytes (readArray (f i) off n))])
  | .write i off src => some (update f i (writeArray (f i) off src).2,
      [(.write i off src,.count (writeArray (f i) off src).1)])

def arrays (f : ℕ → List Byte) : System (ℕ → List Byte) Op (Op × Answer) := ⟨f,arrayStep⟩

structure Shows (s : State) (f : ℕ → List Byte) : Prop where
  stopped : s.stopped = none
  image : Image s.store
  bytes : ∀ i, Live s.store i → bytesOf s.store i = f i

theorem step_shows {s s' : State} {f : ℕ → List Byte} {op : Op} {out : List (Op × Answer)} (h : Shows s f)
    (hg : Enough s op) (hs : step s op = some (s',out)) :
    ∃ f', arrayStep f op = some (f',out) ∧ Shows s' f' := by
  unfold step at hs
  split at hs
  · rename_i hmay
    obtain ⟨hstop,hlow,hlive,hdev⟩ := hmay
    cases op with
    | read i off n =>
      have hspec : wp BlockCode.exec (Op.read i off n).code (fun r t =>
          r = .bytes (readArray (bytesOf s.store i) off n) ∧ s.store = t) (fun _ => False) s.store := by
        rw [Op.code, wp_bind]
        refine wp_post (readi_spec (h.image.size i ⟨hlow,hlive⟩) hdev hg.2
          fun o _ _ ho => h.image.full i o ⟨hlow,hlive⟩ ho) ?_
        rintro r t ⟨rfl,rfl⟩
        exact ⟨rfl,rfl⟩
      rw [wp] at hspec
      split at hs <;> rename_i hrun <;> rw [hrun] at hspec
      · cases hs
        obtain ⟨rfl,rfl⟩ := hspec
        exact ⟨f,by rw [arrayStep, h.bytes i ⟨hlow,hlive⟩],h⟩
      · exact hspec.elim
    | write i off src =>
      have hspec : wp BlockCode.exec (Op.write i off src).code (fun r t =>
          r = .count (writeArray (bytesOf s.store i) off src).1 ∧ Written i off src s.store t)
          (fun _ => False) s.store := by
        rw [Op.code, wp_bind]
        refine wp_post (writei_spec h.image ⟨hlow,hlive⟩ hdev hg.2.1 hg.2.2) ?_
        rintro r t ⟨rfl,hw⟩
        exact ⟨rfl,hw⟩
      rw [wp] at hspec
      split at hs <;> rename_i hrun <;> rw [hrun] at hspec
      · cases hs
        obtain ⟨rfl,hw⟩ := hspec
        refine ⟨_,by rw [arrayStep, h.bytes i ⟨hlow,hlive⟩],hstop,hw.image,fun j hj => ?_⟩
        rw [hw.live] at hj
        by_cases hji : j = i
        · rw [hji, hw.file, update_self, h.bytes i ⟨hlow,hlive⟩]
        · rw [hw.others j hj hji, update_of_ne hji, h.bytes j hj]
      · exact hspec.elim
  · cases hs

/-- On an image without holes every sequence of `readi` and `writei` answers as arrays of
bytes do, and leaves the files as the arrays are. -/
theorem inodes_are_arrays {s0 : Store} (h0 : Image s0) {tr : List (Op × Answer)} {s : State}
    (h : Run (inodes s0) Enough tr s) :
    s.stopped = none ∧ Image s.store ∧ ∃ f, Run (arrays (bytesOf s0)) (fun _ _ => True) tr f ∧
      ∀ i, Live s.store i → bytesOf s.store i = f i := by
  obtain ⟨f,hf,hs⟩ := run_simulation (T := arrays (bytesOf s0)) (H := fun _ _ => True) Shows some
    ⟨rfl,h0,fun _ _ => rfl⟩ (fun s f _ op s' out _ hsf hg hstep => by
      obtain ⟨f',hf,hsf'⟩ := step_shows hsf hg hstep
      exact .inl ⟨op,f',trivial,by rw [List.filterMap_some]; exact hf,hsf'⟩) h
  rw [List.filterMap_some] at hf
  exact ⟨hs.stopped,hs.image,f,hf,hs.bytes⟩

def smallBlocks : ℕ → Block
  | 2 => fun o => if o = 64 then 2 else 0
  | 3 => fun o => if o = 0 then 15 else 0
  | _ => fun _ => 0

def smallSb : Superblock := ⟨16,12,8,0,2,2,3⟩

def smallDisk : Store := ⟨smallSb,smallBlocks,fun i => readDinode (smallBlocks (IBLOCK i smallSb)) (i%IPB)⟩

theorem small_image : Image smallDisk := by
  have hlive : ∀ i, Live smallDisk i → i = 1 := by
    rintro i ⟨hi,htype⟩
    by_contra hne
    refine htype ?_
    revert i
    decide
  have hptr : ∀ k, k < SLOTS → ptr smallDisk 1 k = 0 := by decide +kernel
  refine ⟨⟨by decide,by decide,by decide,by decide,fun {i k} hi hk hne => ?_,
    fun {i j k l} hi hj hk hl hne => ?_⟩,
    fun i _ => rfl,fun i hi => ?_,fun i o hi ho => ?_⟩
  · cases hlive i hi
    exact absurd (hptr k hk) hne
  · cases hlive i hi
    exact absurd (hptr k hk) hne
  · cases hlive i hi
    decide
  · cases hlive i hi
    have hsize : (smallDisk.mem 1).size = 0 := by decide
    exact absurd ho (by omega)

def wroteTwo (s : State) (tr : List (Op × Answer)) : Bool :=
  (tr.map Prod.snd == [.count (some 2), .count none, .bytes (some [8])]) && bytesOf s.store 1 == [7, 8]

theorem inodes_are_arrays_small :
    ∃ tr s, Run (inodes smallDisk) Enough tr s ∧ wroteTwo s tr = true ∧ s.stopped = none := by
  obtain ⟨tr,s,hr,ht⟩ := exec_reaches (S := inodes smallDisk) (G := Enough)
    [.write 1 0 [7, 8], .write 1 3 [9], .read 1 1 5] (wroteTwo · ·) (by decide +kernel)
  exact ⟨tr,s,hr,ht,(inodes_are_arrays small_image hr).1⟩

end Xv6.BlockFiles

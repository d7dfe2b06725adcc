import Xv6.BlockFiles
import Xv6.MkfsCode
import Xv6.PathTree

/-!
# The image of mkfs, read by the kernel

An image in the making is seen as a store of the kernel, whose bitmap has the bits of the
blocks that mkfs has given out. Seen so, `iappend` writes to the end of a file as `writei`
would, so the invariants of files carry over. At the end the bitmap is on the image, and
the kernel finds each name and reads each file.
-/

set_option autoImplicit false

namespace Xv6.MkfsImage
open CommandTree ByteFields BlockCode BlockStore BlockFiles MkfsCode
open InodeCode (BSIZE MAXFILE WORD DIRSIZ DIRENT ROOTINO T_DIR T_FILE T_DEV Byte Name Dirent strncpy namecmp)
open FileCalls (dot dotdot)
open Function

theorem xint_eq {x : ℕ} (h : x < 256^4) : xint x = x := by
  rw [xint, field_of_bytes (v := x) (fun j _ => by rw [Nat.zero_add]), Nat.mod_eq_of_lt h]

theorem xshort_eq {x : ℕ} (h : x < 256^2) : xshort x = x := by
  rw [xshort, field_of_bytes (v := x) (fun j _ => by rw [Nat.zero_add]), Nat.mod_eq_of_lt h]

theorem bitmap_bits (n b : ℕ) : isSet (bitmap n) b = decide (b < n) := by
  induction n with
  | zero =>
    rw [isSet_eq]
    simp [bitmap]
  | succ n ih =>
    rw [bitmap, List.range_succ, List.foldl_append, List.foldl_cons, List.foldl_nil, isSet_setBit]
    rw [bitmap] at ih
    rw [ih, Bool.eq_iff_iff]
    simp only [Bool.or_eq_true, decide_eq_true_eq]
    omega

abbrev ROOM : ℕ := ninodeblocks*IPB

def viewSb : Superblock := { sb with ninodes := ROOM }

def disk (h : Host) (i : ℕ) : Dinode :=
  if i < ROOM then readDinode (h.image (IBLOCK i viewSb)) (i%IPB) else ⟨0,0,0,0,0,fun _ => 0⟩

def shown (h : Host) : Store where
  sb := viewSb
  blocks := update h.image viewSb.bmapstart (bitmap h.freeblock)
  mem := disk h

def view (h : Host) (i : ℕ) (d : Dinode) : Store := (shown h).setMem i d

theorem view_start : dataStart viewSb = nmeta := by decide

theorem view_bitmap : viewSb.bmapstart+1 = nmeta := by decide

theorem iblock_lt {i : ℕ} (h : i < ROOM) : IBLOCK i viewSb < viewSb.bmapstart := by
  have hstart : viewSb.inodestart = 32 := by decide
  have hmap : viewSb.bmapstart = 58 := by decide
  simp only [IBLOCK, hstart, hmap, ROOM, ninodeblocks, NINODES, IPB] at h ⊢
  omega

variable {h h' : Host} {i j k b c n off : ℕ} {d d' : Dinode} {p : List Byte}

theorem view_mem : (view h i d).mem i = d := update_self _ _ _

theorem view_disk : view h i (disk h i) = shown h := by
  rw [view, Store.setMem]
  simp only [shown, update_eq_self]

theorem view_use (hb : b < FSSIZE) : inUse (view h i d) b = decide (b < h.freeblock) := by
  have hmap : BBLOCK b viewSb = viewSb.bmapstart := by
    have : b/BPB = 0 := Nat.div_eq_of_lt (Nat.lt_trans hb (by decide))
    rw [BBLOCK, this, Nat.zero_add]
  have hmod : b%BPB = b := Nat.mod_eq_of_lt (Nat.lt_trans hb (by decide))
  rw [inUse]
  show isSet (update h.image viewSb.bmapstart (bitmap h.freeblock) (BBLOCK b viewSb)) _ = _
  rw [hmap, update_self, hmod, bitmap_bits]

structure Fit (h : Host) : Prop where
  zeros : ∀ b, h.freeblock ≤ b → b < FSSIZE → h.image b = fun _ => 0
  sectors : h.sectors = FSSIZE
  low : nmeta ≤ h.freeblock
  high : h.freeblock ≤ FSSIZE

def Filled (s : Store) (i n : ℕ) : Prop := ∀ k, k < SLOTS → (ptr s i k ≠ 0 ↔ k < n)

theorem next_fresh (hf : Fit h) (hfree : h.freeblock < FSSIZE) :
    Fresh (view h i d) (view { h with freeblock := h.freeblock+1 } i d) h.freeblock := by
  have hmap := view_bitmap
  have hlow := hf.low
  have hne : h.freeblock ≠ viewSb.bmapstart := by omega
  refine ⟨rfl,rfl,hfree,?_,?_,fun c _ hplace => ?_,fun c hc => ?_⟩
  · rw [view_use hfree, decide_eq_false (Nat.lt_irrefl _)]
  · show update h.image _ _ h.freeblock = _
    rw [update_of_ne hne]
    exact hf.zeros _ (Nat.le_refl _) hfree
  · have hmap : c ≠ viewSb.bmapstart := by
      have hplace : c < viewSb.bmapstart ∨ dataStart viewSb ≤ c := hplace
      rw [view_start] at hplace
      omega
    show update h.image _ _ c = update h.image _ _ c
    rw [update_of_ne hmap, update_of_ne hmap]
  · rw [view_use hc, view_use hc, Bool.eq_iff_iff]
    simp only [Bool.or_eq_true, decide_eq_true_eq]
    omega

theorem view_block (hb : nmeta ≤ b) : (view h i d).blocks b = h.image b := by
  have := view_bitmap
  exact update_of_ne (by omega) _ _

theorem view_wsect {buf : Block} (hb : nmeta ≤ b) :
    view (wsect h b buf) i d = (view h i d).setBlock b buf := by
  have hmap := view_bitmap
  have hne : b ≠ viewSb.bmapstart := by omega
  have hdisk : disk (wsect h b buf) = disk h := by
    funext j
    unfold disk
    split_ifs with hj
    · have hlow : IBLOCK j viewSb ≠ b := by
        have := iblock_lt hj
        omega
      rw [wsect]
      simp only [update_of_ne hlow]
    · rfl
  simp only [view, shown, Store.setMem, Store.setBlock, hdisk]
  simp only [wsect, Function.update_comm hne]

structure Mid (h : Host) (i : ℕ) (d : Dinode) (n : ℕ) : Prop where
  fit : Fit h
  sound : Sound (view h i d)
  live : Live (view h i d) i
  filled : Filled (view h i d) i n

theorem addr_word (hm : Mid h i d n) (hk : k ≤ NDIRECT) :
    d.addrs k = ptr (view h i d) i k ∧ xint (d.addrs k) = d.addrs k := by
  have hptr : d.addrs k = ptr (view h i d) i k := by
    rw [ptr_direct hk, view_mem]
  refine ⟨hptr,xint_eq ?_⟩
  rw [hptr]
  by_cases h0 : ptr (view h i d) i k = 0
  · rw [h0]
    decide
  · have := (hm.sound.owned hm.live (Nat.lt_of_le_of_lt hk (by decide)) h0).2.1
    exact Nat.lt_of_lt_of_le this hm.sound.small

theorem fit_next (hf : Fit h) (hfree : h.freeblock < FSSIZE) :
    Fit { h with freeblock := h.freeblock+1 } := by
  have := hf.low
  exact ⟨fun b hb => hf.zeros b (Nat.le_of_succ_le hb),hf.sectors,Nat.le_succ_of_le hf.low,hfree⟩

theorem gains_filled {s u : Store} (hi : Live s i) (hs : Sound s) (hg : Gains s u i n b)
    (hfill : Filled s i n) :
    Filled u i (n+1) := by
  intro k hk
  rw [hg.ptr i k hi hk]
  by_cases hkn : k = n
  · rw [if_pos ⟨rfl,hkn⟩]
    exact iff_of_true (data_pos hs hg.free) (by omega)
  · rw [if_neg (fun hand => hkn hand.2), hfill k hk]
    omega

theorem din_block_next (hm : Mid h i d n) (hn : n ≤ NDIRECT) (hfree : h.freeblock < FSSIZE) :
    dinBlock h d n = ({ d with addrs := update d.addrs n h.freeblock },
      { h with freeblock := h.freeblock+1 }) ∧
    Gains (view h i d) (view { h with freeblock := h.freeblock+1 } i
      { d with addrs := update d.addrs n h.freeblock }) i n h.freeblock := by
  have hempty : ptr (view h i d) i n = 0 := by
    by_contra hne
    exact Nat.lt_irrefl n ((hm.filled n (Nat.lt_of_le_of_lt hn (by decide))).mp hne)
  obtain ⟨h1,h2⟩ := addr_word hm hn
  have hword : xint h.freeblock = h.freeblock := xint_eq (Nat.lt_trans hfree (by decide))
  refine ⟨?_,?_⟩
  · rw [dinBlock, h2, h1, if_pos hempty, newBlock, hword]
  · have hg := assign_gains hm.sound hm.live hn hempty (next_fresh hm.fit hfree)
    rw [view_mem] at hg
    have hview : (view { h with freeblock := h.freeblock+1 } i d).setMem i
        { d with addrs := update d.addrs n h.freeblock } =
        view { h with freeblock := h.freeblock+1 } i { d with addrs := update d.addrs n h.freeblock } := by
      simp only [view, Store.setMem, update_idem]
    rwa [hview] at hg

theorem din_block_there (hm : Mid h i d n) (hk : k ≤ NDIRECT) (hkn : k < n) : dinBlock h d k = (d,h) := by
  obtain ⟨h1,h2⟩ := addr_word hm hk
  rw [dinBlock, h2, h1, if_neg ((hm.filled k (Nat.lt_of_le_of_lt hk (by decide))).mpr hkn)]

theorem gains_mid (hm : Mid h i d n) (hf : Fit h') (hg : Gains (view h i d) (view h' i d') i n b) :
    Mid h' i d' (n+1) :=
  ⟨hf,gains_sound hm.sound hg,(gains_live hg).mpr hm.live,gains_filled hm.live hm.sound hg hm.filled⟩

structure Found (h : Host) (i : ℕ) (d : Dinode) (k n m x : ℕ) (h' : Host) (d' : Dinode) : Prop where
  grows : Grows i SLOTS (view h i d) (view h' i d')
  mid : Mid h' i d' m
  here : ptr (view h' i d') i k = x
  same : k < n → view h' i d' = view h i d
  block : h'.freeblock+n = h.freeblock+m
  inode : h'.freeinode = h.freeinode

theorem din_block_spec (hm : Mid h i d n) (hk : k ≤ NDIRECT) (hkn : k ≤ n)
    (hfree : k = n → h.freeblock < FSSIZE) :
    ∃ d' h', dinBlock h d k = (d',h') ∧ Found h i d k n (max n (k+1)) (xint (d'.addrs k)) h' d' := by
  rcases Nat.lt_or_eq_of_le hkn with hlt | rfl
  · obtain ⟨h1,h2⟩ := addr_word hm hk
    rw [Nat.max_eq_left hlt]
    exact ⟨d,h,din_block_there hm hk hlt,.refl,hm,by rw [h2, h1],fun _ => rfl,rfl,rfl⟩
  · obtain ⟨heq,hg⟩ := din_block_next hm hk (hfree rfl)
    have hmid := gains_mid hm (fit_next hm.fit (hfree rfl)) hg
    obtain ⟨h1,h2⟩ := addr_word hmid hk
    rw [Nat.max_eq_right (Nat.le_succ _)]
    refine ⟨_,_,heq,.tail .refl hg.slot hg,hmid,by rw [h2, h1],fun hlt => absurd hlt (Nat.lt_irrefl _),?_,rfl⟩
    simp only
    omega

theorem fit_wsect {buf : Block} (hf : Fit h) (hb : b < h.freeblock) : Fit (wsect h b buf) := by
  have hhigh := hf.high
  refine ⟨fun c hc hsize => ?_,?_,hf.low,hf.high⟩
  · have hne : c ≠ b := by
      have : h.freeblock ≤ c := hc
      omega
    simp only [wsect, update_of_ne hne]
    exact hf.zeros c hc hsize
  · simp only [wsect, hf.sectors]
    omega

theorem ptr_sector (hm : Mid h i d n) (hk : k < SLOTS) (hkn : k < n) :
    nmeta ≤ ptr (view h i d) i k ∧ ptr (view h i d) i k < h.freeblock ∧
      rsect h (ptr (view h i d) i k) = some ((view h i d).blocks (ptr (view h i d) i k)) := by
  obtain ⟨h1,h2,h3⟩ := hm.sound.owned hm.live hk ((hm.filled k hk).mpr hkn)
  have hsize : ptr (view h i d) i k < FSSIZE := h2
  rw [view_use hsize, decide_eq_true_eq] at h3
  have hlow : nmeta ≤ ptr (view h i d) i k := view_start ▸ h1
  exact ⟨hlow,h3,by rw [rsect, hm.fit.sectors, if_pos hsize, view_block hlow]⟩

theorem entry_block_spec {fbn : ℕ} (hm : Mid h i d n) (hfbn : NDIRECT ≤ fbn) (hmax : fbn < MAXFILE)
    (hkn : fbn+1 ≤ n) (hfree : fbn+1 = n → h.freeblock < FSSIZE) :
    ∃ x h', entryBlock h d (fbn-NDIRECT) = some (x,h') ∧
      Found h i d (fbn+1) n (max n (fbn+2)) x h' d := by
  have hslot : fbn+1 < SLOTS := by
    simp only [MAXFILE, SLOTS] at hmax ⊢
    omega
  obtain ⟨hlow,hlt,hread⟩ := ptr_sector hm (by decide : NDIRECT < SLOTS) (by omega)
  obtain ⟨h1,h2⟩ := addr_word hm (Nat.le_refl NDIRECT)
  have hind := (hm.filled NDIRECT (by decide)).mpr (by omega)
  have hentry := ptr_entry (s := view h i d) (i := i) hfbn hind
  have hword : xint (ptr (view h i d) i (fbn+1)) = ptr (view h i d) i (fbn+1) := by
    rw [← hentry]
    exact xint_eq (field_lt _ _ _)
  rcases Nat.lt_or_eq_of_le hkn with hsome | rfl
  · have hne := (hm.filled _ hslot).mpr hsome
    rw [Nat.max_eq_left hsome]
    refine ⟨ptr (view h i d) i (fbn+1),h,?_,.refl,hm,rfl,fun _ => rfl,rfl,rfl⟩
    rw [entryBlock, h2, h1, hread]
    simp only [Option.bind_eq_bind, Option.bind_some, hentry]
    rw [if_neg hne, hword]
  · have hempty : ptr (view h i d) i (fbn+1) = 0 := by
      by_contra hne
      exact Nat.lt_irrefl _ ((hm.filled _ hslot).mp hne)
    have hnew : xint h.freeblock = h.freeblock := xint_eq (Nat.lt_trans (hfree rfl) (by decide))
    have hg := patch_gains hm.sound hm.live (Nat.lt_succ_of_le hfbn) hslot hind hempty
      (next_fresh hm.fit (hfree rfl))
    rw [entry_place, view_block hlow, ← view_block (h := h) (i := i) (d := d) hlow] at hg
    rw [Nat.max_eq_right (Nat.le_succ _)]
    generalize hbuf : paste ((view h i d).blocks (ptr (view h i d) i NDIRECT)) (4*(fbn-NDIRECT))
      (bytes 4 h.freeblock) = buf at hg
    rw [← view_wsect hlow] at hg
    refine ⟨h.freeblock,_,?_,.tail .refl hslot hg,
      gains_mid hm (fit_wsect (fit_next hm.fit (hfree rfl)) ?_) hg,
      ?_,fun hlt => absurd hlt (Nat.lt_irrefl _),?_,rfl⟩
    · rw [entryBlock, h2, h1, hread]
      simp only [Option.bind_eq_bind, Option.bind_some, hentry]
      rw [if_pos hempty]
      simp only [newBlock, hnew, hbuf]
      rw [← hbuf, field_paste_same (Nat.lt_trans (hfree rfl) (by decide)), hnew]
    · exact Nat.lt_succ_of_lt hlt
    · rw [hg.ptr i _ hm.live hslot, if_pos ⟨rfl,rfl⟩]
    · simp only [wsect]
      omega

theorem limit_cases (off : ℕ) :
    (off%BSIZE ≠ 0 ∧ limit off = slotOf (off/BSIZE)+1 ∧ limit (off+1) = limit off) ∨
    (off/BSIZE = NDIRECT ∧ limit off = NDIRECT ∧ limit (off+1) = NDIRECT+2) ∨
    (off/BSIZE ≠ NDIRECT ∧ limit off = slotOf (off/BSIZE) ∧ limit (off+1) = slotOf (off/BSIZE)+1) := by
  have hnow : blocksFor off = if off%BSIZE = 0 then off/BSIZE else off/BSIZE+1 := by
    simp only [blocksFor, BSIZE]
    split <;> omega
  have hnext : blocksFor (off+1) = off/BSIZE+1 := by
    simp only [blocksFor, BSIZE]
    omega
  simp only [limit, hnow, hnext, slotOf, NDIRECT]
  generalize off/BSIZE = q
  by_cases hmod : off%BSIZE = 0
  · rw [if_pos hmod]
    rcases Nat.lt_trichotomy q 12 with hq | rfl | hq
    · rw [if_pos hq, if_pos (Nat.le_of_lt hq), if_pos (Nat.succ_le_of_lt hq)]
      omega
    · simp
    · rw [if_neg (Nat.lt_asymm hq), if_neg (Nat.not_le_of_lt hq),
        if_neg (Nat.not_le_of_lt (Nat.lt_succ_of_lt hq))]
      omega
  · rw [if_neg hmod]
    refine .inl ⟨hmod,?_,rfl⟩
    by_cases hq : q < 12
    · rw [if_pos (Nat.succ_le_of_lt hq), if_pos hq]
    · rw [if_neg (by omega : ¬q+1 ≤ 12), if_neg hq]

theorem file_block_spec (hm : Mid h i d (limit off)) (hmax : off/BSIZE < MAXFILE)
    (hfree : h.freeblock+limit (off+1) ≤ FSSIZE+limit off) :
    ∃ x d' h', fileBlock h d (off/BSIZE) = some (x,d',h') ∧
      Found h i d (slotOf (off/BSIZE)) (limit off) (limit (off+1)) x h' d' := by
  have hcases := limit_cases off
  generalize off/BSIZE = fbn at hmax hcases ⊢
  by_cases hdirect : fbn < NDIRECT
  · rw [slotOf, if_pos hdirect] at hcases ⊢
    obtain ⟨d',h',heq,hfound⟩ := din_block_spec hm (Nat.le_of_lt hdirect) (by omega) (by omega)
    rw [show max (limit off) (fbn+1) = limit (off+1) by omega] at hfound
    exact ⟨_,d',h',by rw [fileBlock, if_pos hdirect, heq],hfound⟩
  · rw [slotOf, if_neg hdirect] at hcases ⊢
    obtain ⟨d1,h1,heq,hf⟩ := din_block_spec hm (Nat.le_refl NDIRECT) (by omega) (by omega)
    have hblock := hf.block
    obtain ⟨x,h2,heq2,hf2⟩ := entry_block_spec hf.mid (Nat.le_of_not_lt hdirect) hmax (by omega) (by omega)
    have hblock2 := hf2.block
    rw [show max (max (limit off) (NDIRECT+1)) (fbn+2) = limit (off+1) by omega] at hf2 hblock2
    refine ⟨x,d1,h2,?_,grows_trans hf.grows hf2.grows,hf2.mid,hf2.here,fun hlt => ?_,by omega,
      hf2.inode.trans hf.inode⟩
    · rw [fileBlock, if_neg hdirect]
      simp only [heq, heq2, Option.bind_eq_bind, Option.bind_some]
    · rw [hf2.same (by omega), hf.same (by omega)]

theorem wsect_mid (buf : Block) (hm : Mid h i d n) (hk : k < SLOTS) (hkn : k < n) (hind : k ≠ NDIRECT) :
    view (wsect h (ptr (view h i d) i k) buf) i d = (view h i d).setBlock (ptr (view h i d) i k) buf ∧
      Mid (wsect h (ptr (view h i d) i k) buf) i d n := by
  obtain ⟨hlow,hlt,-⟩ := ptr_sector hm hk hkn
  have hview : view (wsect h (ptr (view h i d) i k) buf) i d =
      (view h i d).setBlock (ptr (view h i d) i k) buf := view_wsect hlow
  have hsame := data_same hm.sound hm.live hk hind ((hm.filled k hk).mpr hkn) buf
  refine ⟨hview,fit_wsect hm.fit hlt,?_,?_,?_⟩
  · rw [hview]
    exact same_sound hm.sound hsame
  · rw [hview]
    exact (hsame.live i).mpr hm.live
  · rw [hview]
    intro l hl
    rw [hsame.ptr i l hm.live hl]
    exact hm.filled l hl

theorem limit_mono {m n : ℕ} (h : m ≤ n) : limit m ≤ limit n := by
  have hblocks : blocksFor m ≤ blocksFor n := Nat.div_le_div_right (by omega)
  unfold limit
  split <;> split <;> omega

theorem limit_round {m : ℕ} (hpos : 0 < m) (hm : m ≤ BSIZE-off%BSIZE) : limit (off+m) = limit (off+1) := by
  have hblocks : blocksFor (off+m) = blocksFor (off+1) := by
    simp only [blocksFor, BSIZE] at hm ⊢
    omega
  rw [limit, limit, hblocks]

structure Appended (h : Host) (i : ℕ) (d : Dinode) (off : ℕ) (p : List Byte) (h' : Host) (d' : Dinode) :
    Prop where
  mid : Mid h' i d' (limit (off+p.length))
  wrote : Wrote i off p (view h i d) (view h' i d')
  block : h'.freeblock+limit off = h.freeblock+limit (off+p.length)
  inode : h'.freeinode = h.freeinode

theorem append_round (hm : Mid h i d (limit off)) (hpos : 0 < p.length) (hmax : off/BSIZE < MAXFILE)
    (hfree : h.freeblock+limit (off+1) ≤ FSSIZE+limit off) :
    ∃ m d' h', 0 < m ∧ m ≤ p.length ∧ off+m ≤ (off/BSIZE+1)*BSIZE ∧ limit (off+m) = limit (off+1) ∧
      (∀ r, iappendFrom (r+1) h d off p = iappendFrom r h' d' (off+m) (p.drop m)) ∧
      Appended h i d off (p.take m) h' d' := by
  obtain ⟨x,d1,h1,heq,hf⟩ := file_block_spec hm hmax hfree
  have hslot := slot_lt hmax
  have hlt : slotOf (off/BSIZE) < limit (off+1) := slot_lt_limit (Nat.lt_succ_self off)
  have hne := (hf.mid.filled _ hslot).mpr hlt
  obtain ⟨-,-,hread⟩ := ptr_sector hf.mid hslot hlt
  have hplace : off-off/BSIZE*BSIZE = off%BSIZE := by
    simp only [BSIZE]
    omega
  have hm1 : min p.length ((off/BSIZE+1)*BSIZE-off) ≤ p.length ∧
      0 < min p.length ((off/BSIZE+1)*BSIZE-off) ∧
      min p.length ((off/BSIZE+1)*BSIZE-off) ≤ BSIZE-off%BSIZE ∧
      off+min p.length ((off/BSIZE+1)*BSIZE-off) ≤ (off/BSIZE+1)*BSIZE := by
    simp only [BSIZE]
    omega
  have hround : ∀ r, iappendFrom (r+1) h d off p = iappendFrom r
      (wsect h1 x (paste ((view h1 i d1).blocks x) (off%BSIZE)
        (p.take (min p.length ((off/BSIZE+1)*BSIZE-off))))) d1
      (off+min p.length ((off/BSIZE+1)*BSIZE-off)) (p.drop (min p.length ((off/BSIZE+1)*BSIZE-off))) := by
    intro r
    rw [hf.here] at hread
    rw [iappendFrom, if_pos hpos]
    simp only [if_pos hmax, heq, Option.bind_eq_bind, Option.bind_some, hread, hplace]
  generalize min p.length ((off/BSIZE+1)*BSIZE-off) = m at hm1 hround
  have hlen : (p.take m).length = m := by
    rw [List.length_take]
    omega
  have hlim := limit_round hm1.2.1 hm1.2.2.1
  have hwrote := round_wrote (p.take m) hm.live hf.mid.sound hmax hf.grows
    (fun hold => hf.same ((hm.filled _ hslot).mp hold)) hne (by omega) (by omega)
  obtain ⟨hview,hmid⟩ := wsect_mid (paste ((view h1 i d1).blocks (ptr (view h1 i d1) i (slotOf (off/BSIZE))))
    (off%BSIZE) (p.take m)) hf.mid hslot hlt (slot_not_indirect _)
  rw [← hview] at hwrote
  rw [hf.here] at hwrote hmid
  rw [← hlim] at hmid
  refine ⟨m,d1,_,hm1.2.1,hm1.1,hm1.2.2.2,hlim,hround,?_,hwrote,?_,hf.inode⟩
  · rw [hlen]
    exact hmid
  · rw [hlen, hlim]
    exact hf.block

theorem append_from_spec {r : ℕ} (hm : Mid h i d (limit off)) (hfuel : p.length ≤ r)
    (hmax : off+p.length ≤ MAXFILE*BSIZE) (hfree : h.freeblock+limit (off+p.length) ≤ FSSIZE+limit off) :
    ∃ d' h', iappendFrom r h d off p = some (d',off+p.length,h') ∧ Appended h i d off p h' d' := by
  have hnil : ∀ {h : Host} {d : Dinode} {off : ℕ}, Mid h i d (limit off) → Appended h i d off [] h d :=
    fun hm => ⟨hm,wrote_nil,rfl,rfl⟩
  induction r generalizing h d off p with
  | zero =>
    cases List.length_eq_zero_iff.mp (Nat.le_zero.mp hfuel)
    exact ⟨d,h,rfl,hnil hm⟩
  | succ r ih =>
    by_cases hpos : 0 < p.length
    · have hbound : ∀ o, o < off+p.length → o/BSIZE < MAXFILE := fun o ho =>
        Nat.div_lt_of_lt_mul (by rw [Nat.mul_comm]; omega)
      have hone : limit (off+1) ≤ limit (off+p.length) := limit_mono (by omega)
      obtain ⟨m,d1,h1,hm0,hmp,-,hlim,hround,ha1⟩ := append_round hm hpos (hbound off (by omega)) (by omega)
      have hlen : (p.take m).length = m := by
        rw [List.length_take]
        omega
      have hdrop : (p.drop m).length = p.length-m := List.length_drop
      have hmid := ha1.mid
      have hblock := ha1.block
      rw [hlen] at hmid hblock
      obtain ⟨d2,h2,heq2,ha⟩ := ih (p := p.drop m) hmid (by omega) (by omega)
        (by rw [hdrop, show off+m+(p.length-m) = off+p.length by omega]; omega)
      rw [show off+m+(p.drop m).length = off+p.length by omega] at heq2
      refine ⟨d2,h2,(hround r).trans heq2,?_⟩
      have hmid2 := ha.mid
      have hblock2 := ha.block
      rw [show off+m+(p.drop m).length = off+p.length by omega] at hmid2 hblock2
      refine ⟨hmid2,?_,by omega,ha.inode.trans ha1.inode⟩
      have hall := wrote_append (p.drop m) hm.live (fun o _ ho => hbound o (by omega)) ha1.wrote
        (by rw [hlen]; exact ha.wrote)
      rwa [List.take_append_drop] at hall
    · cases List.length_eq_zero_iff.mp (by omega : p.length = 0)
      exact ⟨d,h,by rw [iappendFrom, if_neg hpos]; rfl,hnil hm⟩

theorem iblock_view : IBLOCK i sb = IBLOCK i viewSb := rfl

theorem inode_sector (hf : Fit h) (hi : i < ROOM) :
    rsect h (IBLOCK i sb) = some (h.image (IBLOCK i viewSb)) := by
  have hlow := iblock_lt hi
  have hmap := view_bitmap
  rw [rsect, hf.sectors, iblock_view, if_pos]
  have : nmeta ≤ FSSIZE := by decide
  omega

theorem rinode_eq (hf : Fit h) (hi : i < ROOM) : rinode h i = some (disk h i) := by
  rw [rinode, inode_sector hf hi, disk, if_pos hi]
  rfl

theorem winode_spec (hf : Fit h) (hi : i < ROOM) (hd : Typed d) :
    ∃ h', winode h i d = some h' ∧ shown h' = updated (view h i d) i ∧ Fit h' ∧
      h'.freeblock = h.freeblock ∧ h'.freeinode = h.freeinode ∧ h'.image 1 = h.image 1 := by
  have hlow := iblock_lt hi
  have hmap := view_bitmap
  have hne : IBLOCK i viewSb ≠ viewSb.bmapstart := by omega
  refine ⟨_,by rw [winode, inode_sector hf hi]; rfl,?_,fit_wsect hf ?_,rfl,rfl,?_⟩
  · have hdisk : disk (wsect h (IBLOCK i viewSb) (writeDinode (h.image (IBLOCK i viewSb)) (i%IPB) d)) =
        update (disk h) i d := by
      funext j
      by_cases hji : j = i
      · subst hji
        rw [disk, if_pos hi, wsect, update_self]
        simp only [update_self]
        exact read_write_dinode hd
      · rw [update_of_ne hji, disk, disk]
        split
        · simp only [wsect]
          by_cases hblock : IBLOCK j viewSb = IBLOCK i viewSb
          · rw [hblock, update_self]
            refine read_write_other fun hslot => hji ?_
            simp only [IBLOCK, IPB] at hblock hslot
            omega
          · rw [update_of_ne hblock]
        · rfl
    rw [shown, iblock_view, hdisk]
    simp only [updated, view, shown, Store.setMem, Store.setBlock, wsect, update_self,
      update_of_ne hne, Function.update_comm hne]
  · have := hf.low
    rw [iblock_view]
    omega
  · have hstart : sb.inodestart = 32 := by decide
    have hne : 1 ≠ IBLOCK i sb := by
      simp only [IBLOCK, hstart, IPB]
      omega
    simp only [wsect, update_of_ne hne]

structure Made (h : Host) : Prop where
  fit : Fit h
  image : Image (shown h)
  filled : ∀ i, Live (shown h) i → Filled (shown h) i (limit (disk h i).size)

theorem iappend_spec (hm : Made h) (hi : Live (shown h) i) (hpos : 0 < p.length)
    (hmax : (disk h i).size+p.length ≤ MAXFILE*BSIZE)
    (hfree : h.freeblock+limit ((disk h i).size+p.length) ≤ FSSIZE+limit (disk h i).size) :
    ∃ h', iappend h i p = some h' ∧ Made h' ∧ Written i (disk h i).size p (shown h) (shown h') ∧
      h'.freeblock+limit (disk h i).size = h.freeblock+limit ((disk h i).size+p.length) ∧
      h'.freeinode = h.freeinode ∧ h'.image 1 = h.image 1 := by
  have hroom : i < ROOM := hi.1
  have hmid : Mid h i (disk h i) (limit (disk h i).size) := by
    refine ⟨hm.fit,?_,?_,?_⟩ <;> rw [view_disk]
    · exact hm.image.sound
    · exact hi
    · exact hm.filled i hi
  obtain ⟨d',h1,heq,ha⟩ := append_from_spec hmid (Nat.le_refl _) hmax hfree
  have hw := ha.wrote
  rw [view_disk] at hw
  have htyped := wrote_typed hm.image hi ha.mid.sound hw hmax
  rw [view_mem] at htyped
  obtain ⟨h2,heq2,hshown,hfit,hblock,hinode,hfirst⟩ := winode_spec ha.mid.fit hroom htyped
  have hsize : xint (disk h i).size = (disk h i).size ∧
      xint ((disk h i).size+p.length) = (disk h i).size+p.length := by
    simp only [MAXFILE, BSIZE] at hmax
    exact ⟨xint_eq (by omega),xint_eq (by omega)⟩
  have hf := extended_finished hm.image hi ha.mid.sound hw (Nat.lt_add_of_pos_right hpos) hmax
  rw [view_mem] at hf
  have hview : (view h1 i d').setMem i { d' with size := (disk h i).size+p.length } =
      view h1 i { d' with size := (disk h i).size+p.length } := by
    simp only [view, Store.setMem, update_idem]
  rw [hview, ← hshown] at hf
  have hsz : (disk h i).size ≤ ((shown h).mem i).size := Nat.le_refl _
  have himage := finished_image hm.image hi ha.mid.sound hw hsz hmax hf
  have hlive : ∀ j, Live (shown h2) j ↔ Live (shown h) j := fun j => finished_live hw hf
  refine ⟨h2,?_,⟨hfit,himage,fun j hj => ?_⟩,⟨himage,hlive,fun j => finished_type hw hf,?_,
    fun j hj hji => finished_others hm.image ha.mid.sound hw hf hj hji⟩,?_,hinode.trans ha.inode,
    hfirst.trans (hw.frame.low 1 (by decide : 1 < viewSb.bmapstart))⟩
  · rw [iappend, rinode_eq hm.fit hroom]
    simp only [Option.bind_eq_bind, Option.bind_some, hsize.1, heq, hsize.2]
    exact heq2
  · rw [hlive] at hj
    have hjt := (frame_live hw.frame).mpr hj
    intro k hk
    rw [hf.same.ptr j k hjt hk]
    by_cases hji : j = i
    · subst hji
      have hnew : (disk h2 j).size = max (disk h j).size ((disk h j).size+p.length) := hf.size
      rw [hnew, Nat.max_eq_right (Nat.le_add_right _ _)]
      exact ha.mid.filled k hk
    · have hsame : disk h2 j = disk h j := (hf.kept j hji).trans (hw.frame.kept j hji)
      rw [hw.frame.others j k hji hj hk, hsame]
      exact hm.filled j hj k hk
  · rw [writeArray, if_pos]
    · exact finished_bytes hm.image hi ha.mid.sound hw hsz hmax hf
    · rw [bytes_of_length]
      refine ⟨hsz,?_,hmax⟩
      simp only [MAXFILE, BSIZE, WORD] at hmax ⊢
      omega
  · rw [hblock, ha.block]

structure Grown (i : ℕ) (p : List Byte) (h h' : Host) : Prop where
  made : Made h'
  live : ∀ j, Live (shown h') j ↔ Live (shown h) j
  type : ∀ j, (disk h' j).type = (disk h j).type
  file : bytesOf (shown h') i = bytesOf (shown h) i++p
  others : ∀ j, Live (shown h) j → j ≠ i → bytesOf (shown h') j = bytesOf (shown h) j
  block : h'.freeblock+limit (bytesOf (shown h) i).length =
    h.freeblock+limit ((bytesOf (shown h) i).length+p.length)
  inode : h'.freeinode = h.freeinode
  first : h'.image 1 = h.image 1

theorem iappend_grown (hm : Made h) (hi : Live (shown h) i) (hpos : 0 < p.length)
    (hmax : (bytesOf (shown h) i).length+p.length ≤ MAXFILE*BSIZE)
    (hfree : h.freeblock+limit ((bytesOf (shown h) i).length+p.length) ≤
      FSSIZE+limit (bytesOf (shown h) i).length) :
    ∃ h', iappend h i p = some h' ∧ Grown i p h h' := by
  have hlen : (bytesOf (shown h) i).length = (disk h i).size := bytes_of_length
  rw [hlen] at hmax hfree
  obtain ⟨h',heq,hm',hw,hblock,hinode,hfirst⟩ := iappend_spec hm hi hpos hmax hfree
  refine ⟨h',heq,hm',hw.live,hw.type,?_,hw.others,by rw [hlen]; exact hblock,hinode,hfirst⟩
  have hok : (disk h i).size ≤ (bytesOf (shown h) i).length ∧ (disk h i).size+p.length < WORD ∧
      (disk h i).size+p.length ≤ MAXFILE*BSIZE := by
    refine ⟨Nat.le_of_eq hlen.symm,?_,hmax⟩
    simp only [MAXFILE, BSIZE, WORD] at hmax ⊢
    omega
  rw [hw.file, writeArray, if_pos hok, ← hlen, List.take_length,
    List.drop_of_length_le (Nat.le_add_right _ _),
    List.append_nil]

theorem grown_trans {q : List Byte} {h1 h2 : Host} (ha : Grown i p h h1)
    (hb : Grown i q h1 h2) : Grown i (p++q) h h2 := by
  have hblock := ha.block
  have hblock' := hb.block
  rw [ha.file, List.length_append] at hblock'
  refine ⟨hb.made,fun j => (hb.live j).trans (ha.live j),fun j => (hb.type j).trans (ha.type j),
    by rw [hb.file, ha.file, List.append_assoc],fun j hj hji => ?_,?_,hb.inode.trans ha.inode,
    hb.first.trans ha.first⟩
  · rw [hb.others j ((ha.live j).mpr hj) hji, ha.others j hj hji]
  · rw [List.length_append, ← Nat.add_assoc]
    omega

theorem append_reads_spec {reads : List (List Byte)} (hm : Made h) (hi : Live (shown h) i)
    (hreads : ∀ c ∈ reads, c ≠ []) (hmax : (bytesOf (shown h) i).length+reads.flatten.length ≤ MAXFILE*BSIZE)
    (hfree : h.freeblock+limit ((bytesOf (shown h) i).length+reads.flatten.length) ≤
      FSSIZE+limit (bytesOf (shown h) i).length) :
    ∃ h', appendReads i h reads = some h' ∧ Grown i reads.flatten h h' := by
  induction reads generalizing h with
  | nil =>
    refine ⟨h,rfl,hm,fun _ => Iff.rfl,fun _ => rfl,?_,fun _ _ _ => rfl,rfl,rfl,rfl⟩
    rw [List.flatten_nil, List.append_nil]
  | cons c rest ih =>
    have hc := hreads c List.mem_cons_self
    rw [List.flatten_cons, List.length_append] at hmax hfree
    have hone : limit ((bytesOf (shown h) i).length+c.length) ≤
        limit ((bytesOf (shown h) i).length+(c.length+rest.flatten.length)) := limit_mono (by omega)
    obtain ⟨h1,heq,hg⟩ := iappend_grown hm hi (List.length_pos_iff.mpr hc) (by omega) (by omega)
    have hblock := hg.block
    obtain ⟨h2,heq2,hg2⟩ := ih hg.made ((hg.live i).mpr hi) (fun c hc => hreads c (List.mem_cons_of_mem _ hc))
      (by rw [hg.file, List.length_append]; omega)
      (by rw [hg.file, List.length_append, Nat.add_assoc]; omega)
    refine ⟨h2,?_,by rw [List.flatten_cons]; exact grown_trans hg hg2⟩
    rw [appendReads, if_neg hc, heq]
    exact heq2

def newInode (type : ℕ) : Dinode := ⟨type,0,0,1,0,fun _ => 0⟩

structure Added (i type : ℕ) (h h' : Host) : Prop where
  made : Made h'
  live : Live (shown h') i
  kind : (disk h' i).type = type
  empty : bytesOf (shown h') i = []
  keeps : ∀ j, j ≠ i → (Live (shown h') j ↔ Live (shown h) j) ∧ (disk h' j).type = (disk h j).type ∧
    (Live (shown h) j → bytesOf (shown h') j = bytesOf (shown h) j)
  block : h'.freeblock = h.freeblock
  inode : h'.freeinode = i+1
  first : h'.image 1 = h.image 1

theorem shown_agrees (hi : i < ROOM) : (shown h).mem i = (shown h).dinode i := by
  have hlow := iblock_lt hi
  have hne : IBLOCK i viewSb ≠ viewSb.bmapstart := by omega
  show disk h i = readDinode (update h.image _ _ (IBLOCK i viewSb)) _
  rw [disk, if_pos hi, update_of_ne hne]

theorem new_ptr {type : ℕ} : ptr (view h i (newInode type)) i k = 0 := by
  rw [ptr, view_mem]
  simp [newInode]

theorem other_ptr (hj : j ≠ i) : ptr (view h i d) j k = ptr (shown h) j k := by
  have hmem : (view h i d).mem j = (shown h).mem j := update_of_ne hj _ _
  rw [ptr, ptr, hmem]
  rfl

theorem other_live (hj : j ≠ i) : Live (view h i d) j ↔ Live (shown h) j := by
  have hmem : (view h i d).mem j = (shown h).mem j := update_of_ne hj _ _
  rw [Live, Live, hmem]
  rfl

theorem new_sound (type : ℕ) (hm : Made h) : Sound (view h i (newInode type)) := by
  have hs := hm.image.sound
  refine ⟨hs.small,hs.disk,hs.inodes,hs.metas,fun {j k} hj hk hne => ?_,
    fun {j j' k k'} hj hj' hk hk' hne heq => ?_⟩
  · by_cases hji : j = i
    · subst hji
      exact absurd new_ptr hne
    · rw [other_ptr hji] at hne ⊢
      exact hs.owned ((other_live hji).mp hj) hk hne
  · by_cases hji : j = i
    · subst hji
      exact absurd new_ptr hne
    · by_cases hji' : j' = i
      · subst hji'
        rw [heq] at hne
        exact absurd new_ptr hne
      · rw [other_ptr hji] at hne heq
        rw [other_ptr hji'] at heq
        exact hs.once ((other_live hji).mp hj) ((other_live hji').mp hj') hk hk' hne heq

theorem ialloc_added {type : ℕ} (hm : Made h) (hi : h.freeinode = i) (hroom : i < ROOM) (htype : type ≠ 0)
    (hshort : type < 256^2) : ∃ h', ialloc h type = some (i,h') ∧ Added i type h h' := by
  have htyped : Typed (newInode type) :=
    ⟨hshort,(by decide : 0 < 256^2),(by decide : 0 < 256^2),(by decide : 1 < 256^2),(by decide : 0 < 256^4),
      fun _ _ => (by decide : 0 < 256^4),fun _ _ => rfl⟩
  have hfit : Fit { h with freeinode := i+1 } := ⟨hm.fit.zeros,hm.fit.sectors,hm.fit.low,hm.fit.high⟩
  obtain ⟨h',heq,hshown,hfit',hblock,hinode,hfirst⟩ := winode_spec hfit hroom htyped
  have hview : view { h with freeinode := i+1 } i (newInode type) = view h i (newInode type) := rfl
  rw [hview] at hshown
  have hs := new_sound (i := i) type hm
  have hsame := updated_same hs hroom
  rw [← hshown] at hsame
  have hmem : ∀ j, (shown h').mem j = (view h i (newInode type)).mem j := fun j => by
    rw [hshown]
    rfl
  have hlow := iblock_lt hroom
  have hmap := view_bitmap
  have hblocks : ∀ c, nmeta ≤ c → (shown h').blocks c = (shown h).blocks c := fun c hc => by
    rw [hshown]
    exact update_of_ne (by rw [show (view h i (newInode type)).sb = viewSb from rfl]; omega) _ _
  have hself : disk h' i = newInode type := (hmem i).trans view_mem
  have hother : ∀ j, j ≠ i → disk h' j = disk h j := fun j hj => (hmem j).trans (update_of_ne hj _ _)
  have hlive : Live (shown h') i := ⟨hroom,by show (disk h' i).type ≠ 0; rw [hself]; exact htype⟩
  have hptr : ∀ {j k}, j ≠ i → Live (shown h) j → k < SLOTS → ptr (shown h') j k = ptr (shown h) j k :=
    fun hj hl hk => by rw [hsame.ptr _ _ ((other_live hj).mpr hl) hk, other_ptr hj]
  have hlive' : ∀ j, j ≠ i → (Live (shown h') j ↔ Live (shown h) j) := fun j hj =>
    (hsame.live j).trans (other_live hj)
  have hfull : ∀ j o, j ≠ i → Live (shown h) j → o < (disk h j).size →
      ptr (shown h') j (slotOf (o/BSIZE)) ≠ 0 ∧ byteAt (shown h') j o = byteAt (shown h) j o :=
    fun j o hj hl ho => by
      have hbound := size_bound hm.image hl ho
      have hne := hm.image.full j o hl ho
      have hsame := hptr hj hl (slot_lt hbound)
      have hdata := (hm.image.sound.owned hl (slot_lt hbound) hne).1
      refine ⟨hsame ▸ hne,?_⟩
      rw [byteAt, byteAt, hsame, hblocks _ (view_start ▸ hdata)]
  refine ⟨h',?_,⟨hfit',⟨same_sound hs hsame,fun j hj => shown_agrees hj,fun j hj => ?_,fun j o hj ho => ?_⟩,
    fun j hj => ?_⟩,hlive,by rw [hself]; rfl,?_,fun j hj => ⟨hlive' j hj,by rw [hother j hj],fun hl => ?_⟩,
    hblock,hinode,hfirst⟩
  · rw [ialloc, hi, xshort_eq hshort, xshort_eq (by decide : 1 < 256^2), xint_eq (by decide : 0 < 256^4)]
    simp only [Option.bind_eq_bind]
    exact congrArg (fun r => r.bind (fun h => some (i,h))) heq
  · show (disk h' j).size ≤ _
    by_cases hji : j = i
    · rw [hji, hself]
      exact Nat.zero_le _
    · rw [hother j hji]
      exact hm.image.size j ((hlive' j hji).mp hj)
  · have ho : o < (disk h' j).size := ho
    by_cases hji : j = i
    · rw [hji, hself] at ho
      exact absurd ho (Nat.not_lt_zero o)
    · rw [hother j hji] at ho
      exact (hfull j o hji ((hlive' j hji).mp hj) ho).1
  · intro k hk
    by_cases hji : j = i
    · subst hji
      have hzero : limit (newInode type).size = 0 := (by decide : limit 0 = 0)
      rw [hsame.ptr j k ((hsame.live j).mp hj) hk, new_ptr, hself, hzero]
      exact iff_of_false (fun hne => hne rfl) (Nat.not_lt_zero k)
    · rw [hptr hji ((hlive' j hji).mp hj) hk, hother j hji]
      exact hm.filled j ((hlive' j hji).mp hj) k hk
  · show slice _ 0 (disk h' i).size = []
    rw [hself]
    rfl
  · show slice _ 0 (disk h' j).size = slice _ 0 (disk h j).size
    rw [hother j hj]
    refine slice_congr fun o ho => ?_
    rw [Nat.zero_add]
    exact (hfull j o hj hl ho).2

end Xv6.MkfsImage

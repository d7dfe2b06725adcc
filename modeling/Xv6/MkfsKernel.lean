import Xv6.MkfsImage
import Mathlib.Algebra.GroupWithZero.Nat

/-!
# The kernel on an image of mkfs

`main` makes a root directory with an entry for each argument and a file with the bytes of
each; `dirlookup` finds the entries, and `readi` gives the bytes back.
-/

set_option autoImplicit false

namespace Xv6.MkfsKernel
open CommandTree ByteFields BlockCode BlockStore BlockFiles MkfsCode MkfsImage
open PathTree (namecmp_zero namecmp_stored strncpy_length strncpy_inj decode_encode)
open InodeCode
  (BSIZE MAXFILE WORD DIRSIZ DIRENT ROOTINO T_DIR T_FILE T_DEV Byte Name Dirent strncpy namecmp slash)
open FileCalls (dot dotdot)

variable {h h' : Host} {i j k m n off : ℕ} {fs : List Input} {x : Input}

def entries (fs : List Input) : List (List Byte) :=
  dirent ROOTINO dot::dirent ROOTINO dotdot::fs.mapIdx (fun m x => dirent (m+2) (stripped x.name))

def need (fs : List Input) : ℕ :=
  nmeta+limit (DIRENT*(fs.length+2))+(fs.map (fun x => limit x.bytes.length)).sum

/-- A file that fits into the image, and whose name fits into an entry. -/
structure Fits (x : Input) : Prop where
  reads : ∀ c ∈ x.reads, c ≠ [] ∧ c.length ≤ BSIZE
  size : x.bytes.length ≤ MAXFILE*BSIZE
  name : 0 ∉ x.name
  short : (stripped x.name).length ≤ DIRSIZ
  proper : stripped x.name ≠ [] ∧ stripped x.name ≠ dot ∧ stripped x.name ≠ dotdot

structure Holds (h : Host) (fs : List Input) : Prop where
  made : Made h
  next : h.freeinode = fs.length+2
  root : Live (shown h) ROOTINO
  dir : (disk h ROOTINO).type = T_DIR
  names : bytesOf (shown h) ROOTINO = (entries fs).flatten
  live : ∀ m, m < fs.length → Live (shown h) (m+2)
  file : ∀ m, m < fs.length → (disk h (m+2)).type = T_FILE
  bytes : ∀ m x, fs[m]? = some x → bytesOf (shown h) (m+2) = x.bytes
  block : h.freeblock = need fs
  first : h.image 1 = blank.image 1

theorem dirent_length (i : ℕ) (name : Name) : (dirent i name).length = DIRENT := by
  rw [dirent, Dirent.encode, List.length_cons, List.length_cons, strncpy_length]

theorem entries_length : (entries fs).length = fs.length+2 := by
  rw [entries, List.length_cons, List.length_cons, List.length_mapIdx]

theorem entries_dirents : ∀ e ∈ entries fs, e.length = DIRENT := by
  intro e he
  rw [entries, List.mem_cons, List.mem_cons] at he
  rcases he with rfl | rfl | he
  · exact dirent_length _ _
  · exact dirent_length _ _
  · obtain ⟨m,hm,rfl⟩ := List.mem_mapIdx.mp he
    exact dirent_length _ _

theorem flatten_length {w : ℕ} {es : List (List Byte)} (h : ∀ e ∈ es, e.length = w) :
    es.flatten.length = w*es.length := by
  induction es with
  | nil => rfl
  | cons e es ih =>
    rw [List.flatten_cons, List.length_append, h e List.mem_cons_self,
      ih (fun e he => h e (List.mem_cons_of_mem _ he)), List.length_cons, Nat.mul_succ, Nat.add_comm]

theorem entries_snoc : entries (fs++[x]) = entries fs++[dirent (fs.length+2) (stripped x.name)] := by
  rw [entries, List.mapIdx_append, entries]
  simp

theorem need_snoc : need (fs++[x]) =
    nmeta+limit
      (DIRENT*(fs.length+3))+((fs.map (fun x => limit x.bytes.length)).sum+limit x.bytes.length) := by
  simp [need]

theorem need_mono (fs gs : List Input) : need fs ≤ need (fs++gs) := by
  have hlim : limit (DIRENT*(fs.length+2)) ≤ limit (DIRENT*(fs.length+gs.length+2)) :=
    limit_mono (Nat.mul_le_mul_left _ (by omega))
  simp only [need, List.length_append, List.map_append, List.sum_append]
  omega

theorem limit_zero : limit 0 = 0 := by decide

theorem add_file_holds (hh : Holds h fs) (hreads : ∀ c ∈ x.reads, c ≠ [])
    (hsize : x.bytes.length ≤ MAXFILE*BSIZE)
    (hslash : slash ∉ x.name) (hcount : fs.length+1 < NINODES) (hneed : need (fs++[x]) ≤ FSSIZE) :
    ∃ h', addFile h x = some h' ∧ Holds h' (fs++[x]) := by
  have hroom : fs.length+2 < ROOM := Nat.lt_trans (Nat.succ_lt_succ hcount) (by decide)
  have hblock := hh.block
  rw [need_snoc] at hneed
  rw [need] at hblock
  have hentries : (entries fs).flatten.length = DIRENT*(fs.length+2) := by
    rw [flatten_length entries_dirents, entries_length]
  -- the new inode
  obtain ⟨h1,heq1,ha⟩ := ialloc_added hh.made hh.next hroom (by decide : T_FILE ≠ 0) (by decide)
  have hne : ROOTINO ≠ fs.length+2 := by
    simp only [ROOTINO]
    omega
  have hroot1 := ((ha.keeps ROOTINO hne).1).mpr hh.root
  have hnames1 : bytesOf (shown h1) ROOTINO = (entries fs).flatten :=
    ((ha.keeps ROOTINO hne).2.2 hh.root).trans hh.names
  -- its entry in the root directory
  have hdirent : (dirent (fs.length+2) (stripped x.name)).length = DIRENT := dirent_length _ _
  have hnext : DIRENT*(fs.length+2)+DIRENT = DIRENT*(fs.length+3) := rfl
  obtain ⟨h2,heq2,hb⟩ := iappend_grown (p := dirent (fs.length+2) (stripped x.name)) ha.made hroot1
    (by rw [hdirent]; decide)
    (by
      rw [hnames1, hentries, hdirent]
      simp only [NINODES, DIRENT, MAXFILE, BSIZE] at hcount ⊢
      omega)
    (by
      rw [hnames1, hentries, hdirent, ha.block, hnext]
      omega)
  have hblock2 := hb.block
  rw [hnames1, hentries, hdirent, ha.block, hnext] at hblock2
  have hempty : bytesOf (shown h2) (fs.length+2) = [] := (hb.others _ ha.live (Ne.symm hne)).trans ha.empty
  have hlive2 : Live (shown h2) (fs.length+2) := (hb.live _).mpr ha.live
  -- its bytes
  obtain ⟨h3,heq3,hc⟩ := append_reads_spec hb.made hlive2 hreads
    (by rw [hempty, List.length_nil, Nat.zero_add]; exact hsize)
    (by
      rw [hempty, List.length_nil, Nat.zero_add, limit_zero]
      have : limit x.reads.flatten.length = limit x.bytes.length := rfl
      omega)
  have hblock3 := hc.block
  rw [hempty, List.length_nil, Nat.zero_add, limit_zero] at hblock3
  have hkeep : ∀ j, j ≠ fs.length+2 → (Live (shown h3) j ↔ Live (shown h) j) ∧
      (disk h3 j).type = (disk h j).type := fun j hj =>
    ⟨(hc.live j).trans ((hb.live j).trans (ha.keeps j hj).1),
      (hc.type j).trans ((hb.type j).trans (ha.keeps j hj).2.1)⟩
  have hlive3 : Live (shown h3) (fs.length+2) := (hc.live _).mpr hlive2
  refine ⟨h3,?_,hc.made,?_,(hkeep _ hne).1.mpr hh.root,(hkeep _ hne).2.trans hh.dir,?_,fun m hm => ?_,
    fun m hm => ?_,fun m y hy => ?_,?_,hc.first.trans (hb.first.trans (ha.first.trans hh.first))⟩
  · rw [addFile, if_neg hslash, heq1]
    simp only [Option.bind_eq_bind, Option.bind_some, heq2]
    exact heq3
  · rw [hc.inode, hb.inode, ha.inode, List.length_append]
    rfl
  · rw [hc.others _ ((hb.live _).mpr hroot1) hne, hb.file, hnames1, entries_snoc, List.flatten_append,
      List.flatten_singleton]
  · rw [List.length_append, List.length_singleton] at hm
    rcases Nat.lt_or_eq_of_le (Nat.le_of_lt_succ hm) with hlt | rfl
    · exact (hkeep _ (by omega)).1.mpr (hh.live m hlt)
    · exact hlive3
  · rw [List.length_append, List.length_singleton] at hm
    rcases Nat.lt_or_eq_of_le (Nat.le_of_lt_succ hm) with hlt | rfl
    · exact (hkeep _ (by omega)).2.trans (hh.file m hlt)
    · exact (hc.type _).trans ((hb.type _).trans ha.kind)
  · by_cases hlt : m < fs.length
    · rw [List.getElem?_append_left hlt] at hy
      have hlive := hh.live m hlt
      have hne' : m+2 ≠ fs.length+2 := by omega
      have hlive1 := (ha.keeps _ hne').1.mpr hlive
      have hroot : m+2 ≠ ROOTINO := by
        simp only [ROOTINO]
        omega
      rw [hc.others _ ((hb.live _).mpr hlive1) hne', hb.others _ hlive1 hroot, (ha.keeps _ hne').2.2 hlive]
      exact hh.bytes m y hy
    · rw [List.getElem?_append_right (by omega)] at hy
      have hm : m = fs.length := by
        have := (List.getElem?_eq_some_iff.mp hy).1
        rw [List.length_singleton] at this
        omega
      subst hm
      rw [Nat.sub_self] at hy
      cases hy
      rw [hc.file, hempty]
      rfl
  · rw [need_snoc]
    have : limit x.reads.flatten.length = limit x.bytes.length := rfl
    omega

theorem add_files_holds {gs : List Input} (hh : Holds h fs) (hgs : ∀ x ∈ gs, Fits x)
    (hslash : ∀ x ∈ gs, slash ∉ x.name) (hcount : fs.length+gs.length < NINODES)
    (hneed : need (fs++gs) ≤ FSSIZE) :
    ∃ h', gs.foldlM addFile h = some h' ∧ Holds h' (fs++gs) := by
  induction gs generalizing h fs with
  | nil => exact ⟨h,rfl,by rwa [List.append_nil]⟩
  | cons x gs ih =>
    rw [List.length_cons] at hcount
    have hsplit : fs++x::gs = fs++[x]++gs := by rw [List.append_assoc, List.singleton_append]
    rw [hsplit] at hneed ⊢
    have hx := hgs x List.mem_cons_self
    obtain ⟨h1,heq,h1h⟩ :=
      add_file_holds hh (fun c hc => (hx.reads c hc).1) hx.size (hslash x List.mem_cons_self)
      (by omega) (Nat.le_trans (need_mono _ _) hneed)
    obtain ⟨h2,heq2,h2h⟩ := ih h1h (fun y hy => hgs y (List.mem_cons_of_mem _ hy))
      (fun y hy => hslash y (List.mem_cons_of_mem _ hy))
      (by rw [List.length_append, List.length_singleton]; omega) hneed
    refine ⟨h2,?_,h2h⟩
    rw [List.foldlM_cons, heq]
    exact heq2

theorem blank_dead (i : ℕ) : ¬Live (shown blank) i := by
  rintro ⟨hi,htype⟩
  refine htype ?_
  have hroom : i < ROOM := hi
  have hne : IBLOCK i viewSb ≠ 1 := by
    have hstart : viewSb.inodestart = 32 := by decide
    simp only [IBLOCK, hstart, IPB]
    omega
  show (disk blank i).type = 0
  rw [disk, if_pos hroom]
  simp only [blank, wsect, Function.update_of_ne hne]
  exact field_zero (fun _ _ => rfl)

theorem blank_made : Made blank := by
  have hsize : viewSb.size = FSSIZE := by decide
  refine ⟨⟨fun b hb _ => ?_,by decide,Nat.le_refl _,by decide⟩,⟨⟨by decide,by decide,fun i hi => iblock_lt hi,
    fun b hb => ?_,fun hi => absurd hi (blank_dead _),fun hi => absurd hi (blank_dead _)⟩,
    fun i hi => shown_agrees hi,fun i hi => absurd hi (blank_dead i),fun i _ hi => absurd hi (blank_dead i)⟩,
    fun i hi => absurd hi (blank_dead i)⟩
  · have hne : b ≠ 1 := by
      have hlow : nmeta ≤ b := hb
      simp only [nmeta] at hlow
      omega
    simp only [blank, wsect, Function.update_of_ne hne]
  · have hb : b < nmeta := view_start ▸ hb
    rw [← view_disk (i := 0), view_use (Nat.lt_trans hb (by decide)), decide_eq_true_eq]
    exact hb

theorem start_holds : ∃ h1 h2 h3, ialloc blank T_DIR = some (ROOTINO,h1) ∧
    iappend h1 ROOTINO (dirent ROOTINO dot) = some h2 ∧
    iappend h2 ROOTINO (dirent ROOTINO dotdot) = some h3 ∧ Holds h3 [] := by
  obtain ⟨h1,heq1,ha⟩ := ialloc_added (i := ROOTINO) blank_made rfl (by decide) (by decide : T_DIR ≠ 0)
    (by decide)
  have hfree : h1.freeblock = nmeta := ha.block
  have hdot : ∀ name, (dirent ROOTINO name).length = DIRENT := fun name => dirent_length _ _
  obtain ⟨h2,heq2,hb⟩ := iappend_grown (p := dirent ROOTINO dot) ha.made ha.live (by rw [hdot]; decide)
    (by rw [ha.empty, hdot]; decide) (by rw [ha.empty, hdot, hfree]; decide)
  have hblock2 := hb.block
  rw [ha.empty, hdot, hfree] at hblock2
  have hfile2 : bytesOf (shown h2) ROOTINO = dirent ROOTINO dot := hb.file.trans (by rw [ha.empty]; rfl)
  have hfree2 : h2.freeblock = nmeta+1 := hblock2
  obtain ⟨h3,heq3,hc⟩ := iappend_grown (p := dirent ROOTINO dotdot) hb.made ((hb.live _).mpr ha.live)
    (by rw [hdot]; decide) (by rw [hfile2, hdot, hdot]; decide) (by rw [hfile2, hdot, hdot, hfree2]; decide)
  have hblock3 := hc.block
  rw [hfile2, hdot, hdot, hfree2] at hblock3
  refine ⟨h1,h2,h3,heq1,heq2,heq3,hc.made,hc.inode.trans (hb.inode.trans ha.inode),
    (hc.live _).mpr ((hb.live _).mpr ha.live),
    (hc.type _).trans ((hb.type _).trans ha.kind),?_,fun m hm => absurd hm (Nat.not_lt_zero m),
    fun m hm => absurd hm (Nat.not_lt_zero m),fun m x hx => by simp at hx,?_,
    hc.first.trans (hb.first.trans ha.first)⟩
  · rw [hc.file, hfile2]
    rfl
  · have hlim : limit (DIRENT+DIRENT) = 1 ∧ limit DIRENT = 1 := by decide
    rw [hlim.1, hlim.2] at hblock3
    have hneed : need [] = nmeta+1 := by decide
    omega

structure Fixed (h h' : Host) : Prop where
  root : disk h' ROOTINO = { disk h ROOTINO with size := ((disk h ROOTINO).size/BSIZE+1)*BSIZE }
  others : ∀ j, j ≠ ROOTINO → disk h' j = disk h j
  data : ∀ c, nmeta ≤ c → (shown h').blocks c = (shown h).blocks c
  block : h'.freeblock = h.freeblock
  first : h'.image 1 = h.image 1

theorem fix_root_spec (hm : Made h) (hroot : Live (shown h) ROOTINO) :
    ∃ h', fixRoot h = some h' ∧ Fixed h h' := by
  have hsize : (disk h ROOTINO).size ≤ MAXFILE*BSIZE := hm.image.size _ hroot
  have htyped : Typed (disk h ROOTINO) := by
    rw [disk, if_pos (by decide)]
    exact read_typed _ _
  have hwords : xint (disk h ROOTINO).size = (disk h ROOTINO).size ∧
      xint (((disk h ROOTINO).size/BSIZE+1)*BSIZE) = ((disk h ROOTINO).size/BSIZE+1)*BSIZE := by
    simp only [MAXFILE, BSIZE] at hsize ⊢
    exact ⟨xint_eq (by omega),xint_eq (by omega)⟩
  have hfixed : Typed { disk h ROOTINO with size := ((disk h ROOTINO).size/BSIZE+1)*BSIZE } := by
    refine ⟨htyped.type,htyped.major,htyped.minor,htyped.nlink,?_,htyped.addrs,htyped.rest⟩
    simp only [MAXFILE, BSIZE] at hsize ⊢
    omega
  obtain ⟨h',heq,hshown,-,hblock,-,hfirst⟩ := winode_spec hm.fit (by decide : ROOTINO < ROOM) hfixed
  have hmem : ∀ j, disk h' j =
      (view h ROOTINO { disk h ROOTINO with size := ((disk h ROOTINO).size/BSIZE+1)*BSIZE }).mem j :=
        fun j => by
    show (shown h').mem j = _
    rw [hshown]
    rfl
  refine ⟨h',?_,(hmem _).trans view_mem,fun j hj => (hmem j).trans (Function.update_of_ne hj _ _),
    fun c hc => ?_,
    hblock,hfirst⟩
  · rw [fixRoot, rinode_eq hm.fit (by decide)]
    simp only [Option.bind_eq_bind, Option.bind_some, hwords.1, hwords.2]
    exact heq
  · have hlow := iblock_lt (by decide : ROOTINO < ROOM)
    have hmap := view_bitmap
    rw [hshown]
    refine Function.update_of_ne (fun heq => ?_) _ _
    have : c = IBLOCK ROOTINO viewSb := heq
    omega

theorem fixed_ptr (hm : Made h) (hf : Fixed h h') (hj : Live (shown h) j) :
    ptr (shown h') j k = ptr (shown h) j k := by
  have haddrs : ((shown h').mem j).addrs = ((shown h).mem j).addrs := by
    show (disk h' j).addrs = (disk h j).addrs
    by_cases hr : j = ROOTINO
    · rw [hr, hf.root]
    · rw [hf.others j hr]
  by_cases hdirect : k ≤ NDIRECT
  · rw [ptr_direct hdirect, ptr_direct hdirect, haddrs]
  · have hsame : ptr (shown h') j NDIRECT = ptr (shown h) j NDIRECT := by
      rw [ptr_direct (Nat.le_refl _), ptr_direct (Nat.le_refl _), haddrs]
    rw [ptr_indirect (Nat.lt_of_not_le hdirect), hsame,
      ptr_indirect (s := shown h) (k := k) (Nat.lt_of_not_le hdirect)]
    split_ifs with hne
    · rfl
    · have hdata := (hm.image.sound.owned hj (by decide) hne).1
      rw [hf.data _ (view_start ▸ hdata)]

theorem fixed_byte (hm : Made h) (hf : Fixed h h') (hj : Live (shown h) j) (ho : off < (disk h j).size) :
    ptr (shown h') j (slotOf (off/BSIZE)) ≠ 0 ∧ byteAt (shown h') j off = byteAt (shown h) j off := by
  have hbound := size_bound hm.image hj ho
  have hne := hm.image.full j off hj ho
  have hptr := fixed_ptr (k := slotOf (off/BSIZE)) hm hf hj
  have hdata := (hm.image.sound.owned hj (slot_lt hbound) hne).1
  refine ⟨hptr ▸ hne,?_⟩
  rw [byteAt, byteAt, hptr, hf.data _ (view_start ▸ hdata)]

/-- What `main` leaves behind for a list of files. -/
structure Image (fs : List Input) (img : ℕ → Block) : Prop where
  host : ∃ h h', Holds h fs ∧ Fixed h h' ∧ img = (shown h').blocks
  super : readsb (img 1) = sb

theorem main_image (hfs : ∀ x ∈ fs, Fits x) (hslash : ∀ x ∈ fs, slash ∉ x.name) (hcount : fs.length < NINODES)
    (hneed : need fs ≤ FSSIZE) :
    ∃ h, main fs = some h ∧ MkfsKernel.Image fs h.image := by
  obtain ⟨a1,a2,h1,heqa,heqb,heqc,hh1⟩ := start_holds
  obtain ⟨h2,heq2,hh2⟩ := add_files_holds hh1 hfs hslash (by rw [List.length_nil, Nat.zero_add]; exact hcount)
    (by rw [List.nil_append]; exact hneed)
  rw [List.nil_append] at hh2
  obtain ⟨h3,heq3,hf⟩ := fix_root_spec hh2.made hh2.root
  have hused : h3.freeblock < BSIZE*8 := by
    rw [hf.block, hh2.block]
    simp only [FSSIZE, BSIZE] at hneed ⊢
    omega
  refine ⟨wsect h3 sb.bmapstart (bitmap h3.freeblock),?_,⟨h2,h3,hh2,hf,rfl⟩,?_⟩
  · rw [main, heqa]
    simp only [Option.bind_eq_bind, Option.bind_some]
    rw [if_neg (fun hne => hne rfl), heqb]
    simp only [Option.bind_some, heqc, heq2, heq3]
    rw [MkfsCode.balloc, if_pos hused]
  · have hne : 1 ≠ sb.bmapstart := by decide
    simp only [wsect, Function.update_of_ne hne]
    rw [hf.first, hh2.first]
    decide +kernel

theorem main_slash (hx : x ∈ fs) (hslash : slash ∈ x.name) : main fs = none := by
  have hfold : ∀ h, fs.foldlM addFile h = none := by
    intro h
    induction fs generalizing h with
    | nil => exact absurd hx List.not_mem_nil
    | cons y fs ih =>
      rw [List.foldlM_cons]
      rcases List.mem_cons.mp hx with rfl | hmem
      · rw [addFile, if_pos hslash]
        rfl
      · cases addFile h y with
        | none => rfl
        | some h => exact ih hmem h
  obtain ⟨a1,a2,h1,heqa,heqb,heqc,-⟩ := start_holds
  rw [main, heqa]
  simp only [Option.bind_eq_bind, Option.bind_some]
  rw [if_neg (fun hne => hne rfl), heqb]
  simp only [Option.bind_some, heqc, hfold, Option.bind_none]

def boot (img : ℕ → Block) (mem : ℕ → Dinode) : Store := ⟨readsb (img 1),img,mem⟩

/-- The type and the size of the file with a name in the root directory, and what `readi`
returns. -/
def readFile (name : Name) (off n : ℕ) : Prog (Option (ℕ × ℕ × Option (List Byte))) := do
  ilock ROOTINO
  match ← dirlookup ROOTINO name with
  | none => pure none
  | some (inum,_) =>
    ilock inum
    let x ← inode inum
    let r ← readi inum off n
    pure (some (x.type,x.size,r))

structure Sees (s : Store) (h : Host) (i : ℕ) : Prop where
  blocks : s.blocks = (shown h).blocks
  mem : s.mem i = disk h i

variable {s : Store} {name : Name}

theorem sees_ptr (hs : Sees s h i) : ptr s i k = ptr (shown h) i k := by
  rw [ptr, ptr, hs.mem, hs.blocks]
  rfl

theorem sees_byte (hs : Sees s h i) (o : ℕ) : byteAt s i o = byteAt (shown h) i o := by
  rw [byteAt, byteAt, sees_ptr hs, hs.blocks]

theorem ilock_sees (hsb : s.sb = sb) (hblocks : s.blocks = (shown h).blocks) (hi : i < ROOM)
    (htype : (disk h i).type ≠ 0) :
    wp exec (ilock i) (fun _ t => t.sb = sb ∧ Sees t h i) (fun _ => False) s := by
  have hload : s.dinode i = disk h i := by
    rw [Store.dinode, hsb, hblocks, iblock_view]
    exact (shown_agrees hi).symm
  have hmem : (s.setMem i (s.dinode i)).mem i = disk h i := (Function.update_self _ _ _).trans hload
  unfold BlockCode.ilock
  simp only [wp_bind, wp_load, wp_inode, hmem]
  rw [if_neg htype]
  exact ⟨hsb,hblocks,hmem⟩

theorem lookup_from_spec {T inum dp r e : ℕ} (ent : ℕ → List Byte)
    (hread : ∀ e, e ≤ T → DIRENT*e < (s.mem dp).size ∧ (ent e).length = DIRENT ∧
      wp exec (readi dp (DIRENT*e) DIRENT) (fun r t => r = some (ent e) ∧ s = t) (fun _ => False) s)
    (hskip : ∀ e, e < T → namecmp name (Dirent.decode (ent e)).name ≠ 0)
    (hhit : (Dirent.decode (ent T)).inum = inum ∧ inum ≠ 0 ∧ namecmp name (Dirent.decode (ent T)).name = 0)
    (he : e ≤ T) (hr : T-e < r) :
    wp exec (dirlookupFrom dp name r (DIRENT*e)) (fun q t => q = some (inum,DIRENT*T) ∧ s = t)
      (fun _ => False) s := by
  induction r generalizing e with
  | zero => omega
  | succ r ih =>
    obtain ⟨hoff,hlen,hspec⟩ := hread e he
    rw [dirlookupFrom, wp_bind, wp_inode, if_pos hoff]
    refine wp_then hspec ?_
    rintro q t ⟨rfl,rfl⟩
    simp only
    rw [if_neg (by rw [hlen]; exact fun hne => hne rfl)]
    rcases Nat.lt_or_eq_of_le he with hlt | rfl
    · have hnext := ih (e := e+1) hlt (by omega)
      rw [Nat.mul_succ] at hnext
      split
      · exact hnext
      · rw [if_neg (hskip e hlt)]
        exact hnext
    · rw [hhit.1, if_neg hhit.2.1, if_pos hhit.2.2]
      exact ⟨rfl,rfl⟩

theorem flatten_part {w e : ℕ} {es : List (List Byte)} {x : List Byte} (hes : ∀ e ∈ es, e.length = w)
    (he : es[e]? = some x) : (es.flatten.drop (w*e)).take w = x := by
  induction es generalizing e with
  | nil => simp at he
  | cons y es ih =>
    have hy := hes y List.mem_cons_self
    cases e with
    | zero =>
      cases he
      rw [Nat.mul_zero, List.drop_zero, List.flatten_cons, List.take_left' hy]
    | succ e =>
      rw [List.flatten_cons, Nat.mul_succ, Nat.add_comm, ← List.drop_drop, List.drop_left' hy]
      exact ih (fun e he => hes e (List.mem_cons_of_mem _ he)) he

section Reading
variable (hh : Holds h fs) (hf : Fixed h h')
include hh hf

theorem root_size : (disk h' ROOTINO).size = (DIRENT*(fs.length+2)/BSIZE+1)*BSIZE := by
  have hlen := congrArg List.length hh.names
  rw [bytes_of_length, flatten_length entries_dirents, entries_length] at hlen
  have hsize : (disk h ROOTINO).size = DIRENT*(fs.length+2) := hlen
  rw [hf.root, hsize]

theorem entry_read {e : ℕ} {ent : List Byte} (hs : Sees s h' ROOTINO) (hcount : fs.length < NINODES)
    (he : (entries fs)[e]? = some ent) : DIRENT*e < (s.mem ROOTINO).size ∧ ent.length = DIRENT ∧
      wp exec (readi ROOTINO (DIRENT*e) DIRENT) (fun r t => r = some ent ∧ s = t) (fun _ => False) s := by
  have hlt : e < fs.length+2 := by
    rw [← entries_length]
    exact (List.getElem?_eq_some_iff.mp he).1
  have hlen := congrArg List.length hh.names
  rw [bytes_of_length, flatten_length entries_dirents, entries_length] at hlen
  have hsize := (congrArg Dinode.size hs.mem).trans (root_size hh hf)
  have hin : DIRENT*e+DIRENT ≤ DIRENT*(fs.length+2) := Nat.mul_le_mul_left DIRENT hlt
  have hbig : DIRENT*(fs.length+2) < (s.mem ROOTINO).size := by
    rw [hsize]
    simp only [BSIZE]
    omega
  have hmax : (s.mem ROOTINO).size ≤ MAXFILE*BSIZE := by
    rw [hsize]
    simp only [NINODES, DIRENT, MAXFILE, BSIZE] at hcount ⊢
    omega
  have hdir : (s.mem ROOTINO).type ≠ T_DEV := by
    rw [hs.mem, hf.root]
    show (disk h ROOTINO).type ≠ T_DEV
    rw [hh.dir]
    decide
  have hbyte : ∀ o, o < DIRENT*(fs.length+2) → ptr s ROOTINO (slotOf (o/BSIZE)) ≠ 0 ∧
      byteAt s ROOTINO o = byteAt (shown h) ROOTINO o := by
    intro o ho
    have := fixed_byte hh.made hf hh.root (Nat.lt_of_lt_of_eq ho hlen.symm)
    exact ⟨sees_ptr hs ▸ this.1,(sees_byte hs o).trans this.2⟩
  have hent : ((bytesOf s ROOTINO).drop (DIRENT*e)).take DIRENT = ent := by
    rw [← flatten_part entries_dirents he, ← hh.names, bytesOf, bytesOf, slice_drop, slice_drop, slice_take,
      slice_take, hlen, Nat.min_eq_left (by omega), Nat.min_eq_left (by omega)]
    exact slice_congr fun k hk => (hbyte _ (by omega)).2
  refine ⟨by omega,entries_dirents _ (List.mem_of_getElem? he),?_⟩
  refine wp_post (readi_spec hmax hdir (by decide) fun o _ ho _ => (hbyte o (by omega)).1) ?_
  rintro r t ⟨rfl,rfl⟩
  refine ⟨?_,rfl⟩
  have hword : DIRENT*e ≤ (s.mem ROOTINO).size ∧ DIRENT*e+DIRENT < WORD := by
    simp only [MAXFILE, BSIZE, WORD] at hmax ⊢
    omega
  rw [readArray, bytes_of_length, if_pos hword, hent]

end Reading

theorem dirent_decode (hi : i < 256^2) : Dirent.decode (dirent i name) = ⟨i,strncpy DIRSIZ name⟩ := by
  have hmod : i%65536 = i := Nat.mod_eq_of_lt hi
  rw [dirent, decode_encode, xshort_eq hi, hmod]

theorem stripped_text (hx : Fits x) : (stripped x.name).length ≤ DIRSIZ ∧ 0 ∉ stripped x.name := by
  refine ⟨hx.short,?_⟩
  rw [stripped]
  split
  · exact fun hmem => hx.name (List.mem_of_mem_tail hmem)
  · exact hx.name

theorem entry_before {e : ℕ} (hfs : ∀ x ∈ fs, Fits x) (hnames : (fs.map fun x => stripped x.name).Nodup)
    (hx : fs[m]? = some x) (he : e < m+2) :
    ∃ i y, (entries fs)[e]? = some (dirent i y) ∧ i < fs.length+2 ∧ y ≠ stripped x.name ∧
      y.length ≤ DIRSIZ ∧ 0 ∉ y := by
  have hmem := List.mem_of_getElem? hx
  have hproper := (hfs x hmem).proper
  cases e with
  | zero => exact ⟨ROOTINO,dot,rfl,by simp only [ROOTINO]; omega,Ne.symm hproper.2.1,by decide,by decide⟩
  | succ e =>
    cases e with
    | zero => exact ⟨ROOTINO,dotdot,rfl,by simp only [ROOTINO]; omega,Ne.symm hproper.2.2,by decide,by decide⟩
    | succ e =>
      obtain ⟨hm,rfl⟩ := List.getElem?_eq_some_iff.mp hx
      have hem : e < fs.length := by omega
      have htext := stripped_text (hfs fs[e] (List.getElem_mem hem))
      refine ⟨e+2,stripped fs[e].name,?_,by omega,fun heq => ?_,htext⟩
      · rw [entries, List.getElem?_cons_succ, List.getElem?_cons_succ, List.getElem?_mapIdx,
          List.getElem?_eq_getElem hem, Option.map_some]
      · have hnum : ∀ {e}, e < fs.length → e < (fs.map fun x => stripped x.name).length := fun he => by
          rw [List.length_map]
          exact he
        have := (@List.Nodup.getElem_inj_iff _ _ hnames e (hnum hem) m (hnum hm)).mp
          (by rw [List.getElem_map, List.getElem_map]; exact heq)
        omega

theorem entry_of (hx : fs[m]? = some x) : (entries fs)[m+2]? = some (dirent (m+2) (stripped x.name)) := by
  rw [entries, List.getElem?_cons_succ, List.getElem?_cons_succ, List.getElem?_mapIdx, hx, Option.map_some]

theorem lookup_spec (hh : Holds h fs) (hf : Fixed h h') (hs : Sees s h' ROOTINO) (hfs : ∀ x ∈ fs, Fits x)
    (hnames : (fs.map fun x => stripped x.name).Nodup) (hcount : fs.length < NINODES) (hx : fs[m]? = some x) :
    wp exec (dirlookup ROOTINO (stripped x.name)) (fun q t => q = some (m+2,DIRENT*(m+2)) ∧ s = t)
      (fun _ => False) s := by
  have hm := (List.getElem?_eq_some_iff.mp hx).1
  have hword : fs.length+2 < 256^2 := Nat.lt_trans (Nat.add_lt_add_right hcount 2) (by decide)
  have htext := stripped_text (hfs x (List.mem_of_getElem? hx))
  have hdir : (s.mem ROOTINO).type = T_DIR := by
    rw [hs.mem, hf.root]
    exact hh.dir
  have hsize := (congrArg Dinode.size hs.mem).trans (root_size hh hf)
  rw [dirlookup, wp_bind, wp_inode, if_neg (fun hne => hne hdir)]
  refine lookup_from_spec (fun e => (entries fs).getD e []) (e := 0) (fun e he => ?_) (fun e he => ?_) ?_
    (Nat.zero_le _) ?_
  · have hlt : e < (entries fs).length := by
      rw [entries_length]
      omega
    refine entry_read hh hf hs hcount ?_
    rw [List.getD_eq_getElem?_getD, List.getElem?_eq_getElem hlt, Option.getD_some]
  · obtain ⟨i,y,hy,hi,hne,hlong⟩ := entry_before hfs hnames hx he
    rw [List.getD_eq_getElem?_getD, hy, Option.getD_some, dirent_decode (Nat.lt_trans hi hword)]
    exact fun heq => hne (strncpy_inj htext hlong (namecmp_zero.mp ((namecmp_stored _ _).mp heq))).symm
  · rw [List.getD_eq_getElem?_getD, entry_of hx, Option.getD_some, dirent_decode (by omega)]
    exact ⟨rfl,by omega,(namecmp_stored _ _).mpr (namecmp_zero.mpr rfl)⟩
  · rw [hsize]
    simp only [DIRENT, BSIZE]
    omega

theorem file_spec (hh : Holds h fs) (hf : Fixed h h') (hs : Sees s h' (m+2)) (hx : fs[m]? = some x)
    (hfit : Fits x)
    (hn : n < WORD) :
    wp exec (readi (m+2) off n) (fun r t => r = readArray x.bytes off n ∧ s = t) (fun _ => False) s ∧
      (s.mem (m+2)).type = T_FILE ∧ (s.mem (m+2)).size = x.bytes.length := by
  have hm := (List.getElem?_eq_some_iff.mp hx).1
  have hlive := hh.live m hm
  have hmem : s.mem (m+2) = disk h (m+2) := by
    rw [hs.mem, hf.others _ (by simp only [ROOTINO]; omega)]
  have hsize : (s.mem (m+2)).size = x.bytes.length := by
    rw [hmem, ← hh.bytes m x hx, bytes_of_length]
    rfl
  have htype : (s.mem (m+2)).type = T_FILE := by
    rw [hmem]
    exact hh.file m hm
  have hbyte : ∀ o, o < (s.mem (m+2)).size → ptr s (m+2) (slotOf (o/BSIZE)) ≠ 0 ∧
      byteAt s (m+2) o = byteAt (shown h) (m+2) o := by
    intro o ho
    rw [hmem] at ho
    have := fixed_byte hh.made hf hlive ho
    exact ⟨sees_ptr hs ▸ this.1,(sees_byte hs o).trans this.2⟩
  have hbytes : bytesOf s (m+2) = x.bytes := by
    rw [← hh.bytes m x hx, bytesOf, bytesOf, hmem]
    exact slice_congr fun k hk => (hbyte _ (by rw [hmem]; omega)).2
  refine ⟨?_,htype,hsize⟩
  rw [← hbytes]
  exact readi_spec (by rw [hsize]; exact hfit.size) (by rw [htype]; decide) hn fun o _ _ ho => (hbyte o ho).1

theorem read_file_spec {img : ℕ → Block} {mem : ℕ → Dinode} (hi : MkfsKernel.Image fs img)
    (hfs : ∀ x ∈ fs, Fits x)
    (hnames : (fs.map fun x => stripped x.name).Nodup) (hcount : fs.length < NINODES) (hx : x ∈ fs)
    (hn : n < WORD) :
    wp exec (readFile (stripped x.name) off n)
      (fun r _ => r = some (T_FILE,x.bytes.length,readArray x.bytes off n)) (fun _ => False)
        (boot img mem) := by
  obtain ⟨m,hm⟩ := List.getElem?_of_mem hx
  obtain ⟨h,h',hh,hf,rfl⟩ := hi.host
  have hlt := (List.getElem?_eq_some_iff.mp hm).1
  have hroot : (disk h' ROOTINO).type ≠ 0 := by
    rw [hf.root]
    exact hh.root.2
  have hfile : (disk h' (m+2)).type ≠ 0 := by
    rw [hf.others _ (by simp only [ROOTINO]; omega)]
    exact (hh.live m hlt).2
  have hroom : m+2 < ROOM :=
    Nat.lt_of_le_of_lt (Nat.add_le_add_right (Nat.le_of_lt (Nat.lt_trans hlt hcount)) 2) (by decide)
  have hsuper : (boot (shown h').blocks mem).sb = sb := hi.super
  have hblocks : (boot (shown h').blocks mem).blocks = (shown h').blocks := rfl
  generalize boot (shown h').blocks mem = s at hsuper hblocks ⊢
  unfold readFile
  refine wp_then (ilock_sees hsuper hblocks (by decide) hroot) ?_
  rintro - t ⟨hsb,hs⟩
  refine wp_then (lookup_spec hh hf hs hfs hnames hcount hm) ?_
  rintro q t ⟨rfl,rfl⟩
  refine wp_then (ilock_sees hsb hs.blocks hroom hfile) ?_
  rintro - u ⟨-,hu⟩
  obtain ⟨hread,htype,hsize⟩ := file_spec hh hf hu hm (hfs x hx) hn
  rw [wp_bind, wp_inode]
  refine wp_then hread ?_
  rintro r t ⟨rfl,rfl⟩
  rw [wp_pure, htype, hsize]

/-- The kernel reads the files of an image as `main` read them from the host. An argument
with a slash makes no image. -/
theorem image_reads_back (hfs : ∀ x ∈ fs, Fits x) (hnames : (fs.map fun x => stripped x.name).Nodup)
    (hcount : fs.length < NINODES) (hneed : need fs ≤ FSSIZE) :
    (main fs = none ↔ ∃ x ∈ fs, slash ∈ x.name) ∧
      ∀ h, main fs = some h → ∀ mem x off n, x ∈ fs → n < WORD →
        ∃ t, run exec (readFile (stripped x.name) off n) (boot h.image mem) =
          .ok (some (T_FILE,x.bytes.length,readArray x.bytes off n),t) := by
  have hmade : (∀ x ∈ fs, slash ∉ x.name) → ∃ h, main fs = some h ∧ MkfsKernel.Image fs h.image :=
    fun hslash =>
    main_image hfs hslash hcount hneed
  refine ⟨⟨fun hnone => ?_,fun ⟨x,hx,hslash⟩ => main_slash hx hslash⟩,fun h hmain mem x off n hx hn => ?_⟩
  · by_contra hno
    obtain ⟨h,hsome,-⟩ := hmade fun x hx hslash => hno ⟨x,hx,hslash⟩
    rw [hnone] at hsome
    cases hsome
  · obtain ⟨h',hsome,himage⟩ := hmade fun y hy hslash => by
      rw [main_slash hy hslash] at hmain
      cases hmain
    cases hmain.symm.trans hsome
    obtain ⟨r,t,hrun,rfl⟩ := wp_result (read_file_spec himage hfs hnames hcount hx hn)
    exact ⟨t,hrun⟩


def twoReads : Input := ⟨[underscore,97],[[7],[8]]⟩

theorem two_reads_fits : Fits twoReads :=
  ⟨by decide,by decide,by decide,by decide,by decide⟩

theorem image_reads_back_two : ∃ h, main [twoReads] = some h ∧ ∀ mem,
    ∃ t, run exec (readFile [97] 0 2) (boot h.image mem) = .ok (some (T_FILE,2,some [7,8]),t) := by
  obtain ⟨hnone,hread⟩ := image_reads_back
    (fun x hx => List.mem_singleton.mp hx ▸ two_reads_fits) (by decide) (by decide) (by decide)
  cases hmain : main [twoReads] with
  | none =>
    obtain ⟨x,hx,hslash⟩ := hnone.mp hmain
    cases List.mem_singleton.mp hx
    exact absurd hslash (by decide)
  | some h => exact ⟨h,rfl,fun mem => hread h hmain mem twoReads 0 2 List.mem_cons_self (by decide)⟩

end Xv6.MkfsKernel

import Xv6.MkfsKernel
import Mathlib.Algebra.BigOperators.Fin
import Mathlib.Data.Finset.Sigma
import Mathlib.Data.List.TakeWhile

/-!
# What mkfs makes is well formed

Where `main` ends without an error, every block it has given out was there to be read, so all
blocks are inside the image, and every one of them belongs to a file. What can go wrong is the
number of files: past `NINODES` the inodes are not checked, and a root directory of whole
blocks gets a size with one block more than it has.
-/

set_option autoImplicit false

namespace Xv6.MkfsShape
open CommandTree ByteFields BlockCode BlockStore BlockFiles MkfsCode MkfsImage MkfsKernel
open InodeCode (BSIZE MAXFILE DIRENT ROOTINO T_DIR T_FILE Byte slash)
open FileCalls (dot dotdot)

variable {h h' : Host} {i k n off : ℕ} {d : Dinode} {p : List Byte}

theorem rsect_outside (hs : h.sectors = FSSIZE) {b : ℕ} (hb : FSSIZE ≤ b) : rsect h b = none := by
  rw [rsect, hs, if_neg (Nat.not_lt.mpr hb)]

theorem xint_size : xint FSSIZE = FSSIZE := by decide +kernel

theorem entry_block_full {fbn x : ℕ} (hm : Mid h i d (fbn+1)) (hfbn : NDIRECT ≤ fbn) (hmax : fbn < MAXFILE)
    (hfull : h.freeblock = FSSIZE) (hs : entryBlock h d (fbn-NDIRECT) = some (x,h')) : rsect h' x = none := by
  have hslot : fbn+1 < SLOTS := by
    simp only [MAXFILE, SLOTS] at hmax ⊢
    omega
  obtain ⟨hlow,hlt,hread⟩ := ptr_sector hm (by decide : NDIRECT < SLOTS) (by omega)
  obtain ⟨h1,h2⟩ := addr_word hm (Nat.le_refl NDIRECT)
  have hind := (hm.filled NDIRECT (by decide)).mpr (by omega)
  have hentry := ptr_entry (s := view h i d) (i := i) hfbn hind
  have hempty : ptr (view h i d) i (fbn+1) = 0 := by
    by_contra hne
    exact Nat.lt_irrefl _ ((hm.filled _ hslot).mp hne)
  rw [entryBlock, h2, h1, hread] at hs
  simp only [Option.bind_eq_bind, Option.bind_some, hentry] at hs
  rw [if_pos hempty] at hs
  simp only [newBlock, hfull, xint_size] at hs
  cases hs
  rw [field_paste_same (by decide : FSSIZE < 256^4), xint_size]
  refine rsect_outside ?_ (Nat.le_refl _)
  have := hm.fit.sectors
  simp only [wsect]
  omega

theorem file_block_full {x : ℕ} {d' : Dinode} (hm : Mid h i d (limit off)) (hmax : off/BSIZE < MAXFILE)
    (hfull : FSSIZE+limit off < h.freeblock+limit (off+1))
    (hs : fileBlock h d (off/BSIZE) = some (x,d',h')) : rsect h' x = none := by
  have hcases := limit_cases off
  have hhigh := hm.fit.high
  generalize off/BSIZE = fbn at hmax hcases hs
  by_cases hdirect : fbn < NDIRECT
  · have hfree : h.freeblock = FSSIZE ∧ limit off = fbn := by
      rw [slotOf, if_pos hdirect] at hcases
      omega
    rw [hfree.2] at hm
    have hempty : ptr (view h i d) i fbn = 0 := by
      by_contra hne
      exact Nat.lt_irrefl _ ((hm.filled fbn (Nat.lt_trans hdirect (by decide))).mp hne)
    obtain ⟨h1,h2⟩ := addr_word hm (Nat.le_of_lt hdirect)
    rw [fileBlock, if_pos hdirect, dinBlock, h2, h1, if_pos hempty] at hs
    simp only [newBlock, hfree.1, xint_size, Function.update_self] at hs
    cases hs
    exact rsect_outside hm.fit.sectors (Nat.le_refl _)
  · rw [slotOf, if_neg hdirect] at hcases
    rw [fileBlock, if_neg hdirect] at hs
    by_cases hnew : limit off = NDIRECT
    · -- the indirect block is new too
      have hfbn : fbn = NDIRECT := by omega
      subst hfbn
      rw [hnew] at hm
      by_cases hone : h.freeblock < FSSIZE
      · obtain ⟨d1,h1,heq,hf⟩ := din_block_spec hm (Nat.le_refl NDIRECT) (Nat.le_refl _) (fun _ => hone)
        have hblock := hf.block
        rw [Nat.max_eq_right (Nat.le_succ _)] at hf hblock
        simp only [heq, Option.bind_eq_bind] at hs
        obtain ⟨⟨x1,h2⟩,hentry,heq2⟩ := Option.bind_eq_some_iff.mp hs
        cases heq2
        exact entry_block_full hf.mid (Nat.le_refl _) hmax (by omega) hentry
      · have hempty : ptr (view h i d) i NDIRECT = 0 := by
          by_contra hne
          exact Nat.lt_irrefl _ ((hm.filled NDIRECT (by decide)).mp hne)
        obtain ⟨h1,h2⟩ := addr_word hm (Nat.le_refl NDIRECT)
        have hfree : h.freeblock = FSSIZE := by omega
        have hnone : ∀ j, entryBlock { h with freeblock := FSSIZE+1 }
            { d with addrs := Function.update d.addrs NDIRECT FSSIZE } j = none := fun j => by
          have hread : rsect { h with freeblock := FSSIZE+1 }
            (xint (Function.update d.addrs NDIRECT FSSIZE NDIRECT)) =
              none := by
            rw [Function.update_self, xint_size]
            exact rsect_outside hm.fit.sectors (Nat.le_refl _)
          rw [entryBlock, hread]
          rfl
        rw [dinBlock, h2, h1, if_pos hempty] at hs
        simp only [newBlock, hfree, xint_size, hnone, Option.bind_eq_bind, Option.bind_none] at hs
        cases hs
    · have hfree : h.freeblock = FSSIZE ∧ limit off = fbn+1 := by omega
      rw [hfree.2] at hm
      rw [din_block_there hm (Nat.le_refl _) (by omega)] at hs
      simp only [Option.bind_eq_bind] at hs
      obtain ⟨⟨x1,h2⟩,hentry,heq2⟩ := Option.bind_eq_some_iff.mp hs
      cases heq2
      exact entry_block_full hm (Nat.le_of_not_lt hdirect) hmax hfree.1 hentry

theorem append_from_room {r : ℕ} {q : Dinode × ℕ × Host} (hm : Mid h i d (limit off)) (hfuel : p.length ≤ r)
    (hoff : off ≤ MAXFILE*BSIZE) (hs : iappendFrom r h d off p = some q) :
    off+p.length ≤ MAXFILE*BSIZE ∧ h.freeblock+limit (off+p.length) ≤ FSSIZE+limit off := by
  have hnil : p.length = 0 → off+p.length ≤ MAXFILE*BSIZE ∧
    h.freeblock+limit (off+p.length) ≤ FSSIZE+limit off := by
    intro h0
    have := hm.fit.high
    rw [h0, Nat.add_zero]
    omega
  induction r generalizing h d off p with
  | zero => exact hnil (Nat.le_zero.mp hfuel)
  | succ r ih =>
    by_cases hpos : 0 < p.length
    · by_cases hmax : off/BSIZE < MAXFILE
      · by_cases hfree : h.freeblock+limit (off+1) ≤ FSSIZE+limit off
        · obtain ⟨m,d1,h1,hm0,hmp,hround,hlim,heq,ha⟩ := append_round hm hpos hmax hfree
          rw [heq] at hs
          have hlen : (p.take m).length = m := by
            rw [List.length_take]
            omega
          have hdrop : (p.drop m).length = p.length-m := List.length_drop
          have hmid := ha.mid
          have hblock := ha.block
          rw [hlen] at hmid hblock
          have hend : off+m ≤ MAXFILE*BSIZE := Nat.le_trans hround (Nat.mul_le_mul_right _ hmax)
          have hrest := ih hmid (by omega) hend hs (fun h0 => by
            have := hmid.fit.high
            rw [h0, Nat.add_zero]
            omega)
          rw [hdrop, show off+m+(p.length-m) = off+p.length by omega] at hrest
          exact ⟨hrest.1,by omega⟩
        · rw [iappendFrom, if_pos hpos] at hs
          simp only [if_pos hmax, Option.bind_eq_bind] at hs
          obtain ⟨⟨x,d1,h1⟩,hblock,hs⟩ := Option.bind_eq_some_iff.mp hs
          simp only [file_block_full hm hmax (by omega) hblock, Option.bind_none] at hs
          cases hs
      · rw [iappendFrom, if_pos hpos] at hs
        simp only [if_neg hmax] at hs
        cases hs
    · exact hnil (by omega)

theorem iappend_room (hm : Made h) (hi : Live (shown h) i) (hs : iappend h i p = some h') :
    (bytesOf (shown h) i).length+p.length ≤ MAXFILE*BSIZE ∧
      h.freeblock+limit ((bytesOf (shown h) i).length+p.length) ≤ FSSIZE+limit
        (bytesOf (shown h) i).length := by
  have hlen : (bytesOf (shown h) i).length = (disk h i).size := bytes_of_length
  have hsize : (disk h i).size ≤ MAXFILE*BSIZE := hm.image.size i hi
  have hword : xint (disk h i).size = (disk h i).size := by
    simp only [MAXFILE, BSIZE] at hsize
    exact xint_eq (by omega)
  have hmid : Mid h i (disk h i) (limit (disk h i).size) := by
    refine ⟨hm.fit,?_,?_,?_⟩ <;> rw [view_disk]
    · exact hm.image.sound
    · exact hi
    · exact hm.filled i hi
  rw [iappend, rinode_eq hm.fit hi.1] at hs
  simp only [Option.bind_eq_bind, Option.bind_some, hword] at hs
  obtain ⟨q,hfrom,-⟩ := Option.bind_eq_some_iff.mp hs
  rw [hlen]
  exact append_from_room hmid (Nat.le_refl _) hsize hfrom

theorem append_reads_room {reads : List (List Byte)} (hm : Made h) (hi : Live (shown h) i)
    (hreads : ∀ c ∈ reads, c ≠ []) (hs : appendReads i h reads = some h') :
    (bytesOf (shown h) i).length+reads.flatten.length ≤ MAXFILE*BSIZE ∧
      h.freeblock+limit ((bytesOf (shown h) i).length+reads.flatten.length) ≤
        FSSIZE+limit (bytesOf (shown h) i).length := by
  induction reads generalizing h with
  | nil =>
    have hsize : (bytesOf (shown h) i).length ≤ MAXFILE*BSIZE := by
      rw [bytes_of_length]
      exact hm.image.size i hi
    have := hm.fit.high
    rw [List.flatten_nil, List.length_nil, Nat.add_zero]
    omega
  | cons c rest ih =>
    have hc := hreads c List.mem_cons_self
    rw [appendReads, if_neg hc] at hs
    obtain ⟨h1,heq,hrest⟩ := Option.bind_eq_some_iff.mp hs
    obtain ⟨hmax,hfree⟩ := iappend_room hm hi heq
    obtain ⟨h2,heq2,hg⟩ := iappend_grown hm hi (List.length_pos_iff.mpr hc) hmax hfree
    cases heq.symm.trans heq2
    have hblock := hg.block
    have hroom := ih hg.made ((hg.live i).mpr hi) (fun c hc => hreads c (List.mem_cons_of_mem _ hc)) hrest
    rw [hg.file, List.length_append] at hroom
    rw [List.flatten_cons, List.length_append, ← Nat.add_assoc]
    omega

variable {fs : List Input} {x : Input}

theorem add_file_done (hh : Holds h fs) (hreads : ∀ c ∈ x.reads, c ≠ []) (hcount : fs.length+1 < NINODES)
    (hs : addFile h x = some h') : Holds h' (fs++[x]) := by
  have hslash : slash ∉ x.name := fun hslash => by
    rw [addFile, if_pos hslash] at hs
    cases hs
  have hroom : fs.length+2 < ROOM := Nat.lt_trans (Nat.succ_lt_succ hcount) (by decide)
  have hblock := hh.block
  rw [need] at hblock
  have hentries : (entries fs).flatten.length = DIRENT*(fs.length+2) := by
    rw [flatten_length entries_dirents, entries_length]
  have hne : ROOTINO ≠ fs.length+2 := by
    simp only [ROOTINO]
    omega
  obtain ⟨h1,heq1,ha⟩ := ialloc_added hh.made hh.next hroom (by decide : T_FILE ≠ 0) (by decide)
  have hroot1 := ((ha.keeps ROOTINO hne).1).mpr hh.root
  have hnames1 : bytesOf (shown h1) ROOTINO = (entries fs).flatten :=
    ((ha.keeps ROOTINO hne).2.2 hh.root).trans hh.names
  have hdirent : (dirent (fs.length+2) (stripped x.name)).length = DIRENT := dirent_length _ _
  have hnext : DIRENT*(fs.length+2)+DIRENT = DIRENT*(fs.length+3) := rfl
  have hwhole := hs
  rw [addFile, if_neg hslash, heq1] at hs
  simp only [Option.bind_eq_bind, Option.bind_some] at hs
  obtain ⟨h2,heq2,hs⟩ := Option.bind_eq_some_iff.mp hs
  obtain ⟨hmax2,hfree2⟩ := iappend_room ha.made hroot1 heq2
  obtain ⟨h2',heq2',hb⟩ := iappend_grown ha.made hroot1 (by rw [hdirent]; decide) hmax2 hfree2
  cases heq2.symm.trans heq2'
  have hblock2 := hb.block
  rw [hnames1, hentries, hdirent, ha.block, hnext] at hblock2
  have hempty : bytesOf (shown h2) (fs.length+2) = [] := (hb.others _ ha.live (Ne.symm hne)).trans ha.empty
  obtain ⟨hmax3,hfree3⟩ := append_reads_room hb.made ((hb.live _).mpr ha.live) hreads hs
  rw [hempty, List.length_nil, Nat.zero_add] at hmax3 hfree3
  rw [limit_zero] at hfree3
  have hbytes : limit x.reads.flatten.length = limit x.bytes.length := rfl
  obtain ⟨h3,heq3,hh3⟩ := add_file_holds hh hreads hmax3 hslash hcount (by rw [need_snoc]; omega)
  cases hwhole.symm.trans heq3
  exact hh3

theorem add_files_done {gs : List Input} (hh : Holds h fs) (hreads : ∀ x ∈ gs, ∀ c ∈ x.reads, c ≠ [])
    (hcount : fs.length+gs.length < NINODES) (hs : gs.foldlM addFile h = some h') : Holds h' (fs++gs) := by
  induction gs generalizing h fs with
  | nil =>
    cases hs
    rwa [List.append_nil]
  | cons x gs ih =>
    rw [List.length_cons] at hcount
    rw [List.foldlM_cons] at hs
    obtain ⟨h1,heq,hs⟩ := Option.bind_eq_some_iff.mp hs
    have hh1 := add_file_done hh (hreads x List.mem_cons_self) (by omega) heq
    have hall := ih hh1 (fun y hy => hreads y (List.mem_cons_of_mem _ hy))
      (by rw [List.length_append, List.length_singleton]; omega) hs
    rwa [List.append_assoc, List.singleton_append] at hall

theorem main_steps (hs : main fs = some h) : ∃ a h1 h2, Holds a [] ∧ fs.foldlM addFile a = some h1 ∧
    fixRoot h1 = some h2 ∧ h = wsect h2 sb.bmapstart (bitmap h2.freeblock) := by
  obtain ⟨a1,a2,a3,heqa,heqb,heqc,hh⟩ := start_holds
  rw [main, heqa] at hs
  simp only [Option.bind_eq_bind, Option.bind_some] at hs
  rw [if_neg (fun hne => hne rfl), heqb] at hs
  simp only [Option.bind_some, heqc] at hs
  obtain ⟨h1,hfold,hs⟩ := Option.bind_eq_some_iff.mp hs
  obtain ⟨h2,heq2,hs⟩ := Option.bind_eq_some_iff.mp hs
  rw [MkfsCode.balloc] at hs
  split at hs
  · cases hs
    exact ⟨a3,h1,h2,hh,hfold,heq2,rfl⟩
  · cases hs

theorem main_done (hreads : ∀ x ∈ fs, ∀ c ∈ x.reads, c ≠ []) (hcount : fs.length < NINODES)
    (hs : main fs = some h) : ∃ h1 h2, Holds h1 fs ∧ Fixed h1 h2 ∧
    h = wsect h2 sb.bmapstart (bitmap h2.freeblock) := by
  obtain ⟨a,h1,h2,hh,hfold,heq2,rfl⟩ := main_steps hs
  have hh1 := add_files_done hh hreads (by rw [List.length_nil, Nat.zero_add]; exact hcount) hfold
  rw [List.nil_append] at hh1
  obtain ⟨h3,heq3,hf⟩ := fix_root_spec hh1.made hh1.root
  cases heq2.symm.trans heq3
  exact ⟨h1,h2,hh1,hf,rfl⟩

theorem winode_inode (hs : winode h i d = some h') : h'.freeinode = h.freeinode := by
  obtain ⟨buf,-,heq⟩ := Option.bind_eq_some_iff.mp hs
  cases heq
  rfl

theorem din_block_inode : (dinBlock h d k).2.freeinode = h.freeinode := by
  rw [dinBlock]
  split <;> rfl

theorem entry_block_inode {r : ℕ × Host} (hs : entryBlock h d k = some r) : r.2.freeinode = h.freeinode := by
  obtain ⟨buf,-,heq⟩ := Option.bind_eq_some_iff.mp hs
  split at heq <;> cases heq <;> rfl

theorem file_block_inode {r : ℕ × Dinode × Host} (hs : fileBlock h d n = some r) :
    r.2.2.freeinode = h.freeinode := by
  rw [fileBlock] at hs
  split at hs
  · cases hs
    exact din_block_inode
  · obtain ⟨⟨x,h1⟩,hentry,heq⟩ := Option.bind_eq_some_iff.mp hs
    cases heq
    exact (entry_block_inode hentry).trans din_block_inode

theorem append_from_inode {r : ℕ} {q : Dinode × ℕ × Host} (hs : iappendFrom r h d off p = some q) :
    q.2.2.freeinode = h.freeinode := by
  induction r generalizing h d off p with
  | zero =>
    cases hs
    rfl
  | succ r ih =>
    rw [iappendFrom] at hs
    split at hs
    · simp only at hs
      split at hs
      · obtain ⟨⟨x,d1,h1⟩,hblock,hs⟩ := Option.bind_eq_some_iff.mp hs
        obtain ⟨buf,-,hs⟩ := Option.bind_eq_some_iff.mp hs
        exact (ih hs).trans (file_block_inode hblock)
      · cases hs
    · cases hs
      rfl

theorem iappend_inode (hs : iappend h i p = some h') : h'.freeinode = h.freeinode := by
  obtain ⟨din,-,hs⟩ := Option.bind_eq_some_iff.mp hs
  obtain ⟨⟨d1,off1,h1⟩,hfrom,hs⟩ := Option.bind_eq_some_iff.mp hs
  exact (winode_inode hs).trans (append_from_inode hfrom)

theorem append_reads_inode {reads : List (List Byte)} (hs : appendReads i h reads = some h') :
    h'.freeinode = h.freeinode := by
  induction reads generalizing h with
  | nil =>
    cases hs
    rfl
  | cons c rest ih =>
    rw [appendReads] at hs
    split at hs
    · cases hs
      rfl
    · obtain ⟨h1,heq,hs⟩ := Option.bind_eq_some_iff.mp hs
      exact (ih hs).trans (iappend_inode heq)

theorem ialloc_inode {type : ℕ} {r : ℕ × Host} (hs : ialloc h type = some r) :
    r.1 = h.freeinode ∧ r.2.freeinode = h.freeinode+1 := by
  obtain ⟨h1,heq,hr⟩ := Option.bind_eq_some_iff.mp hs
  cases hr
  exact ⟨rfl,winode_inode heq⟩

theorem add_file_inode (hs : addFile h x = some h') : h'.freeinode = h.freeinode+1 := by
  rw [addFile] at hs
  split at hs
  · cases hs
  · obtain ⟨⟨inum,h1⟩,heq,hs⟩ := Option.bind_eq_some_iff.mp hs
    obtain ⟨h2,heq2,hs⟩ := Option.bind_eq_some_iff.mp hs
    rw [append_reads_inode hs, iappend_inode heq2, (ialloc_inode heq).2]

theorem add_files_inode (hs : fs.foldlM addFile h = some h') : h'.freeinode = h.freeinode+fs.length := by
  induction fs generalizing h with
  | nil =>
    cases hs
    rfl
  | cons x fs ih =>
    rw [List.foldlM_cons] at hs
    obtain ⟨h1,heq,hs⟩ := Option.bind_eq_some_iff.mp hs
    rw [ih hs, add_file_inode heq, List.length_cons]
    omega

theorem main_inode (hs : main fs = some h) : h.freeinode = fs.length+2 := by
  obtain ⟨a,h1,h2,hh,hfold,hfix,rfl⟩ := main_steps hs
  obtain ⟨din,-,hfix⟩ := Option.bind_eq_some_iff.mp hfix
  have hnext : a.freeinode = 2 := hh.next
  show h2.freeinode = _
  rw [winode_inode hfix, add_files_inode hfold, hnext, Nat.add_comm]

/-- The calls of `read` up to the end of the file. -/
def untilEnd (x : Input) : Input := { x with reads := x.reads.takeWhile (fun c => !c.isEmpty) }

theorem append_reads_until (reads : List (List Byte)) :
    appendReads i h (reads.takeWhile (fun c => !c.isEmpty)) = appendReads i h reads := by
  induction reads generalizing h with
  | nil => rfl
  | cons c rest ih =>
    cases c with
    | nil => rfl
    | cons b c =>
      rw [List.takeWhile_cons_of_pos rfl, appendReads, appendReads, if_neg (List.cons_ne_nil _ _),
        if_neg (List.cons_ne_nil _ _)]
      exact congrArg _ (funext fun h => ih)

theorem main_until (fs : List Input) : main (fs.map untilEnd) = main fs := by
  have hadd : ∀ h x, addFile h (untilEnd x) = addFile h x := fun h x => by
    simp only [addFile, untilEnd, append_reads_until]
  simp only [main, List.foldlM_map, hadd]

theorem until_reads : ∀ x ∈ fs.map untilEnd, ∀ c ∈ x.reads, c ≠ [] := by
  intro x hx c hc
  obtain ⟨y,-,rfl⟩ := List.mem_map.mp hx
  have := List.mem_takeWhile_imp hc
  rintro rfl
  cases this

theorem limit_slots {m : ℕ} (hm : m ≤ MAXFILE*BSIZE) : limit m ≤ SLOTS := by
  have hblocks : blocksFor m ≤ 140 := by
    simp only [blocksFor, MAXFILE, BSIZE] at hm ⊢
    omega
  simp only [limit, NDIRECT, SLOTS]
  split <;> omega

def Used (h : Host) (i : ℕ) : Prop := 1 ≤ i ∧ i < h.freeinode

theorem used_live (hh : Holds h fs) (hi : Used h i) : Live (shown h) i := by
  obtain ⟨hlow,hhigh⟩ := hi
  rw [hh.next] at hhigh
  rcases Nat.lt_or_eq_of_le hlow with hlt | rfl
  · obtain ⟨m,rfl⟩ := Nat.exists_eq_add_of_le' hlt
    exact hh.live m (by omega)
  · exact hh.root

theorem file_limits (hh : Holds h fs) :
    h.freeblock = nmeta+∑ m ∈ Finset.range (fs.length+1), limit (disk h (m+1)).size := by
  have hroot : (disk h 1).size = DIRENT*(fs.length+2) := by
    have hlen : (bytesOf (shown h) ROOTINO).length = (disk h 1).size := bytes_of_length
    rw [← hlen, hh.names, flatten_length entries_dirents, entries_length]
  have hfile : ∀ m (hm : m < fs.length), (disk h (m+2)).size = (fs[m]).bytes.length := fun m hm => by
    have hlen : (bytesOf (shown h) (m+2)).length = (disk h (m+2)).size := bytes_of_length
    rw [← hlen, hh.bytes m _ (List.getElem?_eq_getElem hm)]
  have hsum : (fs.map (fun x => limit x.bytes.length)).sum = ∑ m : Fin fs.length,
    limit (disk h (m.val+1+1)).size := by
    rw [← Fin.sum_univ_fun_getElem fs (fun x => limit x.bytes.length)]
    exact Finset.sum_congr rfl (fun m _ => by rw [hfile m.val m.isLt])
  rw [Finset.sum_range_succ', hh.block, need, hroot, Finset.sum_range, hsum]
  omega

theorem shown_use {b : ℕ} (hb : b < FSSIZE) : inUse (shown h) b = decide (b < h.freeblock) := by
  rw [← view_disk (i := 0)]
  exact view_use hb

theorem block_of_file {b : ℕ} (hh : Holds h fs) (hlow : nmeta ≤ b) (hb : b < h.freeblock) :
    ∃ i k, Used h i ∧ k < SLOTS ∧ ptr (shown h) i k = b := by
  have hused : ∀ {m}, m < fs.length+1 → Used h (m+1) := fun hm => ⟨Nat.succ_pos _,by rw [hh.next]; omega⟩
  have hslot : ∀ {m k}, m < fs.length+1 → k < limit (disk h (m+1)).size → k < SLOTS := fun hm hk =>
    Nat.lt_of_lt_of_le hk (limit_slots (hh.made.image.size _ (used_live hh (hused hm))))
  have hptr : ∀ {m k}, m < fs.length+1 → k < limit (disk h (m+1)).size → ptr (shown h) (m+1) k ≠ 0 :=
    fun hm hk =>
    (hh.made.filled _ (used_live hh (hused hm)) _ (hslot hm hk)).mpr hk
  let P : Finset (Σ _ : ℕ, ℕ) :=
    (Finset.range (fs.length+1)).sigma (fun m => Finset.range (limit (disk h (m+1)).size))
  have hmem : ∀ a ∈ P, a.1 < fs.length+1 ∧ a.2 < limit (disk h (a.1+1)).size := fun a ha => by
    rw [Finset.mem_sigma, Finset.mem_range, Finset.mem_range] at ha
    exact ha
  -- the slots are as many as the blocks, and no two of them have the same block
  have hcard : (Finset.Ico nmeta h.freeblock).card ≤ P.card := by
    rw [Finset.card_sigma, Nat.card_Ico, file_limits hh, Nat.add_sub_cancel_left]
    simp only [Finset.card_range, le_refl]
  obtain ⟨⟨m,k⟩,ha,heq⟩ := Finset.surj_on_of_inj_on_of_card_le (s := P) (t := Finset.Ico nmeta h.freeblock)
    (fun a _ => ptr (shown h) (a.1+1) a.2)
    (fun a ha => by
      obtain ⟨hm,hk⟩ := hmem a ha
      obtain ⟨h1,h2,h3⟩ := hh.made.image.sound.owned (used_live hh (hused hm)) (hslot hm hk) (hptr hm hk)
      rw [shown_use h2, decide_eq_true_eq] at h3
      exact Finset.mem_Ico.mpr ⟨view_start ▸ h1,h3⟩)
    (fun a a' ha ha' heq => by
      obtain ⟨hm,hk⟩ := hmem a ha
      obtain ⟨hm',hk'⟩ := hmem a' ha'
      obtain ⟨h1,h2⟩ := hh.made.image.sound.once (used_live hh (hused hm)) (used_live hh (hused hm'))
        (hslot hm hk) (hslot hm' hk') (hptr hm hk) heq
      exact Sigma.ext (Nat.succ.inj h1) (heq_of_eq h2))
    hcard b (Finset.mem_Ico.mpr ⟨hlow,hb⟩)
  obtain ⟨hm,hk⟩ := hmem _ ha
  exact ⟨m+1,k,hused hm,hslot hm hk,heq.symm⟩

def seen (h : Host) : Store := ⟨sb,h.image,fun i => readDinode (h.image (IBLOCK i sb)) (i%IPB)⟩

structure WellFormed (h : Host) : Prop where
  inodes : ∀ i, Used h i → i < sb.ninodes
  blocks : ∀ i k, Used h i → k < SLOTS → ptr (seen h) i k ≠ 0 → ptr (seen h) i k < sb.size
  bits : ∀ b, b < BPB → (isSet (h.image sb.bmapstart) b = true ↔
    b < dataStart sb ∨ ∃ i k, Used h i ∧ k < SLOTS ∧ ptr (seen h) i k = b)
  full : ∀ i n, Used h i → n < blocksFor ((seen h).mem i).size → ptr (seen h) i (slotOf n) ≠ 0
  reads : ∀ i n, Used h i → n < blocksFor ((seen h).mem i).size →
    wp exec (bmap i n) (fun a t => a = ptr (seen h) i (slotOf n) ∧ seen h = t) (fun _ => False) (seen h)

section Final
variable {h1 h2 : Host}

theorem seen_mem (hi : i < ROOM) :
    (seen (wsect h2 sb.bmapstart (bitmap h2.freeblock))).mem i = disk h2 i := by
  have hlow := iblock_lt hi
  have hne : IBLOCK i sb ≠ sb.bmapstart := by
    rw [iblock_view]
    exact Nat.ne_of_lt hlow
  rw [disk, if_pos hi, ← iblock_view]
  simp only [seen, wsect, Function.update_of_ne hne]

theorem seen_ptr (hi : i < ROOM) :
    ptr (seen (wsect h2 sb.bmapstart (bitmap h2.freeblock))) i k = ptr (shown h2) i k := by
  rw [ptr, ptr, seen_mem hi]
  rfl

theorem used_room (hh : Holds h1 fs) (hcount : fs.length+1 < NINODES) (hi : Used h1 i) : i < ROOM := by
  have hhigh := hi.2
  rw [hh.next] at hhigh
  exact Nat.lt_trans (by omega : i < NINODES) (by decide)

theorem final_slot (hh : Holds h1 fs) (hcount : fs.length+1 < NINODES) (hf : Fixed h1 h2) (hi : Used h1 i)
    (hk : k < SLOTS) :
    ptr (seen (wsect h2 sb.bmapstart (bitmap h2.freeblock))) i k ≠ 0 ↔ k < limit (disk h1 i).size := by
  rw [seen_ptr (used_room hh hcount hi), fixed_ptr hh.made hf (used_live hh hi)]
  exact hh.made.filled i (used_live hh hi) k hk

theorem slot_of_block {m : ℕ} (hn : n < blocksFor m) : slotOf n < limit m := by
  unfold slotOf limit
  split <;> split <;> omega

theorem root_blocks (hh : Holds h1 fs) : (disk h1 ROOTINO).size = DIRENT*(fs.length+2) := by
  have hlen : (bytesOf (shown h1) ROOTINO).length = (disk h1 ROOTINO).size := bytes_of_length
  rw [← hlen, hh.names, flatten_length entries_dirents, entries_length]

theorem final_full (hh : Holds h1 fs) (hcount : fs.length+1 < NINODES) (hf : Fixed h1 h2)
    (hwhole : (fs.length+2)%32 ≠ 0) (hi : Used h1 i)
    (hn : n < blocksFor ((seen (wsect h2 sb.bmapstart (bitmap h2.freeblock))).mem i).size) :
    n < MAXFILE ∧ ptr (seen (wsect h2 sb.bmapstart (bitmap h2.freeblock))) i (slotOf n) ≠ 0 := by
  have hlive := used_live hh hi
  rw [seen_mem (used_room hh hcount hi)] at hn
  have hsize : (disk h1 i).size ≤ MAXFILE*BSIZE := hh.made.image.size i hlive
  have hblocks : n < blocksFor (disk h1 i).size := by
    by_cases hroot : i = ROOTINO
    · subst hroot
      rw [hf.root] at hn
      have hroot := root_blocks hh
      simp only [blocksFor, BSIZE, DIRENT] at hn hroot ⊢
      omega
    · rwa [hf.others i hroot] at hn
  have hmax : n < MAXFILE := by
    simp only [blocksFor, MAXFILE, BSIZE] at hblocks hsize ⊢
    omega
  exact ⟨hmax,(final_slot hh hcount hf hi (slot_lt hmax)).mpr (slot_of_block hblocks)⟩

theorem final_hole (hh : Holds h1 fs) (hcount : fs.length+1 < NINODES) (hf : Fixed h1 h2)
    (hwhole : (fs.length+2)%32 = 0) :
    ∃ n, n < blocksFor ((seen (wsect h2 sb.bmapstart (bitmap h2.freeblock))).mem ROOTINO).size ∧
      ptr (seen (wsect h2 sb.bmapstart (bitmap h2.freeblock))) ROOTINO (slotOf n) = 0 := by
  have hi : Used h1 ROOTINO := ⟨Nat.le_refl _,by rw [hh.next]; simp only [ROOTINO]; omega⟩
  have hroot := root_blocks hh
  rw [seen_mem (used_room hh hcount hi), hf.root]
  have hq : (disk h1 ROOTINO).size/BSIZE < 7 ∧
    blocksFor (disk h1 ROOTINO).size = (disk h1 ROOTINO).size/BSIZE := by
    simp only [NINODES, DIRENT, BSIZE, blocksFor] at hcount hroot ⊢
    omega
  refine ⟨(disk h1 ROOTINO).size/BSIZE,?_,?_⟩
  · simp only [blocksFor, BSIZE]
    omega
  · have hslot : slotOf ((disk h1 ROOTINO).size/BSIZE) = (disk h1 ROOTINO).size/BSIZE := by
      simp only [slotOf, NDIRECT]
      rw [if_pos (by omega)]
    by_contra hne
    rw [hslot] at hne
    have hlt := (final_slot hh hcount hf hi (by simp only [SLOTS]; omega)).mp hne
    have hlim : limit (disk h1 ROOTINO).size = (disk h1 ROOTINO).size/BSIZE := by
      rw [limit, hq.2, if_pos (by simp only [NDIRECT]; omega)]
    omega

theorem final_bits (hh : Holds h1 fs) (hcount : fs.length+1 < NINODES) (hf : Fixed h1 h2) {b : ℕ} :
    b < h2.freeblock ↔ b < dataStart sb ∨ ∃ i k, Used h1 i ∧ k < SLOTS ∧
      ptr (seen (wsect h2 sb.bmapstart (bitmap h2.freeblock))) i k = b := by
  have hstart : dataStart sb = nmeta := by decide
  have hlow := hh.made.fit.low
  have hblock := hf.block
  rw [hstart]
  constructor
  · intro hb
    rw [hblock] at hb
    by_cases hmeta : b < nmeta
    · exact .inl hmeta
    · obtain ⟨i,k,hi,hk,heq⟩ := block_of_file hh (Nat.le_of_not_lt hmeta) hb
      refine .inr ⟨i,k,hi,hk,?_⟩
      rw [seen_ptr (used_room hh hcount hi), fixed_ptr hh.made hf (used_live hh hi), heq]
  · rintro (hmeta | ⟨i,k,hi,hk,rfl⟩)
    · omega
    · rw [seen_ptr (used_room hh hcount hi), fixed_ptr hh.made hf (used_live hh hi)]
      by_cases hne : ptr (shown h1) i k = 0
      · rw [hne]
        simp only [nmeta] at hlow
        omega
      · obtain ⟨-,h2,h3⟩ := hh.made.image.sound.owned (used_live hh hi) hk hne
        rw [shown_use h2, decide_eq_true_eq] at h3
        omega

end Final

/-- An image is well formed exactly if there is an inode for every file and the root directory
does not fill its blocks. -/
theorem image_well_formed_iff (fs : List Input) (h : Host) (hs : main fs = some h) :
    WellFormed h ↔ fs.length+1 < NINODES ∧ (fs.length+2)%32 ≠ 0 := by
  have hnext := main_inode hs
  have hninodes : sb.ninodes = NINODES := by decide +kernel
  by_cases hcount : fs.length+1 < NINODES
  · rw [← main_until] at hs
    have hlen : (fs.map untilEnd).length = fs.length := List.length_map _
    rw [← hlen] at hcount hnext ⊢
    obtain ⟨h1,h2,hh,hf,rfl⟩ := main_done until_reads (by omega) hs
    have hused : ∀ i, Used (wsect h2 sb.bmapstart (bitmap h2.freeblock)) i ↔ Used h1 i := fun i => by
      rw [Used, Used, hnext, hh.next]
    constructor
    · intro hw
      refine ⟨hcount,fun hwhole => ?_⟩
      obtain ⟨n,hn,h0⟩ := final_hole hh hcount hf hwhole
      refine hw.full ROOTINO n ((hused _).mpr ⟨Nat.le_refl _,?_⟩) hn h0
      rw [hh.next]
      simp only [ROOTINO]
      omega
    · rintro ⟨-,hwhole⟩
      refine ⟨fun i hi => ?_,fun i k hi hk hne => ?_,fun b hb => ?_,fun i n hi hn => ?_,fun i n hi hn => ?_⟩
      · have := hi.2
        omega
      · have hi := (hused i).mp hi
        rw [seen_ptr (used_room hh hcount hi), fixed_ptr hh.made hf (used_live hh hi)] at hne ⊢
        exact (hh.made.image.sound.owned (used_live hh hi) hk hne).2.1
      · have himage : (wsect h2 sb.bmapstart (bitmap h2.freeblock)).image sb.bmapstart =
          bitmap h2.freeblock := by
          simp only [wsect, Function.update_self]
        rw [himage, bitmap_bits, decide_eq_true_eq, final_bits hh hcount hf]
        simp only [hused]
      · exact (final_full hh hcount hf hwhole ((hused i).mp hi) hn).2
      · obtain ⟨hmax,hne⟩ := final_full hh hcount hf hwhole ((hused i).mp hi) hn
        exact bmap_present hmax hne
  · refine iff_of_false (fun hw => ?_) (fun hand => hcount hand.1)
    have := hw.inodes (fs.length+1) ⟨Nat.succ_pos _,by omega⟩
    omega

theorem two_reads_well_formed : ∃ h, main [twoReads] = some h ∧ WellFormed h := by
  have hall : ∀ x ∈ [twoReads], Fits x := fun x hx => by
    cases List.mem_singleton.mp hx
    exact two_reads_fits
  obtain ⟨h,hs,-⟩ := main_image hall (by decide) (by decide) (by decide +kernel)
  exact ⟨h,hs,(image_well_formed_iff _ h hs).mpr (by decide)⟩

def thirtyFiles : List Input := (List.range 30).map (fun k => ⟨[UInt8.ofNat (65+k)],[]⟩)

theorem thirty_files_fit : ∀ x ∈ thirtyFiles, Fits x := by
  intro x hx
  have hname : ∀ x ∈ thirtyFiles, 0 ∉ x.name ∧ (stripped x.name).length ≤ InodeCode.DIRSIZ ∧
      (stripped x.name ≠ [] ∧ stripped x.name ≠ dot ∧ stripped x.name ≠ dotdot) := by decide +kernel
  have hreads : x.reads = [] := by
    obtain ⟨k,-,rfl⟩ := List.mem_map.mp hx
    rfl
  obtain ⟨h1,h2,h3⟩ := hname x hx
  refine ⟨fun c hc => ?_,?_,h1,h2,h3⟩
  · rw [hreads] at hc
    exact absurd hc List.not_mem_nil
  · rw [Input.bytes, hreads]
    exact Nat.zero_le _

/-- With thirty files the root directory fills its block, and gets a size of two. -/
theorem thirty_files_hole : ∃ h, main thirtyFiles = some h ∧ ¬WellFormed h := by
  obtain ⟨h,hs,-⟩ := main_image thirty_files_fit (by decide +kernel) (by decide +kernel) (by decide +kernel)
  obtain ⟨h1,h2,hh,hf,rfl⟩ := main_done (fun x hx c hc => ((thirty_files_fit x hx).reads c hc).1)
    (by decide +kernel) hs
  refine ⟨_,hs,fun hw => ?_⟩
  obtain ⟨n,hn,h0⟩ := final_hole hh (by decide +kernel) hf (by decide +kernel)
  exact hw.full ROOTINO n ⟨Nat.le_refl _,by rw [main_inode hs]; decide +kernel⟩ hn h0

end Xv6.MkfsShape

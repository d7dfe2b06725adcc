import Xv6.FsInodes

/-!
# Directories in the bytes of inodes

What `readi` and `writei` do to a locked inode, and from it what `dirlookup` and
`dirlink` do: the first finds the entry of a name in the tree, the second adds an
entry for a name that has none and leaves the lookups of other names alone.
-/

set_option autoImplicit false

namespace Xv6.FsDirectories
open CommandTree InodeCode FileCalls PathTree FsLedger FsInodes

variable {s s' : Fs} {g : Ledger} {i dp : Slot} {n d off : ℕ} {name : Name}

theorem held_congr (h : Held s g) (hinode : s'.inode = s.inode) (hfile : s'.file = s.file)
    (hpid : s'.pid = s.pid) (hcwd : s'.cwd = s.cwd) (hofile : s'.ofile = s.ofile)
    (hdisk : ∀ j, 0 < (s.inode j).ref → (s.inode j).valid = true →
      s'.disk (s.inode j).inum = s.disk (s.inode j).inum) : Held s' g := by
  refine ⟨?_,?_,?_,?_,?_,?_,fun j hj hv => ?_,?_,?_,hpid.trans h.pid,hcwd.trans h.cwd,
    hofile.trans h.ofile⟩
  · rw [hinode]; exact h.locks
  · rw [hinode]; exact h.live
  · rw [hinode]; exact h.loaded
  · rw [hinode, hfile]; exact h.refs
  · rw [hinode]; exact h.names
  · rw [hinode]; exact h.unique
  · rw [hinode] at hj hv ⊢
    rw [hdisk j hj hv]
    exact h.synced j hj hv
  · rw [hfile]; exact h.files
  · rw [hfile]; exact h.closed

theorem held_blocks (h : Held s g) (B : Blocks) : Held (s.setBlocks B) g :=
  held_congr h rfl rfl rfl rfl rfl (fun _ _ _ => rfl)

theorem relock_spec (h : Held s g) (hi : i ∈ g.locked) {α : Type} {p : Prog α}
    (hp : ∀ {t : Fs} {e : Ledger}, Held t e → Does p (fun _ t' => Held t' e ∧ tree t' = tree t) t) :
    Does (do iunlock i; let r ← p; ilock i; pure r)
      (fun _ s' => Held s' g ∧ tree s' = tree s) s := by
  refine wp_then (iunlock_spec h) ?_
  rintro - s1 ⟨-,h1,t1⟩
  refine wp_then (hp h1) ?_
  rintro r s2 ⟨h2,t2⟩
  refine wp_then (ilock_spec h2 (Finset.notMem_erase i _)) ?_
  rintro - s3 ⟨h3,t3⟩
  rw [wp_pure]
  simp only [Finset.insert_erase hi] at h3
  exact ⟨h3,t3.trans (t2.trans t1)⟩

theorem readi_spec (h : Held s g) (hi : i ∈ g.locked) (off k : ℕ) :
    Does (readi i off k) (fun _ s' => Held s' g ∧ tree s' = tree s) s := by
  unfold readi
  simp only [Does, wp_bind, wp_inode]
  split
  · split
    · refine relock_spec h hi (p := input k) (fun {t e} ht => ?_)
      rw [Does, wp_input]
      exact ⟨held_congr ht rfl rfl rfl rfl rfl (fun _ _ _ => rfl),rfl⟩
    · rw [wp_pure]
      exact ⟨h,rfl⟩
  · split
    · rw [wp_pure]
      exact ⟨h,rfl⟩
    · generalize (if (s.inode i).copy.size < off+k then (s.inode i).copy.size-off else k) = m
      split
      · trivial
      · exact wp_bind.mpr (wp_read trivial fun B => ⟨held_blocks h B,rfl⟩)

theorem readDirent_spec (htype : (s.inode i).copy.type ≠ T_DEV) (off : ℕ) (msg : Panic) :
    Does (readDirent i off msg) (fun de s' => (∃ B, s' = s.setBlocks B) ∧ off+DIRENT ≤ (s.inode i).copy.size ∧
      de = entryAt (s.data (s.inode i).inum) off) s := by
  unfold readDirent readi
  simp only [Does, wp_bind, wp_inode, if_neg htype]
  split
  · trivial
  · split
    · split
      · trivial
      · rename_i hsize hbmap
        simp only [wp_bind, wp_pure]
        refine wp_read trivial fun B => ?_
        rw [if_pos (by rw [List.length_map, List.length_range]; omega)]
        trivial
    · split
      · trivial
      · rename_i hsize hbmap
        simp only [wp_bind, wp_pure]
        refine wp_read trivial fun B => ?_
        rw [if_neg (by rw [List.length_map, List.length_range]; omega), wp_pure]
        exact ⟨⟨B,rfl⟩,by omega,rfl⟩

theorem entries_locked (h : Held s g) (hi : i ∈ g.locked) (hm : (i,d) ∈ g.refs) :
    (tree s).entries d = entriesOf (s.data (s.inode i).inum) (s.inode i).copy.size ∧
      (tree s).kind d = (s.inode i).copy.type ∧ (tree s).kind d ≠ 0 := by
  obtain ⟨hcopy,htype⟩ := held_disk h hi
  have hd : (s.inode i).inum = d := h.names _ hm
  rw [hd] at hcopy
  refine ⟨by simp only [tree, hd, hcopy],by simp only [tree, hcopy],?_⟩
  rw [hcopy] at htype
  exact htype

variable {bytes : ℕ → Byte} {new : List Byte} {size j : ℕ}

theorem entries_drop (hj : j < size/DIRENT) :
    (entriesOf bytes size).drop j = entryAt bytes (j*DIRENT)::(entriesOf bytes size).drop (j+1) := by
  rw [List.drop_eq_getElem_cons (by simpa [entriesOf] using hj)]
  simp [entriesOf]

theorem entries_end (hj : size/DIRENT ≤ j) :
    (entriesOf bytes size).drop j = [] :=
  List.drop_eq_nil_of_le (by simpa [entriesOf] using hj)

theorem entry_inside (h : j*DIRENT+DIRENT ≤ size) : j < size/DIRENT := by
  unfold DIRENT at *
  omega

theorem entry_outside (h : ¬ j*DIRENT < size) : size/DIRENT ≤ j := by
  unfold DIRENT at *
  omega

/-- What the loop of `dirlookup` finds in the entries `l`. -/
def Finds (g : Ledger) (t : Tree) (name : Name) (l : List Dirent) (r : Option (Slot × ℕ))
    (s' : Fs) : Prop :=
  tree s' = t ∧ match r with
    | none => Held s' g ∧ l.find? (fun de => Matches name de) = none
    | some (ip,_) => ∃ de, Held s' { g with refs := (ip,de.inum) ::ₘ g.refs } ∧
        l.find? (fun de => Matches name de) = some de

theorem finds_skip {t : Tree} {l : List Dirent} {de : Dirent} {r : Option (Slot × ℕ)}
    (hde : ¬ Matches name de) (hf : Finds g t name l r s') : Finds g t name (de::l) r s' := by
  unfold Finds at hf ⊢
  simpa [List.find?_cons, hde] using hf

theorem dirlookupFrom_spec (h : Held s g) (htype : (s.inode dp).copy.type ≠ T_DEV) (name : Name)
    {k j : ℕ} (hk : (s.inode dp).copy.size/DIRENT < j+k) :
    Does (dirlookupFrom dp name k (j*DIRENT)) (Finds g (tree s) name
      ((entriesOf (s.data (s.inode dp).inum) (s.inode dp).copy.size).drop j)) s := by
  induction k generalizing j s with
  | zero =>
    rw [entries_end (by omega)]
    exact ⟨rfl,h,rfl⟩
  | succ k ih =>
    unfold dirlookupFrom
    rw [Does, wp_bind, wp_inode]
    split
    · refine wp_then (readDirent_spec htype _ _) ?_
      rintro de - ⟨⟨B,rfl⟩,hoff,rfl⟩
      rw [entries_drop (entry_inside hoff)]
      have hrest := ih (s := s.setBlocks B) (j := j+1) (held_blocks h B) htype
        (show (s.inode dp).copy.size/DIRENT < j+1+k by omega)
      rw [Nat.succ_mul] at hrest
      split
      · rename_i h0
        exact wp_post hrest (fun r s' => finds_skip (fun hm => hm.1 h0))
      · split
        · rename_i h0 hname
          refine wp_then (iget_spec (held_blocks h B) _) ?_
          rintro ip s2 ⟨h2,ht⟩
          refine ⟨ht,_,h2,?_⟩
          rw [List.find?_cons_of_pos (by simpa using ⟨h0,hname⟩)]
        · rename_i h0 hname
          exact wp_post hrest (fun r s' => finds_skip (fun hm => hname hm.2))
    · rename_i hoff
      rw [entries_end (entry_outside hoff)]
      exact ⟨rfl,h,rfl⟩

theorem dirlookup_spec (h : Held s g) (hi : dp ∈ g.locked) (hm : (dp,d) ∈ g.refs) (name : Name) :
    Does (dirlookup dp name) (fun r s' => tree s' = tree s ∧ (tree s).kind d = T_DIR ∧ match r with
      | none => Held s' g ∧ (tree s).lookup d name = none
      | some (ip,_) => ∃ m, Held s' { g with refs := (ip,m) ::ₘ g.refs } ∧
          (tree s).lookup d name = some m) s := by
  obtain ⟨hentries,hkind,-⟩ := entries_locked h hi hm
  unfold dirlookup
  rw [Does, wp_bind, wp_inode]
  split
  · trivial
  rename_i hdir
  rw [not_not] at hdir
  have hloop := dirlookupFrom_spec h (by rw [hdir]; decide) name (j := 0)
    (k := (s.inode dp).copy.size/DIRENT+1) (by omega)
  rw [Nat.zero_mul] at hloop
  refine wp_post hloop ?_
  rintro r s' ⟨ht,hf⟩
  refine ⟨ht,hkind.trans hdir,?_⟩
  rw [List.drop_zero, ← hentries] at hf
  unfold Tree.lookup
  cases r with
  | none => exact ⟨hf.1,by rw [hf.2]; rfl⟩
  | some r =>
    obtain ⟨ip,o⟩ := r
    obtain ⟨de,h',hde⟩ := hf
    exact ⟨de.inum,h',by rw [hde]; rfl⟩

structure Wrote (s s' : Fs) (i : Slot) (off : ℕ) (bytes : List Byte) : Prop where
  start : off ≤ (s.inode i).copy.size
  data : s'.data = Function.update s.data (s.inode i).inum
    (splice (s.data (s.inode i).inum) off bytes)
  disk : s'.disk = Function.update s.disk (s.inode i).inum { s.disk (s.inode i).inum with
    size := if 0 < bytes.length ∧ (s.inode i).copy.size < off+bytes.length then off+bytes.length
      else (s.inode i).copy.size }

theorem extend_spec (h : Held s g) (hi : i ∈ g.locked) (k stop : ℕ) :
    Does (extend i k stop (s.inode i).copy.size) (fun _ s' => Held s' g ∧ s'.data = s.data ∧
      s'.disk = Function.update s.disk (s.inode i).inum { s.disk (s.inode i).inum with
        size := if 0 < k ∧ (s.inode i).copy.size < stop then stop else (s.inode i).copy.size }) s := by
  unfold extend
  split
  · refine wp_post (revise_spec h hi (fun _ => rfl)) ?_
    rintro - s' ⟨h',hdata,hdisk,-⟩
    exact ⟨h',hdata,hdisk⟩
  · refine ⟨h,rfl,?_⟩
    rw [(held_disk h hi).1]
    exact (Function.update_eq_self _ _).symm

theorem writei_plain (h : Held s g) (hi : i ∈ g.locked) (htype : (s.inode i).copy.type ≠ T_DEV)
    (off : ℕ) (bytes : List Byte) : Does (writei i off bytes) (fun r s' => Held s' g ∧
      ∀ m, r = some m → m = bytes.length ∧ Wrote s s' i off bytes) s := by
  unfold writei
  simp only [Does, wp_bind, wp_inode, if_neg htype]
  split
  · exact ⟨h,fun m hm => by cases hm⟩
  · split
    · exact ⟨h,fun m hm => by cases hm⟩
    · rename_i hoff _
      simp only [wp_bind]
      refine wp_write trivial fun B => ?_
      refine wp_post (extend_spec (s := (s.setData _ _).setBlocks B)
        (held_congr h rfl rfl rfl rfl rfl (fun _ _ _ => rfl)) hi _ _) ?_
      rintro - s' ⟨h',hdata,hdisk⟩
      refine ⟨h',fun m hm => ?_⟩
      cases hm
      exact ⟨rfl,by omega,hdata,hdisk⟩

theorem writei_spec (h : Held s g) (hi : i ∈ g.locked) (off : ℕ) (bytes : List Byte) :
    Does (writei i off bytes) (fun _ s' => Held s' g) s := by
  by_cases htype : (s.inode i).copy.type = T_DEV
  · unfold writei
    simp only [Does, wp_bind, wp_inode, if_pos htype]
    split
    · refine wp_post (relock_spec h hi (p := pure (some bytes.length))
        (fun {t e} ht => ⟨ht,rfl⟩)) (fun _ _ => And.left)
    · exact h
  · exact wp_post (writei_plain h hi htype off bytes) (fun _ _ => And.left)

theorem wrote_same {bytes : List Byte} (h : Held s g) (hm : (i,d) ∈ g.refs)
    (hw : Wrote s s' i off bytes) : (tree s).SameBut (tree s') d := by
  have hd : (s.inode i).inum = d := h.names _ hm
  intro k hk
  constructor <;> simp only [tree, hw.disk, hw.data, hd, Function.update_of_ne hk]

theorem entry_splice {j k : ℕ} (hnew : new.length = DIRENT) :
    entryAt (splice bytes (j*DIRENT) new) (k*DIRENT) =
      if k = j then .decode new else entryAt bytes (k*DIRENT) := by
  unfold entryAt
  split_ifs with hk
  · subst hk
    congr 1
    refine List.ext_getElem (by simp [hnew]) (fun m h1 h2 => ?_)
    simp [splice, h2]
  · congr 1
    refine List.map_congr_left (fun m hm => ?_)
    rw [List.mem_range] at hm
    refine if_neg ?_
    rw [hnew]
    unfold DIRENT at *
    omega

theorem entries_set {size m : ℕ} (hnew : new.length = DIRENT) :
    entriesOf (splice bytes (m*DIRENT) new) size = (entriesOf bytes size).set m (.decode new) := by
  refine List.ext_getElem (by simp [entriesOf]) (fun k h1 h2 => ?_)
  simp only [entriesOf, List.getElem_map, List.getElem_range, List.getElem_set, entry_splice hnew,
    eq_comm (a := m)]

theorem entries_push {m : ℕ} (hnew : new.length = DIRENT) :
    entriesOf (splice bytes (m*DIRENT) new) (m*DIRENT+DIRENT) =
      entriesOf bytes (m*DIRENT)++[.decode new] := by
  have h1 : (m*DIRENT+DIRENT)/DIRENT = m+1 := by unfold DIRENT; omega
  have h2 : m*DIRENT/DIRENT = m := by unfold DIRENT; omega
  unfold entriesOf
  rw [h1, h2, List.range_succ, List.map_append, List.map_singleton, entry_splice hnew, if_pos rfl]
  congr 1
  refine List.map_congr_left (fun k hk => ?_)
  rw [entry_splice hnew, if_neg (by rw [List.mem_range] at hk; omega)]

theorem find_set {α : Type} {p : α → Bool} {a : α} {l : List α} {m : ℕ} (ha : p a = false)
    (hl : ∀ b, l[m]? = some b → p b = false) : (l.set m a).find? p = l.find? p := by
  induction l generalizing m with
  | nil => rfl
  | cons b l ih =>
    cases m with
    | zero => simp [ha, hl b rfl]
    | succ m => simp [List.find?_cons, ih (m := m) hl]

theorem emptyFrom_spec (htype : (s.inode dp).copy.type ≠ T_DEV) {k j : ℕ}
    (hj : j*DIRENT ≤ (s.inode dp).copy.size) (hk : (s.inode dp).copy.size/DIRENT < j+k) :
    Does (emptyFrom dp k (j*DIRENT)) (fun o s' => (∃ B, s' = s.setBlocks B) ∧ ∃ m, o = m*DIRENT ∧
      ((m < (s.inode dp).copy.size/DIRENT ∧ (entryAt (s.data (s.inode dp).inum) o).inum = 0) ∨
        o = (s.inode dp).copy.size)) s := by
  induction k generalizing j s with
  | zero =>
    unfold DIRENT at *
    omega
  | succ k ih =>
    unfold emptyFrom
    rw [Does, wp_bind, wp_inode]
    split
    · refine wp_then (readDirent_spec htype _ _) ?_
      rintro de - ⟨⟨B,rfl⟩,hoff,rfl⟩
      split_ifs with h0
      · exact ⟨⟨B,rfl⟩,j,rfl,.inl ⟨entry_inside hoff,h0⟩⟩
      · have hrest := ih (s := s.setBlocks B) (j := j+1) htype (by rw [Nat.succ_mul]; exact hoff)
          (show (s.inode dp).copy.size/DIRENT < j+1+k by omega)
        rw [Nat.succ_mul] at hrest
        exact hrest
    · exact ⟨⟨s.blocks,rfl⟩,j,rfl,.inr (by omega)⟩

theorem link_lookup {bytes : List Byte} {m : ℕ} (h : Held s g) (hi : dp ∈ g.locked)
    (hm : (dp,d) ∈ g.refs) (hlen : bytes.length = DIRENT)
    (hoff : (m < (s.inode dp).copy.size/DIRENT ∧
      (entryAt (s.data (s.inode dp).inum) (m*DIRENT)).inum = 0) ∨ m*DIRENT = (s.inode dp).copy.size)
    (hw : Wrote s s' dp (m*DIRENT) bytes) {name : Name}
    (hname : namecmp name (Dirent.decode bytes).name ≠ 0) :
    (tree s').lookup d name = (tree s).lookup d name := by
  have hnew : decide (Matches name (.decode bytes)) = false :=
    decide_eq_false (fun hm => hname hm.2)
  have hd : (s.inode dp).inum = d := h.names _ hm
  have hentries : (tree s').entries d = entriesOf (splice (s.data d) (m*DIRENT) bytes)
      (if 0 < bytes.length ∧ (s.inode dp).copy.size < m*DIRENT+bytes.length
        then m*DIRENT+bytes.length else (s.inode dp).copy.size) := by
    simp only [tree, hw.data, hw.disk, hd, Function.update_self]
  unfold Tree.lookup
  rw [hentries, (entries_locked h hi hm).1, hd, hlen]
  congr 1
  rw [hd] at hoff
  rcases hoff with ⟨hlt,h0⟩ | hend
  · rw [if_neg (by unfold DIRENT at *; omega), entries_set hlen]
    refine find_set hnew (fun de hde => ?_)
    have hde' : de = entryAt (s.data d) (m*DIRENT) := by
      rw [List.getElem?_eq_getElem (by simpa [entriesOf] using hlt)] at hde
      simpa [entriesOf] using hde.symm
    subst hde'
    simp [Matches, h0]
  · rw [← hend, if_pos (by unfold DIRENT; omega), entries_push hlen, List.find?_append]
    simp [hnew]

theorem dirlink_new (h : Held s g) (hi : dp ∈ g.locked) (hm : (dp,d) ∈ g.refs)
    (hnone : (tree s).lookup d name = none) (inum : ℕ) :
    Does (dirlink dp name inum) (fun r s' => r = true ∧ Held s' g ∧ (tree s).SameBut (tree s') d ∧
      ∀ e, namecmp e (strncpy DIRSIZ name) ≠ 0 → (tree s').lookup d e = (tree s).lookup d e) s := by
  unfold dirlink
  refine wp_then (dirlookup_spec h hi hm name) ?_
  rintro r s1 ⟨t1,hdir,hr⟩
  cases r with
  | some r =>
    obtain ⟨ip,o⟩ := r
    obtain ⟨m,-,hsome⟩ := hr
    rw [hnone] at hsome
    cases hsome
  | none =>
    obtain ⟨h1,-⟩ := hr
    rw [← t1] at hdir ⊢
    have htype : (s1.inode dp).copy.type ≠ T_DEV := by
      rw [← (entries_locked h1 hi hm).2.1, hdir]
      decide
    have hlen : (Dirent.encode ⟨inum,strncpy DIRSIZ name⟩).length = DIRENT := by
      simp [Dirent.encode, strncpy_length]
    rw [wp_bind, wp_inode]
    have hempty := emptyFrom_spec (j := 0) (k := (s1.inode dp).copy.size/DIRENT+1) htype (by simp)
      (by omega)
    rw [Nat.zero_mul] at hempty
    refine wp_then hempty ?_
    rintro o - ⟨⟨B,rfl⟩,m,rfl,hoff⟩
    have h1 := held_blocks h1 B
    refine wp_then (writei_plain h1 hi htype _ _) ?_
    rintro r s3 ⟨h3,hr⟩
    cases r with
    | none => trivial
    | some k =>
      obtain ⟨rfl,hw⟩ := hr k rfl
      simp only [hlen]
      refine ⟨rfl,h3,wrote_same (s := s1.setBlocks B) h1 hm hw,fun e he =>
        link_lookup (s := s1.setBlocks B) h1 hi hm hlen hoff hw ?_⟩
      simpa [Dirent.decode, Dirent.encode] using he

theorem held_alloc (h : Held s g) (h0 : (s.disk n).type = 0) (type : ℕ) : Held (s.allocate n type) g := by
  refine held_congr h rfl rfl rfl rfl rfl (fun j hj hv => ?_)
  obtain ⟨hcopy,htype⟩ := h.synced j hj hv
  refine Function.update_of_ne (fun he => htype ?_) _ _
  rw [hcopy, he, h0]

theorem iallocFrom_spec (h : Held s g) (type : ℕ) {k n : ℕ} : Does (iallocFrom type k n)
    (fun i s' => ∃ m, (tree s).kind m = 0 ∧ Held s' { g with refs := (i,m) ::ₘ g.refs } ∧
      (tree s).SameBut (tree s') m ∧ (tree s').entries m = []) s := by
  induction k generalizing n with
  | zero => trivial
  | succ k ih =>
    unfold iallocFrom
    rw [Does, wp_bind, wp_alloc]
    split
    · rename_i h0
      refine wp_post (iget_spec (held_alloc h h0 type) n) ?_
      rintro i s' ⟨h',ht⟩
      refine ⟨n,h0,h',?_,?_⟩
      · intro m hm
        rw [ht]
        constructor <;> simp only [tree, Fs.allocate, Fs.setBlocks, Fs.setDisk, Fs.setData,
          Function.update_of_ne hm]
      · rw [ht]
        simp only [tree, Fs.allocate, Fs.setBlocks, Fs.setDisk, Fs.setData, Function.update_self]
        rfl
    · exact ih

theorem ialloc_spec (h : Held s g) (type : ℕ) : Does (ialloc type)
    (fun i s' => ∃ m, (tree s).kind m = 0 ∧ Held s' { g with refs := (i,m) ::ₘ g.refs } ∧
      (tree s).SameBut (tree s') m ∧ (tree s').entries m = []) s := by
  unfold ialloc
  rw [Does, wp_bind, wp_ninodes]
  exact iallocFrom_spec h type

end Xv6.FsDirectories

import Xv6.FsFiles

/-!
# Calls that find or make a file

A new inode has a number of its own, so `create` can lock it while it holds the
directory, and its entries are added to directories that do not have them: nothing
is looked up while two inodes are locked. The other calls hold one lock at a time.
-/

set_option autoImplicit false

namespace Xv6.FsCreate
open CommandTree InodeCode FileCalls PathTree FsLedger FsInodes
open FsDirectories FsPaths FsFiles
open CodeMachine (tally_update)

variable {s s' : Fs} {g : Ledger} {i ip dp : Slot} {n d m : ℕ} {name : Name}

theorem lock_spec (h : Held s { g with refs := (i,n) ::ₘ g.refs }) (hL : g.locked = ∅) :
    Does (ilock i) (fun _ s' => Held s' { g with locked := {i}, refs := (i,n) ::ₘ g.refs } ∧
      tree s' = tree s) s := by
  refine wp_post (ilock_spec h (by simp [hL])) ?_
  rintro - s' ⟨h',ht⟩
  simp only [hL, insert_empty_eq] at h'
  exact ⟨h',ht⟩

theorem release_spec (h : Held s { g with locked := {i}, refs := (i,n) ::ₘ g.refs })
    (hL : g.locked = ∅) :
    Does (iunlockput i) (fun _ s' => Held s' g ∧ (tree s).Shrinks (tree s')) s := by
  refine wp_post (iunlockput_spec h rfl) ?_
  rintro - s' ⟨-,h',ht⟩
  simp only [Finset.erase_singleton, ← hL] at h'
  exact ⟨h',ht⟩

theorem namei_spec (h : Held s g) (hL : g.locked = ∅) (hroot : Rooted g) (path : Path) :
    Does (namei path) (fun r s' => (tree s).Shrinks (tree s') ∧ match r with
      | none => Held s' g ∧ goal s false path = none
      | some i => ∃ m e, Held s' { g with refs := (i,m) ::ₘ g.refs } ∧
          goal s false path = some (m,e)) s := by
  unfold namei
  refine wp_then (namex_spec h hL hroot false path (shrinks_refl _)) ?_
  rintro r s1 ⟨ht,hr⟩
  cases r with
  | none => exact ⟨ht,hr⟩
  | some r =>
    obtain ⟨i,e⟩ := r
    obtain ⟨m,h1,hgoal⟩ := hr
    exact ⟨ht,m,e,h1,hgoal⟩

theorem revise_tree (h : Held s g) (hi : i ∈ g.locked) {f : Dinode → Dinode}
    (hf : ∀ x, (f x).type = x.type ∧ (f x).size = x.size) :
    Does (revise i f) (fun _ s' => Held s' g ∧ tree s' = tree s) s := by
  refine wp_post (revise_spec h hi (fun x => (hf x).1)) ?_
  rintro - s' ⟨h',hdata,hdisk,-⟩
  refine ⟨h',?_⟩
  unfold tree
  rw [hdata, hdisk]
  congr 1 <;> funext k <;> by_cases hk : k = (s.inode i).inum
  · rw [hk, Function.update_self, (hf _).1]
  · rw [Function.update_of_ne hk]
  · rw [hk, Function.update_self, (hf _).2]
  · rw [Function.update_of_ne hk]

theorem erase_pair {i j : Slot} (hne : i ≠ j) : (insert i {j} : Finset Slot).erase j = {i} := by
  rw [Finset.erase_insert_of_ne hne, Finset.erase_singleton, insert_empty_eq]

theorem dots_differ : namecmp dotdot (strncpy DIRSIZ dot) ≠ 0 := by decide

theorem createDots_spec (h : Held s g) (hdp : dp ∈ g.locked) (hip : ip ∈ g.locked)
    (hm : (ip,m) ∈ g.refs) (hempty : (tree s).entries m = []) : Does (createDots dp ip)
      (fun _ s' => Held s' g ∧ (tree s).SameBut (tree s') m) s := by
  have hnone : ∀ e, (tree s).lookup m e = none := fun e => by rw [Tree.lookup, hempty]; rfl
  unfold createDots
  refine wp_then (revise_tree h hdp (fun _ => ⟨rfl,rfl⟩)) ?_
  rintro - s1 ⟨h1,t1⟩
  simp only [wp_bind, wp_inode]
  rw [← t1] at hnone ⊢
  refine wp_post (dirlink_new h1 hip hm (hnone dot) _) ?_
  rintro r s2 ⟨rfl,h2,hsame,hlook⟩
  simp only [if_true]
  rw [wp_bind]
  refine wp_post (dirlink_new h2 hip hm (by rw [hlook _ dots_differ, hnone]) _) ?_
  rintro r s3 ⟨rfl,h3,hsame',-⟩
  exact ⟨h3,same_trans hsame hsame'⟩

theorem createNew_spec (h : Held s { g with locked := {dp}, refs := (dp,d) ::ₘ g.refs })
    (hnone : (tree s).lookup d name = none) (type : ℕ) (major minor : BitVec 16) :
    Does (createNew dp name type major minor) (fun r s' => ∃ i m, r = some i ∧
      Held s' { g with locked := {i}, refs := (i,m) ::ₘ g.refs }) s := by
  have hdp : (dp,d) ∈ (dp,d) ::ₘ g.refs := Multiset.mem_cons_self _ _
  obtain ⟨-,-,hnz⟩ := entries_locked h (Finset.mem_singleton_self dp) hdp
  unfold createNew
  refine wp_then (ialloc_spec h type) ?_
  rintro ip s1 ⟨m,h0,h1,hsame,hempty⟩
  have hdm : d ≠ m := fun he => hnz (by rw [he]; exact h0)
  have hip : (ip,m) ∈ (ip,m) ::ₘ (dp,d) ::ₘ g.refs := Multiset.mem_cons_self _ _
  have hdp' : (dp,d) ∈ (ip,m) ::ₘ (dp,d) ::ₘ g.refs := Multiset.mem_cons_of_mem hdp
  -- the new inode is in another slot than the directory, since its number is another
  have hne : ip ≠ dp := by
    rintro rfl
    exact hdm ((h1.names _ hdp').symm.trans (h1.names _ hip))
  refine wp_then (ilock_spec h1 (by simpa using hne)) ?_
  rintro - s2 ⟨h2,t2⟩
  refine wp_then (revise_tree h2 (Finset.mem_insert_self ip _) (fun _ => ⟨rfl,rfl⟩)) ?_
  rintro - s3 ⟨h3,t3⟩
  have hdots : Does (if type = T_DIR then createDots dp ip else pure ())
      (fun _ s' => Held s' { g with
        locked := insert ip {dp}
        refs := (ip,m) ::ₘ (dp,d) ::ₘ g.refs } ∧ (tree s).SameBut (tree s') m) s3 := by
    rw [← t2, ← t3] at hsame hempty
    split
    · refine wp_post (createDots_spec h3 (by simp) (by simp) hip hempty) ?_
      rintro - s4 ⟨h4,hsame'⟩
      exact ⟨h4,same_trans hsame hsame'⟩
    · exact ⟨h3,hsame⟩
  refine wp_then hdots ?_
  rintro - s4 ⟨h4,hsame4⟩
  rw [wp_bind, wp_inode]
  refine wp_then (dirlink_new h4 (by simp) hdp' (by rw [same_lookup hsame4 hdm, hnone]) _) ?_
  rintro r s5 ⟨rfl,h5,-⟩
  simp only [if_true]
  refine wp_then (iunlockput_spec h5 (Multiset.cons_swap ..)) ?_
  rintro - s6 ⟨-,h6,-⟩
  refine ⟨ip,m,rfl,?_⟩
  simp only [erase_pair hne] at h6
  exact h6

theorem create_spec (h : Held s g) (hL : g.locked = ∅) (hroot : Rooted g) (path : Path) (type : ℕ)
    (major minor : BitVec 16) : Does (create path type major minor) (fun r s' => match r with
      | none => Held s' g
      | some i => ∃ m, Held s' { g with locked := {i}, refs := (i,m) ::ₘ g.refs }) s := by
  unfold create
  refine wp_then (namex_spec h hL hroot true path (shrinks_refl _)) ?_
  rintro r s1 ⟨-,hr⟩
  cases r with
  | none => exact hr.1
  | some r =>
    obtain ⟨dp,name⟩ := r
    obtain ⟨d,h1,-⟩ := hr
    refine wp_then (lock_spec h1 hL) ?_
    rintro - s2 ⟨h2,-⟩
    refine wp_then (dirlookup_spec h2 (Finset.mem_singleton_self dp)
      (Multiset.mem_cons_self _ _) name) ?_
    rintro r s3 ⟨t3,-,hr⟩
    cases r with
    | none =>
      rw [← t3] at hr
      refine wp_post (createNew_spec hr.1 hr.2 type major minor) ?_
      rintro r s4 ⟨i,m,rfl,h4⟩
      exact ⟨m,h4⟩
    | some r =>
      obtain ⟨ip,o⟩ := r
      obtain ⟨m,h3,-⟩ := hr
      refine wp_then (iunlockput_spec h3 (Multiset.cons_swap ..)) ?_
      rintro - s4 ⟨-,h4,-⟩
      simp only [Finset.erase_singleton, ← hL] at h4
      refine wp_then (lock_spec h4 hL) ?_
      rintro - s5 ⟨h5,-⟩
      rw [wp_bind, wp_inode]
      split
      · exact ⟨m,h5⟩
      · exact wp_then (release_spec h5 hL) (fun _ _ h6 => h6.1)

theorem openInode_spec (h : Held s g) (hL : g.locked = ∅) (hroot : Rooted g) (path : Path)
    (omode : BitVec 32) : Does (openInode path omode) (fun r s' => match r with
      | none => Held s' g
      | some i => ∃ m, Held s' { g with locked := {i}, refs := (i,m) ::ₘ g.refs }) s := by
  unfold openInode
  split
  · exact create_spec h hL hroot path T_FILE 0 0
  · refine wp_then (namei_spec h hL hroot path) ?_
    rintro r s1 ⟨-,hr⟩
    cases r with
    | none => exact hr.1
    | some ip =>
      obtain ⟨m,-,h1,-⟩ := hr
      refine wp_then (lock_spec h1 hL) ?_
      rintro - s2 ⟨h2,-⟩
      rw [wp_bind, wp_inode]
      split
      · exact wp_then (release_spec h2 hL) (fun _ _ h3 => h3.1)
      · exact ⟨m,h2⟩

theorem filealloc_spec (h : Held s g) : Does filealloc (fun r s' => match r with
    | none => Held s' g
    | some f => (s'.file f).type = .none ∧ 0 < (s'.file f).ref ∧
        Held s' { g with files := f ::ₘ g.files }) s := by
  refine (wp_perform (c := Cmd.filealloc)).mpr ?_
  simp only [alone]
  cases hu : s.unused with
  | none => exact h
  | some f =>
    have h0 : (s.file f).ref = 0 := by simpa using List.find?_some hu
    have htype := h.closed f h0
    have hcount := h.files f
    have hself : (s.setFile f { s.file f with ref := 1 }).file f = { s.file f with ref := 1 } :=
      Function.update_self ..
    refine ⟨by rw [hself]; exact htype,by rw [hself]; exact Nat.one_pos,?_⟩
    refine held_file h (fun i => ?_) h.names ?_ (fun k hk => ?_) (fun h1 => by cases h1)
    · simp [uses, htype]
    · rw [Multiset.count_cons_self]
      show _ ≤ 1
      omega
    · rw [Multiset.count_cons_of_ne hk]
      exact h.files k

theorem fdallocFrom_spec (h : Held s g) (f : FileId) (l : List Fd) :
    Does (fdallocFrom f l) (fun r s' => s'.file = s.file ∧ match r with
      | none => Held s' g
      | some fd => g.ofile fd = none ∧
          Held s' { g with ofile := Function.update g.ofile fd (some f) }) s := by
  induction l with
  | nil => exact ⟨rfl,h⟩
  | cons fd l ih =>
    unfold fdallocFrom
    rw [Does, wp_bind, wp_ofile]
    split
    · rename_i hfd
      exact ⟨rfl,by rw [← h.ofile]; exact hfd,held_ofile h fd (some f)⟩
    · exact ih

theorem openBad_spec (h : Held s { g with locked := {i}, refs := (i,n) ::ₘ g.refs }) (hg : Home g) :
    Does (openBad i) (fun _ s' => Sound s') s := by
  unfold openBad
  refine wp_then (release_spec h hg.locked) ?_
  rintro - s1 ⟨h1,-⟩
  rw [wp_bind, wp_end]
  exact ⟨g,hg,h1⟩

theorem held_opened {f : FileId} (h : Held s { g with refs := (i,n) ::ₘ g.refs })
    (hnone : (s.file f).type = .none) (href : 0 < (s.file f).ref) {x : File}
    (hx : x.type = .inode ∧ x.ip = i ∧ x.ref = (s.file f).ref) : Held (s.setFile f x) g := by
  obtain ⟨htype,hip,hxref⟩ := hx
  refine held_file h (fun j => ?_) (fun r hr => h.names r (Multiset.mem_cons_of_mem hr)) ?_
    (fun k _ => h.files k) (fun h0 => by omega)
  · rw [pins_cons]
    unfold uses
    simp only [htype, hip, hxref, href, hnone, true_and, reduceCtorEq, false_and, and_false, if_false]
    omega
  · rw [hxref]
    exact h.files f

theorem iunlock_file (i : Slot) : Does (iunlock i) (fun _ s' => s'.file = s.file) s := by
  unfold iunlock
  simp only [Does, wp_bind, wp_inode, wp_holding]
  split
  · trivial
  · rw [wp_release]
    rfl

theorem open_spec (h : Held s g) (hg : Home g) (path : Option Path) (omode : BitVec 32) :
    Does (sysOpen path omode) (fun _ s' => Sound s') s := by
  unfold sysOpen
  cases path with
  | none => exact ⟨g,hg,h⟩
  | some path =>
    simp only
    rw [Does, wp_bind, wp_begin]
    refine wp_then (openInode_spec h hg.locked (home_rooted hg) path omode) ?_
    rintro r s1 hr
    cases r with
    | none =>
      rw [wp_bind, wp_end]
      exact ⟨g,hg,hr⟩
    | some ip =>
      obtain ⟨m,h1⟩ := hr
      refine wp_then (filealloc_spec h1) ?_
      rintro r s2 hr
      cases r with
      | none => exact openBad_spec hr hg
      | some f =>
        obtain ⟨hnone,href,h2⟩ := hr
        refine wp_then (fdallocFrom_spec h2 f _) ?_
        rintro r s3 ⟨hfile,hr⟩
        rw [← hfile] at hnone href
        cases r with
        | none =>
          refine wp_then (fileclose_spec hr rfl (.inr hnone)) ?_
          rintro - s4 h4
          exact openBad_spec h4 hg
        | some fd =>
          obtain ⟨hfd,h3⟩ := hr
          refine wp_seq (wp_and (iunlock_spec h3) (iunlock_file ip)) (fun _ he => he.1) ?_
          rintro - s4 ⟨⟨-,h4,-⟩,hfile4⟩
          simp only [Finset.erase_singleton, ← hg.locked] at h4
          rw [← hfile4] at hnone href
          rw [wp_bind, wp_end, wp_bind, wp_file, wp_bind, wp_set_file]
          refine ⟨_,?_,held_opened (g := { g with
            files := f ::ₘ g.files
            ofile := Function.update g.ofile fd (some f) }) h4 hnone href ⟨rfl,rfl,rfl⟩⟩
          refine ⟨hg.locked,hg.refs,fun k => ?_⟩
          show (((f ::ₘ g.files).count k : ℕ) : ℤ) = _
          rw [tally_update, ← hg.files k, hfd, Multiset.count_cons]
          unfold refers
          by_cases hkf : k = f
          · simp [hkf]
          · simp [hkf, Ne.symm hkf]

theorem made_spec (hg : Home g) {r : Option Slot} (h : match r with
      | none => Held s g
      | some i => ∃ m, Held s { g with locked := {i}, refs := (i,m) ::ₘ g.refs }) :
    Does (made r) (fun _ s' => Sound s') s := by
  cases r with
  | none => exact ⟨g,hg,h⟩
  | some i =>
    obtain ⟨m,h⟩ := h
    refine wp_then (release_spec h hg.locked) ?_
    rintro - s1 ⟨h1,-⟩
    exact ⟨g,hg,h1⟩

theorem mkdir_spec (h : Held s g) (hg : Home g) (path : Option Path) :
    Does (sysMkdir path) (fun _ s' => Sound s') s := by
  unfold sysMkdir
  rw [Does, wp_bind, wp_begin]
  cases path with
  | none => exact made_spec hg h
  | some path =>
    exact wp_then (create_spec h hg.locked (home_rooted hg) path T_DIR 0 0)
      (fun _ _ h1 => made_spec hg h1)

theorem mknod_spec (h : Held s g) (hg : Home g) (path : Option Path) (major minor : BitVec 32) :
    Does (sysMknod path major minor) (fun _ s' => Sound s') s := by
  unfold sysMknod
  rw [Does, wp_bind, wp_begin]
  cases path with
  | none => exact made_spec hg h
  | some path =>
    exact wp_then (create_spec h hg.locked (home_rooted hg) path T_DEV _ _)
      (fun _ _ h1 => made_spec hg h1)

theorem chdir_spec (h : Held s g) (hg : Home g) (path : Option Path) :
    Does (sysChdir path) (fun _ s' => Sound s') s := by
  unfold sysChdir
  rw [Does, wp_bind, wp_begin]
  cases path with
  | none => exact ⟨g,hg,h⟩
  | some path =>
    refine wp_then (namei_spec h hg.locked (home_rooted hg) path) ?_
    rintro r s1 ⟨-,hr⟩
    cases r with
    | none => exact ⟨g,hg,hr.1⟩
    | some ip =>
      obtain ⟨m,-,h1,-⟩ := hr
      refine wp_then (lock_spec h1 hg.locked) ?_
      rintro - s2 ⟨h2,-⟩
      rw [wp_bind, wp_inode]
      split
      · refine wp_then (release_spec h2 hg.locked) ?_
        rintro - s3 ⟨h3,-⟩
        exact ⟨g,hg,h3⟩
      · refine wp_then (iunlock_spec h2) ?_
        rintro - s3 ⟨-,h3,-⟩
        simp only [Finset.erase_singleton, ← hg.locked] at h3
        rw [wp_bind]
        refine wp_cwd trivial (fun c hc => ?_)
        have hcwd : g.cwd = some c := h3.cwd.symm.trans hc
        have hr := hg.refs
        rw [hcwd] at hr
        obtain ⟨n,hn⟩ := hr
        refine wp_then (iput_spec h3 (n := n) (M := {(ip,m)}) ?_ (by simp [hg.locked])) ?_
        · show (ip,m) ::ₘ g.refs = _
          rw [hn]
          exact Multiset.cons_swap ..
        rintro - s4 ⟨h4,-⟩
        rw [wp_bind, wp_end, wp_bind, wp_set_cwd]
        refine ⟨_,?_,held_cwd h4 (some ip)⟩
        exact ⟨hg.locked,⟨m,rfl⟩,hg.files⟩

theorem loaduvmFrom_spec {k : ℕ} (h : Held s g) (hi : i ∈ g.locked) (offset sz at' : ℕ) :
    Does (loaduvmFrom i offset sz k at') (fun _ s' => Held s' g) s := by
  induction k generalizing s at' with
  | zero => exact h
  | succ k ih =>
    unfold loaduvmFrom
    split
    · refine wp_then (readi_spec h hi _ _) ?_
      rintro r s1 ⟨h1,-⟩
      cases r with
      | none => exact h1
      | some bytes =>
        simp only
        generalize (if sz-at' < PGSIZE then sz-at' else PGSIZE) = m
        split
        · exact h1
        · exact ih h1 _
    · exact h

theorem memory_spec (h : Held s g) : Does memory (fun _ s' => Held s' g) s := by
  rw [Does, wp_memory]
  exact held_congr h rfl rfl rfl rfl rfl (fun _ _ _ => rfl)

theorem loadFrom_spec {k : ℕ} (h : Held s g) (hi : i ∈ g.locked) (off : ℕ) :
    Does (loadFrom i k off) (fun _ s' => Held s' g) s := by
  induction k generalizing s off with
  | zero => exact h
  | succ k ih =>
    unfold loadFrom
    refine wp_then (readi_spec h hi _ _) ?_
    rintro r s1 ⟨h1,-⟩
    cases r with
    | none => exact h1
    | some ph =>
      simp only
      split
      · exact h1
      split
      · exact ih h1 _
      split
      · exact h1
      split
      · exact h1
      refine wp_then (memory_spec h1) ?_
      rintro b s2 h2
      split
      · split
        · exact h2
        · refine wp_then (loaduvmFrom_spec h2 hi _ _ _) ?_
          rintro b s3 h3
          split
          · exact ih h3 _
          · exact h3
      · exact h2

theorem loadImage_spec (h : Held s g) (hi : i ∈ g.locked) :
    Does (loadImage i) (fun _ s' => Held s' g) s := by
  unfold loadImage
  refine wp_then (readi_spec h hi _ _) ?_
  rintro r s1 ⟨h1,-⟩
  cases r with
  | none => exact h1
  | some elf =>
    simp only
    split_ifs
    · exact h1
    · exact h1
    · refine wp_then (memory_spec h1) ?_
      rintro b s2 h2
      split_ifs
      · exact loadFrom_spec h2 hi _
      · exact h2

theorem exec_spec (h : Held s g) (hg : Home g) (path : Option Path) :
    Does (sysExec path) (fun _ s' => Sound s') s := by
  unfold sysExec
  cases path with
  | none => exact ⟨g,hg,h⟩
  | some path =>
    simp only
    rw [Does, wp_bind, wp_begin]
    refine wp_then (namei_spec h hg.locked (home_rooted hg) path) ?_
    rintro r s1 ⟨-,hr⟩
    cases r with
    | none => exact ⟨g,hg,hr.1⟩
    | some ip =>
      obtain ⟨m,-,h1,-⟩ := hr
      refine wp_then (lock_spec h1 hg.locked) ?_
      rintro - s2 ⟨h2,-⟩
      refine wp_then (loadImage_spec h2 (Finset.mem_singleton_self ip)) ?_
      rintro b s3 h3
      split_ifs
      · refine wp_then (release_spec h3 hg.locked) ?_
        rintro - s4 ⟨h4,-⟩
        rw [wp_bind, wp_end]
        refine wp_then (memory_spec h4) ?_
        rintro b s5 h5
        split_ifs <;> exact ⟨g,hg,h5⟩
      · refine wp_then (release_spec h3 hg.locked) ?_
        rintro - s4 ⟨h4,-⟩
        exact ⟨g,hg,h4⟩

end Xv6.FsCreate

import Xv6.PathLookup

/-!
# Calls that fail

A call of `link`, `unlink`, `mkdir` or `mknod` that returns -1 has given up at one of many
points, with one or two inodes locked. On each way out it gives back the locks and the
references it has taken and ends its transaction, and `link` takes back the link that it
has written to the disk in advance.
-/

set_option autoImplicit false

namespace Xv6.FailedCalls
open CommandTree MarkedRuns InodeCode FileCalls PathTree FsLedger FsQuiet PathLookup
open FsPaths (origin)
open Function

variable {b c s : Fs} {i ip dp : Slot} {n m d : ℕ} {L : Finset Slot} {R : Multiset (Slot × ℕ)}
    {E : Stop → Prop}

/-- Where the result is -1, all locks and references are given back, and what is left to do
of the transaction is its end. -/
def Undone (b : Fs) (r : ℤ) (s : Fs) (l : List Event) : Prop := r = -1 → During b s ∅ 0 ∧ l = [.endOp]

def Fails (b : Fs) (p : Prog ℤ) (s : Fs) : Prop := Leaves alone events p (Undone b) (fun _ _ => True) s

theorem fails_seq {α : Type} {p : Prog α} {f : α → Prog ℤ} {Q : α → Fs → Prop}
    (h : Quiet p Q (fun _ => True) s)
    (hnext : ∀ a t, Q a t → Fails b (f a) t) : Fails b (p >>= f) s :=
  leaves_silent h (fun _ _ => trivial) hnext

theorem fails_returns {p : Prog ℤ} (h : Returns (· ≠ -1) p) : Fails b p s :=
  leaves_mono (leaves_returns h) (fun _ _ _ hne heq => absurd heq hne) (fun _ _ _ => trivial)

theorem fails_panic (msg : Panic) : Fails b (panic msg) s := trivial

theorem fails_inode {f : Inode → Prog ℤ} (h : Fails b (f (s.inode i)) s) : Fails b (inode i >>= f) s :=
  (leaves_step (c := Cmd.inode i) rfl).mpr h

theorem fails_ended (h : During b s ∅ 0) : Fails b (do endOp; pure (-1)) s :=
  (leaves_step (c := Cmd.endOp) rfl).mpr ((leaves_pure _).mpr fun _ => ⟨h,rfl⟩)

theorem ilock_tried (h : During b s L R) (hm : (i,n) ∈ R) (hn : (b.disk n).type ≠ 0) :
    Quiet (ilock i) (fun _ s' => i ∉ L ∧ During b s' (insert i L) R) (fun _ => True) s := by
  by_cases hi : i ∈ L
  · have hlock : (s.inode i).lock = some b.pid := by rw [h.lock, if_pos hi]
    have hpos := during_ref h hm
    unfold ilock
    simp only [quiet_bind, quiet_inode]
    rw [if_neg (by omega), quiet_bind, quiet_asleep hlock]
    trivial
  · exact quiet_post (ilock_quiet h hi hm hn) (fun _ _ h1 => ⟨hi,h1⟩)

theorem iput_tried (h : During b s L ((i,n) ::ₘ R)) (hk : Kept b n) :
    Quiet (iput i) (fun _ s' => During b s' L R) (fun _ => True) s := by
  by_cases hi : i ∈ L
  · have hlock : (s.inode i).lock = some b.pid := by rw [h.lock, if_pos hi]
    unfold iput
    rw [quiet_bind, quiet_asleep hlock]
    trivial
  · exact iput_quiet h hi hk

theorem iunlockput_last (h : During b s {i} {(i,n)}) (hk : Kept b n) :
    Quiet (iunlockput i) (fun _ s' => During b s' ∅ 0) E s := by
  have hquiet := iunlockput_quiet (E := E) (R := 0) h (Finset.mem_singleton_self i) hk
  rwa [Finset.erase_singleton] at hquiet

theorem isdirempty_reads (hi : Readable s i) :
    Quiet (isdirempty i) (fun _ s' => s' = s) (fun _ => True) s := by
  have hloop : ∀ k j, Quiet (isdiremptyFrom i k (j*DIRENT)) (fun _ s' => s' = s) (fun _ => True) s := by
    intro k
    induction k with
    | zero => exact fun _ => (quiet_pure _).mpr rfl
    | succ k ih =>
      intro j
      unfold isdiremptyFrom
      rw [quiet_bind, quiet_inode]
      split
      · refine quiet_then (readDirent_quiet hi ?_ _) ?_
        · have := hi.whole
          unfold DIRENT at *
          omega
        · rintro de t ⟨rfl,-⟩
          split
          · exact (quiet_pure _).mpr rfl
          · rw [← Nat.succ_mul]
            exact ih _
      · exact (quiet_pure _).mpr rfl
  unfold isdirempty
  rw [quiet_bind, quiet_inode]
  exact hloop _ 2

theorem unlinkEntry_returns (dp ip : Slot) (off : ℕ) : Returns (· ≠ -1) (unlinkEntry dp ip off) := by
  refine returns_bind _ fun r => ?_
  cases r with
  | none => exact fun r => r.elim
  | some n =>
    simp only
    split
    · exact fun r => r.elim
    · refine returns_bind _ fun _ => returns_bind _ fun _ => returns_bind _ fun _ => returns_bind _ fun _ =>
        returns_bind _ fun _ => returns_bind _ fun _ => ?_
      exact (by decide : (0 : ℤ) ≠ -1)

theorem unlinkBad_fails (h : During b s {dp} {(dp,d)}) (hk : Kept b d) : Fails b (unlinkBad dp) s :=
  fails_seq (iunlockput_last h hk) fun _ _ h1 => fails_ended h1

theorem unlinkFound_fails (hb : Sane b) (h : During b s {dp} ((ip,m) ::ₘ {(dp,d)})) (hk : Kept b d)
    (hm : (b.disk m).type ≠ 0) (hmk : Kept b m) (off : ℕ) : Fails b (unlinkFound dp ip off) s := by
  have hmem : (ip,m) ∈ (ip,m) ::ₘ {(dp,d)} := Multiset.mem_cons_self _ _
  refine fails_seq (ilock_tried h hmem hm) fun _ s1 hs1 => ?_
  obtain ⟨hne,h1⟩ := hs1
  have hin : ip ∈ insert ip ({dp} : Finset Slot) := Finset.mem_insert_self _ _
  refine fails_inode ?_
  rw [(during_locked h1 hin hmem).1]
  split
  · exact fails_panic _
  · split_ifs with hdir
    · refine fails_seq (isdirempty_reads (during_readable h1 hin hmem hdir (hb.dirs m hdir))) ?_
      rintro e t rfl
      split
      · exact fails_returns (unlinkEntry_returns dp ip off)
      · refine fails_seq (iunlockput_quiet h1 hin hmk) fun _ s2 h2 => ?_
        rw [Finset.erase_insert hne] at h2
        exact unlinkBad_fails h2 hk
    · exact fails_returns (unlinkEntry_returns dp ip off)

/-- What a call that fails leaves: nothing, or an empty transaction. -/
def Clean (b : Fs) (p : Prog ℤ) : Prop :=
  Leaves alone events p (fun r s l => r = -1 → During b s ∅ 0 ∧ (l = [] ∨ l = [.beginOp,.endOp]))
    (fun _ _ => True) b

theorem clean_begun {f : Unit → Prog ℤ} (h : Fails b (f ()) b) : Clean b (beginOp >>= f) := by
  refine (leaves_step (c := Cmd.beginOp) rfl).mpr (leaves_mono h ?_ (fun _ _ _ => trivial))
  rintro r t l hr hfail
  obtain ⟨h,rfl⟩ := hr hfail
  exact ⟨h,.inr rfl⟩

theorem clean_refused (hb : Sane b) : Clean b (pure (-1)) :=
  (leaves_pure _).mpr fun _ => ⟨sane_during hb,.inl rfl⟩

def Found (b : Fs) (r : Option Slot) (s : Fs) : Prop :=
  match r with
  | none => During b s ∅ 0
  | some ip => ∃ n, During b s ∅ {(ip,n)} ∧ (b.disk n).type ≠ 0 ∧ Kept b n

theorem namei_quiet (hb : Sane b) (path : Path) : Quiet (namei path) (Found b) (fun _ => True) b := by
  refine quiet_seq (namex_quiet hb false path) (fun _ _ => trivial) ?_
  rintro r s' ⟨hr,-⟩
  rw [quiet_pure]
  cases r with
  | none => exact hr.1
  | some x =>
    obtain ⟨n,h,hgoal⟩ := hr
    rw [target_walk] at hgoal
    obtain ⟨m,hm,heq⟩ := Option.map_eq_some_iff.mp hgoal
    obtain ⟨rfl,-⟩ := Prod.mk.inj heq
    exact ⟨m,h,walk_kept hb (origin_kept hb path) hm⟩

def Parent (b : Fs) (r : Option (Slot × Name)) (s : Fs) : Prop :=
  match r with
  | none => During b s ∅ 0
  | some (dp,_) => ∃ d, During b s ∅ {(dp,d)} ∧ (b.disk d).type = T_DIR ∧ Kept b d

theorem nameiparent_quiet (hb : Sane b) (path : Path) :
    Quiet (nameiparent path) (Parent b) (fun _ => True) b := by
  refine quiet_mono (namex_quiet hb true path) ?_ (fun _ _ => trivial)
  rintro r s' ⟨hr,-⟩
  cases r with
  | none => exact hr.1
  | some x =>
    obtain ⟨d,h,hgoal⟩ := hr
    rw [target_parent] at hgoal
    exact ⟨d,h,parent_kept hb hgoal⟩

theorem sysUnlink_clean (hb : Sane b) (path : Option Path) : Clean b (sysUnlink path) := by
  cases path with
  | none => exact clean_refused hb
  | some path =>
    refine clean_begun (fails_seq (nameiparent_quiet hb path) fun r s1 hr => ?_)
    cases r with
    | none => exact fails_ended hr
    | some x =>
      obtain ⟨dp,name⟩ := x
      obtain ⟨d,h1,hdir,hk⟩ := hr
      have hmem : (dp,d) ∈ ({(dp,d)} : Multiset (Slot × ℕ)) := Multiset.mem_singleton_self _
      refine fails_seq (ilock_quiet h1 (Finset.notMem_empty _) hmem (by rw [hdir]; decide)) fun _ s2 h2 => ?_
      split
      · exact unlinkBad_fails h2 hk
      · refine fails_seq (quiet_mono
          (dirlookup_quiet h2 (Finset.mem_insert_self _ _) hmem hdir (hb.dirs d hdir) name)
          (fun _ _ => id) (fun _ _ => trivial)) fun f s3 hf => ?_
        cases f with
        | none =>
          obtain ⟨rfl,-⟩ := hf
          exact unlinkBad_fails h2 hk
        | some y =>
          obtain ⟨m,hm,-,h3⟩ := hf
          obtain ⟨hm0,hmk⟩ := sane_lookup hb hdir hm
          exact unlinkFound_fails hb h3 hk hm0 hmk _

theorem createNew_returns (dp : Slot) (name : Name) (type : ℕ) (major minor : BitVec 16) :
    Returns (· ≠ none) (createNew dp name type major minor) := by
  refine returns_bind _ fun ip => returns_bind _ fun _ => returns_bind _ fun _ => returns_bind _ fun _ =>
    returns_bind _ fun x => returns_bind _ fun done => ?_
  split
  · exact returns_bind _ fun _ => Option.some_ne_none ip
  · exact fun r => r.elim

theorem create_refuses (hb : Sane b) (path : Path) (type : ℕ) (major minor : BitVec 16) :
    Leaves alone events (create path type major minor) (fun r s l => r = none → During b s ∅ 0 ∧ l = [])
      (fun _ _ => True) b := by
  refine leaves_silent (nameiparent_quiet hb path) (fun _ _ => trivial) fun r s1 hr => ?_
  cases r with
  | none => exact (leaves_pure _).mpr fun _ => ⟨hr,rfl⟩
  | some x =>
    obtain ⟨dp,name⟩ := x
    obtain ⟨d,h1,hdir,hk⟩ := hr
    have hmem : (dp,d) ∈ ({(dp,d)} : Multiset (Slot × ℕ)) := Multiset.mem_singleton_self _
    refine leaves_silent (ilock_quiet (E := fun _ => True) h1 (Finset.notMem_empty _) hmem
      (by rw [hdir]; decide))
      (fun _ _ => trivial) fun _ s2 h2 => ?_
    refine leaves_silent (dirlookup_quiet h2 (Finset.mem_insert_self _ _) hmem hdir (hb.dirs d hdir) name)
      (fun _ _ => trivial) fun f s3 hf => ?_
    cases f with
    | none =>
      exact leaves_mono (leaves_returns (createNew_returns dp name type major minor))
        (fun _ _ _ hne heq => absurd heq hne) (fun _ _ _ => trivial)
    | some y =>
      obtain ⟨ip,off⟩ := y
      obtain ⟨m,hm,-,h3⟩ := hf
      obtain ⟨hm0,hmk⟩ := sane_lookup hb hdir hm
      have h3' : During b s3 {dp} ((dp,d) ::ₘ {(ip,m)}) := Multiset.cons_swap (ip,m) (dp,d) 0 ▸ h3
      refine leaves_silent (iunlockput_quiet (E := fun _ => True) h3' (Finset.mem_singleton_self _) hk)
        (fun _ _ => trivial) fun _ s4 h4 => ?_
      rw [Finset.erase_singleton] at h4
      refine leaves_silent (ilock_quiet (E := fun _ => True) h4 (Finset.notMem_empty _)
        (Multiset.mem_singleton_self _) hm0) (fun _ _ => trivial) fun _ s5 h5 => ?_
      refine (leaves_step (c := Cmd.inode ip) rfl).mpr ?_
      split
      · exact (leaves_pure _).mpr fun heq => by cases heq
      · refine leaves_silent (iunlockput_last (E := fun _ => True) h5 hmk)
          (fun _ _ => trivial) fun _ s6 h6 => ?_
        exact (leaves_pure _).mpr fun _ => ⟨h6,rfl⟩

theorem made_clean (hb : Sane b) (path : Path) (type : ℕ) (major minor : BitVec 16) :
    Fails b (do let r ← create path type major minor; made r) b := by
  refine leaves_seq (create_refuses hb path type major minor) (fun _ _ _ => trivial) fun r s1 l hr => ?_
  cases r with
  | none =>
    obtain ⟨h1,rfl⟩ := hr rfl
    exact fails_ended h1
  | some ip =>
    have hmade : Returns (· ≠ -1) (made (some ip)) :=
      returns_bind _ fun _ => returns_bind _ fun _ => (by decide : (0 : ℤ) ≠ -1)
    exact leaves_mono (leaves_returns hmade) (fun _ _ _ hne heq => absurd heq hne) (fun _ _ _ => trivial)

theorem sysMkdir_clean (hb : Sane b) (path : Option Path) : Clean b (sysMkdir path) := by
  refine clean_begun ?_
  cases path with
  | none => exact fails_ended (sane_during hb)
  | some path => exact made_clean hb path T_DIR 0 0

theorem sysMknod_clean (hb : Sane b) (path : Option Path) (major minor : BitVec 32) :
    Clean b (sysMknod path major minor) := by
  refine clean_begun ?_
  cases path with
  | none => exact fails_ended (sane_during hb)
  | some path => exact made_clean hb path T_DEV _ _

theorem sane_linked {k : BitVec 16} (hb : Sane b) (hn : (b.disk n).type ≠ 0) (hdir : (b.disk n).type ≠ T_DIR)
    (h : During (b.setDisk n { b.disk n with nlink := k }) s ∅ {(ip,n)}) : Sane s := by
  have hdisk : s.disk = update b.disk n { b.disk n with nlink := k } := during_disk h
  have hdata : s.data = b.data := (during_data h).trans rfl
  have htype : ∀ m, (s.disk m).type = (b.disk m).type := fun m => by
    rw [hdisk]
    by_cases hm : m = n
    · rw [hm, update_self]
    · rw [update_of_ne hm]
  have hsize : ∀ m, (s.disk m).size = (b.disk m).size := fun m => by
    rw [hdisk]
    by_cases hm : m = n
    · rw [hm, update_self]
    · rw [update_of_ne hm]
  have hlink : ∀ m, m ≠ n → (s.disk m).nlink = (b.disk m).nlink := fun m hm => by
    rw [hdisk, update_of_ne hm]
  have hcached : ∀ m, Cached s m ↔ Cached b m ∨ m = n := fun m => by
    rw [during_cached h, inodesOf, Multiset.map_singleton, Multiset.toFinset_singleton, Finset.mem_singleton]
    exact Iff.rfl
  refine ⟨h.lock,h.unique,fun i hi hv => ?_,fun i hi => ?_,⟨?_,?_⟩,?_,fun m hm => ?_,
    fun m hm de hde hne => ?_⟩
  · rw [h.synced i hi hv, during_disk h]
  · rw [htype]
    rcases (hcached _).mp ⟨i,hi,rfl⟩ with ⟨j,hj,heq⟩ | heq
    · rw [← heq]
      exact hb.used j hj
    · rwa [heq]
  · rw [htype, hb.root.1]
  · rw [hlink _ (fun heq => hdir (heq ▸ hb.root.1))]
    exact hb.root.2
  · obtain ⟨c,hc,href⟩ := hb.cwd
    refine ⟨c,?_,?_⟩
    · rw [h.same]
      exact hc
    · rw [h.ref]
      exact Nat.add_pos_left href _
  · obtain ⟨h1,h2,h3⟩ := hb.dirs m (htype m ▸ hm)
    constructor <;> rw [hsize]
    · exact h1
    · exact h2
    · rwa [during_blocks h]
  · rw [htype] at hm ⊢
    have hentries : (tree s).entries m = (tree b).entries m := by
      show entriesOf (s.data m) (s.disk m).size = entriesOf (b.data m) (b.disk m).size
      rw [hdata, hsize]
    rw [hentries] at hde
    obtain ⟨h0,hkept⟩ := hb.names m hm de hde hne
    refine ⟨h0,?_⟩
    by_cases heq : de.inum = n
    · exact .inr ((hcached _).mpr (.inr heq))
    · rcases hkept with hlinked | hc
      · exact .inl (by rwa [hlink _ heq])
      · exact .inr ((hcached _).mpr (.inl hc))

theorem dirlink_refuses (hb : Sane b) (h : During b s {dp} {(dp,d)}) (hdir : (b.disk d).type = T_DIR)
    (name : Name) (inum : ℕ) : Leaves alone events (dirlink dp name inum)
      (fun r s' l => r = false → During b s' {dp} {(dp,d)} ∧ l = []) (fun _ _ => True) s := by
  refine leaves_silent (dirlookup_quiet h (Finset.mem_singleton_self _) (Multiset.mem_singleton_self _) hdir
    (hb.dirs d hdir) name) (fun _ _ => trivial) fun f s1 hf => ?_
  cases f with
  | some y =>
    obtain ⟨ip,off⟩ := y
    obtain ⟨m,hm,-,h1⟩ := hf
    refine leaves_silent (iput_tried h1 (sane_lookup hb hdir hm).2) (fun _ _ => trivial) fun _ s2 h2 => ?_
    exact (leaves_pure _).mpr fun _ => ⟨h2,rfl⟩
  | none =>
    refine leaves_mono (leaves_returns (P := (· ≠ false)) ?_) (fun _ _ _ hne heq => absurd heq hne)
      (fun _ _ _ => trivial)
    refine returns_bind _ fun x => returns_bind _ fun off => returns_bind _ fun r => ?_
    cases r with
    | none => exact fun r => r.elim
    | some k =>
      simp only
      split
      · exact fun r => r.elim
      · exact (by decide : true ≠ false)

def raised (b : Fs) (n : ℕ) : Fs := b.setDisk n { b.disk n with nlink := (b.disk n).nlink+1 }

theorem raised_type (b : Fs) (n : ℕ) : ((raised b n).disk n).type = (b.disk n).type := by
  show (update b.disk n _ n).type = _
  rw [update_self]

theorem raised_back (b : Fs) (n : ℕ) :
    (raised b n).setDisk n { (raised b n).disk n with nlink := ((raised b n).disk n).nlink-1 } = b := by
  have hself : (raised b n).disk n = { b.disk n with nlink := (b.disk n).nlink+1 } := update_self ..
  have hdisk : update (raised b n).disk n { b.disk n with nlink := (b.disk n).nlink+1-1 } = b.disk := by
    rw [raised, Fs.setDisk, update_idem, BitVec.add_sub_cancel]
    exact update_eq_self n b.disk
  rw [hself, Fs.setDisk, hdisk]
  rfl

theorem linkBad_fails (h : During (raised b n) s ∅ {(ip,n)}) (hn : (b.disk n).type ≠ 0) (hk : Kept b n) :
    Fails b (linkBad ip) s := by
  have hmem : (ip,n) ∈ ({(ip,n)} : Multiset (Slot × ℕ)) := Multiset.mem_singleton_self _
  refine fails_seq (ilock_quiet h (Finset.notMem_empty _) hmem (by rwa [raised_type])) fun _ s1 h1 => ?_
  refine fails_seq (revise_quiet h1 (Finset.mem_insert_self _ _) hmem _) fun _ s2 h2 => ?_
  rw [raised_back] at h2
  exact fails_seq (iunlockput_last h2 hk) fun _ _ h3 => fails_ended h3

theorem linkTo_fails (hb : Sane b) (h : During b s ∅ {(ip,n)}) (hn : (b.disk n).type ≠ 0) (hk : Kept b n)
    (new : Path) : Fails b (linkTo ip new) s := by
  have hmem : (ip,n) ∈ ({(ip,n)} : Multiset (Slot × ℕ)) := Multiset.mem_singleton_self _
  refine fails_seq (ilock_quiet h (Finset.notMem_empty _) hmem hn) fun _ s1 h1 => fails_inode ?_
  have hin : ip ∈ insert ip (∅ : Finset Slot) := Finset.mem_insert_self _ _
  rw [(during_locked h1 hin hmem).1]
  split_ifs with hdir
  · exact fails_seq (iunlockput_last h1 hk) fun _ _ h2 => fails_ended h2
  · refine fails_seq (revise_quiet h1 hin hmem _) fun _ s2 h2 => ?_
    refine fails_seq (iunlock_quiet h2 hin) fun _ s3 h3 => ?_
    rw [Finset.erase_insert (Finset.notMem_empty _)] at h3
    -- the state reached is the one that the rest of the call is seen from
    have hsane : Sane s3 := sane_linked hb hn hdir h3
    refine fails_seq (nameiparent_quiet hsane new) fun r s4 hr => ?_
    cases r with
    | none => exact linkBad_fails (during_trans h3 hr) hn hk
    | some x =>
      obtain ⟨dp,name⟩ := x
      obtain ⟨d,h4,hd,hdk⟩ := hr
      refine fails_seq (ilock_quiet h4 (Finset.notMem_empty _) (Multiset.mem_singleton_self _)
        (by rw [hd]; decide))
        fun _ s5 h5 => ?_
      refine leaves_seq (dirlink_refuses hsane h5 hd name _) (fun _ _ _ => trivial) fun r s6 l hr => ?_
      cases r with
      | true =>
        have hdone : Returns (· ≠ -1) (do iunlockput dp; iput ip; endOp; pure 0 : Prog ℤ) :=
          returns_bind _ fun _ => returns_bind _ fun _ => returns_bind _ fun _ => (by decide : (0 : ℤ) ≠ -1)
        exact leaves_mono (leaves_returns hdone) (fun _ _ _ hne heq => absurd heq hne) (fun _ _ _ => trivial)
      | false =>
        obtain ⟨h6,rfl⟩ := hr rfl
        refine fails_seq (iunlockput_last h6 hdk) fun _ s7 h7 => ?_
        exact linkBad_fails (during_trans h3 h7) hn hk

theorem sysLink_clean (hb : Sane b) (old new : Option Path) : Clean b (sysLink old new) := by
  cases old with
  | none => exact clean_refused hb
  | some old =>
    cases new with
    | none => exact clean_refused hb
    | some new =>
      refine clean_begun (fails_seq (namei_quiet hb old) fun r s1 hr => ?_)
      cases r with
      | none => exact fails_ended hr
      | some ip =>
        obtain ⟨n,h1,hn,hk⟩ := hr
        exact linkTo_fails hb h1 hn hk new

/-- The calls that change names, `open` apart. -/
def Naming : Call → Prop
  | .link _ _ | .unlink _ | .mkdir _ | .mknod _ _ _ => True
  | _ => False

/-- The disk with its bitmap, the references to inodes and all else but unused slots of the
cache, and what is cached of the disk, are as before. -/
structure Untouched (b s : Fs) : Prop where
  same : s = { b with inode := s.inode }
  disk : s.disk = b.disk
  data : s.data = b.data
  blocks : s.blocks = b.blocks
  ref : ∀ i, (s.inode i).ref = (b.inode i).ref
  inum : ∀ i, 0 < (b.inode i).ref → (s.inode i).inum = (b.inode i).inum

def Balanced (l : List Event) : Prop := l.count .beginOp = l.count .endOp

/-- A call of `link`, `unlink`, `mkdir` or `mknod` that returns -1 changes nothing, where no
directory has a hole. -/
theorem failed_call_changes_nothing {b s : Fs} {call : Call} (hb : Sane b) (hcall : Naming call)
    (hfail : b.call call = .ok (-1,s)) : Untouched b s ∧ Balanced (trail alone events call.prog b) := by
  have hclean : Clean b call.prog := by
    cases call with
    | link old new => exact sysLink_clean hb old new
    | unlink path => exact sysUnlink_clean hb path
    | mkdir path => exact sysMkdir_clean hb path
    | mknod path major minor => exact sysMknod_clean hb path major minor
    | _ => exact hcall.elim
  unfold Clean Leaves wp at hclean
  rw [Fs.call] at hfail
  rw [hfail] at hclean
  obtain ⟨h,hevents⟩ := hclean rfl
  refine ⟨⟨h.same,during_disk h,during_data h,during_blocks h,h.ref,h.inum⟩,?_⟩
  rcases hevents with hl | hl
  · rw [hl]
    rfl
  · rw [hl]
    rfl

theorem of_result {α : Type} {f : Fs → α} {r : ℤ} {a : α} {x : Except Stop (ℤ × Fs)}
    (h : x.toOption.map (fun x => (x.1,f x.2)) = some (r,a)) : ∃ s, x = .ok (r,s) ∧ f s = a := by
  cases x with
  | error e => cases h
  | ok x =>
    obtain ⟨rfl,ha⟩ := Prod.mk.inj (Option.some.inj h)
    exact ⟨x.2,rfl,ha⟩

/-- The directory `/a` is there already. -/
theorem failed_call_mkdir : ∃ s, loop.call (.mkdir (some [slash,97])) = .ok (-1,s) ∧ Untouched loop s ∧
    Balanced (trail alone events (Call.mkdir (some [slash,97])).prog loop) := by
  obtain ⟨s,hs,-⟩ : ∃ s, loop.call (.mkdir (some [slash,97])) = .ok (-1,s) ∧ () = () :=
    of_result (f := fun _ => ()) (by decide +kernel)
  exact ⟨s,hs,failed_call_changes_nothing loop_sane trivial hs⟩

/-- A disk as `mkfs` makes it with 30 files: the entries of the root fill one block, and its
size is that of two. Sound but for the hole, it has a block more in use after a call of
`unlink` with a name that is not there. -/
theorem unlink_fills_hole : Sane (filed 30 1024 2 rootOnly) ∧
    (filed 30 1024 1 rootOnly).blocks.used 32 = false ∧
    ∃ s, (filed 30 1024 1 rootOnly).call (.unlink (some [122,122])) = .ok (-1,s) ∧
    s.blocks.used 32 = true := by
  refine ⟨sane_root (by decide +kernel) (fun _ _ hi hj _ => rootOnly_unique hi hj) (by decide)
    ⟨0,rfl,by decide⟩
    (fun _ => filesDisk_only) ⟨by decide,by decide,by decide⟩ (by decide +kernel),rfl,?_⟩
  exact of_result (f := fun s => s.blocks.used 32) (by decide +kernel)

end Xv6.FailedCalls

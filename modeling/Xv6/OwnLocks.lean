import Xv6.FsCreate

/-!
# A process that waits for its own lock

Two calls lock an inode that they have looked up in a directory while they hold
the directory: `unlink`, and `link` by way of the `iput` in `dirlink`. If the
directory has its own number under that name, they wait for a lock that they
hold. The calls to `unlink` rule out the names `.` and `..`, those to `link` do
not. In every other case, and in every other call, no process that runs alone
waits for an inode.
-/

set_option autoImplicit false

namespace Xv6.OwnLocks
open CommandTree InodeCode FileCalls PathTree FsLedger FsInodes
open FsDirectories FsPaths FsFiles FsCreate

variable {s s' : Fs} {g : Ledger} {i ip dp : Slot} {n d m off : ℕ} {name : Name}

def selfNamed (s : Fs) (path : Path) : Bool :=
  (goal s true path).any (fun r => (tree s).lookup r.1 r.2 = some r.1)

def plain (s : Fs) (path : Path) : Bool := (goal s false path).any (fun r => (tree s).kind r.1 ≠ T_DIR)

def dotted (s : Fs) (path : Path) : Bool :=
  (goal s true path).any (fun r => namecmp r.2 dot = 0 ∨ namecmp r.2 dotdot = 0)

/-- The calls that wait for a lock of their own, by what the tree is before. -/
def SelfLock (s : Fs) : Call → Prop
  | .link (some old) (some new) => plain s old = true ∧ selfNamed s new = true
  | .unlink (some path) => dotted s path = false ∧ selfNamed s path = true
  | .link none _ | .link (some _) none | .unlink none => False
  | .open _ _ | .mkdir _ | .mknod _ _ _ | .chdir _ | .read _ _ | .write _ _ | .close _ | .exec _
  | .exit => False

/-- A wait is for a lock of the process itself, and then `P` holds. -/
def Waits (pid : ℕ) (P : Prop) : Stop → Prop
  | .sleeps _ q => q = pid ∧ P
  | .panic _ | .noCwd => True

theorem no_sleep_waits {pid : ℕ} {P : Prop} (e : Stop) (h : NoSleep e) : Waits pid P e := by
  cases e with
  | sleeps => cases h
  | panic | noCwd => trivial

theorem ilock_waits (h : Held s g) (hi : i ∈ g.locked) {Q : Unit → Fs → Prop} {P : Prop} (hP : P) :
    wp alone (ilock i) Q (Waits g.pid P) s := by
  unfold ilock
  rw [wp_bind, wp_inode, if_neg (by have := h.live i hi; omega), wp_bind,
    wp_acquire_taken (by rw [h.locks, if_pos hi])]
  exact ⟨rfl,hP⟩

theorem iput_waits (h : Held s g) (hi : i ∈ g.locked) {Q : Unit → Fs → Prop} {P : Prop} (hP : P) :
    wp alone (iput i) Q (Waits g.pid P) s := by
  unfold iput
  rw [wp_bind, wp_acquire_taken (by rw [h.locks, if_pos hi])]
  exact ⟨rfl,hP⟩

theorem same_slot (h : Held s g) (hi : (i,n) ∈ g.refs) (hj : (ip,m) ∈ g.refs) : ip = i ↔ m = n := by
  constructor
  · rintro rfl
    exact (h.names _ hj).symm.trans (h.names _ hi)
  · intro hmn
    refine h.unique ip i (held_ref h hj) (held_ref h hi) ?_
    rw [h.names _ hj, h.names _ hi]
    exact hmn

theorem dirlink_old (h : Held s { g with locked := {dp}, refs := (dp,d) ::ₘ g.refs })
    (hsome : (tree s).lookup d name = some m) (inum : ℕ) {P : Prop} (hP : m = d → P) :
    wp alone (dirlink dp name inum) (fun r s' => r = false ∧ m ≠ d ∧
      Held s' { g with locked := {dp}, refs := (dp,d) ::ₘ g.refs }) (Waits g.pid P) s := by
  have hdp : (dp,d) ∈ (dp,d) ::ₘ g.refs := Multiset.mem_cons_self _ _
  unfold dirlink
  refine wp_seq (dirlookup_spec h (Finset.mem_singleton_self dp) hdp name) no_sleep_waits ?_
  rintro r s1 ⟨-,-,hr⟩
  cases r with
  | none =>
    rw [hsome] at hr
    cases hr.2
  | some r =>
    obtain ⟨j,o⟩ := r
    obtain ⟨k,h1,hk⟩ := hr
    rw [hsome] at hk
    cases hk
    have hj : j = dp ↔ m = d := same_slot h1 (Multiset.mem_cons_of_mem hdp)
      (Multiset.mem_cons_self _ _)
    by_cases hmd : m = d
    · rw [wp_bind]
      exact iput_waits h1 (by simpa using hj.mpr hmd) (hP hmd)
    · refine wp_seq (iput_spec h1 rfl (by simpa using fun he => hmd (hj.mp he))) no_sleep_waits ?_
      rintro - s2 ⟨h2,-⟩
      exact ⟨rfl,hmd,h2⟩

theorem unlinkBad_spec (h : Held s { g with locked := {dp}, refs := (dp,d) ::ₘ g.refs })
    (hg : Home g) : Does (unlinkBad dp) (fun _ s' => Sound s') s := by
  unfold unlinkBad
  refine wp_then (release_spec h hg.locked) ?_
  rintro - s1 ⟨h1,-⟩
  exact ⟨g,hg,h1⟩

theorem isdiremptyFrom_spec {k : ℕ} (htype : (s.inode i).copy.type ≠ T_DEV) (off : ℕ) :
    Does (isdiremptyFrom i k off) (fun _ s' => ∃ B, s' = s.setBlocks B) s := by
  induction k generalizing off s with
  | zero => exact ⟨s.blocks,rfl⟩
  | succ k ih =>
    unfold isdiremptyFrom
    rw [Does, wp_bind, wp_inode]
    split
    · refine wp_then (readDirent_spec htype _ _) ?_
      rintro de - ⟨⟨B,rfl⟩,-⟩
      split
      · exact ⟨B,rfl⟩
      · exact ih (s := s.setBlocks B) htype _
    · exact ⟨s.blocks,rfl⟩

theorem isdirempty_spec (htype : (s.inode i).copy.type ≠ T_DEV) :
    Does (isdirempty i) (fun _ s' => ∃ B, s' = s.setBlocks B) s := by
  unfold isdirempty
  rw [Does, wp_bind, wp_inode]
  exact isdiremptyFrom_spec htype _

theorem unlinkEntry_spec (h : Held s { g with
      locked := insert ip {dp}
      refs := (ip,m) ::ₘ (dp,d) ::ₘ g.refs }) (hne : ip ≠ dp) (hg : Home g) (off : ℕ) :
    Does (unlinkEntry dp ip off) (fun _ s' => Sound s') s := by
  unfold unlinkEntry
  refine wp_then (writei_spec h (by simp) _ _) ?_
  rintro r s1 h1
  cases r with
  | none => trivial
  | some k =>
    simp only
    split
    · trivial
    rw [wp_bind, wp_inode]
    have hparent : Does (if (s1.inode ip).copy.type = T_DIR then
        revise dp (fun x => { x with nlink := x.nlink-1 }) else pure ()) (fun _ s' => Held s' { g with
          locked := insert ip {dp}
          refs := (ip,m) ::ₘ (dp,d) ::ₘ g.refs }) s1 := by
      split
      · exact wp_post (revise_tree h1 (by simp) (fun _ => ⟨rfl,rfl⟩)) (fun _ _ => And.left)
      · exact h1
    refine wp_then hparent ?_
    rintro - s2 h2
    refine wp_then (iunlockput_spec h2 (Multiset.cons_swap ..)) ?_
    rintro - s3 ⟨-,h3,-⟩
    simp only [erase_pair hne] at h3
    refine wp_then (revise_tree h3 (by simp) (fun _ => ⟨rfl,rfl⟩)) ?_
    rintro - s4 ⟨h4,-⟩
    refine wp_then (release_spec h4 hg.locked) ?_
    rintro - s5 ⟨h5,-⟩
    exact ⟨g,hg,h5⟩

theorem unlinkFound_spec (h : Held s { g with
      locked := {dp}
      refs := (ip,m) ::ₘ (dp,d) ::ₘ g.refs }) (hne : ip ≠ dp) (hg : Home g) (off : ℕ) :
    Does (unlinkFound dp ip off) (fun _ s' => Sound s') s := by
  unfold unlinkFound
  refine wp_then (ilock_spec h (by simpa using hne)) ?_
  rintro - s1 ⟨h1,-⟩
  rw [wp_bind, wp_inode]
  split
  · trivial
  split_ifs with hdir
  · refine wp_then (isdirempty_spec (by rw [hdir]; decide)) ?_
    rintro b _ ⟨B,rfl⟩
    replace h1 := held_blocks h1 B
    split
    · exact unlinkEntry_spec h1 hne hg off
    · refine wp_then (iunlockput_spec h1 rfl) ?_
      rintro - s3 ⟨-,h3,-⟩
      simp only [Finset.erase_insert (show ip ∉ ({dp} : Finset Slot) by simpa using hne)] at h3
      exact unlinkBad_spec h3 hg
  · exact unlinkEntry_spec h1 hne hg off

theorem unlink_spec (h : Held s g) (hg : Home g) (path : Option Path) :
    wp alone (sysUnlink path) (fun _ s' => Sound s' ∧ ¬ SelfLock s (.unlink path))
      (Waits s.pid (SelfLock s (.unlink path))) s := by
  unfold sysUnlink
  cases path with
  | none => exact ⟨⟨g,hg,h⟩,id⟩
  | some path =>
    simp only
    rw [wp_bind, wp_begin]
    refine wp_seq (namex_spec h hg.locked (home_rooted hg) true path (shrinks_refl _))
      no_sleep_waits ?_
    rintro r s1 ⟨ht,hr⟩
    cases r with
    | none =>
      refine ⟨⟨g,hg,hr.1⟩,?_⟩
      rintro ⟨-,hself⟩
      rw [selfNamed, goal, hr.2] at hself
      cases hself
    | some r =>
      obtain ⟨dp,name⟩ := r
      obtain ⟨d,h1,hgoal⟩ := hr
      have hself : selfNamed s path = decide ((tree s).lookup d name = some d) := by
        rw [selfNamed, goal, hgoal]
        rfl
      have hdots : dotted s path = decide (namecmp name dot = 0 ∨ namecmp name dotdot = 0) := by
        rw [dotted, goal, hgoal]
        rfl
      refine wp_seq (lock_spec h1 hg.locked) no_sleep_waits ?_
      rintro - s2 ⟨h2,t2⟩
      rw [← t2] at ht
      have hdp : (dp,d) ∈ (dp,d) ::ₘ g.refs := Multiset.mem_cons_self _ _
      obtain ⟨-,-,hnz⟩ := entries_locked h2 (Finset.mem_singleton_self dp) hdp
      split_ifs with hname
      · refine wp_mono (unlinkBad_spec h2 hg) (fun _ _ hs => ⟨hs,?_⟩) no_sleep_waits
        rintro ⟨hd,-⟩
        rw [hdots, decide_eq_false_iff_not] at hd
        exact hd hname
      · refine wp_seq (dirlookup_spec h2 (Finset.mem_singleton_self dp) hdp name) no_sleep_waits ?_
        rintro r s3 ⟨-,-,hr⟩
        rw [(shrinks_lookup ht hnz name).2] at hr
        cases r with
        | none =>
          refine wp_mono (unlinkBad_spec hr.1 hg) (fun _ _ hs => ⟨hs,?_⟩) no_sleep_waits
          rintro ⟨-,hs⟩
          rw [hself, hr.2] at hs
          simp at hs
        | some r =>
          obtain ⟨ip,o⟩ := r
          obtain ⟨m,h3,hlook⟩ := hr
          have hslot : ip = dp ↔ m = d := same_slot h3 (Multiset.mem_cons_of_mem hdp)
            (Multiset.mem_cons_self _ _)
          rw [hlook] at hself
          by_cases hmd : m = d
          · have hpid : s.pid = g.pid := h.pid
            have hyes : SelfLock s (.unlink (some path)) :=
              ⟨by rw [hdots]; exact decide_eq_false hname,by rw [hself, hmd]; simp⟩
            unfold unlinkFound
            rw [wp_bind, hpid]
            exact ilock_waits h3 (by simpa using hslot.mpr hmd) hyes
          · refine wp_mono (unlinkFound_spec h3 (fun he => hmd (hslot.mp he)) hg o)
              (fun _ _ hs => ⟨hs,?_⟩) no_sleep_waits
            rintro ⟨-,hs⟩
            rw [hself] at hs
            simp [hmd] at hs

theorem linkBad_spec (h : Held s { g with refs := (ip,m) ::ₘ g.refs }) (hg : Home g) :
    Does (linkBad ip) (fun _ s' => Sound s') s := by
  unfold linkBad
  refine wp_then (lock_spec h hg.locked) ?_
  rintro - s1 ⟨h1,-⟩
  refine wp_then (revise_tree h1 (by simp) (fun _ => ⟨rfl,rfl⟩)) ?_
  rintro - s2 ⟨h2,-⟩
  refine wp_then (release_spec h2 hg.locked) ?_
  rintro - s3 ⟨h3,-⟩
  exact ⟨g,hg,h3⟩

theorem origin_eq {g' : Ledger} (h : Held s g) (h' : Held s' g') (hcwd : g'.cwd = g.cwd)
    (hroot : Rooted g) (hrefs : ∀ r ∈ g.refs, r ∈ g'.refs) (path : Path) :
    origin s' path = origin s path := by
  unfold origin
  split
  · rfl
  rw [h'.cwd, h.cwd, hcwd]
  cases hc : g.cwd with
  | none => rfl
  | some c =>
    obtain ⟨n,hn⟩ := hroot c hc
    exact (h'.names _ (hrefs _ hn)).trans (h.names _ hn).symm

theorem linkEntry_spec {g' : Ledger} (hg' : g' = { g with refs := (ip,m) ::ₘ g.refs })
    (h : Held s { g' with locked := {dp}, refs := (dp,d) ::ₘ g'.refs }) (hg : Home g) (inum : ℕ)
    {P : Prop} (hP : P ↔ (tree s).lookup d name = some d) :
    wp alone (do
      if ← dirlink dp name inum then
        iunlockput dp
        iput ip
        endOp
        pure 0
      else
        iunlockput dp
        linkBad ip) (fun _ s' => Sound s' ∧ ¬ P) (Waits g.pid P) s := by
  subst hg'
  have hL := hg.locked
  have hdp : (dp,d) ∈ (dp,d) ::ₘ (ip,m) ::ₘ g.refs := Multiset.mem_cons_self _ _
  cases hlook : (tree s).lookup d name with
  | none =>
    refine wp_seq (dirlink_new h (Finset.mem_singleton_self dp) hdp hlook inum) no_sleep_waits ?_
    rintro r s1 ⟨rfl,h1,-⟩
    simp only [if_true]
    refine wp_seq (release_spec h1 hL) no_sleep_waits ?_
    rintro - s2 ⟨h2,-⟩
    refine wp_seq (iput_spec h2 rfl (by simp [hL])) no_sleep_waits ?_
    rintro - s3 ⟨h3,-⟩
    refine ⟨⟨g,hg,h3⟩,fun hp => ?_⟩
    rw [hP, hlook] at hp
    cases hp
  | some k =>
    refine wp_then (dirlink_old h hlook inum (fun hk => hP.mpr (by rw [hlook, hk]))) ?_
    rintro r s1 ⟨rfl,hkd,h1⟩
    simp only [Bool.false_eq_true, if_false]
    refine wp_seq (release_spec h1 hL) no_sleep_waits ?_
    rintro - s2 ⟨h2,-⟩
    refine wp_mono (linkBad_spec h2 hg) (fun _ _ hs => ⟨hs,fun hp => ?_⟩) no_sleep_waits
    rw [hP, hlook] at hp
    cases hp
    exact hkd rfl

theorem link_spec (h : Held s g) (hg : Home g) (old new : Option Path) :
    wp alone (sysLink old new) (fun _ s' => Sound s' ∧ ¬ SelfLock s (.link old new))
      (Waits s.pid (SelfLock s (.link old new))) s := by
  unfold sysLink
  match old, new with
  | none, _ => exact ⟨⟨g,hg,h⟩,id⟩
  | some _, none => exact ⟨⟨g,hg,h⟩,id⟩
  | some old, some new =>
    simp only
    rw [wp_bind, wp_begin]
    refine wp_seq (namei_spec h hg.locked (home_rooted hg) old) no_sleep_waits ?_
    rintro r s1 ⟨ht,hr⟩
    cases r with
    | none =>
      refine ⟨⟨g,hg,hr.1⟩,?_⟩
      rintro ⟨hplain,-⟩
      rw [plain, hr.2] at hplain
      cases hplain
    | some ip =>
      obtain ⟨m,e,h1,hgoal⟩ := hr
      have hplain : plain s old = decide ((tree s).kind m ≠ T_DIR) := by
        rw [plain, hgoal]
        rfl
      unfold linkTo
      refine wp_seq (lock_spec h1 hg.locked) no_sleep_waits ?_
      rintro - s2 ⟨h2,t2⟩
      rw [← t2] at ht
      have hip : (ip,m) ∈ (ip,m) ::ₘ g.refs := Multiset.mem_cons_self _ _
      obtain ⟨-,hkind,hnz⟩ := entries_locked h2 (Finset.mem_singleton_self ip) hip
      rw [(shrinks_lookup ht hnz []).1] at hkind
      rw [wp_bind, wp_inode]
      split_ifs with hdir
      · refine wp_seq (release_spec h2 hg.locked) no_sleep_waits ?_
        rintro - s3 ⟨h3,-⟩
        refine ⟨⟨g,hg,h3⟩,?_⟩
        rintro ⟨hp,-⟩
        rw [hplain, hkind, hdir] at hp
        simp at hp
      · refine wp_seq (revise_tree h2 (by simp) (fun _ => ⟨rfl,rfl⟩)) no_sleep_waits ?_
        rintro - s3 ⟨h3,t3⟩
        refine wp_seq (iunlock_spec h3) no_sleep_waits ?_
        rintro - s4 ⟨-,h4,t4⟩
        rw [← t3, ← t4] at ht
        simp only [Finset.erase_singleton, ← hg.locked] at h4
        have hroot := home_rooted hg
        have horigin := origin_eq h h4 rfl hroot (fun r hr => Multiset.mem_cons_of_mem hr) new
        refine wp_seq (namex_spec h4 hg.locked (fun c hc => ?_) true new ht) no_sleep_waits ?_
        · obtain ⟨k,hk⟩ := hroot c hc
          exact ⟨k,Multiset.mem_cons_of_mem hk⟩
        rintro r s5 ⟨ht5,hr⟩
        rw [horigin] at hr
        cases r with
        | none =>
          refine wp_mono (linkBad_spec hr.1 hg) (fun _ _ hs => ⟨hs,?_⟩) no_sleep_waits
          rintro ⟨-,hself⟩
          rw [selfNamed, goal, hr.2] at hself
          cases hself
        | some r =>
          obtain ⟨dp,name⟩ := r
          obtain ⟨d,h5,hgoal'⟩ := hr
          have hself : selfNamed s new = decide ((tree s).lookup d name = some d) := by
            rw [selfNamed, goal, hgoal']
            rfl
          refine wp_seq (lock_spec h5 hg.locked) no_sleep_waits ?_
          rintro - s6 ⟨h6,t6⟩
          rw [← t6] at ht5
          obtain ⟨-,-,hnz'⟩ := entries_locked h6 (Finset.mem_singleton_self dp)
            (Multiset.mem_cons_self _ _)
          rw [h.pid]
          refine linkEntry_spec rfl h6 hg _ ?_
          rw [(shrinks_lookup ht5 hnz' name).2, SelfLock, hplain, hself]
          simp only [decide_eq_true_eq, hkind]
          exact ⟨And.right,fun hl => ⟨hdir,hl⟩⟩

theorem call_spec (hs : Sound s) (c : Call) :
    wp alone c.prog (fun _ s' => Sound s' ∧ ¬ SelfLock s c) (Waits s.pid (SelfLock s c)) s := by
  obtain ⟨g,hg,h⟩ := hs
  have hnever : ∀ {p : Prog ℤ}, Does p (fun _ s' => Sound s') s → ¬ SelfLock s c →
      wp alone p (fun _ s' => Sound s' ∧ ¬ SelfLock s c) (Waits s.pid (SelfLock s c)) s :=
    fun hp hc => wp_mono hp (fun _ _ hs' => ⟨hs',hc⟩) no_sleep_waits
  cases c with
  | «open» path omode => exact hnever (open_spec h hg path omode) id
  | link old new => exact link_spec h hg old new
  | unlink path => exact unlink_spec h hg path
  | mkdir path => exact hnever (mkdir_spec h hg path) id
  | mknod path major minor => exact hnever (mknod_spec h hg path major minor) id
  | chdir path => exact hnever (chdir_spec h hg path) id
  | read fd n => exact hnever (read_spec h hg fd n) id
  | write fd bytes => exact hnever (write_spec h hg fd bytes) id
  | close fd => exact hnever (close_spec h hg fd) id
  | exec path => exact hnever (exec_spec h hg path) id
  | exit => exact hnever (exit_spec h hg) id

def boot (pid ninodes : ℕ) (disk : ℕ → Dinode) (data : ℕ → ℕ → Byte) (blocks : Blocks)
    (input : ℕ → Option (List Byte)) (memory : ℕ → Bool) : Fs where
  pid := pid
  init := false
  ninodes := ninodes
  disk := disk
  data := data
  blocks := blocks
  inode := fun i => if i = 0 then ⟨ROOTINO,1,none,false,.zero⟩ else ⟨0,0,none,false,.zero⟩
  file := fun _ => ⟨.none,0,false,false,0,0,0⟩
  pipe := fun _ => ⟨false,false,false⟩
  ofile := fun _ => none
  cwd := some 0
  input := input
  memory := memory

theorem boot_sound (pid ninodes : ℕ) (disk : ℕ → Dinode) (data : ℕ → ℕ → Byte) (blocks : Blocks)
    (input : ℕ → Option (List Byte)) (memory : ℕ → Bool) :
    Sound (boot pid ninodes disk data blocks input memory) := by
  refine ⟨⟨pid,∅,{(0,ROOTINO)},0,some 0,fun _ => none⟩,⟨rfl,⟨_,rfl⟩,fun f => ?_⟩,?_⟩
  · exact (Finset.sum_eq_zero (fun _ _ => rfl)).symm
  have hzero : ∀ i, 0 < ((boot pid ninodes disk data blocks input memory).inode i).ref → i = 0 := by
    intro i hi
    by_contra hne
    simp [boot, hne] at hi
  have hvalid : ∀ i, ((boot pid ninodes disk data blocks input memory).inode i).valid = false := by
    intro i
    simp only [boot]
    split <;> rfl
  refine ⟨fun i => ?_,fun i hi => (by cases hi),fun i hi => (by cases hi),fun i => ?_,fun r hr => ?_,
    fun i j hi hj _ => (hzero i hi).trans (hzero j hj).symm,fun i _ hv => ?_,fun f => Nat.le_refl 0,
    fun f _ => rfl,rfl,rfl,rfl⟩
  · simp only [boot]
    split <;> rfl
  · have htally : Xv6.CodeMachine.tally (uses i) (boot pid ninodes disk data blocks input memory).file = 0 :=
      Finset.sum_eq_zero (fun _ _ => rfl)
    rw [htally]
    by_cases hi : i = 0
    · subst hi
      have hone := Multiset.countP_le_card (fun r : Slot × ℕ => r.1 = 0) {(0,ROOTINO)}
      simpa [pins, boot] using hone
    · simp [pins, boot, hi, Ne.symm hi, Multiset.countP_eq_zero]
  · rw [Multiset.mem_singleton] at hr
    rw [hr]
    rfl
  · rw [hvalid] at hv
    cases hv

/-- In every state between two calls, with every tree on the disk: a call that is
not one of those waits for no lock; one of those waits for a lock that the process
holds, unless it panics before; and a call that returns leaves such a state
again. -/
theorem no_wait_for_own_lock (s : Fs) (hs : Sound s) (c : Call) :
    (¬ SelfLock s c → ∀ i q, s.call c ≠ .error (.sleeps i q)) ∧
    ((∀ msg, s.call c ≠ .error (.panic msg)) → s.call c ≠ .error .noCwd →
      ((∀ i, s.call c ≠ .error (.sleeps i s.pid)) ↔ ¬ SelfLock s c)) ∧
    ∀ r s', s.call c = .ok (r,s') → Sound s' := by
  have hspec := call_spec hs c
  have hcall : s.call c = run alone c.prog s := rfl
  unfold wp at hspec
  rw [← hcall] at hspec
  refine ⟨fun hno i q he => ?_,fun hpanic hcwd => ⟨fun hfree hself => ?_,fun hno i he => ?_⟩,
    fun r s' he => ?_⟩
  · rw [he] at hspec
    exact hno hspec.2
  · cases he : s.call c with
    | ok r =>
      rw [he] at hspec
      exact hspec.2 hself
    | error e =>
      rw [he] at hspec
      cases e with
      | panic msg => exact hpanic msg he
      | noCwd => exact hcwd he
      | sleeps i q =>
        obtain ⟨rfl,-⟩ : q = s.pid ∧ _ := hspec
        exact hfree i he
  · rw [he] at hspec
    exact hno hspec.2
  · rw [he] at hspec
    exact hspec.1

def oneFile : Fs :=
  let entries := Dirent.encode ⟨1,strncpy DIRSIZ dot⟩++Dirent.encode ⟨1,strncpy DIRSIZ dotdot⟩++
    Dirent.encode ⟨2,strncpy DIRSIZ [97]⟩
  boot 1 200 (fun n => if n = 1 then ⟨T_DIR,0,0,1,48⟩ else if n = 2 then ⟨T_FILE,0,0,1,0⟩ else .zero)
    (fun n k => if n = 1 then entries.getD k 0 else 0)
    ⟨1000,(· < 60),fun n k => if n = 1 ∧ k = 0 then 59 else 0⟩ (fun _ => none) (fun _ => true)

def stopped (x : Except Stop (ℤ × Fs)) : Option Stop :=
  match x with
  | .ok _ => none
  | .error e => some e

theorem link_to_new_name : Sound oneFile ∧ ¬ SelfLock oneFile (.link (some [97]) (some [98])) ∧
    ∀ i q, oneFile.call (.link (some [97]) (some [98])) ≠ .error (.sleeps i q) := by
  have hs : Sound oneFile := boot_sound ..
  have hno : ¬ SelfLock oneFile (.link (some [97]) (some [98])) := by
    show ¬ (plain oneFile [97] = true ∧ selfNamed oneFile [98] = true)
    decide +kernel
  exact ⟨hs,hno,(no_wait_for_own_lock oneFile hs _).1 hno⟩

/-- The call `link("a", ".")` in the root directory. -/
theorem link_to_dot_waits :
    Sound oneFile ∧ oneFile.call (.link (some [97]) (some [46])) = .error (.sleeps 0 oneFile.pid) := by
  refine ⟨boot_sound ..,?_⟩
  have hstop : stopped (oneFile.call (.link (some [97]) (some [46]))) =
      some (.sleeps 0 oneFile.pid) := by decide +kernel
  cases hc : oneFile.call (.link (some [97]) (some [46])) with
  | ok r =>
    rw [hc] at hstop
    cases hstop
  | error e =>
    rw [hc] at hstop
    exact congrArg _ (Option.some.inj hstop)

end Xv6.OwnLocks

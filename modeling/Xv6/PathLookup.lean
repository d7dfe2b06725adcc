import Xv6.FsQuiet

/-!
# Path resolution

A path is a list of components, and it leads from a directory through one directory after
the other. `namei` finds where it leads to, `nameiparent` the directory before the last
component. The inode at hand and the next one need a slot of the cache each, and `iget`
panics where there is none; else both functions return, and have one reference more than
before where they have found something.
-/

set_option autoImplicit false

namespace Xv6.PathLookup
open CommandTree MarkedRuns InodeCode FileCalls PathTree FsLedger FsQuiet
open FsPaths (origin)

def walk (t : Tree) (n : ℕ) : List Name → Option ℕ
  | [] => some n
  | e::es => if t.kind n = T_DIR then (t.lookup n e).bind (fun m => walk t m es) else none

def parentOf (t : Tree) (n : ℕ) (es : List Name) : Option (ℕ × Name) :=
  match es.getLast? with
  | none => none
  | some e => (walk t n es.dropLast).bind (fun d => if t.kind d = T_DIR then some (d,e) else none)

def entry (t : Tree) (r : Option (ℕ × Name)) : Option ℕ := r.bind (fun x => t.lookup x.1 x.2)

variable {t : Tree} {n m : ℕ} {e : Name} {es : List Name}

theorem target_walk : t.target false n es = (walk t n es).map (fun m => (m,[])) := by
  induction es generalizing n with
  | nil => rfl
  | cons e es ih =>
    rw [Tree.target, walk]
    split
    · rw [if_neg (by simp)]
      cases t.lookup n e with
      | none => rfl
      | some m => exact ih
    · rfl

theorem target_parent : t.target true n es = parentOf t n es := by
  induction es generalizing n with
  | nil => rfl
  | cons e es ih =>
    cases es with
    | nil =>
      show (if t.kind n = T_DIR then _ else _) = (if t.kind n = T_DIR then some (n,e) else none)
      split
      · rw [if_pos ⟨rfl,rfl⟩]
      · rfl
    | cons e' es =>
      rw [Tree.target, parentOf, List.getLast?_cons_cons]
      by_cases hdir : t.kind n = T_DIR
      · rw [if_pos hdir, if_neg (by simp), List.dropLast_cons_of_ne_nil (List.cons_ne_nil e' es), walk,
          if_pos hdir]
        cases t.lookup n e with
        | none =>
          cases (e'::es).getLast? <;> rfl
        | some m => exact ih
      · rw [if_neg hdir, List.dropLast_cons_of_ne_nil (List.cons_ne_nil e' es), walk, if_neg hdir]
        cases (e'::es).getLast? <;> rfl

theorem walk_entry (hes : es ≠ []) : walk t n es = entry t (parentOf t n es) := by
  induction es generalizing n with
  | nil => exact absurd rfl hes
  | cons e es ih =>
    rw [← target_parent, walk, Tree.target]
    split
    · cases es with
      | nil =>
        rw [if_pos ⟨rfl,rfl⟩]
        show (t.lookup n e).bind some = t.lookup n e
        exact Option.bind_fun_some _
      | cons e' es =>
        rw [if_neg (by simp)]
        cases t.lookup n e with
        | none => rfl
        | some m =>
          show walk t m (e'::es) = entry t (t.target true m (e'::es))
          rw [target_parent]
          exact ih (List.cons_ne_nil _ _)
    · rfl

/-- The names that calls of `skipelem` give one after the other. -/
def components : ℕ → Path → List Name
  | 0, _ => []
  | k+1, path =>
    match skipelem path with
    | none => []
    | some (name,rest) => name::components k rest

theorem components_elements {k : ℕ} {path : Path} (hk : path.length < k) :
    components k path = elements path := by
  induction k generalizing path with
  | zero => omega
  | succ k ih =>
    rw [components]
    cases hskip : skipelem path with
    | none => exact (skipelem_none hskip).symm
    | some r =>
      obtain ⟨name,rest⟩ := r
      obtain ⟨helem,hlen,-⟩ := skipelem_some hskip
      show name::components k rest = _
      rw [helem, ih (by omega)]

variable {b s : Fs} {ip : Slot} {parent : Bool} {path : Path}

/-- At each directory that a component is looked up in there is a slot for the inode found. -/
def WayFits (b : Fs) (parent : Bool) (n : ℕ) : List Name → Prop
  | [] => True
  | e::es => (tree b).kind n = T_DIR → ¬(parent = true ∧ es = []) →
      ∀ m, (tree b).lookup n e = some m → Fits b {m,n} ∧ WayFits b parent m es

def Room (b : Fs) (parent : Bool) (path : Path) : Prop :=
  (path.headD 0 = slash → Fits b {ROOTINO}) ∧ WayFits b parent (origin b path) (elements path)

/-- What a lookup returns, for where the path leads; the one reference it has taken is to
the inode it returns. -/
def Leads (b : Fs) (goal : Option (ℕ × Name)) (r : Option (Slot × Name)) (s' : Fs) : Prop :=
  match r with
  | none => During b s' ∅ 0 ∧ goal = none
  | some (i,name) => ∃ m, During b s' ∅ {(i,m)} ∧ goal = some (m,name)

theorem namexFrom_quiet {k : ℕ} (hb : Sane b) (hk : path.length < k) (h : During b s ∅ {(ip,n)})
    (hn : (b.disk n).type ≠ 0) (hkept : Kept b n) : Quiet (namexFrom parent k ip path)
      (fun r s' => Leads b ((tree b).target parent n (elements path)) r s' ∧
      WayFits b parent n (elements path))
      (fun e => e = .panic .iget ∧ ¬WayFits b parent n (elements path)) s := by
  induction k generalizing s ip n path with
  | zero => omega
  | succ k ih =>
    have h' : During b s ∅ ((ip,n) ::ₘ 0) := h
    have hmem : (ip,n) ∈ ({(ip,n)} : Multiset (Slot × ℕ)) := Multiset.mem_singleton_self _
    unfold namexFrom
    cases hskip : skipelem path with
    | none =>
      rw [skipelem_none hskip]
      simp only
      split
      · rename_i hpar
        refine quiet_then (iput_quiet h' (Finset.notMem_empty _) hkept) fun _ s1 h1 => ?_
        exact (quiet_pure _).mpr ⟨⟨h1,by simp [Tree.target, hpar]⟩,trivial⟩
      · rename_i hpar
        exact (quiet_pure _).mpr ⟨⟨n,h,by simp [Tree.target, hpar]⟩,trivial⟩
    | some r =>
      obtain ⟨name,rest⟩ := r
      obtain ⟨helem,hlen,hrest⟩ := skipelem_some hskip
      rw [helem]
      simp only
      refine quiet_then (ilock_quiet h (Finset.notMem_empty _) hmem hn) fun _ s1 h1 => ?_
      have hin : ip ∈ insert ip (∅ : Finset Slot) := Finset.mem_insert_self _ _
      have hback : (insert ip (∅ : Finset Slot)).erase ip = ∅ := Finset.erase_insert (Finset.notMem_empty _)
      have hkind : (s1.inode ip).copy.type = (tree b).kind n := by
        rw [(during_locked h1 hin hmem).1]
        rfl
      rw [quiet_bind, quiet_inode, hkind]
      split
      · rename_i hdir
        refine quiet_then (iunlockput_quiet (R := 0) h1 hin hkept) fun _ s2 h2 => ?_
        rw [hback] at h2
        exact (quiet_pure _).mpr ⟨⟨h2,by rw [Tree.target, if_neg hdir]⟩,fun h0 => absurd h0 hdir⟩
      · rename_i hdir
        rw [not_not] at hdir
        split
        · rename_i hpar
          have hlast : parent = true ∧ elements rest = [] := ⟨hpar.1,hrest.mp hpar.2⟩
          refine quiet_then (iunlock_quiet h1 hin) fun _ s2 h2 => ?_
          rw [hback] at h2
          exact (quiet_pure _).mpr ⟨⟨n,h2,by rw [Tree.target, if_pos hdir, if_pos hlast]⟩,
            fun _ hno => absurd hlast hno⟩
        · rename_i hpar
          have hgo : ¬(parent = true ∧ elements rest = []) := fun hc => hpar ⟨hc.1,hrest.mpr hc.2⟩
          have hslot : ∀ m, HasSlot s1 m ↔ Fits b {m,n} := fun m => by
            rw [slot_iff h1]
            rfl
          refine quiet_seq (dirlookup_quiet h1 hin hmem hdir (hb.dirs n hdir) name) ?_ ?_
          · rintro e ⟨he,m,hm,hno⟩
            exact ⟨he,fun hway => hno ((hslot m).mpr (hway hdir hgo m hm).1)⟩
          · intro r s2 hr
            cases r with
            | none =>
              obtain ⟨rfl,hnone⟩ := hr
              refine quiet_then (iunlockput_quiet (R := 0) h1 hin hkept) fun _ s3 h3 => ?_
              rw [hback] at h3
              refine (quiet_pure _).mpr ⟨⟨h3,by rw [Tree.target, if_pos hdir, if_neg hgo, hnone]⟩,
                fun _ _ m hm => ?_⟩
              rw [hnone] at hm
              cases hm
            | some r =>
              obtain ⟨next,o⟩ := r
              obtain ⟨m,hm,hs,h2⟩ := hr
              have h2' : During b s2 _ ((ip,n) ::ₘ {(next,m)}) := Multiset.cons_swap (next,m) (ip,n) 0 ▸ h2
              refine quiet_then (iunlockput_quiet h2' hin hkept) fun _ s3 h3 => ?_
              rw [hback] at h3
              obtain ⟨hm0,hmk⟩ := sane_lookup hb hdir hm
              have hway : WayFits b parent n (name::elements rest) ↔ WayFits b parent m (elements rest) := by
                refine ⟨fun hw => (hw hdir hgo m hm).2,fun hw _ _ m' hm' => ?_⟩
                rw [hm] at hm'
                cases hm'
                exact ⟨(hslot m).mp hs,hw⟩
              rw [Tree.target, if_pos hdir, if_neg hgo, hm, hway]
              exact ih (by omega) h3 hm0 hmk

theorem namex_quiet (hb : Sane b) (parent : Bool) (path : Path) : Quiet (namex path parent)
    (fun r s' => Leads b ((tree b).target parent (origin b path) (elements path)) r s' ∧ Room b parent path)
    (fun e => e = .panic .iget ∧ ¬Room b parent path) b := by
  have hb0 := sane_during hb
  unfold namex Room origin
  split
  · rename_i habs
    have hroot : HasSlot b ROOTINO ↔ Fits b {ROOTINO} := slot_iff hb0
    refine quiet_seq (iget_quiet hb0 ROOTINO) ?_ ?_
    · rintro e ⟨he,hno⟩
      exact ⟨he,fun hroom => hno (hroot.mpr (hroom.1 habs))⟩
    · rintro i s1 ⟨h1,hs⟩
      refine quiet_mono (namexFrom_quiet hb (Nat.lt_succ_self _) h1 (by rw [hb.root.1]; decide)
        (.inl hb.root.2)) ?_ ?_
      · rintro r s' ⟨hr,hw⟩
        exact ⟨hr,fun _ => hroot.mp hs,hw⟩
      · rintro e ⟨he,hno⟩
        exact ⟨he,fun hroom => hno hroom.2⟩
  · rename_i hrel
    obtain ⟨c,hc,href⟩ := hb.cwd
    rw [quiet_bind, quiet_cwd hc, hc]
    refine quiet_then (idup_quiet hb0 href rfl) fun _ s1 h1 => ?_
    refine quiet_mono (namexFrom_quiet hb (Nat.lt_succ_self _) h1 (hb.used c href) (.inr ⟨c,href,rfl⟩)) ?_ ?_
    · rintro r s' ⟨hr,hw⟩
      exact ⟨hr,fun h0 => absurd h0 hrel,hw⟩
    · rintro e ⟨he,hno⟩
      exact ⟨he,fun hroom => hno hroom.2⟩

theorem origin_kept (hb : Sane b) (path : Path) :
    (b.disk (origin b path)).type ≠ 0 ∧ Kept b (origin b path) := by
  unfold origin
  split
  · exact ⟨by rw [hb.root.1]; decide,.inl hb.root.2⟩
  · obtain ⟨c,hc,href⟩ := hb.cwd
    rw [hc]
    exact ⟨hb.used c href,.inr ⟨c,href,rfl⟩⟩

theorem walk_kept (hb : Sane b) (hn : (b.disk n).type ≠ 0 ∧ Kept b n) (hw : walk (tree b) n es = some m) :
    (b.disk m).type ≠ 0 ∧ Kept b m := by
  induction es generalizing n with
  | nil =>
    cases hw
    exact hn
  | cons e es ih =>
    rw [walk] at hw
    split at hw
    · rename_i hdir
      obtain ⟨k,hk,hrest⟩ := Option.bind_eq_some_iff.mp hw
      exact ih (sane_lookup hb hdir hk) hrest
    · cases hw

theorem parent_walk {d : ℕ} (h : parentOf t n es = some (d,e)) :
    es ≠ [] ∧ walk t n es.dropLast = some d ∧ t.kind d = T_DIR := by
  unfold parentOf at h
  split at h
  · cases h
  · rename_i hlast
    obtain ⟨k,hk,hd⟩ := Option.bind_eq_some_iff.mp h
    split at hd
    · rename_i hdir
      cases hd
      refine ⟨?_,hk,hdir⟩
      rintro rfl
      cases hlast
    · cases hd

theorem parent_kept {d : ℕ} (hb : Sane b)
    (h : parentOf (tree b) (origin b path) (elements path) = some (d,e)) :
    (b.disk d).type = T_DIR ∧ Kept b d := by
  obtain ⟨-,hw,hdir⟩ := parent_walk h
  exact ⟨hdir,(walk_kept hb (origin_kept hb path) hw).2⟩

/-- The call returns what the components lead to, and has taken one reference to it, or
none where they lead nowhere. -/
def Resolves (b : Fs) (path : Path) : Prop :=
  ∃ r s', run alone (namei path) b = .ok (r,s') ∧ s'.disk = b.disk ∧ s'.data = b.data ∧
    r.map (fun i => (s'.inode i).inum) = walk (tree b) (origin b path) (elements path) ∧
    ∀ j, (s'.inode j).ref = (b.inode j).ref+if r = some j then 1 else 0

/-- The call returns the directory before the last component and that component, and has
taken one reference. What `dirlookup` finds there is what the whole path leads to. -/
def ResolvesParent (b : Fs) (path : Path) : Prop :=
  ∃ r s', run alone (nameiparent path) b = .ok (r,s') ∧ s'.disk = b.disk ∧ s'.data = b.data ∧
    r.map (fun x => ((s'.inode x.1).inum,x.2)) = parentOf (tree b) (origin b path) (elements path) ∧
    (∀ j, (s'.inode j).ref = (b.inode j).ref+if r.map Prod.fst = some j then 1 else 0) ∧
    ∀ i name, r = some (i,name) → ∀ f s'', run alone (do ilock i; dirlookup i name) s' = .ok (f,s'') →
      f.map (fun x => (s''.inode x.1).inum) = walk (tree b) (origin b path) (elements path)

theorem taken_single (i j : Slot) (m : ℕ) : taken {(i,m)} j = if i = j then 1 else 0 := by
  have h := taken_cons 0 i j m
  rw [taken_zero, Nat.zero_add] at h
  exact h

theorem leads_refs {goal : Option (ℕ × Name)} {r : Option (Slot × Name)} (h : Leads b goal r s) :
    s.disk = b.disk ∧ s.data = b.data ∧ r.map (fun x => ((s.inode x.1).inum,x.2)) = goal ∧
      ∀ j, (s.inode j).ref = (b.inode j).ref+if r.map Prod.fst = some j then 1 else 0 := by
  cases r with
  | none =>
    obtain ⟨hd,rfl⟩ := h
    exact ⟨during_disk hd,during_data hd,rfl,hd.ref⟩
  | some x =>
    obtain ⟨m,hd,rfl⟩ := h
    refine ⟨during_disk hd,during_data hd,?_,fun j => ?_⟩
    · have hname : (s.inode x.1).inum = m := hd.names _ (Multiset.mem_singleton_self _)
      show some ((s.inode x.1).inum,x.2) = _
      rw [hname]
    · rw [hd.ref, taken_single]
      simp

theorem dirlookup_behind {f : Option (Slot × ℕ)} {s' : Fs} (hb : Sane b) (h : During b s ∅ {(ip,n)})
    (hdir : (b.disk n).type = T_DIR) {name : Name}
    (hrun : run alone (do ilock ip; dirlookup ip name) s = .ok (f,s')) :
    f.map (fun x => (s'.inode x.1).inum) = (tree b).lookup n name := by
  have hmem : (ip,n) ∈ ({(ip,n)} : Multiset (Slot × ℕ)) := Multiset.mem_singleton_self _
  have hspec : Quiet (do ilock ip; dirlookup ip name)
      (fun f s' => f.map (fun x => (s'.inode x.1).inum) = (tree b).lookup n name) (fun _ => True) s := by
    refine quiet_then (ilock_quiet h (Finset.notMem_empty _) hmem (by rw [hdir]; decide)) fun _ s1 h1 => ?_
    refine quiet_mono (dirlookup_quiet h1 (Finset.mem_insert_self _ _) hmem hdir (hb.dirs n hdir) name)
      (fun r s2 hr => ?_)
      (fun _ _ => trivial)
    cases r with
    | none => exact hr.2.symm
    | some x =>
      obtain ⟨m,hm,-,h2⟩ := hr
      rw [hm]
      exact congrArg some (h2.names _ (Multiset.mem_cons_self _ _))
  have hwp := (silent_iff.mp hspec).2
  rw [wp, hrun] at hwp
  exact hwp

theorem namei_resolves (hb : Sane b) (path : Path) : Resolves b path ↔ Room b false path := by
  have hspec := (silent_iff.mp (namex_quiet hb false path)).2
  have hcode : run alone (namei path) b =
      (run alone (namex path false) b).bind (fun r => .ok (r.1.map Prod.fst,r.2)) := run_bind
  rw [wp] at hspec
  unfold Resolves
  rw [hcode]
  cases hrun : run alone (namex path false) b with
  | ok x =>
    obtain ⟨r,s'⟩ := x
    rw [hrun] at hspec
    obtain ⟨hr,hroom⟩ := hspec
    obtain ⟨hdisk,hdata,hgoal,href⟩ := leads_refs hr
    refine iff_of_true ⟨r.map Prod.fst,s',rfl,hdisk,hdata,?_,href⟩ hroom
    rw [target_walk] at hgoal
    have hfst := congrArg (Option.map Prod.fst) hgoal
    simpa [Option.map_map, Function.comp_def] using hfst
  | error e =>
    rw [hrun] at hspec
    exact iff_of_false (by rintro ⟨r,s',hre,-⟩; cases hre) hspec.2

theorem namei_stops (hb : Sane b) (hno : ¬Room b false path) :
    run alone (namei path) b = .error (.panic .iget) := by
  have hspec := (silent_iff.mp (namex_quiet hb false path)).2
  have hcode : run alone (namei path) b =
      (run alone (namex path false) b).bind (fun r => .ok (r.1.map Prod.fst,r.2)) := run_bind
  rw [wp] at hspec
  rw [hcode]
  cases hrun : run alone (namex path false) b with
  | ok x =>
    rw [hrun] at hspec
    exact absurd hspec.2 hno
  | error e =>
    rw [hrun] at hspec
    rw [hspec.1]
    rfl

theorem nameiparent_resolves (hb : Sane b) (path : Path) : ResolvesParent b path ↔ Room b true path := by
  have hspec := (silent_iff.mp (namex_quiet hb true path)).2
  rw [wp] at hspec
  unfold ResolvesParent nameiparent
  cases hrun : run alone (namex path true) b with
  | ok x =>
    obtain ⟨r,s'⟩ := x
    rw [hrun] at hspec
    obtain ⟨hr,hroom⟩ := hspec
    obtain ⟨hdisk,hdata,hgoal,href⟩ := leads_refs hr
    rw [target_parent] at hgoal
    refine iff_of_true ⟨r,s',rfl,hdisk,hdata,hgoal,href,?_⟩ hroom
    rintro i name rfl f s'' hfind
    obtain ⟨m,hd,htarget⟩ := hr
    rw [target_parent] at htarget
    obtain ⟨hes,-,hdir⟩ := parent_walk htarget
    rw [walk_entry hes, htarget, dirlookup_behind hb hd hdir hfind]
    rfl
  | error e =>
    rw [hrun] at hspec
    exact iff_of_false (by rintro ⟨r,s',hre,-⟩; cases hre) hspec.2

/-- `skipelem` takes a path apart into its components, and `namei` and `nameiparent` follow
them, if and only if there are slots of the inode cache for it. -/
theorem paths_resolve {b : Fs} (hb : Sane b) (path : Path) :
    components (path.length+1) path =
      ((path.splitOnP (· == slash)).filter (· ≠ [])).map (List.take DIRSIZ) ∧
    (Resolves b path ↔ Room b false path) ∧ (ResolvesParent b path ↔ Room b true path) :=
  ⟨components_elements (Nat.lt_succ_self _),namei_resolves hb path,nameiparent_resolves hb path⟩

/-- Nothing is locked or read yet, and the root is the one directory. -/
theorem sane_root (hslots : ∀ i, (s.inode i).lock = none ∧ (s.inode i).valid = false ∧
      (0 < (s.inode i).ref → (s.disk (s.inode i).inum).type ≠ 0))
    (hunique : ∀ i j, 0 < (s.inode i).ref → 0 < (s.inode j).ref → (s.inode i).inum = (s.inode j).inum → i = j)
    (hroot : (s.disk ROOTINO).type = T_DIR ∧ (s.disk ROOTINO).nlink ≠ 0)
    (hcwd : ∃ c, s.cwd = some c ∧ 0 < (s.inode c).ref)
    (honly : ∀ n, n ≠ ROOTINO → (s.disk n).type ≠ T_DIR) (hentered : Entered s ROOTINO)
    (hnames : ∀ de ∈ (tree s).entries ROOTINO, de.inum ≠ 0 →
    (s.disk de.inum).type ≠ 0 ∧ (s.disk de.inum).nlink ≠ 0) :
    Sane s := by
  have hdir : ∀ n, (s.disk n).type = T_DIR → n = ROOTINO := fun n hn => by_contra fun hne => honly n hne hn
  refine ⟨fun i => (hslots i).1,hunique,fun i _ hv => ?_,fun i => (hslots i).2.2,hroot,hcwd,fun n hn => ?_,
    fun n hn de hde hne => ?_⟩
  · rw [(hslots i).2.1] at hv
    cases hv
  · rwa [hdir n hn]
  · rw [hdir n hn] at hde
    obtain ⟨htype,hlink⟩ := hnames de hde hne
    exact ⟨htype,.inl hlink⟩

def rootOnly (i : Slot) : Inode := if i = 0 then ⟨ROOTINO,1,none,false,.zero⟩ else ⟨0,0,none,false,.zero⟩

theorem rootOnly_unique {i j : Slot} (hi : 0 < (rootOnly i).ref) (hj : 0 < (rootOnly j).ref) : i = j := by
  have hzero : ∀ i, 0 < (rootOnly i).ref → i = 0 := by decide +kernel
  rw [hzero i hi, hzero j hj]

def loop : Fs := blank (fun n => if n = ROOTINO then ⟨T_DIR,0,0,1,16⟩ else .zero)
  (fun _ k => if k = 0 then 1 else if k = 2 then 97 else 0) rootOnly

theorem loop_sane : Sane loop := by
  refine sane_root (by decide +kernel) (fun _ _ hi hj _ => rootOnly_unique hi hj) (by decide)
    ⟨0,rfl,by decide⟩
    (fun n hn => ?_) ⟨by decide,by decide,by decide⟩ (by decide)
  simp [loop, blank, hn, Dinode.zero]

/-- The path `/a/a`, which leads to the root. -/
theorem paths_resolve_loop : Resolves loop [slash,97,slash,97] ∧ ResolvesParent loop [slash,97,slash,97] ∧
    walk (tree loop) (origin loop [slash,97,slash,97]) (elements [slash,97,slash,97]) = some ROOTINO := by
  have hlook : ∀ m, (tree loop).lookup ROOTINO [97] = some m → m = ROOTINO := fun m hm => by
    have hone : (tree loop).lookup ROOTINO [97] = some ROOTINO := by decide
    rw [hone] at hm
    cases hm
    rfl
  have hway : ∀ parent, WayFits loop parent ROOTINO [[97],[97]] := fun parent _ _ m hm => by
    rw [hlook m hm]
    refine ⟨by decide,fun _ _ m hm => ?_⟩
    rw [hlook m hm]
    exact ⟨by decide,trivial⟩
  have hroom : ∀ parent, Room loop parent [slash,97,slash,97] :=
    fun parent => ⟨fun _ => by decide,hway parent⟩
  exact ⟨(paths_resolve loop_sane _).2.1.mpr (hroom false),
    (paths_resolve loop_sane _).2.2.mpr (hroom true),by decide⟩

def filesDisk (files size n : ℕ) : Dinode :=
  if n = ROOTINO then ⟨T_DIR,0,0,1,size⟩ else if 1 < n ∧ n < files+2 then ⟨T_FILE,0,0,1,0⟩ else .zero

theorem filesDisk_only {files size : ℕ} (hn : n ≠ ROOTINO) : (filesDisk files size n).type ≠ T_DIR := by
  unfold filesDisk
  rw [if_neg hn]
  split <;> decide

/-- A root directory of one or two blocks. The inodes behind it are empty files, with one
letter each for a name. -/
def filed (files size blocks : ℕ) (inode : Slot → Inode) : Fs :=
  let s := blank (filesDisk files size) (fun n k => if n = ROOTINO ∧ k < (files+2)*DIRENT then
      if k%DIRENT = 0 then UInt8.ofNat (max 1 (k/DIRENT))
      else if k%DIRENT = 2 then if k < 2*DIRENT then 46 else UInt8.ofNat (64+k/DIRENT)
      else if k = DIRENT+3 then 46 else 0
    else 0) inode
  { s with blocks := { s.blocks with addrs := fun n k => if n = ROOTINO ∧ k < blocks then 30+k else 0 } }

/-- Besides the root 49 files are open, and one more is there. -/
def crowded : Fs := { filed 50 832 2 (fun i => ⟨i.val+1,1,none,false,.zero⟩) with
  ninodes := 200
  file := fun f => if 0 < f.val ∧ f.val < NINODE then ⟨.inode,1,true,false,Fin.ofNat NINODE f.val,0,0⟩
    else ⟨.none,0,false,false,0,0,0⟩ }

theorem crowded_sane : Sane crowded :=
  sane_root (by decide +kernel) (fun i j _ _ heq => Fin.ext (Nat.add_right_cancel heq)) (by decide)
    ⟨0,rfl,Nat.one_pos⟩ (fun _ => filesDisk_only) ⟨by decide,by decide,by decide⟩ (by decide +kernel)

/-- The path `/s` leads to the file that is not open, but `namei` panics. -/
theorem namei_crowded : Sane crowded ∧
    walk (tree crowded) (origin crowded [slash,115]) (elements [slash,115]) = some 51 ∧
    run alone (namei [slash,115]) crowded = .error (.panic .iget) := by
  have hwalk : walk (tree crowded) (origin crowded [slash,115]) (elements [slash,115]) = some 51 := by
    decide +kernel
  have hlook : (tree crowded).lookup ROOTINO [115] = some 51 := by decide +kernel
  have hfull : ¬Fits crowded {51,ROOTINO} := by decide +kernel
  exact ⟨crowded_sane,hwalk,namei_stops crowded_sane fun hroom => hfull (hroom.2 rfl (by decide) 51 hlook).1⟩

end Xv6.PathLookup

import Xv6.FsPaths

/-!
# Files and descriptors

The specifications of file.c and of the calls that use descriptors. Outside its
system calls a process holds no lock, and its references are one to its current
directory and one to a file for each descriptor.
-/

set_option autoImplicit false

namespace Xv6.FsFiles
open CommandTree InodeCode FileCalls PathTree FsLedger FsInodes
open FsDirectories FsPaths
open CodeMachine (tally tally_update tally_ge)
open Function

def refers (f : FileId) (o : Option FileId) : ℤ := if o = some f then 1 else 0

structure Home (g : Ledger) : Prop where
  locked : g.locked = ∅
  refs : match g.cwd with
    | some c => ∃ n, g.refs = {(c,n)}
    | none => g.refs = 0
  files : ∀ f, (g.files.count f : ℤ) = tally (refers f) g.ofile

def Sound (s : Fs) : Prop := ∃ g, Home g ∧ Held s g

variable {s s' : Fs} {g : Ledger} {i : Slot} {n : ℕ} {f : FileId} {fd : Fd}

theorem home_rooted (hg : Home g) : Rooted g := by
  intro c hc
  have hr := hg.refs
  rw [hc] at hr
  obtain ⟨n,hn⟩ := hr
  exact ⟨n,by rw [hn]; exact Multiset.mem_singleton_self _⟩

theorem refers_nonneg (f : FileId) (o : Option FileId) : 0 ≤ refers f o := by
  unfold refers
  split <;> omega

theorem take_file {o : Fd → Option FileId} (hfiles : ∀ f, (g.files.count f : ℤ) = tally (refers f) o)
    (hfd : o fd = some f) : ∃ F, g.files = f ::ₘ F ∧
      ∀ k, (F.count k : ℤ) = tally (refers k) (update o fd none) := by
  have hone : (1 : ℤ) ≤ g.files.count f := by
    rw [hfiles f]
    have := tally_ge (x := o) (refers_nonneg f) fd
    rwa [hfd, refers, if_pos rfl] at this
  obtain ⟨F,hF⟩ := Multiset.exists_cons_of_mem
    (Multiset.one_le_count_iff_mem.mp (by exact_mod_cast hone) : f ∈ g.files)
  refine ⟨F,hF,fun k => ?_⟩
  have hk := hfiles k
  rw [hF, Multiset.count_cons] at hk
  rw [tally_update, ← hk, hfd]
  unfold refers
  by_cases hkf : k = f
  · simp [hkf]
  · simp [hkf, Ne.symm hkf]

variable {F : Multiset FileId}

theorem held_file (h : Held s g) {x : File} {M : Multiset (Slot × ℕ)}
    (hrefs : ∀ i, uses i x+pins M i ≤ uses i (s.file f)+pins g.refs i)
    (hnames : ∀ r ∈ M, (s.inode r.1).inum = r.2) (hself : F.count f ≤ x.ref)
    (hother : ∀ k, k ≠ f → F.count k ≤ (s.file k).ref) (hclosed : x.ref = 0 → x.type = .none) :
    Held (s.setFile f x) { g with refs := M, files := F } := by
  refine ⟨h.locks,h.live,h.loaded,fun i => ?_,hnames,h.unique,h.synced,fun k => ?_,fun k hk => ?_,
    h.pid,h.cwd,h.ofile⟩
  · have h1 := h.refs i
    have h2 := hrefs i
    have h3 := tally_update (uses i) s.file f x
    show tally (uses i) (update s.file f x)+pins M i ≤ _
    rw [h3]
    show _ ≤ ((s.inode i).ref : ℤ)
    omega
  · show F.count k ≤ (update s.file f x k).ref
    by_cases hkf : k = f
    · subst hkf
      rw [update_self]
      exact hself
    · rw [update_of_ne hkf]
      exact hother k hkf
  · have hk' : (update s.file f x k).ref = 0 := hk
    show (update s.file f x k).type = .none
    by_cases hkf : k = f
    · subst hkf
      rw [update_self] at hk' ⊢
      exact hclosed hk'
    · rw [update_of_ne hkf] at hk' ⊢
      exact h.closed k hk'

section Commands
variable {E : Stop → Prop}

@[simp] theorem wp_file {Q : File → Fs → Prop} : wp alone (file f) Q E s ↔ Q (s.file f) s := Iff.rfl

variable {Q : Unit → Fs → Prop}

@[simp] theorem wp_set_file {x : File} :
    wp alone (setFile f x) Q E s ↔ Q () (s.setFile f x) := Iff.rfl

@[simp] theorem wp_ofile {Q : Option FileId → Fs → Prop} :
    wp alone (ofile fd) Q E s ↔ Q (s.ofile fd) s := Iff.rfl

@[simp] theorem wp_set_ofile {o : Option FileId} :
    wp alone (setOfile fd o) Q E s ↔
      Q () { s with ofile := update s.ofile fd o } := Iff.rfl

@[simp] theorem wp_advance {k : ℕ} : wp alone (advance f k) Q E s ↔
    Q () (s.setFile f { s.file f with off := (s.file f).off+k }) := Iff.rfl

@[simp] theorem wp_shut {pi : ℕ} {writable : Bool} {Q : Bool → Fs → Prop} :
    wp alone (shut pi writable) Q E s ↔ Q (!((s.pipe pi).shut writable).readopen &&
      !((s.pipe pi).shut writable).writeopen) (s.setPipe pi ((s.pipe pi).shut writable)) := Iff.rfl

@[simp] theorem wp_kfree {pi : ℕ} : wp alone (kfree pi) Q E s ↔
    Q () (s.setPipe pi { s.pipe pi with used := false }) := Iff.rfl

@[simp] theorem wp_set_cwd {c : Option Slot} :
    wp alone (setCwd c) Q E s ↔ Q () { s with cwd := c } := Iff.rfl

@[simp] theorem wp_is_init {Q : Bool → Fs → Prop} : wp alone isInit Q E s ↔ Q s.init s := Iff.rfl

end Commands

theorem held_ofile (h : Held s g) (fd : Fd) (o : Option FileId) :
    Held { s with ofile := update s.ofile fd o }
      { g with ofile := update g.ofile fd o } :=
  ⟨h.locks,h.live,h.loaded,h.refs,h.names,h.unique,h.synced,h.files,h.closed,h.pid,h.cwd,
    by rw [← h.ofile]⟩

theorem held_cwd (h : Held s g) (c : Option Slot) : Held { s with cwd := c } { g with cwd := c } :=
  ⟨h.locks,h.live,h.loaded,h.refs,h.names,h.unique,h.synced,h.files,h.closed,h.pid,rfl,h.ofile⟩

theorem held_advance (h : Held s g) (off : ℕ) :
    Held (s.setFile f { s.file f with off := off }) g :=
  held_file h (fun _ => le_refl _) h.names (h.files f) (fun k _ => h.files k) (h.closed f)

theorem advance_spec (h : Held s g) (k : ℕ) : Does (advance f k) (fun _ s' => Held s' g) s := by
  rw [Does, wp_advance]
  exact held_advance h _

theorem fileunref_spec (h : Held s g) (hF : g.files = f ::ₘ F) :
    Does (fileunref f) (fun r s' => match r with
      | none => Held s' { g with files := F }
      | some x => x = s.file f ∧ (x.type ≠ .inode → Held s' { g with files := F }) ∧
          (x.type = .inode → ∃ n, Held s' { g with refs := (x.ip,n) ::ₘ g.refs, files := F })) s := by
  have hcount := h.files f
  rw [hF, Multiset.count_cons_self] at hcount
  have hother : ∀ k, k ≠ f → F.count k ≤ (s.file k).ref := by
    intro k hk
    have := h.files k
    rwa [hF, Multiset.count_cons_of_ne hk] at this
  refine (wp_perform (c := Cmd.fileunref f)).mpr ?_
  simp only [alone, Fs.fileunref]
  split
  · trivial
  rename_i href
  split
  · rename_i hmore
    refine held_file h (fun i => ?_) h.names (by simp only; omega) hother
      (fun h0 => by simp only at h0; omega)
    have : uses i { s.file f with ref := (s.file f).ref-1 } = uses i (s.file f) := by
      unfold uses
      simp only [hmore, show 0 < (s.file f).ref by omega]
    rw [this]
  · rename_i hlast
    have hzero : ∀ i, uses i { s.file f with ref := 0, type := .none } = 0 := fun i => by simp [uses]
    refine ⟨rfl,fun htype => ?_,fun htype => ⟨(s.inode (s.file f).ip).inum,?_⟩⟩
    · refine held_file h (fun i => ?_) h.names (by simp only; omega) hother (fun _ => rfl)
      rw [hzero]
      have := uses_nonneg i (s.file f)
      omega
    · refine held_file h (fun i => ?_) (fun r hr => ?_) (by simp only; omega) hother (fun _ => rfl)
      · rw [hzero, pins_cons]
        unfold uses
        by_cases hi : (s.file f).ip = i
        · simp only [hi, htype, show 0 < (s.file f).ref by omega, and_self, if_true]
          omega
        · simp [hi]
      · rcases Multiset.mem_cons.mp hr with rfl | hr
        · rfl
        · exact h.names r hr

theorem pipeclose_spec (h : Held s g) (pi : ℕ) (writable : Bool) :
    Does (pipeclose pi writable) (fun _ s' => Held s' g) s := by
  have hset : ∀ {s : Fs}, Held s g → ∀ x, Held (s.setPipe pi x) g := fun h x =>
    held_congr h rfl rfl rfl rfl rfl (fun _ _ _ => rfl)
  unfold pipeclose
  rw [Does, wp_bind, wp_shut]
  split
  · rw [wp_kfree]
    exact hset (hset h _) _
  · exact hset h _

theorem fileclose_spec (h : Held s g) (hF : g.files = f ::ₘ F)
    (hL : g.locked = ∅ ∨ (s.file f).type = .none) :
    Does (fileclose f) (fun _ s' => Held s' { g with files := F }) s := by
  unfold fileclose
  refine wp_then (fileunref_spec h hF) ?_
  rintro r s1 hr
  cases r with
  | none => exact hr
  | some x =>
    obtain ⟨rfl,hplain,hinode⟩ := hr
    simp only
    split
    · rename_i htype
      exact pipeclose_spec (hplain (by rw [htype]; decide)) _ _
    split_ifs with htype
    · obtain ⟨n,h1⟩ := hinode htype
      have hempty : g.locked = ∅ := hL.resolve_right (fun hc => by rw [hc] at htype; cases htype)
      rw [wp_bind, wp_begin]
      refine wp_then (iput_spec h1 rfl (by simp [hempty])) ?_
      rintro - s2 ⟨h2,-⟩
      exact h2
    · exact hplain htype

theorem unlock_spec (h : Held s { g with locked := insert i g.locked }) (hL : g.locked = ∅) :
    Does (iunlock i) (fun _ s' => Held s' g ∧ tree s' = tree s) s := by
  refine wp_post (iunlock_spec h) ?_
  rintro - s' ⟨-,h',ht⟩
  simp only [Finset.erase_insert (show i ∉ g.locked by simp [hL])] at h'
  exact ⟨h',ht⟩

theorem fileread_spec (h : Held s g) (hL : g.locked = ∅) (k : ℕ) :
    Does (fileread f k) (fun _ s' => Held s' g) s := by
  unfold fileread
  rw [Does, wp_bind, wp_file]
  split
  · exact h
  · split
    · rw [wp_input]
      exact held_congr h rfl rfl rfl rfl rfl (fun _ _ _ => rfl)
    · refine wp_then (ilock_spec h (by simp [hL])) ?_
      rintro - s1 ⟨h1,-⟩
      refine wp_then (readi_spec h1 (Finset.mem_insert_self _ _) _ _) ?_
      rintro r s2 ⟨h2,-⟩
      cases r with
      | some bytes =>
        refine wp_then (advance_spec h2 _) ?_
        rintro - s3 h3
        exact wp_then (unlock_spec h3 hL) (fun _ _ h4 => h4.1)
      | none => exact wp_then (unlock_spec h2 hL) (fun _ _ h4 => h4.1)
    · trivial

theorem filewriteFrom_spec {k : ℕ} (h : Held s g) (hL : g.locked = ∅) (bytes : List Byte) :
    Does (filewriteFrom f i k bytes) (fun _ s' => Held s' g) s := by
  induction k generalizing s bytes with
  | zero => exact h
  | succ k ih =>
    unfold filewriteFrom
    split
    · exact h
    rw [Does, wp_bind, wp_begin]
    refine wp_then (ilock_spec h (by simp [hL])) ?_
    rintro - s1 ⟨h1,-⟩
    rw [wp_bind, wp_file]
    refine wp_then (writei_spec h1 (Finset.mem_insert_self _ _) _ _) ?_
    rintro r s2 h2
    cases r with
    | some r =>
      refine wp_then (advance_spec h2 _) ?_
      rintro - s3 h3
      refine wp_then (unlock_spec h3 hL) ?_
      rintro - s4 ⟨h4,-⟩
      rw [wp_bind, wp_end]
      split
      · trivial
      · exact ih h4 _
    | none =>
      refine wp_then (unlock_spec h2 hL) ?_
      rintro - s4 ⟨h4,-⟩
      rw [wp_bind, wp_end]
      exact h4

theorem filewrite_spec (h : Held s g) (hL : g.locked = ∅) (bytes : List Byte) :
    Does (filewrite f bytes) (fun _ s' => Held s' g) s := by
  unfold filewrite
  rw [Does, wp_bind, wp_file]
  split
  · exact h
  · split
    · rw [wp_bind, wp_input]
      exact held_congr h rfl rfl rfl rfl rfl (fun _ _ _ => rfl)
    · exact filewriteFrom_spec h hL bytes
    · trivial

theorem argfd_spec (h : Held s g) (fd : ℤ) : Does (argfd fd) (fun r s' => s' = s ∧
    ∀ k f, r = some (k,f) → g.ofile k = some f) s := by
  unfold argfd
  split
  · rw [Does, wp_bind, wp_ofile]
    split
    · rename_i hf
      refine ⟨rfl,fun k f hr => ?_⟩
      cases hr
      rw [← h.ofile]
      exact hf
    · exact ⟨rfl,fun k f hr => by cases hr⟩
  · exact ⟨rfl,fun k f hr => by cases hr⟩

theorem read_spec (h : Held s g) (hg : Home g) (fd : ℤ) (k : Option ℕ) :
    Does (sysRead fd k) (fun _ s' => Sound s') s := by
  unfold sysRead
  refine wp_then (argfd_spec h fd) ?_
  rintro r s1 ⟨rfl,-⟩
  split
  · refine wp_then (fileread_spec h hg.locked _) ?_
    rintro r s2 h2
    split <;> exact ⟨g,hg,h2⟩
  · exact ⟨g,hg,h⟩

theorem write_spec (h : Held s g) (hg : Home g) (fd : ℤ) (bytes : Option (List Byte)) :
    Does (sysWrite fd bytes) (fun _ s' => Sound s') s := by
  unfold sysWrite
  refine wp_then (argfd_spec h fd) ?_
  rintro r s1 ⟨rfl,-⟩
  split
  · refine wp_then (filewrite_spec h hg.locked _) ?_
    rintro r s2 h2
    split <;> exact ⟨g,hg,h2⟩
  · exact ⟨g,hg,h⟩

theorem close_spec (h : Held s g) (hg : Home g) (fd : ℤ) :
    Does (sysClose fd) (fun _ s' => Sound s') s := by
  unfold sysClose
  refine wp_then (argfd_spec h fd) ?_
  rintro r s1 ⟨rfl,hfd⟩
  cases r with
  | none => exact ⟨g,hg,h⟩
  | some r =>
    obtain ⟨k,f⟩ := r
    obtain ⟨F,hF,hcount⟩ := take_file hg.files (hfd k f rfl)
    rw [wp_bind, wp_set_ofile]
    refine wp_then (fileclose_spec (held_ofile h k none) hF (.inl hg.locked)) ?_
    rintro - s2 h2
    refine ⟨_,?_,h2⟩
    exact ⟨hg.locked,hg.refs,hcount⟩

theorem closeAll_spec (l : List Fd) (h : Held s g) (hg : Home g) :
    Does (closeAll l) (fun _ s' => ∃ g', Held s' g' ∧ Home g') s := by
  induction l generalizing s g with
  | nil => exact ⟨g,h,hg⟩
  | cons fd l ih =>
    unfold closeAll
    rw [Does, wp_bind, wp_ofile]
    split
    · rename_i f hf
      have hfd : g.ofile fd = some f := by rw [← h.ofile, hf]
      obtain ⟨F,hF,hcount⟩ := take_file hg.files hfd
      refine wp_then (fileclose_spec h hF (.inl hg.locked)) ?_
      rintro - s2 h2
      rw [wp_bind, wp_set_ofile]
      exact ih (held_ofile h2 fd none) ⟨hg.locked,hg.refs,hcount⟩
    · exact ih h hg

theorem exit_spec (h : Held s g) (hg : Home g) :
    Does FileCalls.exit (fun _ s' => Sound s') s := by
  unfold FileCalls.exit
  rw [Does, wp_bind, wp_is_init]
  split
  · trivial
  refine wp_then (closeAll_spec _ h hg) ?_
  rintro - s1 ⟨g1,h1,hg1⟩
  rw [wp_bind, wp_begin, wp_bind]
  refine wp_cwd trivial (fun c hc => ?_)
  have hr := hg1.refs
  rw [← h1.cwd, hc] at hr
  obtain ⟨n,hn⟩ := hr
  refine wp_then (iput_spec h1 (n := n) (M := 0) (by rw [hn]; rfl) (by simp [hg1.locked])) ?_
  rintro - s2 ⟨h2,-⟩
  rw [wp_bind, wp_end, wp_bind, wp_set_cwd]
  refine ⟨_,?_,held_cwd h2 none⟩
  exact ⟨hg1.locked,rfl,hg1.files⟩

end Xv6.FsFiles

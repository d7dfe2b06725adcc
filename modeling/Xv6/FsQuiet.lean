import Xv6.FsPaths
import Xv6.MarkedRuns

/-!
# Calls on a quiet file system

A call that is alone starts with no lock taken. What it has done to the inode cache is
said against the state before it: the locks it has, and the references it has besides
those that were there. In a sane file system the functions that only look at it free no
inode, and panic for one reason: a name is to be looked up whose inode needs a slot of
the cache, and there is none.
-/

set_option autoImplicit false

namespace Xv6.FsQuiet
open CommandTree MarkedRuns InodeCode FileCalls PathTree FsLedger
open FsInodes (set_self set_set set_fields)
open FsDirectories (entries_drop entries_end entry_inside entry_outside)
open Function

/-- What is noted of a call: its transactions. -/
inductive Event where
  | beginOp
  | endOp
  deriving DecidableEq

def events : Cmd → Fs → List Event
  | .beginOp, _ => [.beginOp]
  | .endOp, _ => [.endOp]
  | _, _ => []

def Quiet {α : Type} (p : Prog α) (Q : α → Fs → Prop) (E : Stop → Prop) (s : Fs) : Prop :=
  Silent alone events p Q E s

variable {b s s' : Fs} {i j : Slot} {n m : ℕ} {E E' : Stop → Prop}

section Rules
variable {α β : Type} {p : Prog α} {f : α → Prog β} {Q Q' : α → Fs → Prop} {P : β → Fs → Prop}

theorem quiet_pure (a : α) : Quiet (pure a) Q E s ↔ Q a s := silent_pure a

theorem quiet_bind : Quiet (p >>= f) P E s ↔ Quiet p (fun a t => Quiet (f a) P E t) E s := silent_bind

theorem quiet_mono (h : Quiet p Q E s) (hQ : ∀ a t, Q a t → Q' a t) (hE : ∀ e, E e → E' e) :
    Quiet p Q' E' s :=
  silent_mono h hQ hE

theorem quiet_seq (h : Quiet p Q E' s) (hE : ∀ e, E' e → E e) (hnext : ∀ a t, Q a t → Quiet (f a) P E t) :
    Quiet (p >>= f) P E s :=
  silent_seq h hE hnext

theorem quiet_post (h : Quiet p Q E s) (hQ : ∀ a t, Q a t → Q' a t) : Quiet p Q' E s :=
  quiet_mono h hQ fun _ => id

theorem quiet_then (h : Quiet p Q E s) (hnext : ∀ a t, Q a t → Quiet (f a) P E t) : Quiet (p >>= f) P E s :=
  quiet_seq h (fun _ => id) hnext

end Rules

section Commands
variable {Q : Unit → Fs → Prop}

@[simp] theorem quiet_panic {α : Type} {Q : α → Fs → Prop} (msg : Panic) :
    Quiet (panic msg) Q E s ↔ E (.panic msg) := and_iff_right rfl

@[simp] theorem quiet_idup :
    Quiet (idup i) Q E s ↔ Q () (s.set i { s.inode i with ref := (s.inode i).ref+1 }) :=
  silent_perform rfl

@[simp] theorem quiet_unref :
    Quiet (unref i) Q E s ↔ Q () (s.set i { s.inode i with ref := (s.inode i).ref-1 }) :=
  silent_perform rfl

theorem quiet_acquire (h : (s.inode i).lock = none) : Quiet (acquiresleep i) Q E s ↔
    Q () (s.set i { s.inode i with lock := some s.pid }) := by
  refine (silent_perform (c := Cmd.acquiresleep i) rfl).trans ?_
  simp only [alone, h]
  exact Iff.rfl

theorem quiet_asleep {q : ℕ} (h : (s.inode i).lock = some q) :
    Quiet (acquiresleep i) Q E s ↔ E (.sleeps i q) := by
  refine (silent_perform (c := Cmd.acquiresleep i) rfl).trans ?_
  simp only [alone, h]
  exact Iff.rfl

@[simp] theorem quiet_release :
    Quiet (releasesleep i) Q E s ↔ Q () (s.set i { s.inode i with lock := none }) :=
  silent_perform rfl

@[simp] theorem quiet_holding {Q : Bool → Fs → Prop} :
    Quiet (holdingsleep i) Q E s ↔ Q (decide ((s.inode i).lock = some s.pid)) s :=
  silent_perform rfl

@[simp] theorem quiet_inode {Q : Inode → Fs → Prop} : Quiet (inode i) Q E s ↔ Q (s.inode i) s :=
  silent_perform rfl

@[simp] theorem quiet_set_copy {d : Dinode} :
    Quiet (setCopy i d) Q E s ↔ Q () (s.set i { s.inode i with copy := d }) :=
  silent_perform rfl

@[simp] theorem quiet_set_valid {v : Bool} :
    Quiet (setValid i v) Q E s ↔ Q () (s.set i { s.inode i with valid := v }) :=
  silent_perform rfl

@[simp] theorem quiet_dinode {Q : Dinode → Fs → Prop} : Quiet (dinode n) Q E s ↔ Q (s.disk n) s :=
  silent_perform rfl

@[simp] theorem quiet_set_dinode {d : Dinode} : Quiet (setDinode n d) Q E s ↔ Q () (s.setDisk n d) :=
  silent_perform rfl

theorem quiet_read {off k : ℕ} {Q : List Byte → Fs → Prop} (h : s.blocks.cover n off k = some s.blocks) :
    Quiet (readData n off k) Q E s ↔ Q ((List.range k).map (fun j => s.data n (off+j))) s := by
  refine (silent_perform (c := Cmd.readData n off k) rfl).trans ?_
  simp only [alone, h]
  exact Iff.rfl

theorem quiet_iget {Q : Slot → Fs → Prop} : Quiet (iget n) Q E s ↔ Meets Q E (s.iget n) :=
  silent_perform (c := Cmd.iget n) rfl

theorem quiet_cwd {c : Slot} {Q : Slot → Fs → Prop} (h : s.cwd = some c) : Quiet cwd Q E s ↔ Q c s := by
  refine (silent_perform (c := Cmd.cwd) rfl).trans ?_
  simp only [alone, h]
  exact Iff.rfl

end Commands

/-- An inode has a block wherever it has bytes. -/
def NoHoles (B : Blocks) (n size : ℕ) : Prop := ∀ bn < (size+BSIZE-1)/BSIZE, ∀ k ∈ slots bn, B.addrs n k ≠ 0

instance (B : Blocks) (n size : ℕ) : Decidable (NoHoles B n size) := inferInstanceAs (Decidable (∀ bn < _, _))

theorem foldlM_fixed {α β : Type} {f : β → α → Option β} {x : β} {l : List α} (h : ∀ a ∈ l, f x a = some x) :
    l.foldlM f x = some x := by
  induction l with
  | nil => rfl
  | cons a l ih =>
    rw [List.foldlM_cons, h a List.mem_cons_self]
    exact ih fun a ha => h a (List.mem_cons_of_mem _ ha)

theorem cover_fixed {B : Blocks} {size off k : ℕ} (h : NoHoles B n size) (hk : off+k ≤ size) :
    B.cover n off k = some B := by
  refine foldlM_fixed fun bn hbn => foldlM_fixed fun j hj => if_neg (h bn ?_ j hj)
  unfold blocksOf at hbn
  split at hbn
  · rw [List.mem_range'_1] at hbn
    simp only [BSIZE] at hbn ⊢
    omega
  · cases hbn

def Cached (s : Fs) (n : ℕ) : Prop := ∃ i, 0 < (s.inode i).ref ∧ (s.inode i).inum = n

instance (s : Fs) (n : ℕ) : Decidable (Cached s n) :=
  inferInstanceAs (Decidable (∃ _, _))

def Kept (s : Fs) (n : ℕ) : Prop := (s.disk n).nlink ≠ 0 ∨ Cached s n

/-- A directory is made of whole entries, and all its blocks are there. -/
structure Entered (s : Fs) (n : ℕ) : Prop where
  whole : (s.disk n).size%DIRENT = 0
  size : (s.disk n).size ≤ MAXFILE*BSIZE
  noHoles : NoHoles s.blocks n (s.disk n).size

/-- A file system between calls. The names in its directories are those of inodes in use
that have links, or at least a reference, like a current directory that was removed. -/
structure Sane (s : Fs) : Prop where
  unlocked : ∀ i, (s.inode i).lock = none
  unique : ∀ i j, 0 < (s.inode i).ref → 0 < (s.inode j).ref →
    (s.inode i).inum = (s.inode j).inum → i = j
  synced : ∀ i, 0 < (s.inode i).ref → (s.inode i).valid = true →
    (s.inode i).copy = s.disk (s.inode i).inum
  used : ∀ i, 0 < (s.inode i).ref → (s.disk (s.inode i).inum).type ≠ 0
  root : (s.disk ROOTINO).type = T_DIR ∧ (s.disk ROOTINO).nlink ≠ 0
  cwd : ∃ c, s.cwd = some c ∧ 0 < (s.inode c).ref
  dirs : ∀ n, (s.disk n).type = T_DIR → Entered s n
  names : ∀ n, (s.disk n).type = T_DIR → ∀ de ∈ (tree s).entries n, de.inum ≠ 0 →
    (s.disk de.inum).type ≠ 0 ∧ Kept s de.inum

theorem sane_lookup (h : Sane s) (hdir : (s.disk n).type = T_DIR) {name : Name}
    (hm : (tree s).lookup n name = some m) : (s.disk m).type ≠ 0 ∧ Kept s m := by
  rw [Tree.lookup, Option.map_eq_some_iff] at hm
  obtain ⟨de,hde,rfl⟩ := hm
  have hmatch := List.find?_some hde
  rw [decide_eq_true_eq] at hmatch
  exact h.names n hdir de (List.mem_of_find?_eq_some hde) hmatch.1

/-- A file system of 64 blocks, of which 32 are in use; the last of them is that of the root. -/
def blank (disk : ℕ → Dinode) (data : ℕ → ℕ → Byte) (inode : Slot → Inode) : Fs where
  pid := 1
  init := false
  ninodes := 8
  disk := disk
  data := data
  blocks := ⟨64,(· < 32),fun n k => if n = ROOTINO ∧ k = 0 then 31 else 0⟩
  inode := inode
  file := fun _ => ⟨.none,0,false,false,0,0,0⟩
  pipe := fun _ => ⟨false,false,false⟩
  ofile := fun _ => none
  cwd := some 0
  input := fun _ => none
  memory := fun _ => false

def taken (R : Multiset (Slot × ℕ)) (i : Slot) : ℕ := R.countP (fun r => r.1 = i)

@[simp] theorem taken_zero (i : Slot) : taken 0 i = 0 := Multiset.countP_zero _

theorem taken_cons (R : Multiset (Slot × ℕ)) (i j : Slot) (n : ℕ) :
    taken ((i,n) ::ₘ R) j = taken R j+if i = j then 1 else 0 := Multiset.countP_cons _ _ _

theorem taken_pos {R : Multiset (Slot × ℕ)} (h : (i,n) ∈ R) : 0 < taken R i :=
  Multiset.countP_pos.mpr ⟨_,h,rfl⟩

/-- The state `s` of a call that began in `b`, with the locks `L` and the references `R`
that it has taken. -/
structure During (b s : Fs) (L : Finset Slot) (R : Multiset (Slot × ℕ)) : Prop where
  same : s = { b with inode := s.inode }
  ref : ∀ i, (s.inode i).ref = (b.inode i).ref+taken R i
  inum : ∀ i, 0 < (b.inode i).ref → (s.inode i).inum = (b.inode i).inum
  names : ∀ r ∈ R, (s.inode r.1).inum = r.2
  lock : ∀ i, (s.inode i).lock = if i ∈ L then some b.pid else none
  loaded : ∀ i ∈ L, (∃ n, (i,n) ∈ R) ∧ (s.inode i).valid = true
  unique : ∀ i j, 0 < (s.inode i).ref → 0 < (s.inode j).ref →
    (s.inode i).inum = (s.inode j).inum → i = j
  synced : ∀ i, 0 < (s.inode i).ref → (s.inode i).valid = true →
    (s.inode i).copy = b.disk (s.inode i).inum

variable {L L' : Finset Slot} {R R' : Multiset (Slot × ℕ)}

theorem sane_during (h : Sane b) : During b b ∅ 0 :=
  ⟨rfl,fun _ => rfl,fun _ _ => rfl,fun _ hr => absurd hr (Multiset.notMem_zero _),h.unlocked,
    fun _ hi => absurd hi (Finset.notMem_empty _),h.unique,h.synced⟩

theorem during_disk (h : During b s L R) : s.disk = b.disk := by rw [h.same]

theorem during_data (h : During b s L R) : s.data = b.data := by rw [h.same]

theorem during_blocks (h : During b s L R) : s.blocks = b.blocks := by rw [h.same]

theorem during_pid (h : During b s L R) : s.pid = b.pid := by rw [h.same]

theorem during_ref (h : During b s L R) (hm : (i,n) ∈ R) : 0 < (s.inode i).ref := by
  have := taken_pos hm
  rw [h.ref]
  omega

theorem during_set (h : During b s L R) {x : Inode} (hL : ∀ j, j ≠ i → (j ∈ L' ↔ j ∈ L))
    (hR : ∀ r : Slot × ℕ, r.1 ≠ i → (r ∈ R' ↔ r ∈ R)) (hcount : ∀ j, j ≠ i → taken R' j = taken R j)
    (href : x.ref = (b.inode i).ref+taken R' i)
    (hinum : 0 < (b.inode i).ref → x.inum = (b.inode i).inum) (hnames : ∀ k, (i,k) ∈ R' → x.inum = k)
    (hlock : x.lock = if i ∈ L' then some b.pid else none)
    (hload : i ∈ L' → (∃ n, (i,n) ∈ R') ∧ x.valid = true)
    (hunique : 0 < x.ref → ∀ j, j ≠ i → 0 < (s.inode j).ref → (s.inode j).inum ≠ x.inum)
    (hsynced : 0 < x.ref → x.valid = true → x.copy = b.disk x.inum) : During b (s.set i x) L' R' := by
  have hself : (s.set i x).inode i = x := update_self ..
  have hother : ∀ j, j ≠ i → (s.set i x).inode j = s.inode j := fun j hj => update_of_ne hj _ _
  refine ⟨?_,fun j => ?_,fun j hj => ?_,fun r hr => ?_,fun j => ?_,fun j hj => ?_,fun j k hj hk hjk => ?_,
    fun j hj hv => ?_⟩
  · exact congrArg (fun t : Fs => { t with inode := update s.inode i x }) h.same
  · by_cases hji : j = i
    · rw [hji, hself, href]
    · rw [hother j hji, h.ref, hcount j hji]
  · by_cases hji : j = i
    · rw [hji] at hj ⊢
      rw [hself, hinum hj]
    · rw [hother j hji, h.inum j hj]
  · obtain ⟨j,k⟩ := r
    by_cases hji : j = i
    · rw [hji] at hr ⊢
      rw [hself, hnames k hr]
    · rw [hother j hji]
      exact h.names _ ((hR (j,k) hji).mp hr)
  · by_cases hji : j = i
    · rw [hji, hself, hlock]
    · rw [hother j hji, h.lock]
      simp only [hL j hji]
  · by_cases hji : j = i
    · rw [hji] at hj ⊢
      rw [hself]
      exact hload hj
    · obtain ⟨⟨k,hk⟩,hv⟩ := h.loaded j ((hL j hji).mp hj)
      rw [hother j hji]
      exact ⟨⟨k,(hR (j,k) hji).mpr hk⟩,hv⟩
  · by_cases hji : j = i
    · by_cases hki : k = i
      · rw [hji, hki]
      · rw [hji, hself] at hj hjk
        rw [hother k hki] at hk hjk
        exact absurd hjk.symm (hunique hj k hki hk)
    · rw [hother j hji] at hj hjk
      by_cases hki : k = i
      · rw [hki, hself] at hk hjk
        exact absurd hjk (hunique hk j hji hj)
      · rw [hother k hki] at hk hjk
        exact h.unique j k hj hk hjk
  · by_cases hji : j = i
    · rw [hji, hself] at hj hv ⊢
      exact hsynced hj hv
    · rw [hother j hji] at hj hv ⊢
      exact h.synced j hj hv

def HasSlot (s : Fs) (n : ℕ) : Prop := Cached s n ∨ ∃ i, (s.inode i).ref = 0

theorem iget_quiet (h : During b s L R) (n : ℕ) : Quiet (iget n)
    (fun i s' => During b s' L ((i,n) ::ₘ R) ∧ HasSlot s n)
    (fun e => e = .panic .iget ∧ ¬HasSlot s n) s := by
  have hR : ∀ i, ∀ r : Slot × ℕ, r.1 ≠ i → (r ∈ (i,n) ::ₘ R ↔ r ∈ R) := fun i r hr => by
    rw [Multiset.mem_cons]
    exact or_iff_right (fun heq => hr (by rw [heq]))
  have hcount : ∀ i j, j ≠ i → taken ((i,n) ::ₘ R) j = taken R j := fun i j hj => by
    rw [taken_cons, if_neg (Ne.symm hj), Nat.add_zero]
  have hself : ∀ i, taken ((i,n) ::ₘ R) i = taken R i+1 := fun i => by rw [taken_cons, if_pos rfl]
  have hloaded : ∀ i, i ∈ L → (∃ k, (i,k) ∈ (i,n) ::ₘ R) ∧ (s.inode i).valid = true := fun i hi =>
    ⟨⟨n,Multiset.mem_cons_self _ _⟩,(h.loaded i hi).2⟩
  rw [quiet_iget]
  unfold Fs.iget
  split
  · rename_i i hc
    have hi := List.find?_some hc
    simp only [decide_eq_true_eq] at hi
    refine ⟨during_set h (fun _ _ => Iff.rfl) (hR i) (hcount i) ?_ (h.inum i) (fun k hk => ?_) (h.lock i)
      (hloaded i) (fun _ j hj hr heq => hj (h.unique j i hr hi.1 heq)) (fun _ => h.synced i hi.1),.inl ⟨i,hi⟩⟩
    · rw [hself, h.ref i, Nat.add_assoc]
    · rcases Multiset.mem_cons.mp hk with heq | hk
      · cases heq
        exact hi.2
      · exact h.names _ hk
  · rename_i hc
    have hno : ∀ j, 0 < (s.inode j).ref → (s.inode j).inum ≠ n := fun j hj heq => by
      have := List.find?_eq_none.mp hc j (List.mem_finRange j)
      simp only [decide_eq_true_eq, not_and] at this
      exact this hj heq
    split
    · rename_i i he
      have hi := List.find?_some he
      simp only [decide_eq_true_eq] at hi
      have hold := h.ref i
      rw [hi] at hold
      refine ⟨during_set h (fun _ _ => Iff.rfl) (hR i) (hcount i) ?_ (fun hpos => by omega) (fun k hk => ?_)
        (h.lock i) (fun hl => ?_) (fun _ j _ hr => hno j hr) (fun _ hv => by cases hv),.inr ⟨i,hi⟩⟩
      · show 1 = _
        rw [hself]
        omega
      · rcases Multiset.mem_cons.mp hk with heq | hk
        · cases heq
          rfl
        · have := taken_pos hk
          omega
      · obtain ⟨⟨k,hk⟩,-⟩ := h.loaded i hl
        have := taken_pos hk
        omega
    · rename_i he
      refine ⟨rfl,fun hslot => ?_⟩
      rcases hslot with ⟨i,hi,hn⟩ | ⟨i,hi⟩
      · exact hno i hi hn
      · have := List.find?_eq_none.mp he i (List.mem_finRange i)
        simp [hi] at this

theorem idup_quiet (h : During b s L R) (hi : 0 < (b.inode i).ref) (hn : (b.inode i).inum = n) :
    Quiet (idup i) (fun _ s' => During b s' L ((i,n) ::ₘ R)) E s := by
  have hpos : 0 < (s.inode i).ref := by
    rw [h.ref]
    omega
  rw [quiet_idup]
  refine during_set h (fun _ _ => Iff.rfl) (fun r hr => ?_) (fun j hj => ?_) ?_ (h.inum i) (fun k hk => ?_)
    (h.lock i) (fun hl => ⟨⟨n,Multiset.mem_cons_self _ _⟩,(h.loaded i hl).2⟩)
    (fun _ j hj hr heq => hj (h.unique j i hr hpos heq)) (fun _ => h.synced i hpos)
  · rw [Multiset.mem_cons]
    exact or_iff_right (fun heq => hr (by rw [heq]))
  · rw [taken_cons, if_neg (Ne.symm hj), Nat.add_zero]
  · rw [taken_cons, if_pos rfl, h.ref, Nat.add_assoc]
  · rcases Multiset.mem_cons.mp hk with heq | hk
    · cases heq
      exact (h.inum i hi).trans hn
    · exact h.names _ hk

theorem during_lock (h : During b s L R) {x : Inode} (hm : (i,n) ∈ R) (hL : ∀ j, j ≠ i → (j ∈ L' ↔ j ∈ L))
    (href : x.ref = (s.inode i).ref) (hinum : x.inum = (s.inode i).inum)
    (hlock : x.lock = if i ∈ L' then some b.pid else none) (hload : i ∈ L' → x.valid = true)
    (hsynced : x.valid = true → x.copy = b.disk x.inum) : During b (s.set i x) L' R := by
  have hpos := during_ref h hm
  exact during_set h hL (fun _ _ => Iff.rfl) (fun _ _ => rfl) (href.trans (h.ref i))
    (fun hb => hinum.trans (h.inum i hb)) (fun k hk => hinum.trans (h.names _ hk)) hlock
    (fun hl => ⟨⟨n,hm⟩,hload hl⟩) (fun _ j hj hr heq => hj (h.unique j i hr hpos (heq.trans hinum)))
    (fun _ => hsynced)

theorem ilock_quiet (h : During b s L R) (hi : i ∉ L) (hm : (i,n) ∈ R) (hn : (b.disk n).type ≠ 0) :
    Quiet (ilock i) (fun _ s' => During b s' (insert i L) R) E s := by
  have hpos := during_ref h hm
  have hname : (s.inode i).inum = n := h.names _ hm
  have hlock : (s.inode i).lock = none := by rw [h.lock, if_neg hi]
  have hL : ∀ j, j ≠ i → (j ∈ insert i L ↔ j ∈ L) := fun j hj => by simp [hj]
  unfold ilock
  simp only [quiet_bind, quiet_inode]
  rw [if_neg (by omega), quiet_bind, quiet_acquire hlock]
  simp only [quiet_bind, quiet_inode, set_self]
  split_ifs with hv
  · simp only [load, quiet_bind, quiet_dinode, quiet_set_copy, quiet_set_valid, set_self, set_set, set_fields]
    rw [if_neg (by rw [during_disk h, hname]; exact hn), quiet_pure]
    refine during_lock h hm hL rfl rfl ?_ (fun _ => rfl) (fun _ => by rw [during_disk h])
    rw [if_pos (Finset.mem_insert_self _ _), during_pid h]
  · rw [quiet_pure]
    refine during_lock h hm hL rfl rfl ?_ (fun _ => by simpa using hv) (h.synced i hpos)
    rw [if_pos (Finset.mem_insert_self _ _), during_pid h]

theorem iunlock_quiet (h : During b s L R) (hi : i ∈ L) :
    Quiet (iunlock i) (fun _ s' => During b s' (L.erase i) R) E s := by
  obtain ⟨⟨n,hm⟩,hv⟩ := h.loaded i hi
  have hpos := during_ref h hm
  have hlock : (s.inode i).lock = some s.pid := by rw [h.lock, if_pos hi, during_pid h]
  unfold iunlock
  simp only [quiet_bind, quiet_inode, quiet_holding]
  rw [if_neg (by simp only [hlock, decide_true, Bool.true_eq_false, false_or]; omega), quiet_release]
  refine during_lock h hm (fun j hj => by simp [hj]) rfl rfl ?_ (fun hl => ?_) (h.synced i hpos)
  · rw [if_neg (Finset.notMem_erase _ _)]
  · exact absurd hl (Finset.notMem_erase _ _)

theorem iput_quiet (h : During b s L ((i,n) ::ₘ R)) (hi : i ∉ L) (hk : Kept b n) :
    Quiet (iput i) (fun _ s' => During b s' L R) E s := by
  have hm : (i,n) ∈ (i,n) ::ₘ R := Multiset.mem_cons_self _ _
  have hpos := during_ref h hm
  have hname : (s.inode i).inum = n := h.names _ hm
  have hlock : (s.inode i).lock = none := by rw [h.lock, if_neg hi]
  have hself : taken ((i,n) ::ₘ R) i = taken R i+1 := by rw [taken_cons, if_pos rfl]
  have hdrop : ∀ x : Inode, x = { s.inode i with lock := none, ref := (s.inode i).ref-1 } →
      During b (s.set i x) L R := by
    rintro x rfl
    refine during_set h (fun _ _ => Iff.rfl) (fun r hr => ?_) (fun j hj => ?_) ?_ (h.inum i)
      (fun k hk => h.names _ (Multiset.mem_cons_of_mem hk)) (by rw [if_neg hi]) (fun hl => absurd hl hi)
      (fun _ j hj hr heq => hj (h.unique j i hr hpos heq)) (fun _ => h.synced i hpos)
    · rw [Multiset.mem_cons]
      exact (or_iff_right (fun heq => hr (by rw [heq]))).symm
    · rw [taken_cons, if_neg (Ne.symm hj), Nat.add_zero]
    · show (s.inode i).ref-1 = _
      rw [h.ref, hself]
      omega
  -- with no links there is another reference
  have hnot : (s.inode i).valid = true ∧ (s.inode i).copy.nlink = 0 → (s.inode i).ref ≠ 1 := by
    rintro ⟨hv,h0⟩ hone
    rw [h.synced i hpos hv, hname] at h0
    obtain ⟨j,hj,hjn⟩ := hk.resolve_left (fun hlink => hlink h0)
    have hji : j = i := h.unique j i (by rw [h.ref]; omega) hpos (by rw [h.inum j hj, hjn, hname])
    have href := h.ref i
    rw [hself] at href
    rw [hji] at hj
    omega
  unfold iput
  rw [quiet_bind, quiet_acquire hlock]
  simp only [reclaim, quiet_bind, quiet_inode, set_self]
  split_ifs with hfree
  · simp only [quiet_bind, quiet_inode, set_self]
    rw [if_neg (hnot hfree)]
    simp only [quiet_pure, quiet_release, quiet_unref, set_self, set_set]
    exact hdrop _ rfl
  · simp only [quiet_pure, quiet_release, quiet_unref, set_self, set_set]
    exact hdrop _ rfl

theorem iunlockput_quiet (h : During b s L ((i,n) ::ₘ R)) (hi : i ∈ L) (hk : Kept b n) :
    Quiet (iunlockput i) (fun _ s' => During b s' (L.erase i) R) E s :=
  quiet_then (iunlock_quiet h hi) fun _ _ h1 => iput_quiet h1 (Finset.notMem_erase _ _) hk

theorem during_trans {c : Fs} (h : During c b ∅ R) (h' : During b s L R') : During c s L (R+R') := by
  have hdisk := during_disk h
  have hpid := during_pid h
  refine ⟨?_,fun i => ?_,fun i hi => ?_,fun r hr => ?_,fun i => ?_,fun i hi => ?_,h'.unique,fun i hi hv => ?_⟩
  · exact h'.same.trans (congrArg (fun t : Fs => { t with inode := s.inode }) h.same)
  · rw [h'.ref, h.ref, taken, taken, taken, Multiset.countP_add, Nat.add_assoc]
  · rw [h'.inum i (by rw [h.ref]; omega), h.inum i hi]
  · rcases Multiset.mem_add.mp hr with hr | hr
    · rw [h'.inum r.1 (during_ref h hr), h.names r hr]
    · exact h'.names r hr
  · rw [h'.lock, hpid]
  · obtain ⟨⟨n,hn⟩,hv⟩ := h'.loaded i hi
    exact ⟨⟨n,Multiset.mem_add.mpr (.inr hn)⟩,hv⟩
  · rw [h'.synced i hi hv, hdisk]

theorem during_rebase (h : During b s L R) (disk : ℕ → Dinode) (data : ℕ → ℕ → Byte) (B : Blocks)
    (copy : Slot → Dinode)
    (hsynced : ∀ i, 0 < (s.inode i).ref → (s.inode i).valid = true → copy i = disk (s.inode i).inum) :
    During { b with disk := disk, data := data, blocks := B }
      { s with
        disk := disk, data := data, blocks := B, inode := fun i => { s.inode i with copy := copy i } }
      L R where
  same := congrArg (fun t : Fs =>
    { t with disk := disk, data := data, blocks := B, inode := fun i => { s.inode i with copy := copy i } })
      h.same
  ref := h.ref
  inum := h.inum
  names := h.names
  lock := h.lock
  loaded := h.loaded
  unique := h.unique
  synced := hsynced

theorem during_locked (h : During b s L R) (hi : i ∈ L) (hm : (i,n) ∈ R) :
    (s.inode i).copy = b.disk n ∧ (s.inode i).inum = n := by
  have hname : (s.inode i).inum = n := h.names _ hm
  refine ⟨?_,hname⟩
  rw [h.synced i (during_ref h hm) (h.loaded i hi).2, hname]

theorem revise_quiet (h : During b s L R) (hi : i ∈ L) (hm : (i,n) ∈ R) (f : Dinode → Dinode) :
    Quiet (revise i f) (fun _ s' => During (b.setDisk n (f (b.disk n))) s' L R) E s := by
  obtain ⟨I,rfl⟩ : ∃ I, s = { b with inode := I } := ⟨_,h.same⟩
  have hpos := during_ref h hm
  have hname : (I i).inum = n := h.names _ hm
  have hcopy : (I i).copy = b.disk n := (during_locked h hi hm).1
  have hset : update I i { I i with copy := f (b.disk n) } =
      fun j => { I j with copy := if j = i then f (b.disk n) else (I j).copy } := by
    funext j
    by_cases hj : j = i
    · rw [hj, update_self, if_pos rfl]
    · rw [update_of_ne hj, if_neg hj]
  have hnew := during_rebase h (update b.disk n (f (b.disk n))) b.data b.blocks
    (fun j => if j = i then f (b.disk n) else (I j).copy) (fun j hj hv => ?_)
  · subst hname
    unfold revise iupdate
    simp only [quiet_bind, quiet_inode, quiet_set_copy, quiet_set_dinode, hcopy, set_self]
    rw [← hset] at hnew
    exact hnew
  · by_cases hji : j = i
    · rw [hji, if_pos rfl, hname, update_self]
    · have hne : (I j).inum ≠ n := fun heq => hji (h.unique j i hj hpos (heq.trans hname.symm))
      rw [if_neg hji, update_of_ne hne]
      exact h.synced j hj hv

variable {d off : ℕ} {name : Name}

/-- The cached inode of a directory that is locked. -/
structure Readable (s : Fs) (i : Slot) : Prop where
  dir : (s.inode i).copy.type = T_DIR
  whole : (s.inode i).copy.size%DIRENT = 0
  size : (s.inode i).copy.size ≤ MAXFILE*BSIZE
  noHoles : NoHoles s.blocks (s.inode i).inum (s.inode i).copy.size

theorem during_readable (h : During b s L R) (hi : i ∈ L) (hm : (i,d) ∈ R) (hdir : (b.disk d).type = T_DIR)
    (hd : Entered b d) : Readable s i := by
  obtain ⟨hcopy,hinum⟩ := during_locked h hi hm
  constructor <;> rw [hcopy]
  · exact hdir
  · exact hd.whole
  · exact hd.size
  · rw [hinum, during_blocks h]
    exact hd.noHoles

theorem readDirent_quiet (hi : Readable s i) (hoff : off+DIRENT ≤ (s.inode i).copy.size) (msg : Panic) :
    Quiet (readDirent i off msg) (fun de s' => s' = s ∧ de = entryAt (s.data (s.inode i).inum) off) E s := by
  have hsize := hi.size
  have hword : ¬((s.inode i).copy.size < off ∨ WORD ≤ off+DIRENT) := by
    simp only [MAXFILE, BSIZE, WORD, DIRENT] at hoff hsize ⊢
    omega
  unfold readDirent readi
  simp only [quiet_bind, quiet_inode, hi.dir]
  rw [if_neg (by decide), if_neg hword, if_neg (Nat.not_lt_of_le hoff), if_neg (by omega)]
  simp only [quiet_bind, quiet_read (cover_fixed hi.noHoles hoff), quiet_pure, List.length_map,
    List.length_range]
  rw [if_neg (by simp), quiet_pure]
  exact ⟨rfl,rfl⟩

/-- What a lookup of a name in some entries gives, or why it panics. -/
def Looks (b s : Fs) (L : Finset Slot) (R : Multiset (Slot × ℕ)) (found : Option ℕ)
    (r : Option (Slot × ℕ)) (s' : Fs) : Prop :=
  match r with
  | none => s' = s ∧ found = none
  | some (ip,_) => ∃ m, found = some m ∧ HasSlot s m ∧ During b s' L ((ip,m) ::ₘ R)

def NoSlot (s : Fs) (found : Option ℕ) (e : Stop) : Prop :=
  e = .panic .iget ∧ ∃ m, found = some m ∧ ¬HasSlot s m

theorem dirlookupFrom_quiet (name : Name) (h : During b s L R) (hi : Readable s i) {k j : ℕ}
    (hk : (s.inode i).copy.size/DIRENT < j+k) : Quiet (dirlookupFrom i name k (j*DIRENT))
      (Looks b s L R ((((entriesOf (s.data (s.inode i).inum) (s.inode i).copy.size).drop j).find?
        (fun de => Matches name de)).map Dirent.inum))
      (NoSlot s ((((entriesOf (s.data (s.inode i).inum) (s.inode i).copy.size).drop j).find?
        (fun de => Matches name de)).map Dirent.inum)) s := by
  induction k generalizing j with
  | zero =>
    rw [entries_end (by omega)]
    exact (quiet_pure _).mpr ⟨rfl,rfl⟩
  | succ k ih =>
    unfold dirlookupFrom
    rw [quiet_bind, quiet_inode]
    split
    · rename_i hoff
      have hin : j*DIRENT+DIRENT ≤ (s.inode i).copy.size := by
        have := hi.whole
        unfold DIRENT at *
        omega
      refine quiet_then (readDirent_quiet hi hin _) ?_
      rintro de s1 ⟨rfl,rfl⟩
      rw [entries_drop (entry_inside hin)]
      have hrest := ih (j := j+1) (by omega)
      rw [Nat.succ_mul] at hrest
      by_cases hde : Matches name (entryAt (s1.data (s1.inode i).inum) (j*DIRENT))
      · rw [List.find?_cons_of_pos (by simpa using hde), if_neg hde.1, if_pos hde.2]
        refine quiet_seq (iget_quiet h _) ?_ ?_
        · rintro e ⟨he,hno⟩
          exact ⟨he,_,rfl,hno⟩
        · rintro ip s2 ⟨h2,hslot⟩
          exact (quiet_pure _).mpr ⟨_,rfl,hslot,h2⟩
      · rw [List.find?_cons_of_neg (by simpa using hde)]
        split
        · exact hrest
        · rename_i h0
          rw [if_neg (fun hname => hde ⟨h0,hname⟩)]
          exact hrest
    · rename_i hoff
      rw [entries_end (entry_outside hoff)]
      exact (quiet_pure _).mpr ⟨rfl,rfl⟩

theorem dirlookup_quiet (h : During b s L R) (hi : i ∈ L) (hm : (i,d) ∈ R) (hdir : (b.disk d).type = T_DIR)
    (hd : Entered b d) (name : Name) : Quiet (dirlookup i name)
      (Looks b s L R ((tree b).lookup d name)) (NoSlot s ((tree b).lookup d name)) s := by
  obtain ⟨hcopy,hinum⟩ := during_locked h hi hm
  unfold dirlookup
  rw [quiet_bind, quiet_inode, hcopy, if_neg (fun hne => hne hdir)]
  have hloop := dirlookupFrom_quiet (j := 0) (k := (s.inode i).copy.size/DIRENT+1) name h
    (during_readable h hi hm hdir hd) (by omega)
  rw [Nat.zero_mul, List.drop_zero, hinum, during_data h, hcopy] at hloop
  exact hloop

def emptySlots (s : Fs) : Finset Slot := {i | (s.inode i).ref = 0}

/-- There are slots for those of the inodes that have none. -/
def Fits (s : Fs) (N : Finset ℕ) : Prop := {n ∈ N | ¬Cached s n}.card ≤ (emptySlots s).card

instance (s : Fs) (N : Finset ℕ) : Decidable (Fits s N) := inferInstanceAs (Decidable (_ ≤ _))

def inodesOf (R : Multiset (Slot × ℕ)) : Finset ℕ := (R.map Prod.snd).toFinset

theorem mem_inodes : n ∈ inodesOf R ↔ ∃ i, (i,n) ∈ R := by
  simp [inodesOf]

theorem during_cached (h : During b s L R) : Cached s n ↔ Cached b n ∨ n ∈ inodesOf R := by
  rw [mem_inodes]
  constructor
  · rintro ⟨i,hi,hn⟩
    by_cases hold : 0 < (b.inode i).ref
    · exact .inl ⟨i,hold,(h.inum i hold).symm.trans hn⟩
    · rw [h.ref] at hi
      obtain ⟨r,hr,hri⟩ := Multiset.countP_pos.mp (show 0 < taken R i by omega)
      obtain ⟨j,k⟩ := r
      cases hri
      refine .inr ⟨j,?_⟩
      rwa [← hn, h.names _ hr]
  · rintro (⟨i,hi,hn⟩ | ⟨i,hi⟩)
    · exact ⟨i,by rw [h.ref]; omega,(h.inum i hi).trans hn⟩
    · exact ⟨i,during_ref h hi,h.names _ hi⟩

theorem during_empty (h : During b s L R) :
    (emptySlots s).card+{n ∈ inodesOf R | ¬Cached b n}.card = (emptySlots b).card := by
  have hfilled : {n ∈ inodesOf R | ¬Cached b n} =
    (emptySlots b \ emptySlots s).image (fun i => (s.inode i).inum) := by
    ext n
    simp only [Finset.mem_filter, Finset.mem_image, Finset.mem_sdiff, emptySlots, Finset.mem_univ, true_and]
    constructor
    · rintro ⟨hn,hno⟩
      obtain ⟨i,hi⟩ := mem_inodes.mp hn
      have hpos := during_ref h hi
      refine ⟨i,⟨?_,by omega⟩,h.names _ hi⟩
      by_contra hne
      exact hno ⟨i,by omega,(h.inum i (by omega)).symm.trans (h.names _ hi)⟩
    · rintro ⟨i,⟨h0,hne⟩,rfl⟩
      have hpos : 0 < (s.inode i).ref := by omega
      have hcached : Cached s (s.inode i).inum := ⟨i,hpos,rfl⟩
      have hno : ¬Cached b (s.inode i).inum := by
        rintro ⟨j,hj,hjn⟩
        have hji : j = i := h.unique j i (by rw [h.ref]; omega) hpos ((h.inum j hj).trans hjn)
        rw [hji, h0] at hj
        omega
      exact ⟨((during_cached h).mp hcached).resolve_left hno,hno⟩
  have hinj : Set.InjOn (fun i => (s.inode i).inum) (emptySlots b \ emptySlots s : Finset Slot) := by
    intro i hi j hj heq
    simp only [Finset.coe_sdiff, Set.mem_sdiff, Finset.mem_coe, emptySlots, Finset.mem_filter,
      Finset.mem_univ,
      true_and] at hi hj
    exact h.unique i j (by omega) (by omega) heq
  have hsub : emptySlots s ⊆ emptySlots b := fun i hi => by
    simp only [emptySlots, Finset.mem_filter, Finset.mem_univ, true_and] at hi ⊢
    have := h.ref i
    omega
  rw [hfilled, Finset.card_image_of_injOn hinj, Nat.add_comm, Finset.card_sdiff_add_card_eq_card hsub]

theorem slot_iff (h : During b s L R) : HasSlot s n ↔ Fits b (insert n (inodesOf R)) := by
  have hcard := during_empty h
  have hpos : (∃ i, (s.inode i).ref = 0) ↔ 0 < (emptySlots s).card := by
    rw [Finset.card_pos]
    constructor
    · rintro ⟨i,hi⟩
      exact ⟨i,by simpa [emptySlots] using hi⟩
    · rintro ⟨i,hi⟩
      exact ⟨i,by simpa [emptySlots] using hi⟩
  rw [HasSlot, hpos, during_cached h, Fits]
  by_cases hn : Cached b n ∨ n ∈ inodesOf R
  · have hsame : {k ∈ insert n (inodesOf R) | ¬Cached b k} = {k ∈ inodesOf R | ¬Cached b k} := by
      ext k
      simp only [Finset.mem_filter, Finset.mem_insert]
      constructor
      · rintro ⟨rfl | hk,hno⟩
        · exact ⟨hn.resolve_left hno,hno⟩
        · exact ⟨hk,hno⟩
      · rintro ⟨hk,hno⟩
        exact ⟨.inr hk,hno⟩
    rw [hsame]
    exact iff_of_true (.inl hn) (by omega)
  · rw [not_or] at hn
    rw [Finset.filter_insert, if_pos hn.1,
      Finset.card_insert_of_notMem (fun hmem => hn.2 (Finset.mem_filter.mp hmem).1)]
    constructor
    · rintro (hin | hempty)
      · exact absurd hin (not_or.mpr hn)
      · omega
    · intro hle
      exact .inr (by omega)

end Xv6.FsQuiet

import Xv6.FsLedger

/-!
# The inode layer keeps the ledger

The specification of each function of the inode layer for a process alone: what it
does to the ledger and to the tree of names. A panic ends the call, so none of
them has to be excluded; that a function does not wait for a lock is part of its
specification.
-/

set_option autoImplicit false

namespace Xv6.FsInodes
open CommandTree InodeCode FileCalls PathTree FsLedger
open CodeMachine (tally tally_update tally_ge)
open Function

def NoSleep : Stop → Prop
  | .sleeps _ _ => False
  | .panic _ | .noCwd => True

/-- What a program does alone, if it does not panic, without a wait. -/
abbrev Does {α : Type} (p : Prog α) (Q : α → Fs → Prop) (s : Fs) : Prop := wp alone p Q NoSleep s

variable {s s' : Fs} {g : Ledger} {i j : Slot} {n : ℕ}

section Commands
variable {E : Stop → Prop} {Q : Unit → Fs → Prop}

@[simp] theorem wp_begin : wp alone beginOp Q E s ↔ Q () s := Iff.rfl

@[simp] theorem wp_end : wp alone endOp Q E s ↔ Q () s := Iff.rfl

@[simp] theorem wp_idup :
    wp alone (idup i) Q E s ↔ Q () (s.set i { s.inode i with ref := (s.inode i).ref+1 }) := Iff.rfl

@[simp] theorem wp_unref :
    wp alone (unref i) Q E s ↔ Q () (s.set i { s.inode i with ref := (s.inode i).ref-1 }) := Iff.rfl

theorem wp_acquire_free (h : (s.inode i).lock = none) : wp alone (acquiresleep i) Q E s ↔
    Q () (s.set i { s.inode i with lock := some s.pid }) := by
  refine (wp_perform (c := Cmd.acquiresleep i)).trans ?_
  simp only [alone, h]
  exact Iff.rfl

theorem wp_acquire_taken {q : ℕ} (h : (s.inode i).lock = some q) :
    wp alone (acquiresleep i) Q E s ↔ E (.sleeps i q) := by
  refine (wp_perform (c := Cmd.acquiresleep i)).trans ?_
  simp only [alone, h]
  exact Iff.rfl

@[simp] theorem wp_release :
    wp alone (releasesleep i) Q E s ↔ Q () (s.set i { s.inode i with lock := none }) := Iff.rfl

@[simp] theorem wp_holding {Q : Bool → Fs → Prop} :
    wp alone (holdingsleep i) Q E s ↔ Q (decide ((s.inode i).lock = some s.pid)) s := Iff.rfl

@[simp] theorem wp_inode {Q : Inode → Fs → Prop} :
    wp alone (inode i) Q E s ↔ Q (s.inode i) s := Iff.rfl

@[simp] theorem wp_set_copy {d : Dinode} :
    wp alone (setCopy i d) Q E s ↔ Q () (s.set i { s.inode i with copy := d }) := Iff.rfl

@[simp] theorem wp_set_valid {v : Bool} :
    wp alone (setValid i v) Q E s ↔ Q () (s.set i { s.inode i with valid := v }) := Iff.rfl

@[simp] theorem wp_ninodes {Q : ℕ → Fs → Prop} : wp alone ninodes Q E s ↔ Q s.ninodes s := Iff.rfl

@[simp] theorem wp_dinode {Q : Dinode → Fs → Prop} :
    wp alone (dinode n) Q E s ↔ Q (s.disk n) s := Iff.rfl

@[simp] theorem wp_set_dinode {d : Dinode} :
    wp alone (setDinode n d) Q E s ↔ Q () (s.setDisk n d) := Iff.rfl

theorem wp_alloc {type : ℕ} {Q : Bool → Fs → Prop} : wp alone (allocDinode n type) Q E s ↔
    if (s.disk n).type = 0 then
      Q true (s.allocate n type)
    else Q false s := by
  refine (wp_perform (c := Cmd.allocDinode n type)).trans ?_
  simp only [alone]
  split <;> exact Iff.rfl

theorem wp_read {off k : ℕ} {Q : List Byte → Fs → Prop} (hE : E (.panic .balloc))
    (hQ : ∀ B, Q ((List.range k).map (fun j => s.data n (off+j))) (s.setBlocks B)) :
    wp alone (readData n off k) Q E s := by
  refine (wp_perform (c := Cmd.readData n off k)).mpr ?_
  simp only [alone]
  split
  · exact hQ _
  · exact hE

theorem wp_write {off : ℕ} {bytes : List Byte} (hE : E (.panic .balloc))
    (hQ : ∀ B, Q () ((s.setData n (splice (s.data n) off bytes)).setBlocks B)) :
    wp alone (writeData n off bytes) Q E s := by
  refine (wp_perform (c := Cmd.writeData n off bytes)).mpr ?_
  simp only [alone]
  split
  · exact hQ _
  · exact hE

theorem wp_free (hE : E (.panic .bfree)) (hQ : ∀ B, Q () ((s.setData n (fun _ => 0)).setBlocks B)) :
    wp alone (freeData n) Q E s := by
  refine (wp_perform (c := Cmd.freeData n)).mpr ?_
  simp only [alone]
  split
  · exact hQ _
  · exact hE

@[simp] theorem wp_input {k : ℕ} {Q : Option (List Byte) → Fs → Prop} :
    wp alone (input k) Q E s ↔
      Q ((s.input 0).map (List.take k)) { s with input := fun j => s.input (j+1) } := Iff.rfl

@[simp] theorem wp_memory {Q : Bool → Fs → Prop} :
    wp alone memory Q E s ↔ Q (s.memory 0) { s with memory := fun j => s.memory (j+1) } := Iff.rfl

theorem wp_iget {Q : Slot → Fs → Prop} : wp alone (iget n) Q E s ↔ Meets Q E (s.iget n) :=
  wp_perform (c := Cmd.iget n)

end Commands

section Fields
variable (s) (i)

@[simp] theorem set_self (x : Inode) : (s.set i x).inode i = x := update_self ..

theorem set_inode (x : Inode) : (s.set i x).inode = update s.inode i x := rfl

@[simp] theorem set_set (x y : Inode) : (s.set i x).set i y = s.set i y := by
  simp [Fs.set]

@[simp] theorem set_fields (x : Inode) : (s.set i x).disk = s.disk ∧ (s.set i x).data = s.data ∧
    (s.set i x).pid = s.pid ∧ (s.set i x).file = s.file ∧ (s.set i x).cwd = s.cwd ∧
    (s.set i x).ofile = s.ofile := ⟨rfl,rfl,rfl,rfl,rfl,rfl⟩

end Fields

theorem tree_congr (hdisk : s'.disk = s.disk) (hdata : s'.data = s.data) : tree s' = tree s := by
  simp only [tree, hdisk, hdata]

theorem iget_spec (h : Held s g) (n : ℕ) : Does (iget n)
    (fun i s' => Held s' { g with refs := (i,n) ::ₘ g.refs } ∧ tree s' = tree s) s := by
  rw [Does, wp_iget]
  unfold Fs.iget
  split
  · rename_i i hc
    have hi := List.find?_some hc
    simp only [decide_eq_true_eq] at hi
    refine ⟨held_change h (set_inode s i _) rfl rfl rfl rfl (fun _ _ _ _ => rfl) (fun _ _ => Iff.rfl)
      (h.locks i) (fun hl => ⟨Nat.succ_pos _,h.loaded i hl⟩) (fun j hj => ?_) ?_ (fun r hr => ?_)
      (fun _ j hj hr he => hj (h.unique j i hr hi.1 he)) (fun _ => h.synced i hi.1),
      tree_congr rfl rfl⟩
    · rw [pins_cons, if_neg (Ne.symm hj), add_zero]
    · have := h.refs i
      rw [pins_cons, if_pos rfl]
      push_cast
      omega
    · rcases Multiset.mem_cons.mp hr with rfl | hr
      · exact .inl ⟨rfl,hi.2⟩
      · by_cases hri : r.1 = i
        · exact .inl ⟨hri,by rw [← h.names r hr, hri]⟩
        · exact .inr ⟨hri,hr⟩
  · rename_i hc
    split
    · rename_i i he
      have hi := List.find?_some he
      simp only [decide_eq_true_eq] at hi
      obtain ⟨htally,hpins,hno⟩ := idle_pins h hi
      have hnot : i ∉ g.locked := fun hl => by have := h.live i hl; omega
      refine ⟨held_change h (set_inode s i _) rfl rfl rfl rfl (fun _ _ _ _ => rfl)
        (fun _ _ => Iff.rfl) (h.locks i) (fun hl => absurd hl hnot) (fun j hj => ?_) ?_
        (fun r hr => ?_) (fun _ j hj hr he => ?_) (fun _ hv => by cases hv),tree_congr rfl rfl⟩
      · rw [pins_cons, if_neg (Ne.symm hj), add_zero]
      · rw [pins_cons, if_pos rfl, hpins, htally]
        simp
      · rcases Multiset.mem_cons.mp hr with rfl | hr
        · exact .inl ⟨rfl,rfl⟩
        · refine .inr ⟨fun hri => hno r.2 ?_,hr⟩
          rw [← hri]
          exact hr
      · have := List.find?_eq_none.mp hc j (List.mem_finRange j)
        simp only [decide_eq_true_eq, not_and] at this
        exact this hr he
    · trivial

theorem idup_spec (h : Held s g) (hm : (i,n) ∈ g.refs) : Does (idup i)
    (fun _ s' => Held s' { g with refs := (i,n) ::ₘ g.refs } ∧ tree s' = tree s) s := by
  have hi := held_ref h hm
  rw [Does, wp_idup]
  refine ⟨held_change h (set_inode s i _) rfl rfl rfl rfl (fun _ _ _ _ => rfl) (fun _ _ => Iff.rfl)
    (h.locks i) (fun hl => ⟨Nat.succ_pos _,h.loaded i hl⟩) (fun j hj => ?_) ?_ (fun r hr => ?_)
    (fun _ j hj hr he => hj (h.unique j i hr hi he)) (fun _ => h.synced i hi),
    tree_congr rfl rfl⟩
  · rw [pins_cons, if_neg (Ne.symm hj), add_zero]
  · have := h.refs i
    rw [pins_cons, if_pos rfl]
    push_cast
    omega
  · rcases Multiset.mem_cons.mp hr with rfl | hr
    · exact .inl ⟨rfl,h.names _ hm⟩
    · by_cases hri : r.1 = i
      · exact .inl ⟨hri,by rw [← h.names r hr, hri]⟩
      · exact .inr ⟨hri,hr⟩

theorem same_names (h : Held s g) {x : Inode} (hx : x.inum = (s.inode i).inum) :
    ∀ r ∈ g.refs, (r.1 = i ∧ x.inum = r.2) ∨ (r.1 ≠ i ∧ r ∈ g.refs) := by
  intro r hr
  by_cases hri : r.1 = i
  · exact .inl ⟨hri,by rw [← h.names r hr, hri, hx]⟩
  · exact .inr ⟨hri,hr⟩

theorem ilock_spec (h : Held s g) (hi : i ∉ g.locked) : Does (ilock i)
    (fun _ s' => Held s' { g with locked := insert i g.locked } ∧ tree s' = tree s) s := by
  have hlock : (s.inode i).lock = none := by rw [h.locks, if_neg hi]
  unfold ilock
  simp only [Does, wp_bind, wp_inode]
  split
  · trivial
  rename_i href
  have hpos : 0 < (s.inode i).ref := by omega
  have hL : ∀ j, j ≠ i → (j ∈ insert i g.locked ↔ j ∈ g.locked) := fun j hj => by simp [hj]
  have hunique : ∀ j, j ≠ i → 0 < (s.inode j).ref → (s.inode j).inum ≠ (s.inode i).inum :=
    fun j hj hr he => hj (h.unique j i hr hpos he)
  rw [wp_bind, wp_acquire_free hlock]
  simp only [wp_bind, wp_inode, set_self]
  split_ifs with hv
  · simp only [load, wp_bind, wp_dinode, wp_set_copy, wp_set_valid, set_self, set_set]
    split_ifs with htype
    · trivial
    · rw [wp_pure]
      refine ⟨held_change h (set_inode s i _) rfl rfl rfl rfl (fun _ _ _ _ => rfl) hL ?_
        (fun _ => ⟨hpos,rfl⟩) (fun _ _ => rfl) (h.refs i) (same_names h rfl) (fun _ => hunique)
        (fun _ _ => ⟨rfl,htype⟩),tree_congr rfl rfl⟩
      simp [h.pid]
  · rw [wp_pure]
    refine ⟨held_change h (set_inode s i _) rfl rfl rfl rfl (fun _ _ _ _ => rfl) hL ?_
      (fun _ => ⟨hpos,by simpa using hv⟩) (fun _ _ => rfl) (h.refs i) (same_names h rfl)
      (fun _ => hunique) (fun _ => h.synced i hpos),tree_congr rfl rfl⟩
    simp [h.pid]

theorem iunlock_spec (h : Held s g) : Does (iunlock i)
    (fun _ s' => i ∈ g.locked ∧ Held s' { g with locked := g.locked.erase i } ∧ tree s' = tree s) s := by
  unfold iunlock
  simp only [Does, wp_bind, wp_inode, wp_holding]
  split
  · trivial
  rename_i hheld
  simp only [decide_eq_false_iff_not, not_or, not_not] at hheld
  obtain ⟨hlock,href⟩ := hheld
  have hpos : 0 < (s.inode i).ref := by omega
  have hi : i ∈ g.locked := by
    by_contra hno
    rw [h.locks, if_neg hno] at hlock
    cases hlock
  rw [wp_release]
  refine ⟨hi,held_change h (set_inode s i _) rfl rfl rfl rfl (fun _ _ _ _ => rfl)
    (fun j hj => by simp [hj]) (by simp) (fun hl => by simp at hl) (fun _ _ => rfl) (h.refs i)
    (same_names h rfl) (fun _ j hj hr he => hj (h.unique j i hr hpos he)) (fun _ => h.synced i hpos),
    tree_congr rfl rfl⟩

theorem held_unref (h : Held s g) {M : Multiset (Slot × ℕ)} (hg : g.refs = (i,n) ::ₘ M)
    (hi : i ∉ g.locked) {x : Inode} (hinode : s'.inode = update s.inode i x)
    (hfile : s'.file = s.file) (hpid : s'.pid = s.pid) (hcwd : s'.cwd = s.cwd)
    (hofile : s'.ofile = s.ofile) (hdisk : ∀ k, k ≠ n → s'.disk k = s.disk k)
    (hnum : x.inum = (s.inode i).inum) (hlock : x.lock = none) (href : x.ref = (s.inode i).ref-1)
    (hsynced : 0 < x.ref → x.valid = true → x.copy = s'.disk x.inum ∧ x.copy.type ≠ 0) :
    Held s' { g with refs := M } := by
  have hm : (i,n) ∈ g.refs := by rw [hg]; exact Multiset.mem_cons_self _ _
  have hpos := held_ref h hm
  have hunique : ∀ j, j ≠ i → 0 < (s.inode j).ref → (s.inode j).inum ≠ (s.inode i).inum :=
    fun j hj hr he => hj (h.unique j i hr hpos he)
  have hn : (s.inode i).inum = n := h.names _ hm
  refine held_change h hinode hfile hpid hcwd hofile
    (fun j hj hr _ => hdisk _ (by rw [← hn]; exact hunique j hj hr)) (fun _ _ => Iff.rfl)
    (by rw [hlock, if_neg hi]) (fun hl => absurd hl hi) (fun j hj => ?_) ?_ (fun r hr => ?_)
    (fun _ j hj hr => ?_) hsynced
  · rw [hg, pins_cons, if_neg (Ne.symm hj), add_zero]
  · have := h.refs i
    rw [hg, pins_cons, if_pos rfl] at this
    rw [href]
    omega
  · exact same_names h hnum r (by rw [hg]; exact Multiset.mem_cons_of_mem hr)
  · rw [hnum]
    exact hunique j hj hr

theorem shrinks_free {d : Dinode} (hdisk : s'.disk = update s.disk n d) (hd : d.type = 0)
    (hdata : ∀ k, k ≠ n → s'.data k = s.data k) : (tree s).Shrinks (tree s') := by
  intro k
  by_cases hk : k = n
  · subst hk
    refine .inl ?_
    simp only [tree, hdisk, update_self]
    exact hd
  · refine .inr ⟨?_,?_⟩
    · simp only [tree, hdisk, update_of_ne hk]
    · simp only [tree, hdisk, update_of_ne hk, hdata k hk]

theorem iput_spec (h : Held s g) {M : Multiset (Slot × ℕ)} (hg : g.refs = (i,n) ::ₘ M)
    (hi : i ∉ g.locked) : Does (iput i)
    (fun _ s' => Held s' { g with refs := M } ∧ (tree s).Shrinks (tree s')) s := by
  have hlock : (s.inode i).lock = none := by rw [h.locks, if_neg hi]
  have hm : (i,n) ∈ g.refs := by rw [hg]; exact Multiset.mem_cons_self _ _
  have hn : (s.inode i).inum = n := h.names _ hm
  have hpos := held_ref h hm
  unfold iput
  rw [Does, wp_bind, wp_acquire_free hlock]
  simp only [reclaim, wp_bind, wp_inode, set_self]
  split
  · simp only [wp_bind, wp_inode, set_self]
    split
    · simp only [itrunc, revise, iupdate, wp_bind, wp_inode, set_self]
      refine wp_free trivial fun B => ?_
      simp only [wp_set_copy, wp_set_dinode, wp_set_valid, wp_release, wp_unref, Fs.set, Fs.setDisk,
        Fs.setData, Fs.setBlocks, update_self, update_idem, hn]
      refine ⟨held_unref h hg hi rfl rfl rfl rfl rfl (fun k hk => update_of_ne hk _ _)
        hn.symm rfl rfl (fun _ hv => by cases hv),shrinks_free rfl rfl ?_⟩
      intro k hk
      exact update_of_ne hk _ _
    · simp only [wp_pure, wp_release, wp_unref, set_self, set_set]
      exact ⟨held_unref h hg hi (set_inode s i _) rfl rfl rfl rfl (fun _ _ => rfl) rfl rfl rfl
        (fun _ => h.synced i hpos),shrinks_refl _⟩
  · simp only [wp_pure, wp_release, wp_unref, set_self, set_set]
    exact ⟨held_unref h hg hi (set_inode s i _) rfl rfl rfl rfl (fun _ _ => rfl) rfl rfl rfl
      (fun _ => h.synced i hpos),shrinks_refl _⟩

theorem iunlockput_spec (h : Held s g) {M : Multiset (Slot × ℕ)} (hg : g.refs = (i,n) ::ₘ M) :
    Does (iunlockput i) (fun _ s' => i ∈ g.locked ∧
      Held s' { g with locked := g.locked.erase i, refs := M } ∧ (tree s).Shrinks (tree s')) s := by
  refine wp_then (iunlock_spec h) ?_
  rintro - s1 ⟨hi,h1,ht⟩
  refine wp_post (iput_spec h1 hg (Finset.notMem_erase i _)) ?_
  rintro - s2 ⟨h2,hs⟩
  rw [ht] at hs
  exact ⟨hi,h2,hs⟩

theorem revise_spec (h : Held s g) (hi : i ∈ g.locked) {f : Dinode → Dinode}
    (hf : ∀ d, (f d).type = d.type) : Does (revise i f) (fun _ s' => Held s' g ∧ s'.data = s.data ∧
      s'.disk = update s.disk (s.inode i).inum (f (s.disk (s.inode i).inum)) ∧
      s'.inode = update s.inode i { s.inode i with copy := f (s.inode i).copy }) s := by
  obtain ⟨hcopy,htype⟩ := held_disk h hi
  have hpos := h.live i hi
  simp only [Does, revise, iupdate, wp_bind, wp_inode, wp_set_copy, wp_set_dinode, set_self]
  refine ⟨?_,rfl,by simp only [Fs.set, Fs.setDisk, hcopy],rfl⟩
  refine held_change h (set_inode s i _) rfl rfl rfl rfl (fun j hj hr _ => ?_)
    (fun _ _ => Iff.rfl) (h.locks i) (fun hl => ⟨h.live i hl,h.loaded i hl⟩) (fun _ _ => rfl)
    (h.refs i) (same_names h rfl) (fun _ j hj hr he => hj (h.unique j i hr hpos he)) (fun _ _ => ?_)
  · exact update_of_ne (fun he => hj (h.unique j i hr hpos he)) _ _
  · refine ⟨?_,by rw [hf]; exact htype⟩
    show f (s.inode i).copy = update s.disk _ (f (s.inode i).copy) (s.inode i).inum
    rw [update_self]

end Xv6.FsInodes

import Xv6.FsDirectories

/-!
# Path lookup follows the tree

A call of `namex` holds one lock at a time. Where it returns an inode, the path
leads there in the tree as it was before, although inodes without links may be
freed on the way: to lock one of them again panics.
-/

set_option autoImplicit false

namespace Xv6.FsPaths
open CommandTree InodeCode FileCalls PathTree FsLedger FsInodes
open FsDirectories

variable {s s' : Fs} {g : Ledger} {t : Tree} {ip : Slot} {n : ℕ} {path : Path} {parent : Bool}

def Leads (g : Ledger) (t : Tree) (goal : Option (ℕ × Name)) (r : Option (Slot × Name))
    (s' : Fs) : Prop :=
  t.Shrinks (tree s') ∧ match r with
    | none => Held s' g ∧ goal = none
    | some (i,name) => ∃ m, Held s' { g with refs := (i,m) ::ₘ g.refs } ∧ goal = some (m,name)

theorem namexFrom_spec {k : ℕ} (hk : path.length < k)
    (h : Held s { g with refs := (ip,n) ::ₘ g.refs }) (hL : g.locked = ∅)
    (ht : t.Shrinks (tree s)) : Does (namexFrom parent k ip path)
      (Leads g t (t.target parent n (elements path))) s := by
  induction k generalizing s ip n path with
  | zero => omega
  | succ k ih =>
    unfold namexFrom
    cases hskip : skipelem path with
    | none =>
      rw [skipelem_none hskip]
      simp only
      split
      · rename_i hpar
        refine wp_then (iput_spec h rfl (by simp [hL])) ?_
        rintro - s1 ⟨h1,t1⟩
        exact ⟨shrinks_trans ht t1,h1,by simp [Tree.target, hpar]⟩
      · rename_i hpar
        exact ⟨ht,n,h,by simp [Tree.target, hpar]⟩
    | some r =>
      obtain ⟨name,rest⟩ := r
      obtain ⟨helem,hlen,hrest⟩ := skipelem_some hskip
      rw [helem]
      simp only
      have hmem : (ip,n) ∈ (ip,n) ::ₘ g.refs := Multiset.mem_cons_self _ _
      refine wp_then (ilock_spec h (by simp [hL])) ?_
      rintro - s1 ⟨h1,t1⟩
      rw [← t1] at ht
      have hback : ∀ {M : Multiset (Slot × ℕ)},
          ({ g with locked := (insert ip g.locked).erase ip, refs := M } : Ledger) =
            { g with refs := M } := by
        intro M
        rw [Finset.erase_insert (by simp [hL])]
      obtain ⟨hentries,hkind,hnz⟩ := entries_locked h1 (Finset.mem_insert_self ip _) hmem
      have hkind' : t.kind n = (s1.inode ip).copy.type :=
        (shrinks_lookup ht hnz name).1.symm.trans hkind
      rw [wp_bind, wp_inode]
      split
      · rename_i hdir
        refine wp_then (iunlockput_spec h1 rfl) ?_
        rintro - s2 ⟨-,h2,t2⟩
        rw [hback] at h2
        exact ⟨shrinks_trans ht t2,h2,by rw [Tree.target, if_neg (by rw [hkind']; exact hdir)]⟩
      · rename_i hdir
        rw [not_not, ← hkind'] at hdir
        split
        · rename_i hpar
          refine wp_then (iunlock_spec h1) ?_
          rintro - s2 ⟨-,h2,t2⟩
          rw [hback] at h2
          rw [← t2] at ht
          exact ⟨ht,n,h2,by rw [Tree.target, if_pos hdir, if_pos ⟨hpar.1,hrest.mp hpar.2⟩]⟩
        · rename_i hpar
          have hgo : ¬ (parent = true ∧ elements rest = []) := fun hc => hpar ⟨hc.1,hrest.mpr hc.2⟩
          refine wp_then (dirlookup_spec h1 (Finset.mem_insert_self ip _) hmem name) ?_
          rintro r s2 ⟨t2,-,hr⟩
          rw [(shrinks_lookup ht hnz name).2] at hr
          rw [← t2] at ht
          cases r with
          | none =>
            obtain ⟨h2,hnone⟩ := hr
            refine wp_then (iunlockput_spec h2 rfl) ?_
            rintro - s3 ⟨-,h3,t3⟩
            rw [hback] at h3
            exact ⟨shrinks_trans ht t3,h3,by rw [Tree.target, if_pos hdir, if_neg hgo, hnone]⟩
          | some r =>
            obtain ⟨next,o⟩ := r
            obtain ⟨m,h2,hsome⟩ := hr
            refine wp_then (iunlockput_spec h2 (Multiset.cons_swap ..)) ?_
            rintro - s3 ⟨-,h3,t3⟩
            rw [hback] at h3
            rw [Tree.target, if_pos hdir, if_neg hgo, hsome]
            exact ih (by omega) h3 (shrinks_trans ht t3)

def origin (s : Fs) (path : Path) : ℕ :=
  if path.headD 0 = slash then ROOTINO
  else match s.cwd with
    | some c => (s.inode c).inum
    | none => 0

/-- The inode that a path leads to; if `parent`, its directory and last name. -/
def goal (s : Fs) (parent : Bool) (path : Path) : Option (ℕ × Name) :=
  (tree s).target parent (origin s path) (elements path)

def Rooted (g : Ledger) : Prop := ∀ c, g.cwd = some c → ∃ m, (c,m) ∈ g.refs

theorem wp_cwd {E : Stop → Prop} {Q : Slot → Fs → Prop} (hE : E .noCwd)
    (hQ : ∀ c, s.cwd = some c → Q c s) : wp alone cwd Q E s := by
  refine (wp_perform (c := Cmd.cwd)).mpr ?_
  simp only [alone]
  cases hc : s.cwd with
  | none => exact hE
  | some c => exact hQ c hc

theorem namex_spec (h : Held s g) (hL : g.locked = ∅) (hroot : Rooted g) (parent : Bool)
    (path : Path) (ht : t.Shrinks (tree s)) : Does (namex path parent)
      (Leads g t (t.target parent (origin s path) (elements path))) s := by
  unfold namex origin
  split
  · refine wp_then (iget_spec h ROOTINO) ?_
    rintro i s1 ⟨h1,t1⟩
    exact namexFrom_spec (Nat.lt_succ_self _) h1 hL (by rw [t1]; exact ht)
  · rw [Does, wp_bind]
    refine wp_cwd trivial (fun c hc => ?_)
    obtain ⟨m,hm⟩ := hroot c (by rw [← h.cwd, hc])
    rw [hc]
    simp only [h.names _ hm]
    refine wp_then (idup_spec h hm) ?_
    rintro - s1 ⟨h1,t1⟩
    exact namexFrom_spec (Nat.lt_succ_self _) h1 hL (by rw [t1]; exact ht)

end Xv6.FsPaths

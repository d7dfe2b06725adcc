import Xv6.FileCalls
import Xv6.PathTree
import Xv6.CodeMachine
import Mathlib.Data.Multiset.Count
import Mathlib.Data.Finset.Insert

/-!
# What a call holds

While a process runs a system call, a ledger says which inodes it has locked and
which references to inodes and files it has. The locks that are taken are those
in the ledger, and there are at least as many references as it says and as the
open files need. A locked inode is the one copy of its inode and agrees with the
disk. Each function of the inode layer changes the ledger in one way.
-/

set_option autoImplicit false

namespace Xv6.FsLedger
open CommandTree InodeCode FileCalls PathTree
open CodeMachine (tally tally_update tally_ge)

structure Ledger where
  pid : ℕ
  locked : Finset Slot
  refs : Multiset (Slot × ℕ)
  files : Multiset FileId
  cwd : Option Slot
  ofile : Fd → Option FileId

def uses (i : Slot) (x : File) : ℤ := if 0 < x.ref ∧ x.type = .inode ∧ x.ip = i then 1 else 0

def pins (m : Multiset (Slot × ℕ)) (i : Slot) : ℤ := (m.countP (fun r => r.1 = i) : ℕ)

structure Held (s : Fs) (g : Ledger) : Prop where
  locks : ∀ i, (s.inode i).lock = if i ∈ g.locked then some g.pid else none
  live : ∀ i ∈ g.locked, 0 < (s.inode i).ref
  loaded : ∀ i ∈ g.locked, (s.inode i).valid = true
  refs : ∀ i, tally (uses i) s.file+pins g.refs i ≤ (s.inode i).ref
  names : ∀ r ∈ g.refs, (s.inode r.1).inum = r.2
  unique : ∀ i j, 0 < (s.inode i).ref → 0 < (s.inode j).ref →
    (s.inode i).inum = (s.inode j).inum → i = j
  synced : ∀ i, 0 < (s.inode i).ref → (s.inode i).valid = true →
    (s.inode i).copy = s.disk (s.inode i).inum ∧ (s.inode i).copy.type ≠ 0
  files : ∀ f, g.files.count f ≤ (s.file f).ref
  closed : ∀ f, (s.file f).ref = 0 → (s.file f).type = .none
  pid : s.pid = g.pid
  cwd : s.cwd = g.cwd
  ofile : s.ofile = g.ofile

def entryAt (bytes : ℕ → Byte) (off : ℕ) : Dirent :=
  .decode ((List.range DIRENT).map (fun k => bytes (off+k)))

def entriesOf (bytes : ℕ → Byte) (size : ℕ) : List Dirent :=
  (List.range (size/DIRENT)).map (fun j => entryAt bytes (j*DIRENT))

def tree (s : Fs) : Tree where
  kind := fun n => (s.disk n).type
  entries := fun n => entriesOf (s.data n) (s.disk n).size

variable {s s' : Fs} {g : Ledger} {i j : Slot} {n : ℕ}

theorem uses_nonneg (i : Slot) (x : File) : 0 ≤ uses i x := by
  unfold uses
  split <;> omega

theorem tally_nonneg (i : Slot) (file : FileId → File) : 0 ≤ tally (uses i) file :=
  (uses_nonneg i (file 0)).trans (tally_ge (uses_nonneg i) 0)

theorem pins_nonneg (m : Multiset (Slot × ℕ)) (i : Slot) : 0 ≤ pins m i := Int.natCast_nonneg _

theorem pins_cons (m : Multiset (Slot × ℕ)) (i j : Slot) (n : ℕ) :
    pins ((i,n) ::ₘ m) j = pins m j+if i = j then 1 else 0 := by
  unfold pins
  rw [Multiset.countP_cons]
  push_cast
  rfl

theorem held_ref (h : Held s g) (hm : (i,n) ∈ g.refs) : 0 < (s.inode i).ref := by
  obtain ⟨m,hm⟩ := Multiset.exists_cons_of_mem hm
  have hr := h.refs i
  rw [hm, pins_cons, if_pos rfl] at hr
  have := tally_nonneg i s.file
  have := pins_nonneg m i
  omega

theorem idle_pins (h : Held s g) (h0 : (s.inode i).ref = 0) :
    tally (uses i) s.file = 0 ∧ pins g.refs i = 0 ∧ ∀ k, (i,k) ∉ g.refs := by
  have hr := h.refs i
  have := tally_nonneg i s.file
  have := pins_nonneg g.refs i
  exact ⟨by omega,by omega,fun k hk => by have := held_ref h hk; omega⟩

theorem held_disk (h : Held s g) (hi : i ∈ g.locked) :
    (s.inode i).copy = s.disk (s.inode i).inum ∧ (s.inode i).copy.type ≠ 0 :=
  h.synced i (h.live i hi) (h.loaded i hi)

theorem held_change (h : Held s g) {x : Inode} {L : Finset Slot} {M : Multiset (Slot × ℕ)}
    (hinode : s'.inode = Function.update s.inode i x) (hfile : s'.file = s.file)
    (hpid : s'.pid = s.pid) (hcwd : s'.cwd = s.cwd) (hofile : s'.ofile = s.ofile)
    (hdisk : ∀ j, j ≠ i → 0 < (s.inode j).ref → (s.inode j).valid = true →
      s'.disk (s.inode j).inum = s.disk (s.inode j).inum)
    (hL : ∀ j, j ≠ i → (j ∈ L ↔ j ∈ g.locked))
    (hlock : x.lock = if i ∈ L then some g.pid else none)
    (hlive : i ∈ L → 0 < x.ref ∧ x.valid = true)
    (hM : ∀ j, j ≠ i → pins M j = pins g.refs j) (hrefs : tally (uses i) s.file+pins M i ≤ x.ref)
    (hnames : ∀ r ∈ M, (r.1 = i ∧ x.inum = r.2) ∨ (r.1 ≠ i ∧ r ∈ g.refs))
    (hunique : 0 < x.ref → ∀ j, j ≠ i → 0 < (s.inode j).ref → (s.inode j).inum ≠ x.inum)
    (hsynced : 0 < x.ref → x.valid = true → x.copy = s'.disk x.inum ∧ x.copy.type ≠ 0) :
    Held s' { g with locked := L, refs := M } := by
  have hself : s'.inode i = x := by rw [hinode, Function.update_self]
  have hother : ∀ j, j ≠ i → s'.inode j = s.inode j := fun j hj => by
    rw [hinode, Function.update_of_ne hj]
  refine ⟨fun j => ?_,fun j hj => ?_,fun j hj => ?_,fun j => ?_,fun r hr => ?_,fun j k hj hk hjk => ?_,
    fun j hj hv => ?_,?_,?_,hpid.trans h.pid,hcwd.trans h.cwd,hofile.trans h.ofile⟩
  · by_cases hji : j = i
    · subst hji
      rw [hself]
      exact hlock
    · rw [hother j hji, h.locks j]
      simp only [hL j hji]
  · by_cases hji : j = i
    · subst hji
      rw [hself]
      exact (hlive hj).1
    · rw [hother j hji]
      exact h.live j ((hL j hji).mp hj)
  · by_cases hji : j = i
    · subst hji
      rw [hself]
      exact (hlive hj).2
    · rw [hother j hji]
      exact h.loaded j ((hL j hji).mp hj)
  · rw [hfile]
    by_cases hji : j = i
    · subst hji
      rw [hself]
      exact hrefs
    · rw [hother j hji]
      simp only [hM j hji]
      exact h.refs j
  · rcases hnames r hr with ⟨hri,hn⟩ | ⟨hri,hn⟩
    · rw [hri, hself]
      exact hn
    · rw [hother r.1 hri]
      exact h.names r hn
  · by_cases hji : j = i
    · subst hji
      by_cases hki : k = j
      · exact hki.symm
      · rw [hself] at hj hjk
        rw [hother k hki] at hk hjk
        exact absurd hjk.symm (hunique hj k hki hk)
    · rw [hother j hji] at hj hjk
      by_cases hki : k = i
      · subst hki
        rw [hself] at hk hjk
        exact absurd hjk (hunique hk j hji hj)
      · rw [hother k hki] at hk hjk
        exact h.unique j k hj hk hjk
  · by_cases hji : j = i
    · subst hji
      rw [hself] at hj hv ⊢
      exact hsynced hj hv
    · rw [hother j hji] at hj hv ⊢
      rw [hdisk j hji hj hv]
      exact h.synced j hj hv
  · rw [hfile]
    exact h.files
  · rw [hfile]
    exact h.closed

end Xv6.FsLedger

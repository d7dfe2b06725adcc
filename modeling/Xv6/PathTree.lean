import Xv6.InodeCode

/-!
# Where a path leads

A file system as a tree of names: the kinds of its inodes and the entries of its
directories. A path is a list of names, and it leads from a directory to an inode
or, one level early, to the directory that is to have its last name. The loop of
`namex` takes a path apart the same way.
-/

set_option autoImplicit false

namespace Xv6.PathTree
open InodeCode

structure Tree where
  kind : ℕ → ℕ
  entries : ℕ → List Dirent

def Matches (name : Name) (de : Dirent) : Prop := de.inum ≠ 0 ∧ namecmp name de.name = 0

instance (name : Name) : DecidablePred (Matches name) := fun de =>
  inferInstanceAs (Decidable (de.inum ≠ 0 ∧ namecmp name de.name = 0))

def Tree.lookup (t : Tree) (d : ℕ) (name : Name) : Option ℕ :=
  ((t.entries d).find? (fun de => Matches name de)).map Dirent.inum

/-- The inode a list of names leads to from `n`; if `parent`, the directory one
level early and the last name. -/
def Tree.target (t : Tree) (parent : Bool) (n : ℕ) : List Name → Option (ℕ × Name)
  | [] => if parent = true then none else some (n,[])
  | e::es =>
    if t.kind n = T_DIR then
      if parent = true ∧ es = [] then some (n,e)
      else match t.lookup n e with
        | some m => t.target parent m es
        | none => none
    else none

def elements (path : Path) : List Name :=
  ((path.splitOnP (· == slash)).filter (· ≠ [])).map (List.take DIRSIZ)

def Tree.Shrinks (t u : Tree) : Prop :=
  ∀ n, u.kind n = 0 ∨ (u.kind n = t.kind n ∧ u.entries n = t.entries n)

def Tree.SameBut (t u : Tree) (n : ℕ) : Prop :=
  ∀ k, k ≠ n → u.kind k = t.kind k ∧ u.entries k = t.entries k

variable {t u v : Tree}

theorem same_lookup {n k : ℕ} (h : t.SameBut u n) (hk : k ≠ n) (name : Name) :
    u.lookup k name = t.lookup k name := by
  rw [Tree.lookup, (h k hk).2, Tree.lookup]

theorem same_trans {n : ℕ} (h : t.SameBut u n) (h' : u.SameBut v n) : t.SameBut v n := fun k hk =>
  ⟨(h' k hk).1.trans (h k hk).1,(h' k hk).2.trans (h k hk).2⟩

theorem shrinks_refl (t : Tree) : t.Shrinks t := fun _ => .inr ⟨rfl,rfl⟩

theorem shrinks_trans (h : t.Shrinks u) (h' : u.Shrinks v) : t.Shrinks v := by
  intro n
  rcases h' n with h0 | ⟨hk,he⟩
  · exact .inl h0
  · rcases h n with h0 | ⟨hk',he'⟩
    · exact .inl (hk.trans h0)
    · exact .inr ⟨hk.trans hk',he.trans he'⟩

theorem shrinks_lookup (h : t.Shrinks u) {n : ℕ} (hn : u.kind n ≠ 0) (name : Name) :
    u.kind n = t.kind n ∧ u.lookup n name = t.lookup n name := by
  obtain ⟨hk,he⟩ := (h n).resolve_left hn
  exact ⟨hk,by rw [Tree.lookup, he, Tree.lookup]⟩

section Names

theorem strncpy_head (k : ℕ) (t : List Byte) : (strncpy (k+1) t).head? = some (t.headD 0) := by
  unfold strncpy
  split_ifs with h0
  · rw [h0]
    rfl
  · rfl

theorem strncpy_length (k : ℕ) (t : List Byte) : (strncpy k t).length = k := by
  induction k generalizing t with
  | zero => rfl
  | succ k ih =>
    unfold strncpy
    split
    · simp
    · simp [ih]

theorem strncpy_inj {k : ℕ} {s t : List Byte} (hs : s.length ≤ k ∧ 0 ∉ s) (ht : t.length ≤ k ∧ 0 ∉ t)
    (h : strncpy k s = strncpy k t) : s = t := by
  induction k generalizing s t with
  | zero =>
    rw [List.length_eq_zero_iff.mp (Nat.le_zero.mp hs.1), List.length_eq_zero_iff.mp (Nat.le_zero.mp ht.1)]
  | succ k ih =>
    have hhead : s.headD 0 = t.headD 0 := by
      have := congrArg List.head? h
      rw [strncpy_head, strncpy_head] at this
      exact Option.some.inj this
    cases s with
    | nil =>
      cases t with
      | nil => rfl
      | cons b t =>
        have hb : 0 = b := hhead
        exact absurd (hb ▸ List.mem_cons_self) ht.2
    | cons a s =>
      have ha : a ≠ 0 := fun h0 => hs.2 (h0 ▸ List.mem_cons_self)
      cases t with
      | nil => exact absurd hhead ha
      | cons b t =>
        have hab : a = b := hhead
        subst hab
        have hcopy : ∀ r, strncpy (k+1) (a::r) = a::strncpy k r := fun r => if_neg ha
        rw [hcopy, hcopy] at h
        rw [ih ⟨Nat.le_of_succ_le_succ hs.1,fun hm => hs.2 (List.mem_cons_of_mem _ hm)⟩
          ⟨Nat.le_of_succ_le_succ ht.1,fun hm => ht.2 (List.mem_cons_of_mem _ hm)⟩ (List.cons.inj h).2]

theorem strncmp_zero (k : ℕ) (s t : List Byte) : strncmp k s t = 0 ↔ strncpy k s = strncpy k t := by
  induction k generalizing s t with
  | zero => simp [strncmp, strncpy]
  | succ k ih =>
    by_cases hst : s.headD 0 = t.headD 0
    · unfold strncmp strncpy
      rw [hst]
      by_cases h0 : t.headD 0 = 0
      · simp only [h0, ne_eq, not_true_eq_false, false_and, if_false, if_true, Int.sub_self]
      · simp only [h0, ne_eq, not_false_eq_true, and_self, if_true, if_false, List.cons.injEq,
          true_and]
        exact ih _ _
    · have hcmp : strncmp (k+1) s t = (s.headD 0).toNat-(t.headD 0).toNat :=
        if_neg (fun h => hst h.2)
      constructor
      · intro h
        rw [hcmp] at h
        exact absurd (UInt8.toNat_inj.mp (by omega)) hst
      · intro h
        have hhead := congrArg List.head? h
        rw [strncpy_head, strncpy_head] at hhead
        exact absurd (Option.some.inj hhead) hst

theorem strncpy_twice (k : ℕ) (t : List Byte) : strncpy k (strncpy k t) = strncpy k t := by
  induction k generalizing t with
  | zero => rfl
  | succ k ih =>
    by_cases h0 : t.headD 0 = 0
    · have hcopy : strncpy (k+1) t = List.replicate (k+1) 0 := if_pos h0
      rw [hcopy]
      exact if_pos rfl
    · have hcopy : strncpy (k+1) t = t.headD 0::strncpy k t.tail := if_neg h0
      rw [hcopy]
      refine (if_neg h0).trans ?_
      rw [List.tail_cons, ih]
      rfl

theorem namecmp_zero {s t : Name} : namecmp s t = 0 ↔ strncpy DIRSIZ s = strncpy DIRSIZ t :=
  strncmp_zero DIRSIZ s t

theorem namecmp_stored (s t : Name) : namecmp s (strncpy DIRSIZ t) = 0 ↔ namecmp s t = 0 := by
  rw [namecmp_zero, namecmp_zero, strncpy_twice]

theorem decode_encode (inum : ℕ) (name : Name) :
    Dirent.decode (Dirent.encode ⟨inum,name⟩) = ⟨inum%65536,name⟩ := by
  have h : inum%256+256*(inum/256%256) = inum%65536 := by omega
  simp [Dirent.decode, Dirent.encode, h]

end Names

section Elements
variable {path : Path}

theorem elements_slash (path : Path) : elements (slash::path) = elements path := by
  simp [elements, List.splitOnP_cons_eq_if_modifyHead]

theorem elements_drop (path : Path) : elements (path.dropWhile (· == slash)) = elements path := by
  induction path with
  | nil => rfl
  | cons c path ih =>
    by_cases hc : c = slash
    · subst hc
      rw [List.dropWhile_cons_of_pos (by simp), ih, elements_slash]
    · rw [List.dropWhile_cons_of_neg (by simpa using hc)]

theorem elements_append {e rest : Path} (he : e ≠ []) (hs : ∀ c ∈ e, c ≠ slash) :
    elements (e++slash::rest) = e.take DIRSIZ::elements rest := by
  unfold elements
  rw [List.splitOnP_append_cons_of_forall_mem (by simpa using hs) _ (by simp)]
  simp [he]

theorem elements_single {e : Path} (he : e ≠ []) (hs : ∀ c ∈ e, c ≠ slash) :
    elements e = [e.take DIRSIZ] := by
  unfold elements
  rw [List.splitOnP_eq_singleton (by simpa using hs)]
  simp [he]

theorem drop_head {c : Byte} {rest : Path} (h : path.dropWhile (· == slash) = c::rest) :
    c ≠ slash := by
  have := List.head?_dropWhile_not (· == slash) path
  rw [h] at this
  simpa using this

theorem elements_nil : elements path = [] ↔ path.dropWhile (· == slash) = [] := by
  rw [← elements_drop]
  cases hd : path.dropWhile (· == slash) with
  | nil => exact ⟨fun _ => rfl,fun _ => rfl⟩
  | cons c q =>
    obtain ⟨x,xs,hq⟩ := List.exists_cons_of_ne_nil
      (List.splitOnP_ne_nil (fun a => a == slash) q)
    simp [elements, List.splitOnP_cons_eq_if_modifyHead, drop_head hd, hq]

theorem skipelem_none (h : skipelem path = none) : elements path = [] := by
  simp only [skipelem] at h
  split at h
  · rename_i hnil
    exact elements_nil.mpr hnil
  · cases h

theorem skipelem_some {name : Name} {rest : Path} (h : skipelem path = some (name,rest)) :
    elements path = name::elements rest ∧ rest.length < path.length ∧
      (rest = [] ↔ elements rest = []) := by
  simp only [skipelem] at h
  split at h
  · cases h
  rename_i hne
  obtain ⟨c,q,hp⟩ := List.exists_cons_of_ne_nil hne
  rw [hp] at h
  cases h
  have hsplit := List.takeWhile_append_dropWhile (p := fun a => a != slash) (l := c::q)
  have he : (c::q).takeWhile (· != slash) ≠ [] := by
    simp [drop_head hp]
  have hs : ∀ a ∈ (c::q).takeWhile (· != slash), a ≠ slash := by
    intro a ha
    have := List.all_eq_true.mp (List.all_takeWhile (p := fun a => a != slash) (l := c::q)) a ha
    simpa using this
  refine ⟨?_,?_,?_⟩
  · rw [elements_drop, ← elements_drop path, hp]
    cases hd : (c::q).dropWhile (· != slash) with
    | nil =>
      rw [hd, List.append_nil] at hsplit
      have hone := elements_single he hs
      rw [hsplit] at hone ⊢
      rw [hone]
      rfl
    | cons a r =>
      have ha : a = slash := by
        have := List.head?_dropWhile_not (fun a => a != slash) (c::q)
        rw [hd] at this
        simpa using this
      rw [hd, ha] at hsplit
      have htwo : elements (_++slash::r) = _ := elements_append he hs
      rw [hsplit] at htwo
      rw [htwo, ha, elements_slash]
  · have hpath := (List.dropWhile_sublist (l := path) (· == slash)).length_le
    have hrest := (List.dropWhile_sublist (l := (c::q).dropWhile (· != slash)) (· == slash)).length_le
    have hlen := congrArg List.length hsplit
    have hpos := List.length_pos_iff.mpr he
    rw [List.length_append] at hlen
    rw [hp] at hpath
    omega
  · rw [elements_drop]
    exact elements_nil.symm

end Elements

end Xv6.PathTree

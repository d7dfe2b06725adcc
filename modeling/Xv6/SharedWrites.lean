import Xv6.FileCalls
import Xv6.TransitionSystem

/-!
# Writers of one open file

Any number of processes call `filewrite` on one `struct file` of a regular file. A step
is a test, a round of the loop of `writei`, a store to the size or to `f->off`, or taking
or releasing the inode's lock. The inode's blocks are its bytes; what `begin_op` and
`end_op` do is left out.
-/

set_option autoImplicit false

namespace Xv6.SharedWrites
open TransitionSystem InodeCode FileCalls

structure Shared where
  data : ℕ → Byte
  size : ℕ
  off : ℕ

/-- Where a process is in `filewrite`: `n` is its argument and `rest` the bytes from
`addr + i` on. In `copy` and `sizing` are the variables of `writei`, and `r` is what it
has returned. -/
inductive Point where
  | idle
  | loop (n : ℕ) (rest : List Byte)
  | ilock (n : ℕ) (rest : List Byte)
  | writei (n : ℕ) (rest : List Byte)
  | copy (n : ℕ) (rest : List Byte) (off tot : ℕ)
  | sizing (n : ℕ) (rest : List Byte) (off : ℕ)
  | advance (n : ℕ) (rest : List Byte) (r : ℤ)
  | iunlock (n : ℕ) (rest : List Byte) (r : ℤ)
  | endOp (n : ℕ) (rest : List Byte) (r : ℤ)
  | ret (v : ℤ)
  deriving DecidableEq

inductive Mark where
  | call (bytes : List Byte)
  | chunk (bytes : List Byte)
  | ret (v : ℤ)
  deriving DecidableEq

structure State (ι : Type) where
  shared : Shared
  lock : Option ι
  point : ι → Point

inductive Label (ι : Type) where
  | call (p : ι) (bytes : List Byte)
  | go (p : ι)

/-- The bytes of one round of `filewrite`. -/
def chunk (rest : List Byte) : List Byte := rest.take CHUNK

/-- One round of the loop of `writei`: the bytes that go into one block. -/
def block (off tot : ℕ) (bytes : List Byte) : List Byte :=
  (bytes.drop tot).take (min (bytes.length-tot) (BSIZE-off%BSIZE))

def lockedStep (m : Shared) : Point → Option (Shared × Point × List Mark)
  | .writei n rest =>
    if m.size < m.off ∨ (m.off+(chunk rest).length)%WORD < m.off then some (m,.advance n rest (-1),[])
    else if MAXFILE*BSIZE < m.off+(chunk rest).length then some (m,.advance n rest (-1),[])
    else some (m,.copy n rest m.off 0,[])
  | .copy n rest off tot =>
    if tot < (chunk rest).length then
      let new := block off tot (chunk rest)
      some ({ m with data := splice m.data off new },.copy n rest (off+new.length) (tot+new.length),[])
    else some (m,.sizing n rest off,[])
  | .sizing n rest off =>
    let r := (chunk rest).length
    if 0 < r ∧ m.size < off then some ({ m with size := off },.advance n rest r,[])
    else some (m,.advance n rest r,[])
  | .advance n rest r =>
    if 0 < r then some ({ m with off := m.off+r.toNat },.iunlock n rest r,[.chunk (chunk rest)])
    else some (m,.iunlock n rest r,[])
  | _ => none

def freeStep : Point → Option (Point × List Mark)
  | .loop n rest => if rest = [] then some (.ret n,[]) else some (.ilock n rest,[])
  | .endOp n rest r =>
    if r < 0 then some (.ret (-1),[])
    else if r ≠ (chunk rest).length then none
    else some (.loop n (rest.drop r.toNat),[])
  | .ret v => some (.idle,[.ret v])
  | _ => none

variable {ι : Type} [DecidableEq ι]

def State.set (s : State ι) (p : ι) (x : Point) : State ι :=
  { s with point := Function.update s.point p x }

def step (s : State ι) : Label ι → Option (State ι × List (ι × Mark))
  | .call p bytes =>
    if s.point p = .idle then some (s.set p (.loop bytes.length bytes),[(p,.call bytes)]) else none
  | .go p => match s.point p with
    | .ilock n rest =>
      if s.lock = none then some ({ s with lock := some p }.set p (.writei n rest),[]) else none
    | .iunlock n rest r => some ({ s with lock := none }.set p (.endOp n rest r),[])
    | x => match lockedStep s.shared x with
      | some (m,y,o) => some ({ s with shared := m }.set p y,o.map (Prod.mk p))
      | none => (freeStep x).map (fun r => (s.set p r.1,r.2.map (Prod.mk p)))

def writers (m : Shared) : System (State ι) (Label ι) (ι × Mark) := ⟨⟨m,none,fun _ => .idle⟩,step⟩

def fits (m : Shared) : Point → Bool
  | .writei _ rest => m.off+(chunk rest).length ≤ MAXFILE*BSIZE
  | _ => true

def Within (s : State ι) : Label ι → Prop
  | .go p => fits s.shared (s.point p) = true
  | .call _ _ => True

instance (s : State ι) : (l : Label ι) → Decidable (Within s l)
  | .go p => inferInstanceAs (Decidable (fits s.shared (s.point p) = true))
  | .call _ _ => isTrue trivial

def holds : Point → Bool
  | .writei _ _ | .copy _ _ _ _ | .sizing _ _ _ | .advance _ _ _ | .iunlock _ _ _ => true
  | _ => false

inductive Turn (s : State ι) : Label ι → State ι → List (ι × Mark) → Prop
  | call {p : ι} {bytes : List Byte} (idle : s.point p = .idle) :
      Turn s (.call p bytes) (s.set p (.loop bytes.length bytes)) [(p,.call bytes)]
  | ilock {p : ι} {n : ℕ} {rest : List Byte} (here : s.point p = .ilock n rest) (free : s.lock = none) :
      Turn s (.go p) ({ s with lock := some p }.set p (.writei n rest)) []
  | iunlock {p : ι} {n : ℕ} {rest : List Byte} {r : ℤ} (here : s.point p = .iunlock n rest r) :
      Turn s (.go p) ({ s with lock := none }.set p (.endOp n rest r)) []
  | locked {p : ι} {m : Shared} {y : Point} {o : List Mark}
      (next : lockedStep s.shared (s.point p) = some (m,y,o)) :
      Turn s (.go p) ({ s with shared := m }.set p y) (o.map (Prod.mk p))
  | free {p : ι} {y : Point} {o : List Mark} (next : freeStep (s.point p) = some (y,o)) :
      Turn s (.go p) (s.set p y) (o.map (Prod.mk p))

theorem step_turn {s s' : State ι} {l : Label ι} {o : List (ι × Mark)} (h : step s l = some (s',o)) :
    Turn s l s' o := by
  cases l with
  | call p bytes =>
    simp only [step] at h
    split at h <;> cases h
    exact .call (by assumption)
  | go p =>
    simp only [step] at h
    split at h
    · rename_i n rest here
      split at h <;> cases h
      exact .ilock here (by assumption)
    · rename_i here
      cases h
      exact .iunlock here
    · rename_i hl hu
      split at h
      · rename_i m y o' hnext
        cases h
        exact .locked hnext
      · obtain ⟨⟨y,o'⟩,hnext,heq⟩ := Option.map_eq_some_iff.mp h
        cases heq
        exact .free hnext

def markBytes : Mark → List Byte
  | .chunk bytes => bytes
  | _ => []

def written (tr : List (ι × Mark)) : List Byte := tr.flatMap (fun e => markBytes e.2)

def copied : Point → List Byte
  | .copy _ rest _ tot => (chunk rest).take tot
  | .sizing _ rest _ | .advance _ rest _ => chunk rest
  | _ => []

def ahead : Point → ℕ
  | .advance _ rest _ => (chunk rest).length
  | _ => 0

def Fine (m : Shared) : Point → Prop
  | .ilock _ rest | .writei _ rest => rest ≠ []
  | .copy _ rest off tot => rest ≠ [] ∧ tot ≤ (chunk rest).length ∧ off = m.off+tot
  | .sizing _ rest off => rest ≠ [] ∧ off = m.off+(chunk rest).length
  | .advance _ rest r | .iunlock _ rest r | .endOp _ rest r => rest ≠ [] ∧ r = (chunk rest).length
  | _ => True

theorem splice_append (bytes : ℕ → Byte) (off : ℕ) (xs ys : List Byte) :
    splice (splice bytes off xs) (off+xs.length) ys = splice bytes off (xs++ys) := by
  funext k
  simp only [splice, List.length_append, List.getD_eq_getElem?_getD]
  by_cases hlow : off ≤ k ∧ k < off+xs.length
  · rw [if_neg (by omega), if_pos hlow, if_pos (by omega), List.getElem?_append_left (by omega)]
  · by_cases hhigh : off+xs.length ≤ k ∧ k < off+xs.length+ys.length
    · rw [if_pos hhigh, if_pos (by omega), List.getElem?_append_right (by omega), Nat.sub_add_eq]
    · rw [if_neg hhigh, if_neg hlow, if_neg (by omega)]

theorem chunk_pos {rest : List Byte} (h : rest ≠ []) : 0 < (chunk rest).length := by
  rw [chunk, List.length_take]
  have := List.length_pos_iff.mpr h
  simp only [CHUNK]
  omega

theorem block_copies {off tot : ℕ} {bytes : List Byte} (h : tot ≤ bytes.length) :
    bytes.take tot++block off tot bytes = bytes.take (tot+(block off tot bytes).length) ∧
      tot+(block off tot bytes).length ≤ bytes.length := by
  have hlen : (block off tot bytes).length = min (bytes.length-tot) (BSIZE-off%BSIZE) := by
    rw [block, List.length_take, List.length_drop]
    omega
  rw [hlen, block, List.take_add]
  exact ⟨rfl,by omega⟩

theorem locked_keeps {m m' : Shared} {x y : Point} {o : List Mark} (h : lockedStep m x = some (m',y,o))
    (hx : Fine m x) (hin : m.off ≤ m.size) (hmax : fits m x = true) :
    Fine m' y ∧ holds x = true ∧ holds y = true ∧ m'.off = m.off+(o.flatMap markBytes).length ∧
      (∀ (bytes : ℕ → Byte) (off : ℕ) (out : List Byte), off+out.length = m.off →
        m.data = splice bytes off (out++copied x) →
        m'.data = splice bytes off (out++o.flatMap markBytes++copied y)) ∧
      (∀ z, m.size = max z (m.off+ahead x) → m'.size = max z (m'.off+ahead y)) := by
  cases x with
  | writei n rest =>
    have hfits : m.off+(chunk rest).length ≤ MAXFILE*BSIZE := of_decide_eq_true hmax
    have hsmall : (m.off+(chunk rest).length)%WORD = m.off+(chunk rest).length := by
      refine Nat.mod_eq_of_lt ?_
      simp only [MAXFILE, BSIZE, WORD] at hfits ⊢
      omega
    simp only [lockedStep, hsmall] at h
    rw [if_neg (by omega), if_neg (by omega)] at h
    cases h
    refine ⟨⟨hx,Nat.zero_le _,rfl⟩,rfl,rfl,rfl,fun bytes off out _ hd => ?_,fun z hz => hz⟩
    rw [hd]
    simp [copied]
  | copy n rest off tot =>
    obtain ⟨hne,htot,rfl⟩ := hx
    simp only [lockedStep] at h
    split at h
    · cases h
      obtain ⟨hcopy,hle⟩ := @block_copies (m.off+tot) _ _ htot
      refine ⟨⟨hne,hle,by simp only; omega⟩,rfl,rfl,rfl,fun bytes off out ho hd => ?_,fun z hz => hz⟩
      have hlen : off+(out++(chunk rest).take tot).length = m.off+tot := by
        rw [List.length_append, List.length_take]
        omega
      simp only [hd, copied, List.flatMap_nil, List.append_nil, ← hcopy]
      rw [← hlen, splice_append, List.append_assoc]
    · cases h
      have hall : tot = (chunk rest).length := by omega
      refine ⟨⟨hne,by rw [hall]⟩,rfl,rfl,rfl,fun bytes off out _ hd => ?_,fun z hz => hz⟩
      rw [hd]
      simp [copied, hall]
  | sizing n rest off =>
    obtain ⟨hne,rfl⟩ := hx
    have hpos := chunk_pos hne
    simp only [lockedStep] at h
    split at h <;> rename_i hsize <;> cases h
    · refine ⟨⟨hne,rfl⟩,rfl,rfl,rfl,fun bytes off out _ hd => ?_,fun z hz => ?_⟩
      · simpa [copied] using hd
      · simp only [ahead] at hz ⊢
        omega
    · refine ⟨⟨hne,rfl⟩,rfl,rfl,rfl,fun bytes off out _ hd => ?_,fun z hz => ?_⟩
      · simpa [copied] using hd
      · simp only [ahead] at hz ⊢
        omega
  | advance n rest r =>
    obtain ⟨hne,rfl⟩ := hx
    have hpos := chunk_pos hne
    simp only [lockedStep] at h
    rw [if_pos (by omega)] at h
    cases h
    refine ⟨⟨hne,rfl⟩,rfl,rfl,?_,fun bytes off out _ hd => ?_,fun z hz => ?_⟩
    · simp [markBytes]
    · simpa [copied, markBytes] using hd
    · simp only [ahead, Int.toNat_natCast] at hz ⊢
      omega
  | _ => cases h

def chunksFrom : ℕ → List Byte → List (List Byte)
  | 0, _ => []
  | k+1, bytes => if bytes = [] then [] else chunk bytes::chunksFrom k (bytes.drop CHUNK)

def chunks (bytes : List Byte) : List (List Byte) := chunksFrom bytes.length bytes

def served (bytes : List Byte) : List Mark :=
  .call bytes::((chunks bytes).map .chunk++[.ret bytes.length])

def marks (p : ι) (tr : List (ι × Mark)) : List Mark := (tr.filter (fun e => e.1 = p)).map Prod.snd

theorem chunks_from_enough {k : ℕ} {bytes : List Byte} (h : bytes.length ≤ k) :
    chunksFrom k bytes = chunks bytes := by
  suffices hsame : ∀ k j (bytes : List Byte), bytes.length ≤ k → bytes.length ≤ j →
      chunksFrom k bytes = chunksFrom j bytes from hsame _ _ bytes h (Nat.le_refl _)
  intro k
  induction k with
  | zero =>
    intro j bytes hk _
    cases List.length_eq_zero_iff.mp (Nat.le_zero.mp hk)
    cases j <;> simp [chunksFrom]
  | succ k ih =>
    intro j bytes hk hj
    cases j with
    | zero =>
      cases List.length_eq_zero_iff.mp (Nat.le_zero.mp hj)
      simp [chunksFrom]
    | succ j =>
      rw [chunksFrom, chunksFrom]
      split_ifs with hne
      · rfl
      · have hpos := List.length_pos_iff.mpr hne
        refine congrArg _ (ih j _ ?_ ?_) <;> rw [List.length_drop] <;> simp only [CHUNK] <;> omega

theorem chunks_nil : chunks [] = [] := rfl

theorem chunks_cons {bytes : List Byte} (h : bytes ≠ []) :
    chunks bytes = chunk bytes::chunks (bytes.drop CHUNK) := by
  have hpos := List.length_pos_iff.mpr h
  obtain ⟨k,hk⟩ : ∃ k, bytes.length = k+1 := ⟨bytes.length-1,by omega⟩
  have hdrop : (bytes.drop CHUNK).length ≤ k := by
    rw [List.length_drop]
    simp only [CHUNK]
    omega
  rw [chunks, hk, chunksFrom, if_neg h, chunks_from_enough hdrop]

theorem chunks_small {bytes : List Byte} (h : bytes ≠ []) (hsmall : bytes.length ≤ CHUNK) :
    chunks bytes = [bytes] := by
  rw [chunks_cons h, chunk, List.take_of_length_le hsmall, List.drop_of_length_le hsmall, chunks_nil]

theorem chunks_cut (bytes : List Byte) :
    (chunks bytes).flatten = bytes ∧ ∀ c ∈ chunks bytes, c.length ≤ CHUNK := by
  suffices hk : ∀ k (bytes : List Byte), bytes.length ≤ k →
      (chunks bytes).flatten = bytes ∧ ∀ c ∈ chunks bytes, c.length ≤ CHUNK from hk _ bytes (Nat.le_refl _)
  intro k
  induction k with
  | zero =>
    intro bytes hlen
    cases List.length_eq_zero_iff.mp (Nat.le_zero.mp hlen)
    exact ⟨rfl,fun c hc => nomatch hc⟩
  | succ k ih =>
    intro bytes hlen
    by_cases hne : bytes = []
    · subst hne
      exact ⟨rfl,fun c hc => nomatch hc⟩
    obtain ⟨hflat,hsmall⟩ := ih (bytes.drop CHUNK) (by
      have := List.length_pos_iff.mpr hne
      rw [List.length_drop]
      simp only [CHUNK]
      omega)
    rw [chunks_cons hne]
    refine ⟨by rw [List.flatten_cons, hflat, chunk, List.take_append_drop],fun c hc => ?_⟩
    rcases List.mem_cons.mp hc with rfl | hc
    · exact List.length_take_le _ _
    · exact hsmall c hc

def Reached (h : List Mark) (n : ℕ) (rest : List Byte) : Prop :=
  ∃ (calls : List (List Byte)) (bytes : List Byte) (done : List (List Byte)),
    h = calls.flatMap served++.call bytes::done.map .chunk ∧ n = bytes.length ∧
      chunks bytes = done++chunks rest

def Told (h : List Mark) : Point → Prop
  | .idle => ∃ calls : List (List Byte), h = calls.flatMap served
  | .loop n rest | .ilock n rest | .writei n rest | .copy n rest _ _ | .sizing n rest _
  | .advance n rest _ => Reached h n rest
  | .iunlock n rest _ | .endOp n rest _ => Reached h n (rest.drop CHUNK)
  | .ret v => ∃ n : ℕ, v = n ∧ Reached h n []

def InOrder (h : List Mark) : Prop :=
  ∃ (calls : List (List Byte)) (bytes : List Byte) (rest : List Mark),
    h = calls.flatMap served++rest ∧ rest <+: served bytes

theorem told_in_order {h : List Mark} {x : Point} (hx : Told h x) : InOrder h := by
  have hreached : ∀ {n rest}, Reached h n rest → InOrder h := by
    rintro n rest ⟨calls,bytes,done,hh,-,hdone⟩
    refine ⟨calls,bytes,_,hh,?_⟩
    rw [served, hdone, List.map_append, List.append_assoc]
    exact List.prefix_append (_::_) _
  cases x with
  | idle =>
    obtain ⟨calls,hh⟩ := hx
    exact ⟨calls,[],[],by rw [hh, List.append_nil],List.nil_prefix⟩
  | ret v =>
    obtain ⟨n,-,hn⟩ := hx
    exact hreached hn
  | _ => exact hreached hx

theorem reached_chunk {h : List Mark} {n : ℕ} {rest : List Byte} (hne : rest ≠ []) (hr : Reached h n rest) :
    Reached (h++[.chunk (chunk rest)]) n (rest.drop CHUNK) := by
  obtain ⟨calls,bytes,done,rfl,hn,hdone⟩ := hr
  refine ⟨calls,bytes,done++[chunk rest],?_,hn,?_⟩
  · simp
  · rw [hdone, chunks_cons hne]
    simp

theorem locked_told {m m' : Shared} {x y : Point} {o h : List Mark}
    (hs : lockedStep m x = some (m',y,o)) (hx : Fine m x) (ht : Told h x) : Told (h++o) y := by
  cases x with
  | writei n rest =>
    simp only [lockedStep] at hs
    rw [← List.append_nil h] at ht
    split at hs
    · cases hs
      exact ht
    · split at hs <;> cases hs <;> exact ht
  | copy n rest off tot =>
    rw [← List.append_nil h] at ht
    simp only [lockedStep] at hs
    split at hs <;> cases hs <;> exact ht
  | sizing n rest off =>
    rw [← List.append_nil h] at ht
    simp only [lockedStep] at hs
    split at hs <;> cases hs <;> exact ht
  | advance n rest r =>
    obtain ⟨hne,rfl⟩ := hx
    have hpos := chunk_pos hne
    simp only [lockedStep] at hs
    rw [if_pos (by omega)] at hs
    cases hs
    exact reached_chunk hne ht
  | _ => cases hs

theorem free_told {m : Shared} {x y : Point} {o h : List Mark} (hs : freeStep x = some (y,o))
    (hx : Fine m x) (ht : Told h x) : Told (h++o) y ∧ Fine m y ∧ holds x = false ∧ holds y = false := by
  cases x with
  | loop n rest =>
    simp only [freeStep] at hs
    split at hs <;> rename_i hrest <;> cases hs
    · rw [List.append_nil]
      subst hrest
      exact ⟨⟨n,rfl,ht⟩,trivial,rfl,rfl⟩
    · rw [List.append_nil]
      exact ⟨ht,hrest,rfl,rfl⟩
  | endOp n rest r =>
    obtain ⟨hne,rfl⟩ := hx
    simp only [freeStep] at hs
    rw [if_neg (by omega), if_neg (by simp)] at hs
    cases hs
    refine ⟨?_,trivial,rfl,rfl⟩
    have hdrop : rest.drop (chunk rest).length = rest.drop CHUNK := by
      rw [chunk, List.length_take]
      by_cases hle : CHUNK ≤ rest.length
      · rw [Nat.min_eq_left hle]
      · rw [Nat.min_eq_right (by omega), List.drop_length, List.drop_of_length_le (by omega)]
    rw [List.append_nil, Int.toNat_natCast, hdrop]
    exact ht
  | ret v =>
    cases hs
    obtain ⟨n,rfl,calls,bytes,done,rfl,rfl,hdone⟩ := ht
    rw [chunks_nil, List.append_nil] at hdone
    exact ⟨⟨calls++[bytes],by simp [served, hdone]⟩,trivial,rfl,rfl⟩
  | _ => cases hs

theorem free_unmarked {x y : Point} {o : List Mark} (hs : freeStep x = some (y,o)) :
    o.flatMap markBytes = [] := by
  cases x with
  | loop n rest =>
    simp only [freeStep] at hs
    split at hs <;> cases hs <;> rfl
  | endOp n rest r =>
    simp only [freeStep] at hs
    split at hs
    · cases hs
      rfl
    · split at hs <;> cases hs
      rfl
  | ret v =>
    cases hs
    rfl
  | _ => cases hs

theorem fine_unheld {m m' : Shared} {x : Point} (h : holds x = false) (hx : Fine m x) : Fine m' x := by
  cases x with
  | copy | sizing => cases h
  | _ => exact hx

def part (s : State ι) : List Byte := match s.lock with
  | some p => copied (s.point p)
  | none => []

def lead (s : State ι) : ℕ := match s.lock with
  | some p => ahead (s.point p)
  | none => 0

omit [DecidableEq ι] in
theorem written_append (tr : List (ι × Mark)) (p : ι) (o : List Mark) :
    written (tr++o.map (Prod.mk p)) = written tr++o.flatMap markBytes := by
  rw [written, written, List.flatMap_append, List.flatMap_map]

theorem marks_append (tr : List (ι × Mark)) (p q : ι) (o : List Mark) :
    marks q (tr++o.map (Prod.mk p)) = marks q tr++(if p = q then o else []) := by
  rw [marks, marks, List.filter_append, List.map_append]
  congr 1
  split
  · rename_i heq
    subst heq
    rw [List.filter_eq_self.mpr (by simp), List.map_map]
    exact List.map_id _
  · rename_i hne
    rw [List.filter_eq_nil_iff.mpr (by simp [hne]), List.map_nil]

structure Kept (m : Shared) (tr : List (ι × Mark)) (s : State ι) : Prop where
  owner : ∀ p, s.lock = some p ↔ holds (s.point p) = true
  off : s.shared.off = m.off+(written tr).length
  data : s.shared.data = splice m.data m.off (written tr++part s)
  size : s.shared.size = max m.size (s.shared.off+lead s)
  fine : ∀ p, Fine s.shared (s.point p)
  told : ∀ p, Told (marks p tr) (s.point p)

theorem set_point_same (s : State ι) (p : ι) (x : Point) : (s.set p x).point p = x :=
  Function.update_self _ _ _

theorem set_point_other (s : State ι) {p q : ι} (x : Point) (h : q ≠ p) : (s.set p x).point q = s.point q :=
  Function.update_of_ne h _ _

theorem kept_set {m : Shared} {tr : List (ι × Mark)} {s t : State ι} {p : ι} {y : Point} {o : List Mark}
    (h : Kept m tr s) (hpoint : t.point = s.point) (hp : t.lock = some p ↔ holds y = true)
    (hq : ∀ q, q ≠ p → (t.lock = some q ↔ s.lock = some q))
    (hshared : t.shared = s.shared ∨ s.lock = some p) (hfine : Fine t.shared y)
    (htold : Told (marks p tr++o) y) (hoff : t.shared.off = s.shared.off+(o.flatMap markBytes).length)
    (hdata : t.shared.data = splice m.data m.off (written tr++o.flatMap markBytes++part (t.set p y)))
    (hsize : t.shared.size = max m.size (t.shared.off+lead (t.set p y))) :
    Kept m (tr++o.map (Prod.mk p)) (t.set p y) := by
  have hother : ∀ q, q ≠ p → (t.set p y).point q = s.point q := fun q hne => by
    rw [set_point_other t y hne, hpoint]
  refine ⟨fun q => ?_,?_,?_,hsize,fun q => ?_,fun q => ?_⟩
  · by_cases hne : q = p
    · rw [hne, set_point_same]
      exact hp
    · rw [hother q hne]
      exact (hq q hne).trans (h.owner q)
  · rw [written_append, List.length_append, ← Nat.add_assoc, ← h.off]
    exact hoff
  · rw [written_append]
    exact hdata
  · by_cases hne : q = p
    · rw [hne, set_point_same]
      exact hfine
    · rw [hother q hne]
      rcases hshared with hs | hs
      · exact (congrArg (fun x => Fine x (s.point q)) hs).mpr (h.fine q)
      · refine fine_unheld (Bool.eq_false_iff.mpr (fun hheld => hne ?_)) (h.fine q)
        exact Option.some.inj (((h.owner q).mpr hheld).symm.trans hs)
  · rw [marks_append]
    by_cases hne : q = p
    · rw [hne, set_point_same, if_pos rfl]
      exact htold
    · rw [hother q hne, if_neg (Ne.symm hne), List.append_nil]
      exact h.told q

theorem kept_unheld {m : Shared} {tr : List (ι × Mark)} {s : State ι} {p : ι} {y : Point} {o : List Mark}
    (h : Kept m tr s) (hx : holds (s.point p) = false) (hy : holds y = false) (hfine : Fine s.shared y)
    (hnone : o.flatMap markBytes = []) (htold : Told (marks p tr++o) y) :
    Kept m (tr++o.map (Prod.mk p)) (s.set p y) := by
  have hfree : s.lock ≠ some p := fun hp => by simp [(h.owner p).mp hp] at hx
  have hsame : ∀ q, s.lock = some q → (s.set p y).point q = s.point q := fun q hq =>
    set_point_other s y (fun hqp => hfree (hq.trans (congrArg some hqp)))
  have hview : part (s.set p y) = part s ∧ lead (s.set p y) = lead s := by
    cases hl : s.lock with
    | none => simp only [part, lead, State.set, hl, and_self]
    | some q => simp only [part, lead, show (s.set p y).lock = some q from hl, hl, hsame q hl, and_self]
  refine kept_set h rfl ?_ (fun _ _ => Iff.rfl) (.inl rfl) hfine htold ?_ ?_ ?_
  · simp [hfree, hy]
  · rw [hnone]
    rfl
  · rw [hnone, List.append_nil, hview.1]
    exact h.data
  · rw [hview.2]
    exact h.size

theorem step_kept {m : Shared} {tr : List (ι × Mark)} {s s' : State ι} {l : Label ι}
    {o : List (ι × Mark)} (h : Kept m tr s) (hg : Within s l) (hs : step s l = some (s',o)) :
    Kept m (tr++o) s' := by
  cases step_turn hs with
  | @call p bytes idle =>
    refine kept_unheld (o := [.call bytes]) h (by rw [idle]; rfl) rfl trivial rfl ?_
    obtain ⟨calls,hcalls⟩ := show Told (marks p tr) .idle from idle ▸ h.told p
    rw [hcalls]
    exact ⟨calls,bytes,[],rfl,rfl,rfl⟩
  | @ilock p n rest here free =>
    have hpart : part s = [] ∧ lead s = 0 := by simp only [part, lead, free, and_self]
    have hfine : Fine s.shared (.ilock n rest) := here ▸ h.fine p
    have htold : Told (marks p tr) (.ilock n rest) := here ▸ h.told p
    refine kept_set (t := { s with lock := some p }) (o := []) h rfl (by simp [holds]) (fun q hne => ?_)
      (.inl rfl) hfine (by rwa [List.append_nil]) rfl ?_ ?_
    · simp [free, Ne.symm hne]
    · rw [h.data, hpart.1]
      simp [part, State.set, copied]
    · have := h.size
      rw [hpart.2] at this
      simpa [lead, State.set, ahead] using this
  | @iunlock p n rest r here =>
    have hlock : s.lock = some p := (h.owner p).mpr (by rw [here]; rfl)
    have hfine : Fine s.shared (.iunlock n rest r) := here ▸ h.fine p
    have htold : Told (marks p tr) (.iunlock n rest r) := here ▸ h.told p
    have hpart : part s = [] ∧ lead s = 0 := by simp only [part, lead, hlock, here, copied, ahead, and_self]
    refine kept_set (t := { s with lock := none }) (o := []) h rfl (by simp [holds]) (fun q hne => ?_)
      (.inl rfl) hfine (by rwa [List.append_nil]) rfl ?_ ?_
    · simp [hlock, Ne.symm hne]
    · rw [h.data, hpart.1]
      simp [part, State.set]
    · have := h.size
      rw [hpart.2] at this
      simpa [lead, State.set] using this
  | @locked p m' y o next =>
    have hoff : s.shared.off ≤ s.shared.size := by
      rw [h.size]
      omega
    obtain ⟨hfine,hx,hy,hoff',hdata,hsize⟩ := locked_keeps next (h.fine p) hoff hg
    have hlock := (h.owner p).mpr hx
    refine kept_set (t := { s with shared := m' }) h rfl (by simp [hlock, hy]) (fun _ _ => Iff.rfl)
      (.inr hlock) hfine (locked_told next (h.fine p) (h.told p)) hoff' ?_ ?_
    · have := hdata m.data m.off (written tr) h.off.symm (by rw [h.data, part, hlock])
      simpa [part, State.set, hlock] using this
    · have := hsize m.size (by rw [h.size, lead, hlock])
      simpa [lead, State.set, hlock] using this
  | @free p y o next =>
    obtain ⟨htold,hfine,hx,hy⟩ := free_told next (h.fine p) (h.told p)
    exact kept_unheld h hx hy hfine (free_unmarked next) htold

theorem run_kept {m : Shared} (hin : m.off ≤ m.size) {tr : List (ι × Mark)} {s : State ι}
    (h : Run (writers m) Within tr s) : Kept m tr s := by
  refine run_invariant (Kept m) ?_ (fun tr s l s' o _ hk hg hs => step_kept hk hg hs) h
  refine ⟨fun p => ?_,rfl,?_,?_,fun p => trivial,fun p => ⟨[],rfl⟩⟩
  · simp [writers, holds]
  · funext k
    simp [writers, written, part, splice]
  · simp [writers, lead, hin]

/-- The file holds the chunks of all calls one after the other from the first offset on,
in the order of the run, and `f->off` and the size are past the last; the chunks of a
process are those of its calls, in order. -/
theorem shared_writes_append (m : Shared) (hin : m.off ≤ m.size) {tr : List (ι × Mark)} {s : State ι}
    (h : Run (writers m) Within tr s) :
    s.shared.off = m.off+(written tr).length ∧
      (s.lock = none → s.shared.data = splice m.data m.off (written tr) ∧
        s.shared.size = max m.size s.shared.off) ∧
      (∀ p, InOrder (marks p tr)) ∧
      (∀ p, s.point p = .idle → ∃ calls : List (List Byte), marks p tr = calls.flatMap served) ∧
      ∀ bytes, (chunks bytes).flatten = bytes ∧ (∀ c ∈ chunks bytes, c.length ≤ 1536) ∧
        (bytes ≠ [] → bytes.length ≤ 1536 → chunks bytes = [bytes]) := by
  have hk := run_kept hin h
  refine ⟨hk.off,fun hfree => ?_,fun p => told_in_order (hk.told p),fun p hp => ?_,fun bytes =>
    ⟨(chunks_cut bytes).1,(chunks_cut bytes).2,chunks_small⟩⟩
  · have hpart : part s = [] ∧ lead s = 0 := by simp only [part, lead, hfree, and_self]
    refine ⟨?_,?_⟩
    · rw [hk.data, hpart.1, List.append_nil]
    · rw [hk.size, hpart.2, Nat.add_zero]
  · exact show Told (marks p tr) .idle from hp ▸ hk.told p

def twoWriters : List (Label Bool) :=
  [.call true [1], .call false [2, 3], .go true, .go false, .go false]++
    List.replicate 9 (.go false)++List.replicate 10 (.go true)

def emptyFile : Shared := ⟨fun _ => 0,0,0⟩

def bothDone (s : State Bool) (tr : List (Bool × Mark)) : Bool :=
  s.lock = none ∧ s.shared.off = 3 ∧ s.shared.size = 3 ∧ written tr = [2, 3, 1] ∧
    s.point true = .idle ∧ s.point false = .idle

theorem shared_writes_append_two :
    ∃ tr s, Run (writers emptyFile) Within tr s ∧ bothDone s tr = true ∧
      s.shared.data = splice emptyFile.data 0 (written tr) := by
  obtain ⟨tr,s,hr,ht⟩ := exec_reaches (S := writers emptyFile) (G := Within) twoWriters
    (bothDone · ·) (by decide +kernel)
  have hfree : s.lock = none := (of_decide_eq_true ht).1
  exact ⟨tr,s,hr,ht,((shared_writes_append emptyFile (Nat.le_refl _) hr).2.1 hfree).1⟩

end Xv6.SharedWrites

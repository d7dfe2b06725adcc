import Xv6.GrepMatch
import Xv6.Memmove

/-!
# The lines that grep writes

The loops of `grep` in `grep.c`, with `strchr` of `ulib.c`. The input comes in the pieces that
`read` returns one after another. Where a piece has no newline, `grep` forgets what it has in the
buffer.
-/

set_option autoImplicit false

namespace Xv6.GrepLines
open ByteFields GrepMatch
open Function

abbrev BUFSIZE : ℕ := 1024
abbrev newline : UInt8 := 10

/-- `strchr`, with a bound on the bytes it looks at. -/
def strchr (buf : Block) (c : UInt8) : ℕ → ℕ → Option (Option ℕ)
  | 0, _ => none
  | k+1, s => if buf s = 0 then some none else if buf s = c then some (some s) else strchr buf c k (s+1)

/-- The bytes from a pointer to its NUL, in a buffer that ends after `k` of them. -/
def string (buf : Block) : ℕ → ℕ → List UInt8
  | 0, _ => []
  | k+1, s => if buf s = 0 then [] else buf s::string buf k (s+1)

/-- The inner loop, with a bound on its rounds: the buffer and `p` at its end, and what it writes. -/
def lineLoop (pattern : List UInt8) : ℕ → Block → ℕ → Option (Block × ℕ × List (List UInt8))
  | 0, _, _ => none
  | k+1, buf, p => do
    match ← strchr buf newline BUFSIZE p with
    | none => pure (buf,p,[])
    | some q =>
      let buf := update buf q 0
      if ← matchText (pattern.length+BUFSIZE+2) pattern (string buf BUFSIZE p) then
        let buf := update buf q newline
        let (buf',p',out) ← lineLoop pattern k buf (q+1)
        pure (buf',p',slice buf p (q+1-p)::out)
      else lineLoop pattern k buf (q+1)

/-- The body of the outer loop, for what `read` has put behind the first `m` bytes. -/
def round (pattern : List UInt8) (buf : Block) (m : ℕ) (piece : List UInt8) :
    Option (Block × ℕ × List (List UInt8)) := do
  let buf := paste buf m piece
  let m := m+piece.length
  let buf := update buf m 0
  let (buf,p,out) ← lineLoop pattern BUFSIZE buf 0
  let m := if p = 0 then 0 else m
  if 0 < m then pure (Memmove.User.memmove 0 p ((m : ℤ)-p) buf,m-p,out) else pure (buf,m,out)

/-- The outer loop. At the end of the pieces `read` returns 0. -/
def grepLoop (pattern : List UInt8) : List (List UInt8) → Block → ℕ → Option (List (List UInt8))
  | [], _, _ => some []
  | piece::rest, buf, m => do
    let (buf,m,out) ← round pattern buf m piece
    let out' ← grepLoop pattern rest buf m
    pure (out++out')

def grep (pattern : List UInt8) (buf : Block) (pieces : List (List UInt8)) : Option (List (List UInt8)) :=
  grepLoop pattern pieces buf 0

/-- Each piece is an answer to the request `read(fd, buf+m, sizeof(buf)-m-1)`. -/
def Arrives (pattern : List UInt8) : Block → ℕ → List (List UInt8) → Prop
  | _, _, [] => True
  | buf, m, piece::rest => piece ≠ [] ∧ piece.length ≤ BUFSIZE-m-1 ∧
    ∀ r, round pattern buf m piece = some r → Arrives pattern r.1 r.2.1 rest

structure Line where
  bytes : List UInt8
  nul : 0 ∉ bytes
  newline : newline ∉ bytes
  short : bytes.length < 1023

def Line.text (l : Line) : List UInt8 := l.bytes++[10]

def matching (pattern : List UInt8) (l : List UInt8) : Bool :=
  matchText (pattern.length+l.length+2) pattern l == some true

def split : List UInt8 → List (List UInt8) × List UInt8
  | [] => ([],[])
  | c::w =>
    if c = newline then ([]::(split w).1,(split w).2)
    else match (split w).1 with
      | [] => ([],c::(split w).2)
      | l::ls => ((c::l)::ls,(split w).2)

def kept (carry piece : List UInt8) : List UInt8 :=
  if (split (carry++piece)).1 = [] then [] else (split (carry++piece)).2

def seen : List UInt8 → List (List UInt8) → List (List UInt8)
  | _, [] => []
  | carry, piece::rest => (split (carry++piece)).1++seen (kept carry piece) rest

def At (buf : Block) : ℕ → List UInt8 → Prop
  | _, [] => True
  | p, c::w => buf p = c ∧ At buf (p+1) w

section Buffer
variable {buf buf' : Block} {c : UInt8} {k p : ℕ} {l u v w : List UInt8}

theorem at_append : At buf p (u++v) ↔ At buf p u ∧ At buf (p+u.length) v := by
  induction u generalizing p with
  | nil => simp [At]
  | cons c u ih =>
    simp only [List.cons_append, At, ih, and_assoc, List.length_cons, Nat.add_assoc, Nat.add_comm 1]

theorem at_moved {q : ℕ} (h : At buf p w) (hsame : ∀ k < w.length, buf' (q+k) = buf (p+k)) : At buf' q w := by
  induction w generalizing p q with
  | nil => trivial
  | cons c w ih =>
    refine ⟨(hsame 0 (Nat.succ_pos _)).trans h.1,ih h.2 fun k hk => ?_⟩
    have := hsame (k+1) (Nat.succ_lt_succ hk)
    rwa [Nat.add_right_comm, Nat.add_assoc, Nat.add_right_comm p, Nat.add_assoc]

theorem at_frame (h : At buf p w) (hsame : ∀ k, p ≤ k → k < p+w.length → buf' k = buf k) : At buf' p w :=
  at_moved h fun k hk => hsame (p+k) (Nat.le_add_right p k) (Nat.add_lt_add_left hk p)

theorem at_store {q : ℕ} (h : At buf p w) (hq : q = p+w.length) (c : UInt8) :
    At (update buf q c) p (w++[c]) := by
  subst hq
  exact at_append.mpr ⟨at_frame h fun k _ hk => update_of_ne (Nat.ne_of_lt hk) ..,update_self ..,trivial⟩

theorem at_iff_slice : At buf p w ↔ slice buf p w.length = w := by
  induction w generalizing p with
  | nil => exact iff_of_true trivial rfl
  | cons c w ih =>
    rw [List.length_cons, Nat.add_comm, slice_append, At, ih]
    exact List.cons_eq_cons.symm

theorem strchr_found (h : At buf p (l++c::w)) (hnul : 0 ∉ l) (hc : c ∉ l) (hne : c ≠ 0) (hk : l.length < k) :
    strchr buf c k p = some (some (p+l.length)) := by
  induction l generalizing p k with
  | nil =>
    obtain ⟨k,rfl⟩ : ∃ n, k = n+1 := ⟨k-1,by omega⟩
    rw [strchr, h.1, if_neg hne, if_pos rfl]
    rfl
  | cons d l ih =>
    obtain ⟨k,rfl⟩ : ∃ n, k = n+1 := ⟨k-1,by omega⟩
    rw [List.mem_cons, not_or] at hnul hc
    rw [strchr, h.1, if_neg (Ne.symm hnul.1), if_neg (Ne.symm hc.1),
      ih h.2 hnul.2 hc.2 (Nat.lt_of_succ_lt_succ hk),
      List.length_cons, Nat.add_assoc, Nat.add_comm 1]

theorem strchr_missing (h : At buf p (l++[0])) (hnul : 0 ∉ l) (hc : c ∉ l) (hk : l.length < k) :
    strchr buf c k p = some none := by
  induction l generalizing p k with
  | nil =>
    obtain ⟨k,rfl⟩ : ∃ n, k = n+1 := ⟨k-1,by omega⟩
    rw [strchr, if_pos h.1]
  | cons d l ih =>
    obtain ⟨k,rfl⟩ : ∃ n, k = n+1 := ⟨k-1,by omega⟩
    rw [List.mem_cons, not_or] at hnul hc
    rw [strchr, h.1, if_neg (Ne.symm hnul.1), if_neg (Ne.symm hc.1),
      ih h.2 hnul.2 hc.2 (Nat.lt_of_succ_lt_succ hk)]

theorem string_text (h : At buf p (l++[0])) (hnul : 0 ∉ l) (hk : l.length < k) : string buf k p = l := by
  induction l generalizing p k with
  | nil =>
    obtain ⟨k,rfl⟩ : ∃ n, k = n+1 := ⟨k-1,by omega⟩
    rw [string, if_pos h.1]
  | cons d l ih =>
    obtain ⟨k,rfl⟩ : ∃ n, k = n+1 := ⟨k-1,by omega⟩
    rw [List.mem_cons, not_or] at hnul
    rw [string, h.1, if_neg (Ne.symm hnul.1), ih h.2 hnul.2 (Nat.lt_of_succ_lt_succ hk)]

end Buffer

def text (ls : List (List UInt8)) : List UInt8 := ls.flatMap (·++[newline])

section Lines
variable {carry piece r w : List UInt8} {ls pieces : List (List UInt8)}

theorem split_append {l : List UInt8} (hl : newline ∉ l) (w : List UInt8) :
    split (l++newline::w) = (l::(split w).1,(split w).2) := by
  induction l with
  | nil => rw [List.nil_append, split, if_pos rfl]
  | cons c l ih =>
    rw [List.mem_cons, not_or] at hl
    rw [List.cons_append, split, if_neg (Ne.symm hl.1), ih hl.2]

theorem split_text (hls : ∀ l ∈ ls, newline ∉ l) (w : List UInt8) :
    split (text ls++w) = (ls++(split w).1,(split w).2) := by
  induction ls with
  | nil => rfl
  | cons l ls ih =>
    have hcons : text (l::ls)++w = l++newline::(text ls++w) := by simp [text]
    rw [hcons, split_append (hls l List.mem_cons_self), ih fun k hk => hls k (List.mem_cons_of_mem _ hk)]
    rfl

theorem split_partial (hr : newline ∉ r) : split r = ([],r) := by
  induction r with
  | nil => rfl
  | cons c r ih =>
    rw [List.mem_cons, not_or] at hr
    rw [split, if_neg (Ne.symm hr.1), ih hr.2]

theorem split_parts (w : List UInt8) :
    w = text (split w).1++(split w).2 ∧ newline ∉ (split w).2 ∧ ∀ l ∈ (split w).1, newline ∉ l := by
  induction w with
  | nil => exact ⟨rfl,List.not_mem_nil,fun _ => nofun⟩
  | cons c w ih =>
    obtain ⟨hw,hr,hls⟩ := ih
    rw [split]
    split_ifs with hc
    · refine ⟨?_,hr,?_⟩
      · rw [hc]
        exact congrArg (newline :: ·) hw
      · rintro l (_ | ⟨_,hl⟩)
        · exact List.not_mem_nil
        · exact hls l hl
    · split
      · rename_i hnone
        rw [hnone] at hw
        refine ⟨congrArg (c :: ·) hw,?_,fun _ => nofun⟩
        rw [List.mem_cons, not_or]
        exact ⟨Ne.symm hc,hr⟩
      · rename_i l ls hsome
        rw [hsome] at hw hls
        refine ⟨congrArg (c :: ·) hw,hr,?_⟩
        rintro k (_ | ⟨_,hk⟩)
        · rw [List.mem_cons, not_or]
          exact ⟨Ne.symm hc,hls l List.mem_cons_self⟩
        · exact hls k (List.mem_cons_of_mem _ hk)

theorem seen_all (hcarry : newline ∉ carry) (hpieces : ∀ piece ∈ pieces, newline ∈ piece) :
    seen carry pieces = (split (carry++pieces.flatten)).1 := by
  induction pieces generalizing carry with
  | nil => rw [List.flatten_nil, List.append_nil, split_partial hcarry, seen]
  | cons piece rest ih =>
    obtain ⟨hw,hr,hls⟩ := split_parts (carry++piece)
    have hsome : (split (carry++piece)).1 ≠ [] := by
      intro hnone
      have hmem : newline ∈ carry++piece := List.mem_append_right _ (hpieces piece List.mem_cons_self)
      rw [hw, hnone] at hmem
      exact hr hmem
    rw [seen, kept, if_neg hsome, ih hr fun k hk => hpieces k (List.mem_cons_of_mem _ hk), List.flatten_cons,
      ← List.append_assoc]
    nth_rewrite 3 [hw]
    rw [List.append_assoc, split_text hls]

theorem text_append (ls ks : List (List UInt8)) : text (ls++ks) = text ls++text ks := List.flatMap_append

theorem text_length (ls : List (List UInt8)) : ls.length ≤ (text ls).length := by
  induction ls with
  | nil => exact Nat.le_refl 0
  | cons l ls ih =>
    simp only [text, List.flatMap_cons, List.length_append, List.length_cons, List.length_nil] at ih ⊢
    omega

theorem seen_length (carry : List UInt8) (pieces : List (List UInt8)) :
    (text (seen carry pieces)).length ≤ carry.length+pieces.flatten.length := by
  induction pieces generalizing carry with
  | nil => exact Nat.zero_le _
  | cons piece rest ih =>
    have hlen := congrArg List.length (split_parts (carry++piece)).1
    rw [seen, kept, text_append, List.length_append, List.flatten_cons, List.length_append]
    rw [List.length_append, List.length_append] at hlen
    split
    · have h := ih []
      rw [List.length_nil] at h
      omega
    · have h := ih (split (carry++piece)).2
      omega

theorem seen_short (hcarry : newline ∉ carry) (hfull : ∀ piece ∈ pieces, piece ≠ [])
    (hpiece : piece ∈ pieces) (hmissing : newline ∉ piece) :
    (text (seen carry pieces)).length < carry.length+pieces.flatten.length := by
  induction pieces generalizing carry with
  | nil => cases hpiece
  | cons first rest ih =>
    have hlen := congrArg List.length (split_parts (carry++first)).1
    have hpos := List.length_pos_of_ne_nil (hfull first List.mem_cons_self)
    rw [seen, kept, text_append, List.length_append, List.flatten_cons, List.length_append]
    rw [List.length_append, List.length_append] at hlen
    rcases List.mem_cons.mp hpiece with rfl | hrest
    · have hnone : split (carry++piece) = ([],carry++piece) := split_partial (by simp [hcarry, hmissing])
      have h := seen_length [] rest
      rw [hnone, if_pos rfl]
      rw [List.length_nil] at h
      simp only [text, List.flatMap_nil, List.length_nil] at h ⊢
      omega
    · have hfull' : ∀ piece ∈ rest, piece ≠ [] := fun k hk => hfull k (List.mem_cons_of_mem _ hk)
      split
      · have h := ih List.not_mem_nil hfull' hrest
        rw [List.length_nil] at h
        omega
      · have h := ih (split_parts (carry++first)).2.1 hfull' hrest
        omega

end Lines

section Loops
variable {pattern carry piece r : List UInt8} {ls pieces : List (List UInt8)} {buf : Block} {k m p : ℕ}

def writes (pattern : List UInt8) (ls : List (List UInt8)) : List (List UInt8) :=
  (ls.filter (matching pattern)).map (·++[newline])

theorem matchText_matching {n : ℕ} {l : List UInt8} (hre : 0 ∉ pattern) (hl : 0 ∉ l)
    (hn : pattern.length+l.length+1 < n) :
    matchText n pattern l = some (matching pattern l) := by
  obtain ⟨b,hb,hiff⟩ := matchText_decides hre hl hn
  obtain ⟨c,hc,hiff'⟩ := matchText_decides (n := pattern.length+l.length+2) hre hl (by omega)
  have hbc : b = c := Bool.eq_iff_iff.mpr (hiff.trans hiff'.symm)
  rw [matching, hb, hc, hbc]
  cases c <;> rfl

theorem lineLoop_lines (hre : 0 ∉ pattern) (hls : ∀ l ∈ ls, 0 ∉ l ∧ newline ∉ l) (hnul : 0 ∉ r)
    (hr : newline ∉ r)
    (h : At buf p (text ls++(r++[0]))) (hlen : (text ls++r).length < BUFSIZE) (hk : ls.length < k) :
    ∃ buf', lineLoop pattern k buf p = some (buf',p+(text ls).length,writes pattern ls) ∧
      At buf' (p+(text ls).length) r := by
  induction ls generalizing buf p k with
  | nil =>
    obtain ⟨k,rfl⟩ : ∃ n, k = n+1 := ⟨k-1,by omega⟩
    refine ⟨buf,?_,(at_append.mp (at_append.mp h).2).1⟩
    rw [lineLoop, strchr_missing h hnul hr hlen]
    rfl
  | cons l ls ih =>
    obtain ⟨k,rfl⟩ : ∃ n, k = n+1 := ⟨k-1,by omega⟩
    obtain ⟨hl,hl'⟩ := hls l List.mem_cons_self
    have htext : text (l::ls) = l++newline::text ls := by simp [text]
    have hend : p+(text (l::ls)).length = p+l.length+1+(text ls).length := by
      rw [htext, List.length_append, List.length_cons]
      omega
    rw [htext, List.append_assoc, List.cons_append] at h
    rw [htext, List.append_assoc, List.cons_append, List.length_append, List.length_cons] at hlen
    have hline := at_store (at_append.mp h).1 rfl 0
    have hloop : ∀ buf1, (∀ j, j ≠ p+l.length → buf1 j = buf j) →
      ∃ buf', lineLoop pattern k buf1 (p+l.length+1) =
        some (buf',p+(text (l::ls)).length,writes pattern ls) ∧ At buf' (p+(text (l::ls)).length) r := by
      intro buf1 hsame
      rw [hend]
      refine ih (fun x hx => hls x (List.mem_cons_of_mem _ hx)) ?_ (by omega) (Nat.lt_of_succ_lt_succ hk)
      exact at_frame (at_append.mp h).2.2 fun j hj _ => hsame j (by omega)
    rw [lineLoop, strchr_found h hl hl' (by decide) (by omega)]
    simp only [Option.bind_eq_bind, Option.bind_some, string_text hline hl (show l.length < BUFSIZE by omega),
      matchText_matching (n := pattern.length+BUFSIZE+2) hre hl (by omega)]
    cases hb : matching pattern l with
    | false =>
      obtain ⟨buf',hrun,hat⟩ := hloop _ fun j hj => update_of_ne hj 0 buf
      refine ⟨buf',?_,hat⟩
      rw [if_neg Bool.false_ne_true, hrun, writes, writes,
        List.filter_cons_of_neg (by rw [hb]; exact Bool.false_ne_true)]
    | true =>
      obtain ⟨buf',hrun,hat⟩ := hloop (update (update buf (p+l.length) 0) (p+l.length) newline) fun j hj => by
        rw [update_of_ne hj, update_of_ne hj]
      have hout := at_iff_slice.mp (at_store (at_append.mp hline).1 rfl newline)
      rw [List.length_append, List.length_singleton] at hout
      refine ⟨buf',?_,hat⟩
      rw [if_pos rfl, hrun, Nat.add_assoc, Nat.add_sub_cancel_left, writes, writes,
        List.filter_cons_of_pos hb]
      simp only [Option.bind_some, hout]
      rfl

theorem round_lines (hre : 0 ∉ pattern) (hbuf : At buf 0 carry) (hnul : 0 ∉ carry++piece)
    (hlen : (carry++piece).length < BUFSIZE) :
    ∃ buf', round pattern buf carry.length piece =
        some (buf',(kept carry piece).length,writes pattern (split (carry++piece)).1) ∧
        At buf' 0 (kept carry piece) := by
  obtain ⟨hw,hr,hls⟩ := split_parts (carry++piece)
  rw [kept]
  have hread : At (update (paste buf carry.length piece) (carry.length+piece.length) 0) 0
    (carry++piece++[0]) := by
    refine at_store (at_append.mpr
      ⟨at_frame hbuf fun j _ hj => paste_outside (by omega),at_iff_slice.mpr ?_⟩) (by simp) 0
    rw [Nat.zero_add]
    exact slice_paste_self buf carry.length piece
  have htotal := congrArg List.length hw
  generalize split (carry++piece) = s at *
  obtain ⟨ls,r⟩ := s
  simp only at *
  rw [hw, List.append_assoc] at hread
  obtain ⟨hnulls,hnulr⟩ : 0 ∉ text ls ∧ 0 ∉ r := by
    rw [hw, List.mem_append, not_or] at hnul
    exact hnul
  have hlines : ∀ l ∈ ls, 0 ∉ l ∧ newline ∉ l := fun l hl =>
    ⟨fun h0 => hnulls (List.mem_flatMap.mpr ⟨l,hl,List.mem_append_left _ h0⟩),hls l hl⟩
  have hcount := text_length ls
  rw [hw] at hlen
  rw [List.length_append, List.length_append] at htotal
  have hsum : (text ls).length+r.length < BUFSIZE := by rwa [← List.length_append]
  obtain ⟨buf',hrun,hat⟩ := lineLoop_lines (k := BUFSIZE) hre hlines hnulr hr hread hlen (by omega)
  rw [Nat.zero_add] at hrun hat
  rw [round, hrun]
  simp only [Option.bind_eq_bind, Option.bind_some]
  by_cases hnone : ls = []
  · subst hnone
    exact ⟨buf',rfl,trivial⟩
  · have hpos := List.length_pos_of_ne_nil hnone
    have hleft : ((carry.length+piece.length : ℕ) : ℤ)-(text ls).length = (r.length : ℕ) := by omega
    refine ⟨Memmove.User.memmove 0 (text ls).length r.length buf',?_,?_⟩
    · have hm : (if (text ls).length = 0 then 0 else carry.length+piece.length) =
        carry.length+piece.length := if_neg (by omega)
      rw [hm, if_pos (by omega), if_neg hnone, hleft, htotal, Nat.add_sub_cancel_left]
      rfl
    · simp only [BUFSIZE] at hsum
      rw [if_neg hnone, Memmove.User.memmove, Int.toNat_natCast,
        Memmove.copyUp_eq (by simp only [Memmove.WORD]; omega) (by simp only [Memmove.WORD]; omega)]
      refine at_moved hat fun k hk => ?_
      rw [if_pos (by omega), Memmove.origin_direct (by omega), Nat.zero_add, Nat.sub_zero]

theorem kept_nul (hcarry : 0 ∉ carry) (hpiece : 0 ∉ piece) : 0 ∉ kept carry piece := by
  have hnul : 0 ∉ carry++piece := by simp [hcarry, hpiece]
  rw [kept]
  split
  · exact List.not_mem_nil
  · rw [(split_parts (carry++piece)).1, List.mem_append, not_or] at hnul
    exact hnul.2

theorem grepLoop_seen (hre : 0 ∉ pattern) (hbuf : At buf 0 carry) (hcarry : 0 ∉ carry)
    (hpieces : ∀ piece ∈ pieces, 0 ∉ piece)
    (harrives : Arrives pattern buf carry.length pieces) :
    grepLoop pattern pieces buf carry.length = some (writes pattern (seen carry pieces)) ∧
    ∀ piece ∈ pieces, piece ≠ [] := by
  induction pieces generalizing carry buf with
  | nil => exact ⟨rfl,fun _ => nofun⟩
  | cons piece rest ih =>
    obtain ⟨hfull,hfits,hnext⟩ := harrives
    have hpos := List.length_pos_of_ne_nil hfull
    have hnul : 0 ∉ carry++piece := by simp [hcarry, hpieces piece]
    have hkept := kept_nul hcarry (hpieces piece List.mem_cons_self)
    obtain ⟨buf',hround,hat⟩ := round_lines hre hbuf hnul (by rw [List.length_append]; omega)
    obtain ⟨hrun,hfull'⟩ := ih hat hkept (fun x hx => hpieces x (List.mem_cons_of_mem _ hx)) (hnext _ hround)
    refine ⟨?_,List.forall_mem_cons.mpr ⟨hfull,hfull'⟩⟩
    rw [grepLoop, hround]
    simp only [Option.bind_eq_bind, Option.bind_some, hrun, seen, writes, List.filter_append, List.map_append]
    rfl

def fits : List UInt8 → List (List UInt8) → Bool
  | _, [] => true
  | carry, piece::rest => piece ≠ [] && (carry++piece).length < BUFSIZE && fits (kept carry piece) rest

theorem arrives_fits (hre : 0 ∉ pattern) (hbuf : At buf 0 carry) (hcarry : 0 ∉ carry)
    (hpieces : ∀ piece ∈ pieces, 0 ∉ piece)
    (h : fits carry pieces = true) : Arrives pattern buf carry.length pieces := by
  induction pieces generalizing carry buf with
  | nil => trivial
  | cons piece rest ih =>
    simp only [fits, Bool.and_eq_true, decide_eq_true_eq] at h
    obtain ⟨⟨hfull,hlen⟩,hrest⟩ := h
    obtain ⟨buf',hround,hat⟩ := round_lines hre hbuf (by simp [hcarry, hpieces piece]) hlen
    refine ⟨hfull,?_,fun r hr => ?_⟩
    · rw [List.length_append] at hlen
      omega
    · cases hround.symm.trans hr
      exact ih hat (kept_nul hcarry (hpieces piece List.mem_cons_self))
        (fun x hx => hpieces x (List.mem_cons_of_mem _ hx)) hrest

end Loops

theorem writes_empty (ls : List (List UInt8)) : (writes [] ls).flatten = text ls := by
  have hall : ls.filter (matching []) = ls := List.filter_eq_self.mpr fun l _ => rfl
  rw [writes, hall, ← List.flatMap_def, text]

theorem writes_lines (pattern : List UInt8) (ls : List Line) :
    writes pattern (ls.map Line.bytes) = (ls.filter fun l => matching pattern l.bytes).map Line.text := by
  rw [writes, List.filter_map, List.map_map]
  rfl

theorem text_lines (ls : List Line) : text (ls.map Line.bytes) = ls.flatMap Line.text := List.flatMap_map ..

/-- However the input arrives, `grep` writes the matching lines for every pattern exactly if every piece
has a newline. -/
theorem grep_arrival (ls : List Line) (pieces : List (List UInt8))
    (hinput : pieces.flatten = ls.flatMap Line.text)
    (buf : Block) (harrives : ∀ pattern : Str, Arrives pattern.bytes buf 0 pieces) :
    (∀ pattern : Str, grep pattern.bytes buf pieces =
      some ((ls.filter fun l => matching pattern.bytes l.bytes).map Line.text)) ↔
    ∀ piece ∈ pieces, newline ∈ piece := by
  have hnul : ∀ piece ∈ pieces, 0 ∉ piece := by
    intro piece hpiece h0
    have h0' : 0 ∈ ls.flatMap Line.text := hinput ▸ List.mem_flatten_of_mem hpiece h0
    obtain ⟨l,-,hl⟩ := List.mem_flatMap.mp h0'
    rcases List.mem_append.mp hl with hl | hl
    · exact l.nul hl
    · exact absurd (List.mem_singleton.mp hl) (by decide)
  have hrun : ∀ pattern : Str, _ := fun pattern =>
    grepLoop_seen pattern.nul (show At buf 0 [] from trivial) List.not_mem_nil hnul (harrives pattern)
  rw [← text_lines] at hinput
  have hsplit : split pieces.flatten = (ls.map Line.bytes,[]) := by
    rw [hinput, ← List.append_nil (text _), split_text fun l hl => ?_, split, List.append_nil]
    obtain ⟨k,-,rfl⟩ := List.mem_map.mp hl
    exact k.newline
  constructor
  · intro h
    by_contra hmissing
    obtain ⟨piece,hpiece,hno⟩ : ∃ piece ∈ pieces, newline ∉ piece := by simpa using hmissing
    have hempty := (hrun ⟨[],List.not_mem_nil⟩).1.symm.trans (h ⟨[],List.not_mem_nil⟩)
    rw [← writes_lines] at hempty
    have hsame := congrArg List.flatten (Option.some.inj hempty)
    rw [writes_empty, writes_empty, ← hinput] at hsame
    have hshort := seen_short List.not_mem_nil (hrun ⟨[],List.not_mem_nil⟩).2 hpiece hno
    rw [hsame, List.length_nil, Nat.zero_add] at hshort
    exact Nat.lt_irrefl _ hshort
  · intro h pattern
    rw [← writes_lines]
    refine (hrun pattern).1.trans ?_
    rw [seen_all List.not_mem_nil h, List.nil_append, hsplit]

def twoLines : List Line :=
  [⟨[97],by decide,by decide,by decide⟩,⟨[98,99],by decide,by decide,by decide⟩]

theorem sample_arrives {pieces : List (List UInt8)} (hnul : ∀ piece ∈ pieces, 0 ∉ piece)
    (h : fits [] pieces = true)
    (pattern : Str) : Arrives pattern.bytes (fun _ => 0) 0 pieces :=
  arrives_fits pattern.nul (show At _ 0 [] from trivial) List.not_mem_nil hnul h

theorem grep_arrival_carried : grep [98] (fun _ => 0) [[97,10,98],[99,10]] = some [[98,99,10]] :=
  (grep_arrival twoLines [[97,10,98],[99,10]] rfl (fun _ => 0) (sample_arrives (by decide) (by decide))).mpr
    (by decide)
    ⟨[98],by decide⟩

/-- The beginning of the second line comes in a piece of its own and is lost. -/
theorem grep_loses_beginning : ∃ (ls : List Line) (pieces : List (List UInt8)) (pattern : Str),
    pieces.flatten = ls.flatMap Line.text ∧ (∀ re : Str, Arrives re.bytes (fun _ => 0) 0 pieces) ∧
    grep pattern.bytes (fun _ => 0) pieces ≠ some
      ((ls.filter fun l => matching pattern.bytes l.bytes).map Line.text) := by
  refine ⟨twoLines,[[97,10],[98],[99,10]],⟨[98],by decide⟩,rfl,sample_arrives (by decide) (by decide),?_⟩
  decide +kernel

end Xv6.GrepLines

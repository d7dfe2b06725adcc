import Xv6.ShellGrammar

/-!
# The place of the parser and the tokens ahead

What `peek` and `gettoken` do at a place, by the tokens of the text from there on.
-/

set_option autoImplicit false

namespace Xv6.ShellTokens
open FuelParsers ShellCode ShellGrammar

def ahead (s : Text) (p : ℕ) : List Tok := tokens (s.drop p)

def code : Tok → UInt8
  | .lt => 60
  | .gt => 62
  | .app => 43
  | .bar => 124
  | .amp => 38
  | .semi => 59
  | .lpar => 40
  | .rpar => 41
  | .word _ => 97

/-- The byte that `peek` compares; no letter is ever among those that it is asked for. -/
def start : Tok → UInt8
  | .app => 62
  | t => code t

structure IsWord (s : Text) (span : Span) (w : Text) : Prop where
  text : (s.drop span.1).takeWhile isWordChar = w
  stop : span.2 = span.1+w.length
  within : span.2 ≤ s.length

section Chars
variable {s : Text} {p : ℕ} {c : UInt8} {cs : Text}

theorem drop_succ (h : s.drop p = c::cs) : s.drop (p+1) = cs := by
  rw [← List.drop_drop, h]
  rfl

theorem chr_cons (h : s.drop p = c::cs) : chr s p = c := by
  have hget : s[p]? = some c := by
    rw [← List.head?_drop, h]
    rfl
  rw [chr, List.getD_eq_getElem?_getD, hget]
  rfl

theorem chr_nil (h : s.drop p = []) : chr s p = 0 := by
  have hget : s[p]? = none := by
    rw [← List.head?_drop, h]
    rfl
  rw [chr, List.getD_eq_getElem?_getD, hget]
  rfl

theorem advance_eq (s : Text) (P : UInt8 → Bool) (p : ℕ) :
    advance s P p = p+((s.drop p).takeWhile P).length := by
  rw [advance]
  obtain ⟨k,hk⟩ : ∃ k, s.length-p = k := ⟨_,rfl⟩
  rw [hk]
  induction k generalizing p with
  | zero =>
    rw [List.drop_of_length_le (by omega)]
    rfl
  | succ k ih =>
    have hne : s.drop p ≠ [] := by
      intro h0
      rw [List.drop_eq_nil_iff] at h0
      omega
    obtain ⟨c,cs,hcs⟩ := List.exists_cons_of_ne_nil hne
    rw [advanceFrom, chr_cons hcs, hcs, List.takeWhile_cons]
    cases hP : P c with
    | false => rfl
    | true =>
      rw [if_pos rfl, if_pos rfl, ih (p+1) (by omega), drop_succ hcs, List.length_cons]
      omega

theorem drop_advance (s : Text) (P : UInt8 → Bool) (p : ℕ) :
    s.drop (advance s P p) = (s.drop p).dropWhile P := by
  have hsplit := List.takeWhile_append_dropWhile (p := P) (l := s.drop p)
  rw [advance_eq, ← List.drop_drop]
  generalize (s.drop p).takeWhile P = front at *
  rw [← hsplit, List.drop_left, hsplit]

end Chars

section Tokens
variable {s : Text} {p : ℕ} {t : Tok} {rest : List Tok}

theorem tokens_dropWhile (s : Text) : tokens (s.dropWhile (strchr whitespace)) = tokens s := by
  induction s with
  | nil => rfl
  | cons c cs ih =>
    rw [List.dropWhile_cons]
    cases hc : strchr whitespace c with
    | false => rfl
    | true =>
      rw [if_pos rfl, ih, tokens, if_pos hc]

theorem ahead_skip (s : Text) (p : ℕ) : ahead s (skip s p) = ahead s p := by
  rw [ahead, skip, drop_advance, tokens_dropWhile]
  rfl

theorem drop_skip (s : Text) (p : ℕ) :
    s.drop (skip s p) = [] ∨ ∃ c cs, s.drop (skip s p) = c::cs ∧ strchr whitespace c = false := by
  rw [skip, drop_advance]
  cases hd : (s.drop p).dropWhile (strchr whitespace) with
  | nil => exact .inl rfl
  | cons c cs =>
    refine .inr ⟨c,cs,rfl,?_⟩
    have hne : (s.drop p).dropWhile (strchr whitespace) ≠ [] := by
      rw [hd]
      exact List.cons_ne_nil c cs
    have hhead := List.head_dropWhile_not (strchr whitespace) hne
    simp only [hd, List.head_cons] at hhead
    exact hhead

theorem mem_symbols {c : UInt8} (hc : strchr whitespace c = false) (hw : isWordChar c = false) :
    c ∈ symbols := by
  rw [isWordChar, hc] at hw
  have hs : strchr symbols c = true := by
    cases h : strchr symbols c with
    | true => rfl
    | false =>
      rw [h] at hw
      cases hw
  exact List.contains_iff_mem.mp hs

theorem word_not_symbol {c : UInt8} (hw : isWordChar c = true) : c ∉ symbols := by
  intro hsym
  rw [isWordChar, Bool.and_eq_true, Bool.not_eq_true', Bool.not_eq_true'] at hw
  have hno := hw.2
  rw [strchr, List.contains_iff_mem.mpr hsym] at hno
  cases hno

theorem ahead_cases (s : Text) (p : ℕ) :
    (s.drop (skip s p) = [] ∧ ahead s p = []) ∨
    ∃ c cs, s.drop (skip s p) = c::cs ∧
      ((isWordChar c = true ∧ ahead s p = .word (c::cs.takeWhile isWordChar)::tokens
        (cs.dropWhile isWordChar)) ∨
        (c ∈ symbols ∧ ((c = 62 ∧ cs.head? = some 62 ∧ ahead s p = .app::tokens cs.tail) ∨
          (¬(c = 62 ∧ cs.head? = some 62) ∧ ahead s p = symbol c::tokens cs)))) := by
  rw [← ahead_skip, ahead]
  rcases drop_skip s p with hnil | ⟨c,cs,hcs,hblank⟩
  · rw [hnil, tokens]
    exact .inl ⟨rfl,rfl⟩
  · refine .inr ⟨c,cs,hcs,?_⟩
    rw [hcs, tokens, hblank, if_neg Bool.false_ne_true]
    cases hw : isWordChar c with
    | true => exact .inl ⟨rfl,if_pos rfl⟩
    | false =>
      refine .inr ⟨mem_symbols hblank hw,?_⟩
      rw [if_neg Bool.false_ne_true]
      by_cases happ : c = 62 ∧ cs.head? = some 62
      · rw [if_pos happ]
        exact .inl ⟨happ.1,happ.2,rfl⟩
      · rw [if_neg happ]
        exact .inr ⟨happ,rfl⟩

theorem symbol_start {c : UInt8} (hc : c ∈ symbols) : start (symbol c) = c ∧ code (symbol c) = c ∧ c ≠ 0 := by
  revert c
  decide +kernel

theorem single_symbol {c : UInt8} (hc : c ∈ [124,40,41,59,38,60]) : c ∈ symbols := by
  revert c
  decide +kernel

theorem other_symbol {c : UInt8} (hc : c ∈ symbols) (hone : c ∉ [124,40,41,59,38,60]) : c = 62 := by
  revert c
  decide +kernel

theorem peek_run (s toks : Text) (p : ℕ) :
    (peek s toks).run p = .ok (chr s (skip s p) != 0 && strchr toks (chr s (skip s p))) (skip s p) := rfl

theorem gettoken_run (s : Text) (p : ℕ) :
    (gettoken s).run p = .ok ((tokenAt s (skip s p)).1,skip s p,(tokenAt s (skip s p)).2)
      (skip s (tokenAt s (skip s p)).2) := rfl

def starts (toks : Text) : List Tok → Bool
  | [] => false
  | t::_ => strchr toks (start t)

theorem peek_ahead (s : Text) (p : ℕ) {toks : Text} (htoks : ∀ c ∈ toks, c ∈ symbols) :
    ∃ p', (peek s toks).run p = .ok (starts toks (ahead s p)) p' ∧ ahead s p' = ahead s p := by
  refine ⟨skip s p,?_,ahead_skip s p⟩
  rw [peek_run]
  rcases ahead_cases s p with ⟨hnil,hahead⟩ | ⟨c,cs,hcs,⟨hw,hahead⟩ | ⟨hc,⟨rfl,hhead,hahead⟩ | ⟨hne,hahead⟩⟩⟩
  · rw [chr_nil hnil, hahead]
    rfl
  · have hno : ∀ c, isWordChar c = true → strchr toks c = false := fun c hc => by
      rw [Bool.eq_false_iff]
      exact fun hmem => word_not_symbol hc (htoks c (List.contains_iff_mem.mp hmem))
    rw [chr_cons hcs, hahead, starts, hno c hw, Bool.and_false]
    exact congrArg (Outcome.ok · _) (hno 97 (by decide)).symm
  · rw [chr_cons hcs, hahead]
    rfl
  · obtain ⟨hstart,-,hzero⟩ := symbol_start hc
    rw [chr_cons hcs, hahead, starts, hstart, bne_iff_ne.mpr hzero, Bool.true_and]

theorem gettoken_nil (h : ahead s p = []) : ∃ w p', (gettoken s).run p = .ok (0,w) p' ∧ ahead s p' = [] := by
  rcases ahead_cases s p with ⟨hnil,hahead⟩ | ⟨c,cs,hcs,⟨hw,hahead⟩ | ⟨hc,⟨rfl,hhead,hahead⟩ | ⟨hne,hahead⟩⟩⟩
  · have htok : tokenAt s (skip s p) = (0,skip s p) := by rw [tokenAt, if_pos (chr_nil hnil)]
    refine ⟨(skip s p,skip s p),skip s (skip s p),?_,?_⟩
    · rw [gettoken_run, htok]
    · rw [ahead_skip, ahead_skip, h]
  all_goals
    rw [hahead] at h
    cases h

theorem gettoken_of {r : UInt8} {e : ℕ} {cs : Text} (htok : tokenAt s (skip s p) = (r,e))
    (hrest : s.drop e = cs) :
    ∃ p', (gettoken s).run p = .ok (r,skip s p,e) p' ∧ ahead s p' = tokens cs := by
  refine ⟨skip s e,?_,?_⟩
  · rw [gettoken_run, htok]
  · rw [ahead_skip, ahead, hrest]

theorem tokenAt_word {q : ℕ} {c : UInt8} {cs : Text} (hnul : 0 ∉ s) (hcs : s.drop q = c::cs)
    (hw : isWordChar c = true) :
    tokenAt s q = (97,advance s isWordChar q) ∧
    IsWord s (q,advance s isWordChar q) (c::cs.takeWhile isWordChar) := by
  have hmem : c ∈ s := List.mem_of_mem_drop (by rw [hcs]; exact List.mem_cons_self)
  have hzero : c ≠ 0 := by
    rintro rfl
    exact hnul hmem
  have hsym := word_not_symbol hw
  have hone : c ∉ [124,40,41,59,38,60] := fun h => hsym (single_symbol h)
  have hgt : c ≠ 62 := by
    rintro rfl
    exact hsym (by decide)
  have htext : (s.drop q).takeWhile isWordChar = c::cs.takeWhile isWordChar := by
    rw [hcs, List.takeWhile_cons, if_pos hw]
  constructor
  · rw [tokenAt, chr_cons hcs, if_neg hzero, if_neg hone, if_neg hgt]
  · refine ⟨htext,?_,?_⟩
    · rw [← htext]
      exact advance_eq s isWordChar q
    · have hlen := (List.takeWhile_prefix isWordChar (l := s.drop q)).length_le
      have hpos : (s.drop q).length = cs.length+1 := by rw [hcs, List.length_cons]
      rw [List.length_drop] at hlen hpos
      show advance s isWordChar q ≤ s.length
      rw [advance_eq]
      omega

theorem tokenAt_symbol {q : ℕ} {c : UInt8} {cs : Text} (hcs : s.drop q = c::cs) (hc : c ∈ symbols)
    (hne : ¬(c = 62 ∧ cs.head? = some 62)) : tokenAt s q = (c,q+1) := by
  obtain ⟨-,-,hzero⟩ := symbol_start hc
  rw [tokenAt, chr_cons hcs, if_neg hzero]
  by_cases hone : c ∈ [124,40,41,59,38,60]
  · rw [if_pos hone]
  · obtain rfl := other_symbol hc hone
    have hnext : chr s (q+1) ≠ 62 := by
      cases cs with
      | nil =>
        rw [chr_nil (drop_succ hcs)]
        decide
      | cons d ds =>
        rw [chr_cons (drop_succ hcs)]
        rintro rfl
        exact hne ⟨rfl,rfl⟩
    rw [if_neg (by decide), if_pos rfl, if_neg hnext]

theorem symbol_ne_word (c : UInt8) (v : Text) : symbol c ≠ .word v := by
  rw [symbol]
  repeat' split
  all_goals nofun

theorem gettoken_cons (hnul : 0 ∉ s) (h : ahead s p = t::rest) :
    ∃ w p', (gettoken s).run p = .ok (code t,w) p' ∧ ahead s p' = rest ∧ ∀ v, t = .word v → IsWord s w v := by
  rcases ahead_cases s p with ⟨hnil,hahead⟩ | ⟨c,cs,hcs,⟨hw,hahead⟩ | ⟨hc,⟨rfl,hhead,hahead⟩ | ⟨hne,hahead⟩⟩⟩
  · rw [hahead] at h
    cases h
  · obtain ⟨htok,hword⟩ := tokenAt_word hnul hcs hw
    have hrest : s.drop (advance s isWordChar (skip s p)) = cs.dropWhile isWordChar := by
      rw [drop_advance, hcs, List.dropWhile_cons, if_pos hw]
    obtain ⟨p',hget,hp'⟩ := gettoken_of htok hrest
    rw [hahead] at h
    cases h
    refine ⟨_,p',hget,hp',fun v hv => ?_⟩
    cases hv
    exact hword
  · obtain ⟨ds,rfl⟩ : ∃ ds, cs = 62::ds := by
      cases cs with
      | nil => cases hhead
      | cons d ds =>
        cases hhead
        exact ⟨ds,rfl⟩
    have hnext := drop_succ hcs
    have htok : tokenAt s (skip s p) = (43,skip s p+2) := by
      rw [tokenAt, chr_cons hcs, chr_cons hnext]
      rfl
    obtain ⟨p',hget,hp'⟩ := gettoken_of htok (drop_succ hnext)
    rw [hahead] at h
    cases h
    exact ⟨_,p',hget,hp',nofun⟩
  · obtain ⟨-,hcode,-⟩ := symbol_start hc
    obtain ⟨p',hget,hp'⟩ := gettoken_of (tokenAt_symbol hcs hc hne) (drop_succ hcs)
    rw [hahead] at h
    cases h
    rw [hcode]
    exact ⟨_,p',hget,hp',fun v hv => absurd hv (symbol_ne_word c v)⟩

theorem code_word (h : code t = 97) : ∃ v, t = .word v := by
  cases t with
  | word v => exact ⟨v,rfl⟩
  | lt => cases h
  | gt => cases h
  | app => cases h
  | bar => cases h
  | amp => cases h
  | semi => cases h
  | lpar => cases h
  | rpar => cases h

theorem code_ne_zero (t : Tok) : code t ≠ 0 := by
  cases t with
  | word w => exact (by decide : (97 : UInt8) ≠ 0)
  | _ => decide

end Tokens

end Xv6.ShellTokens

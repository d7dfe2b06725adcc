import Xv6.ItemPatterns

/-!
# The matcher of grep

`match`, `matchhere` and `matchstar` of `grep.c`. A pointer into a string is the list of the
bytes from there to its NUL. Fuel bounds the depth of the calls, with each turn of a loop
counted as one.
-/

set_option autoImplicit false

namespace Xv6.GrepMatch
open ItemPatterns

structure Str where
  bytes : List UInt8
  nul : 0 ∉ bytes

def deref (p : List UInt8) : UInt8 := p.headD 0

abbrev caret : UInt8 := 94
abbrev star : UInt8 := 42
abbrev dollar : UInt8 := 36
abbrev dot : UInt8 := 46

/-- One turn of a loop that returns 1 if its body finds something, and goes on while `more`. -/
def turn (found : Option Bool) (more : Bool) (next : Option Bool) : Option Bool :=
  match found with
  | none => none
  | some true => some true
  | some false => if more then next else some false

mutual

def matchhere : ℕ → List UInt8 → List UInt8 → Option Bool
  | 0, _, _ => none
  | n+1, re, text =>
    if deref re = 0 then some true
    else if deref re.tail = star then matchstar n (deref re) re.tail.tail text
    else if deref re = dollar ∧ deref re.tail = 0 then some (deref text = 0)
    else if deref text ≠ 0 ∧ (deref re = dot ∨ deref re = deref text) then matchhere n re.tail text.tail
    else some false

def matchstar : ℕ → UInt8 → List UInt8 → List UInt8 → Option Bool
  | 0, _, _, _ => none
  | n+1, c, re, text =>
    turn (matchhere n re text) (deref text ≠ 0 ∧ (deref text = c ∨ c = dot)) (matchstar n c re text.tail)

end

def matchLoop : ℕ → List UInt8 → List UInt8 → Option Bool
  | 0, _, _ => none
  | n+1, re, text => turn (matchhere n re text) (deref text ≠ 0) (matchLoop n re text.tail)

/-- `match`. -/
def matchText (n : ℕ) (re text : List UInt8) : Option Bool :=
  if deref re = caret then matchhere n re.tail text else matchLoop n re text

def Stands (c a : UInt8) : Prop := c = dot ∨ c = a

def items : List UInt8 → List (Item UInt8) × Bool
  | [] => ([],false)
  | [c] => if c = dollar then ([],true) else ([.one (Stands c)],false)
  | c::d::re =>
    if d = star then (.many (Stands c)::(items re).1,(items re).2)
    else (.one (Stands c)::(items (d::re)).1,(items (d::re)).2)

def language (re : List UInt8) : Language UInt8 := lang (items re).1

def final (re : List UInt8) : Bool := (items re).2

def Here (re text : List UInt8) : Prop := Begins (language re) (final re) text

/-- A byte for `c` any number of times, and then the pattern. -/
def Repeats (c : UInt8) (re text : List UInt8) : Prop :=
  Begins (lang (.many (Stands c)::(items re).1)) (final re) text

section Equations
variable {c d a : UInt8} {re text : List UInt8}

theorem here_nil : Here [] text := begins_one.mpr nofun

theorem here_star : Here (c::star::re) text ↔ Repeats c re text := by
  simp [Here, Repeats, language, final, items]

theorem here_end : Here [dollar] text ↔ text = [] := by
  have h : Begins (1 : Language UInt8) true text ↔ (true = true → text = []) := begins_one
  simpa [Here, language, final, items, lang_nil] using h

theorem here_one (h : ¬(c = dollar ∧ re = [])) (hstar : ∀ r, re ≠ star::r) :
    Here (c::re) text ↔ ∃ a t, text = a::t ∧ Stands c a ∧ Here re t := by
  have hitems : items (c::re) = (.one (Stands c)::(items re).1,(items re).2) := by
    cases re with
    | nil =>
      have hc : c ≠ dollar := fun hc => h ⟨hc,rfl⟩
      simp [items, hc]
    | cons d re =>
      have hd : d ≠ star := fun hd => hstar re (by rw [hd])
      simp [items, hd]
  rw [Here, language, final, hitems, lang_one]
  exact begins_single

theorem repeats_step (text : List UInt8) :
    Repeats c re text ↔ Here re text ∨ ∃ a t, text = a::t ∧ Stands c a ∧ Repeats c re t := by
  rw [Repeats, lang_many, begins_add, begins_single]
  rfl

end Equations

/-- A call returns, and with 1 exactly if `P` holds. -/
def Decides (o : Option Bool) (P : Prop) : Prop := ∃ b, o = some b ∧ (b = true ↔ P)

section Calls
variable {n : ℕ} {c : UInt8} {re text : List UInt8}

theorem decides_turn {found next : Option Bool} {more : Bool} {P Q : Prop} (hfound : Decides found P)
    (hnext : more = true → Decides next Q) : Decides (turn found more next) (P ∨ (more = true ∧ Q)) := by
  obtain ⟨b,rfl,hb⟩ := hfound
  cases b with
  | true => exact ⟨true,rfl,iff_of_true rfl (.inl (hb.mp rfl))⟩
  | false =>
    have hP : ¬P := fun h => Bool.false_ne_true (hb.mpr h)
    cases more with
    | true =>
      obtain ⟨b,rfl,hb⟩ := hnext rfl
      exact ⟨b,rfl,hb.trans ⟨fun h => .inr ⟨rfl,h⟩,fun h => (h.resolve_left hP).2⟩⟩
    | false =>
      exact ⟨false,rfl,iff_of_false Bool.false_ne_true fun h => Bool.false_ne_true (h.resolve_left hP).1⟩

theorem nul_tail (h : 0 ∉ text) : 0 ∉ text.tail := fun h0 => h (List.mem_of_mem_tail h0)

theorem next_byte {P : UInt8 → Prop} {Q : List UInt8 → Prop} (h : 0 ∉ text) :
    ((deref text ≠ 0 ∧ P (deref text)) ∧ Q text.tail) ↔ ∃ a t, text = a::t ∧ P a ∧ Q t := by
  cases text with
  | nil => simp [deref]
  | cons a t =>
    have ha : a ≠ 0 := fun ha => h (by rw [ha]; exact List.mem_cons_self)
    simp [deref, ha]

theorem deref_tail_length (h : deref text ≠ 0) : text.tail.length+1 = text.length := by
  cases text with
  | nil => exact absurd rfl h
  | cons a t => rfl

theorem deref_nul (h : 0 ∉ text) : deref text = 0 ↔ text = [] := by
  cases text with
  | nil => exact iff_of_true rfl rfl
  | cons a t =>
    have ha : a ≠ 0 := fun ha => h (by rw [ha]; exact List.mem_cons_self)
    exact iff_of_false ha nofun

theorem stands_iff (c a : UInt8) : (a = c ∨ c = dot) ↔ Stands c a := by
  rw [Stands, or_comm, eq_comm (a := a)]

theorem matchstar_turn (htext : 0 ∉ text) (hhere : Decides (matchhere n re text) (Here re text))
    (hnext : deref text ≠ 0 → Decides (matchstar n c re text.tail) (Repeats c re text.tail)) :
    Decides (matchstar (n+1) c re text) (Repeats c re text) := by
  rw [matchstar]
  have hmore : decide (deref text ≠ 0 ∧ (deref text = c ∨ c = dot)) = true → deref text ≠ 0 := fun h =>
    (of_decide_eq_true h).1
  obtain ⟨b,hb,hiff⟩ := decides_turn hhere fun h => hnext (hmore h)
  have hbyte := next_byte (P := Stands c) (Q := Repeats c re) htext
  refine ⟨b,hb,hiff.trans ?_⟩
  rw [repeats_step text, decide_eq_true_eq, ← hbyte, stands_iff]

theorem matchhere_cons (hre : 0 ∉ c::re) (htext : 0 ∉ text)
    (hstar : ∀ r, re = star::r → Decides (matchstar n c r text) (Repeats c r text))
    (hnext : deref text ≠ 0 → Decides (matchhere n re text.tail) (Here re text.tail)) :
    Decides (matchhere (n+1) (c::re) text) (Here (c::re) text) := by
  have hc : deref (c::re) ≠ 0 := fun hc => by cases (deref_nul hre).mp hc
  rw [matchhere, if_neg hc]
  split
  · rename_i hd
    obtain ⟨r,rfl⟩ : ∃ r, re = star::r := by
      cases re with
      | nil => cases hd
      | cons d r =>
        cases hd
        exact ⟨r,rfl⟩
    obtain ⟨b,hb,hiff⟩ := hstar r rfl
    exact ⟨b,hb,hiff.trans here_star.symm⟩
  · rename_i hd
    have hnostar : ∀ r, re ≠ star::r := by
      rintro r rfl
      exact hd rfl
    have hend : (deref (c::re) = dollar ∧ deref (c::re).tail = 0) ↔ c = dollar ∧ re = [] :=
      and_congr_right fun _ => deref_nul (nul_tail hre)
    split
    · rename_i hlast
      obtain ⟨rfl,rfl⟩ := hend.mp hlast
      exact ⟨_,rfl,decide_eq_true_iff.trans ((deref_nul htext).trans here_end.symm)⟩
    · rename_i hlast
      have hone : Here (c::re) text ↔ _ := here_one (fun h => hlast (hend.mpr h)) hnostar
      have hbyte := next_byte (P := Stands c) (Q := Here re) htext
      rw [← hbyte] at hone
      split_ifs with hmore
      · obtain ⟨b,hb,hiff⟩ := hnext hmore.1
        exact ⟨b,hb,hiff.trans ⟨fun h => hone.mpr ⟨hmore,h⟩,fun h => (hone.mp h).2⟩⟩
      · exact ⟨false,rfl,iff_of_false Bool.false_ne_true fun h => hmore (hone.mp h).1⟩

theorem matchers_decide (n : ℕ) :
    (∀ re text, 0 ∉ re → 0 ∉ text → re.length+text.length < n →
    Decides (matchhere n re text) (Here re text)) ∧
    (∀ c re text, 0 ∉ re → 0 ∉ text → re.length+text.length+1 < n →
    Decides (matchstar n c re text) (Repeats c re text)) := by
  induction n with
  | zero => exact ⟨fun _ _ _ _ h => by omega,fun _ _ _ _ _ h => by omega⟩
  | succ n ih =>
    obtain ⟨ihhere,ihstar⟩ := ih
    refine ⟨fun re text hre htext hn => ?_,fun c re text hre htext hn => ?_⟩
    · cases re with
      | nil => exact ⟨true,rfl,iff_of_true rfl here_nil⟩
      | cons c re =>
        rw [List.length_cons] at hn
        refine matchhere_cons hre htext (fun r hr => ?_) fun hmore => ?_
        · subst hr
          rw [List.length_cons] at hn
          exact ihstar c r text (nul_tail (nul_tail hre)) htext (by omega)
        · have hlen := deref_tail_length hmore
          exact ihhere re text.tail (nul_tail hre) (nul_tail htext) (by omega)
    · refine matchstar_turn htext (ihhere re text hre htext (by omega)) fun hmore => ?_
      have hlen := deref_tail_length hmore
      exact ihstar c re text.tail hre (nul_tail htext) (by omega)

theorem matchLoop_decides (hre : 0 ∉ re) (htext : 0 ∉ text) (hn : re.length+text.length+1 < n) :
    Decides (matchLoop n re text) (Occurs (language re) (final re) text) := by
  induction n generalizing text with
  | zero => omega
  | succ n ih =>
    have hmore : decide (deref text ≠ 0) = true → deref text ≠ 0 := of_decide_eq_true
    obtain ⟨b,hb,hiff⟩ := decides_turn ((matchers_decide n).1 re text hre htext (by omega)) fun h =>
      ih (nul_tail htext) (by have hlen := deref_tail_length (hmore h); omega)
    have hbyte := next_byte (P := fun _ => True) (Q := Occurs (language re) (final re)) htext
    refine ⟨b,hb,hiff.trans ?_⟩
    simp only [and_true, true_and] at hbyte
    rw [decide_eq_true_eq, hbyte]
    exact occurs_step.symm

end Calls

def body (re : List UInt8) : List UInt8 := if deref re = caret then re.tail else re

/-- A word of the pattern's language stands in the text, at its beginning behind `^` and at its end with
`$`. -/
def Found (re text : List UInt8) : Prop :=
  ∃ s u v, text = s++u++v ∧ u ∈ language (body re) ∧ (final (body re) = true → v = []) ∧
  (deref re = caret → s = [])

theorem matchText_decides {n : ℕ} {re text : List UInt8} (hre : 0 ∉ re) (htext : 0 ∉ text)
    (hn : re.length+text.length+1 < n) :
    Decides (matchText n re text) (Found re text) := by
  by_cases hcaret : deref re = caret
  · have hlen : re.tail.length+1 = re.length := deref_tail_length (by rw [hcaret]; decide)
    obtain ⟨b,hb,hiff⟩ := (matchers_decide n).1 re.tail text (nul_tail hre) htext (by omega)
    refine ⟨b,by rw [matchText, if_pos hcaret, hb],hiff.trans ?_⟩
    rw [Found, body, if_pos hcaret]
    constructor
    · rintro ⟨u,v,htext,hu,hv⟩
      exact ⟨[],u,v,htext,hu,hv,fun _ => rfl⟩
    · rintro ⟨s,u,v,htext,hu,hv,hs⟩
      rw [hs hcaret] at htext
      exact ⟨u,v,htext,hu,hv⟩
  · obtain ⟨b,hb,hiff⟩ := matchLoop_decides hre htext hn
    refine ⟨b,by rw [matchText, if_neg hcaret, hb],hiff.trans ?_⟩
    rw [Found, body, if_neg hcaret]
    constructor
    · rintro ⟨s,t,htext,u,v,rfl,hu,hv⟩
      exact ⟨s,u,v,by rw [htext, List.append_assoc],hu,hv,fun h => absurd h hcaret⟩
    · rintro ⟨s,u,v,htext,hu,hv,-⟩
      exact ⟨s,u++v,by rw [htext, List.append_assoc],u,v,rfl,hu,hv⟩

/-- `match` finds a word of the pattern's language in the text, at its beginning behind `^` and at its
end with `$`, and all calls return. -/
theorem match_decides_language (re text : Str) (n : ℕ) :
    (∃ b, matchText (re.bytes.length+text.bytes.length+2+n) re.bytes text.bytes = some b ∧
      (b = true ↔ ∃ s u v, text.bytes = s++u++v ∧ u ∈ language (body re.bytes) ∧
        (final (body re.bytes) = true → v = []) ∧ (deref re.bytes = caret → s = []))) ∧
    (∃ b, matchhere (re.bytes.length+text.bytes.length+2+n) re.bytes text.bytes = some b) ∧
    ∀ c, ∃ b, matchstar (re.bytes.length+text.bytes.length+2+n) c re.bytes text.bytes = some b := by
  obtain ⟨hhere,hstar⟩ := matchers_decide (re.bytes.length+text.bytes.length+2+n)
  refine ⟨matchText_decides re.nul text.nul (by omega),?_,fun c => ?_⟩
  · obtain ⟨b,hb,-⟩ := hhere re.bytes text.bytes re.nul text.nul (by omega)
    exact ⟨b,hb⟩
  · obtain ⟨b,hb,-⟩ := hstar c re.bytes text.bytes re.nul text.nul (by omega)
    exact ⟨b,hb⟩

/-- In `^*` the star is itself. -/
example : matchText 9 [caret,star] [star,97] = some true ∧ matchText 9 [caret,star] [97,star] = some false :=
  by decide

end Xv6.GrepMatch

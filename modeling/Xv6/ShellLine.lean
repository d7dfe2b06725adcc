import Mathlib.Data.List.TakeWhile
import Xv6.ShellParser

/-!
# Command lines

`nulterminate` cuts the line behind each word, so that the pointers of the command are the
words; `parsecmd` returns a command for the lines of the grammar, and for no others.
-/

set_option autoImplicit false

namespace Xv6.ShellLine
open FuelParsers ShellCode ShellGrammar ShellTokens ShellParser

structure Cut (b : Text) (ends : List ℕ) (b' : Text) : Prop where
  size : b'.length = b.length
  zero : ∀ e ∈ ends, e < b.length → b'[e]? = some 0
  same : ∀ i, i ∉ ends → b'[i]? = b[i]?

def ends : Cmd Span → List ℕ
  | .exec argv => argv.map Prod.snd
  | .redir cmd file _ _ => ends cmd++[file.2]
  | .pipe left right => ends left++ends right
  | .list left right => ends left++ends right
  | .back cmd => ends cmd

section Cut
variable {b b' b'' : Text} {es es' : List ℕ}

theorem cut_refl (b : Text) : Cut b [] b := ⟨rfl,nofun,fun _ _ => rfl⟩

theorem cut_set (b : Text) (e : ℕ) : Cut b [e] (b.set e 0) where
  size := List.length_set
  zero := fun e' he' hlt => by
    obtain rfl := List.mem_singleton.mp he'
    rw [List.getElem?_set_self hlt]
  same := fun i hi => List.getElem?_set_ne fun heq => hi (by rw [heq]; exact List.mem_singleton_self i)

theorem cut_trans (h : Cut b es b') (h' : Cut b' es' b'') : Cut b (es++es') b'' where
  size := h'.size.trans h.size
  zero := fun e he hlt => by
    by_cases he' : e ∈ es'
    · exact h'.zero e he' (by rw [h.size]; exact hlt)
    · rw [h'.same e he', h.zero e ((List.mem_append.mp he).resolve_right he') hlt]
  same := fun i hi => by
    rw [List.mem_append, not_or] at hi
    rw [h'.same i hi.2, h.same i hi.1]

theorem cut_argv (argv : List Span) (b : Text) :
    Cut b (argv.map Prod.snd) (argv.foldl (fun b w => b.set w.2 0) b) := by
  induction argv generalizing b with
  | nil => exact cut_refl b
  | cons w argv ih => exact cut_trans (cut_set b w.2) (ih (b.set w.2 0))

theorem cut_nulterminate (cmd : Cmd Span) (b : Text) : Cut b (ends cmd) (nulterminate cmd b) := by
  induction cmd generalizing b with
  | exec argv => exact cut_argv argv b
  | redir cmd file mode fd ih => exact cut_trans (ih b) (cut_set _ file.2)
  | pipe left right ihl ihr => exact cut_trans (ihl b) (ihr _)
  | list left right ihl ihr => exact cut_trans (ihl b) (ihr _)
  | back cmd ih => exact ih b

end Cut

section Strings
variable {s b : Text} {span : Span} {w : Text} {p : ℕ}

theorem cstring_eq (htext : ∀ k < w.length, b[p+k]? = w[k]?) (hend : b[p+w.length]? = some 0) (hnul : 0 ∉ w) :
    cstring b p = w := by
  induction w generalizing p with
  | nil =>
    have hfirst : b[p]? = some 0 := hend
    obtain ⟨hlt,hzero⟩ := List.getElem?_eq_some_iff.mp hfirst
    rw [cstring, List.drop_eq_getElem_cons hlt, hzero]
    rfl
  | cons c w ih =>
    have hfirst : b[p]? = some c := htext 0 (Nat.succ_pos _)
    obtain ⟨hlt,hc⟩ := List.getElem?_eq_some_iff.mp hfirst
    rw [List.mem_cons, not_or] at hnul
    have hrest : cstring b (p+1) = w := by
      refine ih (fun k hk => ?_) ?_ hnul.2
      · have hnext := htext (k+1) (Nat.succ_lt_succ hk)
        rw [List.getElem?_cons_succ] at hnext
        rw [← hnext, Nat.add_assoc, Nat.add_comm 1 k]
      · rw [← hend, List.length_cons, Nat.add_assoc, Nat.add_comm 1]
    rw [cstring, List.drop_eq_getElem_cons hlt, hc, List.takeWhile_cons,
      if_pos (bne_iff_ne.mpr (Ne.symm hnul.1))]
    exact congrArg (c::·) hrest

theorem word_split (h : IsWord s span w) :
    ∃ rest, s.drop span.1 = w++rest ∧ ∀ c ∈ rest.head?, isWordChar c = false := by
  refine ⟨(s.drop span.1).dropWhile isWordChar,?_,fun c hc => ?_⟩
  · rw [← h.text, List.takeWhile_append_dropWhile]
  · have hnot := List.head?_dropWhile_not isWordChar (s.drop span.1)
    rw [hc] at hnot
    exact hnot

theorem word_chars (h : IsWord s span w) {k : ℕ} (hk : k < w.length) :
    ∃ c, s[span.1+k]? = some c ∧ w[k]? = some c ∧ isWordChar c = true := by
  obtain ⟨rest,hrest,-⟩ := word_split h
  refine ⟨w[k],?_,List.getElem?_eq_getElem hk,?_⟩
  · rw [← List.getElem?_drop, hrest, List.getElem?_append_left hk, List.getElem?_eq_getElem hk]
  · have hall : ∀ c ∈ w, isWordChar c = true := fun c hc => by
      rw [← h.text] at hc
      exact List.mem_takeWhile_imp hc
    exact hall _ (List.getElem_mem hk)

theorem word_end (h : IsWord s span w) {c : UInt8} (hc : s[span.2]? = some c) : isWordChar c = false := by
  obtain ⟨rest,hrest,hhead⟩ := word_split h
  rw [h.stop, ← List.getElem?_drop, hrest, List.getElem?_append_right (Nat.le_refl _), Nat.sub_self,
    ← List.head?_eq_getElem?] at hc
  exact hhead c hc

theorem word_cstring {es : List ℕ} (hnul : 0 ∉ s) (h : IsWord s span w) (hcut : Cut (s++[0]) es b)
    (hes : ∀ e ∈ es, ∀ c, s[e]? = some c → isWordChar c = false) (hmem : span.2 ∈ es) :
    cstring b span.1 = w := by
  refine cstring_eq (fun k hk => ?_) ?_ ?_
  · obtain ⟨c,hs,hw,hc⟩ := word_chars h hk
    have hnot : span.1+k ∉ es := fun he => by
      rw [hes _ he c hs] at hc
      cases hc
    have hlt := (List.getElem?_eq_some_iff.mp hs).1
    rw [hcut.same _ hnot, List.getElem?_append_left hlt, hs, hw]
  · rw [← h.stop]
    refine hcut.zero _ hmem ?_
    rw [List.length_append]
    exact Nat.lt_succ_of_le h.within
  · intro hzero
    obtain ⟨rest,hrest,-⟩ := word_split h
    exact hnul (List.mem_of_mem_drop (by rw [hrest]; exact List.mem_append_left _ hzero))

theorem exists_word {R : Span → Text → Prop} {argv : List Span} {ws : List Text} (h : List.Forall₂ R argv ws)
    (hmem : span ∈ argv) : ∃ w, R span w := by
  induction h with
  | nil => cases hmem
  | cons hw _ ih =>
    rcases List.mem_cons.mp hmem with rfl | hmem
    · exact ⟨_,hw⟩
    · exact ih hmem

theorem ends_word {cmd : Cmd Span} {t : Cmd Text} (h : Same (IsWord s) cmd t) :
    ∀ e ∈ ends cmd, ∀ c, s[e]? = some c → isWordChar c = false := by
  induction h with
  | exec hws =>
    intro e he c hc
    obtain ⟨span,hspan,rfl⟩ := List.mem_map.mp he
    obtain ⟨w,hw⟩ := exists_word hws hspan
    exact word_end hw hc
  | redir _ hw ih =>
    intro e he c hc
    rcases List.mem_append.mp he with he | he
    · exact ih e he c hc
    · obtain rfl := List.mem_singleton.mp he
      exact word_end hw hc
  | pipe _ _ ih1 ih2 => exact fun e he => (List.mem_append.mp he).elim (ih1 e) (ih2 e)
  | list _ _ ih1 ih2 => exact fun e he => (List.mem_append.mp he).elim (ih1 e) (ih2 e)
  | back _ ih => exact ih

theorem map_same {R : Span → Text → Prop} {f : Span → Text} {cmd : Cmd Span} {t : Cmd Text} (h : Same R cmd t)
    (hf : ∀ span w, R span w → span.2 ∈ ends cmd → f span = w) : cmd.map f = t := by
  induction h with
  | exec hws =>
    refine congrArg Cmd.exec ?_
    replace hf : ∀ span w, R span w → span ∈ _ → f span = w := fun span w hR hm =>
      hf span w hR (List.mem_map_of_mem hm)
    induction hws with
    | nil => rfl
    | cons hw _ ih =>
      rw [List.map_cons, hf _ _ hw List.mem_cons_self,
        ih fun span w hR hm => hf span w hR (List.mem_cons_of_mem _ hm)]
  | redir _ hw ih =>
    rw [Cmd.map, hf _ _ hw (List.mem_append_right _ (List.mem_singleton_self _)),
      ih fun span w hR hm => hf span w hR (List.mem_append_left _ hm)]
  | pipe _ _ ih1 ih2 =>
    rw [Cmd.map, ih1 fun span w hR hm => hf span w hR (List.mem_append_left _ hm),
      ih2 fun span w hR hm => hf span w hR (List.mem_append_right _ hm)]
  | list _ _ ih1 ih2 =>
    rw [Cmd.map, ih1 fun span w hR hm => hf span w hR (List.mem_append_left _ hm),
      ih2 fun span w hR hm => hf span w hR (List.mem_append_right _ hm)]
  | back _ ih => rw [Cmd.map, ih hf]

theorem strings_nulterminate {cmd : Cmd Span} {t : Cmd Text} (hnul : 0 ∉ s) (h : Same (IsWord s) cmd t) :
    cmd.strings (nulterminate cmd (s++[0])) = t :=
  map_same h fun _ _ hw hmem => word_cstring hnul hw (cut_nulterminate cmd (s++[0])) (ends_word h) hmem

end Strings

section Line
variable {s : Text} {fuel p : ℕ} {cmd : Cmd Span}

theorem parsecmd_end (hrun : (parseline s fuel).run 0 = .ok cmd p) (hend : ahead s p = []) :
    parsecmd fuel s = .ok (cmd,nulterminate cmd (s++[0])) s.length := by
  have hskip := (skip_end ((keeps_parse fuel).1 (Nat.zero_le _) hrun)).mpr hend
  rw [parsecmd, bind_ok hrun, bind_ok (peek_run s [] p), hskip, bind_ok (here_run _),
    if_neg (fun hne => hne rfl)]
  rfl

theorem parsecmd_leftovers (hrun : (parseline s fuel).run 0 = .ok cmd p) (hend : ahead s p ≠ []) :
    parsecmd fuel s = .stop (.leftovers (s.drop (skip s p))) := by
  have hskip := fun h => hend ((skip_end ((keeps_parse fuel).1 (Nat.zero_le _) hrun)).mp h)
  rw [parsecmd, bind_ok hrun, bind_ok (peek_run s [] p), bind_ok (here_run _), if_pos hskip]
  rfl

theorem parsecmd_cases (hnul : 0 ∉ s) (hfuel : 4*(tokens s).length+4 ≤ fuel) :
    (∃ cmd t p, parsecmd fuel s = .ok (cmd,nulterminate cmd (s++[0])) p ∧ Line (tokens s) t ∧
    Same (IsWord s) cmd t) ∨
      ∃ e, parsecmd fuel s = .stop e := by
  have hgives := (parse_gives hnul fuel).1 0 hfuel
  rw [Gives] at hgives
  cases hrun : (parseline s fuel).run 0 with
  | ok cmd p =>
    rw [hrun] at hgives
    obtain ⟨xs,t,hxs,hx,hcmd⟩ := hgives
    by_cases hend : ahead s p = []
    · rw [hend, List.append_nil] at hxs
      rw [← hxs] at hx
      exact .inl ⟨cmd,t,_,parsecmd_end hrun hend,hx,hcmd⟩
    · exact .inr ⟨_,parsecmd_leftovers hrun hend⟩
  | stop e =>
    refine .inr ⟨e,?_⟩
    rw [parsecmd, bind_stop hrun]
  | spent =>
    rw [hrun] at hgives
    exact hgives.elim

/-- A command line of the grammar is parsed to the command that it denotes, and every other line
ends in one of the errors. -/
theorem parsecmd_accepts_grammar (s : Text) (hnul : 0 ∉ s) (fuel : ℕ) (hfuel : 4*(tokens s).length+4 ≤ fuel) :
    (∀ t, Line (tokens s) t ↔ ∃ cmd b p, parsecmd fuel s = .ok (cmd,b) p ∧ cmd.strings b = t) ∧
      ((∃ e, parsecmd fuel s = .stop e) ↔ ¬∃ t, Line (tokens s) t) := by
  have hzero : ahead s 0 = tokens s := rfl
  have hreturn : ∀ t, Line (tokens s) t → ∃ cmd b p, parsecmd fuel s = .ok (cmd,b) p ∧ cmd.strings b = t :=
    fun t ht => by
    obtain ⟨cmd,p,hrun,hp,hcmd⟩ := (parse_returns hnul fuel).1 0 hfuel (tokens s) t [] ht
      (by rw [List.append_nil]; exact hzero) (ends_nil _)
    exact ⟨cmd,_,_,parsecmd_end hrun hp,strings_nulterminate hnul hcmd⟩
  have hends : (∃ cmd b p, parsecmd fuel s = .ok (cmd,b) p ∧ Line (tokens s) (cmd.strings b)) ∨
      ∃ e, parsecmd fuel s = .stop e := by
    rcases parsecmd_cases hnul hfuel with ⟨cmd,t,p,hrun,hline,hcmd⟩ | hstop
    · refine .inl ⟨cmd,_,p,hrun,?_⟩
      rw [strings_nulterminate hnul hcmd]
      exact hline
    · exact .inr hstop
  refine ⟨fun t => ⟨hreturn t,?_⟩,?_⟩
  · rintro ⟨cmd,b,p,hrun,rfl⟩
    rcases hends with ⟨cmd',b',p',hrun',hline⟩ | ⟨e,hstop⟩
    · rw [hrun] at hrun'
      cases hrun'
      exact hline
    · rw [hrun] at hstop
      cases hstop
  · constructor
    · rintro ⟨e,hstop⟩ ⟨t,ht⟩
      obtain ⟨cmd,b,p,hrun,-⟩ := hreturn t ht
      rw [hrun] at hstop
      cases hstop
    · intro hnone
      rcases hends with ⟨cmd,b,p,-,hline⟩ | hstop
      · exact absurd ⟨_,hline⟩ hnone
      · exact hstop

/-- The line "echo hi>x|(ls&)" and its command. -/
theorem parsecmd_accepts_echo :
    (∀ t, Line (tokens [101,99,104,111,32,104,105,62,120,124,40,108,115,38,41]) t ↔
      ∃ cmd b p, parsecmd 100 [101,99,104,111,32,104,105,62,120,124,40,108,115,38,41] = .ok (cmd,b) p ∧
      cmd.strings b = t) ∧
    Line (tokens [101,99,104,111,32,104,105,62,120,124,40,108,115,38,41])
      (.pipe (.redir (.exec [[101,99,104,111],[104,105]]) [120] 513 1) (.back (.exec [[108,115]]))) := by
  have hiff :=
    (parsecmd_accepts_grammar [101,99,104,111,32,104,105,62,120,124,40,108,115,38,41] (by decide) 100
    (by simp [tokens, strchr, whitespace, isWordChar, symbols])).1
  exact ⟨hiff,(hiff _).mpr ⟨_,_,_,rfl,rfl⟩⟩

def slice (s : Text) (span : Span) : Text := (s.drop span.1).take (span.2-span.1)

theorem slice_word {span : Span} {w : Text} (h : IsWord s span w) : slice s span = w := by
  obtain ⟨rest,hrest,-⟩ := word_split h
  rw [slice, h.stop, Nat.add_sub_cancel_left, hrest, List.take_left]

theorem map_map_unit {α β : Type} (f : α → β) (cmd : Cmd α) :
    (cmd.map f).map (fun _ => ()) = cmd.map fun _ => () := by
  induction cmd with
  | exec argv => exact congrArg Cmd.exec List.map_map
  | redir cmd file mode fd ih => simp [Cmd.map, ih]
  | pipe left right ihl ihr => simp [Cmd.map, ihl, ihr]
  | list left right ihl ihr => simp [Cmd.map, ihl, ihr]
  | back cmd ih => simp [Cmd.map, ih]

/-- After `nulterminate` every string of a command that `parsecmd` returns is the text of its token,
the tokens are those of the line, and the command has the shape it had. -/
theorem strings_survive_termination (s : Text) (hnul : 0 ∉ s) (fuel : ℕ)
    (hfuel : 4*(tokens s).length+4 ≤ fuel)
    (cmd : Cmd Span) (b : Text) (p : ℕ) (h : parsecmd fuel s = .ok (cmd,b) p) :
    cmd.strings b = cmd.map (slice s) ∧ Line (tokens s) (cmd.map (slice s)) ∧
      (cmd.strings b).map (fun _ => ()) = cmd.map fun _ => () := by
  rcases parsecmd_cases hnul hfuel with ⟨cmd',t,p',hrun,hline,hcmd⟩ | ⟨e,hstop⟩
  · rw [h] at hrun
    cases hrun
    have hslice : cmd.map (slice s) = t := map_same hcmd fun _ _ hw _ => slice_word hw
    rw [hslice, strings_nulterminate hnul hcmd]
    refine ⟨rfl,hline,?_⟩
    rw [← hslice]
    exact map_map_unit _ _
  · rw [h] at hstop
    cases hstop

/-- The line "a>b|c<d&;f", with no blank in it. -/
theorem strings_survive_adjacent :
    ∃ cmd b p, parsecmd 100 [97,62,98,124,99,60,100,38,59,102] = .ok (cmd,b) p ∧
    b = [97,0,98,0,99,0,100,0,59,102,0] ∧
    cmd.strings b = cmd.map (slice [97,62,98,124,99,60,100,38,59,102]) := by
  refine ⟨_,_,_,rfl,rfl,?_⟩
  exact (strings_survive_termination [97,62,98,124,99,60,100,38,59,102] (by decide) 100
    (by simp [tokens, strchr, whitespace, isWordChar, symbols]) _ _ _ rfl).1

end Line

end Xv6.ShellLine

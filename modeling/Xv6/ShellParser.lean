import Mathlib.Data.List.Forall2
import Xv6.ShellTokens

/-!
# The parser and the grammar

What the parser returns is derived by the grammar, and with enough fuel what the grammar
derives is returned. The fuel that is enough is four turns for each token ahead.
-/

set_option autoImplicit false

namespace Xv6.ShellParser
open FuelParsers ShellCode ShellGrammar ShellTokens

inductive Same {α β : Type} (R : α → β → Prop) : Cmd α → Cmd β → Prop
  | exec {argv : List α} {ws : List β} (words : List.Forall₂ R argv ws) : Same R (.exec argv) (.exec ws)
  | redir {cmd : Cmd α} {t : Cmd β} {file : α} {w : β} {mode fd : ℕ} (inner : Same R cmd t)
      (word : R file w) :
      Same R (.redir cmd file mode fd) (.redir t w mode fd)
  | pipe {left right : Cmd α} {t u : Cmd β} (first : Same R left t) (second : Same R right u) :
      Same R (.pipe left right) (.pipe t u)
  | list {left right : Cmd α} {t u : Cmd β} (first : Same R left t) (second : Same R right u) :
      Same R (.list left right) (.list t u)
  | back {cmd : Cmd α} {t : Cmd β} (inner : Same R cmd t) : Same R (.back cmd) (.back t)

theorem same_addArg {α β : Type} {R : α → β → Prop} {cmd : Cmd α} {t : Cmd β} {w : α} {v : β}
    (h : Same R cmd t) (hw : R w v) :
    Same R (cmd.addArg w) (t.addArg v) := by
  induction h with
  | exec hws => exact .exec (List.rel_append hws (.cons hw .nil))
  | redir _ hfile ih => exact .redir ih hfile
  | pipe h1 h2 => exact .pipe h1 h2
  | list h1 h2 => exact .list h1 h2
  | back h => exact .back h

section Steps
variable {s : Text} {p : ℕ} {α : Type} {f : Bool → ShParser α} {g : UInt8 × Span → ShParser α}
    {Q : α → ℕ → Prop}

theorem gives_peek (toks : Text) (htoks : toks.all symbols.contains = true)
    (hf : ∀ p', ahead s p' = ahead s p → Gives (f (starts toks (ahead s p))) Q p') :
    Gives (peek s toks >>= f) Q p := by
  obtain ⟨p',hpeek,hp'⟩ := peek_ahead s p (by simpa using htoks)
  exact gives_next hpeek (hf p' hp')

theorem gives_gettoken (hnul : 0 ∉ s) (hnil : ∀ w p', ahead s p = [] → ahead s p' = [] → Gives (g (0,w)) Q p')
    (hcons : ∀ t w p', ahead s p = t::ahead s p' → (∀ v, t = .word v → IsWord s w v) →
    Gives (g (code t,w)) Q p') :
    Gives (gettoken s >>= g) Q p := by
  cases hp : ahead s p with
  | nil =>
    obtain ⟨w,p',hget,hp'⟩ := gettoken_nil hp
    exact gives_next hget (hnil w p' hp hp')
  | cons t rest =>
    obtain ⟨w,p',hget,hp',hword⟩ := gettoken_cons hnul hp
    refine gives_next hget (hcons t w p' ?_ hword)
    rw [hp, hp']

theorem start_separator {t u : Tok} (hu : u ∈ [.bar,.amp,.semi,.lpar,.rpar])
    (h : strchr [start u] (start t) = true) :
    t = u := by
  cases t with
  | word w =>
    have hno : ∀ u ∈ [Tok.bar,.amp,.semi,.lpar,.rpar], strchr [start u] 97 ≠ true := by decide
    exact absurd h (hno u hu)
  | _ =>
    revert u
    decide

theorem gives_separator {u : Tok} (hnul : 0 ∉ s) (hu : u ∈ [.bar,.amp,.semi,.lpar,.rpar])
    (hstart : starts [start u] (ahead s p) = true)
    (hg : ∀ w p', ahead s p = u::ahead s p' → Gives (g (code u,w)) Q p') : Gives (gettoken s >>= g) Q p := by
  refine gives_gettoken hnul (fun w p' h0 _ => ?_) fun t w p' hp' _ => ?_
  · rw [h0] at hstart
    cases hstart
  · rw [hp'] at hstart
    obtain rfl := start_separator hu hstart
    exact hg w p' hp'

theorem bind_peek (s : Text) (p : ℕ) (b : Bool) (toks : Text) (htoks : toks.all symbols.contains = true)
    (hb : starts toks (ahead s p) = b) :
    ∃ p', (peek s toks >>= f).run p = (f b).run p' ∧ ahead s p' = ahead s p := by
  obtain ⟨p',hpeek,hp'⟩ := peek_ahead s p (by simpa using htoks)
  refine ⟨p',?_,hp'⟩
  rw [bind_ok hpeek, hb]

theorem bind_gettoken {t : Tok} {rest : List Tok} (hnul : 0 ∉ s) (hp : ahead s p = t::rest) :
    ∃ w p', (gettoken s >>= g).run p = (g (code t,w)).run p' ∧ ahead s p' = rest ∧ ∀ v, t = .word v →
    IsWord s w v := by
  obtain ⟨w,p',hget,hp',hword⟩ := gettoken_cons hnul hp
  exact ⟨w,p',bind_ok hget,hp',hword⟩

end Steps

section Loops
variable {s : Text} {p fuel : ℕ} {cmd : Cmd Span} {t : Cmd Text}

def IsRedir (t : Tok) : Prop := t = .lt ∨ t = .gt ∨ t = .app

theorem start_redir {t : Tok} (h : strchr [60,62] (start t) = true) : IsRedir t := by
  cases t with
  | lt => exact .inl rfl
  | gt => exact .inr (.inl rfl)
  | app => exact .inr (.inr rfl)
  | word w => cases h
  | _ => cases h

def redirOf (t : Tok) (w : Text) : Redir := if t = .lt then ⟨w,O_RDONLY,0⟩ else ⟨w,O_WRONLY ||| O_CREATE,1⟩

theorem redirs_one {t : Tok} {w : Text} (ht : IsRedir t) : Redirs [t,.word w] [redirOf t w] := by
  rcases ht with rfl | rfl | rfl
  · exact .lt .nil
  · exact .gt .nil
  · exact .app .nil

theorem same_redircmd {tok : Tok} {file : Span} {w : Text} (h : Same (IsWord s) cmd t) (hw : IsWord s file w)
    (ht : IsRedir tok) : Same (IsWord s) (redircmd cmd (code tok) file) (wrap t [redirOf tok w]) := by
  rcases ht with rfl | rfl | rfl
  · exact .redir h hw
  · exact .redir h hw
  · exact .redir h hw

def Redirected (s : Text) (p : ℕ) (t : Cmd Text) (cmd : Cmd Span) (p' : ℕ) : Prop :=
  ∃ xs ds, ahead s p = xs++ahead s p' ∧ Redirs xs ds ∧ Same (IsWord s) cmd (wrap t ds)

theorem redirs_gives (hnul : 0 ∉ s) (hsame : Same (IsWord s) cmd t) (hfuel : (ahead s p).length < fuel) :
    Gives (parseredirs s fuel cmd) (Redirected s p t) p := by
  refine loop_gives (fun p => (ahead s p).length) (Redirected s p t) ?_ ⟨[],[],rfl,.nil,hsame⟩ hfuel
  rintro cmd p1 ⟨xs,ds,hxs,hds,hcmd⟩
  refine gives_peek [60,62] rfl fun p2 hp2 => ?_
  cases hstart : starts [60,62] (ahead s p1) with
  | false =>
    refine gives_pure ⟨nofun,fun b hb => ?_⟩
    cases hb
    exact ⟨xs,ds,by rw [hp2, hxs],hds,hcmd⟩
  | true =>
    refine gives_gettoken hnul (fun _ _ h0 _ => ?_) fun tok _ p3 hp3 _ => ?_
    · rw [hp2] at h0
      rw [h0] at hstart
      cases hstart
    refine gives_gettoken hnul (fun _ _ _ _ => gives_stop _) fun tok' file p4 hp4 hfile => ?_
    dsimp only
    by_cases hcode : code tok' = 97
    · rw [if_neg (fun hne => hne hcode)]
      obtain ⟨v,rfl⟩ := code_word hcode
      have hsplit : ahead s p1 = [tok,.word v]++ahead s p4 := by
        rw [← hp2, hp3, hp4]
        rfl
      have htok : IsRedir tok := by
        rw [hsplit] at hstart
        exact start_redir hstart
      refine gives_pure ⟨fun a' ha' => ?_,nofun⟩
      cases ha'
      refine ⟨⟨xs++[tok,.word v],ds++[redirOf tok v],?_,redirs_append hds (redirs_one htok),?_⟩,?_⟩
      · rw [hxs, hsplit, List.append_assoc]
      · rw [wrap_append]
        exact same_redircmd hcmd (hfile v rfl) htok
      · rw [hsplit, List.length_append]
        exact Nat.lt_add_of_pos_left (Nat.succ_pos 1)
    · rw [if_pos hcode]
      exact gives_stop _

def Worded (s : Text) (p : ℕ) (ds : List Redir) (argc : ℕ) (cmd : Cmd Span) (p' : ℕ) : Prop :=
  ∃ xs ws es, ahead s p = xs++ahead s p' ∧ Words xs ws es ∧ Same (IsWord s) cmd (wrap (.exec ws) (ds++es)) ∧
    ws.length = argc ∧ argc ≤ 9

theorem args_gives {ds : List Redir} (hnul : 0 ∉ s) (hsame : Same (IsWord s) cmd (wrap (.exec []) ds))
    (hfuel : (ahead s p).length < fuel) :
    Gives (parseargs s fuel fuel (0,cmd)) (fun cmd p' => ∃ argc, Worded s p ds argc cmd p') p := by
  have hstart : Worded s p ds 0 cmd p :=
    ⟨[],[],[],rfl,.nil,by rw [List.append_nil]; exact hsame,rfl,by decide⟩
  refine loop_gives (fun p => (ahead s p).length) (fun x => Worded s p ds x.1 x.2) ?_ hstart hfuel
  rintro ⟨argc,ret⟩ p1 ⟨xs,ws,es,hxs,hws,hret,hargc,hnine⟩
  refine gives_peek [124,41,38,59] rfl fun p2 hp2 => ?_
  have hend : ∀ {p3}, ahead s p3 = ahead s p1 → Worded s p ds argc ret p3 := fun {p3} hp3 =>
    ⟨xs,ws,es,by rw [hxs, hp3],hws,hret,hargc,hnine⟩
  cases starts [124,41,38,59] (ahead s p1) with
  | true =>
    refine gives_pure ⟨nofun,fun b hb => ?_⟩
    cases hb
    exact ⟨argc,hend hp2⟩
  | false =>
    refine gives_gettoken hnul (fun w p3 h0 hp3 => ?_) fun tok word p3 hp3 hword => ?_
    · refine gives_pure ⟨nofun,fun b hb => ?_⟩
      cases hb
      exact ⟨argc,hend (by rw [hp3, ← h0, hp2])⟩
    dsimp only
    rw [if_neg (code_ne_zero tok)]
    by_cases hcode : code tok = 97
    · rw [if_neg (fun hne => hne hcode)]
      obtain ⟨v,rfl⟩ := code_word hcode
      by_cases hmany : MAXARGS ≤ argc+1
      · rw [if_pos hmany]
        exact gives_stop _
      · rw [if_neg hmany]
        have hret' := same_addArg hret (hword v rfl)
        rw [wrap_addArg] at hret'
        have hlen : (ahead s p3).length < (ahead s p1).length := by
          rw [← hp2, hp3]
          exact Nat.lt_succ_self _
        have hle : (ahead s p1).length ≤ (ahead s p).length := by
          rw [hxs, List.length_append]
          exact Nat.le_add_left _ _
        refine gives_bind (redirs_gives hnul hret' (by omega)) ?_
        rintro cmd' p4 ⟨rs,ds',hrs,hds',hcmd'⟩
        refine gives_pure ⟨fun a' ha' => ?_,nofun⟩
        cases ha'
        refine ⟨⟨xs++.word v::rs,ws++[v],es++ds',?_,words_snoc hws hds',?_,?_,?_⟩,?_⟩
        · rw [hxs, ← hp2, hp3, hrs]
          simp
        · rw [← List.append_assoc, wrap_append]
          exact hcmd'
        · rw [List.length_append, hargc]
          rfl
        · exact Nat.le_of_lt_succ (Nat.not_le.mp hmany)
        · rw [hrs, List.length_append] at hlen
          exact Nat.lt_of_le_of_lt (Nat.le_add_left _ _) hlen
    · rw [if_pos hcode]
      exact gives_stop _

theorem backs_gives (hnul : 0 ∉ s) (hsame : Same (IsWord s) cmd t) (hfuel : (ahead s p).length < fuel) :
    Gives (parsebacks s fuel cmd)
      (fun cmd p' => ∃ k, ahead s p = List.replicate k .amp++ahead s p' ∧
      Same (IsWord s) cmd (backs k t)) p := by
  refine loop_gives (fun p => (ahead s p).length)
    (fun cmd p' => ∃ k, ahead s p = List.replicate k .amp++ahead s p' ∧ Same (IsWord s) cmd (backs k t)) ?_
    ⟨0,rfl,hsame⟩ hfuel
  rintro cmd p1 ⟨k,hk,hcmd⟩
  refine gives_peek [38] rfl fun p2 hp2 => ?_
  cases hstart : starts [38] (ahead s p1) with
  | false =>
    refine gives_pure ⟨nofun,fun b hb => ?_⟩
    cases hb
    exact ⟨k,by rw [hk, hp2],hcmd⟩
  | true =>
    refine gives_separator (u := .amp) hnul (by decide) (by rw [hp2]; exact hstart) fun _ p3 hp3 => ?_
    refine gives_pure ⟨fun a' ha' => ?_,nofun⟩
    cases ha'
    rw [hp2] at hp3
    refine ⟨⟨k+1,?_,?_⟩,?_⟩
    · rw [hk, hp3, List.replicate_succ', List.append_assoc]
      rfl
    · rw [backs_succ]
      exact .back hcmd
    · rw [hp3]
      exact Nat.lt_succ_self _

end Loops

def Parsed (s : Text) (G : List Tok → Cmd Text → Prop) (p : ℕ) (cmd : Cmd Span) (p' : ℕ) : Prop :=
  ∃ xs t, ahead s p = xs++ahead s p' ∧ G xs t ∧ Same (IsWord s) cmd t

section Sound
variable {s : Text}

theorem line_gives {fuel : ℕ} (hnul : 0 ∉ s)
    (hline : ∀ p, 4*(ahead s p).length+4 ≤ fuel → Gives (parseline s fuel) (Parsed s Line p) p)
    (hpipe : ∀ p, 4*(ahead s p).length+3 ≤ fuel → Gives (parsepipe s fuel) (Parsed s Pipe p) p) (p : ℕ)
    (hfuel : 4*(ahead s p).length+4 ≤ fuel+1) : Gives (parseline s (fuel+1)) (Parsed s Line p) p := by
  rw [parseline]
  refine gives_bind (hpipe p (by omega)) ?_
  rintro cmd p1 ⟨xs,t,hxs,hx,hcmd⟩
  have hlen := congrArg List.length hxs
  rw [List.length_append] at hlen
  refine gives_bind (backs_gives hnul hcmd (by omega)) ?_
  rintro cmd1 p2 ⟨k,hk,hcmd1⟩
  refine gives_peek [59] rfl fun p3 hp3 => ?_
  cases hstart : starts [59] (ahead s p2) with
  | false =>
    refine gives_pure ⟨xs++List.replicate k .amp,_,?_,.last k hx,hcmd1⟩
    rw [hxs, hk, hp3, List.append_assoc]
  | true =>
    refine gives_separator (u := .semi) hnul (by decide) (by rw [hp3]; exact hstart) fun _ p4 hp4 => ?_
    rw [hp3] at hp4
    have hlen' := congrArg List.length hk
    rw [hp4, List.length_append, List.length_cons] at hlen'
    refine gives_bind (hline p4 (by omega)) ?_
    rintro rest p5 ⟨ys,u,hys,hy,hrest⟩
    refine gives_pure ⟨xs++(List.replicate k .amp++.semi::ys),_,?_,.list k hx hy,.list hcmd1 hrest⟩
    rw [hxs, hk, hp4, hys]
    simp

theorem pipe_gives {fuel : ℕ} (hnul : 0 ∉ s)
    (hpipe : ∀ p, 4*(ahead s p).length+3 ≤ fuel → Gives (parsepipe s fuel) (Parsed s Pipe p) p)
    (hexec : ∀ p, 4*(ahead s p).length+2 ≤ fuel → Gives (parseexec s fuel) (Parsed s Exec p) p) (p : ℕ)
    (hfuel : 4*(ahead s p).length+3 ≤ fuel+1) : Gives (parsepipe s (fuel+1)) (Parsed s Pipe p) p := by
  rw [parsepipe]
  refine gives_bind (hexec p (by omega)) ?_
  rintro cmd p1 ⟨xs,t,hxs,hx,hcmd⟩
  refine gives_peek [124] rfl fun p2 hp2 => ?_
  cases hstart : starts [124] (ahead s p1) with
  | false => exact gives_pure ⟨xs,t,by rw [hxs, hp2],.last hx,hcmd⟩
  | true =>
    refine gives_separator (u := .bar) hnul (by decide) (by rw [hp2]; exact hstart) fun _ p3 hp3 => ?_
    rw [hp2] at hp3
    have hlen := congrArg List.length hxs
    rw [hp3, List.length_append, List.length_cons] at hlen
    refine gives_bind (hpipe p3 (by omega)) ?_
    rintro rest p4 ⟨ys,u,hys,hy,hrest⟩
    refine gives_pure ⟨xs++.bar::ys,_,?_,.pipe hx hy,.pipe hcmd hrest⟩
    rw [hxs, hp3, hys]
    simp

theorem block_gives {fuel : ℕ} (hnul : 0 ∉ s)
    (hline : ∀ p, 4*(ahead s p).length+4 ≤ fuel → Gives (parseline s fuel) (Parsed s Line p) p) (p : ℕ)
    (hopen : starts [40] (ahead s p) = true) (hfuel : 4*(ahead s p).length+1 ≤ fuel+1) :
    Gives (parseblock s (fuel+1)) (Parsed s Exec p) p := by
  rw [parseblock]
  refine gives_peek [40] rfl fun p1 hp1 => ?_
  rw [hopen, if_pos rfl]
  refine gives_separator (u := .lpar) hnul (by decide) (by rw [hp1]; exact hopen) fun _ p2 hp2 => ?_
  rw [hp1] at hp2
  have hlen := congrArg List.length hp2
  rw [List.length_cons] at hlen
  refine gives_bind (hline p2 (by omega)) ?_
  rintro cmd p3 ⟨xs,t,hxs,hx,hcmd⟩
  refine gives_peek [41] rfl fun p4 hp4 => ?_
  cases hclose : starts [41] (ahead s p3) with
  | false => exact gives_stop _
  | true =>
    refine gives_separator (u := .rpar) hnul (by decide) (by rw [hp4]; exact hclose) fun _ p5 hp5 => ?_
    rw [hp4] at hp5
    have hlen' := congrArg List.length hxs
    rw [hp5, List.length_append, List.length_cons] at hlen'
    refine gives_mono (redirs_gives hnul hcmd (by omega)) ?_
    rintro cmd' p6 ⟨rs,ds,hrs,hds,hcmd'⟩
    refine ⟨.lpar::(xs++.rpar::rs),_,?_,.block hx hds,hcmd'⟩
    rw [hp2, hxs, hp5, hrs]
    simp

theorem exec_gives {fuel : ℕ} (hnul : 0 ∉ s)
    (hblock : ∀ p, starts [40] (ahead s p) = true → 4*(ahead s p).length+1 ≤ fuel →
      Gives (parseblock s fuel) (Parsed s Exec p) p) (p : ℕ)
    (hfuel : 4*(ahead s p).length+2 ≤ fuel+1) : Gives (parseexec s (fuel+1)) (Parsed s Exec p) p := by
  rw [parseexec]
  refine gives_peek [40] rfl fun p1 hp1 => ?_
  cases hopen : starts [40] (ahead s p) with
  | true =>
    refine gives_mono (hblock p1 (by rw [hp1]; exact hopen) (by rw [hp1]; omega)) fun cmd p2 hcmd => ?_
    rw [Parsed, hp1] at hcmd
    exact hcmd
  | false =>
    refine gives_bind (redirs_gives (t := .exec []) hnul (.exec .nil) (by rw [hp1]; omega)) ?_
    rintro ret p2 ⟨rs,ds,hrs,hds,hret⟩
    rw [hp1] at hrs
    have hlen := congrArg List.length hrs
    rw [List.length_append] at hlen
    refine gives_mono (args_gives hnul hret (by omega)) ?_
    rintro cmd p3 ⟨argc,xs,ws,es,hxs,hws,hcmd,hargc,hnine⟩
    refine ⟨rs++xs,_,?_,.words hds hws (by rw [hargc]; exact hnine),hcmd⟩
    rw [hrs, hxs, List.append_assoc]

theorem parse_gives (hnul : 0 ∉ s) (fuel : ℕ) :
    (∀ p, 4*(ahead s p).length+4 ≤ fuel → Gives (parseline s fuel) (Parsed s Line p) p) ∧
    (∀ p, 4*(ahead s p).length+3 ≤ fuel → Gives (parsepipe s fuel) (Parsed s Pipe p) p) ∧
    (∀ p, 4*(ahead s p).length+2 ≤ fuel → Gives (parseexec s fuel) (Parsed s Exec p) p) ∧
    (∀ p, starts [40] (ahead s p) = true → 4*(ahead s p).length+1 ≤ fuel →
      Gives (parseblock s fuel) (Parsed s Exec p) p) := by
  induction fuel with
  | zero =>
    refine ⟨fun p h => ?_,fun p h => ?_,fun p h => ?_,fun p _ h => ?_⟩
    all_goals exact absurd h (Nat.not_le.mpr (Nat.succ_pos _))
  | succ fuel ih =>
    obtain ⟨hline,hpipe,hexec,hblock⟩ := ih
    exact ⟨line_gives hnul hline hpipe,pipe_gives hnul hpipe hexec,exec_gives hnul hblock,
      block_gives hnul hline⟩

end Sound

def Ends (ts ys : List Tok) : Prop := ∀ t ∈ ys.head?, t ∈ ts

section Complete
variable {s : Text} {p fuel : ℕ} {cmd : Cmd Span} {t : Cmd Text} {xs ys : List Tok}

theorem ends_nil (ts : List Tok) : Ends ts [] := nofun

theorem ends_cons {ts rest : List Tok} {u : Tok} (hu : u ∈ ts) : Ends ts (u::rest) := fun _ ht => by
  cases ht
  exact hu

theorem ends_mono {ts us : List Tok} (h : Ends ts ys) (hsub : ∀ t ∈ ts, t ∈ us) : Ends us ys :=
  fun t ht => hsub t (h t ht)

theorem ends_starts {ts : List Tok} {toks : Text} (h : Ends ts ys)
    (hno : ∀ t ∈ ts, strchr toks (start t) = false) :
    starts toks ys = false := by
  cases ys with
  | nil => rfl
  | cons t rest => exact hno t (h t rfl)

def after : List Tok := [.bar,.rpar,.amp,.semi]

theorem redirs_cases {ds : List Redir} (h : Redirs xs ds) :
    (xs = [] ∧ ds = []) ∨ ∃ t w xs' ds', IsRedir t ∧ xs = t::.word w::xs' ∧ ds = redirOf t w::ds' ∧
    Redirs xs' ds' := by
  cases h with
  | nil => exact .inl ⟨rfl,rfl⟩
  | lt h => exact .inr ⟨.lt,_,_,_,.inl rfl,rfl,rfl,h⟩
  | gt h => exact .inr ⟨.gt,_,_,_,.inr (.inl rfl),rfl,rfl,h⟩
  | app h => exact .inr ⟨.app,_,_,_,.inr (.inr rfl),rfl,rfl,h⟩

theorem starts_redir {tok : Tok} (ht : IsRedir tok) : starts [60,62] (tok::xs) = true := by
  rcases ht with rfl | rfl | rfl <;> rfl

theorem redir_turn {tok : Tok} {w : Text} (hnul : 0 ∉ s) (ht : IsRedir tok)
    (hp : ahead s p = tok::.word w::xs) :
    ∃ file p', (redirTurn s cmd).run p = .ok (.inl (redircmd cmd (code tok) file)) p' ∧ ahead s p' = xs ∧
    IsWord s file w := by
  rw [redirTurn]
  obtain ⟨p1,hrun,hp1⟩ := bind_peek s p true [60,62] rfl (by rw [hp]; exact starts_redir ht)
  rw [hrun, if_pos rfl]
  obtain ⟨w1,p2,hrun,hp2,-⟩ := bind_gettoken hnul (hp1.trans hp)
  rw [hrun]
  obtain ⟨file,p3,hrun,hp3,hword⟩ := bind_gettoken hnul hp2
  refine ⟨file,p3,?_,hp3,hword w rfl⟩
  dsimp only
  rw [hrun]
  rfl

theorem redirs_ok {ds : List Redir} (hnul : 0 ∉ s) (hx : Redirs xs ds) (hp : ahead s p = xs++ys)
    (hys : starts [60,62] ys = false) (hsame : Same (IsWord s) cmd t) (hfuel : xs.length < fuel) :
    ∃ cmd' p', (parseredirs s fuel cmd).run p = .ok cmd' p' ∧ ahead s p' = ys ∧
    Same (IsWord s) cmd' (wrap t ds) := by
  induction fuel generalizing p cmd t xs ds with
  | zero => exact absurd hfuel (Nat.not_lt_zero _)
  | succ fuel ih =>
    rcases redirs_cases hx with ⟨rfl,rfl⟩ | ⟨tok,w,xs',ds',htok,rfl,rfl,hx'⟩
    · obtain ⟨p1,hrun,hp1⟩ := bind_peek s p false [60,62] rfl (by rw [hp]; exact hys)
      exact ⟨cmd,p1,loop_end hrun,hp1.trans hp,hsame⟩
    · obtain ⟨file,p1,hrun,hp1,hfile⟩ := redir_turn hnul htok hp
      have hrest :=
        ih hx' hp1 (same_redircmd hsame hfile htok) (Nat.lt_of_succ_lt (Nat.lt_of_succ_lt_succ hfuel))
      obtain ⟨cmd',p2,hrun',hp2,hcmd'⟩ := hrest
      exact ⟨cmd',p2,(loop_next hrun).trans hrun',hp2,hcmd'⟩

theorem words_starts (toks : Text) {ws : List Text} {es : List Redir} (hx : Words xs ws es)
    (hys : Ends after ys)
    (hword : strchr toks 97 = false) (hno : ∀ t ∈ after, strchr toks (start t) = false) :
    starts toks (xs++ys) = false := by
  cases hx with
  | nil => exact ends_starts hys hno
  | cons _ _ => exact hword

theorem args_end (fuel argc : ℕ) (cmd : Cmd Span) (hys : Ends after ys) (hp : ahead s p = ys) :
    ∃ p', (argTurn s fuel argc cmd).run p = .ok (.inr cmd) p' ∧ ahead s p' = ys := by
  rw [argTurn]
  cases ys with
  | nil =>
    obtain ⟨p1,hrun,hp1⟩ := bind_peek s p false [124,41,38,59] rfl (by rw [hp]; rfl)
    obtain ⟨w,p2,hget,hp2⟩ := gettoken_nil (hp1.trans hp)
    refine ⟨p2,?_,hp2⟩
    rw [hrun, if_neg Bool.false_ne_true, bind_ok hget]
    rfl
  | cons u rest =>
    have hstart : ∀ t ∈ after, strchr [124,41,38,59] (start t) = true := by decide
    obtain ⟨p1,hrun,hp1⟩ := bind_peek s p true [124,41,38,59] rfl
      (by rw [hp]; exact hstart u (hys u rfl))
    exact ⟨p1,hrun,hp1.trans hp⟩

theorem arg_turn {w : Text} {rs : List Tok} {argc : ℕ} {ds es : List Redir} {ws : List Text} (hnul : 0 ∉ s)
    (hx : Redirs rs ds) (hp : ahead s p = .word w::(rs++ys)) (hys : starts [60,62] ys = false)
    (hsame : Same (IsWord s) cmd (wrap (.exec ws) es)) (hargc : argc < 9) (hfuel : rs.length < fuel) :
    ∃ cmd' p', (argTurn s fuel argc cmd).run p = .ok (.inl (argc+1,cmd')) p' ∧ ahead s p' = ys ∧
      Same (IsWord s) cmd' (wrap (.exec (ws++[w])) (es++ds)) := by
  rw [argTurn]
  obtain ⟨p1,hrun,hp1⟩ := bind_peek s p false [124,41,38,59] rfl (by rw [hp]; rfl)
  rw [hrun, if_neg Bool.false_ne_true]
  obtain ⟨word,p2,hrun,hp2,hword⟩ := bind_gettoken hnul (hp1.trans hp)
  have hret := same_addArg hsame (hword w rfl)
  rw [wrap_addArg] at hret
  obtain ⟨cmd',p3,hredirs,hp3,hcmd'⟩ := redirs_ok hnul hx hp2 hys hret hfuel
  refine ⟨cmd',p3,?_,hp3,?_⟩
  · rw [hrun]
    have hfew : ¬MAXARGS ≤ argc+1 := by
      rw [MAXARGS]
      omega
    dsimp only [code]
    rw [if_neg (by decide), if_neg (by decide), if_neg hfew, bind_ok hredirs]
    rfl
  · rw [wrap_append]
    exact hcmd'

theorem args_ok {ws ws0 : List Text} {ds es : List Redir} {argc k : ℕ} (hnul : 0 ∉ s) (hx : Words xs ws es)
    (hp : ahead s p = xs++ys) (hys : Ends after ys) (hsame : Same (IsWord s) cmd (wrap (.exec ws0) ds))
    (hargc : argc+ws.length ≤ 9) (hk : xs.length < k) (hfuel : xs.length < fuel) :
    ∃ cmd' p', (parseargs s fuel k (argc,cmd)).run p = .ok cmd' p' ∧ ahead s p' = ys ∧
      Same (IsWord s) cmd' (wrap (.exec (ws0++ws)) (ds++es)) := by
  induction hx generalizing p cmd ws0 ds argc k with
  | nil =>
    obtain ⟨k,rfl⟩ : ∃ l, k = l+1 := ⟨k-1,by omega⟩
    obtain ⟨p1,hrun,hp1⟩ := args_end fuel argc cmd hys hp
    refine ⟨cmd,p1,loop_end hrun,hp1,?_⟩
    rw [List.append_nil, List.append_nil]
    exact hsame
  | @cons w rs xs ws ds' es hrs hrest ih =>
    obtain ⟨k,rfl⟩ : ∃ l, k = l+1 := ⟨k-1,by omega⟩
    simp only [List.length_cons, List.length_append] at hk hfuel hargc
    rw [List.cons_append, List.append_assoc] at hp
    have hstart := words_starts [60,62] hrest hys (by decide) (by decide)
    have hone : argc < 9 := by omega
    have hrs' : rs.length < fuel := by omega
    obtain ⟨cmd1,p1,hrun,hp1,hcmd1⟩ := arg_turn hnul hrs hp hstart hsame hone hrs'
    have hargc' : argc+1+ws.length ≤ 9 := by omega
    have hk' : xs.length < k := by omega
    obtain ⟨cmd2,p2,hrun2,hp2,hcmd2⟩ := ih hp1 hcmd1 hargc' hk' (by omega)
    refine ⟨cmd2,p2,(loop_next hrun).trans hrun2,hp2,?_⟩
    rw [List.append_assoc, List.append_assoc] at hcmd2
    exact hcmd2

theorem backs_ok {k : ℕ} (hnul : 0 ∉ s) (hp : ahead s p = List.replicate k .amp++ys)
    (hys : starts [38] ys = false)
    (hsame : Same (IsWord s) cmd t) (hfuel : k < fuel) :
    ∃ cmd' p', (parsebacks s fuel cmd).run p = .ok cmd' p' ∧ ahead s p' = ys ∧
    Same (IsWord s) cmd' (backs k t) := by
  induction k generalizing p cmd t fuel with
  | zero =>
    obtain ⟨fuel,rfl⟩ : ∃ l, fuel = l+1 := ⟨fuel-1,by omega⟩
    obtain ⟨p1,hrun,hp1⟩ := bind_peek s p false [38] rfl (by rw [hp]; exact hys)
    exact ⟨cmd,p1,loop_end hrun,hp1.trans hp,hsame⟩
  | succ k ih =>
    obtain ⟨fuel,rfl⟩ : ∃ l, fuel = l+1 := ⟨fuel-1,by omega⟩
    rw [List.replicate_succ, List.cons_append] at hp
    obtain ⟨p1,hrun,hp1⟩ := bind_peek s p true [38] rfl (by rw [hp]; rfl)
    obtain ⟨w,p2,hget,hp2,-⟩ := gettoken_cons hnul (hp1.trans hp)
    have hturn : (backTurn s cmd).run p = .ok (.inl (.back cmd)) p2 := by
      rw [backTurn, hrun, if_pos rfl, bind_ok hget]
      rfl
    obtain ⟨cmd',p3,hrun',hp3,hcmd'⟩ := ih hp2 (.back hsame) (Nat.lt_of_succ_lt_succ hfuel)
    exact ⟨cmd',p3,(loop_next hturn).trans hrun',hp3,hcmd'⟩

def Returns (s : Text) (parse : ShParser (Cmd Span)) (G : List Tok → Cmd Text → Prop) (ts : List Tok)
    (p : ℕ) : Prop :=
  ∀ xs t ys, G xs t → ahead s p = xs++ys → Ends ts ys →
    ∃ cmd p', parse.run p = .ok cmd p' ∧ ahead s p' = ys ∧ Same (IsWord s) cmd t

theorem ends_backs (k : ℕ) (h : Ends [.rpar,.amp,.semi] ys) :
    Ends [.rpar,.amp,.semi] (List.replicate k .amp++ys) := by
  cases k with
  | zero => exact h
  | succ k => exact ends_cons (by decide)

theorem line_returns (hnul : 0 ∉ s)
    (hline : ∀ p, 4*(ahead s p).length+4 ≤ fuel → Returns s (parseline s fuel) Line [.rpar] p)
    (hpipe : ∀ p, 4*(ahead s p).length+3 ≤ fuel → Returns s (parsepipe s fuel) Pipe [.rpar,.amp,.semi] p)
    (p : ℕ)
    (hfuel : 4*(ahead s p).length+4 ≤ fuel+1) : Returns s (parseline s (fuel+1)) Line [.rpar] p := by
  intro xs t ys hx hp hys
  have hlen := congrArg List.length hp
  rw [parseline]
  cases hx with
  | @last xs cmd k hpipe' =>
    rw [List.append_assoc] at hp
    simp only [List.length_append, List.length_replicate] at hlen
    have hends := ends_backs k (ends_mono hys (by decide))
    have hk : k < fuel := by omega
    obtain ⟨cmd1,p1,hrun,hp1,hcmd1⟩ := hpipe p (by omega) xs cmd _ hpipe' hp hends
    obtain ⟨cmd2,p2,hrun2,hp2,hcmd2⟩ := backs_ok hnul hp1 (ends_starts hys (by decide)) hcmd1 hk
    obtain ⟨p3,hrun3,hp3⟩ := bind_peek s p2 false [59] rfl
      (by rw [hp2]; exact ends_starts hys (by decide))
    refine ⟨cmd2,p3,?_,hp3.trans hp2,hcmd2⟩
    rw [bind_ok hrun, bind_ok hrun2, hrun3]
    rfl
  | @list xs zs cmd rest k hpipe' hline' =>
    rw [List.append_assoc, List.append_assoc, List.cons_append] at hp
    simp only [List.length_append, List.length_replicate, List.length_cons] at hlen
    have hk : k < fuel := by omega
    obtain ⟨cmd1,p1,hrun,hp1,hcmd1⟩ :=
      hpipe p (by omega) xs cmd _ hpipe' hp (ends_backs k (ends_cons (by decide)))
    obtain ⟨cmd2,p2,hrun2,hp2,hcmd2⟩ := backs_ok hnul hp1 rfl hcmd1 hk
    obtain ⟨p3,hrun3,hp3⟩ := bind_peek s p2 true [59] rfl (by rw [hp2]; rfl)
    obtain ⟨w,p4,hget,hp4,-⟩ := gettoken_cons hnul (hp3.trans hp2)
    have hshort : 4*(ahead s p4).length+4 ≤ fuel := by
      rw [hp4, List.length_append]
      omega
    obtain ⟨cmd5,p5,hrun5,hp5,hcmd5⟩ := hline p4 hshort zs rest ys hline' hp4 hys
    refine ⟨.list cmd2 cmd5,p5,?_,hp5,.list hcmd2 hcmd5⟩
    rw [bind_ok hrun, bind_ok hrun2, hrun3, if_pos rfl, bind_ok hget, bind_ok hrun5]
    rfl

theorem pipe_returns (hnul : 0 ∉ s)
    (hpipe : ∀ p, 4*(ahead s p).length+3 ≤ fuel → Returns s (parsepipe s fuel) Pipe [.rpar,.amp,.semi] p)
    (hexec : ∀ p, 4*(ahead s p).length+2 ≤ fuel → Returns s (parseexec s fuel) Exec after p) (p : ℕ)
    (hfuel : 4*(ahead s p).length+3 ≤ fuel+1) :
    Returns s (parsepipe s (fuel+1)) Pipe [.rpar,.amp,.semi] p := by
  intro xs t ys hx hp hys
  have hlen := congrArg List.length hp
  rw [parsepipe]
  cases hx with
  | last hexec' =>
    obtain ⟨cmd1,p1,hrun,hp1,hcmd1⟩ := hexec p (by omega) xs t ys hexec' hp (ends_mono hys (by decide))
    obtain ⟨p2,hrun2,hp2⟩ := bind_peek s p1 false [124] rfl
      (by rw [hp1]; exact ends_starts hys (by decide))
    refine ⟨cmd1,p2,?_,hp2.trans hp1,hcmd1⟩
    rw [bind_ok hrun, hrun2]
    rfl
  | @pipe xs zs cmd rest hexec' hpipe' =>
    rw [List.append_assoc, List.cons_append] at hp
    simp only [List.length_append, List.length_cons] at hlen
    obtain ⟨cmd1,p1,hrun,hp1,hcmd1⟩ := hexec p (by omega) xs cmd _ hexec' hp (ends_cons (by decide))
    obtain ⟨p2,hrun2,hp2⟩ := bind_peek s p1 true [124] rfl (by rw [hp1]; rfl)
    obtain ⟨w,p3,hget,hp3,-⟩ := gettoken_cons hnul (hp2.trans hp1)
    have hshort : 4*(ahead s p3).length+3 ≤ fuel := by
      rw [hp3, List.length_append]
      omega
    obtain ⟨cmd4,p4,hrun4,hp4,hcmd4⟩ := hpipe p3 hshort zs rest ys hpipe' hp3 hys
    refine ⟨.pipe cmd1 cmd4,p4,?_,hp4,.pipe hcmd1 hcmd4⟩
    rw [bind_ok hrun, hrun2, if_pos rfl, bind_ok hget, bind_ok hrun4]
    rfl

inductive Block : List Tok → Cmd Text → Prop
  | mk {xs rs : List Tok} {cmd : Cmd Text} {ds : List Redir} (line : Line xs cmd) (redirs : Redirs rs ds) :
      Block (.lpar::(xs++.rpar::rs)) (wrap cmd ds)

theorem block_returns (hnul : 0 ∉ s)
    (hline : ∀ p, 4*(ahead s p).length+4 ≤ fuel → Returns s (parseline s fuel) Line [.rpar] p)
    (p : ℕ) (hfuel : 4*(ahead s p).length+1 ≤ fuel+1) : Returns s (parseblock s (fuel+1)) Block after p := by
  rintro - - ys ⟨hline',hrs⟩ hp hys
  rename_i xs rs cmd ds
  have hlen := congrArg List.length hp
  rw [List.cons_append, List.append_assoc, List.cons_append] at hp
  simp only [List.length_cons, List.length_append] at hlen
  rw [parseblock]
  obtain ⟨p1,hrun1,hp1⟩ := bind_peek s p true [40] rfl (by rw [hp]; rfl)
  obtain ⟨w2,p2,hget2,hp2,-⟩ := gettoken_cons hnul (hp1.trans hp)
  have hshort : 4*(ahead s p2).length+4 ≤ fuel := by
    rw [hp2, List.length_append, List.length_cons, List.length_append]
    omega
  obtain ⟨cmd3,p3,hrun3,hp3,hcmd3⟩ := hline p2 hshort xs cmd _ hline' hp2 (ends_cons (by decide))
  obtain ⟨p4,hrun4,hp4⟩ := bind_peek s p3 true [41] rfl (by rw [hp3]; rfl)
  obtain ⟨w5,p5,hget5,hp5,-⟩ := gettoken_cons hnul (hp4.trans hp3)
  have hrs' : rs.length < fuel := by omega
  obtain ⟨cmd6,p6,hrun6,hp6,hcmd6⟩ := redirs_ok hnul hrs hp5 (ends_starts hys (by decide)) hcmd3 hrs'
  refine ⟨cmd6,p6,?_,hp6,hcmd6⟩
  rw [hrun1, if_pos rfl, bind_ok hget2, bind_ok hrun3, hrun4, if_pos rfl, bind_ok hget5]
  exact hrun6

theorem redirs_starts {toks : Text} {ds : List Redir} (hx : Redirs xs ds)
    (hno : ∀ t ∈ [Tok.lt,.gt,.app], strchr toks (start t) = false)
    (hys : starts toks ys = false) : starts toks (xs++ys) = false := by
  cases hx with
  | nil => exact hys
  | lt _ => exact hno .lt (by decide)
  | gt _ => exact hno .gt (by decide)
  | app _ => exact hno .app (by decide)

theorem exec_returns (hnul : 0 ∉ s)
    (hblock : ∀ p, 4*(ahead s p).length+1 ≤ fuel → Returns s (parseblock s fuel) Block after p)
    (p : ℕ) (hfuel : 4*(ahead s p).length+2 ≤ fuel+1) : Returns s (parseexec s (fuel+1)) Exec after p := by
  intro xs t ys hx hp hys
  have hlen := congrArg List.length hp
  rw [parseexec]
  cases hx with
  | block hline hrs =>
    obtain ⟨p1,hrun1,hp1⟩ := bind_peek s p true [40] rfl (by rw [hp]; rfl)
    obtain ⟨cmd2,p2,hrun2,hp2,hcmd2⟩ :=
      hblock p1 (by rw [hp1]; omega) _ _ ys (.mk hline hrs) (hp1.trans hp) hys
    refine ⟨cmd2,p2,?_,hp2,hcmd2⟩
    rw [hrun1, if_pos rfl]
    exact hrun2
  | @words rs xs ws ds es hrs hws hnine =>
    rw [List.append_assoc] at hp
    simp only [List.length_append] at hlen
    have hopen : starts [40] (rs++(xs++ys)) = false :=
      redirs_starts hrs (by decide) (words_starts [40] hws hys (by decide) (by decide))
    obtain ⟨p1,hrun1,hp1⟩ := bind_peek s p false [40] rfl (by rw [hp]; exact hopen)
    have hstart := words_starts [60,62] hws hys (by decide) (by decide)
    have hrs' : rs.length < fuel := by omega
    have hxs' : xs.length < fuel := by omega
    obtain ⟨cmd2,p2,hrun2,hp2,hcmd2⟩ :=
      redirs_ok (t := .exec []) hnul hrs (hp1.trans hp) hstart (.exec .nil) hrs'
    obtain ⟨cmd3,p3,hrun3,hp3,hcmd3⟩ :=
      args_ok hnul hws hp2 hys hcmd2 (by rw [Nat.zero_add]; exact hnine) hxs' hxs'
    refine ⟨cmd3,p3,?_,hp3,hcmd3⟩
    rw [hrun1, if_neg Bool.false_ne_true, bind_ok hrun2]
    exact hrun3

theorem parse_returns (hnul : 0 ∉ s) (fuel : ℕ) :
    (∀ p, 4*(ahead s p).length+4 ≤ fuel → Returns s (parseline s fuel) Line [.rpar] p) ∧
    (∀ p, 4*(ahead s p).length+3 ≤ fuel → Returns s (parsepipe s fuel) Pipe [.rpar,.amp,.semi] p) ∧
    (∀ p, 4*(ahead s p).length+2 ≤ fuel → Returns s (parseexec s fuel) Exec after p) ∧
    (∀ p, 4*(ahead s p).length+1 ≤ fuel → Returns s (parseblock s fuel) Block after p) := by
  induction fuel with
  | zero =>
    refine ⟨fun p h => ?_,fun p h => ?_,fun p h => ?_,fun p h => ?_⟩
    all_goals exact absurd h (Nat.not_le.mpr (Nat.succ_pos _))
  | succ fuel ih =>
    obtain ⟨hline,hpipe,hexec,hblock⟩ := ih
    exact ⟨line_returns hnul hline hpipe,pipe_returns hnul hpipe hexec,exec_returns hnul hblock,
      block_returns hnul hline⟩

end Complete

section Bounds
variable (s : Text)

def Within (p : ℕ) : Prop := p ≤ s.length

variable {s}

theorem advance_within {P : UInt8 → Bool} {p : ℕ} (h : Within s p) : Within s (advance s P p) := by
  have hlen := (List.takeWhile_prefix P (l := s.drop p)).length_le
  rw [List.length_drop] at hlen
  rw [Within] at *
  rw [advance_eq]
  omega

theorem chr_within {p : ℕ} (h : chr s p ≠ 0) : Within s (p+1) := by
  refine Nat.not_le.mp fun hle => h (chr_nil ?_)
  exact List.drop_eq_nil_iff.mpr hle

theorem tokenAt_within {q : ℕ} (h : Within s q) : Within s (tokenAt s q).2 := by
  rw [tokenAt]
  by_cases hzero : chr s q = 0
  · rw [if_pos hzero]
    exact h
  rw [if_neg hzero]
  have hone := chr_within hzero
  by_cases hsingle : chr s q ∈ [124,40,41,59,38,60]
  · rw [if_pos hsingle]
    exact hone
  rw [if_neg hsingle]
  by_cases hgt : chr s q = 62
  · rw [if_pos hgt]
    by_cases hgt2 : chr s (q+1) = 62
    · rw [if_pos hgt2]
      exact chr_within (p := q+1) (by rw [hgt2]; decide)
    · rw [if_neg hgt2]
      exact hone
  · rw [if_neg hgt]
    exact advance_within h

theorem keeps_gettoken : Keeps (Within s) (gettoken s) := fun hI h => by
  rw [gettoken_run] at h
  cases h
  exact advance_within (tokenAt_within (advance_within hI))

theorem keeps_peek (toks : Text) : Keeps (Within s) (peek s toks) := fun hI h => by
  rw [peek_run] at h
  cases h
  exact advance_within hI

theorem keeps_redirs (fuel : ℕ) (cmd : Cmd Span) : Keeps (Within s) (parseredirs s fuel cmd) := by
  refine keeps_loop (fun cmd => ?_) fuel cmd
  refine keeps_bind (keeps_peek _) fun b => keeps_ite ?_ (keeps_pure _)
  refine keeps_bind keeps_gettoken fun tok => keeps_bind keeps_gettoken fun file => ?_
  exact keeps_ite (keeps_stop _) (keeps_pure _)

theorem keeps_args (fuel k : ℕ) (x : ℕ × Cmd Span) : Keeps (Within s) (parseargs s fuel k x) := by
  refine keeps_loop (fun x => ?_) k x
  refine keeps_bind (keeps_peek _) fun b => keeps_ite (keeps_pure _) (keeps_bind keeps_gettoken fun tok => ?_)
  refine keeps_ite (keeps_pure _) (keeps_ite (keeps_stop _) (keeps_ite (keeps_stop _) ?_))
  exact keeps_bind (keeps_redirs _ _) fun ret => keeps_pure _

theorem keeps_backs (fuel : ℕ) (cmd : Cmd Span) : Keeps (Within s) (parsebacks s fuel cmd) := by
  refine keeps_loop (fun cmd => ?_) fuel cmd
  refine keeps_bind (keeps_peek _) fun b =>
    keeps_ite (keeps_bind keeps_gettoken fun _ => keeps_pure _) (keeps_pure _)

theorem keeps_parse (fuel : ℕ) : Keeps (Within s) (parseline s fuel) ∧ Keeps (Within s) (parsepipe s fuel) ∧
    Keeps (Within s) (parseexec s fuel) ∧ Keeps (Within s) (parseblock s fuel) := by
  induction fuel with
  | zero =>
    rw [parseline, parsepipe, parseexec, parseblock]
    exact ⟨keeps_spent,keeps_spent,keeps_spent,keeps_spent⟩
  | succ fuel ih =>
    obtain ⟨hline,hpipe,hexec,hblock⟩ := ih
    rw [parseline, parsepipe, parseexec, parseblock]
    refine ⟨?_,?_,?_,?_⟩
    · refine keeps_bind hpipe fun cmd => keeps_bind (keeps_backs _ _) fun cmd =>
        keeps_bind (keeps_peek _) fun b => ?_
      exact keeps_ite (keeps_bind keeps_gettoken fun _ => keeps_bind hline fun _ => keeps_pure _)
        (keeps_pure _)
    · refine keeps_bind hexec fun cmd => keeps_bind (keeps_peek _) fun b => ?_
      exact keeps_ite (keeps_bind keeps_gettoken fun _ => keeps_bind hpipe fun _ => keeps_pure _)
        (keeps_pure _)
    · refine keeps_bind (keeps_peek _) fun b => keeps_ite hblock ?_
      exact keeps_bind (keeps_redirs _ _) fun ret => keeps_args _ _ _
    · refine keeps_bind (keeps_peek _) fun b =>
        keeps_ite (keeps_bind keeps_gettoken fun _ => ?_) (keeps_stop _)
      refine keeps_bind hline fun cmd => keeps_bind (keeps_peek _) fun b => ?_
      exact keeps_ite (keeps_bind keeps_gettoken fun _ => keeps_redirs _ _) (keeps_stop _)

theorem skip_end {p : ℕ} (h : Within s p) : skip s p = s.length ↔ ahead s p = [] := by
  rw [← ahead_skip]
  have hin : Within s (skip s p) := advance_within h
  constructor
  · intro hend
    rw [ahead, hend, List.drop_length, tokens]
  · intro hnil
    rcases ahead_cases s p with ⟨hdrop,-⟩ | ⟨c,cs,-,⟨-,hahead⟩ | ⟨-,⟨-,-,hahead⟩ | ⟨-,hahead⟩⟩⟩
    · exact Nat.le_antisymm hin (List.drop_eq_nil_iff.mp hdrop)
    all_goals
      rw [ahead_skip, hahead] at hnil
      cases hnil

end Bounds

end Xv6.ShellParser

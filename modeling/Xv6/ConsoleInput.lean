import Xv6.ConsoleStep
import Xv6.CounterRing
import Xv6.LineEditor

/-!
# Reading from the console

The readers of `consoleread` over the console, under `cons.lock`: a reader holds the
lock through its loop and gives it up in `sleep`, and a key or a character written
finds the lock free. A reader is not killed. The ring holds what a line editor holds,
and every run is one of the editor's.
-/

set_option autoImplicit false

namespace Xv6.ConsoleInput
open TransitionSystem ConsoleMachine ConsoleStep CounterRing
open LineEditor (Editor)

/-- A reader that wants the lock, is in the loop, sleeps on `&input.r` or has left the
loop; with `n`, `target` and what it has stored at `dst`. -/
inductive Reader where
  | idle
  | waiting (n target : ℤ) (got : List Char8)
  | reading (n target : ℤ) (got : List Char8)
  | asleep (n target : ℤ) (got : List Char8)
  | left (n target : ℤ) (got : List Char8)
  deriving DecidableEq

structure Input (ι : Type) where
  console : Console
  lock : Option ι
  reader : ι → Reader

inductive Label (ι : Type) where
  | key (c : Char8)
  | write (c : Char8)
  | call (p : ι) (n : ℤ)
  | acquire (p : ι)
  | go (p : ι)
  | release (p : ι)

/-- The characters between `input.r` and `input.w`, and those up to `input.e`. -/
def contents (s : Console) : Editor :=
  ⟨held (by decide) s.buf s.r (s.w-s.r).toNat,held (by decide) s.buf s.w (s.e-s.w).toNat⟩

def wakeup : Reader → Reader
  | .asleep n target got => .waiting n target got
  | x => x

variable {ι : Type} [DecidableEq ι]

def Input.set (s : Input ι) (p : ι) (x : Reader) : Input ι :=
  { s with reader := Function.update s.reader p x }

/-- A round of the loop of `consoleread`: what is left of the console, the reader and
the characters that are gone from the ring. -/
def round (s : Console) (n target : ℤ) (got : List Char8) : Console × Reader × List Char8 :=
  let c := s.buf (slot s.r)
  let s' := { s with r := s.r+1 }
  if c = ctrlD then
    if n < target then ({ s' with r := s'.r-1 },.left n target got,[])
    else (s',.left n target got,[c])
  else if c = newline then (s',.left (n-1) target (got++[c]),[c])
  else (s',.reading (n-1) target (got++[c]),[c])

def step (s : Input ι) : Label ι → Option (Input ι × List (LineEditor.Event ι))
  | .key c => if s.lock = none then
      (consoleintr c s.console).map (fun q =>
        ({ s with console := q.1,
                  reader := if .wakeup ∈ q.2 then fun p => wakeup (s.reader p) else s.reader },
          [.typed c, .ready (LineEditor.news (contents s.console).ready (contents q.1).ready)]))
    else none
  | .write c => if s.lock = none then
      (consputc c.toNat s.console).map (fun q => ({ s with console := q.1 },[]))
    else none
  | .call p n => if s.reader p = .idle then some (s.set p (.waiting n n []),[.called p n]) else none
  | .acquire p => match s.reader p with
    | .waiting n target got =>
      if s.lock = none then some ({ s with lock := some p }.set p (.reading n target got),[]) else none
    | _ => none
  | .go p => match s.reader p with
    | .reading n target got =>
      if n ≤ 0 then some (s.set p (.left n target got),[])
      else if s.console.r = s.console.w then
        some ({ s with lock := none }.set p (.asleep n target got),[])
      else
        let q := round s.console n target got
        some ({ s with console := q.1 }.set p q.2.1,q.2.2.map (.took p))
    | _ => none
  | .release p => match s.reader p with
    | .left n target got =>
      some ({ s with lock := none }.set p .idle,[.result p (target-n) got])
    | _ => none

def boot (s : Console) (i : Index) : Input ι := ⟨{ s with r := i, w := i, e := i },none,fun _ => .idle⟩

def input (s : Console) (i : Index) : System (Input ι) (Label ι) (LineEditor.Event ι) := ⟨boot s i,step⟩

/-- The keys that add nothing: of the arrows only left and right. -/
def Ignored (c : Char8) : Prop := c = KEYLF ∨ c = KEYRT ∨ c = ctrlP ∨ c = 0

instance : DecidablePred Ignored := fun _ => inferInstanceAs (Decidable (_ ∨ _))

def OneLine (s : Console) : Prop := newline ∉ (contents s).text

theorem slot_cell (i : Index) : slot i = cell (by decide) i := rfl

variable {s : Console} {t : LineEditor.State ι} {o : List Out} {got : List Char8} {e : Editor}

theorem contents_size (h : Ring s) : (contents s).size = (s.e-s.r).toNat := by
  have htext := ring_text h
  have horder := h.order
  simp only [contents, Editor.size, held_length]
  omega

theorem contents_same {s s' : Console} (hb : s'.buf = s.buf) (hr : s'.r = s.r) (hw : s'.w = s.w)
    (he : s'.e = s.e) : contents s' = contents s := by
  rw [contents, contents, hb, hr, hw, he]

theorem contents_put {c : ℕ} {s s' : Console} (put : Put c s s' o) :
    contents s' = contents s := contents_same put.buf put.r put.w put.e

theorem text_drop (hne : s.e ≠ s.w) :
    contents (dropChar s) = { contents s with text := (contents s).text.dropLast } := by
  have hlen := drop_length hne
  simp only [drop_char_fields] at hlen
  simp only [contents, drop_char_fields]
  rw [← hlen, held_snoc, List.dropLast_concat]

theorem text_last (hne : s.e ≠ s.w) : s.buf (slot (s.e-1)) ∈ (contents s).text := by
  have hlen := drop_length hne
  simp only [drop_char_fields] at hlen
  have hcell : s.w+BitVec.ofNat 32 (s.e-1-s.w).toNat = s.e-1 := add_diff _ _
  simp only [contents]
  rw [← hlen, held_snoc, hcell, ← slot_cell]
  exact List.mem_append_right _ (List.mem_singleton.mpr rfl)

theorem text_nil (h : s.e = s.w) : (contents s).text = [] := by
  simp [contents, h]

theorem ready_diff : s.r+BitVec.ofNat 32 (s.w-s.r).toNat = s.w := add_diff _ _

theorem text_store (c : Char8) (h : Ring s) (room : (s.e-s.r).toNat < INPUTBUF) :
    contents (storeChar c s) = { contents s with text := (contents s).text++[c] } := by
  have htext := ring_text h
  have hlen := store_length c (s := s) (by omega)
  have hat : s.w+BitVec.ofNat 32 (s.e-s.w).toNat = s.e := add_diff _ _
  have hfrom : s.r+BitVec.ofNat 32 (s.e-s.r).toNat = s.e := add_diff _ _
  simp only [store_char_fields] at hlen
  simp only [contents, store_char_fields, hlen]
  refine congrArg₂ Editor.mk ?_ ?_
  · -- the ready characters are the first of those up to the cell of `c`
    have hpre : (s.e-s.r).toNat = (s.w-s.r).toNat+(s.e-s.w).toNat := by
      have := h.order
      omega
    have hall := held_store (by decide : 0 < INPUTBUF) s.buf (r := s.r) (by decide) c room
    rw [hfrom, ← slot_cell, hpre, held_append, held_append] at hall
    exact (List.append_inj hall (by simp)).1
  · have hpush := held_push (by decide : 0 < INPUTBUF) s.buf (r := s.w)
      (n := (s.e-s.w).toNat) (by decide) c (by omega)
    rwa [hat, ← slot_cell] at hpush

theorem commit_contents (h : Ring s) (t : ℤ) :
    contents { s with w := s.e, textEnd := t } = (contents s).commit := by
  have hpre : (s.e-s.r).toNat = (s.w-s.r).toNat+(s.e-s.w).toNat := by
    have htext := ring_text h
    have := h.order
    omega
  simp only [contents, Editor.commit, BitVec.sub_self, BitVec.toNat_zero, held_zero]
  rw [hpre, held_append, ready_diff]

theorem kill_contents (n : ℕ) {s s' : Console} (hn : (s.e-s.w).toNat = n)
    (hline : OneLine s) (h : killLine n s = some (s',o)) :
    contents s' = { contents s with text := [] } := by
  induction n generalizing s o with
  | zero =>
    cases h
    have hempty : s'.e = s'.w := by bv_omega
    rw [← text_nil hempty]
  | succ n ih =>
    have hne : s.e ≠ s.w := by
      intro heq
      rw [heq, BitVec.sub_self] at hn
      cases hn
    have hlast : s.buf (slot (s.e-1)) ≠ newline := fun heq => hline (heq ▸ text_last hne)
    rw [killLine, if_pos ⟨hne,hlast⟩] at h
    split at h
    · cases h
    · rename_i s1 o1 h1
      obtain ⟨⟨s2,o2⟩,h2,heq⟩ := Option.map_eq_some_iff.mp h
      cases heq
      have put := consputc_put h1
      have hc1 : contents s1 = { contents s with text := (contents s).text.dropLast } :=
        (contents_put put).trans (text_drop hne)
      have hlen := drop_length hne
      have hn1 : (s1.e-s1.w).toNat = n := by
        rw [put.e, put.w]
        omega
      have hline1 : OneLine s1 := by
        rw [OneLine, hc1]
        exact fun hmem => hline (List.dropLast_subset _ hmem)
      rw [ih hn1 hline1 h2, hc1]

theorem insert_contents {c : Char8} {s s' : Console} (h : Ring s)
    (room : (s.e-s.r).toNat < INPUTBUF) (hs : insert c s = some (s',o)) :
    contents s' = (contents s).append (typed c) := by
  obtain ⟨q,hq,heq⟩ := Option.map_eq_some_iff.mp hs
  have put := consputc_put hq
  have hring : Ring q.1 := ring_put (ring_store (typed c) h room) put
  have hcq : contents q.1 = { contents s with text := (contents s).text++[typed c] } :=
    (contents_put put).trans (text_store (typed c) h room)
  have hfull : q.1.e = q.1.r+128 ↔ (contents q.1).size = INPUTBUF := by
    rw [contents_size hring]
    simp only [INPUTBUF]
    constructor
    · intro he
      bv_omega
    · intro he
      bv_omega
  simp only [Editor.append, ← hcq, ← hfull]
  unfold commitLine at heq
  split at heq
  · rename_i hcommit
    cases heq
    rw [if_pos hcommit]
    exact commit_contents hring _
  · rename_i hcommit
    cases heq
    rw [if_neg hcommit]

theorem key_case (e : Editor) (c : Char8) : e.key Ignored c = match keyCase c with
    | .left | .right | .list => e
    | .kill => { e with text := [] }
    | .erase => { e with text := e.text.dropLast }
    | .other => if c ≠ 0 ∧ e.size < INPUTBUF then e.append (typed c) else e := by
  unfold keyCase Editor.key
  by_cases hl : c = KEYLF
  · rw [if_pos (show Ignored c from .inl hl), if_pos hl]
  by_cases hr : c = KEYRT
  · rw [if_pos (show Ignored c from .inr (.inl hr)), if_neg hl, if_pos hr]
  by_cases hp : c = ctrlP
  · rw [if_pos (show Ignored c from .inr (.inr (.inl hp))), if_neg hl, if_neg hr, if_pos hp]
  rw [if_neg hl, if_neg hr, if_neg hp]
  by_cases h0 : c = 0
  · rw [if_pos (show Ignored c from .inr (.inr (.inr h0))), h0]
    rfl
  have hkeep : ¬Ignored c := by
    rintro (h | h | h | h)
    · exact hl h
    · exact hr h
    · exact hp h
    · exact h0 h
  rw [if_neg hkeep]
  by_cases hu : c = ctrlU
  · rw [if_pos hu, if_pos hu]
  rw [if_neg hu, if_neg hu]
  by_cases hh : c = ctrlH ∨ c = delete
  · rw [if_pos hh, if_pos hh]
  rw [if_neg hh, if_neg hh]
  simp only [ne_eq, h0, not_false_eq_true, true_and]

theorem key_contents {c : Char8} {s s' : Console} (h : Ring s) (hline : OneLine s)
    (hs : consoleintr c s = some (s',o)) : contents s' = (contents s).key Ignored c := by
  rw [key_case, contents_size h]
  unfold consoleintr at hs
  cases hk : keyCase c with
  | left =>
    simp only [hk] at hs ⊢
    cases hs
    rfl
  | right =>
    simp only [hk] at hs ⊢
    split at hs <;> cases hs <;> rfl
  | list =>
    simp only [hk] at hs ⊢
    cases hs
    rfl
  | kill =>
    simp only [hk] at hs ⊢
    exact kill_contents _ rfl hline hs
  | erase =>
    simp only [hk] at hs ⊢
    split at hs
    · rename_i hne
      exact (contents_put (consputc_put hs)).trans (text_drop hne)
    · rename_i hne
      cases hs
      have hnil : (contents s).text = [] := text_nil (not_not.mp hne)
      rw [hnil, List.dropLast_nil, ← hnil]
  | other =>
    simp only [hk] at hs ⊢
    split at hs
    · rename_i hroom
      rw [if_pos hroom]
      exact insert_contents h hroom.2 hs
    · rename_i hroom
      cases hs
      rw [if_neg hroom]

theorem append_line {c : Char8} (h : newline ∉ e.text) : newline ∉ (e.append c).text := by
  unfold Editor.append
  dsimp only
  split_ifs with hc
  · exact List.not_mem_nil
  · intro hmem
    rcases List.mem_append.mp hmem with hmem | hmem
    · exact h hmem
    · exact hc (.inl (List.mem_singleton.mp hmem).symm)

theorem key_line (c : Char8) (h : newline ∉ e.text) : newline ∉ (e.key Ignored c).text := by
  rw [key_case]
  split
  · exact h
  · exact h
  · exact h
  · exact List.not_mem_nil
  · exact fun hmem => h (List.dropLast_subset _ hmem)
  · split
    · exact append_line h
    · exact h

theorem read_cons (hne : s.r ≠ s.w) :
    (contents s).ready = s.buf (slot s.r)::(contents { s with r := s.r+1 }).ready := by
  have hlen : (s.w-s.r).toNat = (s.w-(s.r+1)).toNat+1 := by bv_omega
  simp only [contents]
  rw [hlen, held_cons, ← slot_cell]

def view : Reader → LineEditor.Reader
  | .idle => .idle
  | .waiting n _ got => .reading n.toNat got
  | .reading n _ got => .reading n.toNat got
  | .asleep n _ got => .reading n.toNat got
  | .left _ _ got => .done got

/-- A reader has as many characters as it wants fewer. -/
def Counts : Reader → Prop
  | .idle => True
  | .waiting n target got => target-n = got.length
  | .reading n target got => target-n = got.length
  | .asleep n target got => target-n = got.length
  | .left n target got => target-n = got.length

theorem view_wakeup (x : Reader) : view (wakeup x) = view x := by cases x <;> rfl

theorem counts_wakeup {x : Reader} (h : Counts x) : Counts (wakeup x) := by cases x <;> exact h

theorem round_take {n target : ℤ} (hne : s.r ≠ s.w) (hn : 0 < n)
    (hc : target-n = got.length) :
    (contents s).take n.toNat got =
      some (contents (round s n target got).1,view (round s n target got).2.1,
      (round s n target got).2.2) := by
  have hready := read_cons hne
  have hgot : n < target ↔ got ≠ [] := by
    rw [← List.length_pos_iff]
    omega
  unfold Editor.take round
  rw [hready]
  dsimp only
  split
  · split
    · rename_i hnil
      rw [if_neg (by rw [hgot]; exact not_not.mpr hnil)]
      rfl
    · rename_i hnil
      rw [if_pos (hgot.mpr hnil)]
      simp only [BitVec.add_sub_cancel]
      rfl
  · have hless : (n-1).toNat = n.toNat-1 := by omega
    split
    · rfl
    · simp only [view, hless]
      rfl

theorem round_counts {n target : ℤ} (hc : target-n = got.length) :
    Counts (round s n target got).2.1 := by
  have hless : target-(n-1) = ((got++[s.buf (slot s.r)]).length : ℤ) := by
    rw [List.length_append, List.length_singleton]
    omega
  unfold round
  dsimp only
  split
  · split <;> exact hc
  · split <;> exact hless

theorem round_text (s : Console) (n target : ℤ) (got : List Char8) :
    (contents (round s n target got).1).text = (contents s).text := by
  unfold round
  dsimp only
  split
  · split <;> rfl
  · split <;> rfl

theorem round_ring (n target : ℤ) (got : List Char8) (h : Ring s) (hne : s.r ≠ s.w) :
    Ring (round s n target got).1 := by
  have hread : Ring { s with r := s.r+1 } := ring_move h (.read hne)
  unfold round
  dsimp only
  split
  · split
    · simp only [BitVec.add_sub_cancel]
      exact h
    · exact hread
  · split <;> exact hread

structure Edited (s : Input ι) (t : LineEditor.State ι) : Prop where
  ring : Ring s.console
  line : OneLine s.console
  same : t = ⟨contents s.console,fun p => view (s.reader p)⟩
  counts : ∀ p, Counts (s.reader p)

theorem view_set (s : Input ι) (p : ι) (x : Reader) :
    (fun q => view ((s.set p x).reader q)) = Function.update (fun q => view (s.reader q)) p (view x) := by
  funext q
  simp only [Input.set, Function.update_apply]
  split <;> rfl

def after (s : Input ι) (c : Console) (p : ι) (x : Reader) : LineEditor.State ι :=
  ⟨contents c,Function.update (fun q => view (s.reader q)) p (view x)⟩

theorem after_edited {s : Input ι} (h : Edited s t) {c : Console}
    (hring : Ring c) (htext : (contents c).text = (contents s.console).text) (l : Option ι) {p : ι}
    {x : Reader} (hx : Counts x) :
    Edited ({ s with console := c, lock := l }.set p x) (after s c p x) := by
  refine ⟨hring,?_,?_,?_⟩
  · rw [OneLine]
    exact htext ▸ h.line
  · rw [view_set]
    rfl
  · intro q
    simp only [Input.set, Function.update_apply]
    split
    · exact hx
    · exact h.counts q

theorem unseen_edited {s : Input ι} (h : Edited s t) {p : ι} (x : Reader)
    (hview : view x = view (s.reader p)) (hx : Counts x) (l : Option ι) :
    Edited ({ s with lock := l }.set p x) t := by
  have hafter := after_edited h h.ring rfl l (p := p) hx
  rwa [after, hview, Function.update_eq_self, ← h.same] at hafter

theorem step_edited {s s' : Input ι} {l : Label ι} {o : List (LineEditor.Event ι)}
    (h : Edited s t) (hs : step s l = some (s',o)) :
    (∃ l' t', LineEditor.step Ignored t l' = some (t',o) ∧ Edited s' t') ∨ (o = [] ∧ Edited s' t) := by
  have hsame := h.same
  subst hsame
  cases l with
  | key c =>
    simp only [step] at hs
    split at hs
    · obtain ⟨q,hq,heq⟩ := Option.map_eq_some_iff.mp hs
      have hkey := key_contents h.ring h.line hq
      cases heq
      refine .inl ⟨.key c,⟨contents q.1,fun p => view (s.reader p)⟩,?_,?_⟩
      · simp only [LineEditor.step, hkey]
      · refine ⟨ring_move h.ring (key_cases hq),?_,?_,?_⟩
        · rw [OneLine, hkey]
          exact key_line c h.line
        · refine congrArg (LineEditor.State.mk _) (funext fun p => ?_)
          dsimp only
          split
          · exact (view_wakeup _).symm
          · rfl
        · intro p
          dsimp only
          split
          · exact counts_wakeup (h.counts p)
          · exact h.counts p
    · cases hs
  | write c =>
    simp only [step] at hs
    split at hs
    · obtain ⟨q,hq,heq⟩ := Option.map_eq_some_iff.mp hs
      cases heq
      have put := consputc_put hq
      refine .inr ⟨rfl,ring_put h.ring put,?_,?_,h.counts⟩
      · rw [OneLine, contents_put put]
        exact h.line
      · rw [contents_put put]
    · cases hs
  | call p n =>
    simp only [step] at hs
    split at hs
    · rename_i hidle
      cases hs
      exact .inl ⟨.call p n,after s s.console p (.waiting n n []),if_pos (congrArg view hidle),
        after_edited h h.ring rfl s.lock (Int.sub_self n)⟩
    · cases hs
  | acquire p =>
    simp only [step] at hs
    split at hs
    · rename_i n target got hp
      have hc : Counts (.waiting n target got) := hp ▸ h.counts p
      split at hs <;> cases hs
      exact .inr ⟨rfl,unseen_edited h (.reading n target got) (by rw [hp, view, view]) hc _⟩
    · cases hs
  | go p =>
    simp only [step] at hs
    split at hs
    · rename_i n target got hp
      have hc : Counts (.reading n target got) := hp ▸ h.counts p
      split at hs
      · rename_i hn
        cases hs
        have hzero : n.toNat = 0 := by omega
        refine .inl ⟨.take p,after s s.console p (.left n target got),?_,
          after_edited h h.ring rfl s.lock hc⟩
        simp only [LineEditor.step, hp, view, hzero]
        rfl
      · split at hs
        · cases hs
          exact .inr ⟨rfl,unseen_edited h (.asleep n target got) (by rw [hp, view, view]) hc _⟩
        · rename_i hn hne
          cases hs
          have htake := round_take hne (by omega) hc
          obtain ⟨m,hm⟩ : ∃ m, n.toNat = m+1 := ⟨n.toNat-1,by omega⟩
          rw [hm] at htake
          refine .inl ⟨.take p,after s (round s.console n target got).1 p
            (round s.console n target got).2.1,?_,
            after_edited h (round_ring n target got h.ring hne) (round_text s.console n target got) s.lock
              (round_counts hc)⟩
          simp only [LineEditor.step, hp, view, hm, htake]
          rfl
    · cases hs
  | release p =>
    simp only [step] at hs
    split at hs
    · rename_i n target got hp
      cases hs
      have hc : target-n = got.length := by
        have hcounts := h.counts p
        rwa [hp] at hcounts
      refine .inl ⟨.finish p,after s s.console p .idle,?_,after_edited h h.ring rfl none trivial⟩
      simp only [LineEditor.step, hp, view, hc]
      rfl
    · cases hs

theorem boot_edited (s : Console) (i : Index) :
    Edited (boot s i : Input ι) (LineEditor.editor Ignored ⟨[],[]⟩).boot := by
  refine ⟨ring_empty rfl ?_,?_,?_,fun _ => trivial⟩
  · simp [boot]
  · rw [OneLine, text_nil rfl]
    exact List.not_mem_nil
  · simp [LineEditor.editor, boot, contents, view]

theorem run_edited {i : Index} {tr : List (LineEditor.Event ι)} {x : Input ι}
    (h : Run (input s i) (fun _ _ => True) tr x) :
    ∃ t, Run (LineEditor.editor Ignored ⟨[],[]⟩) (fun _ _ => True) tr t ∧ Edited x t := by
  have hsim := run_simulation (S := input s i) (T := LineEditor.editor Ignored ⟨[],[]⟩)
    (H := fun _ _ => True) Edited some (boot_edited s i) ?_ h
  · rwa [List.filterMap_some] at hsim
  · intro x t _ l x' o _ hR _ hn
    rw [List.filterMap_some]
    rcases step_edited hR hn with ⟨l',t',hstep,hR'⟩ | hstutter
    · exact .inl ⟨l',t',trivial,hstep,hR'⟩
    · exact .inr hstutter

/-- The indices stay in order, at most one buffer apart, the reads are those of the
line editor, and what became ready is what was taken and what is still ready. -/
theorem console_reads_as_edited (s : Console) (i : Index) {tr : List (LineEditor.Event ι)} {x : Input ι}
    (h : Run (input s i) (fun _ _ => True) tr x) :
    (x.console.w-x.console.r).toNat ≤ (x.console.e-x.console.r).toNat ∧
      (x.console.e-x.console.r).toNat ≤ INPUTBUF ∧
      ∃ t, Run (LineEditor.editor Ignored ⟨[],[]⟩) (fun _ _ => True) tr t ∧
        t.editor = contents x.console ∧
        tr.flatMap LineEditor.readied = tr.flatMap LineEditor.taken++(contents x.console).ready := by
  obtain ⟨t,hrun,hR⟩ := run_edited h
  have hkeep := LineEditor.editor_keeps hrun
  have heditor : t.editor = contents x.console := congrArg LineEditor.State.editor hR.same
  refine ⟨hR.ring.order,hR.ring.size,t,hrun,heditor,?_⟩
  rwa [heditor, List.nil_append] at hkeep

def results : LineEditor.Event ι → Option (List Char8)
  | .result _ _ got => some got
  | _ => none

/-- An `x` and a ^D around the wrap of the indices: one read gets the `x`, the next
one nothing. -/
theorem console_reads_end_of_file :
    ∃ (tr : List (LineEditor.Event Unit)) (x : Input Unit),
      Run (input (blankScreen 0) (BitVec.allOnes 32)) (fun _ _ => True) tr x ∧
      tr.filterMap results = [[0x78],[]] ∧ (x.console.e-x.console.r).toNat ≤ INPUTBUF ∧
      ∃ t, Run (LineEditor.editor Ignored ⟨[],[]⟩) (fun _ _ => True) tr t := by
  obtain ⟨tr,x,hrun,htest⟩ := exec_reaches
    (S := (input (blankScreen 0) (BitVec.allOnes 32) : System (Input Unit) _ _)) (G := fun _ _ => True)
    [.key 0x78, .key ctrlD, .call () 10, .acquire (), .go (), .go (), .release (),
      .call () 10, .acquire (), .go (), .release ()]
    (fun _ tr => tr.filterMap results = [[0x78],[]]) (by decide +kernel)
  obtain ⟨-,hsize,t,ht,-⟩ := console_reads_as_edited _ _ hrun
  exact ⟨tr,x,hrun,htest,hsize,t,ht⟩

def Arrows (c : Char8) : Prop := c = 0xE2 ∨ c = 0xE3 ∨ c = KEYLF ∨ c = KEYRT ∨ c = ctrlP

instance : DecidablePred Arrows := fun _ => inferInstanceAs (Decidable (_ ∨ _))

def keys : LineEditor.Event ι → Option Char8
  | .typed c => some c
  | _ => none

def pending : LineEditor.Reader → List Char8
  | .idle => []
  | .reading _ got => got
  | .done got => got

def passed (tr : List (LineEditor.Event Unit)) (t : LineEditor.State Unit) : List Char8 :=
  (tr.filterMap results).flatten++(pending (t.reader ())++(t.editor.ready++t.editor.text))

theorem append_all (e : Editor) (c : Char8) :
    (e.append c).ready++(e.append c).text = e.ready++e.text++[c] := by
  unfold Editor.append
  dsimp only
  split <;> simp [Editor.commit]

theorem take_all {n : ℕ} {r : Editor × LineEditor.Reader × List Char8}
    (hD : ctrlD ∉ e.ready) (h : e.take n got = some r) :
    pending r.2.1++(r.1.ready++r.1.text) = got++(e.ready++e.text) := by
  unfold Editor.take at h
  split at h
  · cases h
  · rename_i c rest hready
    have hc : c ≠ ctrlD := fun heq => hD (hready ▸ heq ▸ List.mem_cons_self)
    rw [if_neg hc] at h
    split at h <;> cases h <;> simp [pending, hready]

/-- Of two keys, one of them a newline, those that are not ignored are passed on. -/
theorem keys_passed {ignored : Char8 → Prop} [DecidablePred ignored] {c : Char8} (hplain : c = 0 ∨ c = 0xE2)
    {tr : List (LineEditor.Event Unit)} {t : LineEditor.State Unit}
    (h : Run (LineEditor.editor ignored ⟨[],[]⟩) (fun _ _ => True) tr t)
    (hkeys : tr.filterMap keys <+: [c,newline]) :
    passed tr t = (tr.filterMap keys).filter (fun c => ¬ignored c) := by
  refine run_invariant (S := LineEditor.editor ignored ⟨[],[]⟩)
    (fun tr t => tr.filterMap keys <+: [c,newline] →
      passed tr t = (tr.filterMap keys).filter (fun c => ¬ignored c))
    (fun _ => rfl) ?_ h hkeys
  intro tr t l t' o _ ih _ hn hkeys
  have hs : LineEditor.step ignored t l = some (t',o) := hn
  rw [List.filterMap_append] at hkeys
  replace ih := ih ((List.prefix_append _ _).trans hkeys)
  rw [List.filterMap_append, List.filter_append, ← ih]
  cases l with
  | key k =>
    cases hs
    by_cases hk : ignored k
    · simp [passed, Editor.key, hk, results, keys, List.filterMap_cons]
    have hmem : k ∈ [c,newline] := hkeys.subset (by simp [keys])
    have hlen := hkeys.length_le
    have hkey : t.editor.key ignored k = t.editor.append k := by
      have hsize : t.editor.size < INPUTBUF := by
        have hpassed := congrArg List.length ih
        have hfilter := List.length_filter_le (fun c => decide ¬ignored c) (tr.filterMap keys)
        simp only [passed, List.length_append] at hpassed hlen
        simp only [Editor.size, INPUTBUF, List.length_cons, List.length_nil] at hlen ⊢
        omega
      have hne : k ≠ ctrlU ∧ ¬(k = ctrlH ∨ k = delete) ∧ typed k = k := by
        rcases List.mem_cons.mp hmem with rfl | hmem
        · rcases hplain with rfl | rfl <;> decide
        · cases List.mem_singleton.mp hmem
          decide
      rw [Editor.key, if_neg hk, if_neg hne.1, if_neg hne.2.1, if_pos hsize, hne.2.2]
    have hall := append_all t.editor k
    simp [passed, hkey, hall, hk, results, keys, List.filterMap_cons]
  | call p n =>
    simp only [LineEditor.step] at hs
    split at hs
    · rename_i hidle
      cases hs
      simp [passed, LineEditor.State.set, pending, hidle, results, keys, List.filterMap_cons]
    · cases hs
  | take p =>
    simp only [LineEditor.step] at hs
    split at hs
    · rename_i got hp
      cases hs
      simp [passed, LineEditor.State.set, pending, hp]
    · rename_i n got hp
      obtain ⟨r,hr,heq⟩ := Option.map_eq_some_iff.mp hs
      have hD : ctrlD ∉ t.editor.ready := by
        intro hmem
        have hin : ctrlD ∈ passed tr t :=
          List.mem_append_right _ (List.mem_append_right _ (List.mem_append_left _ hmem))
        rw [ih] at hin
        have hkey := hkeys.subset (List.mem_append_left _ (List.mem_filter.mp hin).1)
        rcases hplain with rfl | rfl <;> exact absurd hkey (by decide)
      have hall := take_all hD hr
      cases heq
      have hnone : (r.2.2.map (LineEditor.Event.took p)).filterMap results = [] ∧
          (r.2.2.map (LineEditor.Event.took p)).filterMap keys = [] := by
        simp [List.filterMap_eq_nil_iff, results, keys]
      have hgot : pending (t.reader ()) = got := congrArg pending hp
      simp [passed, LineEditor.State.set, hnone, hall, hgot]
    · cases hs
  | finish p =>
    simp only [LineEditor.step] at hs
    split at hs
    · rename_i got hp
      cases hs
      simp [passed, LineEditor.State.set, pending, hp, results, keys, List.filterMap_cons]
    · cases hs

/-- The line editor with the arrows and ^P ignored has no run with the keys and the results. -/
theorem arrows_differ {c : Char8} {got : List Char8} {tr : List (LineEditor.Event Unit)}
    (hplain : c = 0 ∨ c = 0xE2)
    (htrace : tr.filterMap keys = [c,newline] ∧ tr.filterMap results = [got])
    (hgot : ¬got <+: [c,newline].filter (fun c => ¬Arrows c)) :
    ¬∃ (tr' : List (LineEditor.Event Unit)) (t : LineEditor.State Unit),
      Run (LineEditor.editor Arrows ⟨[],[]⟩) (fun _ _ => True) tr' t ∧
      tr'.filterMap keys = tr.filterMap keys ∧ tr'.filterMap results = tr.filterMap results := by
  rintro ⟨tr',t,hrun,hkeys,hresults⟩
  rw [htrace.1] at hkeys
  have hpassed := keys_passed hplain hrun (hkeys ▸ List.prefix_refl _)
  rw [passed, hresults, htrace.2, hkeys, List.flatten_singleton] at hpassed
  exact hgot (hpassed ▸ List.prefix_append _ _)

/-- In some run the key and a newline are typed, and no run of the line editor has the keys and
the results of this one. -/
def Differs (c : Char8) : Prop :=
  ∃ (tr : List (LineEditor.Event Unit)) (x : Input Unit),
    Run (input (blankScreen 0) 0) (fun _ _ => True) tr x ∧ tr.filterMap keys = [c,newline] ∧
    ¬∃ (tr' : List (LineEditor.Event Unit)) (t : LineEditor.State Unit),
      Run (LineEditor.editor Arrows ⟨[],[]⟩) (fun _ _ => True) tr' t ∧
      tr'.filterMap keys = tr.filterMap keys ∧ tr'.filterMap results = tr.filterMap results

/-- A NUL that is typed adds nothing, and an up arrow is read like a character: the reads get
a newline alone, and the arrow with the newline behind it. -/
theorem nul_not_read_arrow_read : Differs 0 ∧ Differs 0xE2 := by
  constructor
  · obtain ⟨tr,x,hrun,htrace⟩ := exec_reaches
      (S := (input (blankScreen 0) 0 : System (Input Unit) _ _)) (G := fun _ _ => True)
      [.key 0, .key newline, .call () 2, .acquire (), .go (), .release ()]
      (fun _ tr => tr.filterMap keys = [0,newline] ∧ tr.filterMap results = [[newline]]) (by decide +kernel)
    exact ⟨tr,x,hrun,htrace.1,arrows_differ (.inl rfl) htrace (by decide)⟩
  · obtain ⟨tr,x,hrun,htrace⟩ := exec_reaches
      (S := (input (blankScreen 0) 0 : System (Input Unit) _ _)) (G := fun _ _ => True)
      [.key 0xE2, .key newline, .call () 2, .acquire (), .go (), .go (), .release ()]
      (fun _ tr => tr.filterMap keys = [0xE2,newline] ∧ tr.filterMap results = [[0xE2,newline]])
      (by decide +kernel)
    exact ⟨tr,x,hrun,htrace.1,arrows_differ (.inr rfl) htrace (by decide)⟩

end Xv6.ConsoleInput

import Xv6.ConsoleMachine

/-!
# A line editor

What the console is for its readers: a list of characters that are ready to be read
and a list that is still edited. A reader takes the characters that are ready one by
one, up to the number it wants, through a newline or up to a ^D. Which keys add
nothing is a parameter.
-/

set_option autoImplicit false

namespace Xv6.LineEditor
open TransitionSystem
open ConsoleMachine (Char8 INPUTBUF newline ctrlD ctrlH ctrlU delete typed)

structure Editor where
  ready : List Char8
  text : List Char8

def Editor.size (e : Editor) : ℕ := e.ready.length+e.text.length

def Editor.commit (e : Editor) : Editor := ⟨e.ready++e.text,[]⟩

def Editor.append (e : Editor) (c : Char8) : Editor :=
  let e' : Editor := { e with text := e.text++[c] }
  if c = newline ∨ c = ctrlD ∨ e'.size = INPUTBUF then e'.commit else e'

def Editor.key (ignored : Char8 → Prop) [DecidablePred ignored] (e : Editor) (c : Char8) : Editor :=
  if ignored c then e
  else if c = ctrlU then { e with text := [] }
  else if c = ctrlH ∨ c = delete then { e with text := e.text.dropLast }
  else if e.size < INPUTBUF then e.append (typed c) else e

/-- A reader has `got` characters and wants `n` more, or is done. -/
inductive Reader where
  | idle
  | reading (n : ℕ) (got : List Char8)
  | done (got : List Char8)
  deriving DecidableEq

/-- A reader that wants more takes what is ready next. A ^D ends the read; it is left
for the next one if characters precede it. -/
def Editor.take (e : Editor) (n : ℕ) (got : List Char8) : Option (Editor × Reader × List Char8) :=
  match e.ready with
  | [] => none
  | c::rest =>
    if c = ctrlD then
      if got = [] then some ({ e with ready := rest },.done got,[c]) else some (e,.done got,[])
    else if c = newline then some ({ e with ready := rest },.done (got++[c]),[c])
    else some ({ e with ready := rest },.reading (n-1) (got++[c]),[c])

inductive Label (ι : Type) where
  | key (c : Char8)
  | call (p : ι) (n : ℤ)
  | take (p : ι)
  | finish (p : ι)

inductive Event (ι : Type) where
  | typed (c : Char8)
  | ready (cs : List Char8)
  | called (p : ι) (n : ℤ)
  | took (p : ι) (c : Char8)
  | result (p : ι) (v : ℤ) (got : List Char8)
  deriving DecidableEq

structure State (ι : Type) where
  editor : Editor
  reader : ι → Reader

variable {ι : Type}

def readied : Event ι → List Char8
  | .ready cs => cs
  | _ => []

def taken : Event ι → List Char8
  | .took _ c => [c]
  | _ => []

theorem took_taken (p : ι) (cs : List Char8) : (cs.map (Event.took p)).flatMap taken = cs := by
  induction cs with
  | nil => rfl
  | cons c cs ih => simpa [taken] using ih

theorem took_readied (p : ι) (cs : List Char8) : (cs.map (Event.took p)).flatMap readied = [] := by
  induction cs with
  | nil => rfl
  | cons c cs ih => simp [readied]

variable [DecidableEq ι]

def State.set (s : State ι) (p : ι) (x : Reader) : State ι :=
  { s with reader := Function.update s.reader p x }

def news (before after : List Char8) : List Char8 := after.drop before.length

def step (ignored : Char8 → Prop) [DecidablePred ignored] (s : State ι) :
    Label ι → Option (State ι × List (Event ι))
  | .key c =>
    let e := s.editor.key ignored c
    some ({ s with editor := e },[.typed c, .ready (news s.editor.ready e.ready)])
  | .call p n => if s.reader p = .idle then some (s.set p (.reading n.toNat []),[.called p n]) else none
  | .take p => match s.reader p with
    | .reading 0 got => some (s.set p (.done got),[])
    | .reading (n+1) got => (s.editor.take (n+1) got).map
        (fun r => ({ s with editor := r.1 }.set p r.2.1,r.2.2.map (.took p)))
    | _ => none
  | .finish p => match s.reader p with
    | .done got => some (s.set p .idle,[.result p got.length got])
    | _ => none

def editor (ignored : Char8 → Prop) [DecidablePred ignored] (e : Editor) :
    System (State ι) (Label ι) (Event ι) := ⟨⟨e,fun _ => .idle⟩,step ignored⟩

theorem key_ready (ignored : Char8 → Prop) [DecidablePred ignored] (e : Editor) (c : Char8) :
    e.ready++news e.ready (e.key ignored c).ready = (e.key ignored c).ready := by
  have hsame : e.ready++news e.ready e.ready = e.ready := by simp [news]
  unfold Editor.key
  split
  · exact hsame
  · split
    · exact hsame
    · split
      · exact hsame
      · split
        · unfold Editor.append
          dsimp only
          split
          · simp [Editor.commit, news]
          · exact hsame
        · exact hsame

theorem take_ready {e : Editor} {n : ℕ} {got : List Char8} {r : Editor × Reader × List Char8}
    (h : e.take n got = some r) : r.2.2++r.1.ready = e.ready := by
  unfold Editor.take at h
  split at h
  · cases h
  · rename_i c rest hready
    split at h
    · split at h <;> cases h
      · exact hready.symm
      · rfl
    · split at h <;> cases h <;> exact hready.symm

theorem editor_keeps {ignored : Char8 → Prop} [DecidablePred ignored] {e : Editor} {tr : List (Event ι)}
    {s : State ι} (h : Run (editor ignored e) (fun _ _ => True) tr s) :
    e.ready++tr.flatMap readied = tr.flatMap taken++s.editor.ready := by
  refine run_invariant (S := editor ignored e)
    (fun tr s => e.ready++tr.flatMap readied = tr.flatMap taken++s.editor.ready) (by simp [editor]) ?_ h
  intro tr s l s' o _ ih _ hn
  have hs : step ignored s l = some (s',o) := hn
  rw [List.flatMap_append, List.flatMap_append, ← List.append_assoc, ih, List.append_assoc, List.append_assoc]
  refine congrArg _ ?_
  cases l with
  | key c =>
    cases hs
    simpa [readied, taken] using key_ready ignored s.editor c
  | call p n =>
    simp only [step] at hs
    split at hs <;> cases hs
    simp [readied, taken, State.set]
  | take p =>
    simp only [step] at hs
    split at hs
    · cases hs
      simp [State.set]
    · obtain ⟨r,hr,heq⟩ := Option.map_eq_some_iff.mp hs
      cases heq
      rw [took_taken, took_readied, List.append_nil]
      exact (take_ready hr).symm
    · cases hs
  | finish p =>
    simp only [step] at hs
    split at hs <;> cases hs
    simp [readied, taken, State.set]

end Xv6.LineEditor

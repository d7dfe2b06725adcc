import Xv6.ConsoleStep

/-!
# The console before the arrow keys

The functions `cgaputc` and `consoleintr` as tempfile.c keeps them. Without arrow
keys `back_counter` stays 0, the loops of the new `cgaputc` move at most one cell,
and that cell is blanked at the end: both consoles show the same screen, send the
same bytes and have the same input, step by step.
-/

set_option autoImplicit false

namespace Xv6.ConsoleOriginal
open ConsoleMachine (Cells Char8 Index Out Event INPUTBUF BACKSPACE newline ctrlD ctrlH ctrlP ctrlU
  delete glyph blank setCursor slot typed uartOut scrollPos scrollCells keyCase Console Scrolls KEYLF KEYRT)
open ConsoleStep TransitionSystem
open Function

structure Original where
  crt : Cells
  cursor : BitVec 16
  buf : Fin INPUTBUF → Char8
  r : Index
  w : Index
  e : Index

def Original.pos (s : Original) : ℤ := s.cursor.toNat

def editPos (c : ℕ) (pos : ℤ) : ℤ :=
  if c = newline.toNat then pos + (80 - pos%80)
  else if c = BACKSPACE then if pos > 0 then pos-1 else pos
  else pos+1

def editCells (c : ℕ) (pos : ℤ) (t : Cells) : Cells :=
  if c = newline.toNat then t
  else if c = BACKSPACE then t
  else update t pos (glyph c)

/-- The end of `cgaputc`, from the scrolling on. -/
def scroll (c : ℕ) (s : Original) : Original :=
  let pos := editPos c s.pos
  { s with
    crt := update (scrollCells pos (editCells c s.pos s.crt)) (scrollPos pos) blank
    cursor := setCursor (scrollPos pos) }

def cgaputc (c : ℕ) (s : Original) : Option Original :=
  let pos := editPos c s.pos
  if pos < 0 ∨ pos > 25*80 then none else some (scroll c s)

def consputc (c : ℕ) (s : Original) : Option (Original × List Out) :=
  (cgaputc c s).map (fun t => (t,uartOut c))

def erase (s : Original) : Option (Original × List Out) := consputc BACKSPACE { s with e := s.e-1 }

def killLine : ℕ → Original → Option (Original × List Out)
  | 0, s => some (s,[])
  | n+1, s =>
    if s.e ≠ s.w ∧ s.buf (slot (s.e-1)) ≠ newline then
      match erase s with
      | none => none
      | some (s',o) => (killLine n s').map (fun q => (q.1,o++q.2))
    else some (s,[])

def commitLine (c : Char8) (q : Original × List Out) : Original × List Out :=
  if c = newline ∨ c = ctrlD ∨ q.1.e = q.1.r+128 then ({ q.1 with w := q.1.e },q.2 ++ [.wakeup])
  else q

def insert (c : Char8) (s : Original) : Option (Original × List Out) :=
  (consputc (typed c).toNat { s with
    buf := update s.buf (slot s.e) (typed c)
    e := s.e+1 }).map (commitLine (typed c))

def consoleintr (c : Char8) (s : Original) : Option (Original × List Out) :=
  if c = ctrlP then some (s,[])
  else if c = ctrlU then killLine (s.e-s.w).toNat s
  else if c = ctrlH ∨ c = delete then
    if s.e ≠ s.w then erase s else some (s,[])
  else if c ≠ 0 ∧ (s.e-s.r).toNat < INPUTBUF then insert c s else some (s,[])

def step (s : Original) : Event → Option (Original × List Out)
  | .key c => consoleintr c s
  | .write c => consputc c.toNat s
  | .read =>
    if s.r = s.w then none else some ({ s with r := s.r+1 },[.taken (s.buf (slot s.r))])

def original (s : Original) : System Original Event Out := ⟨s,step⟩

structure Same (s : Console) (t : Original) : Prop where
  crt : ∀ i, 0 ≤ i → i < 25*80 → s.crt i = t.crt i
  cursor : s.cursor = t.cursor
  buf : s.buf = t.buf
  r : s.r = t.r
  w : s.w = t.w
  e : s.e = t.e

def serial : Out → Option Out
  | .crt _ | .cursor _ => none
  | o => some o

structure Plain (s : Console) : Prop where
  back : s.backCounter = 0
  pos : s.pos < 24*80

def Agree (x : Option (Console × List Out)) (y : Option (Original × List Out)) : Prop :=
  ∃ s o t, x = some (s,o) ∧ y = some (t,o.filterMap serial) ∧ Same s t ∧ Plain s

theorem scroll_same {t t' : Cells} (pos : ℤ) (h : ∀ i, 0 ≤ i → i < 25*80 → t i = t' i) (i : ℤ) (h0 : 0 ≤ i)
    (h1 : i < 25*80) : scrollCells pos t i = scrollCells pos t' i := by
  unfold scrollCells
  split
  · split
    · rfl
    · split
      · exact h _ (by omega) (by omega)
      · exact h i h0 h1
  · exact h i h0 h1

theorem cells_same {t t' : Cells} (c : ℕ) {pos : ℤ} (h0 : 0 ≤ pos) (h1 : pos < 24*80)
    (h : ∀ i, 0 ≤ i → i < 25*80 → t i = t' i) (i : ℤ) (hi0 : 0 ≤ i) (hi1 : i < 25*80) :
    update (scrollCells (editPos c pos) (ConsoleMachine.editCells c pos 0 t))
      (scrollPos (editPos c pos)) blank i =
    update (scrollCells (editPos c pos) (editCells c pos t')) (scrollPos (editPos c pos)) blank i := by
  by_cases hat : i = scrollPos (editPos c pos)
  · rw [hat, update_self, update_self]
  rw [update_of_ne hat, update_of_ne hat]
  by_cases hn : c = newline.toNat
  · rw [ConsoleMachine.editCells, editCells, if_pos hn, if_pos hn]
    exact scroll_same _ h i hi0 hi1
  by_cases hb : c = BACKSPACE
  · -- The cell that is closed up is the one that is blanked, or lies before the screen.
    have hpos : editPos c pos < 1920 := by
      rw [editPos, if_neg hn, if_pos hb]
      split <;> omega
    have hne : i ≠ pos-1 := by
      rintro rfl
      apply hat
      rw [editPos, if_neg hn, if_pos hb, if_pos (by omega), scroll_pos_eq, if_neg (by omega)]
    have hs : ∀ u : Cells, scrollCells (editPos c pos) u i = u i := by
      intro u
      rw [scrollCells, if_neg (by rw [scrolls_iff]; omega)]
    rw [hs, hs, ConsoleMachine.editCells, editCells, if_neg hn, if_neg hn, if_pos hb, if_pos hb]
    show update t (pos-1) (t (pos-1+1)) i = t' i
    rw [update_of_ne hne]
    exact h i hi0 hi1
  · refine scroll_same _ (fun j hj0 hj1 => ?_) i hi0 hi1
    rw [ConsoleMachine.editCells, editCells, if_neg hn, if_neg hn, if_neg hb, if_neg hb]
    show update t pos (glyph c) j = _
    by_cases hj : j = pos
    · rw [hj, update_self, update_self]
    · rw [update_of_ne hj, update_of_ne hj]
      exact h j hj0 hj1

theorem edit_fits (c : ℕ) {pos : ℤ} (h0 : 0 ≤ pos) (h1 : pos < 24*80) :
    0 ≤ editPos c pos ∧ editPos c pos < 25*80 := by
  refine ⟨edit_pos_nonneg c h0,?_⟩
  unfold editPos
  split
  · omega
  · split
    · split <;> omega
    · omega

theorem serial_crt (l : List ℤ) : (l.map Out.crt).filterMap serial = [] := by
  simp [List.filterMap_map, serial, Function.comp_def]

theorem serial_uart (c : ℕ) : (uartOut c).filterMap serial = uartOut c := by
  unfold uartOut
  split <;> rfl

variable {t : Original} {s : Console}

theorem put_agree (c : ℕ) (h : Same s t) (hp : Plain s) :
    Agree (ConsoleMachine.consputc c s) (consputc c t) := by
  have hpos : t.pos = s.pos := by
    unfold Original.pos Console.pos
    rw [h.cursor]
  have h0 := pos_nonneg s
  obtain ⟨hge,hlt⟩ := edit_fits c h0 hp.pos
  have hb := scroll_pos_bounds hge (by omega)
  have hfit : ¬ (editPos c s.pos < 0 ∨ editPos c s.pos > 25*80) := by omega
  have hval := set_cursor_val hb.1 (by omega)
  have hmod : ConsoleMachine.cgaputc c s = some _ := if_neg hfit
  have horig : cgaputc c t = some (scroll c t) := if_neg (by rw [hpos]; exact hfit)
  refine ⟨_,_,scroll c t,congrArg (Option.map _) hmod,(congrArg (Option.map _) horig).trans ?_,?_,?_⟩
  · simp only [Option.map_some, List.filterMap_append, serial_crt, serial_uart]
    simp [serial]
  · refine ⟨fun i hi0 hi1 => ?_,?_,h.buf,h.r,h.w,h.e⟩
    · simp only [scroll, hpos, hp.back, Int.add_zero]
      exact cells_same c h0 hp.pos h.crt i hi0 hi1
    · rw [scroll, hpos]
      rfl
  · refine ⟨hp.back,?_⟩
    show ((setCursor (scrollPos (editPos c s.pos))).toNat : ℤ) < _
    omega

theorem erase_agree (h : Same s t) (hp : Plain s) :
    Agree (ConsoleMachine.erase s) (erase t) := by
  have hd : Same (ConsoleMachine.dropChar s) { t with e := t.e-1 } :=
    ⟨h.crt,h.cursor,h.buf,h.r,h.w,by simp only [drop_char_fields, h.e]⟩
  exact put_agree BACKSPACE hd ⟨hp.back,hp.pos⟩

theorem kill_agree (n : ℕ) (h : Same s t) (hp : Plain s) :
    Agree (ConsoleMachine.killLine n s) (killLine n t) := by
  induction n generalizing s t with
  | zero => exact ⟨s,[],t,rfl,rfl,h,hp⟩
  | succ n ih =>
    unfold ConsoleMachine.killLine killLine
    by_cases hc : s.e ≠ s.w ∧ s.buf (slot (s.e-1)) ≠ newline
    · rw [if_pos hc, if_pos (by rw [← h.e, ← h.w, ← h.buf]; exact hc)]
      obtain ⟨s1,o1,t1,h1,h2,hs1,hp1⟩ := erase_agree h hp
      obtain ⟨s2,o2,t2,h3,h4,hs2,hp2⟩ := ih hs1 hp1
      simp only [h1, h2, h3, h4, Option.map_some]
      exact ⟨s2,o1++o2,t2,rfl,by rw [List.filterMap_append],hs2,hp2⟩
    · rw [if_neg hc, if_neg (by rw [← h.e, ← h.w, ← h.buf]; exact hc)]
      exact ⟨s,[],t,rfl,rfl,h,hp⟩

theorem commit_agree (c : Char8) {o : List Out} (h : Same s t) (hp : Plain s) :
    Agree (some (ConsoleMachine.commitLine c (s,o))) (some (commitLine c (t,o.filterMap serial))) := by
  unfold ConsoleMachine.commitLine commitLine
  simp only [← h.e, ← h.r]
  split
  · refine ⟨_,_,{ t with r := s.r, w := s.e, e := s.e },rfl,?_,⟨h.crt,h.cursor,h.buf,rfl,rfl,rfl⟩,
      ⟨hp.back,hp.pos⟩⟩
    rw [List.filterMap_append]
    rfl
  · exact ⟨_,_,_,rfl,rfl,h,hp⟩

theorem insert_agree (c : Char8) (h : Same s t) (hp : Plain s) :
    Agree (ConsoleMachine.insert c s) (insert c t) := by
  have hd : Same (ConsoleMachine.storeChar (typed c) s)
      { t with buf := update t.buf (slot t.e) (typed c), e := t.e+1 } :=
    ⟨h.crt,h.cursor,by simp only [store_char_fields, h.buf, h.e],h.r,h.w,
    by simp only [store_char_fields, h.e]⟩
  obtain ⟨s1,o1,t1,h1,h2,hs1,hp1⟩ := put_agree (typed c).toNat hd ⟨hp.back,hp.pos⟩
  unfold ConsoleMachine.insert insert
  rw [h1, h2]
  exact commit_agree (typed c) hs1 hp1

def NoArrow : Event → Prop
  | .key c => c ≠ KEYLF ∧ c ≠ KEYRT
  | .write _ | .read => True

theorem key_agree (h : Same s t) (hp : Plain s) {c : Char8}
    (hleft : c ≠ KEYLF) (hright : c ≠ KEYRT) : Agree (ConsoleMachine.consoleintr c s) (consoleintr c t) := by
  have hstay : Agree (some (s,[])) (some (t,[])) := ⟨s,[],t,rfl,rfl,h,hp⟩
  unfold ConsoleMachine.consoleintr keyCase consoleintr
  rw [if_neg hleft, if_neg hright]
  by_cases hlist : c = ctrlP
  · rw [if_pos hlist, if_pos hlist]
    exact hstay
  rw [if_neg hlist, if_neg hlist]
  by_cases hkill : c = ctrlU
  · rw [if_pos hkill, if_pos hkill, ← h.e, ← h.w]
    exact kill_agree _ h hp
  rw [if_neg hkill, if_neg hkill]
  by_cases herase : c = ctrlH ∨ c = delete
  · rw [if_pos herase, if_pos herase]
    simp only [← h.e, ← h.w]
    split
    · exact erase_agree h hp
    · exact hstay
  rw [if_neg herase, if_neg herase]
  simp only [← h.e, ← h.r]
  split
  · exact insert_agree c h hp
  · exact hstay

theorem read_agree (h : Same s t) (hp : Plain s) :
    Agree (ConsoleMachine.step s .read) (step t .read) ∨
      ConsoleMachine.step s .read = none ∧ step t .read = none := by
  unfold ConsoleMachine.step step
  simp only [h.r, h.w, h.buf]
  split
  · exact .inr ⟨rfl,rfl⟩
  · exact .inl ⟨_,_,_,rfl,rfl,⟨h.crt,h.cursor,rfl,rfl,rfl,h.e⟩,⟨hp.back,hp.pos⟩⟩

theorem step_agree (h : Same s t) (hp : Plain s) {ev : Event} (hev : NoArrow ev) :
    Agree (ConsoleMachine.step s ev) (step t ev) ∨
      ev = .read ∧ ConsoleMachine.step s ev = none ∧ step t ev = none := by
  cases ev with
  | key c => exact .inl (key_agree h hp hev.1 hev.2)
  | write c =>
    obtain ⟨s1,o1,t1,h1,h2,hs1,hp1⟩ := put_agree c.toNat h hp
    refine .inl ⟨{ s1 with textEnd := ConsoleMachine.writeEnd c.toNat s s1 },o1,t1,
      by rw [ConsoleMachine.step, ConsoleMachine.write, h1]; rfl,h2,?_,⟨hp1.back,hp1.pos⟩⟩
    exact ⟨hs1.crt,hs1.cursor,hs1.buf,hs1.r,hs1.w,hs1.e⟩
  | read => exact (read_agree h hp).imp id (fun hn => ⟨rfl,hn⟩)

theorem run_agree (b : Console) (b' : Original) (evs : List Event) (hev : ∀ ev ∈ evs, NoArrow ev)
    (h : Same s t) (hp : Plain s) :
    Agree (exec (ConsoleMachine.console b) (fun _ _ => True) evs s)
      (exec (original b') (fun _ _ => True) evs t) ∨
    .read ∈ evs ∧ exec (ConsoleMachine.console b) (fun _ _ => True) evs s = none ∧
      exec (original b') (fun _ _ => True) evs t = none := by
  induction evs generalizing s t with
  | nil => exact .inl ⟨s,[],t,rfl,rfl,h,hp⟩
  | cons ev evs ih =>
    rcases step_agree h hp (hev ev (by simp)) with ⟨s1,o1,t1,h1,h2,hs1,hp1⟩ | ⟨rfl,h1,h2⟩
    · rw [exec_cons (S := ConsoleMachine.console b) trivial h1, exec_cons (S := original b') trivial h2]
      rcases ih (fun e he => hev e (by simp [he])) hs1 hp1 with ⟨s2,o2,t2,h3,h4,hs2,hp2⟩ | ⟨hr,h3,h4⟩
      · rw [h3, h4]
        exact .inl ⟨s2,o1++o2,t2,rfl,by rw [List.filterMap_append]; rfl,hs2,hp2⟩
      · rw [h3, h4]
        exact .inr ⟨by simp [hr],rfl,rfl⟩
    · exact .inr ⟨by simp,exec_refused (S := ConsoleMachine.console b) h1,
        exec_refused (S := original b') h2⟩

/-- Whatever is written, typed and read without arrow keys, from the same screen with
the cursor above the last line, both consoles show the same screen and cursor, send the
same bytes and have the same input; or there was a read of no input, which both refuse. -/
theorem original_console_kept (s : Console) (t : Original) (h : Same s t) (hback : s.backCounter = 0)
    (hpos : s.pos < 24*80) (evs : List Event) (hev : ∀ ev ∈ evs, NoArrow ev) :
    (∃ s' o t', exec (ConsoleMachine.console s) (fun _ _ => True) evs s = some (s',o) ∧
      exec (original t) (fun _ _ => True) evs t = some (t',o.filterMap serial) ∧ Same s' t') ∨
    .read ∈ evs ∧ exec (ConsoleMachine.console s) (fun _ _ => True) evs s = none ∧
      exec (original t) (fun _ _ => True) evs t = none := by
  refine (run_agree s t evs hev h ⟨hback,hpos⟩).imp ?_ id
  rintro ⟨s',o,t',h1,h2,hs,-⟩
  exact ⟨s',o,t',h1,h2,hs⟩

/-- A line is typed, corrected and ended in the last column of the last line. -/
theorem original_console_kept_at_end : ∃ (s : Console) (t : Original), Same s t ∧ s.backCounter = 0 ∧
    s.pos < 24*80 ∧ ∃ s' o t', exec (ConsoleMachine.console s) (fun _ _ => True)
      [.write 0x24, .key 0x61, .key ctrlH, .key 0x62, .key newline] s = some (s',o) ∧
    exec (original t) (fun _ _ => True) [.write 0x24, .key 0x61, .key ctrlH, .key 0x62, .key newline] t =
      some (t',o.filterMap serial) ∧ Same s' t' := by
  let s := ConsoleMachine.blankScreen 1919
  let t : Original := ⟨fun _ => blank,1919,fun _ => 0,0,0,0⟩
  have h : Same s t := ⟨fun _ _ _ => rfl,rfl,rfl,rfl,rfl,rfl⟩
  have hpos : s.pos < 24*80 := by decide
  refine ⟨s,t,h,rfl,hpos,?_⟩
  have hkept := original_console_kept s t h rfl hpos
    [.write 0x24, .key 0x61, .key ctrlH, .key 0x62, .key newline] (by simp [NoArrow])
  exact hkept.resolve_right (by simp)

end Xv6.ConsoleOriginal

import Xv6.ConsoleStep

/-!
# The cursor and the edited text

`back_counter` is meant to say how far the cursor stands in front of the end
of the edited text. The left arrow counts on where the cursor does not move,
committing a line does not reset the counter, a newline, ^U or backspace
with the cursor inside the text leave it behind, and so does what a program
writes at the end of a text. Apart from these the count is right.
-/

set_option autoImplicit false

namespace Xv6.ConsoleCursor
open ConsoleMachine TransitionSystem ConsoleStep

def KeyTracks (c : Char8) (s : Console) : KeyCase → Prop
  | .left => s.backCounter < (s.e-s.w).toNat ∧ s.crt (s.pos-2) ≠ dollar
  | .right => True
  | .list => True
  | .kill => s.e ≠ s.w → s.backCounter = 0
  | .erase => s.e ≠ s.w → s.backCounter < (s.e-s.w).toNat
  | .other => c ≠ 0 ∧ (s.e-s.r).toNat < INPUTBUF →
      typed c = newline ∨ typed c = ctrlD ∨ s.e+1 = s.r+128 → s.backCounter = 0

def EventTracks (s : Console) : Event → Prop
  | .key c => KeyTracks c s (keyCase c)
  | .write c => s.e = s.w ∨ 0 < s.backCounter ∧ c ≠ newline
  | .read => True

instance (c : Char8) (s : Console) : (k : KeyCase) → Decidable (KeyTracks c s k)
  | .left => inferInstanceAs (Decidable (_ < _ ∧ _ ≠ _))
  | .right => inferInstanceAs (Decidable True)
  | .list => inferInstanceAs (Decidable True)
  | .kill => inferInstanceAs (Decidable (_ ≠ _ → _ = _))
  | .erase => inferInstanceAs (Decidable (_ ≠ _ → _ < _))
  | .other => inferInstanceAs (Decidable (_ ≠ _ ∧ _ < _ → _ = _ ∨ _ = _ ∨ _ = _ → _ = _))

instance (s : Console) : (ev : Event) → Decidable (EventTracks s ev)
  | .key c => inferInstanceAs (Decidable (KeyTracks c s (keyCase c)))
  | .write _ => inferInstanceAs (Decidable (_ = _ ∨ _ < _ ∧ _ ≠ _))
  | .read => inferInstanceAs (Decidable True)

/-- The cursor is `back_counter` cells in front of the end of the text, and
the text fits in front of its end. -/
structure Tracks (s : Console) : Prop where
  nonneg : 0 ≤ s.backCounter
  back : s.backCounter ≤ (s.e-s.w).toNat
  cursor : s.pos = s.textEnd - s.backCounter
  text : (s.e-s.w).toNat ≤ s.textEnd
  bound : s.textEnd ≤ 2048

theorem edit_end_moves {c : ℕ} {pos e : ℤ} (hle : pos ≤ e) (hnl : c = newline.toNat → pos = e)
    (hbs : c = BACKSPACE → 1 ≤ pos) : editEnd c pos e - editPos c pos = e - pos := by
  unfold editEnd
  split
  · rename_i hc
    rw [hnl hc, if_pos rfl]
    omega
  · rename_i hc
    unfold editPos
    rw [if_neg hc]
    split
    · rename_i hb
      have := hbs hb
      rw [if_pos (by omega)]
      omega
    · omega

variable {s s' : Console} {o : List Out}

theorem put_tracks {c : ℕ} (put : Put c s s' o)
    (hnonneg : 0 ≤ s.backCounter) (hback : s.backCounter ≤ (s.e-s.w).toNat)
    (hcursor : s.pos = s.textEnd - s.backCounter) (hmax : (s.e-s.w).toNat ≤ INPUTBUF)
    (htext : (s.e-s.w).toNat ≤ editPos c s.pos + s.backCounter)
    (hnl : c = newline.toNat → s.backCounter = 0) (hbs : c = BACKSPACE → 1 ≤ s.pos) :
    Tracks s' := by
  have hle : s.pos ≤ s.textEnd := by omega
  have hend0 : c = newline.toNat → s.pos = s.textEnd := fun h => by
    have := hnl h
    omega
  have hedit := edit_end_moves hle hend0 hbs
  have hpos := put.pos
  have hend := put.textEnd
  have hbc := put.backCounter
  have hbound := scroll_pos_bounds (edit_pos_nonneg c (pos_nonneg s)) put.fits
  have hscroll := scroll_pos_eq (editPos c s.pos)
  have hlen : (s'.e-s'.w).toNat = (s.e-s.w).toNat := by rw [put.e, put.w]
  simp only [INPUTBUF] at hmax
  split at hscroll <;> constructor <;> omega

theorem drop_tracks (hr : Ring s) (h : Tracks s)
    (hback : s.backCounter < (s.e-s.w).toNat) (put : Put BACKSPACE (dropChar s) s' o) :
    Tracks s' := by
  have h1 := h.nonneg
  have h3 := h.cursor
  have h4 := h.text
  have hsize := hr.size
  have hring := ring_text hr
  have hlen := drop_length (s := s) (fun he => by simp [he] at hback; omega)
  have hedit : editPos BACKSPACE (dropChar s).pos = s.pos-1 :=
    edit_pos_backspace (by simp only [drop_char_fields]; omega)
  refine put_tracks put h1 ?_ h3 (by omega) ?_ (fun hn => absurd hn (by decide)) ?_
  · rw [(drop_char_fields s).2.2.1]; omega
  · rw [hedit, (drop_char_fields s).2.2.1]; omega
  · exact fun _ => by simp only [drop_char_fields]; omega

theorem store_tracks {c : Char8} (hr : Ring s) (h : Tracks s)
    (room : (s.e-s.r).toNat < INPUTBUF) (hnl : c = newline → s.backCounter = 0)
    (put : Put c.toNat (storeChar c s) s' o) : Tracks s' := by
  have h1 := h.nonneg
  have h2 := h.back
  have h3 := h.cursor
  have h4 := h.text
  have hring := ring_text hr
  have hlen := store_length c (s := s) (by omega)
  have hgrow := edit_pos_grows (char_ne_backspace c) s.pos
  refine put_tracks put h1 ?_ h3 (by omega) ?_ (fun hn => hnl (BitVec.eq_of_toNat_eq hn))
    (fun hb => absurd hb (char_ne_backspace c))
  · rw [hlen, (store_char_fields c s).2.2.1]; omega
  · rw [hlen, (store_char_fields c s).2.1, (store_char_fields c s).2.2.1]; omega

theorem commit_tracks (c : Char8) {q : Console × List Out} (h : Tracks q.1)
    (hback : c = newline ∨ c = ctrlD ∨ q.1.e = q.1.r+128 → q.1.backCounter = 0) :
    Tracks (commitLine c q).1 := by
  unfold commitLine
  split_ifs with hc
  · have h0 := hback hc
    have hbound := h.bound
    have hcursor := h.cursor
    have hpos := pos_nonneg q.1
    refine ⟨by simp [h0],by simp [h0],by simp [h0, Console.pos],by simpa using hpos,?_⟩
    change q.1.pos ≤ 2048
    omega
  · exact h

theorem kill_tracks (hr : Ring s) (h : Tracks s)
    (hback : s.backCounter = 0) (loop : killLine (s.e-s.w).toNat s = some (s',o)) :
    Tracks s' := by
  refine (kill_invariant (fun _ s => Ring s ∧ Tracks s ∧ s.backCounter = 0) ?_ _ (t := [])
    ⟨hr,h,hback⟩ loop).2.1
  intro _ s s1 _ hs hne put
  obtain ⟨hr,ht,h0⟩ := hs
  refine ⟨ring_put (ring_drop hr hne) put,drop_tracks hr ht ?_ put,?_⟩
  · rw [h0]
    bv_omega
  · rw [put.backCounter, (drop_char_fields s).2.2.1, h0]

theorem write_tracks {c : Char8} (hr : Ring s) (h : Tracks s) (hg : EventTracks s (.write c))
    (put : Put c.toNat s s' o) : Tracks { s' with textEnd := writeEnd c.toNat s s' } := by
  have h1 := h.nonneg
  have h2 := h.back
  have h3 := h.cursor
  have h4 := h.text
  have hring := ring_text hr
  have hsize := hr.size
  rcases hg with he | ⟨hb,hn⟩
  · -- behind the written character the empty text begins anew
    have hbound := scroll_pos_bounds (edit_pos_nonneg c.toNat (pos_nonneg s)) put.fits
    have hlen : (s.e-s.w).toNat = 0 := by rw [he, BitVec.sub_self]; rfl
    have hpos := put.pos
    rw [writeEnd, if_pos he]
    constructor <;> simp only [put.e, put.w, put.backCounter, hlen, Console.pos] at * <;> omega
  · have hgrow := edit_pos_grows (char_ne_backspace c) s.pos
    have hne : s.e ≠ s.w := by
      intro he
      rw [he, BitVec.sub_self, BitVec.toNat_zero] at h2
      omega
    rw [writeEnd, if_neg hne, if_pos (by omega)]
    exact put_tracks put h1 h2 h3 (by omega) (by omega)
      (fun hc => absurd (BitVec.eq_of_toNat_eq hc) hn)
      (fun hc => absurd hc (char_ne_backspace c))

theorem tracks_move {ev : Event} (hr : Ring s) (h : Tracks s)
    (hg : EventTracks s ev) (m : Move s ev s' o) : Tracks s' := by
  have h1 := h.nonneg
  have h2 := h.back
  have h3 := h.cursor
  have h4 := h.text
  have h5 := h.bound
  have hring := ring_text hr
  have hsize := hr.size
  simp only [INPUTBUF] at hsize
  cases m with
  | left key =>
    simp only [EventTracks, key, KeyTracks] at hg
    have hpos := left_pos s (by omega)
    rw [if_pos hg.2] at hpos
    constructor <;> simp only [Console.pos, moveLeftCursor] at hpos h3 ⊢ <;> omega
  | right key back =>
    have hpos := right_pos s (by omega)
    constructor <;> simp only [Console.pos, moveRightCursor] at hpos h3 ⊢ <;> omega
  | ignored c => exact h
  | kill key loop =>
    simp only [EventTracks, key, KeyTracks] at hg
    by_cases he : s.e = s.w
    · simp only [he, BitVec.sub_self, BitVec.toNat_zero, killLine] at loop
      cases loop
      exact h
    · exact kill_tracks hr h (hg he) loop
  | erase key text put =>
    simp only [EventTracks, key, KeyTracks] at hg
    exact drop_tracks hr h (hg text) put
  | @insert c q key char room put =>
    simp only [EventTracks, key, KeyTracks] at hg
    have hg := hg ⟨char,room⟩
    refine commit_tracks (typed c) (store_tracks hr h room (fun hn => hg (.inl hn)) put) ?_
    rw [put.e, put.r, put.backCounter]
    exact hg
  | write put => exact write_tracks hr h hg put
  | read waiting => exact ⟨h1,h2,h3,h4,h5⟩

/-- While the keys are pressed and the characters written in states that meet
their condition, the cursor stands `back_counter` cells in front of the end of
the text, within the text, and at its end once the line is handed over. -/
theorem cursor_tracks_text (s0 : Console) (hpos : s0.pos < 24*80) (hback : s0.backCounter = 0)
    (hempty : s0.e = s0.w) (hread : (s0.w-s0.r).toNat ≤ INPUTBUF) (hend : s0.textEnd = s0.pos)
    (tr : List Out) (s : Console) (h : Run (console s0) EventTracks tr s) :
    0 ≤ s.backCounter ∧ s.backCounter ≤ (s.e-s.w).toNat ∧
      s.pos = s.textEnd - s.backCounter ∧ (s.e = s.w → s.backCounter = 0) := by
  have hinv : Ring s ∧ Tracks s := by
    refine run_invariant (fun _ s => Ring s ∧ Tracks s) ?_ ?_ h
    · have h0 := pos_nonneg s0
      have htext : (s0.e-s0.w).toNat = 0 := by
        rw [hempty, BitVec.sub_self]
        rfl
      refine ⟨ring_empty hempty hread,?_⟩
      constructor <;> simp only [console] <;> omega
    · intro _ s ev s' o _ hs hg hn
      have m := step_cases hn
      exact ⟨ring_move hs.1 m,tracks_move hs.1 hs.2 hg m⟩
  have h1 := hinv.2.nonneg
  have h2 := hinv.2.back
  refine ⟨h1,h2,hinv.2.cursor,fun he => ?_⟩
  rw [he, BitVec.sub_self] at h2
  exact Int.le_antisymm h2 h1

theorem cursor_tracks_text_insert :
    ∃ tr s, Run (console (blankScreen 162)) EventTracks tr s ∧ s.backCounter = 1 ∧
      s.pos = s.textEnd-1 := by
  obtain ⟨tr,s,hrun,hb⟩ := exec_reaches (S := console (blankScreen 162)) (G := EventTracks)
    [.write 0x24, .write 0x20, .key 0x61, .key 0x62, .key KEYLF, .write 0x78, .key 0x63]
    (fun s _ => s.backCounter = 1) (by decide +kernel)
  have ht := cursor_tracks_text (blankScreen 162) (by decide) rfl rfl (by decide) rfl tr s hrun
  rw [hb] at ht
  exact ⟨tr,s,hrun,hb,ht.2.2.1⟩

/-- With nothing typed the left arrow counts, and Enter does not reset the
count of a cursor inside the line. -/
theorem cursor_lost :
    (∃ tr s, Run (console (blankScreen 162)) (fun _ _ => True) tr s ∧
      s.e = s.w ∧ s.backCounter = 1) ∧
    ∃ tr s, Run (console (blankScreen 162)) (fun _ _ => True) tr s ∧
      Out.wakeup ∈ tr ∧ s.e = s.w ∧ s.backCounter = 1 ∧ s.pos ≠ s.textEnd - s.backCounter := by
  constructor
  · obtain ⟨tr,s,hrun,hs⟩ := exec_reaches (S := console (blankScreen 162))
      (G := fun _ _ => True) [.key KEYLF] (fun s _ => s.e = s.w ∧ s.backCounter = 1) (by decide)
    exact ⟨tr,s,hrun,hs⟩
  · obtain ⟨tr,s,hrun,hs⟩ := exec_reaches (S := console (blankScreen 162))
      (G := fun _ _ => True) [.key 0x61, .key KEYLF, .key newline]
      (fun s tr => Out.wakeup ∈ tr ∧ s.e = s.w ∧ s.backCounter = 1 ∧
        s.pos ≠ s.textEnd - s.backCounter) (by decide)
    exact ⟨tr,s,hrun,hs⟩

end Xv6.ConsoleCursor

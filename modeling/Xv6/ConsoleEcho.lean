import Xv6.ConsoleStep

/-!
# What is shown and what is read

An edited line is kept twice, in the cells behind the prompt and in
`input.buf`. The cells are edited at the cursor, the buffer always at its
end, so the two agree as long as characters come and go with the cursor at
the end of the text; the arrow keys alone change neither.
-/

set_option autoImplicit false

namespace Xv6.ConsoleEcho
open ConsoleMachine TransitionSystem ConsoleStep
open Function

def shown (p : ℤ) (s : Console) : List Cell :=
  (List.range (s.textEnd-p).toNat).map (fun (k : ℕ) => s.crt (p+k))

def charAt (s : Console) (k : ℕ) : Char8 := s.buf (slot (s.w + BitVec.ofNat 32 k))

def line (s : Console) : List Char8 := (List.range (s.e-s.w).toNat).map (charAt s)

/-- A character that neither ends the line nor is ignored, and for which the
screen behind the prompt and the buffer have room. -/
def Ordinary (p : ℤ) (c : Char8) (s : Console) : Prop :=
  c ≠ 0 ∧ typed c ≠ newline ∧ c ≠ ctrlD ∧ p + (s.e-s.w).toNat + 1 < 24*80 ∧
    (s.e-s.r).toNat + 1 < INPUTBUF

def KeyTypes (p : ℤ) (c : Char8) (s : Console) : KeyCase → Prop
  | .left => True
  | .right => True
  | .list => False
  | .kill => False
  | .erase => True
  | .other => Ordinary p c s

def Types (p : ℤ) (s : Console) : Event → Prop
  | .key c => KeyTypes p c s (keyCase c)
  | .write _ => False
  | .read => False

def AtEnd (p : ℤ) (s : Console) : Prop := s.backCounter = 0 ∧ s.pos = p + (s.e-s.w).toNat

def KeyAtEnd (p : ℤ) (s : Console) : KeyCase → Prop
  | .erase => s.e ≠ s.w → AtEnd p s
  | .other => AtEnd p s
  | _ => True

/-- The condition on the state a key is pressed in: only arrows with the
cursor elsewhere. -/
def EditsAtEnd (p : ℤ) (s : Console) : Event → Prop
  | .key c => KeyAtEnd p s (keyCase c)
  | _ => True

instance (p : ℤ) (c : Char8) (s : Console) : Decidable (Ordinary p c s) :=
  inferInstanceAs (Decidable (_ ≠ _ ∧ _ ≠ _ ∧ _ ≠ _ ∧ _ < _ ∧ _ < _))

instance (p : ℤ) (c : Char8) (s : Console) : (k : KeyCase) → Decidable (KeyTypes p c s k)
  | .left => inferInstanceAs (Decidable True)
  | .right => inferInstanceAs (Decidable True)
  | .list => inferInstanceAs (Decidable False)
  | .kill => inferInstanceAs (Decidable False)
  | .erase => inferInstanceAs (Decidable True)
  | .other => inferInstanceAs (Decidable (Ordinary p c s))

instance (p : ℤ) (s : Console) : (ev : Event) → Decidable (Types p s ev)
  | .key c => inferInstanceAs (Decidable (KeyTypes p c s (keyCase c)))
  | .write _ => inferInstanceAs (Decidable False)
  | .read => inferInstanceAs (Decidable False)

instance (p : ℤ) (s : Console) : Decidable (AtEnd p s) :=
  inferInstanceAs (Decidable (_ = _ ∧ _ = _))

instance (p : ℤ) (s : Console) : (k : KeyCase) → Decidable (KeyAtEnd p s k)
  | .left => inferInstanceAs (Decidable True)
  | .right => inferInstanceAs (Decidable True)
  | .list => inferInstanceAs (Decidable True)
  | .kill => inferInstanceAs (Decidable True)
  | .erase => inferInstanceAs (Decidable (_ ≠ _ → AtEnd p s))
  | .other => inferInstanceAs (Decidable (AtEnd p s))

instance (p : ℤ) (s : Console) : (ev : Event) → Decidable (EditsAtEnd p s ev)
  | .key c => inferInstanceAs (Decidable (KeyAtEnd p s (keyCase c)))
  | .write _ => inferInstanceAs (Decidable True)
  | .read => inferInstanceAs (Decidable True)

structure Echo (p : ℤ) (s : Console) : Prop where
  textEnd : s.textEnd = p + (s.e-s.w).toNat
  cells : ∀ k < (s.e-s.w).toNat, s.crt (p+k) = glyph (charAt s k).toNat

variable {s s' : Console} {o : List Out} {p : ℤ}

theorem echo_shown {s : Console} (h : Echo p s) :
    shown p s = (line s).map (fun c => glyph c.toNat) := by
  have hlen : (s.textEnd-p).toNat = (s.e-s.w).toNat := by
    have := h.textEnd
    omega
  rw [shown, line, hlen, List.map_map]
  exact List.map_congr_left (fun k hk => h.cells k (List.mem_range.mp hk))

theorem scroll_cells_above {pos : ℤ} (h : pos < 1920) (t : Cells) : scrollCells pos t = t := by
  have hs : ¬ Scrolls pos := by
    rw [scrolls_iff]
    omega
  funext i
  rw [scrollCells, if_neg hs]

theorem put_at_end {c : ℕ} (put : Put c s s' o)
    (hc : c ≠ newline.toNat ∧ c ≠ BACKSPACE) (hback : s.backCounter = 0) (hpos : s.pos+1 < 1920) :
    s'.crt = update (update s.crt s.pos (glyph c)) (s.pos+1) blank ∧
    s'.textEnd = if s.pos ≤ s.textEnd then s.textEnd+1 else s.textEnd := by
  have hedit : editPos c s.pos = s.pos+1 := by rw [editPos, if_neg hc.1, if_neg hc.2]
  have hcells : editCells c s.pos 0 s.crt = update s.crt s.pos (glyph c) := by
    rw [editCells, if_neg hc.1, if_neg hc.2]
    rfl
  have hp : s'.pos = s.pos+1 := by
    rw [put.pos, hedit, scroll_pos_eq, if_neg (by omega)]
  constructor
  · rw [put.crt, hback, hedit, scroll_cells_above hpos, hcells, hp, Int.add_zero]
  · rw [put.textEnd, hedit, hp, editEnd, if_neg hc.1, if_neg hc.2, Int.sub_self, Int.add_zero]

theorem erase_at_end (put : Put BACKSPACE s s' o)
    (hback : s.backCounter = 0) (h0 : 1 ≤ s.pos) (h1 : s.pos ≤ 1920) :
    s'.crt = update s.crt (s.pos-1) blank ∧
    s'.textEnd = if s.pos ≤ s.textEnd then s.textEnd-1 else s.textEnd := by
  have hnl : BACKSPACE ≠ newline.toNat := by decide
  have hedit := edit_pos_backspace h0
  have hcells : editCells BACKSPACE s.pos 0 s.crt =
      update s.crt (s.pos-1) (s.crt (s.pos-1+1)) := by
    rw [editCells, if_neg hnl, if_pos rfl]
    rfl
  have hp : s'.pos = s.pos-1 := by
    rw [put.pos, hedit, scroll_pos_eq, if_neg (by omega)]
  constructor
  · rw [put.crt, hback, hedit, scroll_cells_above (by omega), hcells, hp, Int.add_zero,
      update_idem]
  · rw [put.textEnd, hedit, hp, editEnd, if_neg hnl, if_pos rfl, Int.sub_self, Int.add_zero]

theorem slot_injective {w : Index} {i j : ℕ} (hij : i < j) (hj : j < i + INPUTBUF) :
    slot (w + BitVec.ofNat 32 i) ≠ slot (w + BitVec.ofNat 32 j) := by
  intro h
  have hval := congrArg Fin.val h
  simp only [slot, BitVec.toNat_add, BitVec.toNat_ofNat, INPUTBUF] at hval hj
  omega

theorem edit_index (s : Console) : s.w + BitVec.ofNat 32 (s.e-s.w).toNat = s.e := by
  rw [BitVec.ofNat_toNat, BitVec.setWidth_eq]
  bv_omega

theorem store_char_last (c : Char8) (s : Console) :
    charAt (storeChar c s) (s.e-s.w).toNat = c := by
  simp only [charAt, store_char_fields]
  rw [edit_index, update_self]

theorem store_char_before (c : Char8) {s : Console} (hr : (s.e-s.w).toNat < INPUTBUF) {k : ℕ}
    (hk : k < (s.e-s.w).toNat) : charAt (storeChar c s) k = charAt s k := by
  simp only [charAt, store_char_fields]
  refine update_of_ne ?_ _ _
  have hne := slot_injective (w := s.w) hk (by omega)
  rwa [edit_index] at hne

theorem echo_insert {c : Char8} (h : Echo p s)
    (hend : AtEnd p s) (hnl : c ≠ newline) (hp : p + (s.e-s.w).toNat + 1 < 24*80)
    (hbuf : (s.e-s.w).toNat < INPUTBUF) (put : Put c.toNat (storeChar c s) s' o) :
    Echo p s' := by
  obtain ⟨hback,hpos⟩ := hend
  have htext := h.textEnd
  have hc : c.toNat ≠ newline.toNat := fun hc => hnl (BitVec.eq_of_toNat_eq hc)
  obtain ⟨hcrt,hte⟩ := put_at_end put ⟨hc,char_ne_backspace c⟩ hback (by
    simp only [store_char_fields]
    omega)
  simp only [store_char_fields] at hcrt hte
  have hlen := store_length c hbuf
  rw [← put.e, ← put.w] at hlen
  have hchar : ∀ k, charAt s' k = charAt (storeChar c s) k := fun k => by
    rw [charAt, charAt, put.buf, put.w]
  refine ⟨?_,fun k hk => ?_⟩
  · rw [hte, if_pos (by omega), hlen]
    omega
  · rw [hchar, hcrt, update_of_ne (by omega)]
    rcases Nat.lt_or_eq_of_le (by omega : k ≤ (s.e-s.w).toNat) with hlt | rfl
    · rw [update_of_ne (by omega), store_char_before c hbuf hlt]
      exact h.cells k hlt
    · rw [← hpos, update_self, store_char_last]

theorem echo_erase (hp : 0 ≤ p) (h : Echo p s)
    (hend : AtEnd p s) (hne : s.e ≠ s.w) (hscreen : p + (s.e-s.w).toNat ≤ 1920)
    (put : Put BACKSPACE (dropChar s) s' o) : Echo p s' := by
  obtain ⟨hback,hpos⟩ := hend
  have htext := h.textEnd
  have hlen := drop_length hne
  rw [← put.e, ← put.w] at hlen
  obtain ⟨hcrt,hte⟩ := erase_at_end put hback (by simp only [drop_char_fields]; omega)
    (by simp only [drop_char_fields]; omega)
  simp only [drop_char_fields] at hcrt hte
  have hchar : ∀ k, charAt s' k = charAt s k := fun k => by
    rw [charAt, charAt, put.buf, put.w]
    rfl
  refine ⟨?_,fun k hk => ?_⟩
  · rw [hte, if_pos (by omega)]
    omega
  · rw [hchar, hcrt, update_of_ne (by omega)]
    exact h.cells k (by omega)

theorem ordinary_kept {c : Char8} {s : Console} {q : Console × List Out} (hnl : typed c ≠ newline)
    (hd : c ≠ ctrlD) (hbuf : (s.e-s.r).toNat + 1 < INPUTBUF)
    (put : Put (typed c).toNat (storeChar (typed c) s) q.1 q.2) :
    commitLine (typed c) q = q := by
  rw [commitLine, if_neg]
  rintro (hn | hn | hfull)
  · exact hnl hn
  · unfold typed at hn
    split at hn
    · exact absurd hn (by decide)
    · exact hd hn
  · rw [put.e, put.r] at hfull
    simp only [store_char_fields] at hfull
    simp only [INPUTBUF] at hbuf
    bv_omega

/-- What one key keeps: the ring, room for the text on the screen and in the
buffer, and the echo. -/
structure Line (p : ℤ) (s : Console) : Prop where
  ring : Ring s
  screen : p + (s.e-s.w).toNat < 24*80
  room : (s.e-s.w).toNat < INPUTBUF
  echo : Echo p s

theorem line_move {ev : Event} (hp : 0 ≤ p)
    (h : Line p s) (ht : Types p s ev) (hg : EditsAtEnd p s ev) (m : Move s ev s' o) :
    Line p s' := by
  obtain ⟨hr,hs,hroom,he⟩ := h
  have hr' := ring_move hr m
  cases m with
  | left | right => exact ⟨hr',hs,hroom,he.textEnd,he.cells⟩
  | ignored c => exact ⟨hr,hs,hroom,he⟩
  | kill key loop =>
    simp only [Types, key, KeyTypes] at ht
  | erase key text put =>
    simp only [EditsAtEnd, key, KeyAtEnd] at hg
    have hlen := drop_length text
    rw [← put.e, ← put.w] at hlen
    exact ⟨hr',by omega,by omega,echo_erase hp he (hg text) text (by omega) put⟩
  | @insert c q key char room put =>
    simp only [Types, EditsAtEnd, key, KeyTypes, KeyAtEnd] at ht hg
    obtain ⟨-,hnl,hd,hscreen,hbuf⟩ := ht
    have hring := ring_text hr
    have hlen := store_length (typed c) (s := s) (by omega)
    rw [← put.e, ← put.w] at hlen
    rw [ordinary_kept hnl hd hbuf put] at hr' ⊢
    exact ⟨hr',by omega,by omega,echo_insert he hg hnl hscreen (by omega) put⟩
  | write put => exact ht.elim
  | read waiting => exact ht.elim

theorem line_run {s0 : Console} (hpos : s0.pos < 24*80) (hempty : s0.e = s0.w)
    (hread : (s0.w-s0.r).toNat ≤ INPUTBUF) (hend : s0.textEnd = s0.pos)
    {tr : List Out} {s : Console}
    (h : Run (console s0) (fun s ev => Types s0.pos s ev ∧ EditsAtEnd s0.pos s ev) tr s) :
    Line s0.pos s := by
  refine run_invariant (fun _ s => Line s0.pos s) ?_ ?_ h
  · have hlen : (s0.e-s0.w).toNat = 0 := by
      rw [hempty, BitVec.sub_self]
      rfl
    refine ⟨ring_empty hempty hread,?_,?_,?_,?_⟩ <;> simp only [console, INPUTBUF] <;> omega
  · intro _ s ev s' o _ hs hg hn
    exact line_move (pos_nonneg s0) hs hg.1 hg.2 (step_cases hn)

def reads : ℕ → Console → Option (List Out)
  | 0, _ => some []
  | n+1, s => match step s .read with
    | none => none
    | some (s',o) => (reads n s').map (fun o' => o++o')

theorem reads_take (n : ℕ) (s : Console) (h : n ≤ (s.w-s.r).toNat) :
    reads n s = some ((List.range n).map
      (fun (k : ℕ) => .taken (s.buf (slot (s.r + BitVec.ofNat 32 k))))) := by
  induction n generalizing s with
  | zero => rfl
  | succ n ih =>
    have hne : s.r ≠ s.w := by
      intro hr
      simp [hr] at h
    have hnext := ih { s with r := s.r+1 } (by simp only; bv_omega)
    have hshift : ∀ k, s.r + 1 + BitVec.ofNat 32 k = s.r + BitVec.ofNat 32 (k+1) := by
      intro k
      bv_omega
    simp only [reads, step, if_neg hne, hnext, Option.map_some, List.range_succ_eq_map,
      List.map_cons, List.map_map, hshift]
    simp

theorem enter_stored (hroom : (s.e-s.r).toNat < INPUTBUF)
    (h : step s (.key newline) = some (s',o)) :
    s'.buf = (storeChar newline s).buf ∧ s'.r = s.r ∧ s'.w = s.e+1 := by
  have hkey : keyCase newline = .other := by decide
  have hnl : typed newline = newline := by decide
  have hc : newline ≠ 0 := by decide
  simp only [step, consoleintr, hkey] at h
  rw [if_pos ⟨hc,hroom⟩] at h
  obtain ⟨q,hq,heq⟩ := Option.map_eq_some_iff.mp h
  rw [hnl] at hq heq
  have put := consputc_put hq
  rw [commitLine, if_pos (.inl rfl)] at heq
  cases heq
  exact ⟨put.buf,put.r,put.e⟩

theorem enter_read (hlen : (s.e-s.w).toNat < INPUTBUF)
    (hr : s.r = s.w) (h : step s (.key newline) = some (s',o)) :
    reads ((line s).length+1) s' = some ((line s ++ [newline]).map .taken) := by
  obtain ⟨hbuf,hr',hw⟩ := enter_stored (by rw [hr]; exact hlen) h
  have hcount : (line s).length = (s.e-s.w).toNat := by simp [line]
  have hchar : ∀ k, s'.buf (slot (s'.r + BitVec.ofNat 32 k)) = charAt (storeChar newline s) k := by
    intro k
    rw [hbuf, hr', hr]
    rfl
  rw [reads_take _ _ (by rw [hw, hr', hcount, hr]; simp only [INPUTBUF] at hlen; bv_omega)]
  simp only [hchar, List.range_succ, List.map_append, List.map_cons, List.map_nil]
  rw [hcount, store_char_last, line, List.map_map]
  congr 2
  exact List.map_congr_left (fun k hk =>
    congrArg Out.taken (store_char_before newline hlen (List.mem_range.mp hk)))

/-- On a line behind a prompt, if characters are typed and erased only with
the cursor at the end of the text, the cells from the prompt to the end of the
text are the characters of the line, and Enter hands these to the reader. -/
theorem shown_is_read (s0 : Console) (hpos : s0.pos < 24*80) (hempty : s0.e = s0.w)
    (hread : (s0.w-s0.r).toNat ≤ INPUTBUF) (hend : s0.textEnd = s0.pos)
    (tr : List Out) (s : Console)
    (h : Run (console s0) (fun s ev => Types s0.pos s ev ∧ EditsAtEnd s0.pos s ev) tr s) :
    shown s0.pos s = (line s).map (fun c => glyph c.toNat) ∧
    (s.r = s.w → ∀ s' o, step s (.key newline) = some (s',o) →
      reads ((line s).length+1) s' = some ((line s ++ [newline]).map .taken)) := by
  have hline := line_run hpos hempty hread hend h
  exact ⟨echo_shown hline.echo,fun hr s' o hn => enter_read hline.room hr hn⟩

/-- A character typed in front of another one: the screen says acb, the reader
gets abc. -/
theorem shown_is_not_read : ∃ tr s,
    Run (console (blankScreen 162)) (Types 162) tr s ∧
    shown 162 s = [glyph 0x61, glyph 0x63, glyph 0x62] ∧ line s = [0x61, 0x62, 0x63] ∧
    shown 162 s ≠ (line s).map (fun c => glyph c.toNat) := by
  obtain ⟨tr,s,hrun,hs⟩ := exec_reaches (S := console (blankScreen 162)) (G := Types 162)
    [.key 0x61, .key 0x62, .key KEYLF, .key 0x63]
    (fun s _ => shown 162 s = [glyph 0x61, glyph 0x63, glyph 0x62] ∧
      line s = [0x61, 0x62, 0x63] ∧ shown 162 s ≠ (line s).map (fun c => glyph c.toNat))
    (by decide +kernel)
  exact ⟨tr,s,hrun,hs⟩

/-- Typing, a walk to the left and back, and a backspace. -/
theorem shown_is_read_walk : ∃ tr s,
    Run (console (blankScreen 162)) (fun s ev => Types 162 s ev ∧ EditsAtEnd 162 s ev) tr s ∧
    line s = [0x61, 0x63] ∧ shown 162 s = [glyph 0x61, glyph 0x63] := by
  obtain ⟨tr,s,hrun,hline⟩ := exec_reaches (S := console (blankScreen 162))
    (G := fun s ev => Types 162 s ev ∧ EditsAtEnd 162 s ev)
    [.key 0x61, .key 0x62, .key KEYLF, .key KEYRT, .key ctrlH, .key 0x63]
    (fun s _ => line s = [0x61, 0x63]) (by decide +kernel)
  refine ⟨tr,s,hrun,hline,?_⟩
  have hshown := (shown_is_read (blankScreen 162) (by decide) rfl (by decide) rfl tr s hrun).1
  rw [hline] at hshown
  exact hshown

end Xv6.ConsoleEcho

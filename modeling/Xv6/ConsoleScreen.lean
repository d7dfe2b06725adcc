import Xv6.ConsoleStep

/-!
# Accesses to the screen memory

Characters shift `back_counter` cells at the cursor, a left arrow looks two
cells back and a right arrow moves on without a look, so the indices depend
on where the cursor stands and on how far `back_counter` has grown. Each
event is given the condition under which its accesses stay on the 25 lines
and the cursor on the first 24.
-/

set_option autoImplicit false

namespace Xv6.ConsoleScreen
open ConsoleMachine TransitionSystem ConsoleStep

def OnScreen : Out → Prop
  | .crt i => 0 ≤ i ∧ i < 25*80
  | .cursor pos => 0 ≤ pos ∧ pos < 24*80
  | _ => True

/-- There is room for what a character moves: a newline goes to the start of
the next line, or scrolls. -/
def PutFits (c : ℕ) (pos back : ℤ) : Prop :=
  if c = newline.toNat then
    (pos - pos%80 < 23*80 → pos - pos%80 + 80 + back < 25*80) ∧
    (pos - pos%80 = 23*80 → 23*80 + back < 25*80)
  else if c = BACKSPACE then 1 ≤ pos ∧ pos + back < 25*80
  else (pos < 24*80-1 → pos + 1 + back < 25*80) ∧ (pos = 24*80-1 → pos + back < 25*80)

theorem put_fits_backspace (pos back : ℤ) :
    PutFits BACKSPACE pos back ↔ 1 ≤ pos ∧ pos + back < 25*80 := by
  unfold PutFits
  rw [if_neg (by decide), if_pos rfl]

instance (c : ℕ) (pos back : ℤ) : Decidable (PutFits c pos back) :=
  inferInstanceAs (Decidable (if c = newline.toNat then (_ → _) ∧ (_ → _)
    else if c = BACKSPACE then _ ∧ _ else (_ → _) ∧ (_ → _)))

def KeyFits (c : Char8) (s : Console) : KeyCase → Prop
  | .left => 2 ≤ s.pos
  | .right => s.backCounter ≠ 0 → s.pos + 1 < 24*80
  | .list => True
  | .kill => s.e ≠ s.w → (s.e-s.w).toNat ≤ s.pos ∧ s.pos + s.backCounter < 25*80
  | .erase => s.e ≠ s.w → PutFits BACKSPACE s.pos s.backCounter
  | .other => c ≠ 0 ∧ (s.e-s.r).toNat < INPUTBUF → PutFits (typed c).toNat s.pos s.backCounter

def EventFits (s : Console) : Event → Prop
  | .key c => KeyFits c s (keyCase c)
  | .write c => PutFits c.toNat s.pos s.backCounter
  | .read => True

instance (c : Char8) (s : Console) : (k : KeyCase) → Decidable (KeyFits c s k)
  | .left => inferInstanceAs (Decidable (_ ≤ _))
  | .right => inferInstanceAs (Decidable (_ ≠ _ → _ < _))
  | .list => inferInstanceAs (Decidable True)
  | .kill => inferInstanceAs (Decidable (_ ≠ _ → _ ≤ _ ∧ _ < _))
  | .erase => inferInstanceAs (Decidable (_ ≠ _ → PutFits _ _ _))
  | .other => inferInstanceAs (Decidable (_ ≠ _ ∧ _ < _ → PutFits _ _ _))

instance (s : Console) : (ev : Event) → Decidable (EventFits s ev)
  | .key c => inferInstanceAs (Decidable (KeyFits c s (keyCase c)))
  | .write _ => inferInstanceAs (Decidable (PutFits _ _ _))
  | .read => inferInstanceAs (Decidable True)

structure Inside (s : Console) : Prop where
  pos : s.pos < 24*80
  back : 0 ≤ s.backCounter

theorem edit_access_fits {c : ℕ} {pos back : ℤ} (h0 : 0 ≤ pos) (h1 : pos < 24*80)
    (hback : 0 ≤ back) (h : PutFits c pos back) :
    ∀ i ∈ editAccess c pos back, 0 ≤ i ∧ i < 25*80 := by
  intro i hi
  unfold editAccess at hi
  unfold PutFits at h
  split at hi
  · simp at hi
  · rename_i hc
    simp only [hc, if_false] at h
    split at hi
    · rename_i hb
      simp only [hb, if_true] at h
      simp only [List.mem_flatMap, List.mem_range, List.mem_cons, List.not_mem_nil, or_false] at hi
      obtain ⟨k,hk,hi⟩ := hi
      omega
    · rename_i hb
      simp only [hb, if_false] at h
      simp only [List.mem_append, List.mem_flatMap, List.mem_range, List.mem_cons,
        List.not_mem_nil, or_false] at hi
      rcases hi with ⟨k,hk,hi⟩ | hi <;> omega

theorem scroll_access_fits {pos : ℤ} (h1 : pos ≤ 24*80) :
    ∀ i ∈ scrollAccess pos, 0 ≤ i ∧ i < 25*80 := by
  intro i hi
  unfold scrollAccess at hi
  simp only [scrolls_iff] at hi
  split at hi
  · simp only [List.mem_append, List.mem_flatMap, List.mem_range, List.mem_map, List.mem_cons,
      List.not_mem_nil, or_false] at hi
    rcases hi with ⟨k,hk,hi⟩ | ⟨k,hk,hi⟩ <;> omega
  · simp at hi

theorem edit_pos_fits {c : ℕ} {pos back : ℤ} (h0 : 0 ≤ pos) (h1 : pos < 24*80)
    (hback : 0 ≤ back) (h : PutFits c pos back) :
    editPos c pos ≤ 24*80 ∧ scrollPos (editPos c pos) + back < 25*80 := by
  unfold PutFits at h
  rw [scroll_pos_eq]
  unfold editPos
  split
  · rename_i hc
    simp only [hc, if_true] at h
    split <;> omega
  · rename_i hc
    simp only [hc, if_false] at h
    split
    · rename_i hb
      simp only [hb, if_true] at h
      split <;> split <;> omega
    · rename_i hb
      simp only [hb, if_false] at h
      split <;> omega

theorem put_on_screen {c : ℕ} {s s' : Console} {o : List Out} (hs : Inside s)
    (h : PutFits c s.pos s.backCounter) (put : Put c s s' o) :
    (∀ x ∈ o, OnScreen x) ∧ Inside s' := by
  have h0 := pos_nonneg s
  obtain ⟨hedit,hback⟩ := edit_pos_fits h0 hs.pos hs.back h
  obtain ⟨hs0,-,hs1⟩ := scroll_pos_bounds (edit_pos_nonneg c h0) put.fits
  have hpos := put.pos
  have hbc := hs.back
  constructor
  · intro x hx
    rw [put.out] at hx
    simp only [List.mem_append, List.mem_map, List.mem_cons, List.not_mem_nil, or_false] at hx
    rcases hx with hx | (⟨i,hi,rfl⟩ | ⟨i,hi,rfl⟩) | rfl | rfl
    · unfold uartOut at hx
      split at hx <;> simp only [List.mem_cons, List.not_mem_nil, or_false] at hx
      · rcases hx with rfl | rfl | rfl <;> trivial
      · subst hx; trivial
    · exact edit_access_fits h0 hs.pos hs.back h i hi
    · exact scroll_access_fits hedit i hi
    · exact ⟨by omega,by omega⟩
    · exact ⟨by omega,by omega⟩
  · exact ⟨by omega,by rw [put.backCounter]; exact hs.back⟩

theorem inside_drop {s : Console} (h : Inside s) : Inside (dropChar s) := ⟨h.pos,h.back⟩

theorem inside_store {s : Console} (c : Char8) (h : Inside s) : Inside (storeChar c s) :=
  ⟨h.pos,h.back⟩

theorem kill_on_screen {n : ℕ} {s s' : Console} {o : List Out} (hs : Inside s)
    (hn : (s.e-s.w).toNat ≤ s.pos) (hb : s.pos + s.backCounter < 25*80)
    (h : killLine n s = some (s',o)) : (∀ x ∈ o, OnScreen x) ∧ Inside s' := by
  have hkill := kill_invariant (fun o s => (∀ x ∈ o, OnScreen x) ∧ Inside s ∧
      (s.e-s.w).toNat ≤ s.pos ∧ s.pos + s.backCounter < 25*80) ?_ n (t := [])
      ⟨by simp,hs,hn,hb⟩ h
  · exact ⟨by simpa using hkill.1,hkill.2.1⟩
  · rintro o s s1 o1 ⟨ho,hs,hn,hb⟩ hne put
    have hp := hs.pos
    have htext : 1 ≤ (s.e-s.w).toNat := by bv_omega
    have hpos : s1.pos = s.pos-1 := by
      rw [put.pos, (drop_char_fields s).2.1]
      exact erase_pos (by omega) (by omega)
    have hback : s1.backCounter = s.backCounter := put.backCounter
    have hlen : (s1.e-s1.w).toNat = (s.e-s.w).toNat-1 := by
      rw [put.e, put.w]
      simp only [drop_char_fields]
      bv_omega
    obtain ⟨ho1,hs1⟩ := put_on_screen (inside_drop hs)
      ((put_fits_backspace _ _).mpr (by simp only [drop_char_fields]; omega)) put
    refine ⟨fun x hx => ?_,hs1,by omega,by omega⟩
    rcases List.mem_append.mp hx with hx | hx
    · exact ho x hx
    · exact ho1 x hx

theorem move_on_screen {s s' : Console} {ev : Event} {o : List Out} (hs : Inside s)
    (hg : EventFits s ev) (m : Move s ev s' o) : (∀ x ∈ o, OnScreen x) ∧ Inside s' := by
  have h0 := pos_nonneg s
  have h1 := hs.pos
  have hback := hs.back
  cases m with
  | left key =>
    simp only [EventFits, key, KeyFits] at hg
    have hleft := left_pos s (by omega)
    constructor
    · intro x hx
      simp only [moveLeftCursor, List.mem_cons, List.not_mem_nil, or_false] at hx
      rcases hx with rfl | rfl
      · exact ⟨by omega,by omega⟩
      · exact ⟨by split <;> omega,by split <;> omega⟩
    · refine ⟨?_,by simp only; omega⟩
      change (moveLeftCursor s).1.pos < 24*80
      rw [hleft]
      split <;> omega
  | right key back =>
    simp only [EventFits, key, KeyFits] at hg
    have hpos := hg back
    have hright := right_pos s (by omega)
    constructor
    · intro x hx
      simp only [moveRightCursor, List.mem_cons, List.not_mem_nil, or_false] at hx
      subst hx
      exact ⟨by omega,hpos⟩
    · refine ⟨?_,by simp only; omega⟩
      change (moveRightCursor s).1.pos < 24*80
      omega
  | ignored c => exact ⟨by simp,hs⟩
  | kill key loop =>
    simp only [EventFits, key, KeyFits] at hg
    by_cases he : s.e = s.w
    · simp only [he, BitVec.sub_self, BitVec.toNat_zero, killLine, Option.some.injEq,
        Prod.mk.injEq] at loop
      obtain ⟨rfl,rfl⟩ := loop
      exact ⟨by simp,hs⟩
    · obtain ⟨hn,hb⟩ := hg he
      exact kill_on_screen hs hn hb loop
  | erase key text put =>
    simp only [EventFits, key, KeyFits] at hg
    exact put_on_screen (inside_drop hs) (hg text) put
  | @insert c q key char room put =>
    simp only [EventFits, key, KeyFits] at hg
    obtain ⟨ho,hq⟩ := put_on_screen (inside_store (typed c) hs) (hg ⟨char,room⟩) put
    obtain ⟨-,hpos,hbc,-,-,-,hout⟩ := commit_fields (typed c) q
    constructor
    · intro x hx
      rcases hout with hout | hout <;> rw [hout] at hx
      · exact ho x hx
      · rcases List.mem_append.mp hx with hx | hx
        · exact ho x hx
        · rw [List.mem_singleton.mp hx]
          trivial
    · exact ⟨by rw [hpos]; exact hq.pos,by rw [hbc]; exact hq.back⟩
  | write put =>
    obtain ⟨ho,hq⟩ := put_on_screen hs hg put
    exact ⟨ho,hq.pos,hq.back⟩
  | read waiting => exact ⟨by simp [OnScreen],⟨h1,hback⟩⟩

/-- From a cursor on the first 24 lines and `back_counter` 0, if every event
fits when it comes, every access is on the screen and the cursor stays on the
first 24 lines. -/
theorem screen_accesses_inside (s0 : Console) (hpos : s0.cursor.toNat < 24*80)
    (hback : s0.backCounter = 0) (tr : List Out) (s : Console)
    (h : Run (console s0) EventFits tr s) :
    (∀ i, .crt i ∈ tr → 0 ≤ i ∧ i < 25*80) ∧ (∀ p, .cursor p ∈ tr → 0 ≤ p ∧ p < 24*80) ∧
    s.cursor.toNat < 24*80 := by
  have hrun : (∀ x ∈ tr, OnScreen x) ∧ Inside s := by
    refine run_invariant (fun tr s => (∀ x ∈ tr, OnScreen x) ∧ Inside s) ⟨by simp,?_⟩ ?_ h
    · exact ⟨by simp only [Console.pos, console]; omega,by simp [console, hback]⟩
    · rintro tr s ev s' o - ⟨ho,hs⟩ hg hn
      obtain ⟨ho',hs'⟩ := move_on_screen hs hg (step_cases hn)
      refine ⟨fun x hx => ?_,hs'⟩
      rcases List.mem_append.mp hx with hx | hx
      · exact ho x hx
      · exact ho' x hx
  obtain ⟨ho,hs⟩ := hrun
  have hp := hs.pos
  unfold Console.pos at hp
  exact ⟨fun i hi => ho _ hi,fun p hp => ho _ hp,by omega⟩

/-- A left arrow at the top left corner reads before the screen and moves the
cursor off it. -/
theorem screen_left_at_origin : ∃ s : Console,
    Run (console (blankScreen 0)) (fun _ _ => True) [.crt (-2), .cursor (-1)] s ∧
    s.cursor.toNat = 65535 := by
  obtain ⟨o,s,hr,hp⟩ := exec_reaches (S := console (blankScreen 0)) (G := fun _ _ => True)
    [.key KEYLF] (fun s o => o = [.crt (-2), .cursor (-1)] ∧ s.cursor.toNat = 65535)
    (by decide +kernel)
  obtain ⟨rfl,hcursor⟩ := hp
  exact ⟨s,hr,hcursor⟩

/-- A character, a step back and a second one in front of it. -/
theorem screen_accesses_inside_insert : ∃ (tr : List Out) (s : Console),
    Run (console (blankScreen 160)) EventFits tr s ∧ .crt 161 ∈ tr ∧
    (∀ i, .crt i ∈ tr → 0 ≤ i ∧ i < 25*80) ∧ (∀ p, .cursor p ∈ tr → 0 ≤ p ∧ p < 24*80) ∧
    s.cursor.toNat < 24*80 := by
  obtain ⟨tr,s,hr,hp⟩ := exec_reaches (S := console (blankScreen 160)) (G := EventFits)
    [.key 0x61, .key KEYLF, .key 0x62] (fun _ o => .crt 161 ∈ o) (by decide +kernel)
  exact ⟨tr,s,hr,hp,screen_accesses_inside (blankScreen 160) (by decide) rfl tr s hr⟩

end Xv6.ConsoleScreen

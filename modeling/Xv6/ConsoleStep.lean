import Mathlib.Algebra.Group.Int.Defs
import Xv6.ConsoleMachine

/-!
# What one step of the console can do

The effect of `consputc` field by field and the moves a step consists of.
The input indices keep the order r, w, e around the ring in every run.
-/

set_option autoImplicit false

namespace Xv6.ConsoleStep
open ConsoleMachine TransitionSystem

variable {s s' : Console} {o : List Out} {pos : ℤ}

theorem set_cursor_val (h0 : 0 ≤ pos) (h1 : pos < 2^16) :
    ((setCursor pos).toNat : ℤ) = pos := by
  rw [setCursor, BitVec.toNat_ofInt, Int.toNat_of_nonneg (by omega)]
  exact Int.emod_eq_of_lt h0 h1

theorem pos_nonneg (s : Console) : 0 ≤ s.pos := Int.natCast_nonneg _

@[simp] theorem drop_char_fields (s : Console) :
    (dropChar s).crt = s.crt ∧ (dropChar s).pos = s.pos ∧
    (dropChar s).backCounter = s.backCounter ∧ (dropChar s).buf = s.buf ∧
    (dropChar s).r = s.r ∧ (dropChar s).w = s.w ∧ (dropChar s).e = s.e-1 ∧
    (dropChar s).textEnd = s.textEnd :=
  ⟨rfl,rfl,rfl,rfl,rfl,rfl,rfl,rfl⟩

@[simp] theorem store_char_fields (c : Char8) (s : Console) :
    (storeChar c s).crt = s.crt ∧ (storeChar c s).pos = s.pos ∧
    (storeChar c s).backCounter = s.backCounter ∧
    (storeChar c s).buf = Function.update s.buf (slot s.e) c ∧
    (storeChar c s).r = s.r ∧ (storeChar c s).w = s.w ∧ (storeChar c s).e = s.e+1 ∧
    (storeChar c s).textEnd = s.textEnd :=
  ⟨rfl,rfl,rfl,rfl,rfl,rfl,rfl,rfl⟩

theorem drop_length {s : Console} (hne : s.e ≠ s.w) :
    ((dropChar s).e-(dropChar s).w).toNat + 1 = (s.e-s.w).toNat := by
  simp only [drop_char_fields]
  bv_omega

theorem store_length (c : Char8) {s : Console} (h : (s.e-s.w).toNat < INPUTBUF) :
    ((storeChar c s).e-(storeChar c s).w).toNat = (s.e-s.w).toNat + 1 := by
  simp only [store_char_fields]
  simp only [INPUTBUF] at h
  bv_omega

theorem pos_lt (s : Console) : s.pos < 2^16 := by
  have h := s.cursor.isLt
  unfold Console.pos
  omega

theorem left_pos (s : Console) (h : 1 ≤ s.pos) : (moveLeftCursor s).1.pos =
    if s.crt (s.pos-2) ≠ dollar then s.pos-1 else s.pos := by
  have hlt := pos_lt s
  refine set_cursor_val ?_ ?_ <;> split <;> omega

theorem right_pos (s : Console) (h : s.pos+1 < 2^16) : (moveRightCursor s).1.pos = s.pos+1 := by
  have h0 := pos_nonneg s
  exact set_cursor_val (by omega) h

theorem edit_pos_nonneg (c : ℕ) (h : 0 ≤ pos) : 0 ≤ editPos c pos := by
  unfold editPos
  split
  · omega
  · split
    · split <;> omega
    · omega

theorem char_ne_backspace (c : Char8) : c.toNat ≠ BACKSPACE := by
  have := c.isLt
  simp only [BACKSPACE]
  omega

theorem edit_pos_grows {c : ℕ} (hc : c ≠ BACKSPACE) (pos : ℤ) : pos + 1 ≤ editPos c pos := by
  unfold editPos
  split <;> omega

theorem edit_pos_backspace (h : 1 ≤ pos) : editPos BACKSPACE pos = pos-1 := by
  unfold editPos
  rw [if_neg (by decide), if_pos rfl, if_pos (by omega)]

theorem scrolls_iff (pos : ℤ) : Scrolls pos ↔ 1920 ≤ pos := by
  unfold Scrolls
  omega

theorem scroll_pos_eq (pos : ℤ) : scrollPos pos = if 1920 ≤ pos then pos-80 else pos := by
  simp only [scrollPos, scrolls_iff]

theorem scroll_pos_bounds (h0 : 0 ≤ pos) (h1 : pos ≤ 2000) :
    0 ≤ scrollPos pos ∧ scrollPos pos ≤ 1920 ∧ (pos < 2000 → scrollPos pos < 1920) := by
  rw [scroll_pos_eq]
  split <;> omega

theorem erase_pos (h1 : pos < 1920) (h0 : 1 ≤ pos) :
    scrollPos (editPos BACKSPACE pos) = pos-1 := by
  rw [edit_pos_backspace h0, scroll_pos_eq, if_neg (by omega)]

structure Put (c : ℕ) (s s' : Console) (o : List Out) : Prop where
  fits : editPos c s.pos ≤ 2000
  pos : s'.pos = scrollPos (editPos c s.pos)
  crt : s'.crt = Function.update (scrollCells (editPos c s.pos)
    (editCells c s.pos s.backCounter s.crt)) (s'.pos+s.backCounter) blank
  textEnd : s'.textEnd = editEnd c s.pos s.textEnd + (s'.pos - editPos c s.pos)
  backCounter : s'.backCounter = s.backCounter
  buf : s'.buf = s.buf
  r : s'.r = s.r
  w : s'.w = s.w
  e : s'.e = s.e
  out : o = uartOut c ++ ((editAccess c s.pos s.backCounter).map .crt ++
    (scrollAccess (editPos c s.pos)).map .crt ++ [.cursor s'.pos, .crt (s'.pos+s.backCounter)])

theorem consputc_put {c : ℕ} (h : consputc c s = some (s',o)) :
    Put c s s' o := by
  simp only [consputc, cgaputc, Option.map_eq_some_iff] at h
  obtain ⟨q,hq,heq⟩ := h
  split at hq
  · cases hq
  · rename_i hpos
    have hb := scroll_pos_bounds (edit_pos_nonneg c (pos_nonneg s)) (by omega)
    have hval := set_cursor_val hb.1 (by omega)
    cases hq
    cases heq
    refine ⟨by omega,hval,?_,?_,rfl,rfl,rfl,rfl,rfl,?_⟩ <;>
      simp only [Console.pos] at hval ⊢ <;> rw [hval]

theorem commit_fields (c : Char8) (q : Console × List Out) :
    (commitLine c q).1.crt = q.1.crt ∧ (commitLine c q).1.pos = q.1.pos ∧
    (commitLine c q).1.backCounter = q.1.backCounter ∧ (commitLine c q).1.buf = q.1.buf ∧
    (commitLine c q).1.r = q.1.r ∧ (commitLine c q).1.e = q.1.e ∧
    ((commitLine c q).2 = q.2 ∨ (commitLine c q).2 = q.2 ++ [.wakeup]) := by
  unfold commitLine
  split <;> simp [Console.pos]

inductive Move (s : Console) : Event → Console → List Out → Prop
  | left {c : Char8} (key : keyCase c = .left) : Move s (.key c)
      { (moveLeftCursor s).1 with backCounter := s.backCounter+1 } (moveLeftCursor s).2
  | right {c : Char8} (key : keyCase c = .right) (back : s.backCounter ≠ 0) : Move s (.key c)
      { (moveRightCursor s).1 with backCounter := s.backCounter-1 } (moveRightCursor s).2
  | ignored (c : Char8) : Move s (.key c) s []
  | kill {c : Char8} {s' : Console} {o : List Out} (key : keyCase c = .kill)
      (loop : killLine (s.e-s.w).toNat s = some (s',o)) : Move s (.key c) s' o
  | erase {c : Char8} {s' : Console} {o : List Out} (key : keyCase c = .erase)
      (text : s.e ≠ s.w) (put : Put BACKSPACE (dropChar s) s' o) : Move s (.key c) s' o
  | insert {c : Char8} {q : Console × List Out} (key : keyCase c = .other) (char : c ≠ 0)
      (room : (s.e-s.r).toNat < INPUTBUF)
      (put : Put (typed c).toNat (storeChar (typed c) s) q.1 q.2) :
      Move s (.key c) (commitLine (typed c) q).1 (commitLine (typed c) q).2
  | write {c : Char8} {s' : Console} {o : List Out} (put : Put c.toNat s s' o) :
      Move s (.write c) { s' with textEnd := writeEnd c.toNat s s' } o
  | read (waiting : s.r ≠ s.w) : Move s .read { s with r := s.r+1 } [.taken (s.buf (slot s.r))]

theorem key_cases {c : Char8}
    (h : consoleintr c s = some (s',o)) : Move s (.key c) s' o := by
  unfold consoleintr at h
  cases key : keyCase c with
  | left =>
    simp only [key] at h
    cases h
    exact .left key
  | right =>
    simp only [key] at h
    split at h
    · rename_i hb
      cases h
      exact .right key hb
    · cases h
      exact .ignored c
  | list =>
    simp only [key] at h
    cases h
    exact .ignored c
  | kill =>
    simp only [key] at h
    exact .kill key h
  | erase =>
    simp only [key] at h
    split at h
    · rename_i he
      exact .erase key he (consputc_put h)
    · cases h
      exact .ignored c
  | other =>
    simp only [key] at h
    split at h
    · rename_i hc
      obtain ⟨q,hq,heq⟩ := Option.map_eq_some_iff.mp h
      have hmove : Move s (.key c) _ _ := .insert key hc.1 hc.2 (consputc_put hq)
      rw [heq] at hmove
      exact hmove
    · cases h
      exact .ignored c

theorem step_cases {ev : Event} (h : step s ev = some (s',o)) :
    Move s ev s' o := by
  cases ev with
  | key c => exact key_cases h
  | write c =>
    obtain ⟨q,hq,heq⟩ := Option.map_eq_some_iff.mp h
    cases heq
    exact .write (consputc_put hq)
  | read =>
    simp only [step] at h
    split at h
    · cases h
    · rename_i hne
      cases h
      exact .read hne

theorem kill_invariant (P : List Out → Console → Prop)
    (hround : ∀ o s s1 o1, P o s → s.e ≠ s.w → Put BACKSPACE (dropChar s) s1 o1 → P (o++o1) s1)
    (n : ℕ) {t o : List Out} (hs : P t s) (h : killLine n s = some (s',o)) :
    P (t++o) s' := by
  induction n generalizing s t o with
  | zero =>
    cases h
    simpa using hs
  | succ n ih =>
    rw [killLine] at h
    split at h
    · rename_i htext
      split at h
      · cases h
      · rename_i s1 o1 h1
        obtain ⟨⟨s2,o2⟩,h2,heq⟩ := Option.map_eq_some_iff.mp h
        cases heq
        rw [← List.append_assoc]
        exact ih (hround t s s1 o1 hs htext.1 (consputc_put h1)) h2
    · cases h
      simpa using hs

structure Ring (s : Console) : Prop where
  order : (s.w-s.r).toNat ≤ (s.e-s.r).toNat
  size : (s.e-s.r).toNat ≤ INPUTBUF

theorem ring_empty {s : Console} (hempty : s.e = s.w) (hread : (s.w-s.r).toNat ≤ INPUTBUF) :
    Ring s := by
  have hsame : (s.e-s.r).toNat = (s.w-s.r).toNat := by rw [hempty]
  exact ⟨by omega,by omega⟩

theorem ring_text {s : Console} (h : Ring s) :
    (s.e-s.w).toNat = (s.e-s.r).toNat - (s.w-s.r).toNat := by
  obtain ⟨h1,h2⟩ := h
  bv_omega

theorem ring_drop {s : Console} (h : Ring s) (hne : s.e ≠ s.w) : Ring (dropChar s) := by
  obtain ⟨h1,h2⟩ := h
  simp only [INPUTBUF] at h2
  constructor <;> simp only [drop_char_fields, INPUTBUF] <;> bv_omega

theorem ring_store {s : Console} (c : Char8) (h : Ring s) (room : (s.e-s.r).toNat < INPUTBUF) :
    Ring (storeChar c s) := by
  obtain ⟨h1,h2⟩ := h
  simp only [INPUTBUF] at h2 room
  constructor <;> simp only [store_char_fields, INPUTBUF] <;> bv_omega

theorem ring_put {c : ℕ} (h : Ring s) (put : Put c s s' o) :
    Ring s' := by
  constructor
  · rw [put.w, put.r, put.e]; exact h.order
  · rw [put.r, put.e]; exact h.size

theorem ring_move {ev : Event} (h : Ring s)
    (m : Move s ev s' o) : Ring s' := by
  cases m with
  | left | right | ignored => exact ⟨h.order,h.size⟩
  | kill key loop =>
    exact kill_invariant (fun _ s => Ring s)
      (fun _ _ _ _ hs hne put => ring_put (ring_drop hs hne) put) _ (t := []) h loop
  | erase key text put => exact ring_put (ring_drop h text) put
  | @insert c q key char room put =>
    have hq := ring_put (ring_store (typed c) h room) put
    unfold commitLine
    split
    · exact ⟨Nat.le_refl _,hq.size⟩
    · exact hq
  | write put =>
    have h' := ring_put h put
    exact ⟨h'.order,h'.size⟩
  | read waiting =>
    obtain ⟨h1,h2⟩ := h
    simp only [INPUTBUF] at h2
    constructor <;> simp only [INPUTBUF] <;> bv_omega

end Xv6.ConsoleStep

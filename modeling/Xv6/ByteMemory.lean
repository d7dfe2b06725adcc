import Mathlib.Data.List.Basic
import Mathlib.Tactic.Common

/-!
# A byte memory of 32 bit addresses

Words are four bytes, least significant first, at any address; addresses
wrap. A byte belongs to the word at an address if its distance from it is
less than four.
-/

set_option autoImplicit false

namespace Xv6.ByteMemory

abbrev Word := BitVec 32
abbrev Mem := Word → BitVec 8

def InWord (a x : Word) : Prop := (x-a).toNat < 4

instance (a x : Word) : Decidable (InWord a x) := inferInstanceAs (Decidable (_ < _))

def load (a : Word) (m : Mem) : Word := m (a+3) ++ m (a+2) ++ m (a+1) ++ m a

def store (a v : Word) (m : Mem) : Mem := fun x =>
  if InWord a x then v.extractLsb' (8*(x-a).toNat) 8 else m x

theorem store_frame {a x : Word} (h : ¬ InWord a x) (v : Word) (m : Mem) :
    store a v m x = m x := by
  simp [store, h]

theorem load_congr {a : Word} {m m' : Mem} (h : ∀ x, InWord a x → m x = m' x) :
    load a m = load a m' := by
  have hin : ∀ k : Word, k.toNat < 4 → InWord a (a+k) := by
    intro k hk
    unfold InWord
    bv_omega
  have h0 := h a (by unfold InWord; bv_omega)
  rw [load, load, h _ (hin 3 (by decide)), h _ (hin 2 (by decide)), h _ (hin 1 (by decide)), h0]

theorem load_store_self (a v : Word) (m : Mem) : load a (store a v m) = v := by
  have hbyte : ∀ k : Word, k.toNat < 4 → store a v m (a+k) = v.extractLsb' (8*k.toNat) 8 := by
    intro k hk
    have hd : a+k-a = k := by bv_omega
    simp [store, InWord, hd, hk]
  have h0 : store a v m a = v.extractLsb' 0 8 := by simpa using hbyte 0 (by decide)
  rw [load, hbyte 3 (by decide), hbyte 2 (by decide), hbyte 1 (by decide), h0]
  ext i hi
  have hbit : ∀ j, j = i → v.getLsbD j = v[i] := by
    rintro j rfl
    exact BitVec.getLsbD_eq_getElem hi
  simp only [BitVec.getElem_append, BitVec.getElem_extractLsb']
  split
  · exact hbit _ (by omega)
  · split
    · exact hbit _ (by simp; omega)
    · split
      · exact hbit _ (by simp; omega)
      · exact hbit _ (by simp; omega)

def Apart (a b : Word) : Prop := 4 ≤ (b-a).toNat ∧ 4 ≤ (a-b).toNat

theorem load_store_apart {a b : Word} (h : Apart a b) (v : Word) (m : Mem) :
    load b (store a v m) = load b m := by
  refine load_congr (fun x hx => store_frame (fun hx' => ?_) v m)
  unfold InWord at hx hx'
  obtain ⟨h1,h2⟩ := h
  bv_omega

end Xv6.ByteMemory

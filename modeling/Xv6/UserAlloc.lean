import Xv6.PointerRing
import Xv6.BlockTiling
import Mathlib.Logic.Function.Basic

/-!
# The allocator of user programs

`free`, `morecore` and `malloc` of `umalloc.c`. A header is found by its address: the next free block
and the number of units. The regions and the amounts that `sbrk` was asked for are kept beside the
variables of the program. Loops have a bound on their rounds and no result if it is too small.
-/

set_option autoImplicit false

namespace Xv6.UserAlloc
open PointerRing BlockTiling

abbrev WORD : ℕ := 4294967296

abbrev HEADER : ℕ := 8

structure Heap where
  ptr : ℕ → ℕ
  size : ℕ → ℕ
  freep : ℕ
  regions : List Block
  asked : List ℕ

def Heap.setPtr (s : Heap) (p q : ℕ) : Heap := { s with ptr := Function.update s.ptr p q }
def Heap.setSize (s : Heap) (p n : ℕ) : Heap := { s with size := Function.update s.size p n }

def plus (p n : ℕ) : ℕ := (p+HEADER*n)%WORD

def freeLoop (s : Heap) (bp : ℕ) : ℕ → ℕ → Option ℕ
  | 0, _ => none
  | k+1, p =>
    if p < bp ∧ bp < s.ptr p then some p
    else if s.ptr p ≤ p ∧ (p < bp ∨ bp < s.ptr p) then some p
    else freeLoop s bp k (s.ptr p)

/-- The block takes in the one behind it. -/
def joinUpper (s : Heap) (bp p : ℕ) : Heap :=
  if plus bp (s.size bp) = s.ptr p then
    let s := s.setSize bp ((s.size bp+s.size (s.ptr p))%WORD)
    s.setPtr bp (s.ptr (s.ptr p))
  else s.setPtr bp (s.ptr p)

/-- The block before it takes it in. -/
def joinLower (s : Heap) (bp p : ℕ) : Heap :=
  if plus p (s.size p) = bp then
    let s := s.setSize p ((s.size p+s.size bp)%WORD)
    s.setPtr p (s.ptr bp)
  else s.setPtr p bp

def free (fuel ap : ℕ) (s : Heap) : Option Heap := do
  let bp := (ap+WORD-HEADER)%WORD
  let p ← freeLoop s bp fuel s.freep
  pure { joinLower (joinUpper s bp p) bp p with freep := p }

/-- What `sbrk` returns for a number of bytes, or nothing for -1. -/
abbrev Sbrk := Heap → ℕ → Option ℕ

def more (nu : ℕ) : ℕ := if nu < 4096 then 4096 else nu

/-- The result is 0 or `freep`. -/
def morecore (sbrk : Sbrk) (fuel nu : ℕ) (s : Heap) : Option (ℕ × Heap) :=
  let n := more nu*HEADER%WORD
  let s := { s with asked := n::s.asked }
  match sbrk s n with
  | none => some (0,s)
  | some p =>
    let s := { s with regions := (p,n/HEADER)::s.regions }
    (free fuel (plus p 1) (s.setSize p (more nu))).map fun s => (s.freep,s)

def units (nbytes : ℕ) : ℕ := (nbytes+HEADER-1)%WORD/HEADER+1

/-- A block of at least `nunits` units is taken from the list, or its end is. -/
def take (nunits : ℕ) (s : Heap) (prevp p : ℕ) : ℕ × Heap :=
  if s.size p = nunits then (plus p 1,{ s.setPtr prevp (s.ptr p) with freep := prevp })
  else
    let s := s.setSize p (s.size p-nunits)
    let p := plus p (s.size p)
    (plus p 1,{ s.setSize p nunits with freep := prevp })

def mallocLoop (sbrk : Sbrk) (fuel nunits : ℕ) : ℕ → Heap → ℕ → ℕ → Option (ℕ × Heap)
  | 0, _, _, _ => none
  | k+1, s, prevp, p =>
    if nunits ≤ s.size p then some (take nunits s prevp p)
    else if p = s.freep then
      (morecore sbrk fuel nunits s).bind fun (p,s) =>
        if p = 0 then some (0,s) else mallocLoop sbrk fuel nunits k s p (s.ptr p)
    else mallocLoop sbrk fuel nunits k s p (s.ptr p)

/-- The first call makes the list. -/
def start (base : ℕ) (s : Heap) : Heap :=
  if s.freep = 0 then { (s.setPtr base base).setSize base 0 with freep := base } else s

def malloc (base : ℕ) (sbrk : Sbrk) (fuel nbytes : ℕ) (s : Heap) : Option (ℕ × Heap) :=
  let s := start base s
  mallocLoop sbrk fuel (units nbytes) fuel s s.freep (s.ptr s.freep)

def blocks (size : ℕ → ℕ) (l : List ℕ) : List Block := l.map fun b => (b,size b)

structure Stacked (base : ℕ) (regions : List Block) : Prop where
  order : regions.Pairwise (fun r q => q.1+HEADER*q.2 ≤ r.1)
  bounds : ∀ r ∈ regions, base+HEADER ≤ r.1 ∧ r.1+HEADER*r.2 < WORD

def Gap (size : ℕ → ℕ) (a b : ℕ) : Prop := a+HEADER*size a < b

/-- The free list goes up from the base and back to it. Behind each block of it is a gap, so that no
two could be merged. The free blocks and the blocks that are held fill the regions. -/
structure Tidy (base : ℕ) (s : Heap) (nodes held : List ℕ) : Prop where
  ring : Ring s.ptr base nodes
  sorted : (base::nodes).Pairwise (Gap s.size)
  base_size : s.size base = 0
  size : ∀ b ∈ nodes++held, 1 ≤ s.size b
  fill : Fill HEADER (blocks s.size (nodes++held)) s.regions
  freep : s.freep ∈ base::nodes
  stacked : Stacked base s.regions

section Tidy
variable {base bp p n : ℕ} {s : Heap} {nodes held l l' : List ℕ} {size size' : ℕ → ℕ}

@[simp] theorem blocks_cons : blocks size (p::l) = (p,size p)::blocks size l := rfl

@[simp] theorem blocks_append : blocks size (l++l') = blocks size l++blocks size l' := List.map_append

theorem blocks_update (h : p ∉ l) : blocks (Function.update size p n) l = blocks size l :=
  List.map_congr_left fun b hb => by rw [Function.update_of_ne (ne_of_mem_of_not_mem hb h)]

theorem fill_base {regions : List Block} (hbase : size base = 0) :
    Fill HEADER (blocks size (base::l)) regions ↔ Fill HEADER (blocks size l) regions := by
  refine forall₂_congr fun μ hμ => ?_
  rw [blocks_cons, total_cons, hbase, additive_zero hμ, Nat.zero_add]

theorem tidy_bounds (h : Tidy base s nodes held) {b : ℕ} (hb : b ∈ nodes++held) :
    base+HEADER ≤ b ∧ b+HEADER*s.size b < WORD := by
  have hsize := h.size b hb
  have hmem : (b,s.size b) ∈ blocks s.size (nodes++held) := List.mem_map_of_mem hb
  obtain ⟨r,hr,hlow,-⟩ := fill_inside h.fill hmem (x := b) ⟨Nat.le_refl b,by simp only [HEADER]; omega⟩
  obtain ⟨q,hq,-,hhigh⟩ :=
    fill_inside h.fill hmem (x := b+HEADER*s.size b-1) (by simp only [Has, HEADER]; omega)
  have hr' := h.stacked.bounds r hr
  have hq' := h.stacked.bounds q hq
  omega

theorem tidy_apart (h : Tidy base s nodes held) :
    (nodes++held).Pairwise (fun b c => Apart HEADER (b,s.size b) (c,s.size c)) := by
  have hregions : s.regions.Pairwise (Apart HEADER) := h.stacked.order.imp .inr
  refine List.pairwise_map.mp (fill_apart h.fill hregions fun c hc => ?_)
  obtain ⟨b,hb,rfl⟩ := List.mem_map.mp hc
  exact Nat.mul_pos (by decide) (h.size b hb)

theorem tidy_nodup (h : Tidy base s nodes held) : (base::(nodes++held)).Nodup := by
  refine List.nodup_cons.mpr ⟨fun hb => ?_,?_⟩
  · have := (tidy_bounds h hb).1
    simp only [HEADER] at this
    omega
  · refine List.Pairwise.imp_of_mem (fun {b c} hb hc hbc => ?_) (tidy_apart h)
    rintro rfl
    have := h.size b hb
    simp only [Apart, HEADER] at hbc
    omega

end Tidy

end Xv6.UserAlloc

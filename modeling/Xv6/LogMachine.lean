import Xv6.WriteTrace

/-!
# The redo log of log.c

A block is the 128 ints of its 512 bytes, and the header block is read and
written through the same words as any other block. The buffer cache appears
as the contents `bread` returns: a store into a buffer changes the cache, and
only `bwrite` reaches the disk. Every disk write is also recorded in order,
so the crash points of a program are the prefixes of what it issued.
Buffer locking, eviction and the reservation counters are not part of this
module.
-/

set_option autoImplicit false

namespace Xv6.LogMachine
open WriteTrace

def MAXOPBLOCKS : ℕ := 10
def LOGSIZE : ℕ := MAXOPBLOCKS*3

abbrev Word := BitVec 32
abbrev BlockNo := Word
abbrev Block := Fin 128 → Word
abbrev Disk := BlockNo → Block

/-- The fields `log.start` and `log.size`, as `initlog` takes them from the superblock. -/
structure Geometry where
  start : BlockNo
  size : ℕ

def Geometry.logBlock (g : Geometry) (tail : ℕ) : BlockNo :=
  g.start+BitVec.ofNat 32 (tail+1)

/-- Offsets are taken modulo the word size, as the block numbers are. -/
def Geometry.InLog (g : Geometry) (b : BlockNo) : Prop := (b-g.start).toNat < g.size

def Geometry.Home (g : Geometry) (b : BlockNo) : Prop := ¬ g.InLog b

structure Machine where
  disk : Disk
  cache : Disk
  lh : List BlockNo
  issued : List (BlockNo × Block)

def reboot (d : Disk) : Machine := ⟨d,d,[],[]⟩

def store (b : BlockNo) (v : Block) (m : Machine) : Machine :=
  { m with cache := Function.update m.cache b v }

def bwrite (b : BlockNo) (m : Machine) : Machine :=
  { m with disk := Function.update m.disk b (m.cache b),
           issued := m.issued ++ [(b,m.cache b)] }

/-- A `memmove` of one buffer into another, then `bwrite` of the target. -/
def copyBlock (dst src : BlockNo) (m : Machine) : Machine :=
  bwrite dst (store dst (m.cache src) m)

def copies : List (BlockNo × BlockNo) → Machine → Machine
  | [], m => m
  | p::ps, m => copies ps (copyBlock p.1 p.2 m)

def writeLog (g : Geometry) (m : Machine) : Machine :=
  copies (m.lh.mapIdx (fun tail b => (g.logBlock tail,b))) m

def installTrans (g : Geometry) (m : Machine) : Machine :=
  copies (m.lh.mapIdx (fun tail b => (b,g.logBlock tail))) m

def headWord (b : Block) (i : ℕ) : Word := if h : i < 128 then b ⟨i,h⟩ else 0

/-- The entries `lh->block[0..lh->n)`; a negative `n` runs no iteration of the loop. -/
def headBlocks (b : Block) : List BlockNo :=
  (List.range (headWord b 0).toInt.toNat).map (fun i => headWord b (i+1))

/-- Words past `block[n-1]` keep what the buffer held. -/
def putHead (lh : List BlockNo) (b : Block) : Block :=
  fun k => if k.val = 0 then BitVec.ofNat 32 lh.length else lh.getD (k.val-1) (b k)

def readHead (g : Geometry) (m : Machine) : Machine :=
  { m with lh := headBlocks (m.cache g.start) }

def writeHead (g : Geometry) (m : Machine) : Machine :=
  bwrite g.start (store g.start (putHead m.lh (m.cache g.start)) m)

def recoverFromLog (g : Geometry) (m : Machine) : Machine :=
  writeHead g { installTrans g (readHead g m) with lh := [] }

def commit (g : Geometry) (m : Machine) : Machine :=
  if m.lh.length > 0 then
    writeHead g { installTrans g (writeHead g (writeLog g m)) with lh := [] }
  else m

/-- The caller has put `v` in the buffer of `b`. No result is the panic
`too big a transaction`. -/
def logWrite (g : Geometry) (b : BlockNo) (v : Block) (m : Machine) : Option Machine :=
  if m.lh.length ≥ LOGSIZE ∨ m.lh.length ≥ g.size-1 then none
  else some { store b v m with lh := if b ∈ m.lh then m.lh else m.lh ++ [b] }

abbrev Trans := List (BlockNo × Block)

def logAll (g : Geometry) : Trans → Machine → Option Machine
  | [], m => some m
  | w::t, m => (logWrite g w.1 w.2 m).bind (logAll g t)

def transactAll (g : Geometry) : List Trans → Machine → Option Machine
  | [], m => some m
  | t::ts, m => (logAll g t m).bind (fun m' => transactAll g ts (commit g m'))

/-- The disk when power fails after the first `k` block writes of `f`. -/
def crashAfter (f : Machine → Machine) (k : ℕ) (m : Machine) : Disk :=
  replay ((f { m with issued := [] }).issued.take k) m.disk

def crashedRecoveries (g : Geometry) : List ℕ → Disk → Disk
  | [], d => d
  | k::ks, d => crashedRecoveries g ks (crashAfter (recoverFromLog g) k (reboot d))

theorem copies_formula (ps : List (BlockNo × BlockNo)) (m : Machine)
    (h : ∀ p ∈ ps, ∀ q ∈ ps, p.1 ≠ q.2) :
    copies ps m = { m with
      disk := replay (ps.map (fun p => (p.1,m.cache p.2))) m.disk,
      cache := replay (ps.map (fun p => (p.1,m.cache p.2))) m.cache,
      issued := m.issued ++ ps.map (fun p => (p.1,m.cache p.2)) } := by
  induction ps generalizing m with
  | nil => simp [copies]
  | cons p ps ih =>
    have hs : ps.map (fun q => (q.1,(copyBlock p.1 p.2 m).cache q.2)) =
        ps.map (fun q => (q.1,m.cache q.2)) := by
      apply List.map_congr_left
      intro q hq
      have hne := h p (by simp) q (by simp [hq])
      simp [copyBlock, bwrite, store, Function.update_of_ne hne.symm]
    rw [copies, ih _ (fun a ha b hb => h a (by simp [ha]) b (by simp [hb])), hs]
    simp [copyBlock, bwrite, store, replay_cons]

theorem write_head_formula (g : Geometry) (m : Machine) :
    writeHead g m = { m with
      disk := Function.update m.disk g.start (putHead m.lh (m.cache g.start)),
      cache := Function.update m.cache g.start (putHead m.lh (m.cache g.start)),
      issued := m.issued ++ [(g.start,putHead m.lh (m.cache g.start))] } := by
  simp [writeHead, bwrite, store]

theorem head_word_put (lh : List BlockNo) (b : Block) (i : ℕ) (hi : i < lh.length)
    (hl : lh.length ≤ LOGSIZE) : headWord (putHead lh b) (i+1) = lh.get ⟨i,hi⟩ := by
  have hb : i+1 < 128 := by simp only [LOGSIZE, MAXOPBLOCKS] at hl; omega
  simp [headWord, putHead, hb, hi]

theorem head_count_put (lh : List BlockNo) (b : Block) (hl : lh.length ≤ LOGSIZE) :
    (headWord (putHead lh b) 0).toInt.toNat = lh.length := by
  simp only [LOGSIZE, MAXOPBLOCKS] at hl
  have hw : headWord (putHead lh b) 0 = BitVec.ofNat 32 lh.length := by
    simp [headWord, putHead]
  rw [hw, BitVec.toInt_eq_toNat_cond, BitVec.toNat_ofNat]
  split <;> omega

theorem head_blocks_put (lh : List BlockNo) (b : Block) (hl : lh.length ≤ LOGSIZE) :
    headBlocks (putHead lh b) = lh := by
  apply List.ext_getElem
  · simp [headBlocks, head_count_put lh b hl]
  · intro i h1 h2
    simp only [headBlocks, List.getElem_map, List.getElem_range]
    exact head_word_put lh b i h2 hl

theorem log_block_offset (g : Geometry) (i : ℕ) (hi : i < LOGSIZE) :
    (g.logBlock i-g.start).toNat = i+1 := by
  simp only [LOGSIZE, MAXOPBLOCKS] at hi
  rw [Geometry.logBlock, BitVec.add_comm, BitVec.add_sub_cancel, BitVec.toNat_ofNat]
  omega

theorem log_block_in_log (g : Geometry) (i : ℕ) (hi : i < LOGSIZE) (hg : i+1 < g.size) :
    g.InLog (g.logBlock i) := by
  rw [Geometry.InLog, log_block_offset g i hi]
  exact hg

theorem log_block_ne_start (g : Geometry) (i : ℕ) (hi : i < LOGSIZE) :
    g.logBlock i ≠ g.start := by
  intro h
  have := log_block_offset g i hi
  simp [h] at this

theorem log_block_injective (g : Geometry) (i j : ℕ) (hi : i < LOGSIZE) (hj : j < LOGSIZE)
    (h : g.logBlock i = g.logBlock j) : i = j := by
  have h1 := log_block_offset g i hi
  have h2 := log_block_offset g j hj
  rw [h] at h1
  omega

theorem start_in_log (g : Geometry) (hg : 0 < g.size) : g.InLog g.start := by
  simpa [Geometry.InLog] using hg

end Xv6.LogMachine

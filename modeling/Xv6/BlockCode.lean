import Xv6.ByteFields
import Xv6.InodeCode

/-!
# Blocks of inodes

The functions of fs.c that find and allocate the blocks of an inode, as programs
over commands. What is done between `bread` and `brelse` of a block is one command, and
so is one access to the fields of a cached inode. There is one device, so `dev` is left
out, and a cached inode is known by its number. No device driver is in `devsw` here.
-/

set_option autoImplicit false

namespace Xv6.BlockCode
open CommandTree ByteFields
open InodeCode (BSIZE MAXFILE WORD DIRSIZ DIRENT T_DIR T_FILE T_DEV Byte Name Dirent namecmp)

export InodeCode (NDIRECT NINDIRECT)

abbrev DINODE : ℕ := 64

abbrev IPB : ℕ := 8

abbrev BPB : ℕ := 4096

structure Superblock where
  size : ℕ
  nblocks : ℕ
  ninodes : ℕ
  nlog : ℕ
  logstart : ℕ
  inodestart : ℕ
  bmapstart : ℕ
  deriving DecidableEq

def IBLOCK (i : ℕ) (sb : Superblock) : ℕ := i/IPB+sb.inodestart

def BBLOCK (b : ℕ) (sb : Superblock) : ℕ := b/BPB+sb.bmapstart

/-- A `struct dinode`; of `addrs` only the first `NDIRECT + 1` are there, the others are 0. -/
structure Dinode where
  type : ℕ
  major : ℕ
  minor : ℕ
  nlink : ℕ
  size : ℕ
  addrs : ℕ → ℕ

def readDinode (f : Block) (slot : ℕ) : Dinode where
  type := field 2 f (DINODE*slot)
  major := field 2 f (DINODE*slot+2)
  minor := field 2 f (DINODE*slot+4)
  nlink := field 2 f (DINODE*slot+6)
  size := field 4 f (DINODE*slot+8)
  addrs k := if k ≤ NDIRECT then field 4 f (DINODE*slot+12+4*k) else 0

def Dinode.byteAt (d : Dinode) (r : ℕ) : Byte :=
  if r < 2 then byte d.type r
  else if r < 4 then byte d.major (r-2)
  else if r < 6 then byte d.minor (r-4)
  else if r < 8 then byte d.nlink (r-6)
  else if r < 12 then byte d.size (r-8)
  else byte (d.addrs ((r-12)/4)) ((r-12)%4)

def writeDinode (f : Block) (slot : ℕ) (d : Dinode) : Block :=
  fun o => if DINODE*slot ≤ o ∧ o < DINODE*slot+DINODE then d.byteAt (o-DINODE*slot) else f o

inductive Panic where
  | ballocOutOfBlocks
  | bmapOutOfRange
  | ilockNoType
  | dirlookupNotDir
  | dirlookupRead
  deriving DecidableEq

inductive Cmd where
  | sb
  | inode (i : ℕ)
  | load (i : ℕ)
  | addr (i k : ℕ)
  | setAddr (i k v : ℕ)
  | setSize (i n : ℕ)
  | iupdate (i : ℕ)
  | takeBit (b : ℕ)
  | zero (b : ℕ)
  | read (b : ℕ)
  | patch (b o : ℕ) (bytes : List Byte)
  | panic (msg : Panic)

def Reply : Cmd → Type
  | .sb => Superblock
  | .inode _ => Dinode
  | .addr _ _ => ℕ
  | .takeBit _ => Option ℕ
  | .read _ => Block
  | .panic _ => Empty
  | _ => Unit

abbrev Prog (α : Type) := Program Cmd Reply α

def command (c : Cmd) : Prog (Reply c) := perform c

def superblock : Prog Superblock := command .sb

def inode (i : ℕ) : Prog Dinode := command (.inode i)

/-- The part of `ilock` that copies the inode from its block. -/
def load (i : ℕ) : Prog Unit := command (.load i)

def addr (i k : ℕ) : Prog ℕ := command (.addr i k)
def setAddr (i k v : ℕ) : Prog Unit := command (.setAddr i k v)
def setSize (i n : ℕ) : Prog Unit := command (.setSize i n)
def iupdate (i : ℕ) : Prog Unit := command (.iupdate i)

/-- The inner loop of `balloc` in the bitmap block of `b`: the first bit that is clear is
set, and the reply is `bi`. -/
def takeBit (b : ℕ) : Prog (Option ℕ) := command (.takeBit b)

/-- The function `bzero`. -/
def zero (b : ℕ) : Prog Unit := command (.zero b)
def read (b : ℕ) : Prog Block := command (.read b)

/-- Bytes are copied into a block, and the block is given to `log_write`. -/
def patch (b o : ℕ) (bytes : List Byte) : Prog Unit := command (.patch b o bytes)

def panic {α : Type} (msg : Panic) : Prog α := .call (.panic msg) Empty.elim

/-- The outer loop of `balloc`, with a bound on the bitmap blocks left. -/
def ballocFrom (size : ℕ) : ℕ → ℕ → Prog ℕ
  | 0, _ => panic .ballocOutOfBlocks
  | k+1, b =>
    if b < size then do
      match ← takeBit b with
      | some bi =>
        zero (b+bi)
        pure (b+bi)
      | none => ballocFrom size k (b+BPB)
    else panic .ballocOutOfBlocks

def balloc : Prog ℕ := do
  let sb ← superblock
  ballocFrom sb.size (sb.size/BPB+1) 0

/-- The address in a slot of `addrs`, where a block is put if there is none. -/
def slotBlock (i k : ℕ) : Prog ℕ := do
  let a ← addr i k
  if a = 0 then
    let b ← balloc
    setAddr i k b
    pure b
  else pure a

def bmap (i bn : ℕ) : Prog ℕ :=
  if bn < NDIRECT then slotBlock i bn
  else if bn-NDIRECT < NINDIRECT then do
    let ind ← slotBlock i NDIRECT
    let bp ← read ind
    let a := field 4 bp (4*(bn-NDIRECT))
    if a = 0 then
      let b ← balloc
      patch ind (4*(bn-NDIRECT)) (bytes 4 b)
      pure b
    else pure a
  else panic .bmapOutOfRange

/-- The loop of `readi`, with a bound on the rounds left. -/
def readFrom (i : ℕ) : ℕ → ℕ → ℕ → Prog (List Byte)
  | 0, _, _ => pure []
  | k+1, off, n =>
    if 0 < n then do
      let b ← bmap i (off/BSIZE)
      let bp ← read b
      let m := min n (BSIZE-off%BSIZE)
      let rest ← readFrom i k (off+m) (n-m)
      pure (slice bp (off%BSIZE) m++rest)
    else pure []

/-- The result is `none` where the function returns -1. -/
def readi (i off n : ℕ) : Prog (Option (List Byte)) := do
  let x ← inode i
  if x.type = T_DEV then pure none
  else if x.size < off ∨ (off+n)%WORD < off then pure none
  else
    let n := if x.size < (off+n)%WORD then x.size-off else n
    let bytes ← readFrom i n off n
    pure (some bytes)

/-- The loop of `writei`, with a bound on the rounds left. -/
def writeFrom (i : ℕ) : ℕ → ℕ → List Byte → Prog Unit
  | 0, _, _ => pure ()
  | k+1, off, src =>
    if 0 < src.length then do
      let b ← bmap i (off/BSIZE)
      let m := min src.length (BSIZE-off%BSIZE)
      patch b (off%BSIZE) (src.take m)
      writeFrom i k (off+m) (src.drop m)
    else pure ()

def extend (i n stop : ℕ) : Prog Unit := do
  let x ← inode i
  if 0 < n ∧ x.size < stop then
    setSize i stop
    iupdate i
  else pure ()

def writei (i off : ℕ) (src : List Byte) : Prog (Option ℕ) := do
  let x ← inode i
  let n := src.length
  if x.type = T_DEV then pure none
  else if x.size < off ∨ (off+n)%WORD < off then pure none
  else if MAXFILE*BSIZE < (off+n)%WORD then pure none
  else
    writeFrom i n off src
    extend i n (off+n)
    pure (some n)

/-- The part of `ilock` after the lock, for an inode that is not in the cache. -/
def ilock (i : ℕ) : Prog Unit := do
  load i
  let x ← inode i
  if x.type = 0 then panic .ilockNoType else pure ()

/-- The loop of `dirlookup`, with the number of entries left; the result is the number
for `iget` and `*poff`. -/
def dirlookupFrom (dp : ℕ) (name : Name) : ℕ → ℕ → Prog (Option (ℕ × ℕ))
  | 0, _ => pure none
  | k+1, off => do
    let x ← inode dp
    if off < x.size then
      match ← readi dp off DIRENT with
      | none => panic .dirlookupRead
      | some bytes =>
        if bytes.length ≠ DIRENT then panic .dirlookupRead
        else
          let de := Dirent.decode bytes
          if de.inum = 0 then dirlookupFrom dp name k (off+DIRENT)
          else if namecmp name de.name = 0 then pure (some (de.inum,off))
          else dirlookupFrom dp name k (off+DIRENT)
    else pure none

def dirlookup (dp : ℕ) (name : Name) : Prog (Option (ℕ × ℕ)) := do
  let x ← inode dp
  if x.type ≠ T_DIR then panic .dirlookupNotDir
  else dirlookupFrom dp name (x.size/DIRENT+1) 0

/-- The blocks as the cache and the log show them, and the cached inodes. -/
structure Store where
  sb : Superblock
  blocks : ℕ → Block
  mem : ℕ → Dinode

def Store.setBlock (s : Store) (b : ℕ) (f : Block) : Store :=
  { s with blocks := Function.update s.blocks b f }

def Store.setMem (s : Store) (i : ℕ) (d : Dinode) : Store := { s with mem := Function.update s.mem i d }

def Store.dinode (s : Store) (i : ℕ) : Dinode := readDinode (s.blocks (IBLOCK i s.sb)) (i%IPB)

/-- The function `readsb`, in the block it reads. -/
def readsb (f : Block) : Superblock :=
  ⟨field 4 f 0,field 4 f 4,field 4 f 8,field 4 f 12,field 4 f 16,field 4 f 20,field 4 f 24⟩

/-- The first clear bit of a bitmap block, among the blocks of the disk from `b` on. -/
def firstClear (f : Block) (b size : ℕ) : Option ℕ :=
  (List.range (min BPB (size-b))).find? (fun bi => !isSet f bi)

def exec : Handler Cmd Reply Store Panic
  | .sb, s => .ok (s.sb,s)
  | .inode i, s => .ok (s.mem i,s)
  | .load i, s => .ok ((),s.setMem i (s.dinode i))
  | .addr i k, s => .ok ((s.mem i).addrs k,s)
  | .setAddr i k v, s =>
    .ok ((),s.setMem i { s.mem i with addrs := Function.update (s.mem i).addrs k v })
  | .setSize i n, s => .ok ((),s.setMem i { s.mem i with size := n })
  | .iupdate i, s =>
    .ok ((),s.setBlock (IBLOCK i s.sb) (writeDinode (s.blocks (IBLOCK i s.sb)) (i%IPB) (s.mem i)))
  | .takeBit b, s =>
    match firstClear (s.blocks (BBLOCK b s.sb)) b s.sb.size with
    | some bi => .ok (some bi,s.setBlock (BBLOCK b s.sb) (setBit (s.blocks (BBLOCK b s.sb)) bi))
    | none => .ok (none,s)
  | .zero b, s => .ok ((),s.setBlock b (fun _ => 0))
  | .read b, s => .ok (s.blocks b,s)
  | .patch b o xs, s => .ok ((),s.setBlock b (paste (s.blocks b) o xs))
  | .panic msg, _ => .error msg

end Xv6.BlockCode

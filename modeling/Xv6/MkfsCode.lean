import Xv6.BlockCode
import Xv6.FileCalls

/-!
# The program mkfs

The functions of mkfs.c on the image file, for a host that has the low byte of a number
first, as the kernel has. A failed assertion, and an exit because of an error, have no
result.
-/

set_option autoImplicit false

namespace Xv6.MkfsCode
open ByteFields BlockCode
open InodeCode (BSIZE MAXFILE DIRSIZ ROOTINO T_DIR T_FILE Byte Name Dirent strncpy slash)
open FileCalls (dot dotdot)

abbrev NINODES : ℕ := 200
abbrev FSSIZE : ℕ := 1000

abbrev nlog : ℕ := 30
abbrev nbitmap : ℕ := FSSIZE/(BSIZE*8)+1
abbrev ninodeblocks : ℕ := NINODES/IPB+1
abbrev nmeta : ℕ := 2+nlog+ninodeblocks+nbitmap
abbrev nblocks : ℕ := FSSIZE-nmeta

/-- The bytes of `y` are set one by one. -/
def xshort (x : ℕ) : ℕ := field 2 (byte x) 0

def xint (x : ℕ) : ℕ := field 4 (byte x) 0

def sb : Superblock where
  size := xint FSSIZE
  nblocks := xint nblocks
  ninodes := xint NINODES
  nlog := xint nlog
  logstart := xint 2
  inodestart := xint (2+nlog)
  bmapstart := xint (2+nlog+ninodeblocks)

/-- The image, how many sectors the file has, and the next inode and block. -/
structure Host where
  image : ℕ → Block
  sectors : ℕ
  freeinode : ℕ
  freeblock : ℕ

def wsect (h : Host) (sec : ℕ) (buf : Block) : Host :=
  { h with
    image := Function.update h.image sec buf
    sectors := max h.sectors (sec+1) }

def rsect (h : Host) (sec : ℕ) : Option Block := if sec < h.sectors then some (h.image sec) else none

def winode (h : Host) (inum : ℕ) (ip : Dinode) : Option Host := do
  let buf ← rsect h (IBLOCK inum sb)
  some (wsect h (IBLOCK inum sb) (writeDinode buf (inum%IPB) ip))

def rinode (h : Host) (inum : ℕ) : Option Dinode := do
  let buf ← rsect h (IBLOCK inum sb)
  some (readDinode buf (inum%IPB))

def ialloc (h : Host) (type : ℕ) : Option (ℕ × Host) := do
  let inum := h.freeinode
  let h ← winode { h with freeinode := inum+1 } inum
    ⟨xshort type,0,0,xshort 1,xint 0,fun _ => 0⟩
  some (inum,h)

def bitmap (used : ℕ) : Block := (List.range used).foldl setBit (fun _ => 0)

def balloc (h : Host) (used : ℕ) : Option Host :=
  if used < BSIZE*8 then some (wsect h sb.bmapstart (bitmap used)) else none

def newBlock (h : Host) : ℕ × Host := (xint h.freeblock,{ h with freeblock := h.freeblock+1 })

/-- A slot of `din.addrs`, with a new block if it is empty. -/
def dinBlock (h : Host) (din : Dinode) (k : ℕ) : Dinode × Host :=
  if xint (din.addrs k) = 0 then
    ({ din with addrs := Function.update din.addrs k (newBlock h).1 },(newBlock h).2)
  else (din,h)

/-- An entry of the indirect block, with a new block if it is empty. -/
def entryBlock (h : Host) (din : Dinode) (j : ℕ) : Option (ℕ × Host) := do
  let indirect ← rsect h (xint (din.addrs NDIRECT))
  if field 4 indirect (4*j) = 0 then
    let indirect := paste indirect (4*j) (bytes 4 (newBlock h).1)
    some (xint (field 4 indirect (4*j)),wsect (newBlock h).2 (xint (din.addrs NDIRECT)) indirect)
  else some (xint (field 4 indirect (4*j)),h)

/-- The part of the loop of `iappend` that finds the sector of block `fbn`. -/
def fileBlock (h : Host) (din : Dinode) (fbn : ℕ) : Option (ℕ × Dinode × Host) :=
  if fbn < NDIRECT then
    let (din,h) := dinBlock h din fbn
    some (xint (din.addrs fbn),din,h)
  else do
    let (din,h) := dinBlock h din NDIRECT
    let (x,h) ← entryBlock h din (fbn-NDIRECT)
    some (x,din,h)

/-- The loop of `iappend`, with a bound on the rounds left. -/
def iappendFrom : ℕ → Host → Dinode → ℕ → List Byte → Option (Dinode × ℕ × Host)
  | 0, h, din, off, _ => some (din,off,h)
  | k+1, h, din, off, p =>
    if 0 < p.length then
      let fbn := off/BSIZE
      if fbn < MAXFILE then do
        let (x,din,h) ← fileBlock h din fbn
        let n1 := min p.length ((fbn+1)*BSIZE-off)
        let buf ← rsect h x
        iappendFrom k (wsect h x (paste buf (off-fbn*BSIZE) (p.take n1))) din (off+n1) (p.drop n1)
      else none
    else some (din,off,h)

def iappend (h : Host) (inum : ℕ) (p : List Byte) : Option Host := do
  let din ← rinode h inum
  let (din,off,h) ← iappendFrom p.length h din (xint din.size) p
  winode h inum { din with size := xint off }

/-- A file on the command line: its name, and what the calls of `read` return one after
the other until the end of the file. -/
structure Input where
  name : Name
  reads : List (List Byte)

def Input.bytes (x : Input) : List Byte := x.reads.flatten

def appendReads (inum : ℕ) : Host → List (List Byte) → Option Host
  | h, [] => some h
  | h, buf::rest => if buf = [] then some h else do
    let h ← iappend h inum buf
    appendReads inum h rest

def underscore : Byte := 95

def stripped (name : Name) : Name := if name.headD 0 = underscore then name.tail else name

def dirent (inum : ℕ) (name : Name) : List Byte := Dirent.encode ⟨xshort inum,strncpy DIRSIZ name⟩

/-- One round of the loop over the arguments. -/
def addFile (h : Host) (x : Input) : Option Host :=
  if slash ∈ x.name then none
  else do
    let (inum,h) ← ialloc h T_FILE
    let h ← iappend h ROOTINO (dirent inum (stripped x.name))
    appendReads inum h x.reads

/-- The image before `main` adds to it: zeros, and the super block. -/
def blank : Host :=
  wsect ⟨fun _ _ => 0,FSSIZE,1,nmeta⟩ 1 (paste (fun _ => 0) 0
    ([sb.size, sb.nblocks, sb.ninodes, sb.nlog, sb.logstart, sb.inodestart, sb.bmapstart].flatMap (bytes 4)))

def fixRoot (h : Host) : Option Host := do
  let din ← rinode h ROOTINO
  winode h ROOTINO { din with size := xint ((xint din.size/BSIZE+1)*BSIZE) }

def main (files : List Input) : Option Host := do
  let (rootino,h) ← ialloc blank T_DIR
  if rootino ≠ ROOTINO then none
  else
    let h ← iappend h rootino (dirent rootino dot)
    let h ← iappend h rootino (dirent rootino dotdot)
    let h ← files.foldlM addFile h
    let h ← fixRoot h
    balloc h h.freeblock

end Xv6.MkfsCode

import Xv6.CommandTree
import Mathlib.Data.Fin.Basic
import Mathlib.Data.List.Basic
import Mathlib.Data.List.FinRange
import Mathlib.Logic.Function.Basic

/-!
# Inodes, directories and path names of fs.c

The functions of the inode layer as programs over commands. What is done under
`icache.lock` or `ftable.lock` is one command, and so is one access to the fields
of a cached inode, to an inode on the disk or to the bytes of its blocks. There is
one device, so `dev` is left out. A read or a write puts a block wherever `bmap`
finds none; the bytes of an inode are zeros where it has no block.
-/

set_option autoImplicit false

namespace Xv6.InodeCode
open CommandTree
open Function

abbrev NINODE : ℕ := 50
abbrev NFILE : ℕ := 100
abbrev NOFILE : ℕ := 16
abbrev NDEV : ℕ := 10
abbrev CONSOLE : ℕ := 1
abbrev ROOTINO : ℕ := 1
abbrev DIRSIZ : ℕ := 14
abbrev BSIZE : ℕ := 512

abbrev DIRENT : ℕ := 16

abbrev NDIRECT : ℕ := 12
abbrev NINDIRECT : ℕ := 128
abbrev MAXFILE : ℕ := 140

abbrev WORD : ℕ := 4294967296

abbrev T_DIR : ℕ := 1
abbrev T_FILE : ℕ := 2
abbrev T_DEV : ℕ := 3

abbrev Byte := UInt8
abbrev Slot := Fin NINODE
abbrev FileId := Fin NFILE
abbrev Fd := Fin NOFILE

instance : @NeZero ℕ Zero.ofOfNat0 NINODE := ⟨by decide⟩
instance : @NeZero ℕ Zero.ofOfNat0 NFILE := ⟨by decide⟩

/-- What is kept of a file on the disk, and copied from there by `ilock`. -/
structure Dinode where
  type : ℕ
  major : BitVec 16
  minor : BitVec 16
  nlink : BitVec 16
  size : ℕ
  deriving DecidableEq

def Dinode.zero : Dinode := ⟨0,0,0,0,0⟩

/-- An entry of the inode cache. In `lock` is the `pid` of the process that has
the sleep lock. -/
structure Inode where
  inum : ℕ
  ref : ℕ
  lock : Option ℕ
  valid : Bool
  copy : Dinode
  deriving DecidableEq

inductive FileType where
  | none
  | pipe
  | inode
  deriving DecidableEq

structure File where
  type : FileType
  ref : ℕ
  readable : Bool
  writable : Bool
  ip : Slot
  off : ℕ
  pipe : ℕ
  deriving DecidableEq

structure Pipe where
  readopen : Bool
  writeopen : Bool
  used : Bool
  deriving DecidableEq

def Pipe.shut (x : Pipe) (writable : Bool) : Pipe :=
  if writable = true then { x with writeopen := false } else { x with readopen := false }

inductive Panic where
  | iget
  | ilock
  | ilockNoType
  | iunlock
  | ialloc
  | balloc
  | bfree
  | bmap
  | dirlookupNotDir
  | dirlookupRead
  | dirlinkRead
  | dirlink
  | isdiremptyReadi
  | unlinkNlink
  | unlinkWritei
  | createDots
  | createDirlink
  | fileclose
  | fileread
  | filewrite
  | shortFilewrite
  | initExiting
  deriving DecidableEq

inductive Cmd where
  | beginOp
  | endOp
  | iget (inum : ℕ)
  | idup (i : Slot)
  | unref (i : Slot)
  | acquiresleep (i : Slot)
  | releasesleep (i : Slot)
  | holdingsleep (i : Slot)
  | inode (i : Slot)
  | setCopy (i : Slot) (d : Dinode)
  | setValid (i : Slot) (v : Bool)
  | ninodes
  | dinode (inum : ℕ)
  | setDinode (inum : ℕ) (d : Dinode)
  | allocDinode (inum type : ℕ)
  | readData (inum off n : ℕ)
  | writeData (inum off : ℕ) (bytes : List Byte)
  | freeData (inum : ℕ)
  | filealloc
  | fileunref (f : FileId)
  | file (f : FileId)
  | setFile (f : FileId) (x : File)
  | advance (f : FileId) (n : ℕ)
  | shut (pi : ℕ) (writable : Bool)
  | kfree (pi : ℕ)
  | ofile (fd : Fd)
  | setOfile (fd : Fd) (o : Option FileId)
  | cwd
  | setCwd (c : Option Slot)
  | isInit
  | input (n : ℕ)
  | memory
  | panic (msg : Panic)

/-- What a command replies. A `fileunref` of the last reference replies with
the file as it was, and a `shut` of the last open end of a pipe with
`true`. -/
def Reply : Cmd → Type
  | .beginOp | .endOp => Unit
  | .iget _ => Slot
  | .idup _ | .unref _ => Unit
  | .acquiresleep _ | .releasesleep _ => Unit
  | .holdingsleep _ => Bool
  | .inode _ => Inode
  | .setCopy _ _ | .setValid _ _ => Unit
  | .ninodes => ℕ
  | .dinode _ => Dinode
  | .setDinode _ _ => Unit
  | .allocDinode _ _ => Bool
  | .readData _ _ _ => List Byte
  | .writeData _ _ _ | .freeData _ => Unit
  | .filealloc => Option FileId
  | .fileunref _ => Option File
  | .file _ => File
  | .setFile _ _ | .advance _ _ => Unit
  | .shut _ _ => Bool
  | .kfree _ => Unit
  | .ofile _ => Option FileId
  | .setOfile _ _ => Unit
  | .cwd => Slot
  | .setCwd _ => Unit
  | .isInit => Bool
  | .input _ => Option (List Byte)
  | .memory => Bool
  | .panic _ => Empty

abbrev Prog (α : Type) := Program Cmd Reply α

def command (c : Cmd) : Prog (Reply c) := perform c

def beginOp : Prog Unit := command .beginOp
def endOp : Prog Unit := command .endOp
def iget (inum : ℕ) : Prog Slot := command (.iget inum)
def idup (i : Slot) : Prog Unit := command (.idup i)
def unref (i : Slot) : Prog Unit := command (.unref i)
def acquiresleep (i : Slot) : Prog Unit := command (.acquiresleep i)
def releasesleep (i : Slot) : Prog Unit := command (.releasesleep i)
def holdingsleep (i : Slot) : Prog Bool := command (.holdingsleep i)
def inode (i : Slot) : Prog Inode := command (.inode i)
def setCopy (i : Slot) (d : Dinode) : Prog Unit := command (.setCopy i d)
def setValid (i : Slot) (v : Bool) : Prog Unit := command (.setValid i v)
def ninodes : Prog ℕ := command .ninodes
def dinode (inum : ℕ) : Prog Dinode := command (.dinode inum)
def setDinode (inum : ℕ) (d : Dinode) : Prog Unit := command (.setDinode inum d)
def allocDinode (inum type : ℕ) : Prog Bool := command (.allocDinode inum type)
def readData (inum off n : ℕ) : Prog (List Byte) := command (.readData inum off n)
def writeData (inum off : ℕ) (bytes : List Byte) : Prog Unit := command (.writeData inum off bytes)
def freeData (inum : ℕ) : Prog Unit := command (.freeData inum)
def filealloc : Prog (Option FileId) := command .filealloc
def fileunref (f : FileId) : Prog (Option File) := command (.fileunref f)
def file (f : FileId) : Prog File := command (.file f)
def setFile (f : FileId) (x : File) : Prog Unit := command (.setFile f x)

def advance (f : FileId) (n : ℕ) : Prog Unit := command (.advance f n)

/-- The part of `pipeclose` under the lock of the pipe. -/
def shut (pi : ℕ) (writable : Bool) : Prog Bool := command (.shut pi writable)

def kfree (pi : ℕ) : Prog Unit := command (.kfree pi)
def ofile (fd : Fd) : Prog (Option FileId) := command (.ofile fd)
def setOfile (fd : Fd) (o : Option FileId) : Prog Unit := command (.setOfile fd o)
def cwd : Prog Slot := command .cwd
def setCwd (c : Option Slot) : Prog Unit := command (.setCwd c)
def isInit : Prog Bool := command .isInit
def input (n : ℕ) : Prog (Option (List Byte)) := command (.input n)
def memory : Prog Bool := command .memory

def panic {α : Type} (msg : Panic) : Prog α := .call (.panic msg) Empty.elim

/-- The bitmap, and the pointers of each inode: `addrs`, with the indirect block the last, and
the entries of the indirect block behind them. A pointer is 0 where there is no block. -/
structure Blocks where
  size : ℕ
  used : ℕ → Bool
  addrs : ℕ → ℕ → ℕ

/-- A pointer of an inode gets the first free block if it has none. -/
def Blocks.slotBlock (s : Blocks) (inum k : ℕ) : Option Blocks :=
  if s.addrs inum k = 0 then
    ((List.range s.size).find? (fun b => !s.used b)).map fun b =>
      { s with used := update s.used b true, addrs := update s.addrs inum (update (s.addrs inum) k b) }
  else some s

def slots (bn : ℕ) : List ℕ := if bn < NDIRECT then [bn] else [NDIRECT,bn+1]

def Blocks.bmap (s : Blocks) (inum bn : ℕ) : Option Blocks :=
  (slots bn).foldlM (fun s k => s.slotBlock inum k) s

/-- The blocks of the bytes that `readi` and `writei` go through. -/
def blocksOf (off n : ℕ) : List ℕ :=
  if 0 < n then List.range' (off/BSIZE) ((off+n-1)/BSIZE+1-off/BSIZE) else []

def Blocks.cover (s : Blocks) (inum off n : ℕ) : Option Blocks :=
  (blocksOf off n).foldlM (fun s bn => s.bmap inum bn) s

def Blocks.bfree (s : Blocks) (inum k : ℕ) : Option Blocks :=
  if s.addrs inum k = 0 then some s
  else if s.used (s.addrs inum k) = true then
    some { s with
      used := update s.used (s.addrs inum k) false
      addrs := update s.addrs inum (update (s.addrs inum) k 0) }
  else none

/-- The blocks of `addrs`, then those of the indirect block and this block. -/
def Blocks.itrunc (s : Blocks) (inum : ℕ) : Option Blocks :=
  (List.range NDIRECT++List.range' (NDIRECT+1) NINDIRECT++[NDIRECT]).foldlM (fun s k => s.bfree inum k) s

def Blocks.clear (s : Blocks) (inum : ℕ) : Blocks := { s with addrs := update s.addrs inum (fun _ => 0) }

/-- The part of `ilock` that reads the inode from the disk. -/
def load (i : Slot) (inum : ℕ) : Prog Unit := do
  let d ← dinode inum
  setCopy i d
  setValid i true
  if d.type = 0 then panic .ilockNoType else pure ()

def ilock (i : Slot) : Prog Unit := do
  let x ← inode i
  if x.ref < 1 then panic .ilock
  else
    acquiresleep i
    let x ← inode i
    if x.valid = false then load i x.inum else pure ()

def iunlock (i : Slot) : Prog Unit := do
  let held ← holdingsleep i
  let x ← inode i
  if held = false ∨ x.ref < 1 then panic .iunlock
  else releasesleep i

def iupdate (i : Slot) : Prog Unit := do
  let x ← inode i
  setDinode x.inum x.copy

/-- An assignment to fields of the cached inode, and the `iupdate` behind it. -/
def revise (i : Slot) (f : Dinode → Dinode) : Prog Unit := do
  let x ← inode i
  setCopy i (f x.copy)
  iupdate i

def itrunc (i : Slot) : Prog Unit := do
  let x ← inode i
  freeData x.inum
  revise i (fun d => { d with size := 0 })

/-- The part of `iput` that truncates and frees an inode without links. -/
def reclaim (i : Slot) : Prog Unit := do
  let x ← inode i
  if x.valid = true ∧ x.copy.nlink = 0 then
    let y ← inode i
    if y.ref = 1 then
      itrunc i
      revise i (fun d => { d with type := 0 })
      setValid i false
    else pure ()
  else pure ()

def iput (i : Slot) : Prog Unit := do
  acquiresleep i
  reclaim i
  releasesleep i
  unref i

def iunlockput (i : Slot) : Prog Unit := do
  iunlock i
  iput i

/-- The loop of `ialloc`, with the number of inodes left to look at. An inode is
tested and taken under the lock of its block. -/
def iallocFrom (type : ℕ) : ℕ → ℕ → Prog Slot
  | 0, _ => panic .ialloc
  | k+1, inum => do
    if ← allocDinode inum type then iget inum
    else iallocFrom type k (inum+1)

def ialloc (type : ℕ) : Prog Slot := do
  let n ← ninodes
  iallocFrom type (n-1) 1

/-- The entries of `devsw` that are set: both functions of the console. -/
def hasDev (major : BitVec 16) : Prop := 0 ≤ major.toInt ∧ major.toInt < NDEV ∧ major.toInt = CONSOLE

instance (major : BitVec 16) : Decidable (hasDev major) := inferInstanceAs (Decidable (_ ∧ _ ∧ _))

/-- The bytes come from the keyboard; there are none if the process is killed. -/
def consoleread (i : Slot) (n : ℕ) : Prog (Option (List Byte)) := do
  iunlock i
  let r ← input n
  ilock i
  pure r

def consolewrite (i : Slot) (bytes : List Byte) : Prog (Option ℕ) := do
  iunlock i
  ilock i
  pure (some bytes.length)

/-- The result is `none` where the function returns -1. -/
def readi (i : Slot) (off n : ℕ) : Prog (Option (List Byte)) := do
  let x ← inode i
  if x.copy.type = T_DEV then
    if hasDev x.copy.major then consoleread i n else pure none
  else if x.copy.size < off ∨ WORD ≤ off+n then pure none
  else
    let n := if x.copy.size < off+n then x.copy.size-off else n
    if 0 < n ∧ MAXFILE*BSIZE < off+n then panic .bmap
    else
      let bytes ← readData x.inum off n
      pure (some bytes)

def extend (i : Slot) (n stop size : ℕ) : Prog Unit :=
  if 0 < n ∧ size < stop then do
    revise i (fun d => { d with size := stop })
  else pure ()

def writei (i : Slot) (off : ℕ) (bytes : List Byte) : Prog (Option ℕ) := do
  let x ← inode i
  let n := bytes.length
  if x.copy.type = T_DEV then
    if hasDev x.copy.major then consolewrite i bytes else pure none
  else if x.copy.size < off ∨ WORD ≤ off+n then pure none
  else if MAXFILE*BSIZE < off+n then pure none
  else
    writeData x.inum off bytes
    extend i n (off+n) x.copy.size
    pure (some n)

abbrev Name := List Byte
abbrev Path := List Byte

/-- Behind the end of a list there is the byte 0. -/
def strncmp : ℕ → List Byte → List Byte → ℤ
  | 0, _, _ => 0
  | n+1, p, q =>
    if p.headD 0 ≠ 0 ∧ p.headD 0 = q.headD 0 then strncmp n p.tail q.tail
    else (p.headD 0).toNat-(q.headD 0).toNat

def strncpy : ℕ → List Byte → List Byte
  | 0, _ => []
  | n+1, t => if t.headD 0 = 0 then List.replicate (n+1) 0 else t.headD 0 :: strncpy n t.tail

def namecmp (s t : Name) : ℤ := strncmp DIRSIZ s t

structure Dirent where
  inum : ℕ
  name : Name
  deriving DecidableEq

def Dirent.decode (bytes : List Byte) : Dirent :=
  ⟨(bytes.getD 0 0).toNat+256*(bytes.getD 1 0).toNat,bytes.drop 2⟩

/-- The inode number is cut to a `ushort`. -/
def Dirent.encode (de : Dirent) : List Byte :=
  UInt8.ofNat de.inum :: UInt8.ofNat (de.inum/256) :: de.name

/-- The entry at an offset; every loop over a directory reads it so. -/
def readDirent (i : Slot) (off : ℕ) (msg : Panic) : Prog Dirent := do
  match ← readi i off DIRENT with
  | some bytes => if bytes.length ≠ DIRENT then panic msg else pure (.decode bytes)
  | none => panic msg

/-- The loop of `dirlookup`, with the number of entries left. -/
def dirlookupFrom (dp : Slot) (name : Name) : ℕ → ℕ → Prog (Option (Slot × ℕ))
  | 0, _ => pure none
  | k+1, off => do
    let x ← inode dp
    if off < x.copy.size then
      let de ← readDirent dp off .dirlookupRead
      if de.inum = 0 then dirlookupFrom dp name k (off+DIRENT)
      else if namecmp name de.name = 0 then
        let ip ← iget de.inum
        pure (some (ip,off))
      else dirlookupFrom dp name k (off+DIRENT)
    else pure none

def dirlookup (dp : Slot) (name : Name) : Prog (Option (Slot × ℕ)) := do
  let x ← inode dp
  if x.copy.type ≠ T_DIR then panic .dirlookupNotDir
  else dirlookupFrom dp name (x.copy.size/DIRENT+1) 0

/-- The second loop of `dirlink`: the offset of an entry not in use, or the end. -/
def emptyFrom (dp : Slot) : ℕ → ℕ → Prog ℕ
  | 0, off => pure off
  | k+1, off => do
    let x ← inode dp
    if off < x.copy.size then
      let de ← readDirent dp off .dirlinkRead
      if de.inum = 0 then pure off else emptyFrom dp k (off+DIRENT)
    else pure off

/-- The result is `false` where the function returns -1. -/
def dirlink (dp : Slot) (name : Name) (inum : ℕ) : Prog Bool := do
  match ← dirlookup dp name with
  | some (ip,_) =>
    iput ip
    pure false
  | none =>
    let x ← inode dp
    let off ← emptyFrom dp (x.copy.size/DIRENT+1) 0
    match ← writei dp off (Dirent.encode ⟨inum,strncpy DIRSIZ name⟩) with
    | some n => if n ≠ DIRENT then panic .dirlink else pure true
    | none => panic .dirlink

def slash : Byte := 47

/-- The next element, cut to what fits into `name`, and the path behind it. -/
def skipelem (path : Path) : Option (Name × Path) :=
  let path := path.dropWhile (· == slash)
  if path = [] then none
  else some ((path.takeWhile (· != slash)).take DIRSIZ,
    (path.dropWhile (· != slash)).dropWhile (· == slash))

/-- The loop of `namex`, with a bound on the elements left. -/
def namexFrom (nameiparent : Bool) : ℕ → Slot → Path → Prog (Option (Slot × Name))
  | 0, _, _ => pure none
  | k+1, ip, path =>
    match skipelem path with
    | none =>
      if nameiparent = true then do
        iput ip
        pure none
      else pure (some (ip,[]))
    | some (name,path) => do
      ilock ip
      let x ← inode ip
      if x.copy.type ≠ T_DIR then
        iunlockput ip
        pure none
      else if nameiparent = true ∧ path = [] then
        iunlock ip
        pure (some (ip,name))
      else
        match ← dirlookup ip name with
        | none =>
          iunlockput ip
          pure none
        | some (next,_) =>
          iunlockput ip
          namexFrom nameiparent k next path

def namex (path : Path) (nameiparent : Bool) : Prog (Option (Slot × Name)) :=
  if path.headD 0 = slash then do
    let ip ← iget ROOTINO
    namexFrom nameiparent (path.length+1) ip path
  else do
    let ip ← cwd
    idup ip
    namexFrom nameiparent (path.length+1) ip path

def namei (path : Path) : Prog (Option Slot) := do
  let r ← namex path false
  pure (r.map Prod.fst)

def nameiparent (path : Path) : Prog (Option (Slot × Name)) := namex path true

end Xv6.InodeCode

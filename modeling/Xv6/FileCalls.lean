import Xv6.InodeCode

/-!
# The system calls on files

The functions of file.c and sysfile.c and the parts of `exec` and `exit` that use
inodes, as programs of the process that makes the call, and the handler that
carries out their commands when no other process runs. A system call gets its
arguments as `argint`, `argstr` and `argptr` return them, `none` where they fail.
Whether an allocation of memory succeeds, what is typed and what is in a pipe
comes from outside.
-/

set_option autoImplicit false

namespace Xv6.FileCalls
open CommandTree InodeCode
open Function

def pipeclose (pi : ℕ) (writable : Bool) : Prog Unit := do
  let last ← shut pi writable
  if last = true then kfree pi else pure ()

def fileclose (f : FileId) : Prog Unit := do
  let last ← fileunref f
  match last with
  | some ff =>
    if ff.type = .pipe then pipeclose ff.pipe ff.writable
    else if ff.type = .inode then
      beginOp
      iput ff.ip
      endOp
    else pure ()
  | none => pure ()

/-- The result is `none` where the function returns -1. -/
def fileread (f : FileId) (n : ℕ) : Prog (Option (List Byte)) := do
  let x ← file f
  if x.readable = false then pure none
  else match x.type with
    | .pipe => input n
    | .inode =>
      ilock x.ip
      match ← readi x.ip x.off n with
      | some bytes =>
        advance f bytes.length
        iunlock x.ip
        pure (some bytes)
      | none =>
        iunlock x.ip
        pure none
    | .none => panic .fileread

abbrev CHUNK : ℕ := 1536

/-- The loop of `filewrite`, with a bound on the rounds left. -/
def filewriteFrom (f : FileId) (ip : Slot) : ℕ → List Byte → Prog Bool
  | 0, _ => pure true
  | k+1, bytes =>
    if bytes = [] then pure true
    else do
      beginOp
      ilock ip
      let x ← file f
      match ← writei ip x.off (bytes.take CHUNK) with
      | some r =>
        advance f r
        iunlock ip
        endOp
        if r ≠ (bytes.take CHUNK).length then panic .shortFilewrite
        else filewriteFrom f ip k (bytes.drop CHUNK)
      | none =>
        iunlock ip
        endOp
        pure false

def filewrite (f : FileId) (bytes : List Byte) : Prog Bool := do
  let x ← file f
  if x.writable = false then pure false
  else match x.type with
    | .pipe =>
      let r ← input bytes.length
      pure r.isSome
    | .inode => filewriteFrom f x.ip (bytes.length+1) bytes
    | .none => panic .filewrite

def argfd (fd : ℤ) : Prog (Option (Fd × FileId)) :=
  if h : 0 ≤ fd ∧ fd < NOFILE then do
    let fd : Fd := ⟨fd.toNat,by omega⟩
    match ← ofile fd with
    | some f => pure (some (fd,f))
    | none => pure none
  else pure none

/-- The loop of `fdalloc`, over the descriptors left. -/
def fdallocFrom (f : FileId) : List Fd → Prog (Option Fd)
  | [] => pure none
  | fd::rest => do
    match ← ofile fd with
    | none =>
      setOfile fd (some f)
      pure (some fd)
    | some _ => fdallocFrom f rest

def fdalloc (f : FileId) : Prog (Option Fd) := fdallocFrom f (List.finRange NOFILE)

def sysRead (fd : ℤ) (n : Option ℕ) : Prog ℤ := do
  match ← argfd fd, n with
  | some (_,f), some n =>
    match ← fileread f n with
    | some bytes => pure bytes.length
    | none => pure (-1)
  | _, _ => pure (-1)

def sysWrite (fd : ℤ) (bytes : Option (List Byte)) : Prog ℤ := do
  match ← argfd fd, bytes with
  | some (_,f), some bytes =>
    if ← filewrite f bytes then pure bytes.length else pure (-1)
  | _, _ => pure (-1)

def sysClose (fd : ℤ) : Prog ℤ := do
  match ← argfd fd with
  | some (fd,f) =>
    setOfile fd none
    fileclose f
    pure 0
  | none => pure (-1)

/-- The end of `sys_link` from its label `bad` on. -/
def linkBad (ip : Slot) : Prog ℤ := do
  ilock ip
  revise ip (fun d => { d with nlink := d.nlink-1 })
  iunlockput ip
  endOp
  pure (-1)

/-- The part of `sys_link` behind `namei(old)`. -/
def linkTo (ip : Slot) (new : Path) : Prog ℤ := do
  ilock ip
  let x ← inode ip
  if x.copy.type = T_DIR then
    iunlockput ip
    endOp
    pure (-1)
  else
    revise ip (fun d => { d with nlink := d.nlink+1 })
    iunlock ip
    match ← nameiparent new with
    | none => linkBad ip
    | some (dp,name) =>
      ilock dp
      if ← dirlink dp name x.inum then
        iunlockput dp
        iput ip
        endOp
        pure 0
      else
        iunlockput dp
        linkBad ip

def sysLink (old new : Option Path) : Prog ℤ :=
  match old, new with
  | some old, some new => do
    beginOp
    match ← namei old with
    | none =>
      endOp
      pure (-1)
    | some ip => linkTo ip new
  | _, _ => pure (-1)

/-- The loop of `isdirempty`, with the number of entries left. -/
def isdiremptyFrom (dp : Slot) : ℕ → ℕ → Prog Bool
  | 0, _ => pure true
  | k+1, off => do
    let x ← inode dp
    if off < x.copy.size then
      let de ← readDirent dp off .isdiremptyReadi
      if de.inum ≠ 0 then pure false else isdiremptyFrom dp k (off+DIRENT)
    else pure true

def isdirempty (dp : Slot) : Prog Bool := do
  let x ← inode dp
  isdiremptyFrom dp (x.copy.size/DIRENT+1) (2*DIRENT)

def dot : Name := [46]
def dotdot : Name := [46, 46]

/-- The end of `sys_unlink` from its label `bad` on. -/
def unlinkBad (dp : Slot) : Prog ℤ := do
  iunlockput dp
  endOp
  pure (-1)

/-- The part of `sys_unlink` that takes the entry at `off` away. -/
def unlinkEntry (dp ip : Slot) (off : ℕ) : Prog ℤ := do
  match ← writei dp off (List.replicate DIRENT 0) with
  | some n =>
    if n ≠ DIRENT then panic .unlinkWritei
    else
      let x ← inode ip
      let parent : Prog Unit := if x.copy.type = T_DIR then do
          revise dp (fun d => { d with nlink := d.nlink-1 })
        else pure ()
      parent
      iunlockput dp
      revise ip (fun d => { d with nlink := d.nlink-1 })
      iunlockput ip
      endOp
      pure 0
  | none => panic .unlinkWritei

/-- The part of `sys_unlink` behind the `dirlookup` that found `ip`. -/
def unlinkFound (dp ip : Slot) (off : ℕ) : Prog ℤ := do
  ilock ip
  let x ← inode ip
  if x.copy.nlink.toInt < 1 then panic .unlinkNlink
  else if x.copy.type = T_DIR then
    if ← isdirempty ip then unlinkEntry dp ip off
    else
      iunlockput ip
      unlinkBad dp
  else unlinkEntry dp ip off

def sysUnlink (path : Option Path) : Prog ℤ :=
  match path with
  | none => pure (-1)
  | some path => do
    beginOp
    match ← nameiparent path with
    | none =>
      endOp
      pure (-1)
    | some (dp,name) =>
      ilock dp
      if namecmp name dot = 0 ∨ namecmp name dotdot = 0 then unlinkBad dp
      else
        match ← dirlookup dp name with
        | none => unlinkBad dp
        | some (ip,off) => unlinkFound dp ip off

/-- The part of `create` that fills in a new directory `ip`. -/
def createDots (dp ip : Slot) : Prog Unit := do
  revise dp (fun d => { d with nlink := d.nlink+1 })
  let x ← inode ip
  let y ← inode dp
  if ← dirlink ip dot x.inum then
    if ← dirlink ip dotdot y.inum then pure () else panic .createDots
  else panic .createDots

/-- The part of `create` for a name that is not there. -/
def createNew (dp : Slot) (name : Name) (type : ℕ) (major minor : BitVec 16) : Prog (Option Slot) := do
  let ip ← ialloc type
  ilock ip
  revise ip (fun d => { d with major := major, minor := minor, nlink := 1 })
  let dots : Prog Unit := if type = T_DIR then createDots dp ip else pure ()
  dots
  let x ← inode ip
  if ← dirlink dp name x.inum then
    iunlockput dp
    pure (some ip)
  else panic .createDirlink

def create (path : Path) (type : ℕ) (major minor : BitVec 16) : Prog (Option Slot) := do
  match ← nameiparent path with
  | none => pure none
  | some (dp,name) =>
    ilock dp
    match ← dirlookup dp name with
    | some (ip,_) =>
      iunlockput dp
      ilock ip
      let x ← inode ip
      if type = T_FILE ∧ x.copy.type = T_FILE then pure (some ip)
      else
        iunlockput ip
        pure none
    | none => createNew dp name type major minor

abbrev O_RDONLY : BitVec 32 := 0x000
abbrev O_WRONLY : BitVec 32 := 0x001
abbrev O_RDWR : BitVec 32 := 0x002
abbrev O_CREATE : BitVec 32 := 0x200

/-- The part of `sys_open` that finds the inode and locks it. -/
def openInode (path : Path) (omode : BitVec 32) : Prog (Option Slot) :=
  if omode &&& O_CREATE ≠ 0 then create path T_FILE 0 0
  else do
    match ← namei path with
    | none => pure none
    | some ip =>
      ilock ip
      let x ← inode ip
      if x.copy.type = T_DIR ∧ omode ≠ O_RDONLY then
        iunlockput ip
        pure none
      else pure (some ip)

/-- The part of `sys_open` with no file or no descriptor left. -/
def openBad (ip : Slot) : Prog ℤ := do
  iunlockput ip
  endOp
  pure (-1)

def sysOpen (path : Option Path) (omode : BitVec 32) : Prog ℤ :=
  match path with
  | none => pure (-1)
  | some path => do
    beginOp
    match ← openInode path omode with
    | none =>
      endOp
      pure (-1)
    | some ip =>
      match ← filealloc with
      | none => openBad ip
      | some f =>
        match ← fdalloc f with
        | none =>
          fileclose f
          openBad ip
        | some fd =>
          iunlock ip
          endOp
          let x ← file f
          setFile f { x with
            type := .inode
            ip := ip
            off := 0
            readable := omode &&& O_WRONLY = 0
            writable := omode &&& O_WRONLY ≠ 0 ∨ omode &&& O_RDWR ≠ 0 }
          pure fd.val

/-- The end of `sys_mkdir` and `sys_mknod`. -/
def made : Option Slot → Prog ℤ
  | none => do
    endOp
    pure (-1)
  | some ip => do
    iunlockput ip
    endOp
    pure 0

def sysMkdir (path : Option Path) : Prog ℤ := do
  beginOp
  match path with
  | none => made none
  | some path =>
    let r ← create path T_DIR 0 0
    made r

def sysMknod (path : Option Path) (major minor : BitVec 32) : Prog ℤ := do
  beginOp
  match path with
  | none => made none
  | some path =>
    let r ← create path T_DEV (major.setWidth 16) (minor.setWidth 16)
    made r

def sysChdir (path : Option Path) : Prog ℤ := do
  beginOp
  match path with
  | none =>
    endOp
    pure (-1)
  | some path =>
    match ← namei path with
    | none =>
      endOp
      pure (-1)
    | some ip =>
      ilock ip
      let x ← inode ip
      if x.copy.type ≠ T_DIR then
        iunlockput ip
        endOp
        pure (-1)
      else
        iunlock ip
        let old ← cwd
        iput old
        endOp
        setCwd (some ip)
        pure 0

abbrev PGSIZE : ℕ := 4096

def word (bytes : List Byte) (off : ℕ) : ℕ :=
  (bytes.getD off 0).toNat+256*(bytes.getD (off+1) 0).toNat+
    65536*(bytes.getD (off+2) 0).toNat+16777216*(bytes.getD (off+3) 0).toNat

def half (bytes : List Byte) (off : ℕ) : ℕ :=
  (bytes.getD off 0).toNat+256*(bytes.getD (off+1) 0).toNat

abbrev ELF_MAGIC : ℕ := 0x464C457F
abbrev ELFHDR : ℕ := 52
abbrev PROGHDR : ℕ := 32
abbrev ELF_PROG_LOAD : ℕ := 1

/-- The loop of `loaduvm`, with the number of pages left. -/
def loaduvmFrom (ip : Slot) (offset sz : ℕ) : ℕ → ℕ → Prog Bool
  | 0, _ => pure true
  | k+1, i =>
    if i < sz then do
      let n := if sz-i < PGSIZE then sz-i else PGSIZE
      match ← readi ip ((offset+i) % WORD) n with
      | some bytes => if bytes.length ≠ n then pure false else loaduvmFrom ip offset sz k (i+PGSIZE)
      | none => pure false
    else pure true

def loaduvm (ip : Slot) (offset sz : ℕ) : Prog Bool :=
  loaduvmFrom ip offset sz (sz/PGSIZE+1) 0

/-- The loop of `exec` over the program headers. The result is `false` where it
goes to `bad`. -/
def loadFrom (ip : Slot) : ℕ → ℕ → Prog Bool
  | 0, _ => pure true
  | k+1, off => do
    match ← readi ip off PROGHDR with
    | none => pure false
    | some ph =>
      if ph.length ≠ PROGHDR then pure false
      else if word ph 0 ≠ ELF_PROG_LOAD then loadFrom ip k ((off+PROGHDR) % WORD)
      else if word ph 20 < word ph 16 then pure false
      else if WORD ≤ word ph 8+word ph 20 then pure false
      else if ← memory then
        if word ph 8 % PGSIZE ≠ 0 then pure false
        else if ← loaduvm ip (word ph 4) (word ph 16) then
          loadFrom ip k ((off+PROGHDR) % WORD)
        else pure false
      else pure false

def loadImage (ip : Slot) : Prog Bool := do
  match ← readi ip 0 ELFHDR with
  | none => pure false
  | some elf =>
    if elf.length ≠ ELFHDR then pure false
    else if word elf 0 ≠ ELF_MAGIC then pure false
    else if ← memory then loadFrom ip (half elf 44) (word elf 28)
    else pure false

/-- Behind the loop it is the memory for the stack that may run out. -/
def sysExec (path : Option Path) : Prog ℤ :=
  match path with
  | none => pure (-1)
  | some path => do
    beginOp
    match ← namei path with
    | none =>
      endOp
      pure (-1)
    | some ip =>
      ilock ip
      if ← loadImage ip then
        iunlockput ip
        endOp
        if ← memory then pure 0 else pure (-1)
      else
        iunlockput ip
        endOp
        pure (-1)

/-- The loop of `exit` over the descriptors. -/
def closeAll : List Fd → Prog Unit
  | [] => pure ()
  | fd::rest => do
    match ← ofile fd with
    | some f =>
      fileclose f
      setOfile fd none
      closeAll rest
    | none => closeAll rest

/-- The part of `exit` before `acquire(&ptable.lock)`. -/
def exit : Prog ℤ := do
  let init ← isInit
  if init = true then panic .initExiting
  else
    closeAll (List.finRange NOFILE)
    beginOp
    let c ← cwd
    iput c
    endOp
    setCwd none
    pure 0

inductive Call where
  | open (path : Option Path) (omode : BitVec 32)
  | link (old new : Option Path)
  | unlink (path : Option Path)
  | mkdir (path : Option Path)
  | mknod (path : Option Path) (major minor : BitVec 32)
  | chdir (path : Option Path)
  | read (fd : ℤ) (n : Option ℕ)
  | write (fd : ℤ) (bytes : Option (List Byte))
  | close (fd : ℤ)
  | exec (path : Option Path)
  | exit
  deriving DecidableEq

def Call.prog : Call → Prog ℤ
  | .open path omode => sysOpen path omode
  | .link old new => sysLink old new
  | .unlink path => sysUnlink path
  | .mkdir path => sysMkdir path
  | .mknod path major minor => sysMknod path major minor
  | .chdir path => sysChdir path
  | .read fd n => sysRead fd n
  | .write fd bytes => sysWrite fd bytes
  | .close fd => sysClose fd
  | .exec path => sysExec path
  | .exit => FileCalls.exit

/-- The process with its descriptors and current directory, the caches and the
disk, and what is to come from outside. -/
structure Fs where
  pid : ℕ
  init : Bool
  ninodes : ℕ
  disk : ℕ → Dinode
  data : ℕ → ℕ → Byte
  blocks : Blocks
  inode : Slot → Inode
  file : FileId → File
  pipe : ℕ → Pipe
  ofile : Fd → Option FileId
  cwd : Option Slot
  input : ℕ → Option (List Byte)
  memory : ℕ → Bool

/-- Why a call does not return: a panic, a sleep lock that is taken, here by the
process `holder`, or the current directory of a process that has none. -/
inductive Stop where
  | panic (msg : Panic)
  | sleeps (i : Slot) (holder : ℕ)
  | noCwd
  deriving DecidableEq

def Fs.set (s : Fs) (i : Slot) (x : Inode) : Fs := { s with inode := update s.inode i x }

def Fs.setDisk (s : Fs) (inum : ℕ) (d : Dinode) : Fs :=
  { s with disk := update s.disk inum d }

def Fs.setData (s : Fs) (inum : ℕ) (bytes : ℕ → Byte) : Fs :=
  { s with data := update s.data inum bytes }

def Fs.setBlocks (s : Fs) (B : Blocks) : Fs := { s with blocks := B }

def Fs.allocate (s : Fs) (inum type : ℕ) : Fs :=
  ((s.setDisk inum { Dinode.zero with type := type }).setData inum (fun _ => 0)).setBlocks
    (s.blocks.clear inum)

def Fs.setFile (s : Fs) (f : FileId) (x : File) : Fs :=
  { s with file := update s.file f x }

/-- The first loop of `iget`, and the empty slot it remembers. -/
def Fs.cached (s : Fs) (inum : ℕ) : Option Slot :=
  (List.finRange NINODE).find? (fun i => 0 < (s.inode i).ref ∧ (s.inode i).inum = inum)

def Fs.empty (s : Fs) : Option Slot :=
  (List.finRange NINODE).find? (fun i => (s.inode i).ref = 0)

def Fs.unused (s : Fs) : Option FileId :=
  (List.finRange NFILE).find? (fun f => (s.file f).ref = 0)

def Fs.iget (s : Fs) (inum : ℕ) : Except Stop (Slot × Fs) :=
  match s.cached inum with
  | some i => .ok (i,s.set i { s.inode i with ref := (s.inode i).ref+1 })
  | none => match s.empty with
    | some i => .ok (i,s.set i { s.inode i with inum := inum, ref := 1, valid := false })
    | none => .error (.panic .iget)

/-- The part of `fileclose` under `ftable.lock`. -/
def Fs.fileunref (s : Fs) (f : FileId) : Except Stop (Option File × Fs) :=
  if (s.file f).ref < 1 then .error (.panic .fileclose)
  else if 0 < (s.file f).ref-1 then
    .ok (none,s.setFile f { s.file f with ref := (s.file f).ref-1 })
  else .ok (some (s.file f),s.setFile f { s.file f with ref := 0, type := .none })

def Fs.setPipe (s : Fs) (pi : ℕ) (x : Pipe) : Fs :=
  { s with pipe := update s.pipe pi x }

def splice (bytes : ℕ → Byte) (off : ℕ) (new : List Byte) (k : ℕ) : Byte :=
  if off ≤ k ∧ k < off+new.length then new.getD (k-off) 0 else bytes k

def alone : Handler Cmd Reply Fs Stop
  | .beginOp, s | .endOp, s => .ok ((),s)
  | .iget inum, s => s.iget inum
  | .idup i, s => .ok ((),s.set i { s.inode i with ref := (s.inode i).ref+1 })
  | .unref i, s => .ok ((),s.set i { s.inode i with ref := (s.inode i).ref-1 })
  | .acquiresleep i, s => match (s.inode i).lock with
    | some q => .error (.sleeps i q)
    | none => .ok ((),s.set i { s.inode i with lock := some s.pid })
  | .releasesleep i, s => .ok ((),s.set i { s.inode i with lock := none })
  | .holdingsleep i, s => .ok (decide ((s.inode i).lock = some s.pid),s)
  | .inode i, s => .ok (s.inode i,s)
  | .setCopy i d, s => .ok ((),s.set i { s.inode i with copy := d })
  | .setValid i v, s => .ok ((),s.set i { s.inode i with valid := v })
  | .ninodes, s => .ok (s.ninodes,s)
  | .dinode inum, s => .ok (s.disk inum,s)
  | .setDinode inum d, s => .ok ((),s.setDisk inum d)
  | .allocDinode inum type, s => if (s.disk inum).type = 0 then
      .ok (true,s.allocate inum type)
    else .ok (false,s)
  | .readData inum off n, s => match s.blocks.cover inum off n with
    | some B => .ok ((List.range n).map (fun k => s.data inum (off+k)),s.setBlocks B)
    | none => .error (.panic .balloc)
  | .writeData inum off bytes, s => match s.blocks.cover inum off bytes.length with
    | some B => .ok ((),(s.setData inum (splice (s.data inum) off bytes)).setBlocks B)
    | none => .error (.panic .balloc)
  | .freeData inum, s => match s.blocks.itrunc inum with
    | some B => .ok ((),(s.setData inum (fun _ => 0)).setBlocks B)
    | none => .error (.panic .bfree)
  | .filealloc, s => match s.unused with
    | some f => .ok (some f,s.setFile f { s.file f with ref := 1 })
    | none => .ok (none,s)
  | .fileunref f, s => s.fileunref f
  | .file f, s => .ok (s.file f,s)
  | .setFile f x, s => .ok ((),s.setFile f x)
  | .advance f n, s => .ok ((),s.setFile f { s.file f with off := (s.file f).off+n })
  | .shut pi writable, s =>
    let x := (s.pipe pi).shut writable
    .ok (!x.readopen && !x.writeopen,s.setPipe pi x)
  | .kfree pi, s => .ok ((),s.setPipe pi { s.pipe pi with used := false })
  | .ofile fd, s => .ok (s.ofile fd,s)
  | .setOfile fd o, s => .ok ((),{ s with ofile := update s.ofile fd o })
  | .cwd, s => match s.cwd with
    | some c => .ok (c,s)
    | none => .error .noCwd
  | .setCwd c, s => .ok ((),{ s with cwd := c })
  | .isInit, s => .ok (s.init,s)
  | .input n, s => .ok ((s.input 0).map (List.take n),{ s with input := fun k => s.input (k+1) })
  | .memory, s => .ok (s.memory 0,{ s with memory := fun k => s.memory (k+1) })
  | .panic msg, _ => .error (.panic msg)

/-- A system call by the process alone: its result and the state behind it, or
why it does not return. -/
def Fs.call (s : Fs) (c : Call) : Except Stop (ℤ × Fs) := run alone c.prog s

end Xv6.FileCalls

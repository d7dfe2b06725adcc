import Xv6.CommandTree
import Xv6.ByteFields
import Mathlib.Data.Nat.Bitwise
import Mathlib.Data.Fintype.Basic

/-!
# Virtual memory and processes

The code of `kalloc.c`, `vm.c` and `exec.c`, and of `growproc`. Physical memory is pages of
words, by the kernel's addresses for them; page directories, page tables and the free list
are words of it. Of the file system there is what `exec` calls: the operations that are
begun, the references and locks of the inodes, and what `readi` reads.
-/

set_option autoImplicit false

namespace Xv6.VmCode
open CommandTree ByteFields
open Function

abbrev WORD : ℕ := 4294967296
abbrev PGSIZE : ℕ := 4096
abbrev KERNBASE : ℕ := 2147483648
abbrev EXTMEM : ℕ := 1048576
abbrev PHYSTOP : ℕ := 234881024
abbrev DEVSPACE : ℕ := 4261412864
abbrev KERNLINK : ℕ := KERNBASE+EXTMEM
abbrev NPDENTRIES : ℕ := 1024
abbrev MAXARG : ℕ := 32
abbrev ELF_MAGIC : ℕ := 1179403647
abbrev ELF_PROG_LOAD : ℕ := 1
abbrev PTE_P : ℕ := 1
abbrev PTE_W : ℕ := 2
abbrev PTE_U : ℕ := 4

abbrev Index := Fin NPDENTRIES
abbrev Words := Index → ℕ

/-- The bytes of a page, the low byte of a word first. -/
def toBytes (f : Words) : Block := fun k => byte (f ⟨k/4%NPDENTRIES,Nat.mod_lt _ (by decide)⟩) (k%4)

def ofBytes (b : Block) : Words := fun i => field 4 b (4*i.val)

def PDX (va : ℕ) : Index := ⟨va/4194304%NPDENTRIES,Nat.mod_lt _ (by decide)⟩
def PTX (va : ℕ) : Index := ⟨va/PGSIZE%NPDENTRIES,Nat.mod_lt _ (by decide)⟩
def PGADDR (d t o : ℕ) : ℕ := (d*4194304+t*PGSIZE+o)%WORD
def PGROUNDUP (sz : ℕ) : ℕ := (sz+PGSIZE-1)%WORD/PGSIZE*PGSIZE
def PGROUNDDOWN (a : ℕ) : ℕ := a/PGSIZE*PGSIZE
def PTE_ADDR (x : ℕ) : ℕ := x/PGSIZE*PGSIZE
def PTE_FLAGS (x : ℕ) : ℕ := x%PGSIZE
def V2P (a : ℕ) : ℕ := (a+WORD-KERNBASE)%WORD
def P2V (a : ℕ) : ℕ := (a+KERNBASE)%WORD

def has (x flag : ℕ) : Bool := x &&& flag != 0

def clearU (x : ℕ) : ℕ := x-(x &&& PTE_U)

/-- Where the linker puts the kernel: the symbols `data` and `end`. The entry page directory
maps 4 MB. -/
structure Layout where
  data : ℕ
  stop : ℕ
  data_page : data%PGSIZE = 0
  data_low : KERNLINK < data
  data_stop : data ≤ stop
  stop_high : stop ≤ KERNBASE+4194304

/-- A page that `kinit1` and `kinit2` give to the allocator. -/
def Page (lay : Layout) (v : ℕ) : Prop := v%PGSIZE = 0 ∧ lay.stop ≤ v ∧ v < KERNBASE+PHYSTOP

structure Kmap where
  virt : ℕ
  physStart : ℕ
  physEnd : ℕ
  perm : ℕ

def kmap (lay : Layout) : List Kmap :=
  [⟨KERNBASE,0,EXTMEM,PTE_W⟩,
   ⟨KERNLINK,V2P KERNLINK,V2P lay.data,0⟩,
   ⟨lay.data,V2P lay.data,PHYSTOP,PTE_W⟩,
   ⟨DEVSPACE,DEVSPACE,0,PTE_W⟩]

def Kmap.size (k : Kmap) : ℕ := (k.physEnd+WORD-k.physStart)%WORD

/-- The panics, and a null pointer where address 0 is not mapped. -/
inductive Panic where
  | kfree
  | remap
  | phystop
  | loaduvmAligned
  | loaduvmExist
  | freevm
  | clearpteu
  | copyuvmExist
  | copyuvmPresent
  | null
  | switchuvm
  | ilock
  | iunlock
  deriving DecidableEq

inductive Mem where
  | kalloc
  | kfree (v : ℕ)
  | word (v : ℕ) (i : Index)
  | null
  | setWord (v : ℕ) (i : Index) (x : ℕ)
  | clear (v : ℕ)
  | copy (dst src : ℕ)
  | patch (v o : ℕ) (xs : List UInt8)
  | panic (msg : Panic)

def Mem.Reply : Mem → Type
  | .kalloc | .word _ _ | .null => ℕ
  | .panic _ => Empty
  | _ => Unit

abbrev MemProg (α : Type) := Program Mem Mem.Reply α

def memory (c : Mem) : MemProg (Mem.Reply c) := perform c

def kalloc : MemProg ℕ := memory .kalloc
def kfree (v : ℕ) : MemProg Unit := memory (.kfree v)

def word (v : ℕ) (i : Index) : MemProg ℕ := memory (.word v i)

/-- The word at address 0, by the page table that is loaded. -/
def null : MemProg ℕ := memory .null
def setWord (v : ℕ) (i : Index) (x : ℕ) : MemProg Unit := memory (.setWord v i x)

def clear (v : ℕ) : MemProg Unit := memory (.clear v)

def copy (dst src : ℕ) : MemProg Unit := memory (.copy dst src)

/-- The call `memmove(v+o, xs, n)` for the `n` bytes of a list that end in the page. -/
def patch (v o : ℕ) (xs : List UInt8) : MemProg Unit := memory (.patch v o xs)
def panic {α : Type} (msg : Panic) : MemProg α := .call (.panic msg) (fun e => nomatch (e : Empty))

/-- The loop of `freerange`, with a bound on the rounds left. -/
def freeFrom (vend : ℕ) : ℕ → ℕ → MemProg Unit
  | 0, _ => pure ()
  | k+1, p =>
    if (p+PGSIZE)%WORD ≤ vend then do
      kfree p
      freeFrom vend k ((p+PGSIZE)%WORD)
    else pure ()

def freerange (vstart vend : ℕ) : MemProg Unit := freeFrom vend (vend/PGSIZE) (PGROUNDUP vstart)
def kinit1 (vstart vend : ℕ) : MemProg Unit := freerange vstart vend
def kinit2 (vstart vend : ℕ) : MemProg Unit := freerange vstart vend

/-- The result is the page table and the index of the entry. -/
def walkpgdir (pgdir va : ℕ) (alloc : Bool) : MemProg (Option (ℕ × Index)) := do
  let pde ← word pgdir (PDX va)
  if has pde PTE_P = true then pure (some (P2V (PTE_ADDR pde),PTX va))
  else if alloc = false then pure none
  else
    let pgtab ← kalloc
    if pgtab = 0 then pure none
    else
      clear pgtab
      setWord pgdir (PDX va) (V2P pgtab ||| PTE_P ||| PTE_W ||| PTE_U)
      pure (some (pgtab,PTX va))

/-- The loop of `mappages`, with a bound on the rounds left. The result is whether it
returns 0. -/
def mapFrom (pgdir last perm : ℕ) : ℕ → ℕ → ℕ → MemProg Bool
  | 0, _, _ => pure false
  | k+1, a, pa => do
    match ← walkpgdir pgdir a true with
    | none => pure false
    | some (pgtab,i) =>
      let pte ← word pgtab i
      if has pte PTE_P = true then panic .remap
      else
        setWord pgtab i (pa ||| perm ||| PTE_P)
        if a = last then pure true
        else mapFrom pgdir last perm k ((a+PGSIZE)%WORD) ((pa+PGSIZE)%WORD)

def mappages (pgdir va size pa perm : ℕ) : MemProg Bool :=
  let a := PGROUNDDOWN va
  let last := PGROUNDDOWN ((va+size+WORD-1)%WORD)
  mapFrom pgdir last perm ((last+WORD-a)%WORD/PGSIZE+1) a pa

/-- The loop of `deallocuvm`, with a bound on the rounds left. -/
def deallocFrom (pgdir oldsz : ℕ) : ℕ → ℕ → MemProg Unit
  | 0, _ => pure ()
  | k+1, a =>
    if a < oldsz then do
      match ← walkpgdir pgdir a false with
      | none => deallocFrom pgdir oldsz k (((PGADDR ((PDX a).val+1) 0 0+WORD-PGSIZE)%WORD+PGSIZE)%WORD)
      | some (pgtab,i) =>
        let pte ← word pgtab i
        if has pte PTE_P = true then
          let pa := PTE_ADDR pte
          if pa = 0 then panic .kfree
          else
            kfree (P2V pa)
            setWord pgtab i 0
            deallocFrom pgdir oldsz k ((a+PGSIZE)%WORD)
        else deallocFrom pgdir oldsz k ((a+PGSIZE)%WORD)
    else pure ()

def deallocuvm (pgdir oldsz newsz : ℕ) : MemProg ℕ :=
  if oldsz ≤ newsz then pure oldsz
  else do
    deallocFrom pgdir oldsz (oldsz/PGSIZE+1) (PGROUNDUP newsz)
    pure newsz

/-- The loop of `freevm` over the page directory. -/
def freeTables (pgdir : ℕ) : List Index → MemProg Unit
  | [] => pure ()
  | i::rest => do
    let pde ← word pgdir i
    if has pde PTE_P = true then
      kfree (P2V (PTE_ADDR pde))
      freeTables pgdir rest
    else freeTables pgdir rest

def freevm (pgdir : ℕ) : MemProg Unit :=
  if pgdir = 0 then panic .freevm
  else do
    let _ ← deallocuvm pgdir KERNBASE 0
    freeTables pgdir (List.finRange NPDENTRIES)
    kfree pgdir

/-- The loop of `setupkvm` over `kmap`. -/
def mapRows (pgdir : ℕ) : List Kmap → MemProg Bool
  | [] => pure true
  | k::rest => do
    if ← mappages pgdir k.virt k.size k.physStart k.perm then mapRows pgdir rest else pure false

def setupkvm (lay : Layout) : MemProg ℕ := do
  let pgdir ← kalloc
  if pgdir = 0 then pure 0
  else
    clear pgdir
    if DEVSPACE < P2V PHYSTOP then panic .phystop
    else if ← mapRows pgdir (kmap lay) then pure pgdir
    else
      freevm pgdir
      pure 0

/-- What `readi` reads of an inode, by the offset and the count. Where it returns an error it
reads nothing. -/
abbrev Readi := ℕ → ℕ → List UInt8

/-- The loop of `loaduvm`, with a bound on the rounds left. The result is whether it ends
with 0. -/
def loadFrom (pgdir addr offset sz : ℕ) (readi : Readi) : ℕ → ℕ → MemProg Bool
  | 0, _ => pure true
  | k+1, i =>
    if i < sz then do
      match ← walkpgdir pgdir ((addr+i)%WORD) false with
      | none => panic .loaduvmExist
      | some (pgtab,j) =>
        let pte ← word pgtab j
        let n := if sz-i < PGSIZE then sz-i else PGSIZE
        let xs := (readi ((offset+i)%WORD) n).take n
        patch (P2V (PTE_ADDR pte)) 0 xs
        if xs.length = n then loadFrom pgdir addr offset sz readi k ((i+PGSIZE)%WORD) else pure false
    else pure true

def loaduvm (pgdir addr : ℕ) (readi : Readi) (offset sz : ℕ) : MemProg Bool :=
  if addr%PGSIZE ≠ 0 then panic .loaduvmAligned
  else loadFrom pgdir addr offset sz readi (sz/PGSIZE+1) 0

/-- The loop of `allocuvm`, with a bound on the rounds left. -/
def allocFrom (pgdir oldsz newsz : ℕ) : ℕ → ℕ → MemProg ℕ
  | 0, _ => pure newsz
  | k+1, a =>
    if a < newsz then do
      let mem ← kalloc
      if mem = 0 then
        let _ ← deallocuvm pgdir newsz oldsz
        pure 0
      else
        clear mem
        if ← mappages pgdir a PGSIZE (V2P mem) (PTE_W ||| PTE_U) then
          allocFrom pgdir oldsz newsz k ((a+PGSIZE)%WORD)
        else
          let _ ← deallocuvm pgdir newsz oldsz
          kfree mem
          pure 0
    else pure newsz

def allocuvm (pgdir oldsz newsz : ℕ) : MemProg ℕ :=
  if KERNBASE ≤ newsz then pure 0
  else if newsz < oldsz then pure oldsz
  else allocFrom pgdir oldsz newsz (newsz/PGSIZE+1) (PGROUNDUP oldsz)

def clearpteu (pgdir uva : ℕ) : MemProg Unit := do
  match ← walkpgdir pgdir uva false with
  | none => panic .clearpteu
  | some (pgtab,i) =>
    let pte ← word pgtab i
    setWord pgtab i (clearU pte)

/-- The loop of `copyuvm`, with a bound on the rounds left. The result is whether it does
not go to `bad`. -/
def copyFrom (d pgdir sz : ℕ) : ℕ → ℕ → MemProg Bool
  | 0, _ => pure true
  | k+1, i =>
    if i < sz then do
      match ← walkpgdir pgdir i false with
      | none => panic .copyuvmExist
      | some (pgtab,j) =>
        let pte ← word pgtab j
        if has pte PTE_P = false then panic .copyuvmPresent
        else
          let mem ← kalloc
          if mem = 0 then pure false
          else
            copy mem (P2V (PTE_ADDR pte))
            if ← mappages d i PGSIZE (V2P mem) (PTE_FLAGS pte) then
              copyFrom d pgdir sz k ((i+PGSIZE)%WORD)
            else
              kfree mem
              pure false
    else pure true

def copyuvm (lay : Layout) (pgdir sz : ℕ) : MemProg ℕ := do
  let d ← setupkvm lay
  if d = 0 then pure 0
  else if ← copyFrom d pgdir sz (sz/PGSIZE+1) 0 then pure d
  else
    freevm d
    pure 0

/-- The pointer that `walkpgdir` returns is read through without a test. -/
def uva2ka (pgdir uva : ℕ) : MemProg ℕ := do
  let pte ← match ← walkpgdir pgdir uva false with
    | none => null
    | some (pgtab,i) => word pgtab i
  if has pte PTE_P = false then pure 0
  else if has pte PTE_U = false then pure 0
  else pure (P2V (PTE_ADDR pte))

/-- The loop of `copyout`, with a bound on the rounds left; the bytes are those from `buf`
on. -/
def copyoutFrom (pgdir : ℕ) : ℕ → ℕ → List UInt8 → MemProg Bool
  | 0, _, _ => pure true
  | k+1, va, buf =>
    if 0 < buf.length then do
      let va0 := PGROUNDDOWN va
      let pa0 ← uva2ka pgdir va0
      if pa0 = 0 then pure false
      else
        let n := min (PGSIZE-(va-va0)) buf.length
        patch pa0 (va-va0) (buf.take n)
        copyoutFrom pgdir k ((va0+PGSIZE)%WORD) (buf.drop n)
    else pure true

def copyout (pgdir va : ℕ) (buf : List UInt8) : MemProg Bool := copyoutFrom pgdir buf.length va buf

def block (xs : List UInt8) : Block := fun k => xs.getD k 0

/-- The fields of a `struct elfhdr` that `exec` uses, and its size. -/
structure Elfhdr where
  magic : ℕ
  entry : ℕ
  phoff : ℕ
  phnum : ℕ

def elfhdr (xs : List UInt8) : Elfhdr :=
  ⟨field 4 (block xs) 0,field 4 (block xs) 24,field 4 (block xs) 28,field 2 (block xs) 44⟩

abbrev ELFHDR : ℕ := 52

/-- The fields of a `struct proghdr` that `exec` uses, and its size. -/
structure Proghdr where
  type : ℕ
  off : ℕ
  vaddr : ℕ
  filesz : ℕ
  memsz : ℕ

def proghdr (xs : List UInt8) : Proghdr :=
  ⟨field 4 (block xs) 0,field 4 (block xs) 4,field 4 (block xs) 8,field 4 (block xs) 16,field 4 (block xs) 20⟩

abbrev PROGHDR : ℕ := 32

/-- The loop of `exec` over the program headers, with the number of those left. The result is
`sz`, or none at `bad`. -/
def loadSegments (pgdir : ℕ) (readi : Readi) : ℕ → ℕ → ℕ → MemProg (Option ℕ)
  | 0, _, sz => pure (some sz)
  | k+1, off, sz =>
    let xs := (readi off PROGHDR).take PROGHDR
    if xs.length ≠ PROGHDR then pure none
    else
      let ph := proghdr xs
      if ph.type ≠ ELF_PROG_LOAD then loadSegments pgdir readi k ((off+PROGHDR)%WORD) sz
      else if ph.memsz < ph.filesz then pure none
      else if (ph.vaddr+ph.memsz)%WORD < ph.vaddr then pure none
      else do
        let sz ← allocuvm pgdir sz ((ph.vaddr+ph.memsz)%WORD)
        if sz = 0 then pure none
        else if ph.vaddr%PGSIZE ≠ 0 then pure none
        else if ← loaduvm pgdir ph.vaddr readi ph.off ph.filesz then
          loadSegments pgdir readi k ((off+PROGHDR)%WORD) sz
        else pure none

/-- What `exec` does while it has the inode. The result is the page directory, the size and
the entry, or none at `bad`. -/
def loadImage (lay : Layout) (readi : Readi) : MemProg (Option (ℕ × ℕ × ℕ)) :=
  let xs := (readi 0 ELFHDR).take ELFHDR
  if xs.length ≠ ELFHDR then pure none
  else
    let elf := elfhdr xs
    if elf.magic ≠ ELF_MAGIC then pure none
    else do
      let pgdir ← setupkvm lay
      if pgdir = 0 then pure none
      else match ← loadSegments pgdir readi elf.phnum elf.phoff 0 with
        | none =>
          freevm pgdir
          pure none
        | some sz => pure (some (pgdir,sz,elf.entry))

/-- The pages of the stack. The result is `sz`, or 0 at `bad`. -/
def allocStack (pgdir sz : ℕ) : MemProg ℕ := do
  let sz := PGROUNDUP sz
  let sz ← allocuvm pgdir sz ((sz+2*PGSIZE)%WORD)
  if sz = 0 then pure 0
  else
    clearpteu pgdir ((sz+WORD-2*PGSIZE)%WORD)
    pure sz

/-- The loop of `exec` over the strings of `argv`, with those before. The result is `sp` and
the pointers of `ustack`, or none at `bad`. -/
def pushArgs (pgdir : ℕ) : List (List UInt8) → ℕ → ℕ → List ℕ → MemProg (Option (ℕ × List ℕ))
  | [], _, sp, ptrs => pure (some (sp,ptrs))
  | arg::rest, argc, sp, ptrs =>
    if MAXARG ≤ argc then pure none
    else
      let sp := (sp+WORD-(arg.length+1)%WORD)%WORD/4*4
      do
        if ← copyout pgdir sp (arg++[0]) then pushArgs pgdir rest (argc+1) sp (ptrs++[sp])
        else pure none

def ustack (argc sp : ℕ) (ptrs : List ℕ) : List ℕ :=
  [4294967295,argc,(sp+WORD-(argc+1)*4)%WORD]++ptrs++[0]

/-- The result is `sp`, or none at `bad`. -/
def pushStack (pgdir sz : ℕ) (argv : List (List UInt8)) : MemProg (Option ℕ) := do
  match ← pushArgs pgdir argv 0 sz [] with
  | none => pure none
  | some (sp,ptrs) =>
    let argc := argv.length
    let top := (sp+WORD-(3+argc+1)*4)%WORD
    if ← copyout pgdir top ((ustack argc sp ptrs).flatMap (bytes 4)) then pure (some top)
    else pure none

/-- What `exec` does behind `end_op`. The result is `sz` and `sp`, or none where it returns
-1. -/
def stackImage (pgdir sz : ℕ) (argv : List (List UInt8)) : MemProg (Option (ℕ × ℕ)) := do
  let sz ← allocStack pgdir sz
  if sz = 0 then
    freevm pgdir
    pure none
  else match ← pushStack pgdir sz argv with
    | none =>
      freevm pgdir
      pure none
    | some sp => pure (some (sz,sp))

/-- The states of a process; `live` is SLEEPING, RUNNABLE or RUNNING. -/
inductive ProcState where
  | unused
  | embryo
  | live
  | zombie
  deriving DecidableEq

/-- What a process has; `eip` and `esp` are those of its trap frame. -/
structure Body where
  kstack : ℕ
  pgdir : ℕ
  sz : ℕ
  eip : ℕ
  esp : ℕ
  name : List UInt8

structure Proc (n : ℕ) where
  state : ProcState
  pid : ℤ
  parent : Option (Fin n)
  body : Body

inductive Cmd (n : ℕ) where
  | mem (c : Mem)
  | me
  | proc (q : Fin n)
  | setPgdir (q : Fin n) (v : ℕ)
  | setSz (q : Fin n) (sz : ℕ)
  | setTf (q : Fin n) (eip esp : ℕ)
  | setName (q : Fin n) (name : List UInt8)
  | beginOp
  | endOp
  | namei (path : List UInt8)
  | ilock (ip : ℕ)
  | contents (ip : ℕ)
  | iunlockput (ip : ℕ)

def Reply {n : ℕ} : Cmd n → Type
  | .mem c => Mem.Reply c
  | .me => Fin n
  | .proc _ => Proc n
  | .namei _ => Option ℕ
  | .contents _ => Readi
  | _ => Unit

abbrev Prog (n : ℕ) (α : Type) := Program (Cmd n) Reply α

def lift {n : ℕ} {α : Type} : MemProg α → Prog n α
  | .ret a => .ret a
  | .call c next => .call (.mem c) (fun r => lift (next r))

variable {n : ℕ}

def command (c : Cmd n) : Prog n (Reply c) := perform c

def me : Prog n (Fin n) := command .me
def proc (q : Fin n) : Prog n (Proc n) := command (.proc q)
def setPgdir (q : Fin n) (v : ℕ) : Prog n Unit := command (.setPgdir q v)
def setSz (q : Fin n) (sz : ℕ) : Prog n Unit := command (.setSz q sz)
def setTf (q : Fin n) (eip esp : ℕ) : Prog n Unit := command (.setTf q eip esp)
def setName (q : Fin n) (name : List UInt8) : Prog n Unit := command (.setName q name)
def beginOp : Prog n Unit := command .beginOp
def endOp : Prog n Unit := command .endOp

def namei (path : List UInt8) : Prog n (Option ℕ) := command (.namei path)
def ilock (ip : ℕ) : Prog n Unit := command (.ilock ip)

def contents (ip : ℕ) : Prog n Readi := command (.contents ip)
def iunlockput (ip : ℕ) : Prog n Unit := command (.iunlockput ip)
def stop {α : Type} (msg : Panic) : Prog n α := lift (panic msg)

def switchuvm : Prog n Unit := do
  let cur ← me
  let x ← proc cur
  if x.body.kstack = 0 then stop .switchuvm
  else if x.body.pgdir = 0 then stop .switchuvm
  else pure ()

def growproc (sz : BitVec 32) : Prog n ℤ := do
  let cur ← me
  let x ← proc cur
  if 0 < sz.toInt then
    let sz ← lift (allocuvm x.body.pgdir x.body.sz ((x.body.sz+sz.toNat)%WORD))
    if sz = 0 then pure (-1)
    else
      setSz cur sz
      switchuvm
      pure 0
  else if sz.toInt < 0 then
    let sz ← lift (deallocuvm x.body.pgdir x.body.sz ((x.body.sz+sz.toNat)%WORD))
    if sz = 0 then pure (-1)
    else
      setSz cur sz
      switchuvm
      pure 0
  else
    setSz cur x.body.sz
    switchuvm
    pure 0

def sysSbrk (sz : BitVec 32) : Prog n ℤ := do
  let cur ← me
  let x ← proc cur
  if (← growproc sz) < 0 then pure (-1) else pure x.body.sz

/-- The loop of `exec` that finds the last part of the path. -/
def lastFrom : List UInt8 → List UInt8 → List UInt8
  | last, [] => last
  | last, c::s => lastFrom (if c = 47 then s else last) s

/-- The call `safestrcpy(name, last, sizeof(name))`. -/
def safestrcpy (last : List UInt8) : List UInt8 := last.take 15

/-- The lines of `exec` from `begin_op` to `end_op`. The result is the page directory, the size
and the entry, or none where it returns -1. -/
def readImage (lay : Layout) (path : List UInt8) : Prog n (Option (ℕ × ℕ × ℕ)) := do
  beginOp
  match ← namei path with
  | none =>
    endOp
    pure none
  | some ip =>
    ilock ip
    let readi ← contents ip
    let image ← lift (loadImage lay readi)
    iunlockput ip
    endOp
    pure image

def exec (lay : Layout) (path : List UInt8) (argv : List (List UInt8)) : Prog n ℤ := do
  let cur ← me
  match ← readImage lay path with
  | none => pure (-1)
  | some (pgdir,sz,entry) =>
    match ← lift (stackImage pgdir sz argv) with
    | none => pure (-1)
    | some (sz,sp) =>
      setName cur (safestrcpy (lastFrom path path))
      let x ← proc cur
      setPgdir cur pgdir
      setSz cur sz
      setTf cur entry sp
      switchuvm
      lift (freevm x.body.pgdir)
      pure 0

/-- What `exec` needs of the file system: the operations that are begun, the inode of a path,
what `readi` reads of it, and for each inode the references and whether it is locked. -/
structure Fs where
  ops : ℕ
  lookup : List UInt8 → Option ℕ
  readi : ℕ → Readi
  ref : ℕ → ℕ
  locked : ℕ → Bool

/-- The kernel: `fails` is which calls of `kalloc` fail though the list is not empty, and
`asked` how many there were. -/
structure World (n : ℕ) where
  mem : ℕ → Words
  freelist : ℕ
  fails : ℕ → Bool
  asked : ℕ
  proc : Fin n → Proc n
  fs : Fs

def World.setMem (w : World n) (v : ℕ) (f : Words) : World n := { w with mem := update w.mem v f }

def World.setProc (w : World n) (q : Fin n) (x : Proc n) : World n :=
  { w with proc := update w.proc q x }

def World.setBody (w : World n) (q : Fin n) (b : Body) : World n := w.setProc q { w.proc q with body := b }

def World.setFs (w : World n) (fs : Fs) : World n := { w with fs := fs }

/-- The word of a free page that holds `next`. -/
def link : Index := ⟨0,by decide⟩

/-- The page as `kfree` fills it. -/
def junk (next : ℕ) : Words := update (fun _ => 16843009) link next

/-- A panic, or a lock that another process holds. -/
inductive Stop where
  | panic (msg : Panic)
  | busy
  deriving DecidableEq

/-- A null pointer stops the program here, as no process is running. -/
def handleMem (lay : Layout) : (c : Mem) → World n → Except Stop (Mem.Reply c × World n)
  | .kalloc, w =>
    if w.fails w.asked = true ∨ w.freelist = 0 then .ok ((0 : ℕ),{ w with asked := w.asked+1 })
    else .ok (w.freelist,{ w with asked := w.asked+1, freelist := w.mem w.freelist link })
  | .kfree v, w =>
    if v%PGSIZE ≠ 0 ∨ v < lay.stop ∨ PHYSTOP ≤ V2P v then .error (.panic .kfree)
    else .ok ((),{ w.setMem v (junk w.freelist) with freelist := v })
  | .word v i, w => .ok (w.mem v i,w)
  | .null, _ => .error (.panic .null)
  | .setWord v i x, w => .ok ((),w.setMem v (update (w.mem v) i x))
  | .clear v, w => .ok ((),w.setMem v (fun _ => 0))
  | .copy dst src, w => .ok ((),w.setMem dst (w.mem src))
  | .patch v o xs, w => .ok ((),w.setMem v (ofBytes (paste (toBytes (w.mem v)) o xs)))
  | .panic msg, _ => .error (.panic msg)

def handle (lay : Layout) (p : Fin n) : (c : Cmd n) → World n → Except Stop (Reply c × World n)
  | .mem c, w => handleMem lay c w
  | .me, w => .ok (p,w)
  | .proc q, w => .ok (w.proc q,w)
  | .setPgdir q v, w => .ok ((),w.setBody q { (w.proc q).body with pgdir := v })
  | .setSz q sz, w => .ok ((),w.setBody q { (w.proc q).body with sz := sz })
  | .setTf q eip esp, w => .ok ((),w.setBody q { (w.proc q).body with eip := eip, esp := esp })
  | .setName q name, w => .ok ((),w.setBody q { (w.proc q).body with name := name })
  | .beginOp, w => .ok ((),w.setFs { w.fs with ops := w.fs.ops+1 })
  | .endOp, w => .ok ((),w.setFs { w.fs with ops := w.fs.ops-1 })
  | .namei path, w => match w.fs.lookup path with
    | none => .ok (none,w)
    | some ip => .ok (some ip,w.setFs { w.fs with ref := update w.fs.ref ip (w.fs.ref ip+1) })
  | .ilock ip, w =>
    if w.fs.ref ip < 1 then .error (.panic .ilock)
    else if w.fs.locked ip = true then .error .busy
    else .ok ((),w.setFs { w.fs with locked := update w.fs.locked ip true })
  | .contents ip, w => .ok (w.fs.readi ip,w)
  | .iunlockput ip, w =>
    if w.fs.locked ip = false ∨ w.fs.ref ip < 1 then .error (.panic .iunlock)
    else .ok ((),w.setFs { w.fs with
      locked := update w.fs.locked ip false
      ref := update w.fs.ref ip (w.fs.ref ip-1) })

def pteAt (mem : ℕ → Words) (pgdir va : ℕ) : ℕ :=
  if has (mem pgdir (PDX va)) PTE_P = true then mem (P2V (PTE_ADDR (mem pgdir (PDX va)))) (PTX va) else 0

def pageAt (mem : ℕ → Words) (pgdir va : ℕ) : ℕ := P2V (PTE_ADDR (pteAt mem pgdir va))

end Xv6.VmCode

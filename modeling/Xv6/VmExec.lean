import Xv6.VmArgs

/-!
# exec

A call of `exec` that fails leaves the process, the free list and the file system as they
were. One that returns 0 has put the arguments down in the top page of the new image, and has
written nowhere else in it since the segments were loaded.
-/

set_option autoImplicit false

namespace Xv6.VmExec
open CommandTree HeapRegions ByteFields VmCode VmHeap VmSpaces VmMapping VmImages
open VmUser VmAlone VmArgs
open Function

variable {n : ℕ} {lay : Layout} {p : Fin n} {w w' : World n} {h h' : PageHeap} {S S' : Space} {L L' : List ℕ}
  {argv : List (List UInt8)}

/-- The size of the image of a path. -/
def imageSize (fs : Fs) (path : List UInt8) : Option ℕ :=
  (fs.lookup path).bind fun ip => fileSize (fs.readi ip)

def Fs.taken (fs : Fs) (ip : ℕ) : Fs :=
  { fs with ops := fs.ops+1, ref := update fs.ref ip (fs.ref ip+1), locked := update fs.locked ip true }

theorem taken_back {fs : Fs} {ip : ℕ} (hlock : fs.locked ip = false) :
    { Fs.taken fs ip with
      locked := update (Fs.taken fs ip).locked ip false
      ref := update (Fs.taken fs ip).ref ip ((Fs.taken fs ip).ref ip-1)
      ops := (Fs.taken fs ip).ops-1 } = fs := by
  have hl : update fs.locked ip false = fs.locked := by rw [← hlock, update_eq_self]
  simp only [Fs.taken, update_idem, update_self, Nat.add_sub_cancel, update_eq_self, hl]

theorem read_image_spec (p : Fin n) (path : List UInt8) (ho : Owns lay w h L) :
    wp (handle lay p) (readImage lay path) (fun o w' => ∃ h' L',
        Loaded lay ⟨fun _ => False,Denied w h L⟩ (imageSize w.fs path) h o h' ∧ Owns lay w' h' L' ∧
        Alone w h L w' h' L')
      (fun e => e = .busy ∧ ∃ ip, w.fs.lookup path = some ip ∧ w.fs.locked ip = true) w := by
  refine wp_command (c := .beginOp) rfl ?_
  cases hpath : w.fs.lookup path with
  | none =>
    refine wp_command (c := .namei path) (r := none) (t := w.setFs { w.fs with ops := w.fs.ops+1 }) ?_ ?_
    · simp only [handle, World.setFs, hpath]
    · have hsize : imageSize w.fs path = none := by rw [imageSize, hpath, Option.bind_none]
      exact wp_command (c := .endOp) rfl
        ⟨h,L,.inl ⟨rfl,rfl,fun _ h0 => by cases hsize.symm.trans h0⟩,ho,alone_refl w h L⟩
  | some ip =>
    refine wp_command (c := .namei path) (r := some ip) (t := w.setFs { w.fs with
      ops := w.fs.ops+1
      ref := update w.fs.ref ip (w.fs.ref ip+1) }) ?_ ?_
    · simp only [handle, World.setFs, hpath]
    cases hlock : w.fs.locked ip with
    | true =>
      refine wp_bind.mpr (wp_perform.mpr ?_)
      simp [handle, World.setFs, hlock, Meets]
    | false =>
      refine wp_command (c := .ilock ip) (r := ()) (t := w.setFs (Fs.taken w.fs ip)) ?_ ?_
      · simp [handle, World.setFs, hlock, Fs.taken]
      refine wp_command (c := .contents ip) rfl ?_
      have hsize : imageSize w.fs path = fileSize (w.fs.readi ip) := by
        rw [imageSize, hpath, Option.bind_some]
      have hload :=
        load_image_spec (A := ⟨fun _ => False,Denied w h L⟩) (w.fs.readi ip) (fun hv => (ho.stored hv).2)
      rw [← hsize] at hload
      refine wp_lift hload (owns_congr ho rfl rfl) (fun _ => id) ?_
      rintro o w1 h1 L1 hread ho1 halone
      have hfs : w1.fs = Fs.taken w.fs ip := by
        rw [halone.same]
        rfl
      refine wp_command (c := .iunlockput ip) (r := ()) (t := w1.setFs { w1.fs with
        locked := update w1.fs.locked ip false
        ref := update w1.fs.ref ip (w1.fs.ref ip-1) }) ?_ ?_
      · simp [handle, hfs, Fs.taken]
      refine wp_command (c := .endOp) rfl ⟨h1,L1,hread,owns_congr ho1 rfl rfl,?_,halone.rest,halone.pages⟩
      have hback := taken_back hlock
      rw [← hfs] at hback
      simp only [World.setFs, hback]
      rw [halone.same]
      rfl

-- else Lean runs the programs to see what kind of statement a `wp` is
attribute [local irreducible] wp

theorem body_setBody (w : World n) (p : Fin n) (b : Body) : ((w.setBody p b).proc p).body = b := by
  simp only [World.setBody, World.setProc, update_self]

theorem setBody_setBody (w : World n) (p : Fin n) (b b' : Body) :
    (w.setBody p b).setBody p b' = w.setBody p b' := by
  simp only [World.setBody, World.setProc, update_self, update_idem]

theorem commit_spec {R : ℤ → World n → Prop} {E : Stop → Prop} {pgdir sz eip esp : ℕ} {name : List UInt8}
    (hstack : (w.proc p).body.kstack ≠ 0) (hdir : pgdir ≠ 0)
    (hR : wp (handle lay p) (lift (freevm (w.proc p).body.pgdir) >>= fun _ => pure 0) R E (w.setBody p
      { (w.proc p).body with pgdir := pgdir, sz := sz, eip := eip, esp := esp, name := name })) :
    wp (handle lay p) (do
      setName p name
      let x ← proc p
      setPgdir p pgdir
      setSz p sz
      setTf p eip esp
      switchuvm
      lift (freevm x.body.pgdir)
      pure 0) R E w := by
  refine wp_command (c := .setName p name) rfl (wp_command (c := .proc p) rfl ?_)
  refine wp_command (c := .setPgdir p pgdir) rfl (wp_command (c := .setSz p sz) rfl ?_)
  refine wp_command (c := .setTf p eip esp) rfl ?_
  simp only [setBody_setBody, body_setBody]
  refine switchuvm_spec ?_ ?_ hR
  · rw [body_setBody]
    exact hstack
  · rw [body_setBody]
    exact hdir

/-- What is known of a stack: two pages above the image, of which the upper has the arguments. -/
def HasArgs (argv : List (List UInt8)) (S : Space) (sz : ℕ) (S' : Space) (sp : ℕ) : Prop :=
  ∃ S2 data ptrs, Added S (PGROUNDUP sz) (stackTop sz) S2 ∧ S' = Space.withData S2 data ∧
    Stacked S2 (stackTop sz) ∧ Frame S2 (stackTop sz) argv data sp ptrs

/-- The image that was read has become the memory of the process, with the arguments. -/
structure Commits (lay : Layout) (w : World n) (h : PageHeap) (S : Space) (L : List ℕ) (p : Fin n)
    (path : List UInt8)
    (argv : List (List UInt8)) (w1 : World n) (h1 : PageHeap) (S1 : Space) (sz entry : ℕ) (w' : World n)
    (h' : PageHeap)
    (S' : Space) (L' : List ℕ) (sp : ℕ) : Prop where
  ran : run (handle lay p) (readImage lay path) w = .ok (some (S1.dir,sz,entry),w1)
  image : imageSize w.fs path = some sz
  stored1 : ∀ {v f}, h1 v = some f → w1.mem v = f
  sound1 : Sound lay h1 S1
  exact1 : Exact S1 sz
  size1 : sz < KERNBASE
  owns : Owns lay w' h' L'
  sound : Sound lay h' S'
  kernel : Kernel lay S'
  stacked : Stacked S' (stackTop sz)
  dir : S'.dir = S1.dir
  args : HasArgs argv S1 sz S' sp
  moves : Moves h S.In h' S'.In
  pages : ∀ v, (h' v ≠ none ∨ v ∈ L') ↔ (h v ≠ none ∨ v ∈ L)
  proc : w'.proc = update w.proc p { w.proc p with body := { (w.proc p).body with
    pgdir := S'.dir, sz := stackTop sz, eip := entry, esp := sp, name := safestrcpy (lastFrom path path) } }

/-- The image is too large, the arguments are, or there are not enough pages. -/
def Unfit (w : World n) (L : List ℕ) (path : List UInt8) (argv : List (List UInt8)) : Prop :=
  ∀ sz, imageSize w.fs path = some sz → KERNBASE ≤ stackTop sz ∨ ¬Placed (stackTop sz) argv ∨
    Short w L (max (room sz) (room (stackTop sz)))

/-- A string of the arguments jumps over the stack of the image. -/
def Leaps (fs : Fs) (path : List UInt8) (argv : List (List UInt8)) : Prop :=
  ∃ sz, imageSize fs path = some sz ∧ Jumps (stackTop sz) (stackTop sz) argv

/-- The two ways in which the call returns. -/
def Returns (lay : Layout) (w : World n) (h : PageHeap) (S : Space) (L : List ℕ) (p : Fin n)
    (path : List UInt8)
    (argv : List (List UInt8)) (r : ℤ) (w' : World n) : Prop :=
  (r = -1 ∧ Unfit w L path argv ∧ ∃ L', Owns lay w' h L' ∧ Alone w h L w' h L') ∨
    (r = 0 ∧ ∃ w1 h1 S1 sz entry h' S' L' sp,
      Commits lay w h S L p path argv w1 h1 S1 sz entry w' h' S' L' sp)

theorem exec_spec (path : List UInt8) (argv : List (List UInt8)) (hp : Process lay w p h S L)
    (hargc : argv.length < MAXARG)
    (hargs : ∀ arg ∈ argv, arg.length < KERNBASE) :
    wp (handle lay p) (exec lay path argv) (Returns lay w h S L p path argv)
      (fun e => (e = .busy ∧ ∃ ip, w.fs.lookup path = some ip ∧ w.fs.locked ip = true) ∨
        (e = .panic .null ∧ Leaps w.fs path argv)) w := by
  rw [exec]
  refine wp_command (c := .me) rfl ?_
  refine wp_seq (wp_ran (read_image_spec p path hp.owns)) (fun _ => .inl) ?_
  rintro o w1 ⟨⟨h1,L1,hread,ho1,ha1⟩,hran⟩
  rcases hread with ⟨rfl,rfl,hscarce⟩ | ⟨S1,sz,entry,rfl,hsize,hs1,hk1,he1,hsz1,hmove1⟩
  · refine (wp_pure _).mpr (.inl ⟨rfl,fun sz hsz => .inr (.inr ?_),L1,ho1,ha1⟩)
    exact scarce_short hp.owns (scarce_mono (hscarce sz hsz) (Nat.le_max_left _ _)) fun _ => id
  have hstack := stack_image_spec
    (A := ⟨fun msg => msg = .null ∧ Leaps w.fs path argv,Denied w h L⟩) hs1 hk1 he1 hsz1 hmove1
    hargc hargs fun hjump => ⟨rfl,sz,hsize,hjump⟩
  refine wp_seq (lift_alone p hstack ho1 fun _ => denied_alone ha1) ?_ ?_
  · rintro e ⟨msg,rfl,rfl,hleap⟩
    exact .inr ⟨rfl,hleap⟩
  rintro r w2 ⟨h2,L2,hstack,ho2,ha2⟩
  have ha := alone_trans ha1 ha2
  rcases hstack with ⟨rfl,rfl,hfail⟩ | ⟨S2,data,sp,ptrs,rfl,hdir,hs2,hk2,hst,hadd,hmove2,hframe⟩
  · refine (wp_pure _).mpr (.inl ⟨rfl,fun sz' hsz' => ?_,L2,ho2,ha⟩)
    cases hsize.symm.trans hsz'
    refine hfail.imp id (Or.imp id fun hscarce => ?_)
    exact scarce_short hp.owns (scarce_mono hscarce (Nat.le_max_right _ _)) fun _ => id
  have hproc := alone_proc ha
  have hpos := page_pos (hs2.valid hs2.dir)
  -- the old space stands beside the new one until it is freed
  have hgrow : Moves h S.In h2 (fun v => S.In v ∨ S2.In v) :=
    moves_congr (moves_grow hmove2 S.In) (fun _ => or_iff_right id) fun _ => or_comm
  have hapart : ∀ v, S.In v → h2 v = h v ∧ ¬S2.In v := fun v hv => by
    obtain ⟨f,hf⟩ := sound_in hp.sound hv
    exact moves_keep hmove2 (by rw [hf]; exact Option.some_ne_none f) id
  have hs := sound_frame hp.sound hs2.valid fun v hv => (hapart v hv).1
  refine commit_spec (by rw [hproc]; exact hp.stack)
    (by rw [← hdir]; exact Nat.ne_of_gt (Nat.zero_lt_of_lt hpos)) ?_
  rw [hproc, ← hp.dir]
  refine wp_lift (freevm_spec hs) (owns_congr ho2 rfl rfl) (fun _ => id) ?_
  rintro - w3 h3 L3 hmove3 ho3 ha3
  refine (wp_pure _).mpr (.inr ⟨rfl,w1,h1,S1,sz,entry,h3,Space.withData S2 data,L3,sp,hran,hsize,
    fun hv => (ho1.stored hv).1,hs1,he1,hsz1,ho3,?_,kernel_withData hk2,stacked_withData hst,hdir,
    ⟨S2,data,ptrs,hadd,rfl,hst,hframe⟩,?_,fun v => (ha3.pages v).trans (ha.pages v),?_⟩)
  · refine sound_frame hs2 (fun hv => (ho3.stored hv).2) fun v hv => ?_
    obtain ⟨f,hf⟩ := sound_in hs2 hv
    exact (moves_keep hmove3 (by rw [hf]; exact Option.some_ne_none f) fun hin => (hapart v hin).2 hv).1
  · exact moves_trans hgrow (moves_congr (moves_grow hmove3 S2.In)
      (fun _ => Iff.rfl) fun _ => or_iff_right id)
  · rw [alone_proc ha3, World.setBody, World.setProc, hproc, show S1.dir = S2.dir from hdir.symm]
    rfl

theorem exec_returns (path : List UInt8) (argv : List (List UInt8)) (hp : Process lay w p h S L)
    (hargc : argv.length < MAXARG)
    (hargs : ∀ arg ∈ argv, arg.length < KERNBASE) (hlock : ∀ ip, w.fs.locked ip = false)
    (hleap : ¬Leaps w.fs path argv) :
    wp (handle lay p) (exec lay path argv) (Returns lay w h S L p path argv) (fun _ => False) w := by
  refine wp_mono (exec_spec path argv hp hargc hargs) (fun _ _ => id) ?_
  rintro e (⟨-,ip,-,hip⟩ | ⟨-,h0⟩)
  · rw [hlock] at hip
    cases hip
  · exact hleap h0

def oneFile (memsz : ℕ) : Fs := ⟨0,fun _ => some 5,fun _ => readElf memsz,fun _ => 1,fun _ => false⟩

section Caller

section Target
variable {x : ℕ} {i j : Index} {arg : List UInt8}

end Target

end Caller

/-- Below the page of the arguments the image is as it was loaded, with a page of zeros above
it that is not one of the user. -/
structure Below (mem mem' : ℕ → Words) (pgdir sz sz' : ℕ) : Prop where
  size : sz' = PGROUNDUP sz+2*PGSIZE
  entry : ∀ va < PGROUNDUP sz, pteAt mem' pgdir va = pteAt mem pgdir va
  same : ∀ va < PGROUNDUP sz, readByte mem' pgdir va = readByte mem pgdir va
  zero : ∀ va, PGROUNDUP sz ≤ va → va < sz'-PGSIZE → readByte mem' pgdir va = 0
  guard : has (pteAt mem' pgdir (sz'-2*PGSIZE)) PTE_U = false

section Reading
variable {mem mem' : ℕ → Words} {sz sz' sp va k : ℕ} {data : Index → Index → Words} {ptrs : List ℕ}

end Reading

end Xv6.VmExec

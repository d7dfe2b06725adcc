import Xv6.VmExec

/-!
# Processes and their pages

Processes fork, change their size, call `exec`, write to their memory, exit and are reaped,
one call after another, and `kalloc` fails where it will. Each page stays on the free list or
with one process, and what a call does to one process is not seen by the others.
-/

set_option autoImplicit false

namespace Xv6.VmProcesses
open CommandTree HeapRegions VmCode VmHeap VmSpaces VmMapping VmUser VmAlone VmImages
open VmExec (Leaps exec_spec imageSize)
open Function

variable {n : ℕ}

/-- What `allocproc` and `fork` take for a new process: the kernel stack and the copy of the
memory. The result is none without a stack, and 0 where the copy fails. -/
def forkPages (lay : Layout) (pgdir sz : ℕ) : MemProg (Option (ℕ × ℕ)) := do
  let kstack ← kalloc
  if kstack = 0 then pure none
  else
    let d ← copyuvm lay pgdir sz
    if d = 0 then
      kfree kstack
      pure (some (0,0))
    else pure (some (kstack,d))

/-- The slot that `fork` leaves; where it fails the slot is unused as before. -/
def newborn (w : World n) (p q : Fin n) (pid : ℤ) : Option (ℕ × ℕ) → Proc n
  | none => { w.proc q with pid := pid, body := { (w.proc q).body with kstack := 0 } }
  | some (k,d) =>
    if d = 0 then { w.proc q with pid := pid, body := { (w.proc q).body with kstack := 0, pgdir := 0 } }
    else ⟨.live,pid,some p,{ (w.proc p).body with kstack := k, pgdir := d }⟩

def reapPages (kstack pgdir : ℕ) : MemProg Unit := do
  kfree kstack
  freevm pgdir

/-- A fork is into any unused slot, and `wait` finds a zombie. A process writes to a page of
its memory, or else to its kernel stack. -/
inductive Call (n : ℕ) where
  | sbrk (p : Fin n) (m : BitVec 32)
  | exec (p : Fin n) (path : List UInt8) (argv : List (List UInt8))
  | fork (p q : Fin n) (pid : ℤ)
  | exit (p init : Fin n)
  | wait (q : Fin n)
  | store (p : Fin n) (va : Option ℕ) (f : Words)

/-- The process whose pages change. -/
def Call.subject : Call n → Fin n
  | .sbrk p _ | .exec p _ _ | .exit p _ | .store p _ _ => p
  | .fork _ q _ | .wait q => q

/-- The page that a user address is translated to, or else the kernel stack. -/
def place (w : World n) (p : Fin n) : Option ℕ → Option ℕ
  | none => some (w.proc p).body.kstack
  | some va =>
    if va < KERNBASE ∧ has (pteAt w.mem (w.proc p).body.pgdir va) PTE_P = true then
      some (pageAt w.mem (w.proc p).body.pgdir va)
    else none

/-- The children of a process are passed to another. -/
def adopt (w : World n) (p init : Fin n) : World n :=
  { w with proc := fun r => if (w.proc r).parent = some p then { w.proc r with parent := some init }
  else w.proc r }

instance (fs : Fs) (path : List UInt8) (argv : List (List UInt8)) : Decidable (Leaps fs path argv) :=
  decidable_of_iff (∃ sz ∈ imageSize fs path, VmArgs.Jumps (VmArgs.stackTop sz)
    (VmArgs.stackTop sz) argv) Iff.rfl

/-- The strings as `sys_exec` passes them, none of which jumps over the stack. -/
def Passed (w : World n) (path : List UInt8) (argv : List (List UInt8)) : Prop :=
  argv.length < MAXARG ∧ (∀ arg ∈ argv, arg.length < KERNBASE) ∧ ¬Leaps w.fs path argv

instance (path : List UInt8) (argv : List (List UInt8)) (w : World n) : Decidable (Passed w path argv) :=
  inferInstanceAs (Decidable (_ ∧ _ ∧ _))

/-- A call that panics, or that waits for an inode, has no next state. -/
def step (lay : Layout) (w : World n) : Call n → Option (World n)
  | .sbrk p m =>
    if (w.proc p).state = .live then (run (handle lay p) (sysSbrk m) w).toOption.map Prod.snd else none
  | .exec p path argv =>
    if (w.proc p).state = .live ∧ Passed w path argv
      then (run (handle lay p) (exec lay path argv) w).toOption.map Prod.snd else none
  | .fork p q pid =>
    if (w.proc p).state = .live ∧ (w.proc q).state = .unused then
      (run (handleMem lay) (forkPages lay (w.proc p).body.pgdir (w.proc p).body.sz) w).toOption.map
        fun x => x.2.setProc q (newborn w p q pid x.1)
    else none
  | .exit p init =>
    if (w.proc p).state = .live ∧ p ≠ init
      then some ((adopt w p init).setProc p { (adopt w p init).proc p with state := .zombie })
    else none
  | .wait q =>
    if (w.proc q).state = .zombie then
      (run (handleMem lay) (reapPages (w.proc q).body.kstack (w.proc q).body.pgdir) w).toOption.map
        fun x => x.2.setProc q ⟨.unused,0,none,{ (w.proc q).body with kstack := 0, name := [] }⟩
    else none
  | .store p va f => if (w.proc p).state = .live then (place w p va).map (fun v => w.setMem v f) else none

def Region (x : Proc n) (T : Space) (v : ℕ) : Prop := x.state ≠ .unused ∧ (T.In v ∨ v = x.body.kstack)

structure Fits (lay : Layout) (h : PageHeap) (b : Body) (T : Space) : Prop where
  sound : Sound lay h T
  kernel : Kernel lay T
  dir : T.dir = b.pgdir
  below : Below T b.sz
  size : b.sz < KERNBASE

/-- A process has its space and its kernel stack. -/
structure Image (lay : Layout) (h : PageHeap) (b : Body) (T : Space) : Prop extends Fits lay h b T where
  held : h b.kstack ≠ none
  out : ¬T.In b.kstack

/-- The processes hold all pages that are not free, each of them its own. -/
structure Held (lay : Layout) (w : World n) (h : PageHeap) (S : Fin n → Space) (L : List ℕ) : Prop where
  owns : Owns lay w h L
  image : ∀ {q}, (w.proc q).state ≠ .unused → Image lay h (w.proc q).body (S q)
  apart : ∀ {q r v}, Region (w.proc q) (S q) v → Region (w.proc r) (S r) v → q = r
  whole : ∀ {v}, h v ≠ none → ∃ q, Region (w.proc q) (S q) v

def SamePages (h : PageHeap) (L : List ℕ) (h' : PageHeap) (L' : List ℕ) : Prop :=
  ∀ v, (h' v ≠ none ∨ v ∈ L') ↔ (h v ≠ none ∨ v ∈ L)

/-- A call changes one process, which is `x` behind it, and the pages of this process. Of the other
processes only the parents change. -/
structure Moved (lay : Layout) (w : World n) (h : PageHeap) (S : Space) (L : List ℕ) (q : Fin n)
    (w' : World n)
    (h' : PageHeap) (T : Space) (L' : List ℕ) (x : Proc n) : Prop where
  owns : Owns lay w' h' L'
  proc : ∀ r, w'.proc r = { update w.proc q x r with parent := (w'.proc r).parent }
  moves : Moves h (Region (w.proc q) S) h' (Region x T)
  image : x.state ≠ .unused → Image lay h' x.body T
  pages : SamePages h L h' L'

def Changes (lay : Layout) (w : World n) (h : PageHeap) (S : Space) (L : List ℕ) (q : Fin n) (w' : World n) :
    Prop :=
  ∃ h' T L' x, Moved lay w h S L q w' h' T L' x

variable {lay : Layout} {w w' w1 : World n} {h h' h1 : PageHeap} {S : Fin n → Space} {L L' L1 : List ℕ}
    {p q r : Fin n}
  {T : Space} {v : ℕ} {f : Words} {x : Proc n}

theorem region_held (hh : Held lay w h S L) (hv : Region (w.proc q) (S q) v) : h v ≠ none := by
  rcases hv with ⟨hq,hin | rfl⟩
  · obtain ⟨f,hf⟩ := sound_in (hh.image hq).sound hin
    rw [hf]
    exact Option.some_ne_none f
  · exact (hh.image hq).held

theorem moved_keep (hh : Held lay w h S L) (hm : Moved lay w h (S q) L q w' h' T L' x) (hr : r ≠ q)
    (hv : Region (w.proc r) (S r) v) : h' v = h v ∧ ¬Region x T v :=
  moves_keep hm.moves (region_held hh hv) fun hin => hr (hh.apart hv hin)

theorem region_update : Region (update w.proc q x r) (update S q T r) v ↔
    (r = q ∧ Region x T v) ∨ (r ≠ q ∧ Region (w.proc r) (S r) v) := by
  by_cases hr : r = q
  · subst hr
    simp
  · simp [hr]

theorem held_moved (hh : Held lay w h S L) (hm : Moved lay w h (S q) L q w' h' T L' x) :
    Held lay w' h' (update S q T) L' := by
  have hreg : ∀ {r T v}, Region (w'.proc r) T v ↔ Region (update w.proc q x r) T v := fun {r T v} => by
    rw [hm.proc r]
    rfl
  refine ⟨hm.owns,fun {r} hr => ?_,fun {r r' v} hr hr' => ?_,fun {v} hv => ?_⟩ <;> simp only [hreg] at *
  · rw [hm.proc r] at hr ⊢
    dsimp only at hr ⊢
    by_cases hrq : r = q
    · subst hrq
      rw [update_self] at hr ⊢
      rw [update_self]
      exact hm.image hr
    · rw [update_of_ne hrq] at hr ⊢
      rw [update_of_ne hrq]
      have hi := hh.image hr
      refine ⟨⟨sound_frame hi.sound
        (fun hv => (hm.owns.stored hv).2) fun v hv => (moved_keep hh hm hrq ⟨hr,.inl hv⟩).1,
        hi.kernel,hi.dir,hi.below,hi.size⟩,?_,hi.out⟩
      rw [(moved_keep hh hm hrq ⟨hr,.inr rfl⟩).1]
      exact hi.held
  · rcases region_update.mp hr with ⟨rfl,hv⟩ | ⟨hne,hv⟩ <;>
      rcases region_update.mp hr' with ⟨rfl,hv'⟩ | ⟨hne',hv'⟩
    · rfl
    · exact absurd hv (moved_keep hh hm hne' hv').2
    · exact absurd hv' (moved_keep hh hm hne hv).2
    · exact hh.apart hv hv'
  · by_cases hin' : Region x T v
    · exact ⟨q,region_update.mpr (.inl ⟨rfl,hin'⟩)⟩
    · have hin : ¬Region (w.proc q) (S q) v := fun hin => hv (hm.moves.gone v hin hin')
      rw [hm.moves.rest v hin hin'] at hv
      obtain ⟨r,hr⟩ := hh.whole hv
      exact ⟨r,region_update.mpr (.inr ⟨fun heq => hin (heq ▸ hr),hr⟩)⟩

section Space
variable {S : Space} {b : Body} (hi : Image lay h (w.proc p).body S) (hp : (w.proc p).state ≠ .unused)
  (ho : Owns lay w h L)
include hi

theorem image_process (ho : Owns lay w h L) : Process lay w p h S L := by
  refine ⟨ho,hi.sound,hi.kernel,hi.dir,fun h0 => ?_,hi.below,hi.size⟩
  cases hx : h (w.proc p).body.kstack with
  | none => exact hi.held hx
  | some f =>
    have hpos := page_pos (hi.sound.valid hx)
    omega

include hp

/-- The kernel stack is none of the pages that a change of the space takes or frees. -/
theorem space_moved (ho : Owns lay w' h' L') (hproc : w'.proc = update w.proc p { w.proc p with body := b })
    (hk : b.kstack = (w.proc p).body.kstack) (hmove : Moves h S.In h' T.In) (hpages : SamePages h L h' L')
    (hf : Fits lay h' b T) : Changes lay w h S L p w' := by
  obtain ⟨hsame,hout⟩ := moves_keep hmove hi.held hi.out
  rw [← hk] at hsame hout
  refine ⟨h',T,L',_,ho,fun r => by rw [hproc],?_,fun _ => ⟨hf,?_,hout⟩,hpages⟩
  · exact moves_congr (moves_grow hmove fun u => u = b.kstack)
      (fun u => by rw [hk]; exact (and_iff_right hp).symm) fun u => (and_iff_right hp).symm
  · rw [hsame, hk]
    exact hi.held

theorem same_moved (ho : Owns lay w' h L') (ha : Alone w h L w' h L') : Changes lay w h S L p w' :=
  space_moved hi hp ho ((alone_proc ha).trans (update_eq_self _ _).symm) rfl
    (moves_refl _ _) ha.pages hi.toFits

include ho

/-- The end of `growproc`, from the size that the change of the space has returned. -/
theorem grown_moved {r : ℕ} (ho1 : Owns lay w1 h1 L1) (ha : Alone w h L w1 h1 L1)
    (hmove : Moves h S.In h1 T.In)
    (hf : Fits lay h1 { (w.proc p).body with sz := if r = 0 then (w.proc p).body.sz else r } T) :
    wp (handle lay p) (if r = 0 then pure (-1) else setSz p r >>= fun _ => switchuvm >>= fun _ => pure 0)
      (fun _ w' => Changes lay w h S L p w') (fun _ => False) w1 := by
  have hproc := alone_proc ha
  split_ifs with h0
  · rw [if_pos h0] at hf
    exact space_moved hi hp ho1 (hproc.trans (update_eq_self _ _).symm) rfl hmove ha.pages hf
  · rw [if_neg h0] at hf
    refine sized_spec (image_process hi ho) hproc (space_moved (b := { (w.proc p).body with sz := r }) hi hp
      (owns_congr ho1 rfl rfl) ?_ rfl hmove ha.pages hf)
    simp only [World.sized, World.setBody, World.setProc, hproc]

theorem growproc_moved (m : BitVec 32) :
    wp (handle lay p) (growproc m) (fun _ w' => Changes lay w h S L p w') (fun _ => False) w := by
  have hsz := hi.size
  refine wp_command (c := .me) rfl (wp_command (c := .proc p) rfl ?_)
  rw [← hi.dir]
  split
  · refine wp_lift (alloc_spec hi.sound (Nat.le_of_lt hsz) hi.below) ho (fun _ => id) ?_
    rintro r w1 h1 L1 ⟨T,hs,hmove,hall,-⟩ ho1 ha
    have hr : (w.proc p).body.sz ≤ (if r = 0 then (w.proc p).body.sz else r) ∧
        (if r = 0 then (w.proc p).body.sz else r) < KERNBASE := by
      rcases hall with ⟨-,hr⟩ | ⟨-,hr,hle,hlt⟩ <;> split <;> omega
    refine grown_moved hi hp ho ho1 ha hmove
      ⟨hs,allocated_kernel hall hi.kernel,(allocated_dir hall).trans hi.dir,
      fun i j hi' hp' => ?_,hr.2⟩
    rcases hall with ⟨hsame,-⟩ | ⟨hg,rfl,-⟩
    · rw [hsame.pte] at hp'
      exact Nat.lt_of_lt_of_le (hi.below i j hi' hp') hr.1
    · by_contra hge
      rw [(hg.same i j fun hin => hge (by dsimp only; split <;> omega)).1] at hp'
      exact hge (Nat.lt_of_lt_of_le (hi.below i j hi' hp') hr.1)
  · split
    · by_cases hle : (w.proc p).body.sz ≤ ((w.proc p).body.sz+m.toNat)%WORD
      · rw [deallocuvm, if_pos hle, lift_pure]
        refine grown_moved hi hp ho ho (alone_refl w h L) (moves_refl _ _) ?_
        rw [ite_self]
        exact hi.toFits
      · have hlt := Nat.lt_of_not_le hle
        refine wp_lift (dealloc_spec hi.sound (Nat.le_of_lt hsz) hlt) ho (fun _ => id) ?_
        rintro r w1 h1 L1 ⟨rfl,T,hs,⟨hdir,htab,-,hpte⟩,hmove⟩ ho1 ha
        refine grown_moved hi hp ho ho1 ha hmove
          ⟨hs,kernel_same hi.kernel (fun i j hi' => ?_) fun i _ => by rw [htab],
          hdir.trans hi.dir,fun i j hi' hp' => ?_,?_⟩
        · have := (addr_bounds i j).2.2
          rw [hpte, if_neg (by omega)]
        · rw [hpte] at hp'
          split at hp'
          · exact absurd hp' not_has_zero
          · have := hi.below i j hi' hp'
            dsimp only
            split <;> omega
        · dsimp only
          split <;> omega
    · refine sized_spec (image_process hi ho) rfl
        (space_moved hi hp (owns_congr ho rfl rfl) rfl rfl (moves_refl _ _)
        (fun _ => Iff.rfl) hi.toFits)

-- else Lean runs the programs to see what kind of statement a `wp` is
attribute [local irreducible] wp

theorem exec_moved {path : List UInt8} {argv : List (List UInt8)} (hpass : Passed w path argv) :
    wp (handle lay p) (exec lay path argv) (fun _ w' => Changes lay w h S L p w') (fun _ => True) w := by
  refine wp_mono (exec_spec path argv (image_process hi ho) hpass.1 hpass.2.1) ?_ fun _ _ => trivial
  rintro r w' (⟨-,-,L',ho',ha⟩ | ⟨-,w1,h1,S1,sz,entry,h',T,L',sp,hc⟩)
  · exact same_moved hi hp ho' ha
  · exact space_moved hi hp hc.owns hc.proc rfl hc.moves hc.pages
      ⟨hc.sound,hc.kernel,rfl,exact_below hc.stacked.exact,hc.stacked.size⟩

end Space

theorem fork_spec {A : Terms} {P : Space} {b : Body} (hP : Fits lay h b P)
    (hA : (∀ i j, i.val < 512 → addr i j < b.sz → has (P.pte i j) PTE_P = true) ∨
      A.panic .copyuvmExist ∧ A.panic .copyuvmPresent) :
    Does lay A (forkPages lay b.pgdir b.sz) (fun o h' =>
      ((o = none ∨ o = some (0,0)) ∧ h' = h ∧ Scarce A h (fun _ => False) (room b.sz+1)) ∨
      ∃ k T, o = some (k,T.dir) ∧ T.dir ≠ 0 ∧ Image lay h' { b with kstack := k, pgdir := T.dir } T ∧
        Moves h (fun _ => False) h' (fun v => T.In v ∨ v = k)) h := by
  rw [forkPages, ← hP.dir]
  refine does_bind (does_kalloc (fun hfail => ?_) fun k x hk hnone hpage => ?_)
  · rw [if_pos rfl]
    exact does_pure (.inl ⟨.inl rfl,rfl,h,_,hfail,moves_refl h _,[],Nat.zero_le _,fun _ => False.elim⟩)
  · rw [if_neg hk]
    have htaken := moves_alloc (x := x) hnone fun _ => False
    refine does_seq (copy_spec (sound_outside hP.sound hpage (sound_out hP.sound hnone))
      (Nat.le_of_lt hP.size) hA) ?_
    rintro d h' (⟨rfl,rfl,g,R,hfail,hmove,hsmall⟩ | ⟨hd,T,rfl,hs,hkT,he,-,hmove⟩)
    · rw [if_pos rfl]
      refine does_bind (does_kfree (update_self _ _ _) (does_pure (.inl ⟨.inr rfl,?_,?_⟩)))
      · rw [Function.update_idem, ← hnone, update_eq_self]
      · exact ⟨g,_,hfail,moves_trans htaken (moves_grow hmove fun u => u = k),atMost_cons hsmall⟩
    · rw [if_neg hd]
      have hheld : update h k (some x) k ≠ none := by
        rw [update_self]
        exact Option.some_ne_none x
      obtain ⟨hk',hout⟩ := moves_keep (v := k) hmove hheld id
      refine does_pure (.inr ⟨k,T,rfl,hd,⟨⟨hs,hkT,rfl,exact_below he,hP.size⟩,?_,hout⟩,
        moves_trans htaken (moves_grow hmove fun u => u = k)⟩)
      rw [hk']
      exact hheld

theorem reap_spec {A : Terms} {b : Body} (hi : Image lay h b T) : Does lay A (reapPages b.kstack b.pgdir)
    (fun _ h' => Moves h (fun v => T.In v ∨ v = b.kstack) h' (fun _ => False)) h := by
  cases hx : h b.kstack with
  | none => exact absurd hx hi.held
  | some x =>
    rw [← hi.dir]
    refine does_bind (does_kfree hx
      (does_mono (freevm_spec (sound_drop hi.sound hi.out)) fun _ h' hmove => ?_))
    exact moves_trans (moves_free hi.out) hmove

theorem no_region (hx : x.state = .unused) (v : ℕ) : False ↔ Region x T v := ⟨False.elim,fun hv => hv.1 hx⟩

theorem fork_moved (hh : Held lay w h S L) (hp : (w.proc p).state ≠ .unused)
    (hq : (w.proc q).state = .unused) (pid : ℤ)
    {o : Option (ℕ × ℕ)}
    (hrun : run (handleMem lay) (forkPages lay (w.proc p).body.pgdir (w.proc p).body.sz) w = .ok (o,w1)) :
    Changes lay w h (S q) L q (w1.setProc q (newborn w p q pid o)) := by
  have hfork :=
    does_alone (fork_spec (A := ⟨fun _ => True,fun _ => True⟩) (hh.image hp).toFits
      (.inr ⟨trivial,trivial⟩)) hh.owns
    fun _ _ _ => trivial
  rw [wp, hrun] at hfork
  obtain ⟨h1,L1,hout,ho,ha⟩ := hfork
  have hproc : ∀ x r, (w1.setProc q x).proc r =
    { update w.proc q x r with parent := ((w1.setProc q x).proc r).parent } :=
    fun x r => by rw [World.setProc, alone_proc ha]
  rcases hout with ⟨hnone,rfl,-⟩ | ⟨k,T,rfl,hd,hi,hmove⟩
  · have hx : (newborn w p q pid o).state = .unused := by
      rcases hnone with rfl | rfl <;> exact hq
    exact ⟨h1,S q,L1,_,owns_congr ho rfl rfl,hproc _,
      moves_congr (moves_refl h1 fun _ => False) (no_region hq) (no_region hx),
      fun hne => absurd hx hne,ha.pages⟩
  · have hx : newborn w p q pid (some (k,T.dir)) =
      ⟨.live,pid,some p,{ (w.proc p).body with kstack := k, pgdir := T.dir }⟩ :=
      if_neg hd
    rw [hx]
    exact ⟨h1,T,L1,_,owns_congr ho rfl rfl,hproc _,moves_congr hmove (no_region hq)
      fun v => (and_iff_right (by simp)).symm,fun _ => hi,ha.pages⟩

theorem wait_moved (hh : Held lay w h S L) (hq : (w.proc q).state ≠ .unused)
    (hx : x.state = .unused) {u : Unit}
    (hrun : run (handleMem lay) (reapPages (w.proc q).body.kstack (w.proc q).body.pgdir) w = .ok (u,w1)) :
    Changes lay w h (S q) L q (w1.setProc q x) := by
  have hreap := does_alone (reap_spec (A := calm) (hh.image hq)) hh.owns fun _ _ _ => trivial
  rw [wp, hrun] at hreap
  obtain ⟨h1,L1,hmove,ho,ha⟩ := hreap
  exact ⟨h1,S q,L1,x,owns_congr ho rfl rfl,fun r => by rw [World.setProc, alone_proc ha],
    moves_congr hmove (fun v => (and_iff_right hq).symm) (no_region hx),fun hne => absurd hx hne,ha.pages⟩

section Memory
variable (hh : Held lay w h S L) (hp : (w.proc p).state ≠ .unused)
include hh hp

theorem held_pte (va : ℕ) : pteAt w.mem (w.proc p).body.pgdir va = (S p).pte (PDX va) (PTX va) ∧
    pageAt w.mem (w.proc p).body.pgdir va = frame ((S p).pte (PDX va) (PTX va)) := by
  have hmem : ∀ {v f}, h v = some f → w.mem v = f := fun hv => (hh.owns.stored hv).1
  rw [← (hh.image hp).dir]
  exact ⟨pteAt_space hmem (hh.image hp).sound,pageAt_space hmem (hh.image hp).sound⟩

theorem place_region {va : Option ℕ} (hv : place w p va = some v) :
    Region (w.proc p) (S p) v ∧ ∃ T, Sound lay (update h v (some f)) T ∧ T.dir = (S p).dir ∧
    T.tab = (S p).tab ∧
      T.pte = (S p).pte := by
  have hi := hh.image hp
  cases va with
  | none =>
    obtain rfl := Option.some.inj hv
    cases hx : h (w.proc p).body.kstack with
    | none => exact absurd hx hi.held
    | some x => exact ⟨⟨hp,.inr rfl⟩,S p,sound_outside hi.sound (hi.sound.valid hx) hi.out,rfl,rfl,rfl⟩
  | some va =>
    obtain ⟨⟨hlow,hpres⟩,hc⟩ := Option.ite_none_right_eq_some.mp hv
    obtain rfl := Option.some.inj hc
    rw [(held_pte hh hp va).1] at hpres
    rw [(held_pte hh hp va).2]
    exact ⟨⟨hp,.inl ⟨.user _ _,pdx_user hlow,hpres,rfl⟩⟩,_,sound_fill hi.sound (pdx_user hlow) hpres,
      rfl,rfl,rfl⟩

theorem store_moved {va : Option ℕ} (hv : place w p va = some v) :
    Changes lay w h (S p) L p (w.setMem v f) := by
  obtain ⟨hr,T,hs,hdir,htab,hpte⟩ := place_region (f := f) hh hp hv
  have hi := hh.image hp
  have hin : T.In = (S p).In := by
    funext u
    refine propext (exists_congr fun a => ?_)
    cases a <;> simp only [Space.At, hdir, htab, hpte]
  cases hx : h v with
  | none => exact absurd hx (region_held hh hr)
  | some x =>
    obtain ⟨ho,ha⟩ := owns_write (f := f) hh.owns hx
    have hmove : Moves h (Region (w.proc p) (S p)) (update h v (some f)) (Region (w.proc p) (S p)) :=
      moves_write hr
    refine ⟨_,T,L,w.proc p,ho,fun r => by rw [update_eq_self]; rfl,?_,
      fun _ => ⟨⟨hs,?_,hdir.trans hi.dir,?_,hi.size⟩,?_,?_⟩,ha.pages⟩
    · unfold Region at hmove ⊢
      rw [hin]
      exact hmove
    · exact kernel_same hi.kernel (fun i j _ => by rw [hpte]) fun i _ => by rw [htab]
    · intro i j hlow hpres
      rw [hpte] at hpres
      exact hi.below i j hlow hpres
    · by_cases hkv : (w.proc p).body.kstack = v
      · rw [hkv, update_self]
        exact Option.some_ne_none f
      · rw [update_of_ne hkv]
        exact hi.held
    · rw [hin]
      exact hi.out

end Memory

theorem outcome {α : Type} {y : Except Stop (α × World n)} {g : α × World n → World n}
    (hy : y.toOption.map g = some w') : ∃ a w1, y = .ok (a,w1) ∧ g (a,w1) = w' := by
  cases y with
  | error e => cases hy
  | ok y => exact ⟨y.1,y.2,rfl,Option.some.inj hy⟩

theorem step_changes (hh : Held lay w h S L) {c : Call n} (hc : step lay w c = some w') :
    Changes lay w h (S c.subject) L c.subject w' := by
  have hlive : ∀ {p : Fin n}, (w.proc p).state = .live → (w.proc p).state ≠ .unused := fun hp => by
    rw [hp]
    decide
  cases c with
  | sbrk p m =>
    obtain ⟨hp,hc⟩ := Option.ite_none_right_eq_some.mp hc
    obtain ⟨r,w1,hrun,rfl⟩ := outcome hc
    have hspec : wp (handle lay p) (sysSbrk m) (fun _ w' => Changes lay w h (S p) L p w')
      (fun _ => False) w := by
      refine wp_command (c := .me) rfl (wp_command (c := .proc p) rfl
        (wp_then (growproc_moved (hh.image (hlive hp)) (hlive hp) hh.owns m) fun g w' hg => ?_))
      split <;> exact hg
    rw [wp, hrun] at hspec
    exact hspec
  | exec p path argv =>
    obtain ⟨⟨hp,hpass⟩,hc⟩ := Option.ite_none_right_eq_some.mp hc
    obtain ⟨r,w1,hrun,rfl⟩ := outcome hc
    have hspec := exec_moved (hh.image (hlive hp)) (hlive hp) hh.owns hpass
    rw [wp, hrun] at hspec
    exact hspec
  | fork p q pid =>
    obtain ⟨⟨hp,hq⟩,hc⟩ := Option.ite_none_right_eq_some.mp hc
    obtain ⟨o,w1,hrun,rfl⟩ := outcome hc
    exact fork_moved hh (hlive hp) hq pid hrun
  | exit p init =>
    obtain ⟨⟨hp,-⟩,hc⟩ := Option.ite_none_right_eq_some.mp hc
    obtain rfl := Option.some.inj hc
    refine ⟨h,S p,L,{ w.proc p with state := .zombie },owns_congr hh.owns rfl rfl,fun r => ?_,moves_congr
      (moves_refl h (Region (w.proc p) (S p))) (fun _ => Iff.rfl) fun v =>
      and_congr_left' (iff_of_true (hlive hp) (by simp)),
      fun _ => hh.image (hlive hp),fun _ => Iff.rfl⟩
    by_cases hr : r = p
    · subst hr
      simp only [World.setProc, adopt, Call.subject, update_self]
      split <;> rfl
    · simp only [World.setProc, adopt, Call.subject, update_of_ne hr]
      split <;> rfl
  | wait q =>
    obtain ⟨hq,hc⟩ := Option.ite_none_right_eq_some.mp hc
    obtain ⟨u,w1,hrun,rfl⟩ := outcome hc
    exact wait_moved hh (by simp [Call.subject, hq]) rfl hrun
  | store p va f =>
    obtain ⟨hp,hc⟩ := Option.ite_none_right_eq_some.mp hc
    obtain ⟨v,hv,rfl⟩ := Option.map_eq_some_iff.mp hc
    exact store_moved hh (hlive hp) hv

theorem calls_held {l : List (Call n)} (hh : Held lay w h S L) (hr : l.foldlM (step lay) w = some w') :
    ∃ h' S' L', Held lay w' h' S' L' ∧ SamePages h L h' L' := by
  induction l generalizing w h S L with
  | nil =>
    cases hr
    exact ⟨h,S,L,hh,fun _ => Iff.rfl⟩
  | cons c l ih =>
    rw [List.foldlM_cons] at hr
    obtain ⟨w1,hc,hr⟩ := Option.bind_eq_some_iff.mp hr
    obtain ⟨h1,T,L1,x,hm⟩ := step_changes hh hc
    obtain ⟨h',S',L',hh',hpages⟩ := ih (held_moved hh hm) hr
    exact ⟨h',S',L',hh',fun v => (hpages v).trans (hm.pages v)⟩

/-- The page is the page directory of a process, one of its page tables, a page of its memory
or its kernel stack, by the words in memory. -/
def Uses (w : World n) (q : Fin n) (v : ℕ) : Prop :=
  (w.proc q).state ≠ .unused ∧ (v = (w.proc q).body.pgdir ∨ (∃ va, place w q va = some v) ∨
    ∃ i, has (w.mem (w.proc q).body.pgdir i) PTE_P = true ∧
    v = P2V (PTE_ADDR (w.mem (w.proc q).body.pgdir i)))

theorem uses_region (hh : Held lay w h S L) : Uses w q v ↔ Region (w.proc q) (S q) v := by
  refine and_congr_right fun hq => ?_
  have hi := hh.image hq
  have hdir : w.mem (w.proc q).body.pgdir = (S q).pde := by
    rw [← hi.dir]
    exact (hh.owns.stored hi.sound.dir).1
  rw [hdir, ← hi.dir]
  constructor
  · rintro (hv | ⟨va,hv⟩ | ⟨i,hp,hv⟩)
    · exact .inl ⟨.dir,hv⟩
    · exact (place_region (f := fun _ => 0) hh hq hv).1.2
    · cases ht : (S q).tab i with
      | none =>
        rw [pde_none ht] at hp
        cases hp
      | some t => exact .inl ⟨.table i,by rw [hv, (pde_some hi.sound ht).2]; exact ht⟩
  · rintro (⟨a,ha⟩ | rfl)
    · cases a with
      | dir => exact .inl ha
      | table i => exact .inr (.inr ⟨i,(pde_some hi.sound ha).1,(pde_some hi.sound ha).2.symm⟩)
      | user i j =>
        obtain ⟨hlow,hpres,rfl⟩ := ha
        have hpte := held_pte hh hq (addr i j)
        rw [pdx_addr, ptx_addr] at hpte
        refine .inr (.inl ⟨some (addr i j),?_⟩)
        rw [place, hpte.1, hpte.2, if_pos ⟨(addr_bounds i j).2.2.mpr hlow,hpres⟩]
    · exact .inr (.inl ⟨none,rfl⟩)

/-- After any calls each of the pages is free, and on the list once, or one process uses it. -/
theorem each_page_one_owner {l : List (Call n)} (hh : Held lay w h S L)
    (hr : l.foldlM (step lay) w = some w') :
    ∃ L', Chain w'.mem w'.freelist L' ∧ L'.Nodup ∧ ∀ v, v ∈ L ∨ (∃ q, Uses w q v) ↔
      (v ∈ L' ∧ ∀ q, ¬Uses w' q v) ∨ (v ∉ L' ∧ ∃! q, Uses w' q v) := by
  obtain ⟨h',S',L',hh',hpages⟩ := calls_held hh hr
  have hown : ∀ {w : World n} {h S L v}, Held lay w h S L → (h v ≠ none ↔ ∃ q, Uses w q v) := fun hh =>
    ⟨fun hv => (hh.whole hv).imp fun q => (uses_region hh).mpr,
    fun hu => hu.elim fun q hq => region_held hh ((uses_region hh).mp hq)⟩
  refine ⟨L',hh'.owns.chain,hh'.owns.nodup,fun v => ?_⟩
  rw [or_comm, ← hown hh, ← hpages v]
  by_cases hv : v ∈ L'
  · have hnone := (hh'.owns.free hv).2
    exact iff_of_true (.inr hv) (.inl ⟨hv,fun q hq => (hown hh').mpr ⟨q,hq⟩ hnone⟩)
  · simp only [hv, or_false, false_and, false_or, not_false_eq_true, true_and, hown hh']
    refine ⟨fun hu => hu.imp fun q hq => ⟨hq,fun r hr => ?_⟩,fun hq => hq.exists⟩
    exact hh'.apart ((uses_region hh').mp hr) ((uses_region hh').mp hq)

/-- After any calls, one more changes no page of a process that it is not about, and of the process
at most who its parent is. -/
theorem others_untouched {l : List (Call n)} (hh : Held lay w h S L) (hr : l.foldlM (step lay) w = some w1)
    {c : Call n} (hc : step lay w1 c = some w') (hq : q ≠ c.subject) :
    w'.proc q = { w1.proc q with parent := (w'.proc q).parent } ∧ ∀ v, Uses w1 q v →
    Uses w' q v ∧ w'.mem v = w1.mem v := by
  obtain ⟨h1,S1,L1,hh1,-⟩ := calls_held hh hr
  obtain ⟨h',T,L',x,hm⟩ := step_changes hh1 hc
  have hproc := hm.proc q
  rw [update_of_ne hq] at hproc
  refine ⟨hproc,fun v hv => ⟨(uses_region (held_moved hh1 hm)).mpr ?_,?_⟩⟩ <;> rw [uses_region hh1] at hv
  · rw [hproc, update_of_ne hq]
    exact hv
  · cases hx : h1 v with
    | none => exact absurd hx (region_held hh1 hv)
    | some f => rw [(hh1.owns.stored hx).1, (hm.owns.stored ((moved_keep hh1 hm hq hv).1.trans hx)).1]

/-- After any calls the translations above KERNBASE are those of `kmap`, and not for the user. -/
theorem kernel_half_kept {l : List (Call n)} (hh : Held lay w h S L) (hr : l.foldlM (step lay) w = some w')
    (hq : (w'.proc q).state ≠ .unused) {va : ℕ} (hlow : KERNBASE ≤ va) (hva : va < WORD) :
    pteAt w'.mem (w'.proc q).body.pgdir va = prescribed (kmap lay) (PGROUNDDOWN va) ∧
      has (pteAt w'.mem (w'.proc q).body.pgdir va) PTE_U = false := by
  obtain ⟨h',S',L',hh',-⟩ := calls_held hh hr
  have hk := (hh'.image hq).kernel
  rw [(held_pte hh' hq va).1, ← addr_down hva]
  exact ⟨hk.entry _ _ (pdx_kernel hlow hva),kernel_no_user hk (pdx_kernel hlow hva)⟩

section Sample
variable {mem : ℕ → Words} {f k sz : ℕ} {T : Space}

theorem fork_lives (pid : ℤ) (hh : Held lay w h S L) (hp : (w.proc p).state = .live)
    (hq : (w.proc q).state = .unused)
    (he : Exact (S p) (w.proc p).body.sz) (hshort : ¬Short w L (room (w.proc p).body.sz+1)) :
    ∃ w', step lay w (.fork p q pid) = some w' ∧ (w'.proc q).state = .live := by
  have hi := hh.image (q := p) (by rw [hp]; decide)
  have hfork :=
    does_alone (fork_spec (A := ⟨fun _ => False,Denied w h L⟩) hi.toFits
      (.inl fun i j hlow => (he i j hlow).mpr))
    hh.owns fun _ _ => id
  obtain ⟨o,w1,hrun,h1,L1,⟨-,-,hscarce⟩ | ⟨k,T,rfl,hd,-⟩,-⟩ :=
    wp_result (wp_mono hfork (fun _ _ => id) fun e he => by
    obtain ⟨msg,-,h0⟩ := he
    exact h0)
  · exact absurd (scarce_short hh.owns hscarce fun _ => id) hshort
  · refine ⟨_,by rw [step, if_pos ⟨hp,hq⟩, hrun]; rfl,?_⟩
    simp only [World.setProc, update_self, newborn, if_neg hd]

theorem wait_reaps (hh : Held lay w h S L) (hq : (w.proc q).state = .zombie) :
    ∃ w', step lay w (.wait q) = some w' := by
  have hreap :=
    does_alone (reap_spec (A := calm) (hh.image (q := q) (by rw [hq]; decide))) hh.owns fun _ _ _ => trivial
  obtain ⟨u,w1,hrun,-⟩ := wp_result (wp_mono hreap (fun _ _ => id) fun e he => by
    obtain ⟨msg,-,h0⟩ := he
    exact h0)
  exact ⟨_,by rw [step, if_pos hq, hrun]; rfl⟩

abbrev first : Fin 2 := ⟨0,Nat.two_pos⟩
abbrev second : Fin 2 := ⟨1,Nat.one_lt_two⟩

/-- One process and an unused slot. -/
def pair (mem : ℕ → Words) (f k d sz : ℕ) : World 2 where
  mem := mem
  freelist := f
  fails := fun _ => false
  asked := 0
  proc := fun q => if q.val = 0 then ⟨.live,1,none,⟨k,d,sz,0,0,[]⟩⟩ else ⟨.unused,0,none,⟨0,0,0,0,0,[]⟩⟩
  fs := noFiles

theorem pair_held (hb : Booted mem f k h T L sz) (hsz : sz < KERNBASE) :
    Held layout (pair mem f k T.dir sz) h (fun _ => T) L := by
  have hzero : ∀ {q : Fin 2}, ((pair mem f k T.dir sz).proc q).state ≠ .unused → q = first := fun {q} hq => by
    by_contra hne
    exact hq (congrArg Proc.state (if_neg fun h0 => hne (Fin.ext h0)))
  refine ⟨hb.owns _ rfl rfl,fun hq => ?_,fun hq hr => (hzero hq.1).trans (hzero hr.1).symm,
    fun hv => ⟨first,(fun h0 : ProcState.live = .unused => by cases h0),hb.whole hv⟩⟩
  obtain rfl := hzero hq
  exact ⟨⟨hb.sound,hb.kernel,rfl,exact_below hb.exact,hsz⟩,hb.stack.2.1,hb.stack.2.2⟩

/-- A process of two pages forks. -/
theorem pair_forks : ∃ w h S L w', Held layout w h S L ∧ (w.proc first).body.sz = 8192 ∧
    step layout w (.fork first second 2) = some w' ∧ (w'.proc second).state = .live := by
  obtain ⟨mem,f,k,h,T,L,hb⟩ := two_pages
  have hh := pair_held hb (by decide)
  have hleft := hb.left
  obtain ⟨w',hc,hlive⟩ :=
    fork_lives (p := first) (q := second) 2 hh rfl rfl hb.exact (not_short (fun _ => rfl) (by
    show room 8192+1 < L.length
    simp only [room, PGSIZE] at hleft ⊢
    omega))
  exact ⟨_,h,_,L,w',hh,rfl,hc,hlive⟩

/-- The child exits and is reaped. -/
theorem each_page_one_owner_reaped : ∃ w h S L w', Held layout w h S L ∧ (w.proc first).body.sz = 8192 ∧
    [Call.fork first second 2,.exit second first,.wait second].foldlM (step layout) w = some w' ∧
    ∃ L', Chain w'.mem w'.freelist L' ∧ L'.Nodup ∧ ∀ v, v ∈ L ∨ (∃ q, Uses w q v) ↔
      (v ∈ L' ∧ ∀ q, ¬Uses w' q v) ∨ (v ∉ L' ∧ ∃! q, Uses w' q v) := by
  obtain ⟨w,h,S,L,w1,hh,hsz,hc1,hlive⟩ := pair_forks
  obtain ⟨h1,S1,L1,hh1,-⟩ := calls_held (l := [.fork first second 2]) hh (by rw [List.foldlM_cons, hc1]; rfl)
  obtain ⟨w2,hc2,hzombie⟩ : ∃ w2, step layout w1 (.exit second first) = some w2 ∧
    (w2.proc second).state = .zombie := by
    refine ⟨_,if_pos ⟨hlive,by decide⟩,?_⟩
    simp only [World.setProc, update_self]
  obtain ⟨h2,S2,L2,hh2,-⟩ := calls_held (l := [.exit second first]) hh1 (by rw [List.foldlM_cons, hc2]; rfl)
  obtain ⟨w3,hc3⟩ := wait_reaps hh2 hzombie
  have hrun : [Call.fork first second 2,.exit second first,.wait second].foldlM (step layout) w =
    some w3 := by
    rw [List.foldlM_cons, hc1, Option.bind_eq_bind, Option.bind_some, List.foldlM_cons, hc2,
      Option.bind_eq_bind,
      Option.bind_some, List.foldlM_cons, hc3]
    rfl
  exact ⟨w,h,S,L,w3,hh,hsz,hrun,each_page_one_owner hh hrun⟩

theorem others_untouched_fork : ∃ w w', (w.proc first).body.sz = 8192 ∧
    step layout w (.fork first second 2) = some w' ∧ (w'.proc second).state = .live ∧
    w'.proc first = { w.proc first with parent := (w'.proc first).parent } ∧
      ∀ v, Uses w first v → Uses w' first v ∧ w'.mem v = w.mem v := by
  obtain ⟨w,h,S,L,w',hh,hsz,hc,hlive⟩ := pair_forks
  exact ⟨w,w',hsz,hc,hlive,others_untouched (l := []) hh rfl hc (by decide)⟩

theorem kernel_half_kept_fork :
    ∃ w w', step layout w (.fork first second 2) = some w' ∧ (w'.proc second).state = .live ∧
    pteAt w'.mem (w'.proc second).body.pgdir KERNBASE = prescribed (kmap layout) (PGROUNDDOWN KERNBASE) ∧
      has (pteAt w'.mem (w'.proc second).body.pgdir KERNBASE) PTE_U = false := by
  obtain ⟨w,h,S,L,w',hh,-,hc,hlive⟩ := pair_forks
  exact ⟨w,w',hc,hlive,kernel_half_kept (l := [.fork first second 2]) hh (by rw [List.foldlM_cons, hc]; rfl)
    (by rw [hlive]; decide) (by decide) (by decide)⟩

end Sample

end Xv6.VmProcesses

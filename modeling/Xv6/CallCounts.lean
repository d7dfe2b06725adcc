import Xv6.ProcIdentity

/-!
# The call counters of every process

The counters `p->counter[k]` beside the process machine: `syscall()` counts a call in
the counter of its caller, `allocproc` clears the counters of the slot it takes, and
`getcallcount` reads the caller's. A call of a number that proc.c implements goes on in
the process machine; any other call is kernel code outside proc.c until it returns.
-/

set_option autoImplicit false

namespace Xv6.CallCounts
open ProcTable ProcMachine TransitionSystem ProcIdentity
open ProcInvariant (Coherent coherent_run)
open Function (update update_self update_of_ne)

abbrev Word := BitVec 32

abbrev NCOUNTER : ℕ := 100

abbrev Num := Fin NCOUNTER

abbrev Counters := Num → Word

local instance : @NeZero ℕ Zero.ofOfNat0 NCOUNTER := ⟨by decide⟩

abbrev SYSFork : Num := 1
abbrev SYSExit : Num := 2
abbrev SYSWait : Num := 3
abbrev SYSKill : Num := 6
abbrev SYSExec : Num := 7
abbrev SYSGetcallcount : Num := 24
abbrev SYSWaitforprocess : Num := 26

/-- The loop of `allocproc` over the counters from `i` on. -/
def clearLoop (t : Counters) : List Num → Counters
  | [] => t
  | i::is => clearLoop (update t i 0) is

def bump (t : Counters) (num : Num) : Counters := update t num (t num+1)

/-- Field `call` is the number of the call a process is in. -/
structure Kernel (n : ℕ) where
  procs : State n
  counter : Slot → Counters
  call : Slot → Option Num

inductive Label (n : ℕ) where
  | act (c : Fin n) (a : Act)
  | trap (c : Fin n) (num : Num) (arg : Option Pid)
  | exec (c : Fin n)
  | getcallcount (c : Fin n) (syscallid : Num)
  | ret (c : Fin n)
  | die (c : Fin n)

inductive Event where
  | seen (o : Obs)
  | entered (b : ℕ) (num : Num)
  | execed (b : ℕ)
  | counted (b : ℕ) (syscallid : Num) (v : Word)
  deriving DecidableEq

variable {n : ℕ}

def allocated (s : State n) (c : Fin n) (a : Act) : Option Slot :=
  match s.cpu c, a with
  | .run i, .go _ => if (s.thread i).sw = none ∧ (s.thread i).pc = .fork then freeSlot s.proc else none
  | _, _ => none

/-- The calls implemented in proc.c; `kill` and `waitforprocess` get this far only if
their argument can be fetched. -/
def syscalls (num : Num) (arg : Option Pid) : Option Syscall :=
  if num = SYSFork then some .fork
  else if num = SYSExit then some .exit
  else if num = SYSWait then some .wait
  else if num = SYSKill then arg.map .kill
  else if num = SYSWaitforprocess then arg.map .waitForProcess
  else none

def outside (s : Kernel n) (c : Fin n) : Option Slot :=
  match s.procs.cpu c with
  | .run i => if (s.procs.thread i).sw = none ∧ (s.procs.thread i).pc = .user then some i else none
  | _ => none

def userMode (s : Kernel n) (c : Fin n) : Option Slot := (outside s c).filter (fun i => s.call i = none)

def inCall (s : Kernel n) (c : Fin n) (num : Num) : Option Slot :=
  (outside s c).filter (fun i => s.call i = some num)

def Kernel.setCall (s : Kernel n) (i : Slot) (x : Option Num) : Kernel n :=
  { s with call := update s.call i x }

/-- What `syscall()` does before the call itself. -/
def count (s : Kernel n) (i : Slot) (num : Num) : Kernel n :=
  { s with counter := update s.counter i (bump (s.counter i) num) }.setCall i (some num)

/-- A step of the process machine; `allocproc` clears the counters of its slot. -/
def actStep (s : Kernel n) (c : Fin n) (a : Act) : Option (Kernel n × List Event) :=
  (ProcMachine.step s.procs (c,a)).map (fun r => match allocated s.procs c a with
    | none => ({ s with procs := r.1 },r.2.map .seen)
    | some np => ({ s with
        procs := r.1,
        counter := update s.counter np (clearLoop (s.counter np) (List.finRange NCOUNTER)) }.setCall np none,
        r.2.map .seen))

def trapStep (s : Kernel n) (c : Fin n) (i : Slot) (num : Num) (arg : Option Pid) :
    Option (Kernel n × List Event) :=
  match syscalls num arg with
  | none => some (count s i num,[.entered (s.procs.proc i).birth num])
  | some k => (ProcMachine.step s.procs (c,.call k)).map (fun r =>
      ({ count s i num with procs := r.1 },[.entered (s.procs.proc i).birth num]))

def step (s : Kernel n) : Label n → Option (Kernel n × List Event)
  | .act c a => match a with
    | .call _ => none
    | .fault => if userMode s c = none then none else actStep s c a
    | _ => actStep s c a
  | .trap c num arg => match userMode s c with
    | none => none
    | some i => if (s.procs.proc i).killed then none else trapStep s c i num arg
  | .exec c => (inCall s c SYSExec).map (fun i => (s.setCall i none,[.execed (s.procs.proc i).birth]))
  | .getcallcount c syscallid => (inCall s c SYSGetcallcount).map (fun i =>
      (s.setCall i none,[.counted (s.procs.proc i).birth syscallid (s.counter i syscallid)]))
  | .ret c => (outside s c).map (fun i => (s.setCall i none,[]))
  | .die c => match userMode s c with
    | none => none
    | some i => if (s.procs.proc i).killed then actStep s c (.call .exit) else none

def machine (n : ℕ) : System (Kernel n) (Label n) Event :=
  ⟨⟨boot n,fun _ _ => 0,fun _ => none⟩,step⟩

theorem clear_loop_zero (t : Counters) (ks : List Num) (k : Num) :
    clearLoop t ks k = if k ∈ ks then 0 else t k := by
  induction ks generalizing t with
  | nil => simp [clearLoop]
  | cons i is ih =>
    rw [clearLoop, ih]
    by_cases hi : k = i <;> simp [hi]

variable {s s' : Kernel n} {tr : List Event} {c : Fin n} {o : List Event} {a : Act} {i : Slot}

theorem outside_run {s : Kernel n} (h : outside s c = some i) :
    s.procs.cpu c = .run i ∧ (s.procs.thread i).sw = none ∧ (s.procs.thread i).pc = .user := by
  unfold outside at h
  split at h
  · rename_i j hcpu
    split at h
    · rename_i hj
      cases h
      exact ⟨hcpu,hj⟩
    · cases h
  · cases h

theorem allocated_fork {s : State n} {np : Slot} (h : allocated s c a = some np) :
    ∃ i ok, s.cpu c = .run i ∧ a = .go ok ∧ (s.thread i).sw = none ∧ (s.thread i).pc = .fork ∧
      freeSlot s.proc = some np := by
  unfold allocated at h
  split at h
  · rename_i i ok hcpu
    split at h
    · rename_i hi
      exact ⟨i,ok,hcpu,rfl,hi.1,hi.2,h⟩
    · cases h
  · cases h

theorem allocated_embryo {s s' : State n} {o : List Obs} {np : Slot}
    (ha : allocated s c a = some np) (h : ProcMachine.step s (c,a) = some (s',o)) :
    s'.proc = embryo np s.nextpid s.proc ∧ (s.proc np).state = .UNUSED := by
  obtain ⟨i,ok,hcpu,rfl,hsw,hpc,hfree⟩ := allocated_fork ha
  have hunused : (s.proc np).state = .UNUSED := by simpa using List.find?_some hfree
  simp only [ProcMachine.step, hcpu, threadStep, hsw, kernelStep, hpc] at h
  split at h
  · simp only [allocproc, hfree, Option.some.injEq, Prod.mk.injEq] at h
    exact ⟨h.1 ▸ rfl,hunused⟩
  · cases h

theorem embryo_allocated {s s' : State n} {o : List Obs} {p : Slot}
    (h : ProcMachine.step s (c,a) = some (s',o)) (old : (s.proc p).state = .UNUSED)
    (new : (s'.proc p).state = .EMBRYO) : allocated s c a = some p := by
  cases ha : allocated s c a with
  | some np =>
    obtain ⟨hproc,-⟩ := allocated_embryo ha h
    by_cases hp : p = np
    · rw [hp]
    · rw [hproc, embryo, update_of_ne hp, old] at new
      cases new
  | none =>
    obtain ⟨-,-,-,hborn⟩ := ProcEffect.alloc_change (ProcStep.step_cases h) old new
    rw [hborn] at h
    cases ProcStep.step_cases h with
    | stay pc o run on source target seen => rcases seen with h | h | ⟨q,h,-⟩ <;> cases h
    | alloc run on pc free unused =>
      have hnone : freeSlot s.proc = none := by simpa [allocated, run, on, pc] using ha
      have hused := List.find?_eq_none.mp hnone p (mem_slots p)
      simp [old] at hused

inductive Change (s s' : Kernel n) (o : List Event) : Prop
  | idle (procs : s'.procs = s.procs) (counter : s'.counter = s.counter)
      (quiet : ∀ x, .seen x ∉ o) (uncounted : ∀ b k, .entered b k ∉ o)
  | moved (c : Fin n) (a : Act) (x : List Obs) (next : ProcMachine.step s.procs (c,a) = some (s'.procs,x))
      (counter : ∀ p k, s'.counter p k = if allocated s.procs c a = some p then 0 else s.counter p k)
      (seen : o = x.map .seen)
  | entered (c : Fin n) (i : Slot) (num : Num) (run : s.procs.cpu c = .run i)
      (next : s'.procs = s.procs ∨ ∃ a x, ProcMachine.step s.procs (c,a) = some (s'.procs,x))
      (proc : s'.procs.proc = s.procs.proc) (nextpid : s'.procs.nextpid = s.procs.nextpid)
      (counter : s'.counter = update s.counter i (bump (s.counter i) num))
      (seen : o = [.entered (s.procs.proc i).birth num])

theorem act_change
    (h : actStep s c a = some (s',o)) : Change s s' o := by
  obtain ⟨⟨procs,x⟩,hnext,heq⟩ := Option.map_eq_some_iff.mp h
  cases ha : allocated s.procs c a with
  | none =>
    simp only [ha] at heq
    cases heq
    exact .moved c a x hnext (by simp [ha]) rfl
  | some np =>
    simp only [ha] at heq
    cases heq
    refine .moved c a x hnext (fun p k => ?_) rfl
    by_cases hp : p = np
    · subst hp
      simp [Kernel.setCall, ha, clear_loop_zero]
    · have hne : some np ≠ some p := fun he => hp (Option.some.inj he).symm
      simp [Kernel.setCall, update_of_ne hp, ha, hne]

theorem user_mode_run {s : Kernel n} (h : userMode s c = some i) :
    s.procs.cpu c = .run i ∧ (s.procs.thread i).sw = none ∧ (s.procs.thread i).pc = .user :=
  outside_run (Option.filter_eq_some_iff.mp h).1

theorem trap_change {num : Num} {arg : Option Pid}
    (hi : userMode s c = some i) (h : trapStep s c i num arg = some (s',o)) :
    Change s s' o := by
  obtain ⟨hrun,hsw,hpc⟩ := user_mode_run hi
  unfold trapStep at h
  split at h
  · cases h
    exact .entered c i num hrun (.inl rfl) rfl rfl rfl rfl
  · rename_i k hk
    obtain ⟨⟨procs,x⟩,hnext,heq⟩ := Option.map_eq_some_iff.mp h
    cases heq
    have hcall : procs = trapCall s.procs i k := by
      simp only [ProcMachine.step, hrun, threadStep, hsw, hpc, if_true, Option.some.injEq,
        Prod.mk.injEq] at hnext
      exact hnext.1.symm
    refine .entered c i num hrun (.inr ⟨_,x,hnext⟩) ?_ ?_ rfl rfl
    · change procs.proc = s.procs.proc
      rw [hcall]
      rfl
    · change procs.nextpid = s.procs.nextpid
      rw [hcall]
      rfl

theorem set_call_idle {x : Option Slot} {f : Slot → List Event}
    (hquiet : ∀ i y, .seen y ∉ f i) (hf : ∀ i b k, .entered b k ∉ f i)
    (h : x.map (fun i => (s.setCall i none,f i)) = some (s',o)) : Change s s' o := by
  obtain ⟨i,-,heq⟩ := Option.map_eq_some_iff.mp h
  cases heq
  exact .idle rfl rfl (hquiet i) (hf i)

theorem step_change {l : Label n} (h : step s l = some (s',o)) :
    Change s s' o := by
  cases l with
  | act c a =>
    cases a with
    | call k => cases h
    | fault =>
      simp only [step] at h
      split at h
      · cases h
      · exact act_change h
    | sched | go | yield | sleep | wakeup => exact act_change h
  | trap c num arg =>
    simp only [step] at h
    split at h
    · cases h
    · rename_i i hi
      split at h
      · cases h
      · exact trap_change hi h
  | exec c => exact set_call_idle (by simp) (by simp) h
  | getcallcount c k => exact set_call_idle (by simp) (by simp) h
  | ret c => exact set_call_idle (by simp) (by simp) h
  | die c =>
    simp only [step] at h
    split at h
    · cases h
    · split at h
      · exact act_change h
      · cases h

theorem procs_run {s : Kernel n} (h : Run (machine n) (fun _ _ => True) tr s) :
    ∃ tr', Run (ProcMachine.machine n) (fun _ _ => True) tr' s.procs := by
  refine run_invariant (fun _ s => ∃ tr', Run (ProcMachine.machine n) (fun _ _ => True) tr' s.procs)
    ⟨[],.boot⟩ ?_ h
  rintro tr s l s' o - ⟨tr',hrun⟩ - hn
  cases step_change hn with
  | idle procs => exact ⟨tr',procs ▸ hrun⟩
  | moved c a x next => exact ⟨tr'++x,.step hrun trivial next⟩
  | entered c i num run next =>
    rcases next with hsame | ⟨a,x,next⟩
    · exact ⟨tr',hsame ▸ hrun⟩
    · exact ⟨tr'++x,.step hrun trivial next⟩

def calls (tr : List Event) (b : ℕ) (k : Num) : ℕ := tr.count (.entered b k)

theorem calls_append {tr o : List Event} (b : ℕ) (k : Num) (h : .entered b k ∉ o) :
    calls (tr++o) b k = calls tr b k := by
  rw [calls, List.count_append, List.count_eq_zero_of_not_mem h, Nat.add_zero, calls]

structure Exact (tr : List Event) (s : Kernel n) : Prop where
  counted : ∀ p k, (s.procs.proc p).state ≠ .UNUSED →
    s.counter p k = BitVec.ofNat 32 (calls tr (s.procs.proc p).birth k)
  born : ∀ b k, .entered b k ∈ tr → b < s.procs.nextpid
  embryo : ∀ p k, (s.procs.proc p).state = .EMBRYO → calls tr (s.procs.proc p).birth k = 0

theorem unborn_calls {s : Kernel n} (h : Exact tr s) (k : Num) :
    calls tr s.procs.nextpid k = 0 :=
  List.count_eq_zero_of_not_mem (fun hmem => Nat.lt_irrefl _ (h.born _ k hmem))

theorem moved_exact {x : List Obs}
    (hc : Coherent s.procs) (h : Exact tr s) (next : ProcMachine.step s.procs (c,a) = some (s'.procs,x))
    (counter : ∀ p k, s'.counter p k = if allocated s.procs c a = some p then 0 else s.counter p k) :
    Exact (tr++x.map .seen) s' := by
  have m := ProcStep.step_cases next
  have hcalls : ∀ b k, calls (tr++x.map .seen) b k = calls tr b k :=
    fun b k => calls_append b k (by simp)
  have hkeep : ∀ p, (s.procs.proc p).state ≠ .UNUSED → allocated s.procs c a ≠ some p :=
    fun p hu ha => hu (allocated_embryo ha next).2
  have hfresh : ∀ p, (s.procs.proc p).state = .UNUSED → (s'.procs.proc p).state = .EMBRYO →
      (s'.procs.proc p).birth = s.procs.nextpid := by
    intro p old new
    exact (ProcEffect.alloc_change m old new).2.1
  refine ⟨fun p k hu => ?_,fun b k hmem => ?_,fun p k he => ?_⟩
  · rw [counter, hcalls]
    rcases used_move hc m hu with hold | ⟨old,new⟩
    · rw [if_neg (hkeep p hold), birth_kept m hold]
      exact h.counted p k hold
    · rw [if_pos (embryo_allocated next old new), hfresh p old new, unborn_calls h]
      rfl
  · have hold : .entered b k ∈ tr := by simpa using hmem
    exact Nat.lt_of_lt_of_le (h.born b k hold) (ProcEffect.nextpid_mono m)
  · rw [hcalls]
    rcases ProcEffect.embryo_change m he with hold | hold
    · rw [birth_kept m (by rw [hold]; decide)]
      exact h.embryo p k hold
    · rw [hfresh p hold he, unborn_calls h]

theorem entered_exact {num : Num}
    (hc : Coherent s.procs) (hi : Identified s.procs) (h : Exact tr s) (run : s.procs.cpu c = .run i)
    (proc : s'.procs.proc = s.procs.proc) (nextpid : s'.procs.nextpid = s.procs.nextpid)
    (counter : s'.counter = update s.counter i (bump (s.counter i) num)) :
    Exact (tr++[.entered (s.procs.proc i).birth num]) s' := by
  have hrunning := hc.running run
  have hused : (s.procs.proc i).state ≠ .UNUSED := by rw [hrunning]; decide
  have hother : ∀ p k, p ≠ i →
      calls (tr++[.entered (s.procs.proc i).birth num]) (s.procs.proc p).birth k =
        calls tr (s.procs.proc p).birth k := by
    intro p k hp
    refine calls_append _ k (fun hmem => hp ?_)
    have hbirth := (Event.entered.inj (List.mem_singleton.mp hmem)).1
    exact (same_process hi hused hbirth.symm).symm
  refine ⟨fun p k hu => ?_,fun b k hmem => ?_,fun p k he => ?_⟩
  · rw [proc] at hu ⊢
    rw [counter]
    by_cases hp : p = i
    · subst hp
      rw [update_self, calls, List.count_append, List.count_singleton]
      by_cases hk : k = num
      · subst hk
        rw [bump, update_self, h.counted p k hused, if_pos (by simp), BitVec.ofNat_add]
        rfl
      · rw [bump, update_of_ne hk, h.counted p k hused, if_neg (by simpa using Ne.symm hk)]
        rfl
    · rw [update_of_ne hp, hother p k hp]
      exact h.counted p k hu
  · rw [nextpid]
    rcases List.mem_append.mp hmem with hold | hnew
    · exact h.born b k hold
    · rw [(Event.entered.inj (List.mem_singleton.mp hnew)).1]
      exact hi.fresh i
  · rw [proc] at he ⊢
    have hp : p ≠ i := by
      intro hp
      rw [hp, hrunning] at he
      cases he
    rw [hother p k hp]
    exact h.embryo p k he

theorem exact_boot : Exact [] (machine n).boot :=
  ⟨fun _ _ _ => rfl,fun _ _ h => absurd h List.not_mem_nil,fun _ _ _ => rfl⟩

theorem coherent_procs {s : Kernel n} (h : Run (machine n) (fun _ _ => True) tr s) :
    Coherent s.procs ∧ Identified s.procs := by
  obtain ⟨tr',hrun⟩ := procs_run h
  exact ⟨coherent_run hrun,identified_run hrun⟩

theorem exact_run {s : Kernel n} (h : Run (machine n) (fun _ _ => True) tr s) :
    Exact tr s := by
  refine run_invariant (fun tr s => Exact tr s) exact_boot ?_ h
  intro tr s l s' o hrun ih _ hn
  obtain ⟨hc,hi⟩ := coherent_procs hrun
  cases step_change hn with
  | idle procs counter quiet uncounted =>
    have hcalls : ∀ b k, calls (tr++o) b k = calls tr b k := fun b k => calls_append b k (uncounted b k)
    refine ⟨fun p k hu => ?_,fun b k hmem => ?_,fun p k he => ?_⟩
    · rw [procs] at hu ⊢
      rw [counter, hcalls]
      exact ih.counted p k hu
    · rw [procs]
      rcases List.mem_append.mp hmem with hold | hnew
      · exact ih.born b k hold
      · exact absurd hnew (uncounted b k)
    · rw [procs] at he ⊢
      rw [hcalls]
      exact ih.embryo p k he
  | moved c a x next counter seen =>
    subst seen
    exact moved_exact hc ih next counter
  | entered c i num run next proc nextpid counter seen =>
    subst seen
    exact entered_exact hc hi ih run proc nextpid counter

theorem forked_zero {l : Label n}
    (h : Run (machine n) (fun _ _ => True) tr s) (hs : step s l = some (s',o)) {a b : ℕ}
    (hf : .seen (.forked a b) ∈ o) {p : Slot} (hb : (s'.procs.proc p).birth = b) (k : Num) :
    s'.counter p k = 0 := by
  obtain ⟨hc,hi⟩ := coherent_procs h
  cases step_change hs with
  | idle procs counter quiet => exact absurd hf (quiet _)
  | entered c i num run next proc nextpid counter seen =>
    rw [seen] at hf
    cases List.mem_singleton.mp hf
  | moved c act x next counter seen =>
    have hx : .forked a b ∈ x := by simpa [seen] using hf
    obtain ⟨i,np,hpc,-,hnp,hproc⟩ := ProcEffect.forked_seen (ProcStep.step_cases next) hx
    have hembryo : (s.procs.proc np).state = .EMBRYO := hc.embryo (ProcEffect.forking_at hpc rfl)
    have hbirth : (s.procs.proc np).birth = (s.procs.proc p).birth := by
      rw [hnp, ← hb, hproc]
      simp
    have hp : np = p := same_process hi (by rw [hembryo]; decide) hbirth
    subst hp
    have hzero := (exact_run h).counted np k (by rw [hembryo]; decide)
    rw [(exact_run h).embryo np k hembryo] at hzero
    rw [counter, hzero]
    exact ite_self _

/-- The counters of every process in use are the numbers of its calls; a forked child
starts at 0, `exec` keeps the counters and `getcallcount` returns the caller's. -/
theorem call_counts_exact {tr : List Event} {s : Kernel n} (h : Run (machine n) (fun _ _ => True) tr s) :
    (∀ p k, (s.procs.proc p).state ≠ .UNUSED →
      s.counter p k = BitVec.ofNat 32 (calls tr (s.procs.proc p).birth k)) ∧
    (∀ l s' o a b p k, step s l = some (s',o) → .seen (.forked a b) ∈ o →
      (s'.procs.proc p).birth = b → s'.counter p k = 0) ∧
    (∀ c s' o, step s (.exec c) = some (s',o) → s'.counter = s.counter) ∧
    (∀ c k s' o, step s (.getcallcount c k) = some (s',o) → ∃ i, s.procs.cpu c = .run i ∧
      o = [.counted (s.procs.proc i).birth k (BitVec.ofNat 32 (calls tr (s.procs.proc i).birth k))]) := by
  refine ⟨(exact_run h).counted,fun l s' o a b p k hs hf hb => forked_zero h hs hf hb k,?_,?_⟩
  · intro c s' o hs
    obtain ⟨i,-,heq⟩ := Option.map_eq_some_iff.mp hs
    cases heq
    rfl
  · intro c k s' o hs
    obtain ⟨i,hi,heq⟩ := Option.map_eq_some_iff.mp hs
    have hrun := (outside_run (Option.filter_eq_some_iff.mp hi).1).1
    have hused : (s.procs.proc i).state ≠ .UNUSED := by
      rw [(coherent_procs h).1.running hrun]
      decide
    have hcount := (exact_run h).counted i k hused
    cases heq
    exact ⟨i,hrun,by rw [hcount]⟩

local instance oneCpu : @NeZero ℕ Zero.ofOfNat0 1 := ⟨by decide⟩

def twoProcesses : List (Label 1) :=
  initSteps.map (.act 0) ++
    [.trap 0 11 none, .ret 0, .trap 0 11 none, .ret 0, .trap 0 SYSFork none] ++
    (List.replicate 5 (Act.go true)).map (.act 0) ++
    [.ret 0, .act 0 .yield, .act 0 .sched, .act 0 (.go true), .trap 0 11 none]

theorem call_counts_of_child : ∃ (tr : List Event) (s : Kernel 1),
    Run (machine 1) (fun _ _ => True) tr s ∧ (s.procs.proc 1).birth = 2 ∧
      calls tr 2 11 = 1 ∧ s.counter 1 11 = 1 ∧ s.counter 0 11 = 2 := by
  obtain ⟨tr,s,hrun,hbirth,hstate,hcalls,hinit⟩ :=
    exec_reaches (S := machine 1) (G := fun _ _ => True) twoProcesses
    (fun s tr => (s.procs.proc 1).birth = 2 ∧ (s.procs.proc 1).state = .RUNNING ∧
      calls tr 2 11 = 1 ∧ s.counter 0 11 = 2) (by decide +kernel)
  have hcount := (call_counts_exact hrun).1 1 11 (by rw [hstate]; decide)
  rw [hbirth, hcalls] at hcount
  exact ⟨tr,s,hrun,hbirth,hcalls,hcount,hinit⟩

end Xv6.CallCounts

import Xv6.ProcStep

/-!
# Effects of a step, field by field

For one field of one slot there are far fewer ways to change than there are
moves. Each lemma lists these ways, with what the move that causes the
change guarantees. Invariants are preserved by going through these lists.
-/

set_option autoImplicit false

namespace Xv6.ProcEffect
open ProcTable ProcMachine ProcStep

variable {n : ℕ} {s s' : State n} {l : Fin n × Act} {o : List Obs}

def forking : Pc → Option Slot
  | .kstack np => some np
  | .copyuvm np => some np
  | .parent np => some np
  | .runnable np => some np
  | _ => none

theorem forking_at {i p : Slot} {pc : Pc} (h : (s.thread i).pc = pc) (hf : forking pc = some p) :
    forking (s.thread i).pc = some p := by
  rw [h, hf]

theorem forking_early {pc : Pc} {p : Slot} (h : pc = .kstack p ∨ pc = .copyuvm p) :
    forking pc = some p := by
  rcases h with rfl | rfl <;> rfl

theorem forking_call (k : Syscall) : forking k.pc = none := by
  cases k <;> rfl

inductive StateChange (s s' : State n) (l : Fin n × Act) (o : List Obs) (p : Slot) : Prop
  | same (h : (s'.proc p).state = (s.proc p).state)
  | alloc (old : (s.proc p).state = .UNUSED) (new : (s'.proc p).state = .EMBRYO)
      (pid : (s'.proc p).pid = BitVec.ofNat 32 s.nextpid) (birth : (s'.proc p).birth = s.nextpid)
      (next : s'.nextpid = s.nextpid+1) (seen : o = [.born s.nextpid])
  | forkFail (i : Slot) (pc : (s.thread i).pc = .kstack p ∨ (s.thread i).pc = .copyuvm p)
      (back : (s'.thread i).pc = .user) (new : (s'.proc p).state = .UNUSED)
      (run : s.cpu l.1 = .run i) (act : l.2 = .go false)
  | runnable (i : Slot) (pc : (s.thread i).pc = .runnable p) (back : (s'.thread i).pc = .user)
      (new : (s'.proc p).state = .RUNNABLE)
  | dispatch (old : (s.proc p).state = .RUNNABLE) (new : (s'.proc p).state = .RUNNING)
  | woken (old : (s.proc p).state = .SLEEPING) (new : (s'.proc p).state = .RUNNABLE)
  | leave (k : ℕ) (run : s.cpu l.1 = .run p) (off : s'.cpu l.1 = .scan k)
      (new : (s'.proc p).state = .RUNNABLE ∨ (s'.proc p).state = .SLEEPING)
  | exit (k : ℕ) (run : s.cpu l.1 = .run p) (off : s'.cpu l.1 = .scan k)
      (notinit : p ≠ s.initproc) (pc : (s'.thread p).pc = .exit)
      (new : (s'.proc p).state = .ZOMBIE)
      (wakes : ∀ q, (s'.proc q).state = .SLEEPING →
        (s.proc q).chan ≠ (s.proc p).parent.map Chan.proc)
      (orphans : ∀ q, (s'.proc q).parent ≠ some p)
  | reaped (old : (s.proc p).state = .ZOMBIE) (new : (s'.proc p).state = .UNUSED)
      (parent : (s'.proc p).parent = none) (pid : (s'.proc p).pid = 0)
      (killed : (s'.proc p).killed = false)
      (seen : ∃ w x, o = [.reaped w x (s.proc p).birth (s.proc p).pid])

theorem state_change (m : Move s l s' o) (p : Slot) : StateChange s s' l o p := by
  cases m with
  | acquire | release | stay | kstack | copied => exact .same rfl
  | resume | failed | setParent | fault => exact .same (by simp)
  | @dispatch c k q scan ready =>
    by_cases hp : p = q
    · subst hp; exact .dispatch ready (by simp)
    · exact .same (by simp [hp])
  | wakeup =>
    rcases wakeup1_woken _ s.proc p with h | h
    · exact .same h
    · exact .woken h.1 h.2
  | @reaped c i q ok w chan run pc entered found zombie =>
    by_cases hp : p = q
    · subst hp; exact .reaped zombie (by simp) (by simp) (by simp) (by simp) ⟨w,_,rfl⟩
    · exact .same (by simp [hp])
  | @waitSleep c i ok w run =>
    by_cases hp : p = i
    · subst hp; exact .leave (p.val+1) run (by simp) (by simp)
    · exact .same (by simp [hp])
  | @alloc c i np ok run on pc free unused =>
    by_cases hp : p = np
    · subst hp; exact .alloc unused (by simp) (by simp) (by simp) rfl rfl
    · exact .same (by simp [hp])
  | @forkFail c i np run on pc =>
    by_cases hp : p = np
    · subst hp; exact .forkFail i pc (by simp [userThread]) (by simp) run rfl
    · exact .same (by simp [hp])
  | @runnable c i np ok run on pc =>
    by_cases hp : p = np
    · subst hp; exact .runnable i pc (by simp [userThread]) (by simp)
    · exact .same (by simp [hp])
  | @exit c i ok run on pc free notinit =>
    by_cases hp : p = i
    · subst hp
      exact .exit (p.val+1) run (by simp) notinit (by simp) (exit_state_self _ _ _)
        (exit_wakes_parent _ _ _) (exit_orphans _ _ _ notinit)
    · rcases exit_state_other i s.initproc s.proc p hp with h | h
      · exact .same h
      · exact .woken h.1 h.2
  | @kill c i q ok pid run on pc free found =>
    by_cases hp : p = q ∧ (s.proc q).state = .SLEEPING
    · exact .woken (by rw [hp.1]; exact hp.2) (by simp [hp])
    · exact .same (by simp [hp])
  | @yield c i run =>
    by_cases hp : p = i
    · subst hp; exact .leave (p.val+1) run (by simp) (by simp)
    · exact .same (by simp [hp])
  | @sleep c i a run =>
    by_cases hp : p = i
    · subst hp; exact .leave (p.val+1) run (by simp) (by simp)
    · exact .same (by simp [hp])

theorem zombie_change (m : Move s l s' o) {p : Slot} (h : (s'.proc p).state = .ZOMBIE) :
    (s.proc p).state = .ZOMBIE ∨ (s.cpu l.1 = .run p ∧
      ∀ q, (s'.proc q).state = .SLEEPING → (s.proc q).chan ≠ (s.proc p).parent.map Chan.proc) := by
  cases state_change m p with
  | same hsame => exact .inl (by rw [← hsame, h])
  | exit k run off notinit pc new wakes => exact .inr ⟨run,wakes⟩
  | alloc old new | dispatch old new | woken old new | reaped old new => rw [new] at h; cases h
  | forkFail j pc back new | runnable j pc back new => rw [new] at h; cases h
  | leave k run off new => rcases new with new | new <;> rw [new] at h <;> cases h

theorem embryo_change (m : Move s l s' o) {p : Slot} (h : (s'.proc p).state = .EMBRYO) :
    (s.proc p).state = .EMBRYO ∨ (s.proc p).state = .UNUSED := by
  cases state_change m p with
  | same hsame => exact .inl (by rw [← hsame, h])
  | alloc old => exact .inr old
  | dispatch old new | woken old new | reaped old new => rw [new] at h; cases h
  | forkFail j pc back new | runnable j pc back new => rw [new] at h; cases h
  | leave k run off new => rcases new with new | new <;> rw [new] at h <;> cases h
  | exit k run off notinit pc new => rw [new] at h; cases h

inductive Freed (s s' : State n) (l : Fin n × Act) (p : Slot) : Prop
  | old (unused : (s.proc p).state = .UNUSED)
  | forkFail (i : Slot) (pc : (s.thread i).pc = .kstack p ∨ (s.thread i).pc = .copyuvm p)
      (run : s.cpu l.1 = .run i) (act : l.2 = .go false)
  | reaped (pid : (s'.proc p).pid = 0) (parent : (s'.proc p).parent = none)
      (killed : (s'.proc p).killed = false)

theorem unused_change (m : Move s l s' o) {p : Slot} (h : (s'.proc p).state = .UNUSED) :
    Freed s s' l p := by
  cases state_change m p with
  | same hsame => exact .old (by rw [← hsame, h])
  | forkFail i pc back new run act => exact .forkFail i pc run act
  | reaped old new parent pid killed => exact .reaped pid parent killed
  | alloc old new | dispatch old new | woken old new => rw [new] at h; cases h
  | runnable j pc back new => rw [new] at h; cases h
  | leave k run off new => rcases new with new | new <;> rw [new] at h <;> cases h
  | exit k run off notinit pc new => rw [new] at h; cases h

theorem alloc_change (m : Move s l s' o) {p : Slot} (old : (s.proc p).state = .UNUSED)
    (new : (s'.proc p).state = .EMBRYO) : (s'.proc p).pid = BitVec.ofNat 32 s.nextpid ∧
      (s'.proc p).birth = s.nextpid ∧ s'.nextpid = s.nextpid+1 ∧ o = [.born s.nextpid] := by
  cases state_change m p with
  | alloc _ _ pid birth next seen => exact ⟨pid,birth,next,seen⟩
  | same h => rw [h, old] at new; cases new
  | dispatch _ h | woken _ h | reaped _ h => rw [h] at new; cases new
  | forkFail j pc back h | runnable j pc back h => rw [h] at new; cases new
  | leave k run off h => rcases h with h | h <;> rw [h] at new <;> cases new
  | exit k run off notinit pc h => rw [h] at new; cases new

theorem nextpid_mono (m : Move s l s' o) : s.nextpid ≤ s'.nextpid := by
  cases m <;> simp

theorem birth_change (m : Move s l s' o) : (∀ p, (s'.proc p).birth = (s.proc p).birth) ∨
    ∃ np, (s.proc np).state = .UNUSED ∧ (s'.proc np).state = .EMBRYO ∧
      ∀ p, p ≠ np → (s'.proc p).birth = (s.proc p).birth := by
  cases m with
  | @alloc c i np ok run on pc free unused =>
    exact .inr ⟨np,unused,by simp,fun p hp => by simp [hp]⟩
  | _ => exact .inl (fun p => by simp)

theorem pid_change (m : Move s l s' o) (p : Slot) : (s'.proc p).pid = (s.proc p).pid ∨
    ((s.proc p).state = .UNUSED ∧ (s'.proc p).state = .EMBRYO) ∨
    ((s.proc p).state = .ZOMBIE ∧ (s'.proc p).state = .UNUSED) := by
  cases m with
  | @alloc c i np ok run on pc free unused =>
    by_cases hp : p = np
    · subst hp; exact .inr (.inl ⟨unused,by simp⟩)
    · exact .inl (by simp [hp])
  | @reaped c i q ok w chan run pc entered found zombie =>
    by_cases hp : p = q
    · subst hp; exact .inr (.inr ⟨zombie,by simp⟩)
    · exact .inl (by simp [hp])
  | _ => exact .inl (by simp)

inductive KilledChange (s s' : State n) (l : Fin n × Act) (o : List Obs) (p : Slot) : Prop
  | same (h : (s'.proc p).killed = (s.proc p).killed)
  | kill (i : Slot) (pc : (s.thread i).pc = .kill (s.proc p).pid)
      (seen : o = [.killed (s.proc p).pid true])
  | fault (act : l.2 = .fault) (run : s.cpu l.1 = .run p)
  | reaped (old : (s.proc p).state = .ZOMBIE) (new : (s'.proc p).killed = false)

theorem killed_change (m : Move s l s' o) (p : Slot) : KilledChange s s' l o p := by
  cases m with
  | @reaped c i q ok w chan run pc entered found zombie =>
    by_cases hp : p = q
    · subst hp; exact .reaped zombie (by simp)
    · exact .same (by simp [hp])
  | @kill c i q ok pid run on pc free found =>
    by_cases hp : p = q
    · subst hp
      have hpid : (s.proc p).pid = pid := by simpa using find_slot_some found
      subst hpid
      exact .kill i pc rfl
    · exact .same (by simp [hp])
  | @fault c i run =>
    by_cases hp : p = i
    · subst hp; exact .fault rfl run
    · exact .same (by simp [hp])
  | _ => exact .same (by simp)

inductive ParentChange (s s' : State n) (l : Fin n × Act) (o : List Obs) (p : Slot) : Prop
  | same (h : (s'.proc p).parent = (s.proc p).parent)
  | fork (i : Slot) (pc : (s.thread i).pc = .parent p) (next : (s'.thread i).pc = .runnable p)
      (new : (s'.proc p).parent = some i)
  | passed (i : Slot) (run : s.cpu l.1 = .run i) (pc : (s.thread i).pc = .exit)
      (old : (s.proc p).parent = some i) (new : (s'.proc p).parent = some s.initproc)
      (wakes : (s.proc p).state = .ZOMBIE → ∀ q, (s'.proc q).state = .SLEEPING →
        (s.proc q).chan ≠ some (.proc s.initproc))
      (seen : ∃ g, o = [.exited (s.proc i).birth g])
  | reaped (old : (s.proc p).state = .ZOMBIE) (gone : (s'.proc p).state = .UNUSED)
      (new : (s'.proc p).parent = none)

theorem parent_change (m : Move s l s' o) (p : Slot) : ParentChange s s' l o p := by
  cases m with
  | acquire | release | stay | kstack | copied => exact .same rfl
  | dispatch | wakeup | resume | failed | waitSleep | alloc | forkFail | runnable | kill
    | fault | yield | sleep => exact .same (by simp)
  | @reaped c i q ok w chan run pc entered found zombie =>
    by_cases hp : p = q
    · subst hp; exact .reaped zombie (by simp) (by simp)
    · exact .same (by simp [hp])
  | @setParent c i np ok run on pc =>
    by_cases hp : p = np
    · subst hp; exact .fork i pc (by simp) (by simp)
    · exact .same (by simp [hp])
  | @exit c i ok run on pc =>
    by_cases hp : (s.proc p).parent = some i
    · exact .passed i run pc hp (by simp [exit_parent, hp])
        (fun hz q hq => exit_wakes_init i s.initproc s.proc q p hp hz hq) ⟨_,rfl⟩
    · exact .same (by simp [exit_parent, hp])

theorem cpu_change (m : Move s l s' o) {c : Fin n} {j : Slot} (h : s'.cpu c = .run j) :
    s.cpu c = .run j ∨ (c = l.1 ∧ (s.proc j).state = .RUNNABLE ∧ (s'.proc j).state = .RUNNING) := by
  cases m with
  | @dispatch c' k q scan ready =>
    by_cases hc : c = c'
    · subst hc
      simp only [Function.update_self, Cpu.run.injEq] at h
      subst h
      exact .inr ⟨rfl,ready,by simp⟩
    · simp only [Function.update_of_ne hc] at h
      exact .inl h
  | @acquire c' | @release c' | @waitSleep c' | @exit c' | @yield c' | @sleep c' =>
    by_cases hc : c = c'
    · subst hc; simp at h
    · simp only [Function.update_of_ne hc] at h
      exact .inl h
  | _ => exact .inl h

inductive PcChange (s s' : State n) (l : Fin n × Act) (j : Slot) : Prop
  | same (h : (s'.thread j).pc = (s.thread j).pc)
  | fresh (i : Slot) (pc : (s.thread i).pc = .kstack j) (new : (s'.thread j).pc = .user)
  | user (old : ∀ np, (s.thread j).pc ≠ .runnable np) (new : (s'.thread j).pc = .user)
  | exit (old : ∀ np, (s.thread j).pc ≠ .runnable np) (new : (s'.thread j).pc = .exit)
  | call (k : Syscall) (act : l.2 = .call k) (old : ∀ np, (s.thread j).pc ≠ .runnable np)
      (new : (s'.thread j).pc = k.pc)
  | kstack (np : Slot) (run : s.cpu l.1 = .run j) (old : (s.thread j).pc = .fork)
      (new : (s'.thread j).pc = .kstack np) (unused : (s.proc np).state = .UNUSED)
      (embryo : (s'.proc np).state = .EMBRYO)
  | copyuvm (np : Slot) (old : (s.thread j).pc = .kstack np)
      (new : (s'.thread j).pc = .copyuvm np)
  | parent (np : Slot) (old : (s.thread j).pc = .copyuvm np)
      (new : (s'.thread j).pc = .parent np)
  | runnable (np : Slot) (old : (s.thread j).pc = .parent np)
      (new : (s'.thread j).pc = .runnable np) (parent : (s'.proc np).parent = some j)
  | forked (np : Slot) (old : (s.thread j).pc = .runnable np) (new : (s'.thread j).pc = .user)
      (made : (s'.proc np).state = .RUNNABLE)

theorem pc_change (m : Move s l s' o) (j : Slot) : PcChange s s' l j := by
  cases m with
  | acquire | dispatch | release | wakeup => exact .same rfl
  | @resume c i | @yield c i | @sleep c i =>
    exact .same (by by_cases hj : j = i <;> simp [hj])
  | @waitSleep c i ok w run pc => exact .same (by by_cases hj : j = i <;> simp [hj, pc])
  | @reaped c i p ok w chan run pc | @failed c i ok w chan run pc | @kill c i p ok q run on pc =>
    by_cases hj : j = i
    · subst hj; exact .user (by simp [pc]) (by simp [userThread])
    · exact .same (by simp [hj])
  | @stay c i a pc o run on source target =>
    by_cases hj : j = i
    · subst hj
      have old : ∀ np, (s.thread j).pc ≠ .runnable np := by
        intro np
        rcases source with hs | hs | ⟨q,hs⟩ <;> rw [hs] <;> simp
      rcases target with rfl | rfl | ⟨k,rfl,rfl⟩
      · exact .user old (by simp)
      · exact .exit old (by simp)
      · exact .call k rfl old (by simp)
    · exact .same (by simp [hj])
  | @alloc c i np ok run on pc free unused =>
    by_cases hj : j = i
    · subst hj; exact .kstack np run pc (by simp) unused (by simp)
    · exact .same (by simp [hj])
  | @kstack c i np ok run on pc =>
    by_cases hj : j = i
    · subst hj; exact .copyuvm np pc (by simp)
    · by_cases hn : j = np
      · subst hn; exact .fresh i pc (by simp [hj, newThread])
      · exact .same (by simp [hj, hn])
  | @copied c i np ok run on pc =>
    by_cases hj : j = i
    · subst hj; exact .parent np pc (by simp)
    · exact .same (by simp [hj])
  | @forkFail c i np run on pc =>
    by_cases hj : j = i
    · subst hj
      exact .user (by rcases pc with pc | pc <;> simp [pc]) (by simp [userThread])
    · exact .same (by simp [hj])
  | @setParent c i np ok run on pc =>
    by_cases hj : j = i
    · subst hj; exact .runnable np pc (by simp) (by simp)
    · exact .same (by simp [hj])
  | @runnable c i np ok run on pc =>
    by_cases hj : j = i
    · subst hj; exact .forked np pc (by simp [userThread]) (by simp)
    · exact .same (by simp [hj])
  | @exit c i ok run on pc => exact .same (by by_cases hj : j = i <;> simp [hj, pc])
  | @fault c i run on pc =>
    by_cases hj : j = i
    · subst hj; exact .exit (by simp [pc]) (by simp)
    · exact .same (by simp [hj])

theorem forking_change (m : Move s l s' o) {j np : Slot}
    (h : forking (s'.thread j).pc = some np) :
    forking (s.thread j).pc = some np ∨
    ((s.proc np).state = .UNUSED ∧ (s'.proc np).state = .EMBRYO ∧ s.cpu l.1 = .run j) := by
  cases pc_change m j with
  | same hsame => exact .inl (hsame ▸ h)
  | fresh i pc new => rw [new] at h; cases h
  | user old new | exit old new => rw [new] at h; cases h
  | call k act old new => rw [new, forking_call] at h; cases h
  | kstack q run old new unused embryo =>
    rw [new] at h
    cases h
    exact .inr ⟨unused,embryo,run⟩
  | copyuvm q old new | parent q old new | runnable q old new =>
    rw [new] at h
    exact .inl (by rw [old]; exact h)
  | forked q old new => rw [new] at h; cases h

theorem runnable_change (m : Move s l s' o) {i p : Slot} (h : (s.thread i).pc = .runnable p) :
    (s'.thread i).pc = .runnable p ∨ (s'.proc p).state = .RUNNABLE ∨
    ∃ j, (s.thread j).pc = .kstack i := by
  cases pc_change m i with
  | same hsame => exact .inl (hsame.trans h)
  | fresh j pc => exact .inr (.inr ⟨j,pc⟩)
  | user old | exit old => exact absurd h (old p)
  | call k act old => exact absurd h (old p)
  | kstack q run old | copyuvm q old | parent q old | runnable q old => rw [h] at old; cases old
  | forked q old new made =>
    rw [h] at old
    cases old
    exact .inr (.inl made)

theorem runnable_entered (m : Move s l s' o) {i p : Slot} (h : (s'.thread i).pc = .runnable p) :
    (s.thread i).pc = .runnable p ∨ (s'.proc p).parent = some i := by
  cases pc_change m i with
  | same hsame => exact .inl (hsame ▸ h)
  | fresh j pc new => rw [new] at h; cases h
  | user old new | exit old new => rw [new] at h; cases h
  | call k act old new => cases k <;> rw [new] at h <;> cases h
  | kstack q run old new | copyuvm q old new | parent q old new | forked q old new =>
    rw [new] at h; cases h
  | runnable q old new parent =>
    rw [new] at h
    cases h
    exact .inr parent

theorem kill_change (m : Move s l s' o) {j : Slot} {q : Pid}
    (h : (s'.thread j).pc = .kill q) : (s.thread j).pc = .kill q ∨ l.2 = .call (.kill q) := by
  cases pc_change m j with
  | same hsame => exact .inl (hsame ▸ h)
  | fresh i pc new => rw [new] at h; cases h
  | user old new | exit old new => rw [new] at h; cases h
  | call k act old new =>
    cases k <;> rw [new] at h <;> cases h
    exact .inr act
  | kstack q run old new | copyuvm q old new | parent q old new | runnable q old new
    | forked q old new => rw [new] at h; cases h

/-- A process asleep in a waiting call was so before the step, or the step is
the pass of its loop that found processes to wait for and put it to sleep. -/
inductive Sleeper (s s' : State n) (l : Fin n × Act) (i : Slot) (w : WaitCall) : Prop
  | old (state : (s.proc i).state = .SLEEPING) (thread : s'.thread i = s.thread i)
      (chan : (s'.proc i).chan = (s.proc i).chan)
      (killed : (s'.proc i).killed = (s.proc i).killed)
  | new (ok : Bool) (go : l.2 = .go ok) (run : s.cpu l.1 = .run i)
      (pc : (s.thread i).pc = .waiting w) (alive : (s.proc i).killed = false)
      (exist : ∃ p, Matches w i (s.proc p))
      (living : ∀ p, Matches w i (s.proc p) → (s.proc p).state ≠ .ZOMBIE)
      (proc : s'.proc = setState i .SLEEPING (setChan i (some (.proc i)) s.proc))
      (thread : s'.thread i = ⟨.waiting w,some .waitSleep,awaitedBy w s.proc⟩)

inductive Seen (s s' : State n) (l : Fin n × Act) : List Obs → Prop
  | nothing : Seen s s' l []
  | born (c : ℕ) : Seen s s' l [.born c]
  | forkFailed (a : ℕ) : Seen s s' l [.forkFailed a]
  | slept (w : WaitCall) (a : ℕ) : Seen s s' l [.slept w a]
  | notFound (q : Pid) : Seen s s' l [.killed q false]
  | forked (i np : Slot) (pc : (s.thread i).pc = .runnable np)
      (proc : s'.proc = setState np .RUNNABLE s.proc) :
      Seen s s' l [.forked (s.proc i).birth (s.proc np).birth]
  | exited (i : Slot) (run : s.cpu l.1 = .run i) (zombie : (s'.proc i).state = .ZOMBIE) :
      Seen s s' l
        [.exited (s.proc i).birth ((s.proc i).parent.map (fun p => (s.proc p).birth))]
  | reaped (w : WaitCall) (i p : Slot) (run : s.cpu l.1 = .run i)
      (pc : (s.thread i).pc = .waiting w) (found : Matches w i (s.proc p))
      (zombie : (s.proc p).state = .ZOMBIE) (freed : (s'.proc p).state = .UNUSED) :
      Seen s s' l [.reaped w (s.proc i).birth (s.proc p).birth (s.proc p).pid]
  | failed (w : WaitCall) (i : Slot) (run : s.cpu l.1 = .run i)
      (cause : (s.proc i).killed = true ∨ ∀ p, ¬ Matches w i (s.proc p)) :
      Seen s s' l [.failed w (s.proc i).birth]
  | killed (i p : Slot) (q : Pid) (pc : (s.thread i).pc = .kill q) (pid : (s.proc p).pid = q) :
      Seen s s' l [.killed q true]

theorem seen_change (m : Move s l s' o) : Seen s s' l o := by
  cases m with
  | acquire | dispatch | release | wakeup | resume | kstack | copied | setParent | fault | yield
    | sleep => exact .nothing
  | @reaped _ i p ok w chan run pc entered found zombie =>
    exact .reaped w i p run pc found zombie (by simp)
  | @failed _ i ok w chan run pc entered cause => exact .failed w i run cause
  | @waitSleep _ i ok w => exact .slept w _
  | stay pc o run on source target seen =>
    rcases seen with rfl | rfl | ⟨q,rfl,-⟩
    · exact .nothing
    · exact .forkFailed _
    · exact .notFound q
  | alloc => exact .born _
  | forkFail => exact .forkFailed _
  | @runnable _ i np ok run on pc => exact .forked i np pc rfl
  | @exit _ i ok run => exact .exited i run (by simp [exit_state_self])
  | @kill _ i p ok q run on pc free found =>
    exact .killed i p q pc (by simpa using find_slot_some found)

theorem seen_short (m : Move s l s' o) : o.length ≤ 1 := by
  cases seen_change m <;> simp

theorem exited_seen (m : Move s l s' o) {c : ℕ} {g : Option ℕ} (h : .exited c g ∈ o) :
    ∃ i, s.cpu l.1 = .run i ∧ (s.proc i).birth = c ∧ (s'.proc i).state = .ZOMBIE ∧
      g = (s.proc i).parent.map (fun p => (s.proc p).birth) := by
  cases seen_change m with
  | exited i run zombie =>
    simp only [List.mem_singleton, Obs.exited.injEq] at h
    exact ⟨i,run,h.1.symm,zombie,h.2⟩
  | _ => simp at h

theorem reaped_seen (m : Move s l s' o) {w : WaitCall} {x c : ℕ} {pid : Pid}
    (h : .reaped w x c pid ∈ o) : ∃ i p, s.cpu l.1 = .run i ∧ (s.thread i).pc = .waiting w ∧
      Matches w i (s.proc p) ∧ (s.proc p).state = .ZOMBIE ∧ (s.proc i).birth = x ∧
      (s.proc p).birth = c ∧ (s'.proc p).state = .UNUSED ∧ o = [.reaped w x c pid] := by
  cases seen_change m with
  | reaped w' i p run pc found zombie freed =>
    simp only [List.mem_singleton, Obs.reaped.injEq] at h
    obtain ⟨rfl,rfl,rfl,rfl⟩ := h
    exact ⟨i,p,run,pc,found,zombie,rfl,rfl,freed,rfl⟩
  | _ => simp at h

theorem forked_seen (m : Move s l s' o) {a c : ℕ} (h : .forked a c ∈ o) :
    ∃ i np, (s.thread i).pc = .runnable np ∧ (s.proc i).birth = a ∧ (s.proc np).birth = c ∧
      s'.proc = setState np .RUNNABLE s.proc := by
  cases seen_change m with
  | forked i np pc proc =>
    simp only [List.mem_singleton, Obs.forked.injEq] at h
    exact ⟨i,np,pc,h.1.symm,h.2.symm,proc⟩
  | _ => simp at h

theorem killed_seen (m : Move s l s' o) {q : Pid} (h : .killed q true ∈ o) :
    ∃ i p, (s.thread i).pc = .kill q ∧ (s.proc p).pid = q := by
  cases seen_change m with
  | killed i p q' pc pid =>
    simp only [List.mem_singleton, Obs.killed.injEq, and_true] at h
    subst h
    exact ⟨i,p,pc,pid⟩
  | _ => simp at h

theorem failed_seen (m : Move s l s' o) {w : WaitCall} {a : ℕ} (h : .failed w a ∈ o) :
    ∃ i, s.cpu l.1 = .run i ∧ (s.proc i).birth = a ∧
      ((s.proc i).killed = true ∨ ∀ p, ¬ Matches w i (s.proc p)) := by
  cases seen_change m with
  | failed w' i run cause =>
    simp only [List.mem_singleton, Obs.failed.injEq] at h
    obtain ⟨rfl,rfl⟩ := h
    exact ⟨i,run,rfl,cause⟩
  | _ => simp at h

end Xv6.ProcEffect

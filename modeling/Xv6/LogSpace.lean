import Xv6.LogInvariant
import Xv6.WaitRule
import Mathlib.Algebra.BigOperators.Ring.Finset
import Mathlib.Tactic.Linarith

/-!
# Room in the log

`begin_op` lets an operation in if `MAXOPBLOCKS` more blocks for each one inside
fit into `LOGSIZE`; `log_write` panics one entry earlier, at `log.size-1`. Every
process that sleeps in `begin_op` waits for a commit to end or for room.
-/

set_option autoImplicit false

namespace Xv6.LogSpace
open ProcTable TransitionSystem SleepMachine SleepLocks CodeMachine
open WaitRule LogMachine LogOps LogInvariant
open Function

section Waits
variable {ι : Type}

def holds : Point → Lock Unit → Prop
  | .beginTest, j | .beginSleep, j | .beginExit, j | .record _ _, j | .writeExit _, j
  | .endCount, j | .endWake, j | .endExit _, j | .doneClear, j | .doneWake, j | .doneExit, j
  | .panic .committing, j => j = .spin ()
  | _, _ => False

variable {x y : Point} {e : List Mark} {m m' : Log}

theorem act_holds (act : Act m x m' y e)
    (j : Lock Unit) : holds y j ↔ holds x j := by
  cases act <;> exact Iff.rfl

theorem disciplined (m : Log) : Disciplined (client (ι := ι) m) holds := by
  refine ⟨fun p k hk => hk,fun p x => ?_⟩
  have hacts : ∀ {f}, prog (ι := ι) x = .step f → InstrOk holds x (prog (ι := ι) x) := by
    intro f hf
    rw [hf]
    intro d m b m' y o h
    exact act_holds (step_act hf h)
  cases x with
  | beginOp | beginSleep | beginExit | writeLock | writeExit | endOp | endWake | done | doneWake
  | doneExit => simp [client, prog, InstrOk, holds]
  | endExit doCommit => cases doCommit <;> simp [client, prog, InstrOk, holds]
  | _ => exact hacts rfl

def MustWait (m : Log) : Prop :=
  m.committing = true ∨ m.n+(m.outstanding+1)*MAXOPBLOCKS > LOGSIZE

def Owes : Point → Prop
  | .endWake | .doneWake => True
  | _ => False

theorem sleep_begin {c : Unit} {k : Lock Unit}
    (h : prog (ι := ι) x = .sleep c k y) : x = .beginSleep ∧ k = .spin () := by
  cases x <;> cases h
  exact ⟨rfl,rfl⟩

def Asks (x : Point) : Prop := x = .beginSleep

theorem pays (m : Log) : Pays (client (ι := ι) m) holds (.spin ()) () Asks Owes where
  lock h := (sleep_begin h).2
  asks h := (sleep_begin h).1
  held h := by
    cases h
    rfl
  ask {p x y} hn hy := by
    cases hy
    cases x with
    | endExit doCommit => cases doCommit <;> cases hn
    | _ => cases hn
  back {p x d j y} h hy := by
    cases hy
    cases x <;> cases h
  quiet h := by
    cases h
    exact ⟨nofun,nofun⟩
  hold {x} hx := by cases x <;> first | exact hx.elim | rfl
  sleep h hx := by
    obtain ⟨rfl,-⟩ := sleep_begin h
    exact hx
  call {p x y} hn hx := by
    cases x <;> first | exact hx.elim | skip
    · cases hn
      exact .inr (.inl rfl)
    · cases hn
      exact .inr (.inl rfl)

theorem act_asks (act : Act m x m' y e)
    (hy : Asks y) : MustWait m' := by
  cases act <;> cases hy
  assumption

theorem record_grows (m : Log) (b : BlockNo) : m.n ≤ (m.record b).n := by
  simp only [Log.record]
  split <;> omega

theorem act_pays (act : Act m x m' y e)
    (hc : commits x = 1 → m.committing = true) (h : MustWait m ∨ Owes x) :
    MustWait m' ∨ Owes y := by
  have hwait : MustWait m := by
    rcases h with h | h
    · exact h
    · cases act <;> exact h.elim
  cases act with
  | join free room =>
    rcases hwait with hb | hf
    · rw [free] at hb
      cases hb
    · exact absurd room (not_le.mpr hf)
  | @record ws b =>
    have hn := record_grows m b
    rcases hwait with hb | hf
    · exact .inl (.inl hb)
    · left
      right
      show ((m.record b).n : ℤ)+(m.outstanding+1)*MAXOPBLOCKS > LOGSIZE
      omega
  | stuck busy => exact .inl (.inl busy)
  | last => exact .inl (.inl rfl)
  | ended | finish => exact .inr trivial
  | clear => exact .inl (.inl (hc rfl))
  | _ => exact .inl hwait

end Waits

variable {ι : Type} {size : ℤ} {block : ℕ → BlockNo}

abbrev Sys (ι : Type) := State ι Unit Unit Log Point
abbrev Trace (ι : Type) := List (Event ι Unit Mark)

theorem step_pays [Fintype ι] [DecidableEq ι] {g : ι → Point → Log → Input → Prop} {tr : Trace ι} {s : Sys ι}
    (h : Run (machine (client (initlog size block))) (Permits g) tr s) (l : Label ι Input) :
    StepPays (client (ι := ι) (initlog size block)) Asks MustWait Owes s l := by
  have hs : Sound s.shared (view s).spot := sound_run (run_view h)
  intro p b x f m' y e _ here prog next
  have act := step_act prog next
  refine ⟨act_asks act,act_pays act (fun hc => ?_)⟩
  rw [← view_code here] at hc
  exact (commit_sole hs hc).1

/-- While `log.lock` is free, a process that sleeps in `begin_op` waits for a
commit to end or for room; with no commit and no operation the header is empty
and nobody sleeps. -/
theorem begin_op_not_stuck (ι : Type) [Fintype ι] [DecidableEq ι] (size : ℤ)
    (block : ℕ → BlockNo) (tr : Trace ι) (s : Sys ι)
    (h : Run (machine (client (initlog size block))) (fun _ _ => True) tr s)
    (hfree : s.holder (.spin ()) = none) :
    (∀ p, s.state p = .SLEEPING → s.shared.committing = true ∨
      s.shared.n+(s.shared.outstanding+1)*MAXOPBLOCKS > LOGSIZE) ∧
    (s.shared.committing = false → s.shared.outstanding = 0 →
      s.shared.n = 0 ∧ ∀ p, s.state p ≠ .SLEEPING) := by
  have hr := run_mono (H := Permits (fun _ _ _ _ => True)) (fun s l _ => permits_all s l) h
  have hs : Sound s.shared (view s).spot := sound_run (run_view hr)
  have hwait : ∀ p, s.state p = .SLEEPING → MustWait s.shared := by
    intro p hp
    obtain ⟨⟨c,k,y⟩,hbed⟩ := Option.ne_none_iff_exists'.mp ((dozing_run h).sleeping hp)
    exact sleeper_waits (disciplined _) (pays _) (fun _ => nofun) (fun _ _ l hr _ => step_pays hr l) hr
      hfree hp ((dozing_run h).chan hbed)
  refine ⟨hwait,fun hc ho => ⟨hs.empty hc ho,fun p hp => ?_⟩⟩
  rcases hwait p hp with hw | hw
  · rw [hc] at hw
    cases hw
  · rw [ho, hs.empty hc ho] at hw
    simp [LOGSIZE, MAXOPBLOCKS] at hw

def fourthWaits : List (Label (Fin 4) Input) :=
  [0, 1, 2].flatMap enterOp ++ .thread 3 .beginOp :: List.replicate 7 (.thread 3 .go) ++ [.idle]

theorem begin_op_sleeper_waits : ∃ (tr : Trace (Fin 4)) (s : Sys (Fin 4)),
    Run (machine (client (initlog LOGSIZE (fun _ => 0)))) (fun _ _ => True) tr s ∧
    s.holder (.spin ()) = none ∧ s.state 3 = .SLEEPING ∧
    (s.shared.committing = true ∨
      s.shared.n+(s.shared.outstanding+1)*MAXOPBLOCKS > LOGSIZE) := by
  obtain ⟨o,s,hr,hp⟩ := exec_reaches (S := machine (client (initlog LOGSIZE (fun _ => 0))))
    (G := fun _ _ => True) fourthWaits
    (fun s _ => s.holder (.spin ()) = none ∧ s.state 3 = .SLEEPING) (by decide +kernel)
  exact ⟨o,s,hr,hp.1,hp.2,
    (begin_op_not_stuck (Fin 4) LOGSIZE (fun _ => 0) o s hr hp.1).1 3 hp.2⟩

section Budget

def opBlocks : Point → Input → List BlockNo
  | .op ws, .logWrite b => ws.insert b
  | _, _ => []

def Within (k : ℕ) (_ : ι) (x : Point) (_ : Log) (b : Input) : Prop := (opBlocks x b).length ≤ k

instance (k : ℕ) (p : ι) (x : Point) (m : Log) (b : Input) : Decidable (Within k p x m b) :=
  inferInstanceAs (Decidable ((opBlocks x b).length ≤ k))

def budget (k : ℕ) : Point → ℤ
  | .beginExit => k
  | .op ws | .write ws _ | .writeSize ws _ | .writeOpen ws _ | .writeLock ws _ | .record ws _
  | .writeExit ws => k-ws.length
  | _ => 0

def SpotIn (k : ℕ) (m : Log) : Point → Prop
  | .op ws | .writeExit ws => ws.length ≤ k ∧ ∀ b ∈ ws, b ∈ m.logged
  | .write ws b | .writeSize ws b | .writeOpen ws b | .writeLock ws b | .record ws b =>
      (ws.insert b).length ≤ k ∧ ∀ a ∈ ws, a ∈ m.logged
  | _ => True

variable {k : ℕ} {m m' : Log} {x y : Point} {e : List Mark}

theorem insert_length (ws : List BlockNo) (b : BlockNo) : ws.length ≤ (ws.insert b).length := by
  by_cases h : b ∈ ws
  · rw [List.insert_of_mem h]
  · rw [List.insert_of_not_mem h, List.length_cons]
    omega

theorem budget_bounds (h : SpotIn k m x) : 0 ≤ budget k x ∧ budget k x ≤ k*opens x := by
  cases x with
  | op ws | writeExit ws =>
    simp only [budget, opens, SpotIn] at *
    omega
  | write ws b | writeSize ws b | writeOpen ws b | writeLock ws b | record ws b =>
    have := insert_length ws b
    simp only [budget, opens, SpotIn] at *
    omega
  | panic msg => cases msg <;> simp [budget, opens]
  | _ => simp [budget, opens]

theorem spot_in_frame (h : SpotIn k m x)
    (hm : opens x = 1 → ∀ b ∈ m.logged, b ∈ m'.logged) : SpotIn k m' x := by
  cases x with
  | op | writeExit | write | writeSize | writeOpen | writeLock | record =>
    exact ⟨h.1,fun b hb => hm rfl b (h.2 b hb)⟩
  | _ => trivial

theorem call_budget (h : (prog (ι := ι) x).next = some y) (hx : SpotIn k m x) :
    budget k y = budget k x ∧ SpotIn k m y := by
  cases x with
  | beginExit =>
    cases h
    exact ⟨by simp [budget],by simp [SpotIn]⟩
  | endExit doCommit => cases doCommit <;> cases h <;> exact ⟨rfl,trivial⟩
  | _ => cases h <;> exact ⟨rfl,hx⟩

variable [Fintype ι]

structure Budgeted (k : ℕ) (size : ℤ) (m : Log) (x : ι → Point) : Prop where
  size : m.size = size
  total : m.n+tally (budget k) x ≤ MAXOPBLOCKS+2*k
  spots : ∀ p, SpotIn k m (x p)

section Rules
variable {x : ι → Point} {p : ι}

theorem budget_move [DecidableEq ι] (h : Budgeted k size m x) (hsize : m'.size = m.size)
    (hn : m'.n+budget k y ≤ m.n+budget k (x p)) (hy : SpotIn k m' y)
    (hk : ∀ q, opens (x q) = 1 → ∀ b ∈ m.logged, b ∈ m'.logged) :
    Budgeted k size m' (update x p y) := by
  refine ⟨hsize.trans h.size,?_,fun q => ?_⟩
  · have htotal := h.total
    rw [tally_update]
    omega
  · by_cases hq : q = p
    · subst hq
      rwa [update_self]
    · rw [update_of_ne hq]
      exact spot_in_frame (h.spots q) (hk q)

theorem tally_budget (h : Budgeted k size m x) (hs : Sound m x) :
    tally (budget k) x ≤ k*m.outstanding := by
  rw [hs.count, tally, tally, Finset.mul_sum]
  exact Finset.sum_le_sum fun q _ => (budget_bounds (h.spots q)).2

/-- The test of `begin_op` keeps the bound: the first operation finds the header
empty, and where there are two or more each has a reservation to spare. -/
theorem budget_join (hk : k ≤ MAXOPBLOCKS) (h : Budgeted k size m x) (hs : Sound m x)
    (free : m.committing = false) (room : m.n+(m.outstanding+1)*MAXOPBLOCKS ≤ LOGSIZE) :
    m.n+tally (budget k) x+k ≤ MAXOPBLOCKS+2*k := by
  have ht := tally_budget h hs
  have ho := outstanding_nonneg hs
  rcases ho.eq_or_lt with ho | ho
  · rw [hs.empty free ho.symm]
    rw [← ho] at ht
    omega
  · simp only [LOGSIZE, MAXOPBLOCKS] at *
    have hspare : 0 ≤ (10-(k : ℤ))*(m.outstanding-1) :=
      mul_nonneg (by omega) (by omega)
    push_cast at room ⊢
    nlinarith

variable [DecidableEq ι]

theorem budget_record (h : Budgeted k size m x) {ws : List BlockNo}
    {b : BlockNo} (hx : x p = .record ws b) :
    Budgeted k size (m.record b) (update x p (.writeExit (ws.insert b))) := by
  have hp := h.spots p
  rw [hx] at hp
  refine budget_move h rfl ?_ ⟨hp.1,fun a ha => ?_⟩ (fun q _ a ha => (mem_record m b a).mpr (.inl ha))
  · rw [hx, ← logged_length, ← logged_length m]
    simp only [budget]
    by_cases hb : b ∈ m.logged
    · have := insert_length ws b
      rw [logged_old m b hb]
      omega
    · have hws : b ∉ ws := fun hin => hb (hp.2 b hin)
      rw [logged_new m b hb, List.insert_of_not_mem hws]
      simp only [List.length_append, List.length_cons, List.length_nil]
      omega
  · rw [mem_record]
    rcases List.mem_insert_iff.mp ha with rfl | ha
    · exact .inr rfl
    · exact .inl (hp.2 a ha)

theorem budget_act (hk : k ≤ MAXOPBLOCKS) (h : Budgeted k size m x) (hs : Sound m x)
    (hw : ∀ ws b, x p = .op ws → y = .write ws b → (ws.insert b).length ≤ k)
    (act : Act m (x p) m' y e) : Budgeted k size m' (update x p y) := by
  have hp := h.spots p
  have hb := (budget_bounds hp).1
  have hsame : ∀ q, opens (x q) = 1 → ∀ b ∈ m.logged, b ∈ m.logged := fun _ _ _ hb => hb
  generalize hx : x p = a at act hp
  cases act with
  | @write ws b =>
    exact budget_move h rfl (by rw [hx]; exact le_refl _) ⟨hw ws b hx rfl,hp.2⟩ hsame
  | leave | full | toobig | outside =>
    refine budget_move h rfl ?_ trivial hsame
    show (m.n : ℤ)+0 ≤ m.n+budget k (x p)
    omega
  | join free room =>
    refine ⟨h.size,?_,fun q => ?_⟩
    · rw [tally_update, hx]
      have := budget_join hk h hs free room
      simp only [budget]
      omega
    · by_cases hq : q = p
      · subst hq
        rw [update_self]
        trivial
      · rw [update_of_ne hq]
        exact spot_in_frame (h.spots q) (fun _ b hb => hb)
  | record => exact budget_record h hx
  | clear =>
    refine budget_move h rfl ?_ trivial (fun q hq => ?_)
    · rw [hx]
      simp only [budget]
      omega
    · have hfree := (open_free hs hq).2
      rw [(commit_sole hs (p := p) (by rw [hx]; rfl)).1] at hfree
      cases hfree
  | stuck | last | ended | finish => exact budget_move h rfl (by rw [hx]; exact le_refl _) trivial hsame
  | _ => exact budget_move h rfl (by rw [hx]; exact le_refl _) hp hsame

omit [Fintype ι] [DecidableEq ι] in
theorem write_input {f : Bool → Log → Input → Option (Log × Point × List Mark)} {d : Bool}
    {i : Input} {ws : List BlockNo} {b : BlockNo} (hp : prog (ι := ι) (.op ws) = .step f)
    (h : f d m i = some (m',.write ws b,e)) : opBlocks (.op ws) i = ws.insert b := by
  cases hp
  cases i <;> cases h
  rfl

theorem budget_run (hk : k ≤ MAXOPBLOCKS) {tr : List (ι × Mark)} {t : Code ι Log Point}
    (h : Run (code (client (initlog size block))) (Allows (Within k)) tr t) :
    Budgeted k size t.shared t.spot := by
  refine code_invariant (fun _ m x => Budgeted k size m x) ?_ ?_ ?_ h
  · refine ⟨rfl,?_,fun _ => trivial⟩
    rw [show tally (budget k) (client (ι := ι) (initlog size block)).start = 0 from tally_zero rfl]
    simp [client, initlog]
    omega
  · intro _ m x p y hh hy
    obtain ⟨hb,hspot⟩ := call_budget hy (hh.spots p)
    exact budget_move hh rfl (by rw [hb]) hspot (fun _ _ _ hb => hb)
  · intro tr m x p d b f m' y e hr hh hg hp hf
    refine budget_act hk hh (sound_run hr) ?_ (step_act hp hf)
    intro ws c hx hy
    have hg' : (opBlocks (x p) b).length ≤ k := hg
    rw [hx] at hg'
    have hp' : prog (ι := ι) (x p) = .step f := hp
    rw [hx] at hp'
    subst hy
    rwa [write_input hp' hf] at hg'

end Rules

theorem header_bound {x : ι → Point} (h : Budgeted k size m x) : m.n ≤ MAXOPBLOCKS+2*k := by
  have ht := h.total
  have hnn : 0 ≤ tally (budget k) x :=
    Finset.sum_nonneg fun q _ => (budget_bounds (h.spots q)).1
  omega

theorem act_too_big (act : Act m x m' y e) (hy : y = .panic .tooBig) :
    m.n ≥ LOGSIZE ∨ m.n ≥ m.size-1 := by
  cases act <;> cases hy
  · exact .inl (by assumption)
  · exact .inr (by assumption)

omit [Fintype ι] in
theorem call_panic {msg : Panic} : (prog (ι := ι) x).next ≠ some (.panic msg) := by
  intro h
  cases x with
  | endExit doCommit => cases doCommit <;> cases h
  | _ => cases h

end Budget

/-- No `log_write` panics for lack of room in a run in which every operation
gives it one block less than its reservation at most. -/
theorem log_room_suffices (ι : Type) [Fintype ι] [DecidableEq ι] (block : ℕ → BlockNo)
    (tr : Trace ι) (s : Sys ι)
    (h : Run (machine (client (initlog LOGSIZE block))) (Permits (Within (MAXOPBLOCKS-1))) tr s)
    (p : ι) : s.place p ≠ .code (.panic .tooBig) := by
  have hnone : ∀ q, (view s).spot q ≠ .panic .tooBig := by
    refine code_invariant (fun _ _ x => ∀ q, x q ≠ .panic .tooBig) (fun q hq => by cases hq)
      ?_ ?_ (run_view h)
    · intro _ m x p y hx hy q hq
      by_cases hqp : q = p
      · subst hqp
        rw [update_self] at hq
        subst hq
        exact call_panic hy
      · rw [update_of_ne hqp] at hq
        exact hx q hq
    · intro tr m x p d b f m' y e hr hx _ hp hf q hq
      by_cases hqp : q = p
      · subst hqp
        rw [update_self] at hq
        have hb : Budgeted (MAXOPBLOCKS-1) LOGSIZE m x := budget_run (by decide) hr
        have hn := header_bound hb
        have hsize := hb.size
        have hbig := act_too_big (step_act hp hf) hq
        simp only [LOGSIZE, MAXOPBLOCKS] at *
        omega
      · rw [update_of_ne hqp] at hq
        exact hx q hq
  exact fun hp => hnone p (view_code hp)

local instance threeThreads : @NeZero ℕ Zero.ofOfNat0 3 := ⟨by decide⟩

def nineEach : List (Label (Fin 3) Input) :=
  [0, 1, 2].flatMap enterOp ++ [0, 1, 2].flatMap (fun p => (List.range 9).flatMap
    (fun i => callWrite p (BitVec.ofNat 32 (9*p.val+i)) ++ storeBlock p))

theorem log_room_nine_each : ∃ (tr : Trace (Fin 3)) (s : Sys (Fin 3)),
    Run (machine (client (initlog LOGSIZE (fun _ => 0)))) (Permits (Within (MAXOPBLOCKS-1))) tr s ∧
    s.shared.n = 27 ∧ s.place 2 ≠ .code (.panic .tooBig) := by
  obtain ⟨o,s,hr,hp⟩ := exec_reaches (S := machine (client (initlog LOGSIZE (fun _ => 0))))
    (G := Permits (Within (MAXOPBLOCKS-1))) nineEach (fun s _ => s.shared.n = 27)
    (by decide +kernel)
  exact ⟨o,s,hr,hp,log_room_suffices (Fin 3) (fun _ => 0) o s hr 2⟩

def tenEach : List (Label (Fin 3) Input) :=
  [0, 1, 2].flatMap enterOp ++
    (List.range 10).flatMap (fun i => callWrite 0 (BitVec.ofNat 32 i) ++ storeBlock 0) ++
    (List.range 10).flatMap (fun i => callWrite 1 (BitVec.ofNat 32 (10+i)) ++ storeBlock 1) ++
    (List.range 9).flatMap (fun i => callWrite 2 (BitVec.ofNat 32 (20+i)) ++ storeBlock 2) ++
    [.thread 2 (.logWrite 29), .thread 2 .go, .thread 2 .go]

/-- Within their reservations of `MAXOPBLOCKS` blocks three operations bring
`log_write` to its panic. -/
theorem reservation_panics : ∃ (tr : Trace (Fin 3)) (s : Sys (Fin 3)),
    Run (machine (client (initlog LOGSIZE (fun _ => 0)))) (Permits (Within MAXOPBLOCKS)) tr s ∧
    s.place 2 = .code (.panic .tooBig) := by
  obtain ⟨o,s,hr,hp⟩ := exec_reaches (S := machine (client (initlog LOGSIZE (fun _ => 0))))
    (G := Permits (Within MAXOPBLOCKS)) tenEach (fun s _ => s.place 2 = .code (.panic .tooBig))
    (by decide +kernel)
  exact ⟨o,s,hr,by simpa using hp⟩

end Xv6.LogSpace

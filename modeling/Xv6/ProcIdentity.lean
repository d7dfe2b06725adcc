import Xv6.ProcInvariant

/-!
# Births name processes

The ghost birth of a slot is the value `nextpid` had when `allocproc` took
it. It names a process for good: two slots never share one, and the pid of a
slot in use is its low 32 bits.
-/

set_option autoImplicit false

namespace Xv6.ProcIdentity
open ProcTable ProcMachine TransitionSystem ProcStep ProcEffect
open ProcInvariant

variable {n : ℕ} {s s' : State n} {l : Fin n × Act} {o : List Obs}

structure Identified (s : State n) : Prop where
  fresh : ∀ p, (s.proc p).birth < s.nextpid
  distinct : ∀ {p q}, (s.proc p).birth ≠ 0 → (s.proc p).birth = (s.proc q).birth → p = q
  used : ∀ {p}, (s.proc p).state ≠ .UNUSED →
    (s.proc p).birth ≠ 0 ∧ (s.proc p).pid = BitVec.ofNat 32 (s.proc p).birth

theorem identified_boot : Identified (boot n) := by
  have hinit : ∀ {p}, ((boot n).proc p).birth ≠ 0 ∨ ((boot n).proc p).state ≠ .UNUSED → p = 0 := by
    intro p h
    rcases boot_proc (n := n) p with ⟨hp,-⟩ | ⟨-,hp⟩
    · exact hp
    · rw [hp] at h
      exact absurd h (by decide)
  refine ⟨?_,?_,?_⟩
  · intro p
    rcases boot_proc (n := n) p with ⟨-,hp⟩ | ⟨-,hp⟩ <;> rw [hp] <;> simp [boot, zeroProc]
  · intro p q hne heq
    have hq : ((boot n).proc q).birth ≠ 0 := heq ▸ hne
    exact (hinit (.inl hne)).trans (hinit (.inl hq)).symm
  · intro p hu
    rcases boot_proc (n := n) p with ⟨-,hp⟩ | ⟨hne,-⟩
    · rw [hp]
      decide
    · exact absurd (hinit (.inr hu)) hne

theorem used_move (h : Coherent s) (m : Move s l s' o) {p : Slot}
    (hu : (s'.proc p).state ≠ .UNUSED) :
    (s.proc p).state ≠ .UNUSED ∨ ((s.proc p).state = .UNUSED ∧ (s'.proc p).state = .EMBRYO) := by
  cases state_change m p with
  | same hsame => exact .inl (hsame ▸ hu)
  | alloc old new => exact .inr ⟨old,new⟩
  | forkFail j pc back new => exact absurd new hu
  | runnable j pc =>
    have he : (s.proc p).state = .EMBRYO := h.embryo (forking_at pc rfl)
    exact .inl (by rw [he]; decide)
  | dispatch old | woken old => exact .inl (by rw [old]; decide)
  | leave k run | exit k run => exact .inl (by rw [h.running run]; decide)
  | reaped old new => exact absurd new hu

theorem birth_kept (m : Move s l s' o) {p : Slot} (hu : (s.proc p).state ≠ .UNUSED) :
    (s'.proc p).birth = (s.proc p).birth := by
  rcases birth_change m with hsame | ⟨np,old,-,hsame⟩
  · exact hsame p
  · exact hsame p (fun hp => hu (hp ▸ old))

theorem fresh_move (h : Identified s) (m : Move s l s' o) (p : Slot) :
    (s'.proc p).birth < s'.nextpid := by
  have hkept : (s'.proc p).birth = (s.proc p).birth → (s'.proc p).birth < s'.nextpid := by
    intro hsame
    rw [hsame]
    exact Nat.lt_of_lt_of_le (h.fresh p) (nextpid_mono m)
  rcases birth_change m with hsame | ⟨np,old,new,hsame⟩
  · exact hkept (hsame p)
  · by_cases hp : p = np
    · subst hp
      obtain ⟨-,hb,hn,-⟩ := alloc_change m old new
      omega
    · exact hkept (hsame p hp)

theorem distinct_move (h : Identified s) (m : Move s l s' o) {p q : Slot}
    (hne : (s'.proc p).birth ≠ 0) (heq : (s'.proc p).birth = (s'.proc q).birth) : p = q := by
  rcases birth_change m with hsame | ⟨np,old,new,hsame⟩
  · rw [hsame] at hne
    rw [hsame, hsame] at heq
    exact h.distinct hne heq
  · obtain ⟨-,hb,-⟩ := alloc_change m old new
    have hp := h.fresh p
    have hq := h.fresh q
    by_cases hpn : p = np <;> by_cases hqn : q = np
    · rw [hpn, hqn]
    · rw [hsame q hqn, hpn, hb] at heq
      omega
    · rw [hsame p hpn, hqn, hb] at heq
      omega
    · rw [hsame p hpn] at hne
      rw [hsame p hpn, hsame q hqn] at heq
      exact h.distinct hne heq

theorem identified_move (hc : Coherent s) (h : Identified s) (m : Move s l s' o) :
    Identified s' := by
  refine ⟨fresh_move h m,distinct_move h m,?_⟩
  intro p hu
  rcases used_move hc m hu with hold | ⟨old,new⟩
  · have hpid : (s'.proc p).pid = (s.proc p).pid := by
      rcases pid_change m p with hsame | ⟨hp,-⟩ | ⟨-,hp⟩
      · exact hsame
      · exact absurd hp hold
      · exact absurd hp hu
    rw [birth_kept m hold, hpid]
    exact h.used hold
  · obtain ⟨hpid,hb,-⟩ := alloc_change m old new
    have := h.fresh p
    refine ⟨by omega,?_⟩
    rw [hpid, hb]

theorem identified_run {G : State n → Fin n × Act → Prop} {tr : List Obs}
    (h : Run (machine n) G tr s) : Identified s :=
  run_invariant (fun _ s => Identified s) identified_boot
    (fun _ _ _ _ _ hr hi _ hn => identified_move (coherent_run hr) hi (step_cases hn)) h

theorem same_process (h : Identified s) {p q : Slot} (hp : (s.proc p).state ≠ .UNUSED)
    (heq : (s.proc p).birth = (s.proc q).birth) : p = q :=
  h.distinct (h.used hp).1 heq

theorem same_slot (hc : Coherent s) (hi : Identified s) (m : Move s l s' o) {p r : Slot}
    (hp : (s.proc p).state ≠ .UNUSED) (hb : (s'.proc r).birth = (s.proc p).birth) : r = p := by
  rw [← birth_kept m hp] at hb
  refine ((identified_move hc hi m).distinct ?_ hb.symm).symm
  rw [birth_kept m hp]
  exact (hi.used hp).1

end Xv6.ProcIdentity

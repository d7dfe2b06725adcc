import Xv6.PipeCode

/-!
# A pipe is a bounded queue

What is stored and not yet copied out lies in the ring, in order, at most `PIPESIZE`
bytes of it. A reader that gets nothing has found the pipe empty and its write end
closed, which stays so.
-/

set_option autoImplicit false

namespace Xv6.PipeFifo
open TransitionSystem SleepMachine CodeMachine CounterRing PipeCode
open Function

variable {ι : Type}

def storedByte : Mark → Option Byte
  | .stored b => some b
  | _ => none

def copiedByte : Mark → Option Byte
  | .copied b => some b
  | _ => none

def stored (tr : List (ι × Mark)) : List Byte := tr.filterMap (fun e => storedByte e.2)

def copied (tr : List (ι × Mark)) : List Byte := tr.filterMap (fun e => copiedByte e.2)

def note (c : List Byte × List Byte) : Mark → List Byte × List Byte
  | .write bs => (bs,[])
  | .stored b => (c.1,c.2++[b])
  | _ => c

variable [DecidableEq ι]

def lastWrite (p : ι) (tr : List (ι × Mark)) : List Byte × List Byte :=
  ((tr.filter (fun e => e.1 = p)).map Prod.snd).foldl note ([],[])

def Ordered (c : List Byte × List Byte) : Point ι → Prop
  | .wLock bs => c = (bs,[])
  | .wTest _ _ rest | .wFullWake _ rest | .wSleep _ rest => c.1 = c.2++rest
  | _ => c.2 <+: c.1

/-- A reader that has got nothing wanted nothing, or the pipe is at its end. -/
def Drained (m : Pipe ι) : Point ι → Prop
  | .rWake n [] | .rExit n (some []) | .rDone n (some []) =>
      n ≤ 0 ∨ m.nread = m.nwrite ∧ m.writeopen = false
  | .rCopy _ got => got ≠ []
  | _ => True

structure Queue (tr : List (ι × Mark)) (m : Pipe ι) (x : ι → Point ι) : Prop where
  size : (m.nwrite-m.nread).toNat ≤ PIPESIZE
  fifo : stored tr = copied tr++m.unread
  order : ∀ p, Ordered (lastWrite p tr) (x p)
  drained : ∀ p, Drained m (x p)

section Ring
variable {m : Pipe ι}

omit [DecidableEq ι] in
theorem full_iff : m.nwrite = m.nread+512 ↔ (m.nwrite-m.nread).toNat = PIPESIZE := by
  simp only [PIPESIZE]
  constructor <;> intro h <;> bv_omega

omit [DecidableEq ι] in
theorem store_unread (b : Byte) (h : (m.nwrite-m.nread).toNat < PIPESIZE) :
    (m.store b).unread = m.unread++[b] ∧ ((m.store b).nwrite-(m.store b).nread).toNat ≤ PIPESIZE := by
  have hlen : (m.nwrite+1-m.nread).toNat = (m.nwrite-m.nread).toNat+1 := by
    simp only [PIPESIZE] at h
    bv_omega
  have hpush := held_push (by decide : 0 < PIPESIZE) m.data (r := m.nread) (by decide) b h
  rw [add_diff] at hpush
  constructor
  · simp only [Pipe.unread, Pipe.store, hlen]
    exact hpush
  · simp only [Pipe.store, hlen]
    omega

omit [DecidableEq ι] in
theorem take_unread (h : m.nread ≠ m.nwrite) :
    m.unread = m.data (slot m.nread)::m.take.unread ∧
      (m.take.nwrite-m.take.nread).toNat ≤ (m.nwrite-m.nread).toNat := by
  have hlen : (m.nwrite-m.nread).toNat = (m.nwrite-(m.nread+1)).toNat+1 := by bv_omega
  constructor
  · simp only [Pipe.unread, Pipe.take]
    rw [hlen, held_cons]
    rfl
  · simp only [Pipe.take, hlen]
    omega

end Ring

section Acts
variable {p : ι} {d : Bool} {m m' : Pipe ι} {x y : Point ι} {e : List Mark}

theorem act_queue (act : Act p d m x m' y e) (h : (m.nwrite-m.nread).toNat ≤ PIPESIZE) :
    (m'.nwrite-m'.nread).toNat ≤ PIPESIZE ∧
      ∃ k, m.unread++e.filterMap storedByte = k++m'.unread ∧ e.filterMap copiedByte = k := by
  cases act with
  | @store w n b rest room =>
    have hroom : (m.nwrite-m.nread).toNat < PIPESIZE := Nat.lt_of_le_of_ne h fun hf => room (full_iff.mpr hf)
    obtain ⟨hunread,hsize⟩ := store_unread b hroom
    exact ⟨hsize,[],hunread.symm,rfl⟩
  | first some | copy some =>
    obtain ⟨hunread,hsize⟩ := take_unread some
    refine ⟨Nat.le_trans hsize h,_,?_,rfl⟩
    rw [hunread]
    simp [storedByte, copiedByte]
  | setRead | setWrite => exact ⟨h,[],List.append_nil _,rfl⟩
  | _ => exact ⟨h,[],List.append_nil _,rfl⟩

theorem act_order (act : Act p d m x m' y e) {c : List Byte × List Byte} (h : Ordered c x) :
    Ordered (e.foldl note c) y := by
  cases act with
  | write => exact rfl
  | store =>
    show c.1 = (c.2++[_])++_
    rw [List.append_assoc]
    exact h
  | written | broken =>
    show c.2 <+: c.1
    rw [show c.1 = c.2++_ from h]
    exact List.prefix_append _ _
  | _ => exact h

theorem act_ended (act : Act p d m x m' y e) (hx : m.writeopen = false → writer x = false)
    (h : m.nread = m.nwrite ∧ m.writeopen = false) : m'.nread = m'.nwrite ∧ m'.writeopen = false := by
  cases act with
  | store => cases hx h.2
  | first some | copy some => exact absurd h.1 some
  | setWrite => exact ⟨h.1,rfl⟩
  | _ => exact h

theorem act_drained (act : Act p d m x m' y e) (hx : m.writeopen = false → writer x = false)
    (h : Drained m x) : Drained m' y := by
  cases act with
  | none none => exact none
  | first => exact List.cons_ne_nil _ _
  | copy => exact List.append_ne_nil_of_right_ne_nil _ (List.cons_ne_nil _ _)
  | @copied n got =>
    cases got with
    | nil => exact absurd rfl h
    | cons => trivial
  | _ => trivial

omit [DecidableEq ι] in
theorem drained_other {z : Point ι} (h : Drained m z)
    (hkeep : m.nread = m.nwrite ∧ m.writeopen = false → m'.nread = m'.nwrite ∧ m'.writeopen = false) :
    Drained m' z := by
  cases z with
  | rWake n got =>
    cases got with
    | nil => exact h.imp id hkeep
    | cons => trivial
  | rExit n got | rDone n got =>
    rcases got with _ | _ | _
    · trivial
    · exact h.imp id hkeep
    · trivial
  | rCopy => exact h
  | _ => trivial

end Acts

variable {tr : List (ι × Mark)} {c : List Byte × List Byte} {p : ι}

theorem call_order [Fintype ι] {x y : Point ι} (h : (prog p x).next = some y)
    (hx : Ordered c x) : Ordered c y := by
  cases x with
  | wTest w n rest => cases rest <;> cases h
  | cExit free => cases free <;> cases h <;> exact hx
  | wLock bs =>
    cases h
    have hc : c = (bs,[]) := hx
    rw [hc]
    rfl
  | _ => cases h <;> exact hx

theorem call_drained [Fintype ι] {x y : Point ι} (h : (prog p x).next = some y) {m : Pipe ι}
    (hx : Drained m x) : Drained m y := by
  cases x with
  | wTest w n rest => cases rest <;> cases h
  | cExit free => cases free <;> cases h <;> exact hx
  | rWake n got => cases got <;> cases h <;> exact hx
  | rExit n got => rcases got with _ | _ | _ <;> cases h <;> exact hx
  | _ => cases h <;> exact hx

theorem last_write_append (p q : ι) (tr : List (ι × Mark)) (e : List Mark) :
    lastWrite p (tr++e.map (Prod.mk q)) = if q = p then e.foldl note (lastWrite p tr)
    else lastWrite p tr := by
  have hmap : ((e.map (Prod.mk q)).filter (fun e => e.1 = p)).map Prod.snd = if q = p then e else [] := by
    rw [List.filter_map, List.map_map]
    by_cases hq : q = p <;> simp [hq, Function.comp_def]
  rw [lastWrite, List.filter_append, List.map_append, hmap, List.foldl_append, lastWrite]
  split <;> rfl

omit [DecidableEq ι] in
theorem bytes_append (f : Mark → Option Byte) (tr : List (ι × Mark)) (p : ι) (e : List Mark) :
    (tr++e.map (Prod.mk p)).filterMap (fun e => f e.2) = tr.filterMap (fun e => f e.2)++e.filterMap f := by
  rw [List.filterMap_append, List.filterMap_map]
  rfl

theorem queue_act {m m' : Pipe ι} {x : ι → Point ι} {d : Bool}
    {y : Point ι} {e : List Mark} (hm : Members m x) (h : Queue tr m x) (act : Act p d m (x p) m' y e) :
    Queue (tr++e.map (Prod.mk p)) m' (update x p y) := by
  obtain ⟨hsize,k,hunread,hcopied⟩ := act_queue act h.size
  have hwriter : m.writeopen = false → writer (x p) = false := by
    intro ho
    rw [← congrFun hm.writing p]
    exact hm.writers (hm.writeopen ho) p
  refine ⟨hsize,?_,fun q => ?_,fun q => ?_⟩
  · rw [stored, copied, bytes_append, bytes_append, hcopied, List.append_assoc, ← hunread,
      ← List.append_assoc]
    exact congrArg (·++_) h.fifo
  · rw [last_write_append]
    by_cases hq : q = p
    · subst hq
      rw [if_pos rfl, update_self]
      exact act_order act (h.order q)
    · rw [if_neg (Ne.symm hq), update_of_ne hq]
      exact h.order q
  · by_cases hq : q = p
    · subst hq
      rw [update_self]
      exact act_drained act hwriter (h.drained q)
    · rw [update_of_ne hq]
      exact drained_other (h.drained q) (act_ended act hwriter)

theorem queue_call [Fintype ι] {m : Pipe ι} {x : ι → Point ι} {y : Point ι}
    (h : Queue tr m x) (hy : (prog p (x p)).next = some y) : Queue tr m (update x p y) := by
  refine ⟨h.size,h.fifo,fun q => ?_,fun q => ?_⟩ <;> by_cases hq : q = p
  · subst hq
    rw [update_self]
    exact call_order hy (h.order q)
  · rw [update_of_ne hq]
    exact h.order q
  · subst hq
    rw [update_self]
    exact call_drained hy (h.drained q)
  · rw [update_of_ne hq]
    exact h.drained q

theorem queue_run [Fintype ι] {data : Fin PIPESIZE → Byte} {g : ι → Point ι → Pipe ι → Input ι → Prop}
    {t : Code ι (Pipe ι) (Point ι)}
    (h : Run (code (client data)) (Allows g) tr t) : Queue tr t.shared t.spot := by
  refine code_invariant (fun tr m x => Queue tr m x) ?_ ?_ ?_ h
  · refine ⟨?_,?_,fun _ => List.prefix_refl _,fun _ => trivial⟩
    · simp [client, pipealloc]
    · simp [stored, copied, client, pipealloc, Pipe.unread]
  · exact fun _ m x p y hm hy => queue_call hm hy
  · exact fun _ m x p d b f m' y e hr hm _ hp hf => queue_act (members_run hr) hm (step_act hp hf)

omit [DecidableEq ι] in
theorem ordered_prefix {x : Point ι} (h : Ordered c x) : c.2 <+: c.1 := by
  cases x with
  | wLock bs =>
    have hc : c = (bs,[]) := h
    rw [hc]
    exact List.nil_prefix
  | wTest | wFullWake | wSleep =>
    rw [show c.1 = c.2++_ from h]
    exact List.prefix_append _ _
  | _ => exact h

abbrev Sys (ι : Type) := State ι Unit Chan (Pipe ι) (Point ι)
abbrev Trace (ι : Type) := List (Event ι Chan Mark)

/-- The bytes stored are the bytes copied out and those in the ring, at most `PIPESIZE`
of them; every writer stores its bytes in order; and a reader that wanted some byte and
returns none has found the pipe empty with its write end closed. -/
theorem pipe_is_fifo (ι : Type) [Fintype ι] [DecidableEq ι] (data : Fin PIPESIZE → Byte) (tr : Trace ι)
    (s : Sys ι) (h : Run (machine (client data)) (fun _ _ => True) tr s) :
    (s.shared.nwrite-s.shared.nread).toNat ≤ PIPESIZE ∧
    stored (tr.filterMap own) = copied (tr.filterMap own)++s.shared.unread ∧
    (∀ p, (lastWrite p (tr.filterMap own)).2 <+: (lastWrite p (tr.filterMap own)).1) ∧
    (∀ p n, s.place p = .code (.rDone n (some [])) → 0 < n →
      s.shared.nread = s.shared.nwrite ∧ s.shared.writeopen = false) := by
  have hr := run_mono (H := Permits (fun _ _ _ _ => True)) (fun s l _ => permits_all s l) h
  have hq : Queue (tr.filterMap own) s.shared (view s).spot := queue_run (run_view hr)
  refine ⟨hq.size,hq.fifo,fun p => ordered_prefix (hq.order p),fun p n hp hn => ?_⟩
  have hdrained := hq.drained p
  rw [view_code hp] at hdrained
  rcases hdrained with hzero | hend
  · omega
  · exact hend

def twoBytes : List (Label (Fin 2) (Input (Fin 2))) :=
  .thread 0 (.write [7,9]) :: List.replicate 10 (.thread 0 .go) ++
    .thread 0 (.close true) :: List.replicate 8 (.thread 0 .go) ++
    .thread 1 (.read 5) :: List.replicate 10 (.thread 1 .go) ++
    .thread 1 (.read 5) :: List.replicate 7 (.thread 1 .go)

theorem pipe_is_fifo_two_bytes : ∃ (tr : Trace (Fin 2)) (s : Sys (Fin 2)),
    Run (machine (client (fun _ => 0))) (fun _ _ => True) tr s ∧
    s.place 1 = .code (.rDone 5 (some [])) ∧ copied (tr.filterMap own) = [7,9] ∧
    stored (tr.filterMap own) = copied (tr.filterMap own)++s.shared.unread ∧
    s.shared.nread = s.shared.nwrite ∧ s.shared.writeopen = false := by
  obtain ⟨tr,s,hr,hp⟩ := exec_reaches (S := machine (client (ι := Fin 2) (fun _ => 0)))
    (G := fun _ _ => True) twoBytes
    (fun s tr => s.place 1 = .code (.rDone 5 (some [])) ∧ copied (tr.filterMap own) = [7,9])
    (by decide +kernel)
  obtain ⟨-,hfifo,-,hend⟩ := pipe_is_fifo (Fin 2) _ tr s hr
  exact ⟨tr,s,hr,hp.1,hp.2,hfifo,hend 1 5 hp.1 (by decide)⟩

end Xv6.PipeFifo

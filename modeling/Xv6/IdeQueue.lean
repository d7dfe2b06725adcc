import Xv6.IdeCode

/-!
# The queue of the disk

Where a request is: in the queue, in the hands of the handler that took it off the queue, or
done. The disk is in one of six phases, and every thread is at a point that fits them.
-/

set_option autoImplicit false

namespace Xv6.IdeQueue
open SleepMachine LinkedQueue IdeCode
open Function

/-- The disk has nothing to do; it works on a request; it has finished it and the interrupt is
raised, or handler `k` has taken the interrupt; the handler has the request off the queue; it
has completed it. -/
inductive Phase (B : Type) where
  | idle
  | busy (b : B)
  | raised (b : B)
  | coming (b : B) (k : ℕ)
  | moving (b : B) (k : ℕ)
  | after (k : ℕ)

variable {ι B V : Type}

def Phase.hand : Phase B → Option ℕ
  | .coming _ k | .moving _ k | .after k => some k
  | _ => none

def Phase.active : Phase B → Option B
  | .busy b | .raised b | .coming b _ | .moving b _ => some b
  | _ => none

def Phase.taken : Phase B → List B
  | .moving b _ => [b]
  | _ => []

def pending (ph : Phase B) (q : List B) : List B := ph.taken++q

def onDisk (m : Mem ι B V) (b : B) : V := m.device.disk ((m.buf b).dev%2) (m.buf b).blockno

def Finished (m : Mem ι B V) (b : B) : Prop :=
  ((m.buf b).dirty = true → onDisk m b = (m.buf b).data) ∧
  ((m.buf b).dirty = false → m.device.port = onDisk m b)

def DeviceOk (m : Mem ι B V) (q : List B) : Phase B → Prop
  | .idle => m.device.active = none ∧ m.irq = false
  | .busy b =>
    m.device.active = some (command (m.buf b)) ∧ (m.buf b).blockno < FSSIZE ∧ m.irq = false ∧ ∃ r, q = b::r
  | .raised b => m.device.active = none ∧ m.irq = true ∧ Finished m b ∧ ∃ r, q = b::r
  | .coming b _ => m.device.active = none ∧ m.irq = false ∧ Finished m b ∧ ∃ r, q = b::r
  | .moving _ _ => m.device.active = none ∧ m.irq = false
  | .after _ => m.device.active = none ∧ m.irq = false

structure Fresh (m : Mem ι B V) (l : List B) (p : ι) (b : B) : Prop where
  lock : (m.buf b).lock = some p
  work : (m.buf b).ready = false
  out : b ∉ l

/-- What holds at each point; a thread is never at one of another kind of thread. -/
def PointOk (m : Mem ι B V) (q : List B) (ph : Phase B) : Agent ι → Point ι B → Prop
  | .proc p, .acquire b | .proc p, .append b => Fresh m (pending ph q) p b
  | .proc p, .find b pp =>
      Fresh m (pending ph q) p b ∧ m.qnext b = none ∧ ∃ rest, Before m.idequeue m.qnext q pp rest
  | .proc p, .head b => (m.buf b).lock = some p ∧ ∃ q0, q = q0++[b] ∧ (q0 = [] → ph = .idle)
  | .proc p, .start b | .proc p, .halted b => (m.buf b).lock = some p ∧ q = [b] ∧ ph = .idle
  | .proc p, .test b | .proc p, .sleep b => (m.buf b).lock = some p
  | .proc p, .exit b | .proc p, .done b => (m.buf b).lock = some p ∧ b ∉ pending ph q
  | .proc _, .idle | .proc _, .check _ | .proc _, .kill _ | .proc _, .panicked _ => True
  | .disk, .device => True
  | .handler k, .wait | .handler k, .leave => ph.hand ≠ some k
  | .handler k, .lock | .handler k, .take => ∃ b, ph = .coming b k
  | .handler k, .read b => ph = .moving b k ∧ Finished m b
  | .handler k, .flags b => ph = .moving b k ∧ onDisk m b = (m.buf b).data
  | .handler k, .wake _ | .handler k, .next | .handler k, .halted _ => ph = .after k
  | _, _ => False

/-- The request that a process at this point waits for. -/
def waitsFor : Point ι B → Option B
  | .head b | .start b | .halted b | .test b | .sleep b => some b
  | _ => none

/-- The request that a process at this point is about to start, or has been stopped at. -/
def startsFor : Point ι B → Option B
  | .head b | .start b | .halted b => some b
  | _ => none

def handling : Point ι B → Bool
  | .lock | .take | .read _ | .flags _ | .wake _ | .next | .halted _ => true
  | _ => false

structure Queued (m : Mem ι B V) (x : Agent ι → Point ι B) (q : List B) (ph : Phase B) : Prop where
  queue : Linked m.qnext m.idequeue q
  nodup : (pending ph q).Nodup
  device : DeviceOk m q ph
  points : ∀ a, PointOk m q ph a (x a)
  waits : ∀ b ∈ pending ph q, (m.buf b).ready = false ∧ ∃ p, waitsFor (x (.proc p)) = some b
  idle : ph = .idle → q = [] ∨ ∃ p b, q = [b] ∧ startsFor (x (.proc p)) = some b
  hand : ∀ k, ph.hand = some k → handling (x (.handler k)) = true

def stored (m : Mem ι B V) : MemDisk ι B V := ⟨m.buf,m.device.disk 1⟩

structure Carried (m m' : Mem ι B V) (b : B) : Prop where
  buf : m'.buf = m.buf
  write : (m.buf b).dev = 1 → (m.buf b).dirty = true →
    m'.device.disk 1 = update (m.device.disk 1) (m.buf b).blockno (m.buf b).data
  read : (m.buf b).dirty = false → m'.device.disk 1 = m.device.disk 1

/-- What a step does to the requests `l` and to the memory. -/
inductive Effect [DecidableEq B] (m m' : Mem ι B V) (ph ph' : Phase B) (l l' : List B) :
    Agent ι → List (Mark ι B V) → Prop
  | set {p : ι} {b : B} {c : Buf ι V} (out : b ∉ l) (new : c.lock = none ∨ c.lock = some p)
      (mem : stored m' = (stored m).set b c) (same : l' = l) (active : ph'.active = ph.active) :
      Effect m m' ph ph' l l' (.proc p) [.set b c]
  | queued {p : ι} {b : B} (fresh : Fresh m l p b) (mem : stored m' = stored m) (more : l' = l++[b])
      (active : ph'.active = ph.active) : Effect m m' ph ph' l l' (.proc p) [.queued b]
  | started {a : Agent ι} {b : B} (here : b ∈ l) (mem : stored m' = stored m) (same : l' = l)
      (free : ph.active = none) (active : ph'.active = some b) : Effect m m' ph ph' l l' a [.started b]
  | finished {a : Agent ι} {b : B} {r : List B} (here : l = b::r) (mem : Carried m m' b) (same : l' = l)
      (active : ph'.active = ph.active) : Effect m m' ph ph' l l' a []
  | copied {a : Agent ι} {b : B} {r : List B} {v : V} (here : l = b::r) (clean : (m.buf b).dirty = false)
      (mem : stored m' = (stored m).set b { m.buf b with data := v }) (same : l' = l)
      (active : ph'.active = ph.active) : Effect m m' ph ph' l l' a []
  | moved {a : Agent ι} {b : B} (here : l = b::l') (done : onDisk m b = (m.buf b).data)
      (mem : stored m' = (stored m).set b { m.buf b with valid := true, dirty := false })
      (active : ph.active = some b) (free : ph'.active = none) : Effect m m' ph ph' l l' a [.moved b]
  | called {a : Agent ι} {b : B} (mem : stored m' = stored m) (same : l' = l)
      (active : ph'.active = ph.active) : Effect m m' ph ph' l l' a [.call b]
  | returned {a : Agent ι} {b : B} (mem : stored m' = stored m) (same : l' = l)
      (active : ph'.active = ph.active) : Effect m m' ph ph' l l' a [.returned b]
  | other {a : Agent ι} (mem : stored m' = stored m) (same : l' = l) (active : ph'.active = ph.active) :
      Effect m m' ph ph' l l' a []

section Frame
variable {m m' : Mem ι B V} {x : Agent ι → Point ι B} {q q' : List B} {ph ph' : Phase B} {a c : Agent ι}
  {p : ι} {k : ℕ} {b : B} {pt y : Point ι B}

theorem starts_waits (h : startsFor pt = some b) : waitsFor pt = some b := by
  cases pt <;> first | exact h | cases h

theorem starts_critical (h : startsFor pt = some b) : critical pt = true := by
  cases pt <;> first | rfl | cases h

theorem waits_lock (h : PointOk m q ph (.proc p) pt) (hw : waitsFor pt = some b) :
    (m.buf b).lock = some p := by
  cases pt with
  | head | start | halted =>
    cases hw
    exact h.1
  | test | sleep =>
    cases hw
    exact h
  | _ => cases hw

/-- What holds at a point of a process is about its own buffers; inside the lock it is also
about the queue. -/
theorem proc_frame (h : PointOk m q ph (.proc p) pt)
    (hlock : ∀ {b}, (m.buf b).lock = some p → (m'.buf b).lock = some p)
    (hfree : ∀ {b}, (m.buf b).lock = some p → b ∉ pending ph q →
      b ∉ pending ph' q' ∧ (m'.buf b).ready = (m.buf b).ready)
    (hcrit : critical pt = true → m'.idequeue = m.idequeue ∧ m'.qnext = m.qnext ∧ q' = q ∧
      (ph = .idle ↔ ph' = .idle)) : PointOk m' q' ph' (.proc p) pt := by
  have hfresh : ∀ {b}, Fresh m (pending ph q) p b → Fresh m' (pending ph' q') p b := fun hf => by
    obtain ⟨hout,hready⟩ := hfree hf.lock hf.out
    exact ⟨hlock hf.lock,hready.trans hf.work,hout⟩
  cases pt with
  | acquire | append => exact hfresh h
  | find =>
    obtain ⟨hqueue,hnext,rfl,-⟩ := hcrit rfl
    refine ⟨hfresh h.1,?_⟩
    rw [hqueue, hnext]
    exact h.2
  | head =>
    obtain ⟨-,-,rfl,hidle⟩ := hcrit rfl
    obtain ⟨hl,q0,hq,hfirst⟩ := h
    exact ⟨hlock hl,q0,hq,fun hnil => hidle.mp (hfirst hnil)⟩
  | start | halted =>
    obtain ⟨-,-,rfl,hidle⟩ := hcrit rfl
    exact ⟨hlock h.1,h.2.1,hidle.mp h.2.2⟩
  | test | sleep => exact hlock h
  | exit | done => exact ⟨hlock h.1,(hfree h.1 h.2).1⟩
  | idle | check | kill | panicked => trivial
  | _ => exact h.elim

theorem disk_frame (h : PointOk m q ph .disk pt) : PointOk m' q' ph' .disk pt := by
  cases pt with
  | device => trivial
  | _ => exact h.elim

theorem point_outside (h : PointOk m q ph c pt) (hout : critical pt = false)
    (hlock : ∀ {b}, (m'.buf b).lock = (m.buf b).lock)
    (hfree : ∀ p b, c = .proc p → (m.buf b).lock = some p → b ∉ pending ph q →
      b ∉ pending ph' q' ∧ (m'.buf b).ready = (m.buf b).ready)
    (hhand : ∀ k, c = .handler k → ph.hand ≠ some k → ph'.hand ≠ some k)
    (hcome : ∀ k b, c = .handler k → ph = .coming b k → ∃ b', ph' = .coming b' k) :
    PointOk m' q' ph' c pt := by
  cases c with
  | proc p =>
    refine proc_frame h hlock.trans (hfree p _ rfl) fun hcrit => ?_
    rw [hout] at hcrit
    cases hcrit
  | disk => exact disk_frame h
  | handler k =>
    cases pt with
    | wait | leave => exact hhand k rfl h
    | lock =>
      obtain ⟨b,hb⟩ := h
      exact hcome k b rfl hb
    | take | read | flags | wake | next | halted => cases hout
    | _ => exact h.elim

variable [DecidableEq ι]

theorem points_update (hother : ∀ c, c ≠ a → PointOk m' q' ph' c (x c)) (hy : PointOk m' q' ph' a y)
    (c : Agent ι) : PointOk m' q' ph' c (update x a y c) := by
  by_cases hc : c = a
  · subst hc
    rw [update_self]
    exact hy
  · rw [update_of_ne hc]
    exact hother c hc

theorem proc_update {f : Point ι B → Option B} (hold : ∃ p, f (x (.proc p)) = some b)
    (hy : ∀ p, a = .proc p → f (x a) = some b → f y = some b) : ∃ p, f (update x a y (.proc p)) = some b := by
  obtain ⟨p,hp⟩ := hold
  refine ⟨p,?_⟩
  by_cases ha : .proc p = a
  · subst ha
    rw [update_self]
    exact hy p rfl hp
  · rw [update_of_ne ha]
    exact hp

theorem waits_update (h : Queued m x q ph)
    (hkeep : ∀ b ∈ pending ph' q', b ∈ pending ph q ∧ (m'.buf b).ready = (m.buf b).ready)
    (hy : ∀ p b, a = .proc p → b ∈ pending ph q → waitsFor (x a) = some b → waitsFor y = some b) :
    ∀ b ∈ pending ph' q', (m'.buf b).ready = false ∧ ∃ p, waitsFor (update x a y (.proc p)) = some b := by
  intro b hb
  obtain ⟨hb,hready⟩ := hkeep b hb
  obtain ⟨hwork,hwait⟩ := h.waits b hb
  exact ⟨hready.trans hwork,proc_update hwait fun p ha => hy p b ha hb⟩

theorem hand_update (h : ∀ k, ph.hand = some k → handling (x (.handler k)) = true)
    (hy : ∀ k, a = .handler k → ph.hand = some k → handling y = true) (k : ℕ) (hk : ph.hand = some k) :
    handling (update x a y (.handler k)) = true := by
  by_cases ha : .handler k = a
  · subst ha
    rw [update_self]
    exact hy k rfl hk
  · rw [update_of_ne ha]
    exact h k hk

theorem hand_self (hph : ph.hand = some k) (hy : handling y = true) (j : ℕ) (hj : ph.hand = some j) :
    handling (update x (.handler k) y (.handler j)) = true := by
  cases hph.symm.trans hj
  rw [update_self]
  exact hy

theorem queued_stay (h : Queued m x q ph) (hy : PointOk m q ph a y)
    (hwait : ∀ p b, a = .proc p → b ∈ pending ph q → waitsFor (x a) = some b → waitsFor y = some b)
    (hstart : ∀ p b, a = .proc p → ph = .idle → q = [b] → startsFor (x a) = some b → startsFor y = some b)
    (hhand : ∀ k, a = .handler k → ph.hand = some k → handling y = true) : Queued m (update x a y) q ph where
  queue := h.queue
  nodup := h.nodup
  device := h.device
  points := points_update (fun c _ => h.points c) hy
  waits := waits_update h (fun _ hb => ⟨hb,rfl⟩) hwait
  idle := fun hidle => by
    rcases h.idle hidle with hq | ⟨p,b,hq,hp⟩
    · exact .inl hq
    · obtain ⟨p,hp⟩ := proc_update ⟨p,hp⟩ fun p ha => hstart p b ha hidle hq
      exact .inr ⟨p,b,hq,hp⟩
  hand := hand_update h.hand hhand

omit [DecidableEq ι] in
theorem phase_idle (h : Queued m x q ph) (hq : q = []) (hnone : ∀ k, critical (x (.handler k)) = false) :
    ph = .idle := by
  subst hq
  have hdev := h.device
  have hnot : ∀ k, ph.hand = some k → (∀ b, ph ≠ .coming b k) → False := fun k hk hne => by
    have hpt := h.points (.handler k)
    have hhand := h.hand k hk
    have hcrit := hnone k
    generalize x (.handler k) = pt at hpt hhand hcrit
    cases pt with
    | lock =>
      obtain ⟨b,hb⟩ := hpt
      exact hne b hb
    | take | read | flags | wake | next | halted => cases hcrit
    | _ => cases hhand
  cases ph with
  | idle => rfl
  | busy | raised | coming =>
    obtain ⟨-,-,-,r,hr⟩ := hdev
    cases hr
  | moving b k | after k => exact (hnot k rfl nofun).elim

end Frame

section Process
variable {m : Mem ι B V} {x : Agent ι → Point ι B} {q : List B} {ph : Phase B} {p : ι} {b : B}

theorem head_only (h : Queued m x q ph) {q0 : List B} (hq : q = q0++[b]) (hfirst : m.idequeue = some b) :
    q = [b] := by
  have hlink := h.queue
  rw [hfirst] at hlink
  obtain ⟨r,hr,-⟩ := linked_some hlink
  have hnodup : q.Nodup := (List.nodup_append.mp h.nodup).2.1
  cases q0 with
  | nil => exact hq
  | cons d q0 =>
    rw [hq, List.cons_append, List.cons.injEq] at hr
    rw [hq, List.cons_append, List.nodup_cons, hr.1] at hnodup
    exact absurd (List.mem_append_right q0 (List.mem_singleton_self b)) hnodup.1

theorem pending_waited (h : Queued m x q ph) (hb : b ∈ pending ph q) (hlock : (m.buf b).lock = some p) :
    waitsFor (x (.proc p)) = some b := by
  obtain ⟨-,p',hw⟩ := h.waits b hb
  cases hlock.symm.trans (waits_lock (h.points (.proc p')) hw)
  exact hw

theorem set_apart (h : Queued m x q ph) (hx : x (.proc p) = .idle)
    (hold : (m.buf b).lock = none ∨ (m.buf b).lock = some p) :
    (∀ p' b', p' ≠ p → (m.buf b').lock = some p' → b' ≠ b) ∧ ∀ b' ∈ pending ph q, b' ≠ b := by
  have hother : ∀ p' b', p' ≠ p → (m.buf b').lock = some p' → b' ≠ b := by
    rintro p' b' hne hlock rfl
    rw [hlock] at hold
    rcases hold with hold | hold
    · cases hold
    · cases hold
      exact hne rfl
  refine ⟨hother,fun b' hb' => ?_⟩
  obtain ⟨-,p',hw⟩ := h.waits b' hb'
  refine hother p' b' ?_ (waits_lock (h.points (.proc p')) hw)
  rintro rfl
  rw [hx] at hw
  cases hw

variable [DecidableEq B]

theorem setBuf_other {b' : B} {c : Buf ι V} (hne : b' ≠ b) : (m.setBuf b c).buf b' = m.buf b' :=
  update_of_ne hne _ _

theorem setBuf_self {c : Buf ι V} : (m.setBuf b c).buf b = c := update_self _ _ _

theorem setBuf_lock {c : Buf ι V} (hc : c.lock = (m.buf b).lock) {d : B} :
    ((m.setBuf b c).buf d).lock = (m.buf d).lock := by
  by_cases hd : d = b
  · rw [hd, setBuf_self, hc]
  · rw [setBuf_other hd]

theorem queued_set (h : Queued m x q ph) (hx : x (.proc p) = .idle) {c : Buf ι V}
    (hold : (m.buf b).lock = none ∨ (m.buf b).lock = some p) : Queued (m.setBuf b c) x q ph := by
  obtain ⟨hother,hpend⟩ := set_apart h hx hold
  have hsame : ∀ b' ∈ pending ph q, (m.setBuf b c).buf b' = m.buf b' :=
    fun b' hb' => setBuf_other (hpend b' hb')
  have hdisk : ∀ b' ∈ pending ph q, onDisk (m.setBuf b c) b' = onDisk m b' := fun b' hb' => by
    rw [onDisk, onDisk, hsame b' hb']
    rfl
  have hfin : ∀ b' ∈ pending ph q, Finished m b' → Finished (m.setBuf b c) b' := fun b' hb' hf => by
    rw [Finished, hdisk b' hb', hsame b' hb']
    exact hf
  refine ⟨h.queue,h.nodup,?_,fun a => ?_,fun b' hb' => ?_,h.idle,h.hand⟩
  · have hdev := h.device
    cases ph with
    | busy b' =>
      obtain ⟨h1,h2,h3,r,rfl⟩ := hdev
      rw [← hsame b' List.mem_cons_self] at h1 h2
      exact ⟨h1,h2,h3,r,rfl⟩
    | raised b' | coming b' =>
      obtain ⟨h1,h2,h3,r,rfl⟩ := hdev
      exact ⟨h1,h2,hfin b' List.mem_cons_self h3,r,rfl⟩
    | _ => exact hdev
  · have hpt := h.points a
    cases a with
    | proc p' =>
      by_cases hp : p' = p
      · subst hp
        rw [hx]
        trivial
      · have hbuf : ∀ {b'}, (m.buf b').lock = some p' → (m.setBuf b c).buf b' = m.buf b' := fun hl =>
          setBuf_other (hother p' _ hp hl)
        exact proc_frame hpt (fun hl => (congrArg Buf.lock (hbuf hl)).trans hl)
          (fun hl hb' => ⟨hb',congrArg Buf.ready (hbuf hl)⟩) fun _ => ⟨rfl,rfl,rfl,Iff.rfl⟩
    | disk => exact disk_frame hpt
    | handler k =>
      generalize x (.handler k) = pt at hpt ⊢
      cases pt with
      | read b' =>
        obtain ⟨rfl,hf⟩ := hpt
        exact ⟨rfl,hfin b' List.mem_cons_self hf⟩
      | flags b' =>
        obtain ⟨rfl,hf⟩ := hpt
        refine ⟨rfl,?_⟩
        rw [hdisk b' List.mem_cons_self, hsame b' List.mem_cons_self]
        exact hf
      | _ => exact hpt
  · rw [hsame b' hb']
    exact h.waits b' hb'

variable [DecidableEq ι]

omit [DecidableEq B] in
theorem points_alone {m' : Mem ι B V} {q' : List B} {ph' : Phase B} {a : Agent ι} {y : Point ι B}
    (h : Queued m x q ph)
    (hone : ∀ c, c ≠ a → critical (x c) = false) (hlock : ∀ {d}, (m'.buf d).lock = (m.buf d).lock)
    (hfree : ∀ p d, a ≠ .proc p → (m.buf d).lock = some p → d ∉ pending ph q →
      d ∉ pending ph' q' ∧ (m'.buf d).ready = (m.buf d).ready)
    (hhand : ∀ k, a ≠ .handler k → ph.hand ≠ some k → ph'.hand ≠ some k)
    (hcome : ∀ k d, a ≠ .handler k → ph = .coming d k → ∃ d', ph' = .coming d' k)
    (hy : PointOk m' q' ph' a y) : ∀ c, PointOk m' q' ph' c (update x a y c) := by
  refine points_update (fun c hc => point_outside (h.points c) (hone c hc) hlock ?_ ?_ ?_) hy
  · rintro p d rfl
    exact hfree p d (Ne.symm hc)
  · rintro k rfl
    exact hhand k (Ne.symm hc)
  · rintro k d rfl
    exact hcome k d (Ne.symm hc)

theorem queued_clear (h : Queued m x q ph) (hone : ∀ c, c ≠ .proc p → critical (x c) = false)
    (hx : x (.proc p) = .append b) :
    Queued { m with qnext := update m.qnext b none } (update x (.proc p) (.find b none)) q ph := by
  have hpt := h.points (.proc p)
  rw [hx] at hpt
  have hlink : Linked (update m.qnext b none) m.idequeue q := linked_congr h.queue fun c hc =>
    update_of_ne (fun heq => hpt.out (by rw [← heq]; exact List.mem_append_right _ hc)) _ _
  refine ⟨hlink,h.nodup,?_,?_,?_,?_,?_⟩
  · have hdev := h.device
    cases ph <;> exact hdev
  · refine points_alone h hone rfl (fun _ _ _ _ hd => ⟨hd,rfl⟩) (fun _ _ hk => hk) (fun _ d _ hd => ⟨d,hd⟩) ?_
    exact ⟨⟨hpt.lock,hpt.work,hpt.out⟩,update_self _ _ _,q,before_head hlink⟩
  · exact waits_update h (fun _ hd => ⟨hd,rfl⟩) fun _ _ _ _ hw => by rw [hx] at hw; cases hw
  · intro hidle
    rcases h.idle hidle with hq | ⟨p',d,hq,hs⟩
    · exact .inl hq
    · refine .inr ?_
      obtain ⟨p,hs⟩ := proc_update (a := .proc p) (y := .find b none) ⟨p',hs⟩ fun _ _ hw => by
        rw [hx] at hw; cases hw
      exact ⟨p,d,hq,hs⟩
  · exact hand_update h.hand nofun

theorem queued_append (h : Queued m x q ph) (hone : ∀ c, c ≠ .proc p → critical (x c) = false) {pp : Link B}
    (hx : x (.proc p) = .find b pp) (hlast : deref m.idequeue m.qnext pp = none) :
    Queued { m with idequeue := storeHead m.idequeue pp b, qnext := storeNext m.qnext pp b }
      (update x (.proc p) (.head b)) (q++[b]) ph := by
  have hpt := h.points (.proc p)
  rw [hx] at hpt
  obtain ⟨hfresh,hnull,rest,hbefore⟩ := hpt
  have hout : b ∉ q := fun hb => hfresh.out (List.mem_append_right _ hb)
  have hpend : pending ph (q++[b]) = pending ph q++[b] := (List.append_assoc _ _ _).symm
  have hempty : ph = .idle → q = [] := fun hidle => by
    rcases h.idle hidle with hq | ⟨p',d,-,hs⟩
    · exact hq
    · by_cases hp : p' = p
      · rw [hp, hx] at hs
        cases hs
      · have hc := hone (.proc p') (by simpa using hp)
        rw [starts_critical hs] at hc
        cases hc
  refine ⟨linked_store h.queue hbefore hlast (List.nodup_append.mp h.nodup).2.1 hnull hout,?_,?_,?_,?_,?_,?_⟩
  · rw [hpend]
    exact List.nodup_append.mpr ⟨h.nodup,List.nodup_singleton b,fun c hc d hd heq =>
      hfresh.out (by rw [← List.mem_singleton.mp hd, ← heq]; exact hc)⟩
  · have hdev := h.device
    cases ph with
    | busy d | raised d | coming d k =>
      obtain ⟨h1,h2,h3,r,rfl⟩ := hdev
      exact ⟨h1,h2,h3,r++[b],rfl⟩
    | _ => exact hdev
  · refine points_alone h hone rfl ?_ (fun _ _ hk => hk) (fun _ d _ hd => ⟨d,hd⟩) ?_
    · intro p' d hne hd hdout
      refine ⟨?_,rfl⟩
      rw [hpend]
      intro hmem
      rcases List.mem_append.mp hmem with hmem | hmem
      · exact hdout hmem
      · rw [List.mem_singleton.mp hmem, hfresh.lock] at hd
        cases hd
        exact hne rfl
    · refine ⟨hfresh.lock,q,rfl,fun hq => phase_idle h hq fun k => hone _ (by rintro ⟨⟩)⟩
  · intro d hd
    rw [hpend] at hd
    rcases List.mem_append.mp hd with hd | hd
    · obtain ⟨hwork,hwait⟩ := h.waits d hd
      exact ⟨hwork,proc_update hwait fun _ _ hw => by rw [hx] at hw; cases hw⟩
    · rw [List.mem_singleton.mp hd]
      refine ⟨hfresh.work,p,?_⟩
      rw [update_self]
      rfl
  · intro hidle
    rw [hempty hidle]
    refine .inr ⟨p,b,rfl,?_⟩
    rw [update_self]
    rfl
  · exact hand_update h.hand nofun

omit [DecidableEq B] in
theorem queued_begin (h : Queued m x q ph) {a : Agent ι} {y : Point ι B}
    (hone : ∀ c, c ≠ a → critical (x c) = false)
    {r : List B} (hq : q = b::r) (hfits : (m.buf b).blockno < FSSIZE) (htaken : ph.taken = [])
    (hirq : m.irq = false)
    (hhand : ∀ k, a ≠ .handler k → ph.hand ≠ some k)
    (hy : PointOk (m.begin b) q (.busy b) a y)
    (hwait : ∀ p d, a = .proc p → waitsFor (x a) = some d → waitsFor y = some d) :
    Queued (m.begin b) (update x a y) q (.busy b) := by
  have hpend : pending ph q = q := by rw [pending, htaken, List.nil_append]
  have hnodup := h.nodup
  rw [hpend] at hnodup
  refine ⟨h.queue,hnodup,⟨rfl,hfits,hirq,r,hq⟩,?_,?_,nofun,nofun⟩
  · refine points_alone h hone rfl (fun _ d _ _ hd => ⟨?_,rfl⟩) (fun _ _ _ hk => by cases hk) ?_ hy
    · rw [hpend] at hd
      exact hd
    · rintro k d hne rfl
      exact absurd rfl (hhand k hne)
  · exact waits_update h (fun d hd => ⟨by rw [hpend]; exact hd,rfl⟩) fun p d ha _ => hwait p d ha

end Process

section Disk
variable {m : Mem ι B V} {x : Agent ι → Point ι B} {q : List B} {ph : Phase B} {b : B}

theorem regs_drive (dev n : ℕ) : (regs dev n).drive = dev%2 := by
  simp only [Regs.drive, regs]
  omega

theorem regs_sector (dev : ℕ) {n : ℕ} (h : n < FSSIZE) : (regs dev n).sector = n := by
  simp only [FSSIZE] at h
  simp only [Regs.sector, regs]
  omega

/-- The requests stay, and no handler has the disk. -/
theorem points_working (m' : Mem ι B V) (ph' : Phase B) (h : Queued m x q ph)
    (hwork : ph.hand = none ∧ ph ≠ .idle) (hidle : ph' ≠ .idle) (hpend : pending ph' q = pending ph q)
    (hbuf : m'.buf = m.buf)
    (hqueue : m'.idequeue = m.idequeue ∧ m'.qnext = m.qnext) {a : Agent ι}
    (hhand : ∀ k, a ≠ .handler k → ph'.hand ≠ some k) {c : Agent ι} (hc : c ≠ a) :
    PointOk m' q ph' c (x c) := by
  have hpt := h.points c
  cases c with
  | proc p =>
    refine proc_frame hpt ?_ ?_ fun _ => ⟨hqueue.1,hqueue.2,rfl,iff_of_false hwork.2 hidle⟩
    · rw [hbuf]
      exact id
    · rw [hbuf, hpend]
      exact fun _ hout => ⟨hout,rfl⟩
  | disk => exact disk_frame hpt
  | handler k =>
    generalize x (.handler k) = pt at hpt ⊢
    have hnot := hwork.1
    cases pt with
    | wait | leave => exact hhand k (Ne.symm hc)
    | lock | take =>
      obtain ⟨d,rfl⟩ := hpt
      cases hnot
    | read | flags =>
      obtain ⟨rfl,-⟩ := hpt
      cases hnot
    | wake | next | halted =>
      obtain rfl := hpt
      cases hnot
    | _ => exact hpt.elim

theorem busy_of_active (h : DeviceOk m q ph) {c : Command V} (hc : m.device.active = some c) :
    ∃ b r, ph = .busy b ∧ q = b::r ∧ c = command (m.buf b) ∧ (m.buf b).blockno < FSSIZE := by
  cases ph with
  | busy b =>
    obtain ⟨hcom,hfits,-,r,hr⟩ := h
    rw [hc] at hcom
    cases hcom
    exact ⟨b,r,rfl,hr,rfl,hfits⟩
  | _ =>
    have hno := h.1
    rw [hc] at hno
    cases hno

def finish (m : Mem ι B V) (b : B) : Mem ι B V :=
  { m with device := m.device.finish (command (m.buf b)), irq := true }

theorem finish_write (hfits : (m.buf b).blockno < FSSIZE) (hdirty : (m.buf b).dirty = true) :
    (finish m b).device = ⟨update m.device.disk ((m.buf b).dev%2)
      (update (m.device.disk ((m.buf b).dev%2)) (m.buf b).blockno (m.buf b).data),none,m.device.port⟩ := by
  show m.device.finish _ = _
  simp only [Device.finish, command, hdirty, if_true, regs_drive, regs_sector _ hfits]

theorem finish_read (hfits : (m.buf b).blockno < FSSIZE) (hclean : (m.buf b).dirty = false) :
    (finish m b).device = ⟨m.device.disk,none,onDisk m b⟩ := by
  show m.device.finish _ = _
  simp only [Device.finish, command, hclean, Bool.false_eq_true, if_false, regs_drive,
    regs_sector _ hfits, onDisk]

theorem finish_carried (hfits : (m.buf b).blockno < FSSIZE) : Carried m (finish m b) b := by
  refine ⟨rfl,fun hdev hdirty => ?_,fun hclean => ?_⟩
  · rw [finish_write hfits hdirty, hdev]
    simp
  · rw [finish_read hfits hclean]

theorem finish_finished (hfits : (m.buf b).blockno < FSSIZE) : Finished (finish m b) b := by
  refine ⟨fun (hdirty : (m.buf b).dirty = true) => ?_,fun (hclean : (m.buf b).dirty = false) => ?_⟩
  · show (finish m b).device.disk ((m.buf b).dev%2) (m.buf b).blockno = (m.buf b).data
    rw [finish_write hfits hdirty]
    simp only [update_self]
  · show (finish m b).device.port = (finish m b).device.disk ((m.buf b).dev%2) (m.buf b).blockno
    rw [finish_read hfits hclean]
    rfl

theorem finish_active (hfits : (m.buf b).blockno < FSSIZE) : (finish m b).device.active = none := by
  cases hdirty : (m.buf b).dirty with
  | true => rw [finish_write hfits hdirty]
  | false => rw [finish_read hfits hdirty]

theorem queued_finish (h : Queued m x q (.busy b)) {r : List B} (hq : q = b::r)
    (hfits : (m.buf b).blockno < FSSIZE) :
    Queued (finish m b) x q (.raised b) where
  queue := h.queue
  nodup := h.nodup
  device := ⟨finish_active hfits,rfl,finish_finished hfits,r,hq⟩
  points := fun c => by
    by_cases hc : c = .disk
    · subst hc
      exact disk_frame (h.points .disk)
    · exact points_working (finish m b) (.raised b) h ⟨rfl,nofun⟩ nofun rfl rfl ⟨rfl,rfl⟩
        (fun _ _ => nofun) hc
  waits := h.waits
  idle := nofun
  hand := nofun

variable [DecidableEq ι]

theorem queued_interrupt (h : Queued m x q (.raised b)) (k : ℕ) :
    Queued { m with irq := false } (update x (.handler k) .lock) q (.coming b k) where
  queue := h.queue
  nodup := h.nodup
  device := by
    obtain ⟨hactive,-,hfin,hq⟩ := h.device
    exact ⟨hactive,rfl,hfin,hq⟩
  points := by
    refine points_update (fun c => points_working { m with irq := false } (.coming b k) h ⟨rfl,nofun⟩ nofun
      rfl rfl ⟨rfl,rfl⟩ fun j hj heq => ?_) ⟨b,rfl⟩
    cases heq
    exact hj rfl
  waits := waits_update h (fun _ hd => ⟨hd,rfl⟩) nofun
  idle := nofun
  hand := hand_self rfl rfl

end Disk

section Handler
variable {m : Mem ι B V} {x : Agent ι → Point ι B} {q : List B} {k : ℕ} {b : B}
variable [DecidableEq ι]

theorem queued_take (h : Queued m x (b::q) (.coming b k))
    (hone : ∀ c, c ≠ .handler k → critical (x c) = false)
    (hlink : Linked m.qnext (m.qnext b) q) :
    Queued { m with idequeue := m.qnext b } (update x (.handler k) (.read b)) q (.moving b k) where
  queue := hlink
  nodup := h.nodup
  device := ⟨h.device.1,h.device.2.1⟩
  points := points_alone h hone rfl (fun _ _ _ _ hd => ⟨hd,rfl⟩) (fun _ _ hj => hj)
    (fun j d hne hj => by cases hj; exact absurd rfl hne) ⟨rfl,h.device.2.2.1⟩
  waits := waits_update h (fun _ hd => ⟨hd,rfl⟩) nofun
  idle := nofun
  hand := hand_self rfl rfl

theorem queued_copy [DecidableEq B] (h : Queued m x q (.moving b k))
    (hone : ∀ c, c ≠ .handler k → critical (x c) = false)
    (hfin : Finished m b) (hclean : (m.buf b).dirty = false) :
    Queued (m.setBuf b { m.buf b with data := m.device.port }) (update x (.handler k) (.flags b)) q
      (.moving b k) := by
  have hready : ∀ d, ((m.setBuf b { m.buf b with data := m.device.port }).buf d).ready = (m.buf d).ready :=
    fun d => by
    by_cases hd : d = b
    · rw [hd, setBuf_self]
      rfl
    · rw [setBuf_other hd]
  refine ⟨h.queue,h.nodup,h.device,?_,waits_update h (fun d hd => ⟨hd,hready d⟩) nofun,nofun,
    hand_self rfl rfl⟩
  refine points_alone h hone (setBuf_lock (by rfl)) (fun _ d _ _ hd => ⟨hd,hready d⟩) (fun _ _ hj => hj)
    (fun _ _ _ hj => by cases hj) ⟨rfl,?_⟩
  rw [onDisk, setBuf_self]
  exact (hfin.2 hclean).symm

theorem queued_move [DecidableEq B] (h : Queued m x q (.moving b k))
    (hone : ∀ c, c ≠ .handler k → critical (x c) = false) :
    Queued (m.setBuf b { m.buf b with valid := true, dirty := false }) (update x (.handler k) (.wake b)) q
      (.after k) := by
  obtain ⟨hout,hnodup⟩ : b ∉ q ∧ q.Nodup := List.nodup_cons.mp h.nodup
  refine ⟨h.queue,hnodup,h.device,?_,waits_update h (fun d hd => ?_) nofun,nofun,hand_self rfl rfl⟩
  · refine points_alone h hone (setBuf_lock (by rfl)) (fun _ d _ _ hd => ?_) (fun _ _ hj => hj)
      (fun _ _ _ hj => by cases hj) rfl
    obtain ⟨hne,hd⟩ : d ≠ b ∧ d ∉ q := by
      rw [← not_or, ← List.mem_cons]
      exact hd
    exact ⟨hd,by rw [setBuf_other hne]⟩
  · have hne : d ≠ b := fun heq => hout (by rw [← heq]; exact hd)
    exact ⟨List.mem_cons_of_mem b hd,by rw [setBuf_other hne]⟩

theorem queued_empty (h : Queued m x [] (.after k)) (hone : ∀ c, c ≠ .handler k → critical (x c) = false) :
    Queued m (update x (.handler k) .leave) [] .idle where
  queue := h.queue
  nodup := h.nodup
  device := h.device
  points := points_alone h hone rfl (fun _ _ _ _ hd => ⟨hd,rfl⟩) (fun _ _ _ => nofun)
    (fun _ _ _ hj => by cases hj) nofun
  waits := nofun
  idle := fun _ => .inl rfl
  hand := nofun

end Handler

section Steps
variable {m m' : Mem ι B V} {x : Agent ι → Point ι B} {q : List B} {ph : Phase B} {a : Agent ι} {p : ι}
  {pt y : Point ι B} {e : List (Mark ι B V)}
variable [DecidableEq B] [DecidableEq ι]

def Goes (m m' : Mem ι B V) (x' : Agent ι → Point ι B) (q : List B) (ph : Phase B) (a : Agent ι)
    (e : List (Mark ι B V)) : Prop :=
  ∃ q' ph', Queued m' x' q' ph' ∧ Effect m m' ph ph' (pending ph q) (pending ph' q') a e

theorem goes_process (h : Queued m x q ph) (hx : x (.proc p) = pt) (hy : PointOk m q ph (.proc p) y)
    (hwait : ∀ b, b ∈ pending ph q → waitsFor pt = some b → waitsFor y = some b)
    (hstart : ∀ b, ph = .idle → q = [b] → startsFor pt = some b → startsFor y = some b)
    (he : Effect m m ph ph (pending ph q) (pending ph q) (.proc p) e) :
    Goes m m (update x (.proc p) y) q ph (.proc p) e := by
  rw [← hx] at hwait hstart
  exact ⟨q,ph,queued_stay h hy (fun _ b _ => hwait b) (fun _ b _ => hstart b) nofun,he⟩

theorem goes_handler {k : ℕ} (h : Queued m x q ph) (hy : PointOk m q ph (.handler k) y)
    (hhand : handling y = true) :
    Goes m m (update x (.handler k) y) q ph (.handler k) [] :=
  ⟨q,ph,queued_stay h hy nofun nofun (fun _ _ _ => hhand),.other rfl rfl rfl⟩

theorem act_proc (h : Queued m x q ph) (hx : x (.proc p) = pt) (hact : Act m (.proc p) pt m' y e)
    (hone : critical pt = true → ∀ c, c ≠ .proc p → critical (x c) = false) :
    Goes m m' (update x (.proc p) y) q ph (.proc p) e := by
  have hpt := h.points (.proc p)
  rw [hx] at hpt
  cases hact with
  | @set _ b c hold hnew =>
    have hnow : update x (.proc p) .idle = x := by rw [← hx, update_eq_self]
    rw [hnow]
    exact ⟨q,ph,queued_set h hx hold,.set (fun hb => (set_apart h hx hold).2 b hb rfl) hnew rfl rfl rfl⟩
  | call => exact goes_process h hx trivial (fun _ _ => nofun) (fun _ _ _ => nofun) (.called rfl rfl rfl)
  | kill => exact goes_process h hx trivial (fun _ _ => nofun) (fun _ _ _ => nofun) (.other rfl rfl rfl)
  | refused => exact goes_process h hx trivial (fun _ _ => nofun) (fun _ _ _ => nofun) (.other rfl rfl rfl)
  | @checked _ b hlock hwork =>
    refine goes_process h hx ⟨hlock,hwork,fun hb => ?_⟩ (fun _ _ => nofun) (fun _ _ _ => nofun)
      (.other rfl rfl rfl)
    have hw := pending_waited h hb hlock
    rw [hx] at hw
    cases hw
  | clear => exact ⟨q,ph,queued_clear h (hone rfl) hx,.other rfl rfl rfl⟩
  | walk hmore =>
    obtain ⟨hfresh,hnull,rest,hbefore⟩ := hpt
    exact goes_process h hx ⟨hfresh,hnull,before_next hbefore hmore⟩ (fun _ _ => nofun) (fun _ _ _ => nofun)
      (.other rfl rfl rfl)
  | @queue _ b pp hlast =>
    exact ⟨q++[b],ph,queued_append h (hone rfl) hx hlast,.queued hpt.1 rfl (List.append_assoc _ _ _).symm rfl⟩
  | first hfront =>
    obtain ⟨hlock,q0,hq,hidle⟩ := hpt
    have honly := head_only h hq hfront
    have hnil : q0 = [] := by
      rw [hq, List.append_eq_singleton_iff] at honly
      rcases honly with ⟨hnil,-⟩ | ⟨-,hcons⟩
      · exact hnil
      · cases hcons
    exact goes_process h hx ⟨hlock,honly,hidle hnil⟩ (fun _ _ => id) (fun _ _ _ => id) (.other rfl rfl rfl)
  | later hbehind =>
    refine goes_process h hx hpt.1 (fun _ _ => id) (fun d _ hq hs => ?_) (.other rfl rfl rfl)
    cases hs
    have hlink := h.queue
    rw [hq] at hlink
    exact absurd hlink.1 hbehind
  | @start _ b hfits hfree =>
    obtain ⟨hlock,hq,hidle⟩ := hpt
    subst hidle
    refine ⟨q,.busy b,queued_begin h (hone rfl) hq hfits rfl h.device.2 (fun _ _ => nofun) hlock ?_,?_⟩
    · rw [hx]
      exact fun _ _ _ => id
    · refine .started ?_ rfl rfl rfl rfl
      rw [hq]
      exact List.mem_singleton_self b
  | halt => exact goes_process h hx hpt (fun _ _ => id) (fun _ _ _ => id) (.other rfl rfl rfl)
  | @ready _ b hready =>
    have hout : b ∉ pending ph q := fun hb => by
      have hwork := (h.waits b hb).1
      rw [hready] at hwork
      cases hwork
    refine goes_process h hx ⟨hpt,hout⟩ (fun d hd hw => ?_) (fun _ _ _ => nofun) (.other rfl rfl rfl)
    cases hw
    exact absurd hd hout
  | busy hwork => exact goes_process h hx hpt (fun _ _ => id) (fun _ _ _ => nofun) (.other rfl rfl rfl)
  | back => exact goes_process h hx trivial (fun _ _ => nofun) (fun _ _ _ => nofun) (.returned rfl rfl rfl)

theorem act_disk (h : Queued m x q ph) (hx : x .disk = pt) (hact : Act m .disk pt m' y e) :
    Goes m m' (update x .disk y) q ph .disk e := by
  cases hact with
  | finish hactive =>
    obtain ⟨b,r,rfl,hq,rfl,hfits⟩ := busy_of_active h.device hactive
    have hnow : update x .disk .device = x := by rw [← hx, update_eq_self]
    rw [hnow]
    exact ⟨q,.raised b,queued_finish h hq hfits,.finished hq (finish_carried hfits) rfl rfl⟩

omit [DecidableEq B] [DecidableEq ι] in
theorem raised_of_irq (h : DeviceOk m q ph) (hirq : m.irq = true) : ∃ b, ph = .raised b := by
  cases ph with
  | raised b => exact ⟨b,rfl⟩
  | busy b =>
    have hno := h.2.2.1
    rw [hirq] at hno
    cases hno
  | coming b k =>
    have hno := h.2.1
    rw [hirq] at hno
    cases hno
  | idle | moving | after =>
    have hno := h.2
    rw [hirq] at hno
    cases hno

theorem act_handler {k : ℕ} (h : Queued m x q ph) (hx : x (.handler k) = pt)
    (hact : Act m (.handler k) pt m' y e)
    (hone : critical pt = true → ∀ c, c ≠ .handler k → critical (x c) = false) :
    Goes m m' (update x (.handler k) y) q ph (.handler k) e := by
  have hpt := h.points (.handler k)
  rw [hx] at hpt
  cases hact with
  | interrupt hirq =>
    obtain ⟨b,rfl⟩ := raised_of_irq h.device hirq
    exact ⟨q,.coming b k,queued_interrupt h k,.other rfl rfl rfl⟩
  | spurious hempty =>
    obtain ⟨b,rfl⟩ := hpt
    obtain ⟨-,-,-,r,rfl⟩ := h.device
    have hlink := h.queue.1
    rw [hempty] at hlink
    cases hlink
  | @take _ b hfront =>
    obtain ⟨c,rfl⟩ := hpt
    obtain ⟨-,-,-,r,rfl⟩ := h.device
    have hlink := h.queue
    rw [hfront] at hlink
    cases hlink.1
    exact ⟨r,.moving b k,queued_take h (hone rfl) hlink.2,.other rfl rfl rfl⟩
  | written hdirty =>
    obtain ⟨rfl,hfin⟩ := hpt
    exact goes_handler h ⟨rfl,hfin.1 hdirty⟩ rfl
  | @copy _ b hclean =>
    obtain ⟨rfl,hfin⟩ := hpt
    exact ⟨q,.moving b k,queued_copy h (hone rfl) hfin hclean,.copied rfl hclean rfl rfl rfl⟩
  | @move _ b =>
    obtain ⟨rfl,hdone⟩ := hpt
    exact ⟨q,.after k,queued_move h (hone rfl),.moved rfl hdone rfl rfl rfl⟩
  | empty hempty =>
    cases hpt
    have hlink := h.queue
    rw [hempty] at hlink
    obtain rfl := linked_none hlink
    exact ⟨[],.idle,queued_empty h (hone rfl),.other rfl rfl rfl⟩
  | @next _ c hfront hfits hfree =>
    cases hpt
    have hlink := h.queue
    rw [hfront] at hlink
    obtain ⟨r,rfl,-⟩ := linked_some hlink
    refine ⟨c::r,.busy c,queued_begin h (hone rfl) rfl hfits rfl h.device.2 ?_ nofun nofun,
      .started List.mem_cons_self rfl rfl rfl rfl⟩
    intro j hne hj
    cases hj
    exact hne rfl
  | stuck => exact goes_handler h hpt rfl

theorem queued_act (h : Queued m x q ph) (hact : Act m a (x a) m' y e)
    (hone : critical (x a) = true → ∀ c, c ≠ a → critical (x c) = false) :
    Goes m m' (update x a y) q ph a e := by
  cases a with
  | proc p => exact act_proc h rfl hact hone
  | disk => exact act_disk h rfl hact
  | handler k => exact act_handler h rfl hact hone

theorem queued_call (h : Queued m x q ph) (hnext : (prog (V := V) a (x a)).next = some y) :
    Queued m (update x a y) q ph := by
  have hpt := h.points a
  cases a with
  | proc p =>
    have hgo : PointOk m q ph (.proc p) y → waitsFor y = waitsFor (x (.proc p)) →
      startsFor (x (.proc p)) = none →
        Queued m (update x (.proc p) y) q ph := fun hy hwait hstart =>
      queued_stay h hy (fun _ b _ _ hw => hwait.trans hw)
        (fun _ b _ _ _ hs => by rw [hstart] at hs; cases hs) nofun
    generalize x (.proc p) = pt at hgo hpt hnext
    cases pt with
    | acquire b | exit b | sleep b =>
      cases hnext
      exact hgo hpt rfl rfl
    | kill c =>
      cases hnext
      exact hgo trivial rfl rfl
    | _ => cases hnext
  | disk =>
    cases hx : x .disk with
    | _ =>
      rw [hx] at hnext
      cases hnext
  | handler k =>
    generalize x (.handler k) = pt at hpt hnext
    cases pt with
    | lock | wake b =>
      cases hnext
      exact queued_stay h hpt nofun nofun fun _ _ _ => rfl
    | leave =>
      cases hnext
      exact queued_stay h hpt nofun nofun fun j hj hk => by cases hj; exact absurd hk hpt
    | _ => cases hnext

theorem queued_boot (S : Setup ι B V) : Queued (client S).shared (client S).start [] .idle where
  queue := rfl
  nodup := List.nodup_nil
  device := ⟨rfl,rfl⟩
  points := fun a => by
    cases a with
    | proc p => trivial
    | disk => trivial
    | handler k => exact nofun
  waits := nofun
  idle := fun _ => .inl rfl
  hand := nofun

end Steps

end Xv6.IdeQueue

import Xv6.BufCache

/-!
# Who uses a buffer

A buffer's `refcnt` counts the processes that have it or are on their way to or
from it, and its sleep lock is held by the process that has it. So a buffer that
`bget` recycles is used by nobody, and the steps of one process leave alone what
another has locked. The list of the buffers stays a ring through all of them.
-/

set_option autoImplicit false

namespace Xv6.BufInvariant
open TransitionSystem SleepMachine CodeMachine LinkedRing BufCache
open LogMachine (BlockNo)
open Function

variable {ι V : Type}

inductive Act (p : ι) (m : Cache ι V) (h : List BufId) :
    Spot → Cache ι V → Point → List (Mark V) → Prop
  | bread {b : BlockNo} : Act p m h .run m ⟨h,.get b⟩ []
  | logWrite {i : BufId} {v : V} (mem : i ∈ h) : Act p m h .run (m.store i v) ⟨h,.log i⟩ []
  | bwrite {i : BufId} {v : V} (mem : i ∈ h) : Act p m h .run (m.store i v) ⟨h,.put i⟩ []
  | brelse {i : BufId} (mem : i ∈ h) : Act p m h .run m ⟨h.erase i,.rel i⟩ []
  | hit {i : BufId} {b : BlockNo} (hit : m.cached b = some (some i)) :
      Act p m h (.look b) (m.ref i) ⟨h,.found i b⟩ []
  | recycle {i : BufId} {b : BlockNo} (miss : m.cached b = some none)
      (free : m.victim = some (some i)) : Act p m h (.look b) (m.recycle i b) ⟨h,.found i b⟩ []
  | full {b : BlockNo} (miss : m.cached b = some none) (none : m.victim = some none) :
      Act p m h (.look b) m ⟨h,.panic .bget⟩ []
  | wait {i : BufId} {b : BlockNo} : Act p m h (.test i b) m ⟨h,.wait i b⟩ []
  | lock {i : BufId} {b : BlockNo} (free : (m.buf i).lock = none) :
      Act p m h (.test i b) (m.lockBy i (some p)) ⟨h,.taken i b⟩ []
  | invalid {i : BufId} {b : BlockNo} (no : (m.buf i).valid = false) :
      Act p m h (.valid i b) m ⟨h,.fetch i b⟩ []
  | valid {i : BufId} {b : BlockNo} (yes : (m.buf i).valid = true) :
      Act p m h (.valid i b) m ⟨h,.ret i b⟩ []
  | fetchLocked {i : BufId} {b : BlockNo} (no : ¬ m.holding p i) :
      Act p m h (.fetch i b) m ⟨h,.panic .iderwLocked⟩ []
  | fetchNothing {i : BufId} {b : BlockNo} (yes : (m.buf i).valid = true) :
      Act p m h (.fetch i b) m ⟨h,.panic .iderwNothing⟩ []
  | fetch {i : BufId} {b : BlockNo} : Act p m h (.fetch i b) m ⟨h,.fetching i b⟩ []
  | fetched {i : BufId} {b : BlockNo} : Act p m h (.fetching i b) (m.transfer i) ⟨h,.ret i b⟩ []
  | ret {i : BufId} {b : BlockNo} :
      Act p m h (.ret i b) m ⟨i::h,.run⟩ [.read b (m.buf i).data]
  | log {i : BufId} :
      Act p m h (.log i) (m.pin i) ⟨h,.run⟩ [.wrote (m.buf i).blockno (m.buf i).data]
  | putLocked {i : BufId} (no : ¬ m.holding p i) : Act p m h (.put i) m ⟨h,.panic .bwrite⟩ []
  | put {i : BufId} :
      Act p m h (.put i) (m.pin i) ⟨h,.flush i⟩ [.wrote (m.buf i).blockno (m.buf i).data]
  | flushLocked {i : BufId} (no : ¬ m.holding p i) :
      Act p m h (.flush i) m ⟨h,.panic .iderwLocked⟩ []
  | flushNothing {i : BufId} (clean : (m.buf i).dirty = false) :
      Act p m h (.flush i) m ⟨h,.panic .iderwNothing⟩ []
  | flush {i : BufId} : Act p m h (.flush i) m ⟨h,.flushing i⟩ []
  | flushed {i : BufId} : Act p m h (.flushing i) (m.transfer i) ⟨h,.run⟩ []
  | relLocked {i : BufId} (no : ¬ m.holding p i) : Act p m h (.rel i) m ⟨h,.panic .brelse⟩ []
  | rel {i : BufId} : Act p m h (.rel i) m ⟨h,.drop i⟩ []
  | clear {i : BufId} : Act p m h (.clear i) (m.lockBy i none) ⟨h,.wake i⟩ []
  | count {i : BufId} : Act p m h (.count i) (m.unref i) ⟨h,.exit⟩ []

variable {p : ι} {m m' : Cache ι V} {h : List BufId} {s : Spot} {y : Point} {e : List (Mark V)}

variable {i : BufId} {x : Point}

theorem iderw_cases [DecidableEq ι] {busy : Spot} (hn : iderw m p h i busy = some (m',y,e)) :
    m' = m ∧ e = [] ∧ ((¬ m.holding p i ∧ y = ⟨h,.panic .iderwLocked⟩) ∨
      ((m.buf i).valid = true ∧ (m.buf i).dirty = false ∧ y = ⟨h,.panic .iderwNothing⟩) ∨
      y = ⟨h,busy⟩) := by
  unfold iderw at hn
  split at hn
  · rename_i hl
    cases hn
    exact ⟨rfl,rfl,.inl ⟨hl,rfl⟩⟩
  · split at hn
    · rename_i hv
      cases hn
      exact ⟨rfl,rfl,.inr (.inl ⟨hv.1,hv.2,rfl⟩)⟩
    · cases hn
      exact ⟨rfl,rfl,.inr (.inr rfl)⟩

theorem step_act [DecidableEq ι] {f : Bool → Cache ι V → Input V → Next ι V} {d : Bool} {b : Input V}
    (hp : prog p ⟨h,s⟩ = .step f) (hn : f d m b = some (m',y,e)) : Act p m h s m' y e := by
  cases s with
  | get | found | take | wait | taken | drop | wake | dropped | lock | exit => cases hp
  | run =>
    cases hp
    cases b with
    | bread b => cases hn; exact .bread
    | logWrite i v =>
      simp only [useBuf] at hn
      split at hn <;> cases hn
      exact .logWrite (by assumption)
    | bwrite i v =>
      simp only [useBuf] at hn
      split at hn <;> cases hn
      exact .bwrite (by assumption)
    | brelse i =>
      simp only [useBuf] at hn
      split at hn <;> cases hn
      exact .brelse (by assumption)
    | go => cases hn
  | look b =>
    cases hp
    simp only [bget] at hn
    split at hn
    · cases hn
    · cases hn
      exact .hit (by assumption)
    · split at hn
      · cases hn
      · cases hn
        exact .recycle (by assumption) (by assumption)
      · cases hn
        exact .full (by assumption) (by assumption)
  | test i b =>
    cases hp
    simp only at hn
    split at hn <;> rename_i hl <;> cases hn
    · exact .wait
    · exact .lock (not_not.mp hl)
  | valid i b =>
    cases hp
    simp only at hn
    split at hn <;> rename_i hv <;> cases hn
    · exact .invalid hv
    · exact .valid (by simpa using hv)
  | fetch i b =>
    cases hp
    obtain ⟨rfl,rfl,⟨hl,rfl⟩ | ⟨hv,-,rfl⟩ | rfl⟩ := iderw_cases hn
    · exact .fetchLocked hl
    · exact .fetchNothing hv
    · exact .fetch
  | fetching i b => cases hp; cases hn; exact .fetched
  | ret i b => cases hp; cases hn; exact .ret
  | log i => cases hp; cases hn; exact .log
  | put i =>
    cases hp
    simp only at hn
    split at hn <;> cases hn
    · exact .putLocked (by assumption)
    · exact .put
  | flush i =>
    cases hp
    obtain ⟨rfl,rfl,⟨hl,rfl⟩ | ⟨-,hd,rfl⟩ | rfl⟩ := iderw_cases hn
    · exact .flushLocked hl
    · exact .flushNothing hd
    · exact .flush
  | flushing i => cases hp; cases hn; exact .flushed
  | rel i =>
    cases hp
    simp only at hn
    split at hn <;> cases hn
    · exact .relLocked (by assumption)
    · exact .rel
  | clear i => cases hp; cases hn; exact .clear
  | count i => cases hp; cases hn; exact .count
  | panic msg => cases hp; cases hn

section Fields
variable (m) (i j : BufId) (f : Buf ι V → Buf ι V)

@[simp] theorem set_buf : (m.set i f).buf j = if j = i then f (m.buf i) else m.buf j :=
  update_apply ..

@[simp] theorem set_links : (m.set i f).links = m.links := rfl

theorem set_keeps {γ : Type} (g : Buf ι V → γ) (hf : ∀ c, g (f c) = g c) :
    g ((m.set i f).buf j) = g (m.buf j) := by
  rw [set_buf]
  split_ifs with hj
  · rw [hf, hj]
  · rfl

theorem unref_buf : (m.unref i).buf = (m.set i (fun c => { c with refcnt := c.refcnt-1 })).buf := by
  simp only [Cache.unref]
  split <;> rfl

theorem transfer_flags : ((m.transfer i).buf i).valid = true ∧ ((m.transfer i).buf i).dirty = false := by
  unfold Cache.transfer
  split <;> simp

end Fields

def Named (m : Cache ι V) (i : BufId) (b : BlockNo) : Prop :=
  (m.buf i).dev = ROOTDEV ∧ (m.buf i).blockno = b

def Ringed (m : Cache ι V) : Prop :=
  ∃ order : List BufId, Ring m.links none (order.map some) ∧ ∀ i, i ∈ order

section Loops
variable {i : BufId} {b : BlockNo}

theorem cached_some (hc : m.cached b = some (some i)) : Named m i b := by
  obtain ⟨c,hc,hi⟩ := Option.map_eq_some_iff.mp hc
  rw [Option.join_eq_some_iff] at hi
  rw [hi] at hc
  have hP := chase_found hc
  simpa [Cache.has, Named] using hP

theorem victim_some (hc : m.victim = some (some i)) :
    (m.buf i).refcnt = 0 ∧ (m.buf i).dirty = false := by
  obtain ⟨c,hc,hi⟩ := Option.map_eq_some_iff.mp hc
  rw [Option.join_eq_some_iff] at hi
  rw [hi] at hc
  have hP := chase_found hc
  simpa [Cache.unused] using hP

theorem ring_length {order : List BufId} (hr : Ring m.links none (order.map some)) :
    (order.map some).length < NBUF+1 := by
  have hd := (List.nodup_cons.mp hr.nodup).2
  have hle := (List.Nodup.of_map _ hd).length_le_card
  simp only [Fintype.card_fin] at hle
  simpa using Nat.lt_succ_of_le hle

theorem loop_none {P : Option BufId → Bool} {order : List BufId} {l : List (Option BufId)}
    (hl : ∀ i ∈ order, some i ∈ l) (hall : ∀ i, i ∈ order) (hnone : P none = false)
    (hj : (l.find? P).join = none) (i : BufId) : P (some i) = false := by
  cases hf : l.find? P with
  | none =>
    have := List.find?_eq_none.mp hf (some i) (hl i (hall i))
    simpa using this
  | some c =>
    rw [hf] at hj
    have hc : c = none := hj
    have hP := List.find?_some hf
    rw [hc, hnone] at hP
    cases hP

theorem cached_none (hr : Ringed m) (hc : m.cached b = some none) (i : BufId) : ¬ Named m i b := by
  obtain ⟨order,hring,hall⟩ := hr
  rw [Cache.cached, chase_next (m.has b) hring (ring_length hring)] at hc
  have hj : ((order.map some).find? (m.has b)).join = none := by simpa using hc
  have hfalse := loop_none (fun i hi => List.mem_map_of_mem hi) hall rfl hj i
  simpa [Cache.has, Named] using hfalse

theorem victim_none (hr : Ringed m) (hc : m.victim = some none) (i : BufId) :
    (m.buf i).refcnt = 0 → (m.buf i).dirty = true := by
  obtain ⟨order,hring,hall⟩ := hr
  rw [Cache.victim, chase_prev m.unused hring (ring_length hring)] at hc
  have hj : ((order.map some).reverse.find? m.unused).join = none := by simpa using hc
  have hfalse := loop_none (fun i hi => List.mem_reverse.mpr (List.mem_map_of_mem hi)) hall rfl hj i
  simpa [Cache.unused] using hfalse

end Loops

structure Touches (m m' : Cache ι V) (i : BufId) : Prop where
  name : ∀ j, (m'.buf j).dev = (m.buf j).dev ∧ (m'.buf j).blockno = (m.buf j).blockno
  count : ∀ j, (m'.buf j).refcnt = (m.buf j).refcnt ∧ (m'.buf j).lock = (m.buf j).lock
  other : ∀ j, j ≠ i → m'.buf j = m.buf j
  valid : ∀ j, (m.buf j).valid = true → (m'.buf j).valid = true
  links : m'.links = m.links

theorem touches_named (ht : Touches m m' i) (j : BufId) (b : BlockNo) :
    Named m' j b ↔ Named m j b := by
  rw [Named, (ht.name j).1, (ht.name j).2]
  exact Iff.rfl

theorem set_touches (i : BufId) (f : Buf ι V → Buf ι V)
    (hf : ∀ c, (f c).dev = c.dev ∧ (f c).blockno = c.blockno ∧ (f c).refcnt = c.refcnt ∧
      (f c).lock = c.lock ∧ (c.valid = true → (f c).valid = true)) : Touches m (m.set i f) i where
  name := fun j => ⟨set_keeps m i j f Buf.dev (fun c => (hf c).1),
    set_keeps m i j f Buf.blockno (fun c => (hf c).2.1)⟩
  count := fun j => ⟨set_keeps m i j f Buf.refcnt (fun c => (hf c).2.2.1),
    set_keeps m i j f Buf.lock (fun c => (hf c).2.2.2.1)⟩
  other := fun j hj => by rw [set_buf, if_neg hj]
  valid := fun j hj => by
    rw [set_buf]
    split_ifs with hji
    · rw [hji] at hj
      exact (hf _).2.2.2.2 hj
    · exact hj
  links := rfl

theorem store_touches (i : BufId) (v : V) : Touches m (m.store i v) i :=
  set_touches i _ (fun _ => ⟨rfl,rfl,rfl,rfl,id⟩)

theorem pin_touches (i : BufId) : Touches m (m.pin i) i :=
  set_touches i _ (fun _ => ⟨rfl,rfl,rfl,rfl,id⟩)

theorem transfer_touches (i : BufId) : Touches m (m.transfer i) i := by
  unfold Cache.transfer
  split
  · obtain ⟨h1,h2,h3,h4,h5⟩ := set_touches (m := m) i
      (fun c => { c with valid := true, dirty := false }) (fun _ => ⟨rfl,rfl,rfl,rfl,fun _ => rfl⟩)
    exact ⟨h1,h2,h3,h4,h5⟩
  · exact set_touches i _ (fun _ => ⟨rfl,rfl,rfl,rfl,fun _ => rfl⟩)

def inFlight : Spot → Option BufId
  | .found i _ | .take i _ | .test i _ | .wait i _ | .taken i _ | .valid i _ | .fetch i _
  | .fetching i _ | .ret i _ | .rel i | .drop i | .clear i | .wake i | .dropped i | .lock i
  | .count i => some i
  | _ => none

def locking : Spot → Option BufId
  | .taken i _ | .valid i _ | .fetch i _ | .fetching i _ | .ret i _ | .rel i | .drop i
  | .clear i => some i
  | _ => none

def refs (i : BufId) (x : Point) : ℤ :=
  x.held.count i+if inFlight x.spot = some i then 1 else 0

def locks (i : BufId) (x : Point) : ℤ :=
  x.held.count i+if locking x.spot = some i then 1 else 0

theorem refs_nonneg (i : BufId) (x : Point) : 0 ≤ refs i x := by
  unfold refs
  split <;> omega

theorem locking_flight {s : Spot} (hs : locking s = some i) : inFlight s = some i := by
  cases s <;> first | exact hs | cases hs

theorem locks_refs (i : BufId) (x : Point) : locks i x ≤ refs i x := by
  unfold locks refs
  by_cases hl : locking x.spot = some i
  · rw [if_pos hl, if_pos (locking_flight hl)]
  · rw [if_neg hl]
    split <;> omega

theorem held_locks (hi : i ∈ x.held) : 0 < locks i x := by
  have := List.count_pos_iff.mpr hi
  unfold locks
  split <;> omega

theorem locking_locks (hi : locking x.spot = some i) : 0 < locks i x := by
  unfold locks
  rw [if_pos hi]
  omega

theorem flight_refs (hi : inFlight x.spot = some i) : 0 < refs i x := by
  unfold refs
  rw [if_pos hi]
  omega

/-- What a process knows of the buffers it has or comes to; the panics of
`iderw`, `bwrite` and `brelse` are no points of a run. -/
def SpotIn (m : Cache ι V) (h : List BufId) : Spot → Prop
  | .found i b | .take i b | .test i b | .wait i b | .taken i b | .valid i b => Named m i b
  | .fetch i b | .fetching i b => Named m i b ∧ (m.buf i).valid = false
  | .ret i b => Named m i b ∧ (m.buf i).valid = true
  | .log i | .put i => i ∈ h
  | .flush i | .flushing i => i ∈ h ∧ (m.buf i).dirty = true
  | .panic .iderwLocked | .panic .iderwNothing | .panic .bwrite | .panic .brelse => False
  | _ => True

structure SpotOk (m : Cache ι V) (x : Point) : Prop where
  held : ∀ i ∈ x.held, (m.buf i).dev = ROOTDEV ∧ (m.buf i).valid = true
  spot : SpotIn m x.held x.spot

theorem spot_frame (hx : SpotOk m x)
    (hname : ∀ i, 0 < refs i x → (m'.buf i).dev = (m.buf i).dev ∧
      (m'.buf i).blockno = (m.buf i).blockno)
    (hflag : ∀ i, 0 < locks i x → (m'.buf i).valid = (m.buf i).valid ∧
      (m'.buf i).dirty = (m.buf i).dirty) : SpotOk m' x := by
  have hnamed : ∀ {i b}, inFlight x.spot = some i → Named m i b → Named m' i b := by
    intro i b hi hb
    obtain ⟨h1,h2⟩ := hname i (flight_refs hi)
    rw [Named, h1, h2]
    exact hb
  obtain ⟨hh,hs⟩ := hx
  refine ⟨fun i hi => ?_,?_⟩
  · have hl := held_locks hi
    rw [(hname i (lt_of_lt_of_le hl (locks_refs i x))).1, (hflag i hl).1]
    exact hh i hi
  · obtain ⟨held,spot⟩ := x
    cases spot with
    | found | take | test | wait | taken | valid => exact hnamed rfl hs
    | fetch i b | fetching i b | ret i b =>
      exact ⟨hnamed rfl hs.1,by rw [(hflag i (locking_locks rfl)).1]; exact hs.2⟩
    | flush i | flushing i =>
      exact ⟨hs.1,by rw [(hflag i (held_locks hs.1)).2]; exact hs.2⟩
    | panic msg => cases msg <;> exact hs
    | _ => exact hs

theorem call_spot [DecidableEq ι] {x y : Point} (hn : (prog (V := V) p x).next = some y) (hx : SpotOk m x) :
    (∀ i, refs i y = refs i x) ∧ (∀ i, locks i y = locks i x) ∧ SpotOk m y := by
  obtain ⟨held,spot⟩ := x
  cases spot <;> cases hn <;> exact ⟨fun _ => rfl,fun _ => rfl,⟨hx.held,hx.spot⟩⟩


variable [Fintype ι] [DecidableEq ι]

structure Sound (m : Cache ι V) (x : ι → Point) : Prop where
  refs : ∀ i, ((m.buf i).refcnt : ℤ) = tally (refs i) x
  locks : ∀ i p, locks i (x p) = if (m.buf i).lock = some p then 1 else 0
  spots : ∀ p, SpotOk m (x p)
  unique : ∀ i j b, Named m i b → Named m j b → i = j
  ring : Ringed m

section Rules
variable {x : ι → Point} {i : BufId}

theorem lock_holder (hs : Sound m x) (hl : 0 < locks i (x p)) : (m.buf i).lock = some p := by
  by_contra hne
  rw [hs.locks, if_neg hne] at hl
  omega

theorem lock_sole (hs : Sound m x) {q : ι} (hp : 0 < locks i (x p)) (hq : 0 < locks i (x q)) :
    p = q := by
  have h1 := lock_holder hs hp
  rw [lock_holder hs hq] at h1
  cases h1
  rfl

theorem refs_pos (hs : Sound m x) (hp : 0 < refs i (x p)) : 0 < (m.buf i).refcnt := by
  have hge := tally_ge (x := x) (refs_nonneg i) p
  rw [← hs.refs] at hge
  omega

theorem sound_move {y : Point} (hs : Sound m x)
    (hrefs : ∀ j, ((m'.buf j).refcnt : ℤ) = (m.buf j).refcnt-refs j (x p)+refs j y)
    (hself : ∀ j, locks j y = if (m'.buf j).lock = some p then 1 else 0)
    (hothers : ∀ j q, q ≠ p → ((m'.buf j).lock = some q ↔ (m.buf j).lock = some q))
    (hy : SpotOk m' y) (hframe : ∀ q, q ≠ p → SpotOk m' (x q))
    (hunique : ∀ i j b, Named m' i b → Named m' j b → i = j) (hring : Ringed m') :
    Sound m' (update x p y) := by
  refine ⟨fun j => ?_,fun j q => ?_,fun q => ?_,hunique,hring⟩
  · rw [tally_update, ← hs.refs, hrefs]
  · by_cases hq : q = p
    · subst hq
      rw [update_self, hself]
    · rw [update_of_ne hq, hs.locks]
      simp only [hothers j q hq]
  · by_cases hq : q = p
    · subst hq
      rwa [update_self]
    · rw [update_of_ne hq]
      exact hframe q hq

theorem sound_quiet {y : Point} (hs : Sound m x) (hrefs : ∀ j, refs j y = refs j (x p))
    (hlocks : ∀ j, locks j y = locks j (x p)) (hy : SpotOk m y) :
    Sound m (update x p y) :=
  sound_move hs (fun j => by rw [hrefs]; omega) (fun j => by rw [hlocks, hs.locks])
    (fun _ _ _ => Iff.rfl) hy (fun q _ => hs.spots q) hs.unique hs.ring

theorem sound_touch {t : Spot} (hs : Sound m x) (hx : x p = ⟨h,s⟩) (ht : Touches m m' i)
    (hi : 0 < locks i (x p)) (hrefs : inFlight t = inFlight s) (hlocks : locking t = locking s)
    (hspot : SpotIn m' h t) : Sound m' (update x p ⟨h,t⟩) := by
  have hp := hs.spots p
  rw [hx] at hp
  refine sound_move hs (fun j => ?_) (fun j => ?_) (fun j q _ => ?_) ⟨fun j hj => ?_,hspot⟩
    (fun q hq => ?_) ?_ ?_
  · rw [(ht.count j).1, hx]
    simp only [refs, hrefs]
    omega
  · rw [(ht.count j).2, ← hs.locks, hx]
    simp only [locks, hlocks]
  · rw [(ht.count j).2]
  · rw [(ht.name j).1]
    exact ⟨(hp.held j hj).1,ht.valid j (hp.held j hj).2⟩
  · refine spot_frame (hs.spots q) (fun j _ => ht.name j) (fun j hj => ?_)
    have hji : j ≠ i := by
      rintro rfl
      exact hq (lock_sole hs hj hi)
    rw [ht.other j hji]
    exact ⟨rfl,rfl⟩
  · intro a c b ha hc
    exact hs.unique a c b ((touches_named ht a b).mp ha) ((touches_named ht c b).mp hc)
  · rw [Ringed, ht.links]
    exact hs.ring

variable {b : BlockNo}

theorem sound_hit (hs : Sound m x) (hx : x p = ⟨h,.look b⟩)
    (hit : m.cached b = some (some i)) :
    Sound (m.ref i) (update x p ⟨h,.found i b⟩) := by
  have hsame : ∀ {γ : Type} (g : Buf ι V → γ) (hg : ∀ c n, g { c with refcnt := n } = g c) j,
      g ((m.ref i).buf j) = g (m.buf j) := fun g hg j => set_keeps m i j _ g (fun c => hg c _)
  have hnamed : ∀ j b, Named (m.ref i) j b ↔ Named m j b := by
    intro j b
    rw [Named, hsame Buf.dev (fun _ _ => rfl), hsame Buf.blockno (fun _ _ => rfl)]
    exact Iff.rfl
  have hp := hs.spots p
  rw [hx] at hp
  have hspot : ∀ {z}, SpotOk m z → SpotOk (m.ref i) z := fun hz =>
    spot_frame hz (fun j _ => ⟨hsame Buf.dev (fun _ _ => rfl) j,hsame Buf.blockno (fun _ _ => rfl) j⟩)
      (fun j _ => ⟨hsame Buf.valid (fun _ _ => rfl) j,hsame Buf.dirty (fun _ _ => rfl) j⟩)
  refine sound_move hs (fun j => ?_) (fun j => ?_) (fun j q _ => ?_) ?_ (fun q _ => hspot (hs.spots q))
    ?_ hs.ring
  · rw [hx]
    simp only [refs, inFlight, Cache.ref, set_buf]
    by_cases hj : j = i
    · subst hj
      simp only [if_true, reduceCtorEq, if_false]
      omega
    · simp [hj, Ne.symm hj]
  · rw [hsame Buf.lock (fun _ _ => rfl), ← hs.locks, hx]
    rfl
  · rw [hsame Buf.lock (fun _ _ => rfl)]
  · exact ⟨(hspot hp).held,(hnamed i b).mpr (cached_some hit)⟩
  · intro a c b ha hc
    exact hs.unique a c b ((hnamed a b).mp ha) ((hnamed c b).mp hc)

theorem sound_recycle (hs : Sound m x) (hx : x p = ⟨h,.look b⟩)
    (miss : m.cached b = some none) (free : m.victim = some (some i)) :
    Sound (m.recycle i b) (update x p ⟨h,.found i b⟩) := by
  have hzero : ∀ q, refs i (x q) = 0 := by
    intro q
    have hnn := refs_nonneg i (x q)
    by_contra hne
    have := refs_pos hs (p := q) (i := i) (by omega)
    have := (victim_some free).1
    omega
  have hnolock : ∀ q, locks i (x q) = 0 := by
    intro q
    have hle := locks_refs i (x q)
    have hnn : 0 ≤ locks i (x q) := by
      rw [hs.locks]
      split <;> omega
    have := hzero q
    omega
  have hother : ∀ j, j ≠ i → (m.recycle i b).buf j = m.buf j := by
    intro j hj
    simp [Cache.recycle, hj]
  have hspot : ∀ q, SpotOk (m.recycle i b) (x q) := by
    intro q
    refine spot_frame (hs.spots q) (fun j hj => ?_) (fun j hj => ?_)
    · rw [hother j (by rintro rfl; rw [hzero] at hj; omega)]
      exact ⟨rfl,rfl⟩
    · rw [hother j (by rintro rfl; rw [hnolock] at hj; omega)]
      exact ⟨rfl,rfl⟩
  have hlock : ∀ j, ((m.recycle i b).buf j).lock = (m.buf j).lock :=
    fun j => set_keeps m i j _ Buf.lock (fun _ => rfl)
  have hp := hspot p
  rw [hx] at hp
  refine sound_move hs (fun j => ?_) (fun j => ?_) (fun j q _ => ?_) ?_ (fun q _ => hspot q) ?_
    hs.ring
  · by_cases hj : j = i
    · subst hj
      have hp0 := hzero p
      have hv := (victim_some free).1
      rw [hx] at hp0 ⊢
      simp only [refs, inFlight, Cache.recycle, set_buf, if_true] at hp0 ⊢
      omega
    · rw [hother j hj, hx]
      simp [refs, inFlight, Ne.symm hj]
  · rw [hlock, ← hs.locks, hx]
    rfl
  · rw [hlock]
  · refine ⟨hp.held,?_⟩
    show Named (m.recycle i b) i b
    simp [Named, Cache.recycle]
  · have hnew : ∀ j b', Named (m.recycle i b) j b' → (j = i ∧ b' = b) ∨ (j ≠ i ∧ Named m j b') := by
      intro j b' hj
      by_cases hji : j = i
      · subst hji
        have : b = b' := by simpa [Named, Cache.recycle] using hj
        exact .inl ⟨rfl,this.symm⟩
      · rw [Named, hother j hji] at hj
        exact .inr ⟨hji,hj⟩
    intro a c b' ha hc
    rcases hnew a b' ha with ⟨hai,hb⟩ | ⟨-,ha'⟩
    · rcases hnew c b' hc with ⟨hci,-⟩ | ⟨-,hc'⟩
      · rw [hai, hci]
      · exact absurd (hb ▸ hc') (cached_none hs.ring miss c)
    · rcases hnew c b' hc with ⟨-,hb⟩ | ⟨-,hc'⟩
      · exact absurd (hb ▸ ha') (cached_none hs.ring miss a)
      · exact hs.unique a c b' ha' hc'

theorem sound_lock {y : Point} {o : Option ι} (hs : Sound m x)
    (hrefs : ∀ j, refs j y = refs j (x p))
    (hself : ∀ j, locks j y = if ((m.lockBy i o).buf j).lock = some p then 1 else 0)
    (hothers : ∀ q, q ≠ p → (o = some q ↔ (m.buf i).lock = some q)) (hy : SpotOk m y) :
    Sound (m.lockBy i o) (update x p y) := by
  have hsame : ∀ {γ : Type} (g : Buf ι V → γ) (hg : ∀ c o, g { c with lock := o } = g c) j,
      g ((m.lockBy i o).buf j) = g (m.buf j) := fun g hg j => set_keeps m i j _ g (fun c => hg c _)
  have hspot : ∀ {z}, SpotOk m z → SpotOk (m.lockBy i o) z := fun hz =>
    spot_frame hz (fun j _ => ⟨hsame Buf.dev (fun _ _ => rfl) j,hsame Buf.blockno (fun _ _ => rfl) j⟩)
      (fun j _ => ⟨hsame Buf.valid (fun _ _ => rfl) j,hsame Buf.dirty (fun _ _ => rfl) j⟩)
  refine sound_move hs (fun j => ?_) hself (fun j q hq => ?_) (hspot hy)
    (fun q _ => hspot (hs.spots q)) ?_ hs.ring
  · rw [hsame Buf.refcnt (fun _ _ => rfl), hrefs]
    omega
  · by_cases hj : j = i
    · subst hj
      simpa [Cache.lockBy] using hothers q hq
    · simp [Cache.lockBy, hj]
  · intro a c b ha hc
    rw [Named, hsame Buf.dev (fun _ _ => rfl), hsame Buf.blockno (fun _ _ => rfl)] at ha hc
    exact hs.unique a c b ha hc

theorem sound_take (hs : Sound m x) (hx : x p = ⟨h,.test i b⟩)
    (free : (m.buf i).lock = none) :
    Sound (m.lockBy i (some p)) (update x p ⟨h,.taken i b⟩) := by
  have hp := hs.spots p
  rw [hx] at hp
  have hold : ∀ j, locks j ⟨h,.test i b⟩ = if (m.buf j).lock = some p then 1 else 0 := by
    intro j
    rw [← hx, hs.locks]
  refine sound_lock hs (fun j => by rw [hx]; rfl) (fun j => ?_) (fun q hq => ?_) ⟨hp.held,hp.spot⟩
  · have hj := hold j
    by_cases hji : j = i
    · subst hji
      rw [free] at hj
      simp [locks, locking, Cache.lockBy] at hj ⊢
      exact hj
    · simpa [locks, locking, Cache.lockBy, hji, Ne.symm hji] using hj
  · rw [free]
    simp [Ne.symm hq]

theorem sound_clear (hs : Sound m x) (hx : x p = ⟨h,.clear i⟩) :
    Sound (m.lockBy i none) (update x p ⟨h,.wake i⟩) := by
  have hp := hs.spots p
  rw [hx] at hp
  have hold : ∀ j, locks j ⟨h,.clear i⟩ = if (m.buf j).lock = some p then 1 else 0 := by
    intro j
    rw [← hx, hs.locks]
  have hmine := lock_holder hs (p := p) (i := i) (by rw [hx]; exact locking_locks rfl)
  refine sound_lock hs (fun j => by rw [hx]; rfl) (fun j => ?_) (fun q hq => ?_) ⟨hp.held,hp.spot⟩
  · have hj := hold j
    by_cases hji : j = i
    · subst hji
      rw [if_pos hmine] at hj
      simp [locks, locking, Cache.lockBy] at hj ⊢
      exact hj
    · simpa [locks, locking, Cache.lockBy, hji, Ne.symm hji] using hj
  · rw [hmine]
    simp [Ne.symm hq]

omit [Fintype ι] [DecidableEq ι] in
theorem unref_ringed (hr : Ringed m) (i : BufId) : Ringed (m.unref i) := by
  obtain ⟨order,hring,hall⟩ := hr
  simp only [Cache.unref]
  split
  · obtain ⟨l1,l2,rfl⟩ := List.append_of_mem (hall i)
    refine ⟨i::(l1++l2),?_,fun j => ?_⟩
    · rw [List.map_append, List.map_cons] at hring
      simpa using ring_front hring
    · have := hall j
      simp only [List.mem_append, List.mem_cons] at this ⊢
      tauto
  · exact ⟨order,hring,hall⟩

theorem sound_count (hs : Sound m x) (hx : x p = ⟨h,.count i⟩) :
    Sound (m.unref i) (update x p ⟨h,.exit⟩) := by
  have hsame : ∀ {γ : Type} (g : Buf ι V → γ) (hg : ∀ c n, g { c with refcnt := n } = g c) j,
      g ((m.unref i).buf j) = g (m.buf j) := by
    intro γ g hg j
    rw [unref_buf]
    exact set_keeps m i j _ g (fun c => hg c _)
  have hspot : ∀ {z}, SpotOk m z → SpotOk (m.unref i) z := fun hz =>
    spot_frame hz (fun j _ => ⟨hsame Buf.dev (fun _ _ => rfl) j,hsame Buf.blockno (fun _ _ => rfl) j⟩)
      (fun j _ => ⟨hsame Buf.valid (fun _ _ => rfl) j,hsame Buf.dirty (fun _ _ => rfl) j⟩)
  have hp := hs.spots p
  have hpos := refs_pos hs (p := p) (i := i) (by rw [hx]; exact flight_refs rfl)
  rw [hx] at hp
  refine sound_move hs (fun j => ?_) (fun j => ?_) (fun j q _ => ?_) ⟨(hspot hp).held,trivial⟩
    (fun q _ => hspot (hs.spots q)) ?_ (unref_ringed hs.ring i)
  · rw [hx, unref_buf, set_buf]
    by_cases hj : j = i
    · subst hj
      simp only [if_true, refs, inFlight, reduceCtorEq, if_false]
      omega
    · simp [hj, refs, inFlight, Ne.symm hj]
  · rw [hsame Buf.lock (fun _ _ => rfl), ← hs.locks, hx]
    rfl
  · rw [hsame Buf.lock (fun _ _ => rfl)]
  · intro a c b ha hc
    rw [Named, hsame Buf.dev (fun _ _ => rfl), hsame Buf.blockno (fun _ _ => rfl)] at ha hc
    exact hs.unique a c b ha hc

theorem erase_count {l : List BufId} (hi : i ∈ l) (j : BufId) :
    ((l.erase i).count j : ℤ)+(if some i = some j then 1 else 0) = l.count j := by
  have hpos := List.count_pos_iff.mpr hi
  by_cases hj : i = j
  · subst hj
    rw [List.count_erase_self, if_pos rfl]
    omega
  · rw [List.count_erase_of_ne (Ne.symm hj), if_neg (by simpa using hj)]
    omega

theorem sound_act (hs : Sound m x) (hx : x p = ⟨h,s⟩) (act : Act p m h s m' y e) :
    Sound m' (update x p y) := by
  have hp := hs.spots p
  rw [hx] at hp
  have hheld : ∀ {j}, j ∈ h → 0 < locks j (x p) := by
    intro j hj
    rw [hx]
    exact held_locks hj
  have hlocking : ∀ {j}, locking s = some j → 0 < locks j (x p) := by
    intro j hj
    rw [hx]
    exact locking_locks hj
  have hmine : ∀ {j}, 0 < locks j (x p) → m.holding p j := fun hj => lock_holder hs hj
  have hquiet : ∀ {t}, inFlight t = inFlight s → locking t = locking s → SpotIn m h t →
      Sound m (update x p ⟨h,t⟩) := by
    intro t hf hl ht
    refine sound_quiet hs (fun j => ?_) (fun j => ?_) ⟨hp.held,ht⟩
    · rw [hx]
      simp only [refs, hf]
    · rw [hx]
      simp only [locks, hl]
  cases act with
  | bread | full | wait | fetch | flush | rel => exact hquiet rfl rfl hp.spot
  | @logWrite i v mem => exact sound_touch hs hx (store_touches i v) (hheld mem) rfl rfl mem
  | @bwrite i v mem => exact sound_touch hs hx (store_touches i v) (hheld mem) rfl rfl mem
  | @brelse i mem =>
    refine sound_quiet hs (fun j => ?_) (fun j => ?_)
      ⟨fun j hj => hp.held j (List.mem_of_mem_erase hj),trivial⟩
    · rw [hx]
      simpa [refs, inFlight] using erase_count mem j
    · rw [hx]
      simpa [locks, locking] using erase_count mem j
  | hit hit => exact sound_hit hs hx hit
  | recycle miss free => exact sound_recycle hs hx miss free
  | lock free => exact sound_take hs hx free
  | invalid no => exact hquiet rfl rfl ⟨hp.spot,no⟩
  | valid yes => exact hquiet rfl rfl ⟨hp.spot,yes⟩
  | fetchLocked no | relLocked no => exact absurd (hmine (hlocking rfl)) no
  | putLocked no => exact absurd (hmine (hheld hp.spot)) no
  | flushLocked no => exact absurd (hmine (hheld hp.spot.1)) no
  | fetchNothing yes =>
    have hv := hp.spot.2
    rw [yes] at hv
    cases hv
  | flushNothing clean =>
    have hd := hp.spot.2
    rw [clean] at hd
    cases hd
  | @fetched i b =>
    exact sound_touch hs hx (transfer_touches i) (hlocking rfl) rfl rfl
      ⟨(touches_named (transfer_touches i) i b).mpr hp.spot.1,(transfer_flags m i).1⟩
  | @ret i b =>
    refine sound_quiet hs (fun j => ?_) (fun j => ?_) ⟨fun j hj => ?_,trivial⟩
    · rw [hx]
      simp [refs, inFlight, List.count_cons]
    · rw [hx]
      simp [locks, locking, List.count_cons]
    · rcases List.mem_cons.mp hj with rfl | hj
      · exact ⟨hp.spot.1.1,hp.spot.2⟩
      · exact hp.held j hj
  | @log i => exact sound_touch hs hx (pin_touches i) (hheld hp.spot) rfl rfl trivial
  | @put i =>
    exact sound_touch hs hx (pin_touches i) (hheld hp.spot) rfl rfl ⟨hp.spot,by simp [Cache.pin]⟩
  | @flushed i => exact sound_touch hs hx (transfer_touches i) (hheld hp.spot.1) rfl rfl trivial
  | clear => exact sound_clear hs hx
  | count => exact sound_count hs hx

end Rules

omit [Fintype ι] [DecidableEq ι] in
theorem binit_ringed (data : BufId → V) (disk : BlockNo → V) :
    Ringed (binit (ι := ι) data disk) := by
  have hstart : Ring (⟨fun _ => none,fun _ => none⟩ : Links (Option BufId)) none [] :=
    ⟨List.nodup_singleton none,rfl,rfl⟩
  have hnodup : (none::((List.finRange NBUF).map some++[])).Nodup := by
    rw [List.append_nil, List.nodup_cons]
    exact ⟨by simp,(List.nodup_finRange NBUF).map (Option.some_injective _)⟩
  refine ⟨(List.finRange NBUF).reverse,?_,fun i => by simp⟩
  have hring := ring_pushes hstart hnodup
  rw [List.append_nil, ← List.map_reverse, List.foldl_map] at hring
  exact hring

theorem sound_run {data : BufId → V} {disk : BlockNo → V} {g : ι → Point → Cache ι V → Input V → Prop}
    {tr : List (ι × Mark V)} {t : Code ι (Cache ι V) Point}
    (hr : Run (code (client (binit data disk))) (Allows g) tr t) : Sound t.shared t.spot := by
  refine code_invariant (fun _ m x => Sound m x) ?_ ?_ ?_ hr
  · refine ⟨fun i => ?_,fun i p => rfl,fun p => ⟨fun i hi => (by cases hi),trivial⟩,?_,
      binit_ringed data disk⟩
    · exact (Finset.sum_eq_zero (fun _ _ => rfl)).symm
    · rintro i j b ⟨hi,-⟩
      cases hi
  · intro _ m x p y hs hy
    obtain ⟨hrefs,hlocks,hspot⟩ := call_spot hy (hs.spots p)
    exact sound_quiet hs hrefs hlocks hspot
  · intro _ m x p d b f m' y e _ hs _ hp hf
    exact sound_act hs (h := (x p).held) (s := (x p).spot) rfl (step_act hp hf)

end Xv6.BufInvariant

import Xv6.BufInvariant

/-!
# The buffer cache is transparent

What a block contains is what was last stored into its buffer before a
`log_write` or `bwrite`, or what the disk had at first. A clean buffer agrees
with the disk and a block without a buffer is on the disk, so recycling loses
nothing, and `bread` returns what the block contains.
-/

set_option autoImplicit false

namespace Xv6.BufCoherence
open TransitionSystem SleepMachine CodeMachine LinkedRing BufCache
open BufInvariant
open LogMachine (BlockNo)
open Function

variable {ι V : Type}

def written (a : BlockNo → V) : Mark V → BlockNo → V
  | .wrote b v => update a b v
  | .read _ _ => a

def contents (disk : BlockNo → V) (tr : List (ι × Mark V)) : BlockNo → V :=
  tr.foldl (fun a e => written a e.2) disk

/-- Every `bread` returns what its block contains. -/
def Transparent (disk : BlockNo → V) (tr : List (ι × Mark V)) : Prop :=
  ∀ t1 t2 p b v, tr = t1++(p,.read b v)::t2 → v = contents disk t1 b


def Pending (i : BufId) (x : Point) : Prop := x.spot = .log i ∨ x.spot = .put i

structure Coherent (m : Cache ι V) (x : ι → Point) (a : BlockNo → V) : Prop where
  flags : ∀ i, (m.buf i).dirty = true → (m.buf i).valid = true
  clean : ∀ i b, Named m i b → (m.buf i).dirty = false → m.disk b = a b
  data : ∀ i b, Named m i b → (m.buf i).valid = true → (∀ p, ¬ Pending i (x p)) →
    (m.buf i).data = a b
  absent : ∀ b, (∀ i, ¬ Named m i b) → m.disk b = a b

variable {p : ι} {m m' : Cache ι V} {h : List BufId} {s : Spot} {y : Point}
  {x : ι → Point} {e : List (Mark V)} {a : BlockNo → V} {i : BufId}

variable [Fintype ι] [DecidableEq ι]

theorem pending_locks (hs : Sound m x) {q : ι} (hq : Pending i (x q)) : 0 < locks i (x q) := by
  have hspot := (hs.spots q).spot
  have hheld : i ∈ (x q).held := by
    rcases hq with hq | hq <;> rw [hq] at hspot <;> exact hspot
  exact held_locks hheld

theorem locked_settled (hs : Sound m x) (hl : 0 < locks i (x p)) (hp : ¬ Pending i (x p)) (q : ι) :
    ¬ Pending i (x q) := by
  intro hq
  have hpq := lock_sole hs hl (pending_locks hs hq)
  subst hpq
  exact hp hq

omit [Fintype ι] in
theorem coherent_quiet (hc : Coherent m x a)
    (hsame : ∀ j, (m'.buf j).dev = (m.buf j).dev ∧ (m'.buf j).blockno = (m.buf j).blockno ∧
      (m'.buf j).valid = (m.buf j).valid ∧ (m'.buf j).dirty = (m.buf j).dirty ∧
      (m'.buf j).data = (m.buf j).data)
    (hdisk : m'.disk = m.disk) (hpend : ∀ j, Pending j (x p) → Pending j y) :
    Coherent m' (update x p y) a := by
  have hnamed : ∀ j b, Named m' j b ↔ Named m j b := by
    intro j b
    rw [Named, (hsame j).1, (hsame j).2.1]
    exact Iff.rfl
  refine ⟨fun j hj => ?_,fun j b hj hd => ?_,fun j b hj hv hno => ?_,fun b hb => ?_⟩
  · rw [(hsame j).2.2.1]
    rw [(hsame j).2.2.2.1] at hj
    exact hc.flags j hj
  · rw [(hsame j).2.2.2.1] at hd
    rw [hdisk]
    exact hc.clean j b ((hnamed j b).mp hj) hd
  · rw [(hsame j).2.2.1] at hv
    rw [(hsame j).2.2.2.2]
    refine hc.data j b ((hnamed j b).mp hj) hv (fun q hq => ?_)
    by_cases hqp : q = p
    · subst hqp
      exact hno q (by rw [update_self]; exact hpend j hq)
    · exact hno q (by rwa [update_of_ne hqp])
  · rw [hdisk]
    exact hc.absent b (fun j hj => hb j ((hnamed j b).mpr hj))

theorem coherent_touch {a' : BlockNo → V} {b : BlockNo} (hs : Sound m x) (hc : Coherent m x a)
    (ht : Touches m m' i) (hb : Named m i b) (hdisk : ∀ c, c ≠ b → m'.disk c = m.disk c)
    (ha : ∀ c, c ≠ b → a' c = a c) (hpend : ∀ j, j ≠ i → Pending j (x p) → Pending j y)
    (hflags : (m'.buf i).dirty = true → (m'.buf i).valid = true)
    (hclean : (m'.buf i).dirty = false → m'.disk b = a' b)
    (hdata : ¬ Pending i y → (m'.buf i).data = a' b) :
    Coherent m' (update x p y) a' := by
  have hname : ∀ {c}, Named m' i c → c = b := by
    intro c hn
    exact ((touches_named ht i c).mp hn).2.symm.trans hb.2
  have hother : ∀ {j c}, j ≠ i → Named m' j c → Named m j c ∧ c ≠ b := by
    intro j c hj hn
    have hn' := (touches_named ht j c).mp hn
    refine ⟨hn',?_⟩
    rintro rfl
    exact hj (hs.unique j i c hn' hb)
  refine ⟨fun j hj => ?_,fun j c hn hd => ?_,fun j c hn hv hno => ?_,fun c hn => ?_⟩
  · by_cases hji : j = i
    · subst hji
      exact hflags hj
    · rw [ht.other j hji] at hj ⊢
      exact hc.flags j hj
  · by_cases hji : j = i
    · subst hji
      rw [hname hn]
      exact hclean hd
    · obtain ⟨hn',hcb⟩ := hother hji hn
      rw [ht.other j hji] at hd
      rw [hdisk c hcb, ha c hcb]
      exact hc.clean j c hn' hd
  · by_cases hji : j = i
    · subst hji
      rw [hname hn]
      exact hdata (by simpa using hno p)
    · obtain ⟨hn',hcb⟩ := hother hji hn
      rw [ht.other j hji] at hv ⊢
      rw [ha c hcb]
      refine hc.data j c hn' hv (fun q hq => ?_)
      by_cases hqp : q = p
      · subst hqp
        exact hno q (by rw [update_self]; exact hpend j hji hq)
      · exact hno q (by rwa [update_of_ne hqp])
  · have hcb : c ≠ b := by
      rintro rfl
      exact hn i ((touches_named ht i c).mpr hb)
    rw [hdisk c hcb, ha c hcb]
    exact hc.absent c (fun j hj => hn j ((touches_named ht j c).mpr hj))

theorem held_named (hs : Sound m x) (hi : i ∈ (x p).held) : Named m i (m.buf i).blockno :=
  ⟨((hs.spots p).held i hi).1,rfl⟩

theorem coherent_store (hs : Sound m x) (hc : Coherent m x a) (hx : x p = ⟨h,.run⟩) (hi : i ∈ h)
    (v : V) (hy : Pending i y) : Coherent (m.store i v) (update x p y) a := by
  have hb : Named m i (m.buf i).blockno := held_named hs (p := p) (by rw [hx]; exact hi)
  refine coherent_touch hs hc (store_touches i v) hb (fun _ _ => rfl) (fun _ _ => rfl) ?_ ?_ ?_
    (fun hno => absurd hy hno)
  · intro j _ hj
    rw [hx] at hj
    rcases hj with hj | hj <;> cases hj
  · simpa [Cache.store] using hc.flags i
  · intro hd
    exact hc.clean i _ hb (by simpa [Cache.store] using hd)

theorem coherent_pin (hs : Sound m x) (hc : Coherent m x a) (hi : i ∈ (x p).held)
    (hp : Pending i (x p)) :
    Coherent (m.pin i) (update x p y) (update a (m.buf i).blockno (m.buf i).data) := by
  refine coherent_touch hs hc (pin_touches i) (held_named hs hi) (fun _ _ => rfl)
    (fun c hcb => update_of_ne hcb _ _) ?_ ?_ ?_ ?_
  · intro j hji hj
    exfalso
    rcases hp with hp | hp <;> rcases hj with hj | hj <;> rw [hp] at hj <;> cases hj <;>
      exact hji rfl
  · intro _
    simpa [Cache.pin] using ((hs.spots p).held i hi).2
  · intro hd
    simp [Cache.pin] at hd
  · intro _
    simp [Cache.pin]

theorem coherent_transfer {b : BlockNo} (hs : Sound m x) (hc : Coherent m x a)
    (hl : 0 < locks i (x p)) (hp : ∀ j, ¬ Pending j (x p)) (hb : Named m i b) :
    Coherent (m.transfer i) (update x p y) a := by
  have hsettled := locked_settled hs hl (hp i)
  refine coherent_touch hs hc (transfer_touches i) hb (fun c hcb => ?_) (fun _ _ => rfl)
    (fun j _ hj => absurd hj (hp j)) (fun _ => (transfer_flags m i).1) (fun _ => ?_) (fun _ => ?_)
  · unfold Cache.transfer
    split
    · rw [← hb.2] at hcb
      exact update_of_ne hcb _ _
    · rfl
  · unfold Cache.transfer
    split_ifs with hd
    · rw [← hb.2]
      show update m.disk (m.buf i).blockno (m.buf i).data (m.buf i).blockno = _
      rw [update_self]
      exact hc.data i _ ⟨hb.1,rfl⟩ (hc.flags i hd) hsettled
    · exact hc.clean i b hb (by simpa using hd)
  · unfold Cache.transfer
    split_ifs with hd
    · simpa using hc.data i b hb (hc.flags i hd) hsettled
    · have := hc.clean i b hb (by simpa using hd)
      simpa [hb.2] using this

theorem coherent_recycle {b : BlockNo} (hs : Sound m x) (hc : Coherent m x a)
    (hx : x p = ⟨h,.look b⟩) (miss : m.cached b = some none) (free : m.victim = some (some i)) :
    Coherent (m.recycle i b) (update x p ⟨h,.found i b⟩) a := by
  have hmiss := cached_none hs.ring miss
  have hdirty := (victim_some free).2
  have hother : ∀ j, j ≠ i → (m.recycle i b).buf j = m.buf j := by
    intro j hj
    simp [Cache.recycle, hj]
  have hself : (m.recycle i b).buf i = { m.buf i with
      dev := ROOTDEV, blockno := b, valid := false, dirty := false, refcnt := 1 } := by
    simp [Cache.recycle]
  have hnamed : ∀ {c}, Named (m.recycle i b) i c → c = b := by
    intro c hn
    rw [Named, hself] at hn
    exact hn.2.symm
  refine ⟨fun j hj => ?_,fun j c hn hd => ?_,fun j c hn hv hno => ?_,fun c hn => ?_⟩
  · by_cases hji : j = i
    · subst hji
      rw [hself] at hj
      cases hj
    · rw [hother j hji] at hj ⊢
      exact hc.flags j hj
  · by_cases hji : j = i
    · subst hji
      rw [hnamed hn]
      exact hc.absent b hmiss
    · rw [Named, hother j hji] at hn
      rw [hother j hji] at hd
      exact hc.clean j c hn hd
  · by_cases hji : j = i
    · subst hji
      rw [hself] at hv
      cases hv
    · rw [Named, hother j hji] at hn
      rw [hother j hji] at hv ⊢
      refine hc.data j c hn hv (fun q hq => ?_)
      by_cases hqp : q = p
      · subst hqp
        rw [hx] at hq
        rcases hq with hq | hq <;> cases hq
      · exact hno q (by rwa [update_of_ne hqp])
  · by_cases hold : Named m i c
    · exact hc.clean i c hold hdirty
    · refine hc.absent c (fun j hj => ?_)
      have hji : j ≠ i := by
        rintro rfl
        exact hold hj
      exact hn j (by rw [Named, hother j hji]; exact hj)

theorem coherent_act (hs : Sound m x) (hc : Coherent m x a) (hx : x p = ⟨h,s⟩)
    (act : Act p m h s m' y e) : Coherent m' (update x p y) (e.foldl written a) := by
  have hspot : SpotIn m h s := by
    have := (hs.spots p).spot
    rwa [hx] at this
  have hset : ∀ {j : BufId} {f : Buf ι V → Buf ι V}, (∀ c, (f c).dev = c.dev ∧
      (f c).blockno = c.blockno ∧ (f c).valid = c.valid ∧ (f c).dirty = c.dirty ∧
      (f c).data = c.data) → (∀ j, ¬ Pending j (x p)) →
      Coherent (m.set j f) (update x p y) a := by
    intro j f hf hno
    refine coherent_quiet hc (fun k => ?_) rfl (fun j hj => absurd hj (hno j))
    by_cases hk : k = j
    · subst hk
      simpa using hf (m.buf k)
    · simp [hk]
  have hsame : (∀ j, ¬ Pending j (x p)) → Coherent m (update x p y) a := fun hno =>
    coherent_quiet hc (fun _ => ⟨rfl,rfl,rfl,rfl,rfl⟩) rfl (fun j hj => absurd hj (hno j))
  have hno : (∀ j, s ≠ .log j ∧ s ≠ .put j) → ∀ j, ¬ Pending j (x p) := by
    intro hs j hj
    rw [hx] at hj
    rcases hj with hj | hj
    · exact (hs j).1 hj
    · exact (hs j).2 hj
  have hheld : ∀ {i}, i ∈ h → i ∈ (x p).held := fun hi => by rw [hx]; exact hi
  cases act with
  | bread | brelse | full | wait | invalid | valid | fetchLocked | fetchNothing | fetch
  | flushLocked | flushNothing | flush | relLocked | rel | ret =>
    exact hsame (hno (by simp))
  | logWrite mem => exact coherent_store hs hc hx mem _ (.inl rfl)
  | bwrite mem => exact coherent_store hs hc hx mem _ (.inr rfl)
  | hit | lock | clear => exact hset (fun _ => ⟨rfl,rfl,rfl,rfl,rfl⟩) (hno (by simp))
  | recycle miss free => exact coherent_recycle hs hc hx miss free
  | @fetched i b =>
    exact coherent_transfer hs hc (locking_locks (by rw [hx]; rfl)) (hno (by simp)) hspot.1
  | @flushed i =>
    exact coherent_transfer hs hc (held_locks (hheld hspot.1)) (hno (by simp))
      (held_named hs (hheld hspot.1))
  | log => exact coherent_pin hs hc (hheld hspot) (by rw [hx]; exact .inl rfl)
  | put => exact coherent_pin hs hc (hheld hspot) (by rw [hx]; exact .inr rfl)
  | putLocked no => exact absurd (lock_holder hs (held_locks (hheld hspot))) no
  | @count i =>
    refine coherent_quiet hc (fun k => ?_) ?_ (fun j hj => absurd hj (hno (by simp) j))
    · rw [unref_buf]
      by_cases hk : k = i
      · subst hk
        simp
      · simp [hk]
    · simp only [Cache.unref]
      split <;> rfl

theorem read_act (hs : Sound m x) (hc : Coherent m x a) (hx : x p = ⟨h,s⟩)
    (act : Act p m h s m' y e) {b : BlockNo} {v : V} (he : .read b v ∈ e) : v = a b := by
  have hspot : SpotIn m h s := by
    have := (hs.spots p).spot
    rwa [hx] at this
  cases act with
  | @ret i c =>
    cases List.mem_singleton.mp he
    have hno : ¬ Pending i (x p) := by
      rw [hx]
      rintro (hj | hj) <;> cases hj
    exact hc.data i b hspot.1 hspot.2
      (locked_settled hs (locking_locks (by rw [hx]; rfl)) hno)
  | log | put => cases List.mem_singleton.mp he
  | _ => cases he

omit [Fintype ι] [DecidableEq ι] in
theorem transparent_snoc {disk : BlockNo → V} {tr : List (ι × Mark V)} (ht : Transparent disk tr)
    (he : e.length ≤ 1) (hread : ∀ b v, .read b v ∈ e → v = contents disk tr b) :
    Transparent disk (tr++e.map (Prod.mk p)) := by
  match e with
  | [] => simpa using ht
  | [c] =>
    intro t1 t2 q b v h
    rcases snoc_split h with ⟨rfl,hc,rfl⟩ | ⟨w,rfl,hw⟩
    · cases hc
      exact hread b v (List.mem_singleton.mpr rfl)
    · exact ht t1 w q b v hw
  | _::_::_ => simp at he

omit [Fintype ι] [DecidableEq ι] in
theorem act_length (act : Act p m h s m' y e) : e.length ≤ 1 := by
  cases act <;> simp

omit [Fintype ι] [DecidableEq ι] in
theorem contents_snoc (disk : BlockNo → V) (tr : List (ι × Mark V)) (p : ι) (e : List (Mark V)) :
    contents disk (tr++e.map (Prod.mk p)) = e.foldl written (contents disk tr) := by
  rw [contents, List.foldl_append, List.foldl_map]
  rfl

omit [Fintype ι] in
theorem coherent_call {y : Point} (hc : Coherent m x a) (hn : (prog (V := V) p (x p)).next = some y) :
    Coherent m (update x p y) a := by
  refine coherent_quiet hc (fun _ => ⟨rfl,rfl,rfl,rfl,rfl⟩) rfl (fun j hj => ?_)
  generalize x p = z at hn hj
  obtain ⟨h,s⟩ := z
  rcases hj with hj | hj <;> cases hj <;> cases hn

theorem coherent_run {data : BufId → V} {disk : BlockNo → V}
    {g : ι → Point → Cache ι V → Input V → Prop} {tr : List (ι × Mark V)}
    {t : Code ι (Cache ι V) Point} (hr : Run (code (client (binit data disk))) (Allows g) tr t) :
    Coherent t.shared t.spot (contents disk tr) ∧ Transparent disk tr := by
  refine code_invariant
    (fun tr m x => Coherent m x (contents disk tr) ∧ Transparent disk tr) ?_ ?_ ?_ hr
  · refine ⟨⟨fun i hi => (by cases hi),fun i b hb => ?_,fun i b hb => ?_,fun b _ => rfl⟩,?_⟩
    · cases hb.1
    · cases hb.1
    · intro t1 t2 p b v ht
      simp at ht
  · rintro tr m x p y ⟨hc,ht⟩ hy
    exact ⟨coherent_call hc hy,ht⟩
  · rintro tr m x p d b f m' y e hrun ⟨hc,ht⟩ - hp hf
    have hs : Sound m x := sound_run hrun
    have act := step_act (h := (x p).held) (s := (x p).spot) hp hf
    rw [contents_snoc]
    exact ⟨coherent_act hs hc rfl act,
      transparent_snoc ht (act_length act) (fun _ _ => read_act hs hc rfl act)⟩

omit [Fintype ι] [DecidableEq ι] in
theorem act_names (act : Act p m h s m' y e)
    (hi : 0 < (m.buf i).refcnt ∨ (m.buf i).dirty = true) :
    (m'.buf i).dev = (m.buf i).dev ∧ (m'.buf i).blockno = (m.buf i).blockno := by
  have hset : ∀ {j : BufId} {f : Buf ι V → Buf ι V}, (∀ c, (f c).dev = c.dev) →
      (∀ c, (f c).blockno = c.blockno) → ((m.set j f).buf i).dev = (m.buf i).dev ∧
        ((m.set j f).buf i).blockno = (m.buf i).blockno := fun h1 h2 =>
    ⟨set_keeps _ _ _ _ Buf.dev h1,set_keeps _ _ _ _ Buf.blockno h2⟩
  cases act with
  | hit | lock | clear => exact hset (fun _ => rfl) (fun _ => rfl)
  | @recycle j b miss free =>
    have hij : i ≠ j := by
      rintro rfl
      obtain ⟨h0,hd⟩ := victim_some free
      rcases hi with hi | hi
      · omega
      · rw [hd] at hi
        cases hi
    simp [Cache.recycle, hij]
  | logWrite | bwrite => exact (store_touches _ _).name i
  | log | put => exact (pin_touches _).name i
  | fetched | flushed => exact (transfer_touches _).name i
  | count =>
    rw [unref_buf]
    exact hset (fun _ => rfl) (fun _ => rfl)
  | _ => exact ⟨rfl,rfl⟩

theorem free_unlocked (hs : Sound m x) (h0 : (m.buf i).refcnt = 0) : (m.buf i).lock = none := by
  cases hq : (m.buf i).lock with
  | none => rfl
  | some q =>
    have hlock : locks i (x q) = 1 := by rw [hs.locks, if_pos hq]
    have hrefs := refs_pos hs (p := q) (i := i) (by have := locks_refs i (x q); omega)
    omega

theorem bget_finds (hs : Sound m x) {b : BlockNo}
    (hfree : ∀ i, Named m i b → (m.buf i).lock = none)
    (hroom : ∃ i, Named m i b ∨ (m.buf i).refcnt = 0 ∧ (m.buf i).dirty = false)
    (h : List BufId) : ∃ m1 i, bget m h b = some (m1,⟨h,.found i b⟩,[]) ∧
      (m1.buf i).lock = none := by
  obtain ⟨order,hring,hall⟩ := hs.ring
  have hcached : m.cached b = some _ :=
    congrArg (Option.map Option.join) (chase_next (m.has b) hring (ring_length hring))
  have hvictim : m.victim = some _ :=
    congrArg (Option.map Option.join) (chase_prev m.unused hring (ring_length hring))
  cases hc : ((order.map some).find? (m.has b)).join with
  | some i =>
    rw [hc] at hcached
    refine ⟨m.ref i,i,by rw [bget, hcached],?_⟩
    simpa [Cache.ref] using hfree i (cached_some hcached)
  | none =>
    rw [hc] at hcached
    cases hv : ((order.map some).reverse.find? m.unused).join with
    | some i =>
      rw [hv] at hvictim
      refine ⟨m.recycle i b,i,by rw [bget, hcached]; simp only [hvictim],?_⟩
      simpa [Cache.recycle] using free_unlocked hs (victim_some hvictim).1
    | none =>
      rw [hv] at hvictim
      obtain ⟨i,hi | ⟨h0,hd⟩⟩ := hroom
      · exact absurd hi (cached_none hs.ring hcached i)
      · rw [victim_none hs.ring hvictim i h0] at hd
        cases hd

section Bread
variable {data : BufId → V} {disk : BlockNo → V} {b : BlockNo}
  {tr : List (Event ι BufId (Mark V))} {H : LockName → Option (Holder ι)}

omit [Fintype ι] in
theorem found_completes (hg : Gets (client (binit data disk)) p tr m ⟨h,.found i b⟩ H)
    (hb : H .bcache = some (.thread p)) (hi : H (.buf i) = none) (hl : (m.buf i).lock = none) :
    ∃ m' v, Gets (client (binit data disk)) p (tr++[.own p (.read b v)]) m' ⟨i::h,.run⟩
      (update H .bcache none) := by
  have g1 := gets_release hg .go rfl hb
  have g2 := gets_acquire g1 .go rfl (by simpa using hi)
  have g3 := gets_step g2 .go rfl (fun _ => if_neg (by simpa using hl))
  have g4 := gets_release g3 .go rfl (update_self ..)
  rw [update_idem, Function.update_eq_self_iff.mpr (by simpa using hi.symm)] at g4
  rw [List.map_nil, List.append_nil] at g4
  cases hv : ((m.lockBy i (some p)).buf i).valid with
  | true =>
    have g5 := gets_step g4 .go rfl (fun _ => if_neg (by simp [hv]))
    have g6 := gets_step g5 .go rfl (fun _ => rfl)
    exact ⟨_,_,by simpa using g6⟩
  | false =>
    have hhold : (m.lockBy i (some p)).holding p i := by simp [Cache.holding, Cache.lockBy]
    have g5 := gets_step g4 .go rfl (fun _ => if_pos hv)
    have g6 := gets_step g5 .go rfl (fun _ => by
      rw [iderw, if_neg (not_not.mpr hhold), if_neg (by simp [hv])])
    have g7 := gets_step g6 .go rfl (fun _ => rfl)
    have g8 := gets_step g7 .go rfl (fun _ => rfl)
    exact ⟨_,_,by simpa using g8⟩

theorem bread_completes (hs : Sound m x)
    (hg : Gets (client (binit data disk)) p tr m ⟨h,.run⟩ (fun _ => none))
    (hfree : ∀ i, Named m i b → (m.buf i).lock = none)
    (hroom : ∃ i, Named m i b ∨ (m.buf i).refcnt = 0 ∧ (m.buf i).dirty = false) :
    ∃ m' v i, Gets (client (binit data disk)) p (tr++[.own p (.read b v)]) m' ⟨i::h,.run⟩
      (fun _ => none) := by
  obtain ⟨m1,i,hget,hlock⟩ := bget_finds hs hfree hroom h
  have g1 := gets_step hg (.bread b) rfl (fun _ => rfl)
  have g2 := gets_acquire g1 .go rfl rfl
  have g3 := gets_step g2 .go rfl (fun _ => hget)
  simp only [List.map_nil, List.append_nil] at g3
  obtain ⟨m',v,g4⟩ := found_completes g3 (update_self ..) rfl hlock
  rw [update_idem, Function.update_eq_self_iff.mpr rfl] at g4
  exact ⟨m',v,i,g4⟩

end Bread

/-- In every run of any number of processes, each block of the root device has
at most one buffer, the buffers are linked in a ring, a buffer that is
referenced or dirty keeps its block in the next step, and every `bread` has
returned what its block contains. And a `bread` does return, if no other process
is in the way: no spinlock is held, the block is not locked, and it has a buffer
or there is one to recycle. -/
theorem cache_transparent (ι V : Type) [Fintype ι] [DecidableEq ι] (data : BufId → V)
    (disk : BlockNo → V) (tr : List (Event ι BufId (Mark V)))
    (s : State ι LockName BufId (Cache ι V) Point)
    (h : Run (machine (client (binit data disk))) (fun _ _ => True) tr s) :
    (∀ i j b, Named s.shared i b → Named s.shared j b → i = j) ∧ Ringed s.shared ∧
    (∀ l s' o, (machine (client (binit data disk))).step s l = some (s',o) →
      ∀ i, 0 < (s.shared.buf i).refcnt ∨ (s.shared.buf i).dirty = true →
        (s'.shared.buf i).dev = (s.shared.buf i).dev ∧
        (s'.shared.buf i).blockno = (s.shared.buf i).blockno) ∧
    Transparent disk (tr.filterMap own) ∧
    (∀ p held b, s.place p = .code ⟨held,.run⟩ → (∀ l, s.holder (.spin l) = none) →
      (∀ i, Named s.shared i b → (s.shared.buf i).lock = none) →
      (∃ i, Named s.shared i b ∨ (s.shared.buf i).refcnt = 0 ∧ (s.shared.buf i).dirty = false) →
      ∃ s' i, Run (machine (client (binit data disk))) (fun _ _ => True)
        (tr++[.own p (.read b (contents disk (tr.filterMap own) b))]) s' ∧
        s'.place p = .code ⟨i::held,.run⟩) := by
  have hview : ∀ {tr : List (Event ι BufId (Mark V))}
      {s : State ι LockName BufId (Cache ι V) Point},
      Run (machine (client (binit data disk))) (fun _ _ => True) tr s →
      Run (code (client (binit data disk))) (Allows (fun _ _ _ _ => True)) (tr.filterMap own)
        (view s) := fun h => run_view (run_mono (fun s l _ => permits_all s l) h)
  have hs : Sound s.shared (view s).spot := sound_run (hview h)
  refine ⟨hs.unique,hs.ring,fun l s' o hn i hi => ?_,(coherent_run (hview h)).2,?_⟩
  · rcases turn_kind (step_turn hn) with ⟨p,b,x,y,f,m',e,-,-,hp,hf,rfl,-,-⟩ | ⟨hsame,-,-⟩
    · exact act_names (step_act (h := x.held) (s := x.spot) hp hf) hi
    · rw [hsame]
      exact ⟨rfl,rfl⟩
  · intro p held b hx hspin hfree hroom
    obtain ⟨m',v,i,s',hr',-,hx',-⟩ := bread_completes hs ⟨s,h,rfl,hx,hspin⟩ hfree hroom
    have hread := (coherent_run (hview hr')).2 (tr.filterMap own) [] p b v (by simp [own])
    rw [← hread]
    exact ⟨s',i,hr',hx'⟩

local instance twoThreads : @NeZero ℕ Zero.ofOfNat0 2 := ⟨by decide⟩

def storeAndRead : List (Label (Fin 2) (Input ℕ)) :=
  .thread 0 (.bread 7) :: List.replicate 10 (.thread 0 .go) ++
    .thread 0 (.logWrite 0 5) :: .thread 0 .go ::
    .thread 0 (.brelse 0) :: List.replicate 11 (.thread 0 .go) ++
    .thread 1 (.bread 7) :: List.replicate 8 (.thread 1 .go)

theorem cache_transparent_shared : ∃ (tr : List (Event (Fin 2) BufId (Mark ℕ)))
    (s : State (Fin 2) LockName BufId (Cache (Fin 2) ℕ) Point),
    Run (machine (client (binit (fun _ => 0) (fun _ => 0)))) (fun _ _ => True) tr s ∧
    tr.filterMap own = [(0,.read 7 0), (0,.wrote 7 5), (1,.read 7 5)] ∧
    Transparent (fun _ => 0) (tr.filterMap own) := by
  obtain ⟨o,s,hr,hp⟩ := exec_reaches
    (S := machine (client (binit (ι := Fin 2) (V := ℕ) (fun _ => 0) (fun _ => 0))))
    (G := fun _ _ => True) storeAndRead
    (fun _ o => o.filterMap own = [(0,.read 7 0), (0,.wrote 7 5), (1,.read 7 5)])
    (by decide +kernel)
  exact ⟨o,s,hr,hp,(cache_transparent (Fin 2) ℕ _ _ o s hr).2.2.2.1⟩

end Xv6.BufCoherence

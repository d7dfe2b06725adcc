import Xv6.IdeQueue

/-!
# The disk refines the disk in memory

What the trace of a run says: which requests were queued, started and completed, and how far
the request of a process is since its call. At every point the pending requests, carried out
one after the other on what is stored, give what `memide.c` gives for all requests so far.
-/

set_option autoImplicit false

namespace Xv6.IdeDisk
open TransitionSystem SleepMachine SleepLocks CodeMachine LinkedQueue IdeCode IdeQueue
open Function

variable {ι B V : Type}

inductive Stage where
  | queued
  | started
  | moved
  deriving DecidableEq

abbrev Trace (ι B V : Type) := List (Agent ι × Mark ι B V)

variable [DecidableEq B]

def stage (b : B) (z : Agent ι × Mark ι B V) : Option Stage :=
  match z.2 with
  | .queued c => if c = b then some .queued else none
  | .started c => if c = b then some .started else none
  | .moved c => if c = b then some .moved else none
  | _ => none

def isCall [DecidableEq ι] (p : ι) : Agent ι × Mark ι B V → Bool
  | (.proc p',.call _) => decide (p' = p)
  | _ => false

def since [DecidableEq ι] (p : ι) (tr : Trace ι B V) : Trace ι B V :=
  tr.foldl (fun l z => if isCall p z then [] else l++[z]) []

def progress [DecidableEq ι] (p : ι) (b : B) (tr : Trace ι B V) : List Stage :=
  (since p tr).filterMap (stage b)

def queues (tr : Trace ι B V) : List B := tr.filterMap fun z => match z.2 with
  | .queued b => some b
  | _ => none

def starts (tr : Trace ι B V) : List B := tr.filterMap fun z => match z.2 with
  | .started b => some b
  | _ => none

def moves (tr : Trace ι B V) : List B := tr.filterMap fun z => match z.2 with
  | .moved b => some b
  | _ => none

def ops (tr : Trace ι B V) : List (Op ι B V) := tr.filterMap fun z => match z with
  | (_,.set b c) => some (.set b c)
  | (.proc p,.queued b) => some (.rw p b)
  | _ => none

section Traces
variable {p : ι} {b : B} {tr : Trace ι B V} {z : Agent ι × Mark ι B V}
variable [DecidableEq ι]

omit [DecidableEq B] in
theorem since_append {zs : Trace ι B V} (h : ∀ z ∈ zs, isCall p z = false) :
    since p (tr++zs) = since p tr++zs := by
  induction zs generalizing tr with
  | nil => rw [List.append_nil, List.append_nil]
  | cons z zs ih =>
    have hz : since p (tr++[z]) = since p tr++[z] := by
      rw [since, List.foldl_append]
      simp only [List.foldl_cons, List.foldl_nil, h z List.mem_cons_self, Bool.false_eq_true, if_false, since]
    rw [List.append_cons, ih fun w hw => h w (List.mem_cons_of_mem z hw), hz, List.append_assoc]
    rfl

theorem progress_call (h : isCall p z = true) : progress p b (tr++[z]) = [] := by
  rw [progress, since, List.foldl_append]
  simp only [List.foldl_cons, List.foldl_nil, h, if_true, List.filterMap_nil]

end Traces

section Memory
variable {M M' : MemDisk ι B V} {b d : B} {l : List B} {c : Buf ι V} {n : ℕ} {p : ι}

/-- What `iderw` of `memide.c` does to a buffer that passes its checks. -/
def transfer (b : B) (M : MemDisk ι B V) : MemDisk ι B V :=
  if (M.buf b).dirty = true then
    { M with memdisk := update M.memdisk (M.buf b).blockno (M.buf b).data }.set b
      { M.buf b with dirty := false, valid := true }
  else M.set b { M.buf b with data := M.memdisk (M.buf b).blockno, valid := true }

def transferAll (l : List B) (M : MemDisk ι B V) : MemDisk ι B V := l.foldl (fun M b => transfer b M) M

/-- The checks of `memide.c` that `ide.c` does not make. -/
def Serves (n : ℕ) (c : Buf ι V) : Prop := c.dev = 1 ∧ c.blockno < n

theorem memIderw_transfer [DecidableEq ι] (hlock : (M.buf b).lock = some p) (hwork : (M.buf b).ready = false)
    (hserves : Serves n (M.buf b)) : memIderw n p b M = .ok (transfer b M) := by
  have hready : ¬((M.buf b).valid = true ∧ (M.buf b).dirty = false) := fun h => by
    rw [Buf.ready, h.1, h.2] at hwork
    cases hwork
  simp only [memIderw, hlock, ne_eq, not_true_eq_false, if_false, hready, hserves.1,
    Nat.not_le_of_lt hserves.2, transfer]
  split <;> rfl

theorem memIderw_refuses [DecidableEq ι] (hlock : (M.buf b).lock = some p) (hwork : (M.buf b).ready = false)
    (hserves : ¬Serves n (M.buf b)) :
    memIderw n p b M = .error .notDisk1 ∨ memIderw n p b M = .error .outOfRange := by
  have hready : ¬((M.buf b).valid = true ∧ (M.buf b).dirty = false) := fun h => by
    rw [Buf.ready, h.1, h.2] at hwork
    cases hwork
  simp only [memIderw, hlock, ne_eq, not_true_eq_false, if_false, hready]
  by_cases hdev : (M.buf b).dev = 1
  · have hrange : n ≤ (M.buf b).blockno := Nat.le_of_not_lt fun hlt => hserves ⟨hdev,hlt⟩
    simp [hdev, hrange]
  · simp [hdev]

theorem memRun_append [DecidableEq ι] (o o' : List (Op ι B V)) (M : MemDisk ι B V) :
    memRun n (o++o') M = (memRun n o M).bind (memRun n o') := by
  induction o generalizing M with
  | nil => rfl
  | cons a o ih =>
    cases a with
    | set b c => exact ih _
    | rw p b =>
      simp only [List.cons_append, memRun]
      cases memIderw n p b M with
      | error e => rfl
      | ok M' => exact ih M'

theorem set_other (h : d ≠ b) : (M.set b c).buf d = M.buf d := update_of_ne h _ _

theorem transfer_other (h : d ≠ b) : (transfer b M).buf d = M.buf d := by
  rw [transfer]
  split <;> exact set_other h

theorem transferAll_other (h : d ∉ l) : (transferAll l M).buf d = M.buf d := by
  induction l generalizing M with
  | nil => rfl
  | cons b l ih =>
    rw [List.mem_cons, not_or] at h
    exact (ih h.2).trans (transfer_other h.1)

theorem set_comm {c' : Buf ι V} (h : d ≠ b) : (M.set d c).set b c' = (M.set b c').set d c := by
  have hcomm := Function.update_comm h c c' M.buf
  exact congrArg (fun f => MemDisk.mk f M.memdisk) hcomm

theorem transfer_set (h : d ≠ b) : transfer b (M.set d c) = (transfer b M).set d c := by
  rw [transfer, transfer, set_other h.symm]
  split
  · exact set_comm (M := { M with memdisk := update M.memdisk (M.buf b).blockno (M.buf b).data }) h
  · exact set_comm (M := M) h

theorem transferAll_set (h : d ∉ l) : transferAll l (M.set d c) = (transferAll l M).set d c := by
  induction l generalizing M with
  | nil => rfl
  | cons b l ih =>
    rw [List.mem_cons, not_or] at h
    show transferAll l (transfer b (M.set d c)) = _
    rw [transfer_set h.1, ih h.2]
    rfl

theorem transferAll_snoc : transferAll (l++[b]) M = transfer b (transferAll l M) := List.foldl_append

theorem set_set {c' : Buf ι V} : (M.set b c).set b c' = M.set b c' := by
  have hidem : update (update M.buf b c) b c' = update M.buf b c' := update_idem _ _ _
  exact congrArg (fun f => MemDisk.mk f M.memdisk) hidem

theorem set_here : (M.set b c).buf b = c := update_self _ _ _

end Memory

section Stored
variable {m m' : Mem ι B V} {b : B} {v : V}

theorem transfer_carried (hdev : (m.buf b).dev = 1) (h : Carried m m' b) :
    transfer b (stored m') = transfer b (stored m) := by
  have hm : stored m' = ⟨m.buf,m'.device.disk 1⟩ := by rw [stored, h.buf]
  rw [hm, transfer, transfer]
  show (if (m.buf b).dirty = true then _ else _) = if (m.buf b).dirty = true then _ else _
  split
  · rename_i hdirty
    rw [h.write hdev hdirty]
    show MemDisk.set ⟨m.buf,update (update _ _ _) _ _⟩ b _ = _
    rw [update_idem]
    rfl
  · rename_i hclean
    rw [h.read (Bool.eq_false_iff.mpr hclean)]
    rfl

theorem transfer_copied (hclean : (m.buf b).dirty = false) :
    transfer b ((stored m).set b { m.buf b with data := v }) = transfer b (stored m) := by
  have hno : ¬(m.buf b).dirty = true := Bool.eq_false_iff.mp hclean
  rw [transfer, transfer, set_here, if_neg hno, if_neg (show ¬((stored m).buf b).dirty = true from hno)]
  exact set_set

theorem transfer_moved (hdev : (m.buf b).dev = 1) (hdone : onDisk m b = (m.buf b).data) :
    transfer b (stored m) = (stored m).set b { m.buf b with valid := true, dirty := false } := by
  have hdata : m.device.disk 1 (m.buf b).blockno = (m.buf b).data := by
    rw [← hdone, onDisk, hdev]
  rw [transfer]
  split_ifs with hclean
  · show MemDisk.set ⟨m.buf,update (m.device.disk 1) (m.buf b).blockno (m.buf b).data⟩ b _ = _
    rw [← hdata, update_eq_self]
    rfl
  · have hclean' : (m.buf b).dirty = false := Bool.eq_false_iff.mpr hclean
    show (stored m).set b { m.buf b with data := m.device.disk 1 (m.buf b).blockno, valid := true } = _
    rw [hdata, ← hclean']

end Stored

def Setup.memory (S : Setup ι B V) : MemDisk ι B V := ⟨S.buf,S.disk 1⟩

/-- What `memide.c` makes of the requests so far is what the pending ones make of the memory. -/
def Leaves (n : ℕ) (m : Mem ι B V) (l : List B) : Except Panic (MemDisk ι B V) → Prop
  | .ok A => (∀ b ∈ l, Serves n (m.buf b)) ∧ transferAll l (stored m) = A
  | .error e => e = .notDisk1 ∨ e = .outOfRange

def Agrees [DecidableEq ι] (S : Setup ι B V) (tr : Trace ι B V) (m : Mem ι B V) (l : List B) : Prop :=
  Leaves S.disksize m l (memRun S.disksize (ops tr) (Setup.memory S))

section Agreement
variable {S : Setup ι B V} {tr : Trace ι B V} {m m' : Mem ι B V} {l l' : List B} {ph ph' : Phase B}
    {a : Agent ι}
  {e : List (Mark ι B V)}

omit [DecidableEq B] in
theorem ops_append (tr' : Trace ι B V) : ops (tr++tr') = ops tr++ops tr' := List.filterMap_append

theorem update_place {b : B} {c : Buf ι V} (hdev : c.dev = (m.buf b).dev)
    (hblock : c.blockno = (m.buf b).blockno)
    (d : B) : (update m.buf b c d).dev = (m.buf d).dev ∧
    (update m.buf b c d).blockno = (m.buf d).blockno := by
  by_cases hd : d = b
  · rw [hd, update_self]
    exact ⟨hdev,hblock⟩
  · rw [update_of_ne hd]
    exact ⟨rfl,rfl⟩

variable [DecidableEq ι]

theorem agrees_unseen (h : Agrees S tr m l) {tr' : Trace ι B V} (hops : ops tr' = [])
    (hserves : ∀ b ∈ l', b ∈ l ∧ (m'.buf b).dev = (m.buf b).dev ∧ (m'.buf b).blockno = (m.buf b).blockno)
    (hresult : (∀ b ∈ l, Serves S.disksize (m.buf b)) →
    transferAll l' (stored m') = transferAll l (stored m)) :
    Agrees S (tr++tr') m' l' := by
  unfold Agrees at h ⊢
  rw [ops_append, hops, List.append_nil]
  generalize memRun S.disksize (ops tr) (Setup.memory S) = o at h ⊢
  cases o with
  | error e => exact h
  | ok A =>
    refine ⟨fun b hb => ?_,(hresult h.1).trans h.2⟩
    obtain ⟨hold,hdev,hblock⟩ := hserves b hb
    rw [Serves, hdev, hblock]
    exact h.1 b hold

theorem agrees_same (h : Agrees S tr m l) {tr' : Trace ι B V} (hops : ops tr' = [])
    (hm : stored m' = stored m) :
    Agrees S (tr++tr') m' l := by
  have hbuf : m'.buf = m.buf := congrArg MemDisk.buf hm
  refine agrees_unseen h hops (fun b hb => ⟨hb,?_⟩) fun _ => by rw [hm]
  rw [hbuf]
  exact ⟨rfl,rfl⟩

theorem agrees_set (h : Agrees S tr m l) {b : B} {c : Buf ι V} (hout : b ∉ l)
    (hm : stored m' = (stored m).set b c) :
    Agrees S (tr++[(a,.set b c)]) m' l := by
  have hbuf : m'.buf = update m.buf b c := congrArg MemDisk.buf hm
  unfold Agrees at h ⊢
  rw [ops_append, memRun_append]
  generalize memRun S.disksize (ops tr) (Setup.memory S) = o at h ⊢
  cases o with
  | error e => exact h
  | ok A =>
    obtain ⟨hserves,rfl⟩ := h
    refine ⟨fun d hd => ?_,by rw [hm, transferAll_set hout]⟩
    have hne : d ≠ b := fun heq => hout (by rw [← heq]; exact hd)
    rw [hbuf, update_of_ne hne]
    exact hserves d hd

theorem agrees_queued (h : Agrees S tr m l) {p : ι} {b : B} (hfresh : Fresh m l p b)
    (hm : stored m' = stored m) :
    Agrees S (tr++[(.proc p,.queued b)]) m' (l++[b]) := by
  have hbuf : m'.buf = m.buf := congrArg MemDisk.buf hm
  unfold Agrees at h ⊢
  rw [ops_append, memRun_append]
  generalize memRun S.disksize (ops tr) (Setup.memory S) = o at h ⊢
  cases o with
  | error e => exact h
  | ok A =>
    obtain ⟨hserves,rfl⟩ := h
    have hb : (transferAll l (stored m)).buf b = m.buf b := transferAll_other hfresh.out
    have hlock : ((transferAll l (stored m)).buf b).lock = some p := by rw [hb]; exact hfresh.lock
    have hwork : ((transferAll l (stored m)).buf b).ready = false := by rw [hb]; exact hfresh.work
    show Leaves _ _ _ ((memIderw S.disksize p b (transferAll l (stored m))).bind .ok)
    by_cases hs : Serves S.disksize (m.buf b)
    · rw [memIderw_transfer hlock hwork (by rw [hb]; exact hs)]
      refine ⟨fun d hd => ?_,by rw [hm, transferAll_snoc]⟩
      rw [hbuf]
      rcases List.mem_append.mp hd with hd | hd
      · exact hserves d hd
      · rw [List.mem_singleton.mp hd]
        exact hs
    · rcases memIderw_refuses hlock hwork (by rw [hb]; exact hs) with he | he
      · rw [he]
        exact .inl rfl
      · rw [he]
        exact .inr rfl

theorem agrees_effect (h : Agrees S tr m l) (he : Effect m m' ph ph' l l' a e) :
    Agrees S (tr++e.map (Prod.mk a)) m' l' := by
  cases he with
  | set hout _ hm hsame =>
    rw [hsame]
    exact agrees_set h hout hm
  | queued hfresh hm hmore =>
    rw [hmore]
    exact agrees_queued h hfresh hm
  | started _ hm hsame | called hm hsame | returned hm hsame | other hm hsame =>
    rw [hsame]
    exact agrees_same h rfl hm
  | @finished _ b r hhere hm hsame =>
    rw [hsame]
    refine agrees_unseen h rfl (fun d hd => ⟨hd,?_⟩) fun hs => ?_
    · rw [hm.buf]
      exact ⟨rfl,rfl⟩
    · subst hhere
      have hfirst := transfer_carried (hs b List.mem_cons_self).1 hm
      exact congrArg (transferAll r) hfirst
  | @copied _ b r v hhere hclean hm hsame =>
    rw [hsame]
    have hbuf : m'.buf = update m.buf b { m.buf b with data := v } := congrArg MemDisk.buf hm
    refine agrees_unseen h rfl (fun d hd => ⟨hd,?_⟩) fun _ => ?_
    · rw [hbuf]
      exact update_place (by rfl) (by rfl) d
    · subst hhere
      rw [hm]
      exact congrArg (transferAll r) (transfer_copied hclean)
  | @moved _ b hhere hdone hm =>
    have hbuf : m'.buf = update m.buf b { m.buf b with valid := true, dirty := false } :=
      congrArg MemDisk.buf hm
    refine agrees_unseen h rfl (fun d hd => ?_) fun hs => ?_
    · rw [hbuf, hhere]
      exact ⟨List.mem_cons_of_mem b hd,update_place (by rfl) (by rfl) d⟩
    · subst hhere
      have hfirst := transfer_moved (hs b List.mem_cons_self).1 hdone
      rw [hm, ← hfirst]
      rfl

end Agreement

def ahead : Point ι B → Option B
  | .check b | .acquire b | .append b | .find b _ => some b
  | _ => none

def behind : Point ι B → Option B
  | .head b | .start b | .halted b | .test b | .sleep b | .exit b | .done b => some b
  | _ => none

/-- What was done to a request, by where it is now. -/
def expected (active : Option B) (l : List B) (b : B) : List Stage :=
  if active = some b then [.queued,.started] else if b ∈ l then [.queued] else [.queued,.started,.moved]

structure Follows [DecidableEq ι] (tr : Trace ι B V) (m : Mem ι B V) (x : Agent ι → Point ι B)
    (active : Option B) (l : List B) : Prop where
  ahead : ∀ p b, ahead (x (.proc p)) = some b → (m.buf b).lock = some p → progress p b tr = []
  behind : ∀ p b, behind (x (.proc p)) = some b → progress p b tr = expected active l b

section Progress
variable {tr : Trace ι B V} {m m' : Mem ι B V} {x : Agent ι → Point ι B} {l l' : List B} {ph ph' : Phase B}
    {a : Agent ι}
  {e : List (Mark ι B V)} {p : ι} {b : B} {pt y : Point ι B}

theorem act_ahead (h : Act m (.proc p) pt m' y e) (hy : ahead y = some b) :
    (ahead pt = some b ∧ e = []) ∨ e = [.call b] := by
  cases h with
  | call =>
    cases hy
    exact .inr rfl
  | checked | clear | walk => exact .inl ⟨hy,rfl⟩
  | _ => cases hy

theorem act_behind (h : Act m (.proc p) pt m' y e) (hy : behind y = some b) :
    (behind pt = some b ∧ (∀ c, e ≠ [.call c]) ∧ e ≠ [.queued b]) ∨
    (ahead pt = some b ∧ e = [.queued b]) := by
  cases h with
  | queue =>
    cases hy
    exact .inr ⟨rfl,rfl⟩
  | first | later | start | halt | ready | busy => exact .inl ⟨hy,nofun,nofun⟩
  | _ => cases hy

theorem call_places [DecidableEq ι] (h : (prog (V := V) (.proc p) pt).next = some y) :
    ahead y = ahead pt ∧ behind y = behind pt := by
  cases pt with
  | acquire | sleep | exit | kill =>
    cases h
    exact ⟨rfl,rfl⟩
  | _ => cases h

theorem progress_marks [DecidableEq ι] (h : ∀ c, a = .proc p → e ≠ [.call c])
    (he : Effect m m' ph ph' l l' a e) :
    progress p b (tr++e.map (Prod.mk a)) = progress p b tr++(e.map (Prod.mk a)).filterMap (stage b) := by
  rw [progress, since_append fun z hz => ?_, List.filterMap_append, ← progress]
  obtain ⟨μ,hμ,rfl⟩ := List.mem_map.mp hz
  cases he with
  | finished | copied | other => cases hμ
  | called =>
    cases List.mem_singleton.mp hμ
    cases a with
    | proc p' =>
      refine decide_eq_false ?_
      rintro rfl
      exact h _ rfl rfl
    | _ => rfl
  | set | queued =>
    cases List.mem_singleton.mp hμ
    rfl
  | started | moved | returned =>
    cases List.mem_singleton.mp hμ
    cases a <;> rfl

theorem expected_effect (he : Effect m m' ph ph' l l' a e) (hactive : ∀ d, ph.active = some d → d ∈ l)
    (hnodup : l.Nodup)
    (hb : e ≠ [.queued b]) :
    expected ph'.active l' b = expected ph.active l b++(e.map (Prod.mk a)).filterMap (stage b) := by
  cases he with
  | set _ _ _ hsame hact | called _ hsame hact | returned _ hsame hact =>
    rw [hsame, hact]
    exact (List.append_nil _).symm
  | finished _ _ hsame hact | copied _ _ _ hsame hact | other _ hsame hact =>
    rw [hsame, hact]
    exact (List.append_nil _).symm
  | @queued p d _ _ hmore hact =>
    have hne : d ≠ b := fun heq => hb (by rw [heq])
    have hmem : b ∈ l++[d] ↔ b ∈ l := by simp [hne.symm]
    simp [hmore, hact, expected, hmem, stage, hne]
  | @started _ d hhere _ hsame hfree hact =>
    rw [hsame, hact, hfree]
    by_cases hd : d = b
    · subst hd
      simp [expected, hhere, stage]
    · simp [expected, hd, stage]
  | @moved _ d hhere _ _ hact hfree =>
    rw [hact, hfree]
    subst hhere
    by_cases hd : d = b
    · subst hd
      simp [expected, (List.nodup_cons.mp hnodup).1, stage]
    · simp [expected, hd, Ne.symm hd, stage]

theorem effect_lock (he : Effect m m' ph ph' l l' a e) (hb : ∀ c, e ≠ [.set b c]) :
    (m'.buf b).lock = (m.buf b).lock := by
  have hbuf : ∀ {M : MemDisk ι B V}, stored m' = M → m'.buf = M.buf := fun h => congrArg MemDisk.buf h
  have hset : ∀ {d : B} {c : Buf ι V}, stored m' = (stored m).set d c → c.lock = (m.buf d).lock →
      (m'.buf b).lock = (m.buf b).lock := fun {d c} hm hc => by
    rw [hbuf hm]
    by_cases hd : b = d
    · rw [hd, set_here, hc]
    · rw [set_other hd]
      rfl
  cases he with
  | @set p d c _ _ hm =>
    rw [hbuf hm, set_other fun hd => hb c (by rw [hd])]
    rfl
  | queued _ hm | started _ hm | called hm | returned hm | other hm =>
    rw [hbuf hm]
    rfl
  | finished _ hm => rw [hm.buf]
  | copied _ _ hm => exact hset hm rfl
  | moved _ _ hm => exact hset hm rfl

omit [DecidableEq B] in
theorem behind_lock {q : List B} (h : PointOk m q ph (.proc p) pt) (hb : behind pt = some b) :
    (m.buf b).lock = some p := by
  cases pt with
  | head | start | halted | exit | done =>
    cases hb
    exact h.1
  | test | sleep =>
    cases hb
    exact h
  | _ => cases hb

theorem ahead_unmarked {q : List B} (hq : Queued m x q ph) (he : Effect m m' ph ph' (pending ph q) l' a e)
    (hx : ahead (x (.proc p)) = some b) (hlock : (m.buf b).lock = some p)
    (ha : ∀ c, a = .proc p → e ≠ [.queued c]) :
    (e.map (Prod.mk a)).filterMap (stage b) = [] := by
  have hout : ∀ d, d ∈ pending ph q → d ≠ b := by
    rintro d hd rfl
    have hw := pending_waited hq hd hlock
    generalize x (.proc p) = pt at hw hx
    cases pt <;> cases hx <;> cases hw
  cases he with
  | @queued p' d hfresh =>
    have hne : d ≠ b := by
      rintro rfl
      have hlock' := hfresh.lock
      rw [hlock] at hlock'
      cases hlock'
      exact ha _ rfl rfl
    simp [stage, hne]
  | @started _ d hhere => simp [stage, hout d hhere]
  | @moved _ d hhere =>
    have hne := hout d (by rw [hhere]; exact List.mem_cons_self)
    simp [stage, hne]
  | _ => rfl

omit [DecidableEq B] in
theorem active_mem {q : List B} (hq : Queued m x q ph) (d : B) (h : ph.active = some d) :
    d ∈ pending ph q := by
  have hdev := hq.device
  cases ph with
  | busy c | raised c | coming c k =>
    cases h
    obtain ⟨-,-,-,r,rfl⟩ := hdev
    exact List.mem_cons_self
  | moving c k =>
    cases h
    exact List.mem_cons_self
  | _ => cases h

variable [DecidableEq ι]

theorem follows_act {q q' : List B} (h : Follows tr m x ph.active (pending ph q)) (hq : Queued m x q ph)
    (hact : Act m a (x a) m' y e) (he : Effect m m' ph ph' (pending ph q) (pending ph' q') a e) :
    Follows (tr++e.map (Prod.mk a)) m' (update x a y) ph'.active (pending ph' q') := by
  refine ⟨fun p b hx hlock => ?_,fun p b hx => ?_⟩
  · by_cases ha : a = .proc p
    · subst ha
      rw [update_self] at hx
      rcases act_ahead hact hx with ⟨hold,rfl⟩ | rfl
      · rw [effect_lock he nofun] at hlock
        rw [List.map_nil, List.append_nil]
        exact h.ahead p b hold hlock
      · exact progress_call (decide_eq_true rfl)
    · rw [update_of_ne (Ne.symm ha)] at hx
      have hset : ∀ c, e ≠ [.set b c] := by
        rintro c rfl
        cases he with
        | set _ hnew hm =>
          have hbuf : m'.buf = update m.buf b c := congrArg MemDisk.buf hm
          rw [hbuf, update_self] at hlock
          rw [hlock] at hnew
          rcases hnew with hnew | hnew
          · cases hnew
          · cases hnew
            exact ha rfl
      rw [effect_lock he hset] at hlock
      rw [progress_marks (fun _ hp => absurd hp ha) he, h.ahead p b hx hlock,
        ahead_unmarked hq he hx hlock fun _ hp => absurd hp ha]
      rfl
  · by_cases ha : a = .proc p
    · subst ha
      rw [update_self] at hx
      rcases act_behind hact hx with ⟨hold,hcall,hqueue⟩ | ⟨hold,rfl⟩
      · rw [progress_marks (fun c _ => hcall c) he, h.behind p b hold,
          expected_effect he (active_mem hq) hq.nodup hqueue]
      · rw [progress_marks (fun _ _ hc => by cases hc) he]
        cases he with
        | queued hfresh _ hmore hactive =>
          have hnot : ph.active ≠ some b := fun hd => hfresh.out (active_mem hq b hd)
          rw [h.ahead p b hold hfresh.lock, hmore, hactive, expected, if_neg hnot, if_pos (by simp)]
          simp [stage]
    · rw [update_of_ne (Ne.symm ha)] at hx
      have hqueue : e ≠ [.queued b] := by
        rintro rfl
        cases he with
        | queued hfresh =>
          have hlock : (m.buf b).lock = some p := behind_lock (hq.points (.proc p)) hx
          rw [hfresh.lock] at hlock
          cases hlock
          exact ha rfl
      rw [progress_marks (fun _ hp => absurd hp ha) he, h.behind p b hx,
        expected_effect he (active_mem hq) hq.nodup hqueue]

theorem follows_call {active : Option B} (h : Follows tr m x active l)
    (hnext : (prog (V := V) a (x a)).next = some y) :
    Follows tr m (update x a y) active l := by
  have hplaces : ∀ p, ahead (update x a y (.proc p)) = ahead (x (.proc p)) ∧
      behind (update x a y (.proc p)) = behind (x (.proc p)) := fun p => by
    by_cases ha : a = .proc p
    · subst ha
      rw [update_self]
      exact call_places hnext
    · rw [update_of_ne (Ne.symm ha)]
      exact ⟨rfl,rfl⟩
  exact ⟨fun p b hx => h.ahead p b ((hplaces p).1.symm.trans hx),
    fun p b hx => h.behind p b ((hplaces p).2.symm.trans hx)⟩

end Progress

variable [DecidableEq ι]

/-- `iderw` has returned to `p` only after its request was queued, started and completed once. -/
def Transferred (tr : Trace ι B V) : Prop :=
  ∀ tr1 p b tr2, tr = tr1++(.proc p,.returned b)::tr2 → progress p b tr1 = [.queued,.started,.moved]

structure Refines (S : Setup ι B V) (tr : Trace ι B V) (m : Mem ι B V) (x : Agent ι → Point ι B) (q : List B)
    (ph : Phase B) : Prop where
  queued : Queued m x q ph
  agrees : Agrees S tr m (pending ph q)
  follows : Follows tr m x ph.active (pending ph q)
  order : queues tr = moves tr++pending ph q
  started : ∀ b, ph.active = some b → (starts tr).getLast? = some b
  returned : Transferred tr

section Runs
variable {S : Setup ι B V} {tr : Trace ι B V} {m m' : Mem ι B V} {x : Agent ι → Point ι B} {q : List B}
    {l l' : List B}
  {ph ph' : Phase B} {a : Agent ι} {e : List (Mark ι B V)} {y : Point ι B}

omit [DecidableEq ι] in
theorem order_effect (h : queues tr = moves tr++l) (he : Effect m m' ph ph' l l' a e) :
    queues (tr++e.map (Prod.mk a)) = moves (tr++e.map (Prod.mk a))++l' := by
  rw [queues, moves, List.filterMap_append, List.filterMap_append, ← queues, ← moves, h]
  cases he with
  | queued _ _ hmore => simp [hmore]
  | moved hhere => simp [hhere]
  | set _ _ _ hsame | started _ _ hsame | finished _ _ hsame | copied _ _ _ hsame | called _ hsame
  | returned _ hsame
  | other _ hsame => simp [hsame]

omit [DecidableEq ι] in
theorem started_effect (h : ∀ b, ph.active = some b → (starts tr).getLast? = some b)
    (he : Effect m m' ph ph' l l' a e) (b : B) (hb : ph'.active = some b) :
    (starts (tr++e.map (Prod.mk a))).getLast? = some b := by
  rw [starts, List.filterMap_append, ← starts]
  cases he with
  | started _ _ _ _ hact =>
    rw [hact] at hb
    cases hb
    simp
  | moved _ _ _ _ hfree =>
    rw [hfree] at hb
    cases hb
  | set _ _ _ _ hact | queued _ _ _ hact | finished _ _ _ hact | copied _ _ _ _ hact | called _ _ hact
  | returned _ _ hact
  | other _ _ hact =>
    rw [hact] at hb
    simpa using h b hb

theorem transferred_act (h : Refines S tr m x q ph) (hact : Act m a (x a) m' y e) :
    Transferred (tr++e.map (Prod.mk a)) := by
  intro tr1 p b tr2 htr
  have hold : ∀ tr2', tr = tr1++(.proc p,.returned b)::tr2' → progress p b tr1 = [.queued,.started,.moved] :=
    fun tr2' h' => h.returned tr1 p b tr2' h'
  have hsnoc : ∀ μ, e = [μ] → (a = .proc p → μ ≠ .returned b) →
    progress p b tr1 = [.queued,.started,.moved] := by
    rintro μ rfl hne
    rcases snoc_split htr with ⟨-,heq,-⟩ | ⟨w,-,hw⟩
    · cases heq
      exact absurd rfl (hne rfl)
    · exact hold w hw
  have hpt := h.queued.points a
  generalize hx : x a = pt at hact hpt
  cases hact with
  | @back p' b' =>
    by_cases hsame : p' = p ∧ b' = b
    · obtain ⟨rfl,rfl⟩ := hsame
      rcases snoc_split htr with ⟨-,-,rfl⟩ | ⟨w,-,hw⟩
      · have hnot : ph.active ≠ some b' := fun hd => hpt.2 (active_mem h.queued b' hd)
        rw [h.follows.behind p' b' (by rw [hx]; rfl), expected, if_neg hnot, if_neg hpt.2]
      · exact hold w hw
    · refine hsnoc _ rfl fun hp hb => hsame ?_
      cases hp
      cases hb
      exact ⟨rfl,rfl⟩
  | set | call | queue | start | move | next => exact hsnoc _ rfl fun _ => nofun
  | _ => exact hold tr2 (by rw [← htr, List.map_nil, List.append_nil])

theorem refines_act (h : Refines S tr m x q ph) (hact : Act m a (x a) m' y e)
    (hone : critical (x a) = true → ∀ c, c ≠ a → critical (x c) = false) :
    ∃ q' ph', Refines S (tr++e.map (Prod.mk a)) m' (update x a y) q' ph' := by
  obtain ⟨q',ph',hq,he⟩ := queued_act h.queued hact hone
  exact ⟨q',ph',hq,agrees_effect h.agrees he,follows_act h.follows h.queued hact he,order_effect h.order he,
    started_effect h.started he,transferred_act h hact⟩

theorem refines_call (h : Refines S tr m x q ph) (hnext : (prog (V := V) a (x a)).next = some y) :
    Refines S tr m (update x a y) q ph :=
  ⟨queued_call h.queued hnext,h.agrees,follows_call h.follows hnext,h.order,h.started,h.returned⟩

theorem refines_boot (S : Setup ι B V) : Refines S [] (client S).shared (client S).start [] .idle where
  queued := queued_boot S
  agrees := ⟨nofun,rfl⟩
  follows := ⟨nofun,nofun⟩
  order := rfl
  started := nofun
  returned := fun tr1 p b tr2 h => by cases tr1 <;> cases h

theorem refines_run {G : State (Agent ι) Unit B (Mem ι B V) (Point ι B) →
    Label (Agent ι) (Input ι B V) → Prop}
    {t : List (Event (Agent ι) B (Mark ι B V))} {s : State (Agent ι) Unit B (Mem ι B V) (Point ι B)}
    (h : Run (machine (client S)) G t s) :
    ∃ q ph, Refines S (t.filterMap own) s.shared (view s).spot q ph := by
  refine locked_invariant (C := client S) (K := fun x => critical x = true) (disciplined S) critical_holds
    (fun p x c j y => sleep_not_critical) (fun tr m x => ∃ q ph, Refines S tr m x q ph)
      ⟨[],.idle,refines_boot S⟩ ?_ ?_ h
  · rintro tr m x p y ⟨q,ph,hr⟩ hnext
    exact ⟨q,ph,refines_call hr hnext⟩
  · rintro tr m x p d b f m' y e hone ⟨q,ph,hr⟩ hp hf
    refine refines_act hr (step_act hp hf) fun hc c hne => ?_
    exact Bool.eq_false_iff.mpr (hone c hne hc)

/-- The points between a change of the first request and the start of the disk on it. -/
def changing : Point ι B → Bool
  | .head _ | .start _ | .halted _ | .read _ | .flags _ | .wake _ | .next => true
  | _ => false

omit [DecidableEq B] [DecidableEq ι] in
theorem head_active {b : B} {r : List B} (h : Queued m x (b::r) ph) (hx : ∀ a, changing (x a) = false) :
    ph.active = some b := by
  have hhand : ∀ k, ph.hand = some k → ∃ d, ph = .coming d k := fun k hk => by
    have hpt := h.points (.handler k)
    have hin := h.hand k hk
    have hno := hx (.handler k)
    generalize x (.handler k) = pt at hpt hin hno
    cases pt with
    | lock | take => exact hpt
    | read | flags | wake | next | halted => cases hno
    | _ => cases hin
  have hdev := h.device
  cases ph with
  | idle =>
    rcases h.idle rfl with hq | ⟨p,d,-,hs⟩
    · cases hq
    · have hno := hx (.proc p)
      generalize x (.proc p) = pt at hs hno
      cases pt <;> cases hs <;> cases hno
  | busy | raised | coming =>
    obtain ⟨-,-,-,r',hr⟩ := hdev
    cases hr
    rfl
  | moving c k | after k =>
    obtain ⟨d,hd⟩ := hhand k rfl
    cases hd

omit [DecidableEq B] [DecidableEq ι] in
theorem none_pending (h : Queued m x q ph) (hx : ∀ p, x (.proc p) = .idle) : pending ph q = [] := by
  refine List.eq_nil_iff_forall_not_mem.mpr fun b hb => ?_
  obtain ⟨-,p,hw⟩ := h.waits b hb
  rw [hx] at hw
  cases hw

omit [DecidableEq B] [DecidableEq ι] in
theorem changing_critical (pt : Point ι B) (h : changing pt = true) : critical pt = true := by
  cases pt <;> first | rfl | cases h

end Runs

theorem none_changing {S : Setup ι B V} {t : List (Event (Agent ι) B (Mark ι B V))}
    {s : State (Agent ι) Unit B (Mem ι B V) (Point ι B)} (h : Run (machine (client S)) (fun _ _ => True) t s)
    (hfree : s.holder (.spin ()) = none) (a : Agent ι) : changing ((view s).spot a) = false := by
  refine Bool.eq_false_iff.mpr fun hch => ?_
  have hplace := spot_holds (C := client S) (K := fun x => critical x = true) critical_holds
    (fun p x c j y => sleep_not_critical) (called_run h a) (changing_critical _ hch)
  rw [((owned_run (disciplined S) h).owner (.spin ()) a).mpr hplace] at hfree
  cases hfree

/-- The driver with interrupts keeps its queue, completes each request once, and leaves what the
driver with a disk in memory leaves for the requests in queue order, unless that one refuses one. -/
theorem ide_refines_memide (ι B V : Type) [DecidableEq ι] [DecidableEq B] (S : Setup ι B V)
    (tr : List (Event (Agent ι) B (Mark ι B V))) (s : State (Agent ι) Unit B (Mem ι B V) (Point ι B))
    (h : Run (machine (client S)) (fun _ _ => True) tr s) :
    (∃ q, Linked s.shared.qnext s.shared.idequeue q ∧ q.Nodup) ∧
    (s.holder (.spin ()) = none ∨ (∀ a, changing ((view s).spot a) = false) →
      ∀ b, s.shared.idequeue = some b → (starts (tr.filterMap own)).getLast? = some b) ∧
    (∀ tr1 p b tr2, tr.filterMap own = tr1++(.proc p,.returned b)::tr2 →
      progress p b tr1 = [.queued,.started,.moved]) ∧
    ((∀ p, s.place (.proc p) = .code .idle) →
      moves (tr.filterMap own) = queues (tr.filterMap own) ∧
      ((∃ A, memRun S.disksize (ops (tr.filterMap own)) (Setup.memory S) = .ok A ∧ A.buf = s.shared.buf ∧
        A.memdisk = s.shared.device.disk 1) ∨
      memRun S.disksize (ops (tr.filterMap own)) (Setup.memory S) = .error .notDisk1 ∨
      memRun S.disksize (ops (tr.filterMap own)) (Setup.memory S) = .error .outOfRange)) := by
  obtain ⟨q,ph,hr⟩ := refines_run h
  refine ⟨⟨q,hr.queued.queue,(List.nodup_append.mp hr.queued.nodup).2.1⟩,fun hstill b hb => ?_,hr.returned,
    fun hidle => ?_⟩
  · have hch : ∀ a, changing ((view s).spot a) = false := by
      rcases hstill with hfree | hch
      · exact none_changing h hfree
      · exact hch
    have hlink := hr.queued.queue
    rw [hb] at hlink
    obtain ⟨r,rfl,-⟩ := linked_some hlink
    exact hr.started b (head_active hr.queued hch)
  · have hnone := none_pending hr.queued fun p => by
      show spot (s.place (.proc p)) = _
      rw [hidle p]
      rfl
    have horder := hr.order
    rw [hnone, List.append_nil] at horder
    refine ⟨horder.symm,?_⟩
    have hagrees := hr.agrees
    unfold Agrees at hagrees
    generalize memRun S.disksize (ops (tr.filterMap own)) (Setup.memory S) = o at hagrees ⊢
    cases o with
    | ok A =>
      obtain ⟨-,rfl⟩ := hagrees
      rw [hnone]
      exact .inl ⟨_,rfl,rfl,rfl⟩
    | error e =>
      rcases hagrees with rfl | rfl
      · exact .inr (.inl rfl)
      · exact .inr (.inr rfl)

def twoBuffers : Setup Bool Bool ℕ :=
  ⟨fun _ => ⟨1,5,false,false,0,none⟩,fun _ _ => 42,fun _ => none,0,true,1000⟩

def request (p : Bool) (c : Buf Bool ℕ) : List (Label (Agent Bool) (Input Bool Bool ℕ)) :=
  .thread (.proc p) (.set p c)::.thread (.proc p) (.iderw p)::
    List.replicate 12 (.thread (.proc p) .go)++[.idle]

def serve : List (Label (Agent Bool) (Input Bool Bool ℕ)) :=
  .thread .disk .go::List.replicate 11 (.thread (.handler 0) .go)

def resume (p : Bool) : List (Label (Agent Bool) (Input Bool Bool ℕ)) :=
  .take::.give (.proc p)::List.replicate 6 (.thread (.proc p) .go)

/-- The second request waits in the queue while the first one, a write, is carried out. -/
theorem ide_serves_two : ∃ (tr : List (Event (Agent Bool) Bool (Mark Bool Bool ℕ)))
    (s : State (Agent Bool) Unit Bool (Mem Bool Bool ℕ) (Point Bool Bool)),
    Run (machine (client twoBuffers)) (fun _ _ => True) tr s ∧
    queues (tr.filterMap own) = [false,true] ∧ moves (tr.filterMap own) = [false,true] ∧
    ∃ A, memRun 1000 (ops (tr.filterMap own)) (Setup.memory twoBuffers) = .ok A ∧
      A.buf = s.shared.buf ∧ A.memdisk = s.shared.device.disk 1 ∧
      A.memdisk 5 = 7 ∧ (A.buf true).data = 42 := by
  obtain ⟨o,s,hr,hp⟩ := exec_reaches (S := machine (client twoBuffers)) (G := fun _ _ => True)
    (request false ⟨1,5,false,true,7,some false⟩++request true ⟨1,6,false,false,0,some true⟩++
      serve++serve++resume false++resume true)
    (fun s o => (∀ p, s.place (.proc p) = .code .idle) ∧ queues (o.filterMap own) = [false,true] ∧
      (memRun 1000 (ops (o.filterMap own)) (Setup.memory twoBuffers)).isOk = true ∧
      s.shared.device.disk 1 5 = 7 ∧ (s.shared.buf true).data = 42) (by decide +kernel)
  obtain ⟨hidle,hqueues,hok,hdisk,hdata⟩ := hp
  obtain ⟨hmoves,hmem⟩ := (ide_refines_memide Bool Bool ℕ twoBuffers o s hr).2.2.2 hidle
  refine ⟨o,s,hr,hqueues,hmoves.trans hqueues,?_⟩
  rcases hmem with ⟨A,hA,hbuf,hmd⟩ | he | he
  · exact ⟨A,hA,hbuf,hmd,by rw [hmd, hdisk],by rw [hbuf, hdata]⟩
  · cases (congrArg Except.isOk he).symm.trans hok
  · cases (congrArg Except.isOk he).symm.trans hok

end Xv6.IdeDisk

import Xv6.LogInvariant

/-!
# Whole operations commit together

The blocks an operation has given to `log_write` stay in the header until a
commit writes them, and none is written while the operation runs; so the first
commit behind its `end_op` has all of them.
-/

set_option autoImplicit false

namespace Xv6.LogCommit
open TransitionSystem SleepMachine CodeMachine LogMachine LogOps
open LogInvariant
open Function

def commit : Mark → Option (List BlockNo)
  | .head n hb => if n = 0 then none else some (hb.take n)
  | _ => none

def pend (bs : List BlockNo) : Mark → List BlockNo
  | .wrote b => bs++[b]
  | .cleared => []
  | .began | .ended | .head _ _ => bs

variable {ι : Type}

/-- The blocks given to `log_write` since `commit` last emptied the header. -/
def pending (tr : List (ι × Mark)) : List BlockNo := tr.foldl (fun bs e => pend bs e.2) []

theorem pending_snoc (tr : List (ι × Mark)) (a : ι × Mark) :
    pending (tr++[a]) = pend (pending tr) a.2 := by
  simp [pending]

def NoCommit (tr : List (ι × Mark)) : Prop := ∀ a ∈ tr, commit a.2 = none

theorem no_commit_snoc {tr : List (ι × Mark)} {a : ι × Mark} (h : NoCommit tr)
    (ha : commit a.2 = none) : NoCommit (tr++[a]) := by
  intro b hb
  rcases List.mem_append.mp hb with hb | hb
  · exact h b hb
  · rw [List.mem_singleton] at hb
    rwa [hb]

section Acts
variable {m m' : Log} {x y : Point} {e : List Mark}

theorem act_events (act : Act m x m' y e) : e = [] ∨ ∃ a, e = [a] := by
  cases act <;> first | exact .inl rfl | exact .inr ⟨_,rfl⟩

theorem act_keeps (act : Act m x m' y e) (hx : x ≠ .clear) {b : BlockNo} (hb : b ∈ m.logged) :
    b ∈ m'.logged := by
  cases act with
  | clear => exact absurd rfl hx
  | @record ws c => exact (mem_record m c b).mpr (.inl hb)
  | _ => exact hb

theorem act_wrote (act : Act m x m' y e) {b : BlockNo} (hb : .wrote b ∈ e) : b ∈ m'.logged := by
  cases act with
  | @record ws c =>
    simp only [List.mem_singleton, Mark.wrote.injEq] at hb
    exact (mem_record m c b).mpr (.inr hb)
  | _ => simp at hb

theorem act_open (act : Act m x m' y e) (hx : opens x = 1) : opens y = 1 ∨ .ended ∈ e := by
  cases act with
  | stuck | last | ended => exact .inr (List.mem_singleton.mpr rfl)
  | _ => first | exact .inl rfl | cases hx

theorem act_began (act : Act m x m' y e) (h : .began ∈ e) : opens y = 1 := by
  cases act with
  | join => rfl
  | _ => simp at h

theorem act_ended (act : Act m x m' y e) (h : .ended ∈ e) : opens x = 1 ∧ m'.logged = m.logged := by
  cases act with
  | stuck | last | ended => exact ⟨rfl,rfl⟩
  | _ => simp at h

theorem act_commit (act : Act m x m' y e) (hx : SpotOk m x) {a : Mark} (ha : a ∈ e)
    {hd : List BlockNo} (h : commit a = some hd) : commits x = 1 ∧ hd = m.logged := by
  have hhead : ∀ {n hb}, n = m.n → hb = m.logged → commit (.head n hb) = some hd →
      hd = m.logged := by
    rintro n hb rfl rfl h
    simp only [commit] at h
    split at h
    · cases h
    · cases h
      exact List.take_of_length_le (by simp)
  cases act with
  | committed | erased =>
    rw [List.mem_singleton] at ha
    subst ha
    exact ⟨rfl,hhead hx.1 hx.2.1 h⟩
  | join | record | stuck | last | ended | clear =>
    rw [List.mem_singleton] at ha
    subst ha
    cases h
  | _ => cases ha

def Past : Point → Prop
  | .install _ | .clear => True
  | _ => False

theorem past_commits (h : Past x) : commits x = 1 := by
  cases x <;> first | rfl | exact h.elim

theorem act_silent (act : Act m x m' y []) :
    m'.logged = m.logged ∧ opens y = opens x ∧ (Past y → Past x) := by
  cases act <;> exact ⟨rfl,rfl,id⟩

theorem call_silent (h : (prog (ι := ι) x).next = some y) :
    opens y = opens x ∧ (Past y → Past x) := by
  cases x <;> cases h <;> first | exact ⟨rfl,id⟩ | skip
  rename_i doCommit
  cases doCommit <;> exact ⟨rfl,id⟩

theorem act_past (act : Act m x m' y e) (hx : SpotOk m x) (h : Past y) :
    Past x ∨ ∃ a, e = [a] ∧ commit a ≠ none := by
  cases act with
  | install | installed => exact .inl trivial
  | @committed n hb =>
    refine .inr ⟨_,rfl,?_⟩
    have hn : n ≠ 0 := by
      rw [hx.1]
      simpa using hx.2.2
    simp [commit, hn]
  | _ => exact h.elim

theorem act_pending {a : Mark} (act : Act m x m' y [a]) {bs : List BlockNo}
    (h : ∀ b, b ∈ m.logged ↔ b ∈ bs) (b : BlockNo) : b ∈ m'.logged ↔ b ∈ pend bs a := by
  cases act with
  | record => simp only [mem_record, h b, pend, List.mem_append, List.mem_singleton]
  | clear => simp only [Log.logged, pend, List.range_zero, List.map_nil]
  | _ => exact h b

theorem act_nodup (act : Act m x m' y e) (h : m.logged.Nodup) : m'.logged.Nodup := by
  cases act with
  | @record ws b => exact record_nodup m b h
  | clear => simp [Log.logged]
  | _ => exact h

end Acts

/-- The first commit behind the end of an operation has all its blocks, and
there is none while it runs. -/
def Together (tr : List (ι × Mark)) : Prop :=
  ∀ p q c hd t1 t2 t3 t4,
    tr = t1++(p,.began)::t2++(p,.ended)::t3++(q,c)::t4 → (p,.ended) ∉ t2 → NoCommit t3 →
    commit c = some hd → NoCommit t2 ∧ ∀ b, (p,.wrote b) ∈ t2 → b ∈ hd

structure History (tr : List (ι × Mark)) (m : Log) (x : ι → Point) : Prop where
  nodup : m.logged.Nodup
  logged : ∀ b, b ∈ m.logged ↔ b ∈ pending tr
  running : ∀ p t1 t2, tr = t1++(p,.began)::t2 → (p,.ended) ∉ t2 →
    opens (x p) = 1 ∧ NoCommit t2 ∧ ∀ b, (p,.wrote b) ∈ t2 → b ∈ m.logged
  ended : ∀ p t1 t2 t3, tr = t1++(p,.began)::t2++(p,.ended)::t3 → (p,.ended) ∉ t2 →
    NoCommit t3 → NoCommit t2 ∧ ∀ b, (p,.wrote b) ∈ t2 → b ∈ m.logged
  written : ∀ q, Past (x q) → ∃ u v c, tr = u++(q,c)::v ∧ commit c ≠ none ∧
    ∀ r, (r,.ended) ∉ v
  together : Together tr

section Step
variable {m m' : Log} {x : ι → Point} {y : Point} {e : List Mark}
  {p : ι} {tr : List (ι × Mark)} {a : Mark}

theorem history_quiet [DecidableEq ι] (h : History tr m x) (hl : m'.logged = m.logged)
    (ho : opens y = opens (x p)) (hw : Past y → Past (x p)) :
    History tr m' (update x p y) := by
  refine ⟨by rw [hl]; exact h.nodup,by rw [hl]; exact h.logged,?_,by rw [hl]; exact h.ended,?_,
    h.together⟩
  · intro q t1 t2 ht hq
    obtain ⟨h1,h2,h3⟩ := h.running q t1 t2 ht hq
    refine ⟨?_,h2,by rwa [hl]⟩
    by_cases hqp : q = p
    · subst hqp
      rw [update_self, ho, h1]
    · rw [update_of_ne hqp, h1]
  · intro q hq
    by_cases hqp : q = p
    · subst hqp
      rw [update_self] at hq
      exact h.written q (hw hq)
    · rw [update_of_ne hqp] at hq
      exact h.written q hq

theorem open_step [Fintype ι] (hs : Sound m x) (act : Act m (x p) m' y [a]) {q : ι} (hq : opens (x q) = 1) :
    commit a = none ∧ ∀ b ∈ m.logged, b ∈ m'.logged := by
  have hfree := (open_free hs hq).2
  have hp := free_commits hs hfree p
  refine ⟨?_,fun b hb => act_keeps act (fun hx => ?_) hb⟩
  · cases hc : commit a with
    | none => rfl
    | some hd =>
      have := (act_commit act (hs.spots p) (List.mem_singleton.mpr rfl) hc).1
      omega
  · rw [hx] at hp
    cases hp

theorem running_step [Fintype ι] [DecidableEq ι] (hs : Sound m x) (h : History tr m x)
    (act : Act m (x p) m' y [a]) (q : ι)
    (t1 t2 : List (ι × Mark)) (ht : tr++[(p,a)] = t1++(q,.began)::t2) (hq : (q,.ended) ∉ t2) :
    opens (update x p y q) = 1 ∧ NoCommit t2 ∧
      ∀ b, (q,.wrote b) ∈ t2 → b ∈ m'.logged := by
  rcases snoc_split ht with ⟨rfl,ha,-⟩ | ⟨w,rfl,hw⟩
  · cases ha
    refine ⟨?_,fun b hb => (by cases hb),fun b hb => (by cases hb)⟩
    rw [update_self]
    exact act_began act (List.mem_singleton.mpr rfl)
  · have hnot : (q,.ended) ∉ w := fun hin => hq (List.mem_append_left _ hin)
    obtain ⟨hopen,hno,hmem⟩ := h.running q t1 w hw hnot
    obtain ⟨hquiet,hkeep⟩ := open_step hs act hopen
    refine ⟨?_,no_commit_snoc hno hquiet,fun b hb => ?_⟩
    · by_cases hqp : q = p
      · subst hqp
        rw [update_self]
        refine (act_open act hopen).resolve_right (fun hin => hq ?_)
        rw [List.mem_singleton] at hin
        simp [hin]
      · rw [update_of_ne hqp, hopen]
    · rcases List.mem_append.mp hb with hb | hb
      · exact hkeep b (hmem b hb)
      · rw [List.mem_singleton] at hb
        cases hb
        exact act_wrote act (List.mem_singleton.mpr rfl)

theorem clear_follows (h : History tr m x) (hp : Past (x p)) {q : ι} {t1 t3 : List (ι × Mark)}
    (ht : tr = t1++(q,.ended)::t3) : ¬ NoCommit t3 := by
  intro hno
  obtain ⟨u,v,c,hu,hc,hv⟩ := h.written p hp
  rw [ht] at hu
  rcases List.append_eq_append_iff.mp hu with ⟨w,rfl,hw⟩ | ⟨w,rfl,hw⟩
  · cases w with
    | nil =>
      cases hw
      exact hc rfl
    | cons d w =>
      cases hw
      exact hc (hno _ (List.mem_append_right w (List.mem_cons_self ..)))
  · cases w with
    | nil =>
      cases hw
      exact hc rfl
    | cons d w =>
      cases hw
      exact hv q (List.mem_append_right w (List.mem_cons_self ..))

theorem ended_step (h : History tr m x) (act : Act m (x p) m' y [a]) (q : ι)
    (t1 t2 t3 : List (ι × Mark)) (ht : tr++[(p,a)] = t1++(q,.began)::t2++(q,.ended)::t3)
    (hq : (q,.ended) ∉ t2) (hno : NoCommit t3) :
    NoCommit t2 ∧ ∀ b, (q,.wrote b) ∈ t2 → b ∈ m'.logged := by
  rcases snoc_split ht with ⟨rfl,ha,hw⟩ | ⟨w,rfl,hw⟩
  · cases ha
    obtain ⟨-,hno,hmem⟩ := h.running p t1 t2 hw hq
    rw [(act_ended act (List.mem_singleton.mpr rfl)).2]
    exact ⟨hno,hmem⟩
  · have hnow : NoCommit w := fun b hb => hno b (List.mem_append_left _ hb)
    obtain ⟨hno2,hmem⟩ := h.ended q t1 t2 w hw hq hnow
    refine ⟨hno2,fun b hb => act_keeps act (fun hx => ?_) (hmem b hb)⟩
    exact clear_follows h (p := p) (by rw [hx]; trivial) hw hnow

variable [Fintype ι] [DecidableEq ι]

theorem written_step (hs : Sound m x) (h : History tr m x) (act : Act m (x p) m' y [a]) (q : ι)
    (hq : Past (update x p y q)) : ∃ u v c, tr++[(p,a)] = u++(q,c)::v ∧ commit c ≠ none ∧
      ∀ r, (r,.ended) ∉ v := by
  have hold : Past (x q) → ∃ u v c, tr++[(p,a)] = u++(q,c)::v ∧ commit c ≠ none ∧
      ∀ r, (r,.ended) ∉ v := by
    intro hpast
    obtain ⟨u,v,c,hu,hc,hv⟩ := h.written q hpast
    refine ⟨u,v++[(p,a)],c,by simp [hu],hc,fun r hr => ?_⟩
    rcases List.mem_append.mp hr with hr | hr
    · exact hv r hr
    · rw [List.mem_singleton] at hr
      cases hr
      have hopen := (act_ended act (List.mem_singleton.mpr rfl)).1
      have hbusy := free_commits hs (open_free hs hopen).2 q
      rw [past_commits hpast] at hbusy
      cases hbusy
  by_cases hqp : q = p
  · subst hqp
    rw [update_self] at hq
    rcases act_past act (hs.spots q) hq with hpast | ⟨c,hc,hcommit⟩
    · exact hold hpast
    · cases hc
      exact ⟨tr,[],a,rfl,hcommit,fun r hr => by cases hr⟩
  · rw [update_of_ne hqp] at hq
    exact hold hq

omit [DecidableEq ι] in
theorem together_step (hs : Sound m x) (h : History tr m x) (act : Act m (x p) m' y [a]) :
    Together (tr++[(p,a)]) := by
  intro q r c hd t1 t2 t3 t4 ht hq hno hc
  rcases snoc_split ht with ⟨rfl,ha,hw⟩ | ⟨w,rfl,hw⟩
  · cases ha
    rw [(act_commit act (hs.spots p) (List.mem_singleton.mpr rfl) hc).2]
    exact h.ended q t1 t2 t3 hw hq hno
  · exact h.together q r c hd t1 t2 t3 w hw hq hno hc

theorem history_step (hs : Sound m x) (h : History tr m x) (act : Act m (x p) m' y e) :
    History (tr++e.map (Prod.mk p)) m' (update x p y) := by
  rcases act_events act with rfl | ⟨a,rfl⟩
  · obtain ⟨hl,ho,hw⟩ := act_silent act
    simpa using history_quiet h hl ho hw
  · refine ⟨act_nodup act h.nodup,fun b => ?_,running_step hs h act,ended_step h act,
      written_step hs h act,together_step hs h act⟩
    simp only [List.map_singleton, pending_snoc]
    exact act_pending act h.logged b

theorem history_run {size : ℤ} {block : ℕ → BlockNo} {g : ι → Point → Log → Input → Prop}
    {t : Code ι Log Point} (h : Run (code (client (initlog size block))) (Allows g) tr t) :
    History tr t.shared t.spot := by
  refine code_invariant History ?_ ?_ ?_ h
  · refine ⟨List.nodup_nil,fun b => Iff.rfl,?_,?_,fun q hq => hq.elim,?_⟩
    · intro p t1 t2 ht
      simp at ht
    · intro p t1 t2 t3 ht
      simp at ht
    · intro p q c hd t1 t2 t3 t4 ht
      simp at ht
  · intro tr m x p y hh hy
    obtain ⟨ho,hw⟩ := call_silent hy
    exact history_quiet hh rfl ho hw
  · intro tr m x p d b f m' y e hr hh _ hp hf
    exact history_step (sound_run hr) hh (step_act hp hf)

end Step

def InCommit : Point → Prop
  | .commit | .writeLog _ | .head _ | .headCopy _ _ _ | .headWrite _ _ _ | .install _ | .clear => True
  | _ => False

theorem in_commit_commits {x : Point} (h : InCommit x) : commits x = 1 := by
  cases x <;> first | rfl | exact h.elim

abbrev Sys (ι : Type) := State ι Unit Unit Log Point
abbrev Trace (ι : Type) := List (Event ι Unit Mark)

/-- In every run nobody is inside an operation while one process commits, the
header has each block given to `log_write` since it was last emptied once, and
the first commit behind the end of an operation has all its blocks. -/
theorem operations_commit_together (ι : Type) [Fintype ι] [DecidableEq ι] (size : ℤ)
    (block : ℕ → BlockNo) (tr : Trace ι) (s : Sys ι)
    (h : Run (machine (client (initlog size block))) (fun _ _ => True) tr s) :
    (s.shared.committing = true → s.shared.outstanding = 0) ∧
    (∀ p x, s.place p = .code x → InCommit x →
      s.shared.committing = true ∧ s.shared.outstanding = 0) ∧
    (∀ p, s.place p ≠ .code (.panic .committing)) ∧
    (s.shared.logged.Nodup ∧
      ∀ b, b ∈ s.shared.logged ↔ b ∈ pending (tr.filterMap own)) ∧
    Together (tr.filterMap own) := by
  have hv := run_view (run_mono (H := Permits (fun _ _ _ _ => True))
    (fun s l _ => permits_all s l) h)
  have hs : Sound s.shared (view s).spot := sound_run hv
  have hh : History (tr.filterMap own) s.shared (view s).spot := history_run hv
  refine ⟨hs.alone,fun p x hp hx => ?_,fun p hp => ?_,⟨hh.nodup,hh.logged⟩,hh.together⟩
  · have hc := (commit_sole hs (p := p) (by rw [view_code hp]; exact in_commit_commits hx)).1
    exact ⟨hc,hs.alone hc⟩
  · have hp' := hs.spots p
    rw [view_code hp] at hp'
    exact hp'

local instance twoThreads : @NeZero ℕ Zero.ofOfNat0 2 := ⟨by decide⟩

def sharedCommit : List (Label (Fin 2) Input) :=
  [0, 1].flatMap enterOp ++ callWrite 0 5 ++ storeBlock 0 ++ callWrite 1 5 ++ storeBlock 1 ++
    callWrite 1 6 ++ storeBlock 1 ++
    .thread 0 .endOp :: List.replicate 7 (.thread 0 .go) ++
    .thread 1 .endOp :: List.replicate 12 (.thread 1 .go)

theorem operations_commit_shared : ∃ (tr : Trace (Fin 2)) (s : Sys (Fin 2)),
    Run (machine (client (initlog LOGSIZE (fun _ => 0)))) (fun _ _ => True) tr s ∧
    tr.filterMap own = [(0,.began), (1,.began), (0,.wrote 5), (1,.wrote 5), (1,.wrote 6),
      (0,.ended), (1,.ended), (1,.head 2 [5, 6])] ∧
    s.shared.committing = true ∧ s.shared.outstanding = 0 ∧ Together (tr.filterMap own) := by
  obtain ⟨o,s,hr,hp⟩ := exec_reaches (S := machine (client (initlog LOGSIZE (fun _ => 0))))
    (G := fun _ _ => True) sharedCommit
    (fun s o => o.filterMap own = [(0,.began), (1,.began), (0,.wrote 5), (1,.wrote 5),
      (1,.wrote 6), (0,.ended), (1,.ended), (1,.head 2 [5, 6])] ∧ s.shared.committing = true)
    (by decide +kernel)
  obtain ⟨h1,-,-,-,h5⟩ :=
    operations_commit_together (Fin 2) LOGSIZE (fun _ => 0) o s hr
  exact ⟨o,s,hr,hp.1,hp.2,h1 hp.2,h5⟩

end Xv6.LogCommit

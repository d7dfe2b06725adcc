import Xv6.LogOps

/-!
# What the log's counters say

The field `outstanding` counts the processes inside an operation, and
`committing` tells whether one is in `commit` or on its way there or back. The
two exclude each other, so the header does not change under `commit`.
-/

set_option autoImplicit false

namespace Xv6.LogInvariant
open TransitionSystem SleepMachine CodeMachine LogMachine LogOps
open Function

section Header
variable (m : Log) (b : BlockNo)

@[simp] theorem logged_length : m.logged.length = m.n := by simp [Log.logged]

theorem take_logged {i : ℕ} (h : i < m.n) : m.logged.take (i+1) = m.logged.take i++[m.block i] := by
  rw [List.take_add_one, List.getElem?_eq_getElem (by simpa using h)]
  simp [Log.logged]

theorem scan_le : m.scan b ≤ m.n := by
  have h := @List.findIdx_le_length _ (fun a => decide (a = b)) m.logged
  simpa [Log.scan] using h

theorem scan_eq : m.scan b = m.n ↔ b ∉ m.logged := by
  have h := @List.findIdx_eq_length _ (fun a => decide (a = b)) m.logged
  rw [logged_length] at h
  rw [Log.scan, h]
  simp only [decide_eq_false_iff_not]
  exact ⟨fun h hb => h b hb rfl,fun h a ha hab => h (hab ▸ ha)⟩

theorem logged_new (h : b ∉ m.logged) : (m.record b).logged = m.logged++[b] := by
  have hs := (scan_eq m b).mpr h
  rw [Log.logged, Log.record]
  simp only [hs, if_true, List.range_succ, List.map_append, List.map_singleton,
    update_self]
  congr 1
  apply List.map_congr_left
  intro i hi
  exact update_of_ne (by simp at hi; omega) _ _

theorem block_scan (h : m.scan b < m.n) : m.block (m.scan b) = b := by
  have hlt : m.scan b < m.logged.length := by simpa using h
  have hb : m.logged[m.scan b] = b := of_decide_eq_true (List.findIdx_getElem (w := hlt))
  have hblock : m.logged[m.scan b] = m.block (m.scan b) := by
    simp only [Log.logged, List.getElem_map, List.getElem_range]
  rw [← hblock, hb]

theorem logged_old (h : b ∈ m.logged) : (m.record b).logged = m.logged := by
  have hs : m.scan b < m.n :=
    lt_of_le_of_ne (scan_le m b) (fun hn => (scan_eq m b).mp hn h)
  rw [Log.logged, Log.record]
  simp only [if_neg hs.ne]
  apply List.map_congr_left
  intro i hi
  by_cases his : i = m.scan b
  · rw [his, update_self, block_scan m b hs]
  · exact update_of_ne his _ _

theorem mem_record (a : BlockNo) : a ∈ (m.record b).logged ↔ a ∈ m.logged ∨ a = b := by
  by_cases h : b ∈ m.logged
  · rw [logged_old m b h]
    exact ⟨.inl,fun ha => ha.elim id (fun hab => hab ▸ h)⟩
  · rw [logged_new m b h]
    simp

theorem record_nodup (h : m.logged.Nodup) : (m.record b).logged.Nodup := by
  by_cases hb : b ∈ m.logged
  · rwa [logged_old m b hb]
  · rw [logged_new m b hb]
    exact List.nodup_append.mpr ⟨h,List.nodup_singleton b,fun a ha c hc hac => by
      rw [List.mem_singleton] at hc
      exact hb (hc ▸ hac ▸ ha)⟩

end Header

def opens : Point → ℤ
  | .beginExit | .op _ | .write _ _ | .writeSize _ _ | .writeOpen _ _ | .writeLock _ _
  | .record _ _ | .writeExit _ | .endOp | .endCount | .panic .tooBig | .panic .outside => 1
  | _ => 0

def commits : Point → ℤ
  | .endExit true | .commit | .writeLog _ | .head _ | .headCopy _ _ _ | .headWrite _ _ _
  | .install _ | .clear | .done | .doneClear => 1
  | _ => 0

theorem opens_nonneg (x : Point) : 0 ≤ opens x := by
  unfold opens
  split <;> decide

theorem commits_nonneg (x : Point) : 0 ≤ commits x := by
  unfold commits
  split <;> decide

/-- What a point of `commit` knows of the header; the panics of `end_op` and of
a `log_write` outside an operation are no points of a run. -/
def SpotOk (m : Log) : Point → Prop
  | .writeLog _ | .install _ | .clear => m.n ≠ 0
  | .head erase => erase = true ↔ m.n = 0
  | .headCopy erase n hb => n = m.n ∧ hb = m.logged.take hb.length ∧ (erase = true ↔ m.n = 0)
  | .headWrite erase n hb => n = m.n ∧ hb = m.logged ∧ (erase = true ↔ m.n = 0)
  | .done | .doneClear => m.n = 0
  | .panic .outside | .panic .committing => False
  | _ => True

variable {ι : Type} {m m' : Log} {x y : Point} {e : List Mark}

theorem call_spot (h : (prog (ι := ι) x).next = some y) (hx : SpotOk m x) :
    opens y = opens x ∧ commits y = commits x ∧ SpotOk m y := by
  cases x <;> cases h <;> first | exact ⟨rfl,rfl,hx⟩ | skip
  rename_i doCommit
  cases doCommit <;> exact ⟨rfl,rfl,trivial⟩

theorem spot_frame (hx : commits x = 0 ∨ m'.n = m.n ∧ m'.logged = m.logged) (h : SpotOk m x) :
    SpotOk m' x := by
  rcases hx with hx | ⟨hn,hl⟩
  · cases x with
    | panic msg => cases msg <;> exact h
    | _ => first | exact h | cases hx
  · cases x with
    | writeLog | install | clear | head | headCopy | headWrite | done | doneClear =>
      simpa only [SpotOk, hn, hl] using h
    | panic msg => cases msg <;> exact h
    | _ => trivial


variable [Fintype ι]

structure Sound (m : Log) (x : ι → Point) : Prop where
  count : m.outstanding = tally opens x
  busy : tally commits x = if m.committing = true then 1 else 0
  alone : m.committing = true → m.outstanding = 0
  empty : m.committing = false → m.outstanding = 0 → m.n = 0
  spots : ∀ p, SpotOk m (x p)

section Rules
variable {x : ι → Point} {p : ι}

theorem outstanding_nonneg (h : Sound m x) : 0 ≤ m.outstanding := by
  rw [h.count]
  exact Finset.sum_nonneg fun q _ => opens_nonneg (x q)

theorem open_free (h : Sound m x) (hp : opens (x p) = 1) :
    1 ≤ m.outstanding ∧ m.committing = false := by
  have hge := tally_ge (x := x) opens_nonneg p
  rw [← h.count, hp] at hge
  refine ⟨hge,?_⟩
  cases hc : m.committing
  · rfl
  · have := h.alone hc
    omega

theorem free_commits (h : Sound m x) (hc : m.committing = false) (q : ι) : commits (x q) = 0 := by
  have hge := tally_ge (x := x) commits_nonneg q
  have hnn := commits_nonneg (x q)
  rw [h.busy, hc] at hge
  exact le_antisymm hge hnn

variable [DecidableEq ι]

theorem commit_sole (h : Sound m x) (hp : commits (x p) = 1) :
    m.committing = true ∧ ∀ q, q ≠ p → commits (x q) = 0 := by
  have hc : m.committing = true := by
    by_contra hne
    have := free_commits h (Bool.eq_false_iff.mpr hne) p
    omega
  refine ⟨hc,fun q hq => ?_⟩
  have hpair := tally_pair (x := x) commits_nonneg hq.symm
  have hnn := commits_nonneg (x q)
  rw [h.busy, hc, if_pos rfl] at hpair
  omega

theorem sound_move (h : Sound m x)
    (hcount : m'.outstanding = m.outstanding-opens (x p)+opens y)
    (hbusy : (if m'.committing = true then 1 else 0) =
      (if m.committing = true then 1 else 0)-commits (x p)+commits y)
    (halone : m'.committing = true → m'.outstanding = 0)
    (hempty : m'.committing = false → m'.outstanding = 0 → m'.n = 0)
    (hy : SpotOk m' y)
    (hspots : ∀ q, q ≠ p → commits (x q) = 0 ∨ m'.n = m.n ∧ m'.logged = m.logged) :
    Sound m' (update x p y) := by
  refine ⟨?_,?_,halone,hempty,fun q => ?_⟩
  · rw [tally_update, ← h.count, hcount]
  · rw [tally_update, h.busy, hbusy]
  · by_cases hq : q = p
    · subst hq
      rwa [update_self]
    · rw [update_of_ne hq]
      exact spot_frame (hspots q hq) (h.spots q)

theorem sound_quiet (h : Sound m x) (ho : opens y = opens (x p)) (hc : commits y = commits (x p))
    (hy : SpotOk m y) : Sound m (update x p y) :=
  sound_move h (by omega) (by omega) h.alone h.empty hy (fun _ _ => .inr ⟨rfl,rfl⟩)

theorem sound_act (h : Sound m x) (act : Act m (x p) m' y e) : Sound m' (update x p y) := by
  have hp := h.spots p
  generalize hx : x p = a at act hp
  cases act with
  | call | wait | write | leave | full | fits | toobig | sized | inside | writeLog | install =>
    exact sound_quiet h (by rw [hx]; rfl) (by rw [hx]; rfl) hp
  | join free room =>
    have hnn := outstanding_nonneg h
    refine sound_move h (by rw [hx]; simp [opens]) (by rw [hx]; simp [commits]) ?_ ?_ trivial
      (fun _ _ => .inr ⟨rfl,rfl⟩)
    · intro hc
      exact absurd hc (by simp [free])
    · intro _ ho
      simp only at ho
      omega
  | outside none =>
    have := (open_free h (p := p) (by rw [hx]; rfl)).1
    omega
  | @record ws b =>
    have ho := open_free h (p := p) (by rw [hx]; rfl)
    refine sound_move h (by rw [hx]; simp [opens, Log.record]) (by rw [hx]; simp [commits, Log.record, ho.2])
      h.alone ?_ trivial (fun q _ => .inl (free_commits h ho.2 q))
    intro _ hz
    have : m.outstanding = 0 := hz
    omega
  | stuck busy =>
    have ho := open_free h (p := p) (by rw [hx]; rfl)
    rw [ho.2] at busy
    cases busy
  | last free one =>
    refine sound_move h (by rw [hx]; simp [opens]) (by rw [hx]; simp [commits, free]) ?_ ?_ trivial
      (fun _ _ => .inr ⟨rfl,rfl⟩)
    · intro _
      simp [one]
    · intro hc
      cases hc
  | ended free more =>
    refine sound_move h (by rw [hx]; simp [opens]) (by rw [hx]; simp [commits]) ?_ ?_ trivial
      (fun _ _ => .inr ⟨rfl,rfl⟩)
    · intro hc
      exact absurd hc (by simp [free])
    · intro _ ho
      simp only at ho
      omega
  | commit some => exact sound_quiet h (by rw [hx]; rfl) (by rw [hx]; rfl) some
  | nothing none => exact sound_quiet h (by rw [hx]; rfl) (by rw [hx]; rfl) none
  | written => exact sound_quiet h (by rw [hx]; rfl) (by rw [hx]; rfl) (by simpa [SpotOk] using hp)
  | head =>
    exact sound_quiet h (by rw [hx]; rfl) (by rw [hx]; rfl) ⟨rfl,by simp,hp⟩
  | @copy erase n hb more =>
    refine sound_quiet h (by rw [hx]; rfl) (by rw [hx]; rfl) ⟨hp.1,?_,hp.2.2⟩
    rw [List.length_append, List.length_singleton, take_logged m more, ← hp.2.1]
  | @copied erase n hb all =>
    have hall : hb = m.logged := hp.2.1.trans (List.take_of_length_le (by simpa using all))
    exact sound_quiet h (by rw [hx]; rfl) (by rw [hx]; rfl) ⟨hp.1,hall,hp.2.2⟩
  | committed => exact sound_quiet h (by rw [hx]; rfl) (by rw [hx]; rfl) (by simpa [SpotOk] using hp.2.2)
  | erased => exact sound_quiet h (by rw [hx]; rfl) (by rw [hx]; rfl) (hp.2.2.mp rfl)
  | installed => exact sound_quiet h (by rw [hx]; rfl) (by rw [hx]; rfl) hp
  | clear =>
    have hc := commit_sole h (p := p) (by rw [hx]; rfl)
    refine sound_move h (by rw [hx]; simp [opens]) (by rw [hx]; simp [commits])
      h.alone (fun _ _ => rfl) (by simp [SpotOk]) (fun q hq => .inl (hc.2 q hq))
  | finish =>
    have hc := commit_sole h (p := p) (by rw [hx]; rfl)
    refine sound_move h (by rw [hx]; simp [opens]) (by rw [hx]; simp [commits, hc.1]) ?_
      (fun _ _ => hp) trivial (fun _ _ => .inr ⟨rfl,rfl⟩)
    intro hf
    cases hf

end Rules

theorem tally_zero {w : Point → ℤ} (hw : w .idle = 0) : tally w (fun _ : ι => Point.idle) = 0 := by
  simp [tally, hw]

theorem sound_run [DecidableEq ι] {size : ℤ} {block : ℕ → BlockNo} {g : ι → Point → Log → Input → Prop}
    {tr : List (ι × Mark)} {t : Code ι Log Point}
    (h : Run (code (client (initlog size block))) (Allows g) tr t) : Sound t.shared t.spot := by
  refine code_invariant (fun _ m x => Sound m x) ?_ ?_ ?_ h
  · exact ⟨(tally_zero rfl).symm,tally_zero rfl,fun _ => rfl,fun _ _ => rfl,fun _ => trivial⟩
  · intro _ m x p y hs hy
    obtain ⟨ho,hc,hspot⟩ := call_spot hy (hs.spots p)
    exact sound_quiet hs ho hc hspot
  · intro _ m x p d b f m' y e _ hs _ hp hf
    exact sound_act hs (step_act hp hf)

end Xv6.LogInvariant

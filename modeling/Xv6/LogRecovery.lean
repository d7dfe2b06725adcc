import Xv6.LogMachine

/-!
# Crash atomicity of the redo log

The abstract disk of a physical one is what recovery would make of it: the
home blocks with the logged blocks of a committed header installed. Every
write of a recovery keeps the abstract disk, and of the writes of a commit
exactly one moves it, from the old home blocks to the new ones. A crash
point is any prefix of the issued writes; recoveries may crash as well.
-/

set_option autoImplicit false

namespace Xv6.LogRecovery
open WriteTrace LogMachine
open Function

def logged (g : Geometry) (d : Disk) : Trans :=
  (headBlocks (d g.start)).mapIdx (fun i b => (b,d (g.logBlock i)))

def recovered (g : Geometry) (d : Disk) : Disk := replay (logged g d) d

structure LogOk (g : Geometry) (d : Disk) : Prop where
  home : ∀ b ∈ headBlocks (d g.start), g.Home b
  room : (headBlocks (d g.start)).length < g.size
  fits : (headBlocks (d g.start)).length ≤ LOGSIZE

def recoveryWrites (g : Geometry) (d : Disk) : Trans :=
  logged g d ++ [(g.start,putHead [] (d g.start))]

def SameHome (g : Geometry) (d d' : Disk) : Prop := ∀ b, g.Home b → d b = d' b

variable (g : Geometry)

theorem home_ne_start (hg : 0 < g.size) (b : BlockNo) (hb : g.Home b) : b ≠ g.start := by
  rintro rfl
  exact hb (start_in_log g hg)

theorem home_ne_log_block (i : ℕ) (hi : i < LOGSIZE) (hg : i+1 < g.size)
    (b : BlockNo) (hb : g.Home b) : b ≠ g.logBlock i := by
  rintro rfl
  exact hb (log_block_in_log g i hi hg)

theorem logged_home (d : Disk) (hd : LogOk g d) : ∀ w ∈ logged g d, g.Home w.1 := by
  intro w hw
  obtain ⟨i,hi,rfl⟩ := List.mem_mapIdx.mp hw
  exact hd.home _ (List.getElem_mem hi)

theorem logged_of_same_log (d d' : Disk) (hd : LogOk g d)
    (h : ∀ b, g.InLog b → d' b = d b) : logged g d' = logged g d := by
  have hs : d' g.start = d g.start := h _ (start_in_log g (by have := hd.room; omega))
  unfold logged
  rw [hs]
  apply List.ext_getElem (by simp)
  intro i h1 h2
  have hi : i < (headBlocks (d g.start)).length := by simpa using h1
  have hroom := hd.room
  have hfits := hd.fits
  simp only [List.getElem_mapIdx, Prod.mk.injEq, true_and]
  exact h _ (log_block_in_log g i (by omega) (by omega))

theorem log_ok_of_same_log (d d' : Disk) (hd : LogOk g d) (h : ∀ b, g.InLog b → d' b = d b) : LogOk g d' := by
  have hs : d' g.start = d g.start := h _ (start_in_log g (by have := hd.room; omega))
  exact ⟨by rw [hs]; exact hd.home, by rw [hs]; exact hd.room, by rw [hs]; exact hd.fits⟩

theorem empty_head (d : Disk) (h : headBlocks (d g.start) = []) : recovered g d = d := by
  simp [recovered, logged, h]

theorem log_ok_empty (d : Disk) (hg : 0 < g.size) (h : headBlocks (d g.start) = []) : LogOk g d :=
  ⟨by simp [h],by simpa [h] using hg,by simp [h]⟩

theorem cleared_head (b : Block) : headBlocks (putHead [] b) = [] :=
  head_blocks_put [] b (by simp)

theorem recover_formula (d : Disk) (hd : LogOk g d) :
    (recoverFromLog g (reboot d)).issued = recoveryWrites g d ∧
    (recoverFromLog g (reboot d)).disk = replay (recoveryWrites g d) d := by
  have hroom := hd.room
  have hfits := hd.fits
  have hsep : ∀ p ∈ (headBlocks (d g.start)).mapIdx (fun tail b => (b,g.logBlock tail)),
      ∀ q ∈ (headBlocks (d g.start)).mapIdx (fun tail b => (b,g.logBlock tail)), p.1 ≠ q.2 := by
    intro p hp q hq
    obtain ⟨i,hi,rfl⟩ := List.mem_mapIdx.mp hp
    obtain ⟨j,hj,rfl⟩ := List.mem_mapIdx.mp hq
    exact home_ne_log_block g j (by omega) (by omega) _ (hd.home _ (List.getElem_mem hi))
  have hw : ((headBlocks (d g.start)).mapIdx (fun tail b => (b,g.logBlock tail))).map
      (fun p => (p.1,d p.2)) = logged g d := by
    apply List.ext_getElem (by simp [logged])
    intro i h1 h2
    simp [logged]
  have hs : replay (logged g d) d g.start = d g.start := by
    apply replay_frame
    intro w hw'
    exact home_ne_start g (by omega) _ (logged_home g d hd w hw')
  simp only [recoverFromLog, installTrans, readHead, reboot]
  rw [copies_formula _ _ hsep, write_head_formula]
  simp [hw, hs, recoveryWrites, replay_append, replay_cons]

theorem recovery_cut (d : Disk) (hd : LogOk g d) (k : ℕ) : LogOk g (replay ((recoveryWrites g d).take k) d) ∧
    SameHome g (recovered g (replay ((recoveryWrites g d).take k) d)) (recovered g d) := by
  have hg : 0 < g.size := by have := hd.room; omega
  by_cases hk : k ≤ (logged g d).length
  · rw [recoveryWrites, List.take_append_of_le_length hk]
    have hlog : ∀ b, g.InLog b → replay ((logged g d).take k) d b = d b := by
      intro b hb
      apply replay_frame
      rintro w hw rfl
      exact logged_home g d hd w (List.mem_of_mem_take hw) hb
    refine ⟨log_ok_of_same_log g d _ hd hlog,fun b _ => ?_⟩
    rw [recovered, logged_of_same_log g d _ hd hlog, replay_absorbs_prefix]
    rfl
  · rw [List.take_of_length_le (by simp [recoveryWrites]; omega), recoveryWrites,
      replay_append, replay_cons, replay_nil]
    have he : headBlocks (update (replay (logged g d) d) g.start
        (putHead [] (d g.start)) g.start) = [] := by
      rw [update_self]
      exact cleared_head _
    refine ⟨log_ok_empty g _ hg he,fun b hb => ?_⟩
    rw [empty_head g _ he, update_of_ne (home_ne_start g hg b hb)]
    rfl

theorem crashed_recoveries_ok (ks : List ℕ) (d : Disk) (hd : LogOk g d) : LogOk g (crashedRecoveries g ks d) ∧
    SameHome g (recovered g (crashedRecoveries g ks d)) (recovered g d) := by
  induction ks generalizing d with
  | nil => exact ⟨hd,fun _ _ => rfl⟩
  | cons k ks ih =>
    have hc : crashAfter (recoverFromLog g) k (reboot d) =
        replay ((recoveryWrites g d).take k) d := by
      rw [← (recover_formula g d hd).1]
      rfl
    obtain ⟨hok,hsame⟩ := recovery_cut g d hd k
    rw [crashedRecoveries, hc]
    obtain ⟨hok',hsame'⟩ := ih _ hok
    exact ⟨hok',fun b hb => (hsame' b hb).trans (hsame b hb)⟩

theorem recover_complete (d : Disk) (hd : LogOk g d) :
    SameHome g (recoverFromLog g (reboot d)).disk (recovered g d) ∧
    headBlocks ((recoverFromLog g (reboot d)).disk g.start) = [] := by
  rw [(recover_formula g d hd).2, recoveryWrites, replay_append, replay_cons, replay_nil]
  constructor
  · intro b hb
    rw [update_of_ne (home_ne_start g (by have := hd.room; omega) b hb)]
    rfl
  · rw [update_self]
    exact cleared_head _

structure Idle (g : Geometry) (m : Machine) : Prop where
  synced : m.cache = m.disk
  empty : m.lh = []
  head : headBlocks (m.disk g.start) = []

structure Valid (g : Geometry) (t : Trans) : Prop where
  distinct : (t.map Prod.fst).Nodup
  home : ∀ w ∈ t, g.Home w.1
  room : t.length+1 ≤ g.size

structure Staged (g : Geometry) (t : Trans) (m : Machine) : Prop where
  cache : m.cache = replay t m.disk
  lh : m.lh = t.map Prod.fst
  fits : t.length ≤ LOGSIZE
  head : headBlocks (m.disk g.start) = []

theorem log_all_formula (t : Trans) (m m' : Machine)
    (hn : (m.lh ++ t.map Prod.fst).Nodup) (hl : m.lh.length ≤ LOGSIZE)
    (h : logAll g t m = some m') :
    m' = { m with cache := replay t m.cache, lh := m.lh ++ t.map Prod.fst } ∧
    m.lh.length+t.length ≤ LOGSIZE := by
  induction t generalizing m with
  | nil =>
    simp only [logAll, Option.some.injEq] at h
    subst h
    simpa using hl
  | cons w t ih =>
    simp only [logAll, logWrite, Option.bind_eq_some_iff] at h
    obtain ⟨m1,h1,h2⟩ := h
    split at h1
    · cases h1
    · rename_i hroom
      have hw : w.1 ∉ m.lh := by
        intro hm
        exact (List.nodup_append.mp hn).2.2 _ hm w.1 (by simp) rfl
      simp only [store, if_neg hw, Option.some.injEq] at h1
      subst h1
      obtain ⟨rfl,hlen⟩ := ih _ (by simpa using hn) (by simp; omega) h2
      refine ⟨by simp [replay_cons],?_⟩
      simp only [List.length_append, List.length_cons, List.length_nil] at hlen ⊢
      omega

theorem log_all_accepts (t : Trans) (m : Machine)
    (hl : m.lh.length+t.length ≤ LOGSIZE) (hg : m.lh.length+t.length+1 ≤ g.size) :
    ∃ m', logAll g t m = some m' := by
  induction t generalizing m with
  | nil => exact ⟨m,rfl⟩
  | cons w t ih =>
    simp only [List.length_cons] at hl hg
    simp only [logAll, logWrite]
    rw [if_neg (by omega), Option.bind_some]
    have hlen : (if w.1 ∈ m.lh then m.lh else m.lh ++ [w.1]).length ≤ m.lh.length+1 := by
      split <;> simp
    apply ih
    · simp only
      omega
    · simp only
      omega

theorem idle_staged (t : Trans) (m m' : Machine) (hi : Idle g m)
    (hv : Valid g t) (h : logAll g t m = some m') :
    Staged g t m' ∧ m'.disk = m.disk := by
  obtain ⟨rfl,hlen⟩ := log_all_formula g t m m' (by simpa [hi.empty] using hv.distinct)
    (by simp [hi.empty]) h
  simp only [hi.empty, List.length_nil, Nat.zero_add] at hlen
  exact ⟨⟨by simp [hi.synced],by simp [hi.empty],hlen,hi.head⟩,rfl⟩

def logWrites (g : Geometry) (t : Trans) : Trans :=
  t.mapIdx (fun i w => (g.logBlock i,w.2))

def committed (g : Geometry) (t : Trans) (d : Disk) : Disk :=
  update (replay (logWrites g t) d) g.start
    (putHead (t.map Prod.fst) (d g.start))

variable (t : Trans)

theorem log_writes_in_log (hv : Valid g t)
    (hf : t.length ≤ LOGSIZE) : ∀ w ∈ logWrites g t, g.InLog w.1 ∧ w.1 ≠ g.start := by
  intro w hw
  have hroom := hv.room
  obtain ⟨i,hi,rfl⟩ := List.mem_mapIdx.mp hw
  exact ⟨log_block_in_log g i (by omega) (by omega),log_block_ne_start g i (by omega)⟩

theorem log_writes_distinct (hf : t.length ≤ LOGSIZE) : ((logWrites g t).map Prod.fst).Nodup := by
  rw [List.nodup_iff_pairwise_ne, List.pairwise_iff_getElem]
  intro i j hi hj hij h
  simp only [logWrites, List.length_map, List.length_mapIdx] at hi hj
  simp only [logWrites, List.getElem_map, List.getElem_mapIdx] at h
  exact absurd (log_block_injective g i j (by omega) (by omega) h) (by omega)

theorem committed_home (d : Disk) (hv : Valid g t)
    (hf : t.length ≤ LOGSIZE) : SameHome g (committed g t d) d := by
  intro b hb
  have hroom := hv.room
  rw [committed, update_of_ne (home_ne_start g (by omega) b hb)]
  apply replay_frame
  rintro w hw rfl
  exact hb (log_writes_in_log g t hv hf w hw).1

theorem committed_head (d : Disk) (hf : t.length ≤ LOGSIZE) :
    headBlocks (committed g t d g.start) = t.map Prod.fst := by
  rw [committed, update_self]
  exact head_blocks_put _ _ (by simpa using hf)

theorem committed_log_block (d : Disk) (hf : t.length ≤ LOGSIZE)
    (i : ℕ) (hi : i < t.length) : committed g t d (g.logBlock i) = (t.get ⟨i,hi⟩).2 := by
  rw [committed, update_of_ne (log_block_ne_start g i (by omega))]
  have hm : (g.logBlock i,(t.get ⟨i,hi⟩).2) ∈ logWrites g t :=
    List.mem_mapIdx.mpr ⟨i,hi,rfl⟩
  exact replay_mem _ (log_writes_distinct g t hf) d _ hm

theorem committed_logged (d : Disk) (hf : t.length ≤ LOGSIZE) : logged g (committed g t d) = t := by
  rw [logged, committed_head g t d hf]
  apply List.ext_getElem (by simp)
  intro i h1 h2
  simp only [List.getElem_mapIdx, List.getElem_map]
  rw [committed_log_block g t d hf i h2]
  rfl

theorem committed_ok (d : Disk) (hv : Valid g t) (hf : t.length ≤ LOGSIZE) : LogOk g (committed g t d) := by
  have hh := committed_head g t d hf
  have hroom := hv.room
  refine ⟨?_,by rw [hh, List.length_map]; omega,by rw [hh]; simpa using hf⟩
  rw [hh]
  intro b hb
  obtain ⟨w,hw,rfl⟩ := List.mem_map.mp hb
  exact hv.home w hw

theorem committed_recovered (d : Disk) (hv : Valid g t)
    (hf : t.length ≤ LOGSIZE) : SameHome g (recovered g (committed g t d)) (replay t d) := by
  intro b hb
  rw [recovered, committed_logged g t d hf]
  exact replay_agree _ _ _ _ (fun _ => committed_home g t d hv hf b hb)

def commitWrites (g : Geometry) (t : Trans) (d : Disk) : Trans :=
  logWrites g t ++ [(g.start,putHead (t.map Prod.fst) (d g.start))]

theorem commit_writes_replay (d : Disk) : replay (commitWrites g t d) d = committed g t d := by
  simp [commitWrites, committed, replay_append, replay_cons]

theorem commit_writes_in_log (d : Disk) (hv : Valid g t)
    (hf : t.length ≤ LOGSIZE) : ∀ w ∈ commitWrites g t d, g.InLog w.1 := by
  intro w hw
  have hroom := hv.room
  rcases List.mem_append.mp hw with h | h
  · exact (log_writes_in_log g t hv hf w h).1
  · rw [List.mem_singleton.mp h]
    exact start_in_log g (by omega)

theorem staged_start (m : Machine) (hv : Valid g t)
    (hs : Staged g t m) : m.cache g.start = m.disk g.start := by
  have hroom := hv.room
  rw [hs.cache]
  apply replay_frame
  intro w hw
  exact home_ne_start g (by omega) _ (hv.home w hw)

theorem write_log_staged (m : Machine) (hv : Valid g t) (hs : Staged g t m) :
    writeLog g m = { m with
      disk := replay (logWrites g t) m.disk, cache := replay (logWrites g t) m.cache,
      issued := m.issued ++ logWrites g t } := by
  have hroom := hv.room
  have hfits := hs.fits
  have hsep : ∀ p ∈ (t.map Prod.fst).mapIdx (fun tail b => (g.logBlock tail,b)),
      ∀ q ∈ (t.map Prod.fst).mapIdx (fun tail b => (g.logBlock tail,b)), p.1 ≠ q.2 := by
    intro p hp q hq
    obtain ⟨i,hi,rfl⟩ := List.mem_mapIdx.mp hp
    obtain ⟨j,hj,rfl⟩ := List.mem_mapIdx.mp hq
    simp only [List.length_map] at hi hj
    simp only [List.getElem_map]
    exact (home_ne_log_block g i (by omega) (by omega) _ (hv.home _ (List.getElem_mem hj))).symm
  have hw : ((t.map Prod.fst).mapIdx (fun tail b => (g.logBlock tail,b))).map
      (fun p => (p.1,m.cache p.2)) = logWrites g t := by
    apply List.ext_getElem (by simp [logWrites])
    intro i h1 h2
    have hi : i < t.length := by simpa using h1
    have hm : t[i] ∈ t := List.getElem_mem hi
    simp only [List.getElem_map, List.getElem_mapIdx, logWrites, hs.cache,
      replay_mem t hv.distinct m.disk _ hm]
  rw [writeLog, hs.lh, copies_formula _ _ hsep, hw, hs.lh]

theorem commit_head_staged (m : Machine) (hv : Valid g t) (hs : Staged g t m) :
    writeHead g (writeLog g m) = { m with
      disk := committed g t m.disk, cache := replay t (committed g t m.disk),
      issued := m.issued ++ commitWrites g t m.disk } := by
  have hstart : replay (logWrites g t) m.cache g.start = m.disk g.start := by
    rw [replay_frame _ _ _ (fun w hw => (log_writes_in_log g t hv hs.fits w hw).2)]
    exact staged_start g t m hv hs
  have hcomm : replay t (committed g t m.disk) =
      replay (commitWrites g t m.disk) (replay t m.disk) := by
    rw [← commit_writes_replay]
    apply replay_comm
    rintro w hw v hv' h
    exact hv.home w hw (h ▸ commit_writes_in_log g t m.disk hv hs.fits v hv')
  rw [write_log_staged g t m hv hs, write_head_formula, hcomm, ← hs.cache,
    ← commit_writes_replay]
  simp [hstart, hs.lh, commitWrites, replay_append, replay_cons]

theorem install_staged (m : Machine) (hv : Valid g t) (hs : Staged g t m) :
    installTrans g (writeHead g (writeLog g m)) = { m with
      disk := replay t (committed g t m.disk), cache := replay t (committed g t m.disk),
      issued := m.issued ++ commitWrites g t m.disk ++ t } := by
  have hroom := hv.room
  have hfits := hs.fits
  have hne : ∀ i, i < t.length → ∀ w ∈ t, w.1 ≠ g.logBlock i := fun i hi w hw =>
    home_ne_log_block g i (by omega) (by omega) _ (hv.home w hw)
  have hsep : ∀ p ∈ (t.map Prod.fst).mapIdx (fun tail b => (b,g.logBlock tail)),
      ∀ q ∈ (t.map Prod.fst).mapIdx (fun tail b => (b,g.logBlock tail)), p.1 ≠ q.2 := by
    intro p hp q hq
    obtain ⟨i,hi,rfl⟩ := List.mem_mapIdx.mp hp
    obtain ⟨j,hj,rfl⟩ := List.mem_mapIdx.mp hq
    simp only [List.length_map] at hi hj
    simp only [List.getElem_map]
    exact hne j hj _ (List.getElem_mem hi)
  have hw : ((t.map Prod.fst).mapIdx (fun tail b => (b,g.logBlock tail))).map
      (fun p => (p.1,replay t (committed g t m.disk) p.2)) = t := by
    apply List.ext_getElem (by simp)
    intro i h1 h2
    simp only [List.getElem_map, List.getElem_mapIdx, replay_frame t _ _ (hne i h2),
      committed_log_block g t m.disk hfits i h2]
    rfl
  rw [commit_head_staged g t m hv hs, installTrans]
  simp only [hs.lh]
  rw [copies_formula _ _ hsep, hw, replay_idem]

/-- The writes of a commit: the log blocks, the header that commits, and then
exactly what a recovery started at that instant would write. -/
theorem commit_formula (m : Machine) (hv : Valid g t) (hs : Staged g t m) (ht : t ≠ []) :
    commit g m = { m with
      disk := replay (recoveryWrites g (committed g t m.disk)) (committed g t m.disk),
      cache := replay (recoveryWrites g (committed g t m.disk)) (committed g t m.disk),
      lh := [],
      issued := m.issued ++ (commitWrites g t m.disk ++
        recoveryWrites g (committed g t m.disk)) } := by
  have hroom := hv.room
  have hlen : 0 < t.length := List.length_pos_of_ne_nil ht
  have hstart : replay t (committed g t m.disk) g.start = committed g t m.disk g.start := by
    apply replay_frame
    intro w hw
    exact home_ne_start g (by omega) _ (hv.home w hw)
  rw [commit, if_pos (by simpa [hs.lh] using hlen), install_staged g t m hv hs,
    write_head_formula]
  simp [hstart, recoveryWrites, committed_logged g t m.disk hs.fits, replay_append, replay_cons]

theorem commit_idle (m : Machine) (hv : Valid g t) (hs : Staged g t m) :
    Idle g (commit g m) ∧ SameHome g (commit g m).disk (replay t m.disk) := by
  by_cases ht : t = []
  · subst ht
    have hc : commit g m = m := by simp [commit, hs.lh]
    rw [hc]
    exact ⟨⟨hs.cache,hs.lh,hs.head⟩,fun _ _ => rfl⟩
  · have hok := committed_ok g t m.disk hv hs.fits
    obtain ⟨hhome,hhead⟩ := recover_complete g _ hok
    rw [(recover_formula g _ hok).2] at hhome hhead
    rw [commit_formula g t m hv hs ht]
    exact ⟨⟨rfl,rfl,hhead⟩,fun b hb =>
      (hhome b hb).trans (committed_recovered g t m.disk hv hs.fits b hb)⟩

theorem commit_cut (m : Machine) (hv : Valid g t) (hs : Staged g t m) (k : ℕ) :
    LogOk g (crashAfter (commit g) k m) ∧
    (SameHome g (recovered g (crashAfter (commit g) k m)) m.disk ∨
     SameHome g (recovered g (crashAfter (commit g) k m)) (replay t m.disk)) := by
  have hroom := hv.room
  by_cases ht : t = []
  · subst ht
    have hc : crashAfter (commit g) k m = m.disk := by simp [crashAfter, commit, hs.lh]
    rw [hc, empty_head g _ hs.head]
    exact ⟨log_ok_empty g _ (by omega) hs.head,.inl (fun _ _ => rfl)⟩
  · have hs' : Staged g t { m with issued := [] } := ⟨hs.cache,hs.lh,hs.fits,hs.head⟩
    rw [crashAfter, commit_formula g t _ hv hs' ht, List.nil_append]
    by_cases hk : k ≤ (logWrites g t).length
    · rw [commitWrites, List.append_assoc, List.take_append_of_le_length hk]
      have hh : headBlocks (replay ((logWrites g t).take k) m.disk g.start) = [] := by
        rw [replay_frame]
        · exact hs.head
        · exact fun w hw => (log_writes_in_log g t hv hs.fits w (List.mem_of_mem_take hw)).2
      rw [empty_head g _ hh]
      refine ⟨log_ok_empty g _ (by omega) hh,.inl (fun b hb => ?_)⟩
      apply replay_frame
      rintro w hw rfl
      exact hb (log_writes_in_log g t hv hs.fits w (List.mem_of_mem_take hw)).1
    · have hlen : (commitWrites g t m.disk).length ≤ k := by
        simp only [commitWrites, List.length_append, List.length_cons, List.length_nil]
        omega
      rw [List.take_append, List.take_of_length_le hlen, replay_append, commit_writes_replay]
      obtain ⟨hok,hsame⟩ := recovery_cut g _ (committed_ok g t m.disk hv hs.fits)
        (k-(commitWrites g t m.disk).length)
      exact ⟨hok,.inr (fun b hb =>
        (hsame b hb).trans (committed_recovered g t m.disk hv hs.fits b hb))⟩

theorem transact_all_idle (ts : List Trans) (m m' : Machine) (hi : Idle g m)
    (hv : ∀ t ∈ ts, Valid g t) (h : transactAll g ts m = some m') :
    Idle g m' ∧ SameHome g m'.disk (replay ts.flatten m.disk) := by
  induction ts generalizing m with
  | nil =>
    simp only [transactAll, Option.some.injEq] at h
    subst h
    exact ⟨hi,fun _ _ => rfl⟩
  | cons t ts ih =>
    simp only [transactAll, Option.bind_eq_some_iff] at h
    obtain ⟨m1,h1,h2⟩ := h
    have hvt := hv t (by simp)
    obtain ⟨hs,hd⟩ := idle_staged g t m m1 hi hvt h1
    obtain ⟨hi',hhome⟩ := commit_idle g t m1 hvt hs
    obtain ⟨hi'',hhome'⟩ := ih _ hi' (fun u hu => hv u (by simp [hu])) h2
    refine ⟨hi'',fun b hb => ?_⟩
    rw [hhome' b hb, List.flatten_cons, replay_append, ← hd]
    exact replay_agree _ _ _ _ (fun _ => hhome b hb)

theorem transact_all_accepts (ts : List Trans) (m : Machine) (hi : Idle g m)
    (hv : ∀ t ∈ ts, Valid g t) (hf : ∀ t ∈ ts, t.length ≤ LOGSIZE) :
    ∃ m', transactAll g ts m = some m' := by
  induction ts generalizing m with
  | nil => exact ⟨m,rfl⟩
  | cons t ts ih =>
    have hvt := hv t (by simp)
    obtain ⟨m1,h1⟩ := log_all_accepts g t m
      (by simpa [hi.empty] using hf t (by simp)) (by simpa [hi.empty] using hvt.room)
    obtain ⟨hs,-⟩ := idle_staged g t m m1 hi hvt h1
    obtain ⟨m2,h2⟩ := ih _ (commit_idle g t m1 hvt hs).1
      (fun u hu => hv u (by simp [hu])) (fun u hu => hf u (by simp [hu]))
    exact ⟨m2,by simp [transactAll, h1, h2]⟩

theorem reboot_idle (d : Disk) (hd : headWord (d g.start) 0 = 0) : Idle g (reboot d) :=
  ⟨rfl,rfl,by simp [reboot, headBlocks, hd]⟩

/-- Crash atomicity. The transactions of `done` have returned from `commit`
and `t` is being committed when power fails after `k` of its block writes.
Each number in `ks` cuts one more recovery short. The recovery that
completes leaves the home blocks of the first `j` transactions, `done` among
them. Transactions that fit the in-memory header are never refused. -/
theorem crash_atomic_log (g : Geometry) (d : Disk) (hd : headWord (d g.start) 0 = 0)
    (done : List Trans) (t : Trans) (hv : ∀ u ∈ done ++ [t], Valid g u) :
    ((∀ u ∈ done ++ [t], u.length ≤ LOGSIZE) →
      ∃ m m', transactAll g done (reboot d) = some m ∧ logAll g t m = some m') ∧
    ∀ m m', transactAll g done (reboot d) = some m → logAll g t m = some m' →
      ∀ (k : ℕ) (ks : List ℕ), ∃ j, done.length ≤ j ∧ j ≤ done.length+1 ∧
        ∀ b, g.Home b →
          (recoverFromLog g (reboot (crashedRecoveries g ks
            (crashAfter (commit g) k m')))).disk b =
          replay ((done ++ [t]).take j).flatten d b := by
  have hi := reboot_idle g d hd
  have hvt := hv t (by simp)
  have hvd : ∀ u ∈ done, Valid g u := fun u hu => hv u (by simp [hu])
  constructor
  · intro hf
    obtain ⟨m,hm⟩ := transact_all_accepts g done _ hi hvd (fun u hu => hf u (by simp [hu]))
    obtain ⟨hi',-⟩ := transact_all_idle g done _ m hi hvd hm
    obtain ⟨m',hm'⟩ := log_all_accepts g t m
      (by simpa [hi'.empty] using hf t (by simp)) (by simpa [hi'.empty] using hvt.room)
    exact ⟨m,m',hm,hm'⟩
  · intro m m' hm hm' k ks
    obtain ⟨hi',hdone⟩ := transact_all_idle g done _ m hi hvd hm
    obtain ⟨hs,hdisk⟩ := idle_staged g t m m' hi' hvt hm'
    obtain ⟨hok,hcut⟩ := commit_cut g t m' hvt hs k
    obtain ⟨hok',hsame⟩ := crashed_recoveries_ok g ks _ hok
    obtain ⟨hrec,-⟩ := recover_complete g _ hok'
    rcases hcut with hold | hnew
    · refine ⟨done.length,Nat.le_refl _,Nat.le_succ _,fun b hb => ?_⟩
      rw [hrec b hb, hsame b hb, hold b hb, hdisk, hdone b hb, List.take_left]
      rfl
    · refine ⟨done.length+1,Nat.le_succ _,Nat.le_refl _,fun b hb => ?_⟩
      rw [hrec b hb, hsame b hb, hnew b hb, hdisk,
        List.take_of_length_le (by simp), List.flatten_append, replay_append]
      simp only [List.flatten_cons, List.flatten_nil, List.append_nil]
      exact replay_agree _ _ _ _ (fun _ => hdone b hb)

/-- One transaction done and one in progress on an image of mkfs, whose log is
the 30 blocks from block 2 on. -/
theorem crash_atomic_log_mkfs :
    ∃ m m', transactAll ⟨2,30⟩ [[(58,fun _ => 1),(59,fun _ => 2)]] (reboot fun _ _ => 0) = some m ∧
      logAll ⟨2,30⟩ [(59,fun _ => 3)] m = some m' ∧
      ∀ (k : ℕ) (ks : List ℕ), ∃ j, 1 ≤ j ∧ j ≤ 2 ∧ ∀ b, (⟨2,30⟩ : Geometry).Home b →
        (recoverFromLog ⟨2,30⟩ (reboot (crashedRecoveries ⟨2,30⟩ ks
          (crashAfter (commit ⟨2,30⟩) k m')))).disk b =
        replay ([[(58,fun _ => 1),(59,fun _ => 2)],[(59,fun _ => 3)]].take j).flatten
          (fun _ _ => 0) b := by
  have hv : ∀ u ∈ [[(58,fun _ => 1),(59,fun _ => 2)]] ++ [[(59,fun _ => 3)]],
      Valid ⟨2,30⟩ u := by
    intro u hu
    simp only [List.cons_append, List.nil_append, List.mem_cons, List.not_mem_nil,
      or_false] at hu
    rcases hu with rfl | rfl <;>
      exact ⟨by decide,by simp [Geometry.Home, Geometry.InLog],by decide⟩
  obtain ⟨haccept,hatomic⟩ := crash_atomic_log ⟨2,30⟩ (fun _ _ => 0) (by decide) _ _ hv
  obtain ⟨m,m',hm,hm'⟩ := haccept (by simp [LOGSIZE, MAXOPBLOCKS])
  exact ⟨m,m',hm,hm',hatomic m m' hm hm'⟩

end Xv6.LogRecovery

import Xv6.FileWrites
import Xv6.MarkedRuns
import Mathlib.Order.Interval.Finset.Nat

/-!
# Blocks of a transaction

Every call of `filewrite` is a sequence of transactions, one for each pass of its loop. A
pass gives the blocks it changes to `log_write`: blocks of the file, the indirect block,
the bitmap blocks of new blocks and the block of the inode. There is one bitmap block for
each slot that was empty, and only the last blocks of a chunk can be new.
-/

set_option autoImplicit false

namespace Xv6.WriteLogs
open CommandTree MarkedRuns ByteFields BlockCode BlockStore BlockFiles FileWrites
open InodeCode (BSIZE MAXFILE WORD T_DEV Byte)
open FileCalls (CHUNK)

abbrev MAXOPBLOCKS : ℕ := 10

def logged : Cmd → Store → List ℕ
  | .iupdate i, s => [IBLOCK i s.sb]
  | .takeBit b, s =>
    match firstClear (s.blocks (BBLOCK b s.sb)) b s.sb.size with
    | some _ => [BBLOCK b s.sb]
    | none => []
  | .zero b, _ => [b]
  | .patch b _ _, _ => [b]
  | _, _ => []

/-- The outcome of a function of fs.c, with the blocks it gives to `log_write`. -/
abbrev Logs {α : Type} (p : Prog α) (Q : α → Store → List ℕ → Prop) (E : Panic → List ℕ → Prop) (s : Store) :
    Prop :=
  Leaves BlockCode.exec logged p Q E s

variable {s t u : Store} {i k b n off lim : ℕ} {src : List Byte} {E : Panic → List ℕ → Prop} {D D' : Finset ℕ}
  {log log' : List ℕ}

theorem balloc_from_logs {size q : ℕ} : Logs (ballocFrom size n q) (fun b _ log => ∃ x, log = [x,b])
    (fun _ log => log = []) s := by
  induction n generalizing q with
  | zero => rfl
  | succ n ih =>
    rw [ballocFrom]
    split
    · cases hfirst : firstClear (s.blocks (BBLOCK q s.sb)) q s.sb.size with
      | some bi =>
        have hmark : logged (.takeBit q) s = [BBLOCK q s.sb] := by rw [logged, hfirst]
        have hstep : BlockCode.exec (.takeBit q) s =
            .ok (some bi,s.setBlock (BBLOCK q s.sb) (setBit (s.blocks (BBLOCK q s.sb)) bi)) := by
          rw [BlockCode.exec, hfirst]
        refine (leaves_step hstep).mpr ?_
        rw [hmark]
        exact ⟨_,rfl⟩
      | none =>
        have hmark : logged (.takeBit q) s = [] := by rw [logged, hfirst]
        have hstep : BlockCode.exec (.takeBit q) s = .ok (none,s) := by rw [BlockCode.exec, hfirst]
        refine (leaves_step hstep).mpr ?_
        rw [hmark]
        exact ih
    · rfl

theorem balloc_logs (h : Sound s) : Logs balloc (fun b t log => Fresh s t b ∧ ∃ x, log = [x,b])
    (fun _ log => log = []) s := by
  have hlog : Logs balloc (fun b _ log => ∃ x, log = [x,b]) (fun _ log => log = []) s :=
    (leaves_step (c := Cmd.sb) rfl).mpr balloc_from_logs
  exact leaves_mono (leaves_and (leaves_of_wp (balloc_spec h)) hlog) (fun _ _ _ hb => ⟨hb.1.1,hb.2⟩)
    (fun _ _ he => he.2)

/-- What is logged on the way from `s` to `t`, besides the blocks in `D`: a block for each
slot that is no longer empty, and the indirect block. -/
structure Logged (i lim : ℕ) (D : Finset ℕ) (s t : Store) (log : List ℕ) : Prop where
  indirect : ptr s i NDIRECT ≠ 0 → ptr t i NDIRECT = ptr s i NDIRECT
  cover : ∃ M : Finset ℕ, M.card+(emptySlots t i lim).card ≤ (emptySlots s i lim).card ∧
    ∀ b ∈ log, b ∈ D ∨ b ∈ M ∨ b = ptr t i NDIRECT ∧ b ≠ 0

theorem logged_nil : Logged i lim D s s [] :=
  ⟨fun _ => rfl,∅,by rw [Finset.card_empty, Nat.zero_add],nofun⟩

theorem logged_append (h : Logged i lim D s t log) (h' : Logged i lim D' t u log') :
    Logged i lim (D ∪ D') s u (log++log') := by
  obtain ⟨M,hM,hin⟩ := h.cover
  obtain ⟨M',hM',hin'⟩ := h'.cover
  refine ⟨fun hne => ?_,M ∪ M',?_,fun b hb => ?_⟩
  · have := h.indirect hne
    rw [h'.indirect (this ▸ hne), this]
  · have := Finset.card_union_le M M'
    omega
  · simp only [Finset.mem_union]
    rcases List.mem_append.mp hb with hb | hb
    · rcases hin b hb with hD | hM | ⟨rfl,hne⟩
      · exact .inl (.inl hD)
      · exact .inr (.inl (.inl hM))
      · exact .inr (.inr ⟨(h'.indirect hne).symm,hne⟩)
    · rcases hin' b hb with hD | hM | hI
      · exact .inl (.inr hD)
      · exact .inr (.inl (.inr hM))
      · exact .inr (.inr hI)

theorem logged_gains {x : ℕ} (h : Sound s) (hi : Live s i) (hg : Gains s u i k b) (hk : k < lim)
    (hlim : lim ≤ SLOTS) (hlog : ∀ y ∈ log, y ∈ D ∨ y = x ∨ y = ptr u i NDIRECT ∧ y ≠ 0) :
    Logged i lim D s u log := by
  have hslot : k ∈ emptySlots s i lim := Finset.mem_filter.mpr ⟨Finset.mem_range.mpr hk,hg.empty⟩
  have hpos := Finset.card_pos.mpr ⟨k,hslot⟩
  refine ⟨fun hne => ?_,{x},?_,fun y hy => by simpa using hlog y hy⟩
  · rw [hg.ptr i NDIRECT hi (by decide), if_neg]
    rintro ⟨-,rfl⟩
    exact hne hg.empty
  · rw [gains_slots h hi hg hlim, Finset.card_erase_of_mem hslot, Finset.card_singleton]
    omega

theorem logged_same (hi : Live s i) (hlim : lim ≤ SLOTS) (hu : Same s u) (hlog : ∀ b ∈ log, b ∈ D) :
    Logged i lim D s u log :=
  ⟨fun _ => hu.ptr i _ hi (by decide),∅,by rw [Finset.card_empty, Nat.zero_add, same_slots hi hlim hu],
    fun b hb => .inl (hlog b hb)⟩

theorem slot_block_logs (h : Sound s) (hi : Live s i) (hk : k ≤ NDIRECT) (hlim : k < lim)
    (hslots : lim ≤ SLOTS) :
    Logs (slotBlock i k) (fun a t log => Logged i lim (if k = NDIRECT then ∅ else {a}) s t log)
      (fun _ log => log = []) s := by
  unfold slotBlock
  refine (leaves_step (c := Cmd.addr i k) rfl).mpr ?_
  split
  · rename_i hempty
    rw [← ptr_direct hk] at hempty
    refine leaves_seq (balloc_logs h) (fun _ _ => id) ?_
    rintro b t - ⟨hf,x,rfl⟩
    refine (leaves_step (c := Cmd.setAddr i k b) rfl).mpr ?_
    have hg := assign_gains h hi hk hempty hf
    show Logged i lim _ s _ [x,b]
    refine logged_gains (x := x) h hi hg hlim hslots fun y hy => ?_
    simp only [List.mem_cons, List.not_mem_nil, or_false] at hy
    rcases hy with rfl | rfl
    · exact .inr (.inl rfl)
    · by_cases hind : k = NDIRECT
      · -- the new block is the indirect block
        subst hind
        have hnew := hg.ptr i NDIRECT hi hg.slot
        rw [if_pos ⟨rfl,rfl⟩] at hnew
        exact .inr (.inr ⟨hnew.symm,data_pos h hf.free⟩)
      · rw [if_neg hind]
        exact .inl (Finset.mem_singleton_self _)
  · exact logged_nil

theorem entry_logs {bn : ℕ} (h : Sound s) (hi : Live s i) (hbn : NDIRECT ≤ bn) (hlim : bn+1 < lim)
    (hslots : lim ≤ SLOTS) (hind : ptr s i NDIRECT ≠ 0) :
    Logs (do
        let bp ← read (ptr s i NDIRECT)
        let a := field 4 bp (4*(bn-NDIRECT))
        if a = 0 then
          let b ← balloc
          patch (ptr s i NDIRECT) (4*(bn-NDIRECT)) (bytes 4 b)
          pure b
        else pure a)
      (fun a t log => Logged i lim {a} s t log) (fun _ log => log = []) s := by
  refine (leaves_step (c := Cmd.read (ptr s i NDIRECT)) rfl).mpr ?_
  show Leaves _ _ (if _ then _ else _) _ _ _
  rw [ptr_entry hbn hind]
  split_ifs with hempty
  · refine leaves_seq (balloc_logs h) (fun _ _ => id) ?_
    rintro b t - ⟨hf,x,rfl⟩
    refine (leaves_step (c := Cmd.patch (ptr s i NDIRECT) (4*(bn-NDIRECT)) (bytes 4 b)) rfl).mpr ?_
    have hg := patch_gains h hi (Nat.lt_succ_of_le hbn) (Nat.lt_of_lt_of_le hlim hslots) hind hempty hf
    rw [entry_place] at hg
    have hsame := hg.ptr i NDIRECT hi (by decide)
    rw [if_neg (by omega)] at hsame
    show Logged i lim _ s _ [x,b,ptr s i NDIRECT]
    refine logged_gains (x := x) h hi hg hlim hslots fun y hy => ?_
    simp only [List.mem_cons, List.not_mem_nil, or_false] at hy
    rcases hy with rfl | rfl | rfl
    · exact .inr (.inl rfl)
    · exact .inl (Finset.mem_singleton_self _)
    · exact .inr (.inr ⟨hsame.symm,hind⟩)
  · exact logged_nil

theorem bmap_logs {bn : ℕ} (h : Sound s) (hi : Live s i) (hbn : bn < MAXFILE) (hlim : slotOf bn < lim)
    (hslots : lim ≤ SLOTS) :
    Logs (bmap i bn) (fun a t log => Logged i lim {a} s t log)
      (fun _ log => ∃ t, Logged i lim ∅ s t log) s := by
  have hstop : ∀ l : List ℕ, l = [] → ∃ t, Logged i lim ∅ s t l :=
    fun l hl => ⟨s,by rw [hl]; exact logged_nil⟩
  unfold bmap
  split
  · rename_i hdirect
    rw [slotOf, if_pos hdirect] at hlim
    refine leaves_mono (slot_block_logs h hi (Nat.le_of_lt hdirect) hlim hslots) (fun a t l hl => ?_)
      (fun _ => hstop)
    rwa [if_neg (Nat.ne_of_lt hdirect)] at hl
  · rename_i hdirect
    rw [slotOf, if_neg hdirect] at hlim
    rw [if_pos (by simp only [MAXFILE, NINDIRECT, NDIRECT] at hbn hdirect ⊢; omega)]
    have hlow : NDIRECT < lim := by omega
    refine leaves_seq (leaves_and (leaves_of_wp (slot_block_spec h hi (Nat.le_refl _)))
      (slot_block_logs h hi (Nat.le_refl _) hlow hslots)) (fun _ l hl => hstop l hl.2) ?_
    rintro - t l ⟨⟨rfl,hind,hf⟩,hl⟩
    rw [if_pos rfl] at hl
    obtain ⟨h1,h2⟩ := grows_keeps h hi (fills_grows hlow hf).1
    refine leaves_mono (entry_logs h1 h2 (Nat.le_of_not_lt hdirect) hlim hslots hind)
      (fun a u l' hl' => ?_) ?_
    · have hall := logged_append hl hl'
      rwa [Finset.empty_union] at hall
    · rintro e _ rfl
      exact ⟨t,by rwa [List.append_nil]⟩

def rounds (off n : ℕ) : ℕ := if n = 0 then 0 else (off+n-1)/BSIZE-off/BSIZE+1

theorem rounds_step (off : ℕ) (hn : 0 < n) :
    1+rounds (off+min n (BSIZE-off%BSIZE)) (n-min n (BSIZE-off%BSIZE)) = rounds off n := by
  simp only [rounds, BSIZE]
  split <;> split <;> omega

theorem write_from_logs {r stop : ℕ} (h : Sound s) (hi : Live s i) (hstop : off+src.length ≤ stop)
    (hmax : stop ≤ MAXFILE*BSIZE) :
    Logs (writeFrom i r off src)
      (fun _ t log => ∃ D : Finset ℕ, D.card ≤ rounds off src.length ∧ Logged i (limit stop) D s t log)
      (fun _ log => ∃ (t : Store) (D : Finset ℕ),
      D.card ≤ rounds off src.length ∧ Logged i (limit stop) D s t log)
      s := by
  induction r generalizing off src s with
  | zero => exact ⟨∅,Nat.zero_le _,logged_nil⟩
  | succ r ih =>
    rw [writeFrom]
    split_ifs with hpos
    · have hbound : off/BSIZE < MAXFILE := Nat.div_lt_of_lt_mul (by rw [Nat.mul_comm]; omega)
      have hlim := limit_slots hmax
      have hslot : slotOf (off/BSIZE) < limit stop := slot_lt_limit (by omega)
      refine leaves_seq (leaves_and (leaves_of_wp (bmap_spec h hi hbound hslot hlim))
        (bmap_logs h hi hbound hslot hlim))
        ?_ ?_
      · rintro e l ⟨-,t,hl⟩
        exact ⟨t,∅,Nat.zero_le _,hl⟩
      · rintro a t l ⟨⟨rfl,hne,hg,-⟩,hl⟩
        obtain ⟨ht,hit⟩ := grows_keeps h hi hg
        have hround := rounds_step off hpos
        have hm : min src.length (BSIZE-off%BSIZE) ≤ src.length := Nat.min_le_left _ _
        generalize min src.length (BSIZE-off%BSIZE) = m at hround hm ⊢
        refine (leaves_step (c := Cmd.patch (ptr t i (slotOf (off/BSIZE))) (off%BSIZE) (src.take m)) rfl).mpr
          ?_
        have hpatch := data_same ht hit (slot_lt hbound) (slot_not_indirect _) hne
          (paste (t.blocks (ptr t i (slotOf (off/BSIZE)))) (off%BSIZE) (src.take m))
        have hself : ∀ b ∈ [ptr t i (slotOf (off/BSIZE))], b ∈ ({ptr t i (slotOf (off/BSIZE))} : Finset ℕ) :=
          fun b hb => by simpa using hb
        have hhere := logged_append hl (logged_same hit hlim hpatch hself)
        have hdrop : (src.drop m).length = src.length-m := List.length_drop
        have hrest : ∀ {v : Store} {D : Finset ℕ} {l' : List ℕ}, D.card ≤ rounds (off+m) (src.drop m).length →
            Logged i (limit stop) D (t.setBlock (ptr t i (slotOf (off/BSIZE)))
              (paste (t.blocks (ptr t i (slotOf (off/BSIZE)))) (off%BSIZE) (src.take m))) v l' →
            ∃ D : Finset ℕ, D.card ≤ rounds off src.length ∧ Logged i (limit stop) D s v
              (l++([ptr t i (slotOf (off/BSIZE))]++l')) := fun {v D l'} hD hl' => by
          refine ⟨_,?_,List.append_assoc l _ l' ▸ logged_append hhere hl'⟩
          rw [Finset.union_self]
          have := Finset.card_union_le {ptr t i (slotOf (off/BSIZE))} D
          rw [Finset.card_singleton] at this
          rw [hdrop] at hD
          omega
        refine leaves_mono (ih (same_sound ht hpatch) ((hpatch.live i).mpr hit) (by omega)) ?_ ?_
        · rintro _ v l' ⟨D,hD,hl'⟩
          exact hrest hD hl'
        · rintro e l' ⟨v,D,hD,hl'⟩
          exact ⟨v,hrest hD hl'⟩
    · exact ⟨∅,Nat.zero_le _,logged_nil⟩

theorem empty_slots_chunk (h : Image s) (hi : Live s i) (hoff : off ≤ (s.mem i).size) :
    (emptySlots s i (limit (off+n))).card ≤ blocksFor (off+n)-blocksFor off+1 := by
  have hsub : emptySlots s i (limit (off+n)) ⊆
      insert NDIRECT ((Finset.Ico (blocksFor off) (blocksFor (off+n))).image slotOf) := fun k hk => by
    obtain ⟨hk,hempty⟩ := Finset.mem_filter.mp hk
    rcases limit_cases (Finset.mem_range.mp hk) with ⟨bn,hbn,rfl⟩ | ⟨rfl,-⟩
    · refine Finset.mem_insert_of_mem (Finset.mem_image_of_mem _ (Finset.mem_Ico.mpr ⟨?_,hbn⟩))
      by_contra hlow
      exact image_block h hi hoff (Nat.lt_of_not_le hlow) hempty
    · exact Finset.mem_insert_self _ _
  calc (emptySlots s i (limit (off+n))).card
      ≤ (insert NDIRECT ((Finset.Ico (blocksFor off) (blocksFor (off+n))).image slotOf)).card :=
        Finset.card_le_card hsub
    _ ≤ ((Finset.Ico (blocksFor off) (blocksFor (off+n))).image slotOf).card+1 := Finset.card_insert_le _ _
    _ ≤ (Finset.Ico (blocksFor off) (blocksFor (off+n))).card+1 := Nat.succ_le_succ Finset.card_image_le
    _ = blocksFor (off+n)-blocksFor off+1 := by rw [Nat.card_Ico]

theorem logged_card (hD : D.card ≤ k) (hs : (emptySlots s i lim).card ≤ n) (h : Logged i lim D s t log) :
    log.toFinset.card ≤ k+n+1 := by
  obtain ⟨M,hM,hin⟩ := h.cover
  have hsub : log.toFinset ⊆ insert (ptr t i NDIRECT) (D ∪ M) := fun b hb => by
    simp only [Finset.mem_insert, Finset.mem_union]
    rcases hin b (List.mem_toFinset.mp hb) with h1 | h2 | ⟨h3,-⟩
    · exact .inr (.inl h1)
    · exact .inr (.inr h2)
    · exact .inl h3
  have h1 := Finset.card_le_card hsub
  have h2 := Finset.card_insert_le (ptr t i NDIRECT) (D ∪ M)
  have h3 := Finset.card_union_le D M
  omega

theorem chunk_blocks (off : ℕ) (hn : n ≤ CHUNK) :
    rounds off n+(blocksFor (off+n)-blocksFor off+1)+1+1 ≤ MAXOPBLOCKS := by
  simp only [rounds, blocksFor, BSIZE, CHUNK, MAXOPBLOCKS] at hn ⊢
  split <;> omega

theorem extend_logs {stop : ℕ} : Logs (extend i n stop) (fun _ _ log => log.toFinset.card ≤ 1)
    (fun _ _ => False) s := by
  unfold extend
  refine (leaves_step (c := Cmd.inode i) rfl).mpr ?_
  split
  · exact List.toFinset_card_le [IBLOCK i s.sb]
  · exact Nat.zero_le _

theorem writei_logs (h : Image s) (hi : Live s i) (hoff : off ≤ (s.mem i).size) (hn : src.length ≤ CHUNK) :
    Logs (writei i off src) (fun _ _ log => log.toFinset.card ≤ MAXOPBLOCKS)
      (fun _ log => log.toFinset.card ≤ MAXOPBLOCKS) s := by
  have hsize := h.size i hi
  have hword : off+src.length < WORD := by
    simp only [MAXFILE, BSIZE, CHUNK, WORD] at hsize hn ⊢
    omega
  have hcount := chunk_blocks off hn
  unfold writei
  refine (leaves_step (c := Cmd.inode i) rfl).mpr ?_
  split
  · exact Nat.zero_le _
  · dsimp only
    split
    · exact Nat.zero_le _
    · rw [Nat.mod_eq_of_lt hword]
      split_ifs with hfit
      · exact Nat.zero_le _
      · have hmax : off+src.length ≤ MAXFILE*BSIZE := Nat.le_of_not_lt hfit
        have hslots := empty_slots_chunk (n := src.length) h hi hoff
        refine leaves_seq (write_from_logs h.sound hi (Nat.le_refl _) hmax) ?_ ?_
        · rintro e l ⟨t,D,hD,hl⟩
          have hcard := logged_card hD hslots hl
          exact Nat.le_trans hcard (by omega)
        · rintro _ t l ⟨D,hD,hl⟩
          have hcard := logged_card hD hslots hl
          refine leaves_seq extend_logs (fun _ _ => False.elim) fun _ u l' hl' => ?_
          show (l++(l'++[])).toFinset.card ≤ _
          rw [List.append_nil, List.toFinset_append]
          have hunion := Finset.card_union_le l.toFinset l'.toFinset
          omega

inductive Event where
  | beginOp
  | logWrite (b : ℕ)
  | endOp
  deriving DecidableEq

def events : FileCmd → Disk → List Event
  | .fs c, d => (logged c d.store).map .logWrite
  | .beginOp, _ => [.beginOp]
  | .endOp, _ => [.endOp]
  | _, _ => []

def blocksOf : List Event → List ℕ
  | .logWrite b::es => b::blocksOf es
  | _ => []

def transactions : List Event → List (List ℕ)
  | [] => []
  | .beginOp::es => blocksOf es::transactions es
  | _::es => transactions es

def Fits (es : List Event) : Prop := ∀ t ∈ transactions es, t.toFinset.card ≤ MAXOPBLOCKS

theorem blocks_of_append (log : List ℕ) (es : List Event) :
    blocksOf (log.map .logWrite++es) = log++blocksOf es := by
  induction log with
  | nil => rfl
  | cons b log ih => exact congrArg (b :: ·) ih

theorem transactions_append (log : List ℕ) (es : List Event) :
    transactions (log.map .logWrite++es) = transactions es := by
  induction log with
  | nil => rfl
  | cons b log ih => exact ih

theorem fits_ended {es : List Event} (hlog : log.toFinset.card ≤ MAXOPBLOCKS) (h : Fits es) :
    Fits (.beginOp::(log.map .logWrite++[.endOp])++es) := by
  rw [List.cons_append, List.append_assoc]
  intro t ht
  rw [transactions, blocks_of_append, transactions_append] at ht
  rcases List.mem_cons.mp ht with rfl | ht
  · show (log++[]).toFinset.card ≤ _
    rwa [List.append_nil]
  · exact h t ht

theorem fits_begun (hlog : log.toFinset.card ≤ MAXOPBLOCKS) : Fits (.beginOp::log.map .logWrite) := by
  have happend := blocks_of_append log []
  have hrest := transactions_append log []
  rw [List.append_nil] at happend hrest
  intro t ht
  rw [transactions, happend, hrest] at ht
  rcases List.mem_cons.mp ht with rfl | ht
  · show (log++[]).toFinset.card ≤ _
    rwa [List.append_nil]
  · cases ht

theorem trail_lift {α : Type} {d : Disk} {p : Prog α} :
    trail FileWrites.exec events (lift p) d = (trail BlockCode.exec logged p d.store).map .logWrite := by
  induction p generalizing d with
  | ret a => rfl
  | call c next ih =>
    show (logged c d.store).map .logWrite++onward (fun r e => trail _ events (lift (next r)) e)
      (FileWrites.exec (.fs c) d) =
      (logged c d.store++onward (fun r t => trail _ logged (next r) t)
        (BlockCode.exec c d.store)).map .logWrite
    rw [List.map_append, FileWrites.exec]
    congr 1
    cases BlockCode.exec c d.store with
    | ok r => exact ih r.1
    | error e => rfl

variable {d : Disk} {f : ℕ}

theorem pass_logs (h : Steady d f) (hn : src.length ≤ CHUNK) : Leaves FileWrites.exec events (pass f src)
    (fun _ _ l => ∃ log : List ℕ, log.toFinset.card ≤ MAXOPBLOCKS ∧
    l = .beginOp::(log.map .logWrite++[.endOp]))
    (fun _ l => ∃ log : List ℕ, log.toFinset.card ≤ MAXOPBLOCKS ∧ l = .beginOp::log.map .logWrite) d := by
  have hcount := writei_logs h.image h.live h.off hn
  have hwrite : Leaves FileWrites.exec events (lift (writei (d.file f).ip (d.file f).off src))
      (fun _ _ l => ∃ log : List ℕ, log.toFinset.card ≤ MAXOPBLOCKS ∧ l = log.map .logWrite)
      (fun _ l => ∃ log : List ℕ, log.toFinset.card ≤ MAXOPBLOCKS ∧ l = log.map .logWrite) d := by
    rw [Leaves, wp_lift, trail_lift]
    exact wp_mono hcount (fun _ _ hl => ⟨_,hl,rfl⟩) (fun _ hl => ⟨_,hl,rfl⟩)
  unfold FileWrites.pass
  refine (leaves_step (c := FileCmd.beginOp) rfl).mpr ((leaves_step (c := FileCmd.file f) rfl).mpr ?_)
  refine leaves_seq hwrite ?_ ?_
  · rintro e _ ⟨log,hlog,rfl⟩
    exact ⟨log,hlog,rfl⟩
  · rintro r e _ ⟨log,hlog,rfl⟩
    cases r with
    | some r => exact ⟨log,hlog,rfl⟩
    | none => exact ⟨log,hlog,rfl⟩

theorem fits_nil : Fits [] := fun _ ht => absurd ht List.not_mem_nil

theorem filewrite_from_logs {addr : ℕ → Byte} {n : ℤ} (h : Steady d f) :
    Leaves FileWrites.exec events (filewriteFrom f addr n k i) (fun _ _ l => Fits l)
      (fun _ l => Fits l) d := by
  induction k generalizing d i with
  | zero => exact fits_nil
  | succ k ih =>
    rw [filewriteFrom]
    split
    · have hchunk : min (n-i).toNat CHUNK ≤ CHUNK := Nat.min_le_right _ _
      generalize min (n-i).toNat CHUNK = n1 at hchunk ⊢
      have hlen : (slice addr i n1).length ≤ CHUNK := by rwa [slice_length]
      have hword : (slice addr i n1).length < WORD := Nat.lt_of_le_of_lt hlen (by decide)
      refine leaves_seq (leaves_and (leaves_of_wp (pass_keeps h hword)) (pass_logs h hlen)) ?_ ?_
      · rintro e _ ⟨-,log,hlog,rfl⟩
        exact fits_begun hlog
      · rintro r e _ ⟨hkeep,log,hlog,rfl⟩
        cases r with
        | none => exact fits_ended hlog fits_nil
        | some r =>
          dsimp only
          split
          · exact fits_ended hlog fits_nil
          · exact leaves_mono (ih hkeep.self) (fun _ _ _ => fits_ended hlog) (fun _ _ => fits_ended hlog)
    · exact fits_nil

/-- On a file without holes every transaction of `filewrite` logs no more blocks than
`begin_op` has reserved. -/
theorem filewrite_transactions_fit {d : Disk} {f : ℕ} (h : Steady d f) (addr : ℕ → Byte) (n : ℤ) :
    ∀ t ∈ transactions (trail FileWrites.exec events (filewrite f addr n) d),
      t.toFinset.card ≤ MAXOPBLOCKS := by
  refine leaves_trail (P := Fits) ((leaves_step (c := FileCmd.file f) rfl).mpr ?_)
  split
  · exact nofun
  · cases (d.file f).type with
    | inode => exact filewrite_from_logs h
    | none => exact nofun

/-- The first byte of a file: the bitmap, the new block, twice, and the inode. -/
theorem filewrite_transactions_fit_small :
    transactions (trail FileWrites.exec events (filewrite 0 (fun _ => 7) 1) opened.disk) = [[3, 4, 4, 2]] ∧
    ∀ t ∈ transactions (trail FileWrites.exec events (filewrite 0 (fun _ => 7) 1) opened.disk),
      t.toFinset.card ≤ MAXOPBLOCKS :=
  ⟨by decide +kernel,filewrite_transactions_fit ((files_consistent small_image opened_run).2 0 rfl)
    (fun _ => 7) 1⟩

end Xv6.WriteLogs

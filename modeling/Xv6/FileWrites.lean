import Xv6.BlockFiles
import Xv6.FileCalls
import Mathlib.Data.Int.Notation

/-!
# Writing in chunks

`fileread` and `filewrite` on open files whose inodes have their blocks on a disk. What
`filewrite` does between `ilock` and `iunlock` is one pass of its loop, and passes of
different processes may follow each other in any order. A call that is alone writes what
one `writei` would write, as far as chunks fit and as long as there are blocks.
-/

set_option autoImplicit false

namespace Xv6.FileWrites
open CommandTree TransitionSystem ByteFields BlockCode BlockStore BlockFiles
open InodeCode (BSIZE MAXFILE WORD T_DEV Byte)
open FileCalls (CHUNK)

inductive FileType where
  | none
  | inode
  deriving DecidableEq

/-- A `struct file` that is no pipe. -/
structure File where
  type : FileType
  readable : Bool
  writable : Bool
  ip : ℕ
  off : ℕ
  deriving DecidableEq

inductive Stop where
  | fs (msg : Panic)
  | fileread
  | filewrite
  | shortFilewrite
  deriving DecidableEq

inductive FileCmd where
  | fs (c : Cmd)
  | file (f : ℕ)
  | advance (f r : ℕ)
  | beginOp
  | endOp
  | stop (msg : Stop)

def FileReply : FileCmd → Type
  | .fs c => Reply c
  | .file _ => File
  | .stop _ => Empty
  | _ => Unit

abbrev FileProg (α : Type) := Program FileCmd FileReply α

def request (c : FileCmd) : FileProg (FileReply c) := perform c

def file (f : ℕ) : FileProg File := request (.file f)

def advance (f r : ℕ) : FileProg Unit := request (.advance f r)
def beginOp : FileProg Unit := request .beginOp
def endOp : FileProg Unit := request .endOp
def stop {α : Type} (msg : Stop) : FileProg α := .call (.stop msg) Empty.elim

def lift {α : Type} : Prog α → FileProg α
  | .ret a => .ret a
  | .call c next => .call (.fs c) (fun r => lift (next r))

def fileread (f n : ℕ) : FileProg (Option (List Byte)) := do
  let x ← file f
  if x.readable = false then pure none
  else match x.type with
    | .inode =>
      match ← lift (readi x.ip x.off n) with
      | some bytes =>
        advance f bytes.length
        pure (some bytes)
      | none => pure none
    | .none => stop .fileread

/-- One pass of the loop of `filewrite` up to `end_op`; the result is `r`. -/
def pass (f : ℕ) (src : List Byte) : FileProg (Option ℕ) := do
  beginOp
  let x ← file f
  match ← lift (writei x.ip x.off src) with
  | some r =>
    advance f r
    endOp
    pure (some r)
  | none =>
    endOp
    pure none

/-- The loop of `filewrite` from `i` on, with a bound on the passes left. -/
def filewriteFrom (f : ℕ) (addr : ℕ → Byte) (n : ℤ) : ℕ → ℕ → FileProg ℤ
  | 0, i => pure (if (i : ℤ) = n then n else -1)
  | k+1, i =>
    if (i : ℤ) < n then do
      let n1 := min (n-i).toNat CHUNK
      match ← pass f (slice addr i n1) with
      | none => pure (if (i : ℤ) = n then n else -1)
      | some r => if r ≠ n1 then stop .shortFilewrite else filewriteFrom f addr n k (i+r)
    else pure (if (i : ℤ) = n then n else -1)

def filewrite (f : ℕ) (addr : ℕ → Byte) (n : ℤ) : FileProg ℤ := do
  let x ← file f
  if x.writable = false then pure (-1)
  else match x.type with
    | .inode => filewriteFrom f addr n n.toNat 0
    | .none => stop .filewrite

structure Disk where
  store : Store
  file : ℕ → File

def Disk.setFile (d : Disk) (f : ℕ) (x : File) : Disk := { d with file := Function.update d.file f x }

theorem set_file_self (d : Disk) (f : ℕ) (x : File) : (d.setFile f x).file f = x := Function.update_self _ _ _

theorem set_file_other (d : Disk) {f g : ℕ} (x : File) (hg : g ≠ f) : (d.setFile f x).file g = d.file g :=
  Function.update_of_ne hg _ _

def exec : Handler FileCmd FileReply Disk Stop
  | .fs c, d =>
    match BlockCode.exec c d.store with
    | .ok (r,t) => .ok (r,{ d with store := t })
    | .error e => .error (.fs e)
  | .file f, d => .ok (d.file f,d)
  | .advance f r, d => .ok ((),d.setFile f { d.file f with off := ((d.file f).off+r)%WORD })
  | .beginOp, d => .ok ((),d)
  | .endOp, d => .ok ((),d)
  | .stop msg, _ => .error msg

section Commands
variable {d : Disk} {f : ℕ} {E : Stop → Prop} {Q : Unit → Disk → Prop}

@[simp] theorem wp_file {Q : File → Disk → Prop} : wp exec (file f) Q E d ↔ Q (d.file f) d := Iff.rfl

@[simp] theorem wp_advance {r : ℕ} : wp exec (advance f r) Q E d ↔
    Q () (d.setFile f { d.file f with off := ((d.file f).off+r)%WORD }) := Iff.rfl

@[simp] theorem wp_begin_op : wp exec beginOp Q E d ↔ Q () d := Iff.rfl

@[simp] theorem wp_end_op : wp exec endOp Q E d ↔ Q () d := Iff.rfl

theorem wp_lift {α : Type} {p : Prog α} {Q : α → Disk → Prop} :
    wp exec (lift p) Q E d ↔ wp BlockCode.exec p (fun a t => Q a { d with store := t })
      (fun e => E (.fs e)) d.store := by
  induction p generalizing d with
  | ret a => exact Iff.rfl
  | call c next ih =>
    show Meets Q E ((exec (.fs c) d).bind fun r => run exec (lift (next r.1)) r.2) ↔
      Meets _ _ ((BlockCode.exec c d.store).bind fun r => run BlockCode.exec (next r.1) r.2)
    rw [exec]
    cases BlockCode.exec c d.store with
    | ok r => exact ih r.1
    | error e => exact Iff.rfl

end Commands

variable {d e : Disk} {f i n off : ℕ} {src : List Byte} {addr : ℕ → Byte}

structure Steady (d : Disk) (f : ℕ) : Prop where
  image : Image d.store
  live : Live d.store (d.file f).ip
  device : (d.store.mem (d.file f).ip).type ≠ T_DEV
  off : (d.file f).off ≤ (d.store.mem (d.file f).ip).size

theorem steady_small (h : Steady d f) : (d.file f).off ≤ MAXFILE*BSIZE :=
  Nat.le_trans h.off (h.image.size _ h.live)

theorem write_array_fits {xs : List Byte} (hoff : off ≤ xs.length) (hmax : off+src.length ≤ MAXFILE*BSIZE) :
    writeArray xs off src = (some src.length,xs.take off++src++xs.drop (off+src.length)) := by
  have hword : off+src.length < WORD := by
    simp only [MAXFILE, BSIZE, WORD] at hmax ⊢
    omega
  rw [writeArray, if_pos ⟨hoff,hword,hmax⟩]

theorem written_size {s u : Store} (h : Written i off src s u) (hoff : off ≤ (s.mem i).size)
    (hmax : off+src.length ≤ MAXFILE*BSIZE) : (u.mem i).size = max (s.mem i).size (off+src.length) := by
  have hlen := congrArg List.length h.file
  rw [bytes_of_length, write_array_fits (by rwa [bytes_of_length]) hmax] at hlen
  simp only [List.length_append, List.length_take, List.length_drop, bytes_of_length] at hlen
  omega

theorem written_grows {s u : Store} (h : Written i off src s u) (hoff : off ≤ (s.mem i).size)
    (hmax : off+src.length ≤ MAXFILE*BSIZE) {j : ℕ} (hj : Live s j) : (s.mem j).size ≤ (u.mem j).size := by
  by_cases hji : j = i
  · rw [hji, written_size h hoff hmax]
    exact Nat.le_max_left _ _
  · have hlen := congrArg List.length (h.others j hj hji)
    rw [bytes_of_length, bytes_of_length] at hlen
    exact Nat.le_of_eq hlen.symm

theorem written_steady {u : Store} {g : ℕ} (h : Steady d f) (hg : Steady d g)
    (hw : Written (d.file f).ip (d.file f).off src d.store u)
    (hmax : (d.file f).off+src.length ≤ MAXFILE*BSIZE) : Steady { d with store := u } g :=
  ⟨hw.image,(hw.live _).mpr hg.live,fun hdev => hg.device ((hw.type _).symm.trans hdev),
    Nat.le_trans hg.off (written_grows hw h.off hmax hg.live)⟩

theorem move_steady (off : ℕ) (h : Steady d f) (hoff : off ≤ (d.store.mem (d.file f).ip).size) :
    Steady (d.setFile f { d.file f with off := off }) f := by
  refine ⟨h.image,?_,?_,?_⟩ <;> rw [set_file_self]
  exacts [h.live,h.device,hoff]

theorem steady_same {g : ℕ} (h : Steady d g) (hstore : e.store = d.store) (hfile : e.file g = d.file g) :
    Steady e g := by
  refine ⟨?_,?_,?_,?_⟩ <;> rw [hstore]
  · exact h.image
  all_goals rw [hfile]
  exacts [h.live,h.device,h.off]

structure Keeps (f : ℕ) (d e : Disk) : Prop where
  self : Steady e f
  file : ∀ g, g ≠ f → e.file g = d.file g
  others : ∀ g, g ≠ f → Steady d g → Steady e g

theorem keeps_refl (h : Steady d f) : Keeps f d d := ⟨h,fun _ _ => rfl,fun _ _ => id⟩

theorem move_keeps (off : ℕ) (h : Steady d f) (hoff : off ≤ (d.store.mem (d.file f).ip).size) :
    Keeps f d (d.setFile f { d.file f with off := off }) :=
  ⟨move_steady off h hoff,fun _ => set_file_other d _,
  fun _ hg hs => steady_same hs rfl (set_file_other d _ hg)⟩

structure Puts (f : ℕ) (src : List Byte) (d e : Disk) : Prop where
  steady : Steady e f
  written : Written (d.file f).ip (d.file f).off src d.store e.store
  file : e.file f = { d.file f with off := (d.file f).off+src.length }
  others : ∀ g, g ≠ f → e.file g = d.file g

theorem pass_fits (stop : ℕ) (h : Steady d f)
    (hstop : (d.file f).off+src.length ≤ stop) (hmax : stop ≤ MAXFILE*BSIZE) :
    wp exec (pass f src) (fun r e => r = some src.length ∧ Puts f src d e ∧
        (Room e.store (d.file f).ip (limit stop) ↔ Room d.store (d.file f).ip (limit stop)))
      (fun e => ∃ msg, e = .fs msg ∧ Exhausted d.store (d.file f).ip (limit stop) msg) d := by
  unfold pass
  simp only [wp_bind, wp_begin_op, wp_file, wp_lift]
  refine wp_mono (writei_fits h.image h.live h.device h.off hstop hmax) ?_
    (fun msg he => ⟨msg,rfl,he⟩)
  rintro _ u ⟨rfl,hw,hr⟩
  have hfit : (d.file f).off+src.length ≤ MAXFILE*BSIZE := Nat.le_trans hstop hmax
  have hword : ((d.file f).off+src.length)%WORD = (d.file f).off+src.length := Nat.mod_eq_of_lt (by
    simp only [MAXFILE, BSIZE, WORD] at hfit ⊢
    omega)
  simp only [wp_bind, wp_advance, wp_end_op, wp_pure, hword]
  refine ⟨trivial,⟨?_,hw,set_file_self _ _ _,fun _ => set_file_other _ _⟩,hr⟩
  have hmoved := move_steady ((d.file f).off+src.length) (written_steady h h hw hfit) (by
    show _ ≤ (u.mem (d.file f).ip).size
    rw [written_size hw h.off hfit]
    exact Nat.le_max_right _ _)
  exact hmoved

theorem pass_refused (h : Steady d f) (hn : src.length < WORD)
    (hbig : MAXFILE*BSIZE < (d.file f).off+src.length) :
    wp exec (pass f src) (fun r e => r = none ∧ e = d) (fun _ => False) d := by
  unfold pass
  simp only [wp_bind, wp_begin_op, wp_file, wp_lift]
  rw [wp, writei_refused (h.image.size _ h.live) hn (by omega)]
  exact ⟨rfl,rfl⟩

theorem puts_keeps (h : Steady d f) (hp : Puts f src d e)
    (hmax : (d.file f).off+src.length ≤ MAXFILE*BSIZE) : Keeps f d e :=
  ⟨hp.steady,hp.others,
    fun g hg hs => steady_same (written_steady h hs hp.written hmax) rfl (hp.others g hg)⟩

theorem fileread_keeps (h : Steady d f) (hf : (d.file f).type = .inode) (hn : n < WORD) :
    wp exec (fileread f n) (fun _ e => Keeps f d e) (fun _ => False) d := by
  have hsize := h.image.size _ h.live
  unfold fileread
  simp only [wp_bind, wp_file]
  split
  · exact keeps_refl h
  · simp only [hf, wp_bind, wp_lift]
    refine wp_post (readi_spec hsize h.device hn fun o _ _ ho => h.image.full _ o h.live ho) ?_
    rintro r t ⟨rfl,rfl⟩
    rw [readArray]
    by_cases hin : (d.file f).off ≤ (bytesOf d.store (d.file f).ip).length ∧ (d.file f).off+n < WORD
    · rw [if_pos hin]
      -- the bytes that are read lie before the end
      have hlen : (d.file f).off+(((bytesOf d.store (d.file f).ip).drop (d.file f).off).take n).length ≤
          (d.store.mem (d.file f).ip).size := by
        have := h.off
        rw [List.length_take, List.length_drop, bytes_of_length]
        omega
      simp only [wp_bind, wp_advance, wp_pure]
      generalize (((bytesOf d.store (d.file f).ip).drop (d.file f).off).take n).length = m at hlen ⊢
      rw [Nat.mod_eq_of_lt (by simp only [MAXFILE, BSIZE, WORD] at hsize ⊢; omega)]
      exact move_keeps _ h hlen
    · rw [if_neg hin]
      exact keeps_refl h

/-- The bytes of `n` that are written at an offset: all, or the whole chunks that fit. -/
def fitting (off n : ℕ) : ℕ :=
  if off+n ≤ MAXFILE*BSIZE then n else CHUNK*((MAXFILE*BSIZE-off)/CHUNK)

theorem fitting_max (hoff : off ≤ MAXFILE*BSIZE) : off+fitting off n ≤ MAXFILE*BSIZE := by
  have := Nat.mul_div_le (MAXFILE*BSIZE-off) CHUNK
  unfold fitting
  split <;> omega

theorem fitting_step (h : off+min n CHUNK ≤ MAXFILE*BSIZE) :
    fitting off n = min n CHUNK+fitting (off+min n CHUNK) (n-min n CHUNK) := by
  simp only [fitting, MAXFILE, BSIZE, CHUNK] at h ⊢
  split <;> split <;> omega

theorem fitting_refused (h : MAXFILE*BSIZE < off+min n CHUNK) : fitting off n = 0 := by
  simp only [fitting, MAXFILE, BSIZE, CHUNK] at h ⊢
  split <;> omega

theorem write_array_append {xs bs cs : List Byte} (hoff : off ≤ xs.length)
    (hmax : off+bs.length+cs.length ≤ MAXFILE*BSIZE) :
    (writeArray (writeArray xs off bs).2 (off+bs.length) cs).2 = (writeArray xs off (bs++cs)).2 := by
  have hlen : (xs.take off).length = off := by
    rw [List.length_take]
    omega
  rw [write_array_fits hoff (by omega), write_array_fits hoff (by rw [List.length_append]; omega),
    write_array_fits (by simp only [List.length_append, hlen]; omega) hmax]
  have htake : (xs.take off++bs++xs.drop (off+bs.length)).take (off+bs.length) = xs.take off++bs := by
    rw [List.take_left']
    rw [List.length_append, hlen]
  have hdrop : (xs.take off++bs++xs.drop (off+bs.length)).drop (off+bs.length+cs.length) =
      xs.drop (off+(bs++cs).length) := by
    rw [← List.drop_drop, List.drop_left' (by rw [List.length_append, hlen]), List.drop_drop,
      List.length_append,
      Nat.add_assoc]
  show _++cs++_ = _++(bs++cs)++_
  rw [htake, hdrop]
  simp only [List.append_assoc]

theorem puts_nil (h : Steady d f) : Puts f [] d d := by
  refine ⟨h,⟨h.image,fun _ => Iff.rfl,fun _ => rfl,?_,fun _ _ _ => rfl⟩,rfl,fun _ _ => rfl⟩
  rw [write_array_fits (by rw [bytes_of_length]; exact h.off) (steady_small h)]
  simp

theorem puts_append {e' : Disk} {bs cs : List Byte} (h : Steady d f)
    (hmax : (d.file f).off+bs.length+cs.length ≤ MAXFILE*BSIZE) (h1 : Puts f bs d e) (h2 : Puts f cs e e') :
    Puts f (bs++cs) d e' := by
  have hw := h2.written
  rw [h1.file] at hw
  refine ⟨h2.steady,⟨hw.image,fun j => (hw.live j).trans (h1.written.live j),
    fun j => (hw.type j).trans (h1.written.type j),?_,fun j hj hji => ?_⟩,?_,
    fun g hg => (h2.others g hg).trans (h1.others g hg)⟩
  · rw [hw.file, h1.written.file, write_array_append (by rw [bytes_of_length]; exact h.off) hmax]
  · exact (hw.others j ((h1.written.live j).mpr hj) hji).trans (h1.written.others j hj hji)
  · rw [h2.file, h1.file, List.length_append, Nat.add_assoc]

theorem filewrite_from_spec {k : ℕ} (addr : ℕ → Byte) (h : Steady d f) (hi : i ≤ n)
    (hk : n ≤ i+k) :
    wp exec (filewriteFrom f addr n k i) (fun r e =>
        r = (if (d.file f).off+(n-i) ≤ MAXFILE*BSIZE then (n : ℤ) else -1) ∧
        Puts f (slice addr i (fitting (d.file f).off (n-i))) d e ∧
        (Room e.store (d.file f).ip (limit ((d.file f).off+fitting (d.file f).off (n-i))) ↔
          Room d.store (d.file f).ip (limit ((d.file f).off+fitting (d.file f).off (n-i)))))
      (fun e => ∃ msg, e = .fs msg ∧
        Exhausted d.store (d.file f).ip (limit ((d.file f).off+fitting (d.file f).off (n-i))) msg) d := by
  have hsmall := steady_small h
  have hdone : i = n → n-i = 0 ∧ fitting (d.file f).off 0 = 0 := fun hin => by
    refine ⟨by omega,?_⟩
    rw [fitting, if_pos (by omega)]
  induction k generalizing d i with
  | zero =>
    obtain ⟨h1,h2⟩ := hdone (by omega)
    have hin : i = n := by omega
    rw [h1, h2]
    simp only [filewriteFrom, wp_pure, hin, if_true, Nat.add_zero, hsmall]
    exact ⟨trivial,puts_nil h,trivial⟩
  | succ k ih =>
    rw [filewriteFrom]
    by_cases hlt : i < n
    · have hsub : ((n : ℤ)-i).toNat = n-i := by omega
      rw [if_pos (by omega), hsub]
      have hn1 : 0 < min (n-i) CHUNK ∧ min (n-i) CHUNK ≤ n-i ∧ min (n-i) CHUNK < WORD := by
        simp only [CHUNK, WORD]
        omega
      by_cases hfit : (d.file f).off+min (n-i) CHUNK ≤ MAXFILE*BSIZE
      · have hstep := fitting_step hfit
        have hmax := fitting_max (n := n-i) hsmall
        generalize min (n-i) CHUNK = n1 at hn1 hfit hstep ⊢
        have hlen : (slice addr i n1).length = n1 := slice_length _ _ _
        refine wp_then (pass_fits ((d.file f).off+fitting (d.file f).off (n-i)) h
          (by rw [hlen]; omega) hmax) ?_
        rintro _ e ⟨rfl,hp,hroom⟩
        simp only [hlen, ne_eq, not_true_eq_false, if_false]
        have hfile := hp.file
        rw [hlen] at hfile
        have hrest := ih (d := e) (i := i+n1) hp.steady (by omega) (by omega)
          (by rw [hfile]; exact hfit)
            (fun hin => ⟨by omega,by rw [hfile, fitting, if_pos (by simpa using hfit)]⟩)
        rw [hfile] at hrest
        have hsplit : n-(i+n1) = n-i-n1 := by omega
        have hsum : (d.file f).off+n1+fitting ((d.file f).off+n1) (n-i-n1) =
            (d.file f).off+fitting (d.file f).off (n-i) := by omega
        simp only [hsplit, hsum] at hrest
        refine wp_mono hrest ?_ ?_
        · rintro r e' ⟨hr,hp',hroom'⟩
          refine ⟨?_,?_,hroom'.trans hroom⟩
          · rw [hr]
            congr 1
            simp only [eq_iff_iff]
            omega
          · rw [hstep, slice_append]
            refine puts_append h ?_ hp hp'
            rw [hlen, slice_length]
            omega
        · rintro _ ⟨msg,rfl,hmsg,hno⟩
          exact ⟨msg,rfl,hmsg,fun hr => hno (hroom.mpr hr)⟩
      · have hnone := fitting_refused (Nat.lt_of_not_le hfit)
        have hbig : ¬(d.file f).off+(n-i) ≤ MAXFILE*BSIZE := by omega
        have hlen : (slice addr i (min (n-i) CHUNK)).length = min (n-i) CHUNK := slice_length _ _ _
        refine wp_seq (pass_refused h (by omega) (by omega)) (fun _ => False.elim) ?_
        rintro _ _ ⟨rfl,rfl⟩
        rw [hnone, if_neg hbig]
        simp only [wp_pure]
        rw [if_neg (by omega)]
        exact ⟨rfl,puts_nil h,trivial⟩
    · obtain ⟨h1,h2⟩ := hdone (by omega)
      have hin : i = n := by omega
      rw [if_neg (by omega), h1, h2]
      simp only [wp_pure, hin, if_true, Nat.add_zero, hsmall]
      exact ⟨trivial,puts_nil h,trivial⟩

theorem limit_cases {k : ℕ} (hk : k < limit n) :
    (∃ bn, bn < blocksFor n ∧ slotOf bn = k) ∨ k = NDIRECT ∧ NDIRECT < blocksFor n := by
  unfold limit at hk
  rcases Nat.lt_trichotomy k NDIRECT with hlow | rfl | hhigh
  · exact .inl ⟨k,by split at hk <;> omega,if_pos hlow⟩
  · exact .inr ⟨rfl,by split at hk <;> omega⟩
  · refine .inl ⟨k-1,by split at hk <;> omega,?_⟩
    rw [slotOf, if_neg (by omega), Nat.sub_add_cancel (by omega)]

theorem image_block {s : Store} (h : Image s) (hi : Live s i) (hn : n ≤ (s.mem i).size) {bn : ℕ}
    (hbn : bn < blocksFor n) : ptr s i (slotOf bn) ≠ 0 := by
  have hfull := h.full i (BSIZE*bn) hi (by
    simp only [blocksFor, BSIZE] at hbn ⊢
    omega)
  rwa [Nat.mul_div_cancel_left bn (by decide)] at hfull

theorem room_within {s : Store} (h : Image s) (hi : Live s i) (hn : n ≤ (s.mem i).size) :
    Room s i (limit n) := by
  have hempty : emptySlots s i (limit n) = ∅ := by
    refine Finset.filter_eq_empty_iff.mpr fun k hk => ?_
    rcases limit_cases (Finset.mem_range.mp hk) with ⟨bn,hbn,rfl⟩ | ⟨rfl,hmore⟩
    · exact image_block h hi hn hbn
    · -- the entries behind the indirect block are only there with it
      have hentry := image_block h hi hn hmore
      rw [slotOf, if_neg (Nat.lt_irrefl _), ptr_indirect (Nat.lt_succ_self _)] at hentry
      exact fun h0 => hentry (if_pos h0)
  rw [Room, hempty]
  exact Nat.zero_le _

theorem puts_room (h : Steady d f) (hp : Puts f src d e)
    (hmax : (d.file f).off+src.length ≤ MAXFILE*BSIZE) :
    Room e.store (d.file f).ip (limit ((d.file f).off+src.length)) := by
  refine room_within hp.written.image ((hp.written.live _).mpr h.live) ?_
  rw [written_size hp.written h.off hmax]
  exact Nat.le_max_right _ _

/-- With the result the call has `f` written to like by one `writei`, or only the chunks
that fit. -/
def AsOneWrite (d : Disk) (f : ℕ) (addr : ℕ → Byte) (n : ℕ) (r : ℤ) (e : Disk) : Prop :=
  if (d.file f).off+n ≤ MAXFILE*BSIZE then
    r = n ∧ (e.file f).off = (d.file f).off+n ∧
      ∃ u, run BlockCode.exec (writei (d.file f).ip (d.file f).off (slice addr 0 n)) d.store =
      .ok (some n,u) ∧
        (e.store.mem (d.file f).ip).size = (u.mem (d.file f).ip).size ∧
        bytesOf e.store (d.file f).ip = bytesOf u (d.file f).ip
  else
    r = -1 ∧ (e.file f).off = (d.file f).off+fitting (d.file f).off n ∧
      bytesOf e.store (d.file f).ip = (bytesOf d.store (d.file f).ip).take (d.file f).off++
        slice addr 0 (fitting (d.file f).off n)++
        (bytesOf d.store (d.file f).ip).drop ((d.file f).off+fitting (d.file f).off n)

/-- There are blocks for the bytes that are to be written, and the file is open for
writing, or even the first chunk does not fit. -/
def Served (d : Disk) (f n : ℕ) : Prop :=
  Room d.store (d.file f).ip (limit ((d.file f).off+fitting (d.file f).off n)) ∧
    ((d.file f).writable = true ∨ fitting (d.file f).off n = 0 ∧ 0 < n)

theorem puts_as_one (h : Steady d f)
    (hp : Puts f (slice addr 0 (fitting (d.file f).off n)) d e)
    (hr : Room d.store (d.file f).ip (limit ((d.file f).off+fitting (d.file f).off n))) :
    AsOneWrite d f addr n (if (d.file f).off+n ≤ MAXFILE*BSIZE then (n : ℤ) else -1) e := by
  have hmax := fitting_max (n := n) (steady_small h)
  have hlen : ∀ m, (slice addr 0 m).length = m := slice_length _ _
  have hoff : (e.file f).off = (d.file f).off+fitting (d.file f).off n := by
    rw [hp.file, hlen]
  unfold AsOneWrite
  by_cases hfit : (d.file f).off+n ≤ MAXFILE*BSIZE
  · have hall : fitting (d.file f).off n = n := if_pos hfit
    rw [hall] at hp hr hoff
    rw [if_pos hfit, if_pos hfit]
    have hone := writei_fits h.image h.live h.device h.off
      (Nat.le_of_eq (congrArg ((d.file f).off+·) (hlen n))) hfit
    obtain ⟨_,u,hrun,rfl,hw,-⟩ := wp_result (wp_mono hone (fun _ _ => id) (fun _ he => he.2 hr))
    rw [hlen] at hrun
    refine ⟨rfl,hoff,u,hrun,?_,hp.written.file.trans hw.file.symm⟩
    rw [written_size hp.written h.off (by rwa [hlen]), written_size hw h.off (by rwa [hlen])]
  · rw [if_neg hfit, if_neg hfit]
    refine ⟨rfl,hoff,?_⟩
    rw [hp.written.file, write_array_fits (by rw [bytes_of_length]; exact h.off) (by rwa [hlen]), hlen]

theorem filewrite_cases (addr : ℕ → Byte) (n : ℕ) (h : Steady d f) (hf : (d.file f).type = .inode)
    (hw : (d.file f).writable = true) :
    (Room d.store (d.file f).ip (limit ((d.file f).off+fitting (d.file f).off n)) ∧
      ∃ e, run exec (filewrite f addr n) d =
          .ok (if (d.file f).off+n ≤ MAXFILE*BSIZE then (n : ℤ) else -1,e) ∧
        Puts f (slice addr 0 (fitting (d.file f).off n)) d e) ∨
    (¬Room d.store (d.file f).ip (limit ((d.file f).off+fitting (d.file f).off n)) ∧
      run exec (filewrite f addr n) d = .error (.fs .ballocOutOfBlocks)) := by
  have hcode : run exec (filewrite f addr n) d = run exec (filewriteFrom f addr n n 0) d := by
    show run exec (if (d.file f).writable = false then pure (-1) else match (d.file f).type with
      | .inode => filewriteFrom f addr n (n : ℤ).toNat 0
      | .none => stop .filewrite) d = _
    rw [hf, if_neg (by rw [hw]; decide), Int.toNat_natCast]
  have hspec := filewrite_from_spec (k := n) addr h (Nat.zero_le n) (Nat.le_add_left n 0)
  simp only [Nat.sub_zero] at hspec
  rw [wp] at hspec
  rw [hcode]
  cases hrun : run exec (filewriteFrom f addr n n 0) d with
  | ok out =>
    rw [hrun] at hspec
    obtain ⟨r,e⟩ := out
    obtain ⟨rfl,hp,hroom⟩ := hspec
    have hfull := puts_room h hp (by rw [slice_length]; exact fitting_max (steady_small h))
    rw [slice_length] at hfull
    exact .inl ⟨hroom.mp hfull,e,rfl,hp⟩
  | error msg =>
    rw [hrun] at hspec
    obtain ⟨m,rfl,rfl,hno⟩ := hspec
    exact .inr ⟨hno,rfl⟩

theorem filewrite_served (h : Steady d f) (hf : (d.file f).type = .inode) :
    run exec (filewrite f addr n) d ≠ .error .shortFilewrite ∧
      ((∃ r e, run exec (filewrite f addr n) d = .ok (r,e) ∧ AsOneWrite d f addr n r e) ↔ Served d f n) := by
  by_cases hw : (d.file f).writable = true
  · rcases filewrite_cases addr n h hf hw with ⟨hr,e,hrun,hp⟩ | ⟨hno,hrun⟩ <;> rw [hrun]
    · exact ⟨nofun,fun _ => ⟨hr,.inl hw⟩,fun _ => ⟨_,e,rfl,puts_as_one h hp hr⟩⟩
    · exact ⟨nofun,nofun,fun hs => absurd hs.1 hno⟩
  · have hcode : run exec (filewrite f addr n) d = .ok (-1,d) := by
      show run exec (if (d.file f).writable = false then pure (-1) else _) d = _
      rw [if_pos (by simpa using hw)]
      rfl
    rw [hcode]
    refine ⟨nofun,fun hand => ?_,fun hs => ⟨-1,d,rfl,?_⟩⟩
    · obtain ⟨r,e,hre,hone⟩ := hand
      cases hre
      unfold AsOneWrite at hone
      split at hone
      · have := hone.1
        omega
      · rename_i hbig
        have hnone : fitting (d.file f).off n = 0 := by
          have := hone.2.1
          omega
        have := steady_small h
        rw [Served, hnone]
        exact ⟨room_within h.image h.live h.off,.inr ⟨rfl,by omega⟩⟩
    · obtain ⟨hnone,hn⟩ := hs.2.resolve_left hw
      have hbig : ¬(d.file f).off+n ≤ MAXFILE*BSIZE := fun hfit => by
        rw [fitting, if_pos hfit] at hnone
        omega
      rw [AsOneWrite, if_neg hbig, hnone]
      exact ⟨rfl,rfl,by simp [slice_nil]⟩

/-- The calls that processes make on open files; `pass` is a pass of some `filewrite`. -/
inductive Op where
  | opens (f i : ℕ) (readable writable : Bool)
  | close (f : ℕ)
  | read (f n : ℕ)
  | pass (f : ℕ) (src : List Byte)

structure State where
  disk : Disk
  stopped : Option Stop

def State.finish {α : Type} (s : State) : Except Stop (α × Disk) → State
  | .ok (_,d) => { s with disk := d }
  | .error e => { s with stopped := some e }

def State.isOpen (s : State) (f : ℕ) : Prop := s.stopped = none ∧ (s.disk.file f).type = .inode

instance (s : State) (f : ℕ) : Decidable (s.isOpen f) := inferInstanceAs (Decidable (_ ∧ _))

def step (s : State) : Op → Option (State × List Unit)
  | .opens f i r w =>
    if s.stopped = none ∧ (s.disk.file f).type = .none ∧ i < s.disk.store.sb.ninodes ∧
        (s.disk.store.mem i).type ≠ 0 ∧ (s.disk.store.mem i).type ≠ T_DEV then
      some ({ s with disk := s.disk.setFile f ⟨.inode,r,w,i,0⟩ },[])
    else none
  | .close f =>
    if s.isOpen f then some ({ s with disk := s.disk.setFile f { s.disk.file f with type := .none } },[])
      else none
  | .read f n =>
    if s.isOpen f ∧ n < WORD then some (s.finish (run exec (fileread f n) s.disk),[]) else none
  | .pass f src =>
    if s.isOpen f ∧ (s.disk.file f).writable = true ∧ src.length ≤ CHUNK then
      some (s.finish (run exec (pass f src) s.disk),[])
    else none

def closed : File := ⟨.none,false,false,0,0⟩

def files (s : Store) : System State Op Unit := ⟨⟨⟨s,fun _ => closed⟩,none⟩,step⟩

def Consistent (d : Disk) : Prop := Image d.store ∧ ∀ f, (d.file f).type = .inode → Steady d f

theorem keeps_consistent (h : Consistent d) (hk : Keeps f d e) : Consistent e := by
  refine ⟨hk.self.image,fun g hg => ?_⟩
  by_cases hgf : g = f
  · rw [hgf]
    exact hk.self
  · rw [hk.file g hgf] at hg
    exact hk.others g hgf (h.2 g hg)

theorem set_consistent {x : File} (h : Consistent d)
    (hx : x.type = .inode → Steady (d.setFile f x) f) : Consistent (d.setFile f x) := by
  refine ⟨h.1,fun g hg => ?_⟩
  by_cases hgf : g = f
  · rw [hgf, set_file_self] at hg
    rw [hgf]
    exact hx hg
  · rw [set_file_other d x hgf] at hg
    exact steady_same (h.2 g hg) rfl (set_file_other d x hgf)

theorem finish_consistent {α : Type} {s : State} {p : FileProg α} {E : Stop → Prop} (h : Consistent s.disk)
    (hp : wp exec p (fun _ e => Keeps f s.disk e) E s.disk) :
    Consistent (s.finish (run exec p s.disk)).disk := by
  rw [wp] at hp
  cases hrun : run exec p s.disk with
  | ok r =>
    rw [hrun] at hp
    exact keeps_consistent h hp
  | error e => exact h

theorem pass_keeps (h : Steady d f) (hn : src.length < WORD) :
    wp exec (pass f src) (fun _ e => Keeps f d e) (fun _ => True) d := by
  by_cases hfit : (d.file f).off+src.length ≤ MAXFILE*BSIZE
  · exact wp_mono (pass_fits _ h (Nat.le_refl _) hfit) (fun _ _ hp => puts_keeps h hp.2.1 hfit)
      (fun _ _ => trivial)
  · refine wp_mono (pass_refused h hn (by omega)) ?_ (fun _ _ => trivial)
    rintro _ _ ⟨-,rfl⟩
    exact keeps_refl h

theorem step_consistent {s s' : State} {op : Op} {o : List Unit} (h : Consistent s.disk)
    (hs : step s op = some (s',o)) : Consistent s'.disk := by
  cases op with
  | opens f i r w =>
    rw [step] at hs
    split at hs
    · rename_i hmay
      obtain ⟨-,-,hi,htype,hdev⟩ := hmay
      cases hs
      refine set_consistent h fun _ => ⟨h.1,?_,?_,?_⟩ <;> rw [set_file_self]
      exacts [⟨hi,htype⟩,hdev,Nat.zero_le _]
    · cases hs
  | close f =>
    rw [step] at hs
    split at hs
    · cases hs
      exact set_consistent h nofun
    · cases hs
  | read f n =>
    rw [step] at hs
    split at hs
    · rename_i hmay
      cases hs
      exact finish_consistent h (fileread_keeps (h.2 f hmay.1.2) hmay.1.2 hmay.2)
    · cases hs
  | pass f src =>
    rw [step] at hs
    split at hs
    · rename_i hmay
      cases hs
      refine finish_consistent h (pass_keeps (h.2 f hmay.1.2) ?_)
      have := hmay.2.2
      simp only [CHUNK, WORD] at this ⊢
      omega
    · cases hs

theorem files_consistent {s0 : Store} (h0 : Image s0) {tr : List Unit} {s : State}
    (h : Run (files s0) (fun _ _ => True) tr s) : Consistent s.disk :=
  run_invariant (fun _ s => Consistent s.disk) ⟨h0,fun _ hf => (by cases hf)⟩
    (fun _ _ _ _ _ _ hs _ hnext => step_consistent hs hnext) h

/-- In whatever order processes read and write: the offset of an open file is not behind
its end, `filewrite` is not short, and it writes what one `writei` does if and only if it
is served. -/
theorem filewrite_as_one_write {s0 : Store} (h0 : Image s0) {tr : List Unit} {s : State}
    (h : Run (files s0) (fun _ _ => True) tr s) {f : ℕ} (hf : (s.disk.file f).type = .inode)
    (addr : ℕ → Byte) (n : ℕ) :
    (s.disk.file f).off ≤ (s.disk.store.mem (s.disk.file f).ip).size ∧
      run exec (filewrite f addr n) s.disk ≠ .error .shortFilewrite ∧
      ((∃ r e, run exec (filewrite f addr n) s.disk = .ok (r,e) ∧ AsOneWrite s.disk f addr n r e) ↔
        Served s.disk f n) :=
  have hs := (files_consistent h0 h).2 f hf
  ⟨hs.off,filewrite_served hs hf⟩

def opened : State := ⟨⟨smallDisk,Function.update (fun _ => closed) 0 ⟨.inode,true,true,1,0⟩⟩,none⟩

theorem opened_run : Run (files smallDisk) (fun _ _ => True) [] opened :=
  .step (l := .opens 0 1 true true) .boot trivial rfl

/-- Two chunks fit into the blocks that are free. -/
theorem filewrite_as_one_write_small : Served opened.disk 0 2000 ∧
    ∃ r e, run exec (filewrite 0 (fun _ => 7) 2000) opened.disk = .ok (r,e) ∧
      AsOneWrite opened.disk 0 (fun _ => 7) 2000 r e := by
  have hs : Served opened.disk 0 2000 := ⟨by decide +kernel,.inl rfl⟩
  exact ⟨hs,(filewrite_as_one_write small_image opened_run rfl (fun _ => 7) 2000).2.2.mpr hs⟩

/-- With 12 blocks free a call that needs 15 of them stops the kernel. -/
theorem filewrite_out_of_blocks : Image smallDisk ∧ Run (files smallDisk) (fun _ _ => True) [] opened ∧
    (opened.disk.file 0).off+7000 ≤ MAXFILE*BSIZE ∧
    run exec (filewrite 0 (fun _ => 7) 7000) opened.disk = .error (.fs .ballocOutOfBlocks) := by
  have hs := (files_consistent small_image opened_run).2 0 rfl
  refine ⟨small_image,opened_run,by decide,?_⟩
  rcases filewrite_cases (fun _ => 7) 7000 hs rfl rfl with ⟨hr,-⟩ | ⟨-,hrun⟩
  · exact absurd hr (by decide +kernel)
  · exact hrun

end Xv6.FileWrites

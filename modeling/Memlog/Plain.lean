/-
# The plain stream and the buffered one

`src/src/lib/stream.{h,cpp}`: a plain stream hands each write to `fwrite` at once and
each flush to `fflush`; a buffered one (`StreamBuffered`) keeps a buffer. What the C
library does is given with each operation (`Io`); for `fflush` only whether it fails
(`ferror`). `accepted` has the bytes that `fwrite` has accepted for each file, and
`synced` how many of them `fflush` has handed on.

No constructor sets the counters, and the one of `StreamBuffered` leaves `bufferSize`
unset and allocates a single character. So the runs here do not start at a constructor:
they start from any two streams at the same file, with whatever in their counters, the
buffer of the one empty and of the size it goes by (`Fresh`).

The same operations on both give every file the same bytes, in the same order, but for
what the buffered stream still has in its buffer for the file it is at, as long as
neither counts a write error (`buffered_agrees`). The destructor is the one of the
plain stream for both, and does not look at the buffer: a buffered stream that is
destroyed has lost bytes exactly if some were written after the last flush or change of
file (`destroy_loses_iff`).

Key definitions: `Stream`, `StreamBuffered.pending`, `Stream.Agrees`, `Stream.Fresh`,
`Stream.Unflushed`.
Key theorems: `Stream.Agrees.step`, `Stream.buffered_agrees`, `Stream.destroy_loses_iff`.
-/
import Memlog.Stream

namespace Memlog

/-- The members of `Stream`, and what each file has accepted. -/
structure Stream (F : Type) where
  fileHandle : Option F
  stats : StreamStats
  accepted : F → List UInt8
  synced : F → ℕ

namespace Stream

variable {F : Type} [DecidableEq F]

def flush (s : Stream F) (io : Io) : ℤ × Stream F :=
  match s.fileHandle with
  | none => (0, s)
  | some file =>
    (0, if io.ferror then s else { s with synced := Function.update s.synced file (s.accepted file).length })

/-- `write`. There is no check for a file: `fwrite` gets a null pointer without one. -/
def write (s : Stream F) (data : List UInt8) (io : Io) : Except Fault (Stream F) :=
  match s.fileHandle with
  | none => .error .bounds
  | some file =>
    let s := { s with accepted := Function.update s.accepted file (s.accepted file ++ data.take io.written) }
    if io.written ≠ data.length ∨ io.ferror then
      .ok { s with stats.ioWriteError := s.stats.ioWriteError + 1 }
    else .ok s

def setFile (s : Stream F) (file : Option F) (io : Io) : ℤ × Stream F :=
  if file = s.fileHandle then (0, s)
  else
    let s := if s.fileHandle.isSome then (s.flush io).2 else s
    (0, { s with fileHandle := file })

def cleanup (s : Stream F) (io : Io) : Stream F := { (s.flush io).2 with fileHandle := none }

/-- `~Stream`. -/
def destroy (s : Stream F) (io : Io) : Stream F := s.cleanup io

/-- One operation. -/
def step (s : Stream F) (op : StreamOp F) (io : Io) : Except Fault (Stream F) :=
  match op with
  | .write data => s.write data io
  | .flush => .ok (s.flush io).2
  | .setFile file => .ok (s.setFile file io).2

/-- Operations one after the other. -/
def run (s : Stream F) : List (StreamOp F × Io) → Except Fault (Stream F)
  | [] => .ok s
  | (op, io) :: ops => do (← s.step op io).run ops

end Stream

namespace StreamBuffered

variable {F : Type} [DecidableEq F]

/-- `~StreamBuffered` and `~Stream`. When `cleanup` is called the object is a `Stream`: its
`flush` has nothing of the buffer. -/
def destroy (s : StreamBuffered F) : StreamBuffered F := { s with fileHandle := none }

/-- What the buffer holds for a file. -/
def pending (s : StreamBuffered F) (file : F) : List UInt8 :=
  if s.fileHandle = some file then s.buffer.take s.bufferIdx else []

/-! ### What the operations leave -/

section Leaves

variable {s : StreamBuffered F} {io : Io} {data : List UInt8} {file : F}

theorem pending_of_file (h : s.fileHandle = some file) :
    s.pending file = s.buffer.take s.bufferIdx := if_pos h

theorem pending_of_empty (h : s.bufferIdx = 0) (file : F) : s.pending file = [] := by
  unfold pending
  rw [h]
  split_ifs <;> rfl

theorem held_eq (h : s.fileHandle = some file) : s.held file = s.accepted file ++ s.pending file := by
  rw [held, pending_of_file h]

theorem flush_clean (hfile : s.fileHandle = some file)
    (h : (s.flush io).2.stats.ioWriteError = s.stats.ioWriteError) : s.Flushes io := by
  by_contra hnot
  have herror := (not_flushes_iff hfile).mp hnot
  unfold flush at h
  simp [hfile, availableData, if_pos herror] at h

theorem flush_accepted_of_ne {file' : F} (hfile : s.fileHandle = some file) (hne : file' ≠ file) :
    (s.flush io).2.accepted file' = s.accepted file' := by
  unfold flush
  rw [hfile]
  dsimp only
  split_ifs <;> exact Function.update_of_ne hne _ _

/-- A write counts what its flush does. -/
theorem write_stats {r : Bool × StreamBuffered F} (hlen : data.length ≤ s.buffer.length)
    (hok : s.write data io = .ok r) :
    r.2.stats = (s.prepared data.length io).stats := by
  rw [write_eq hlen] at hok
  obtain ⟨s', hcopy, hr⟩ := Loop.bind_eq_ok.mp hok
  obtain rfl := Except.ok.inj hr
  unfold copy at hcopy
  split_ifs at hcopy
  exact (Except.ok.inj hcopy) ▸ rfl

end Leaves

end StreamBuffered

/-! ### The two streams -/

namespace Stream

variable {F : Type} [DecidableEq F]

/-- The files have got the same, but for what is in the buffer. -/
structure Agrees (p : Stream F) (b : StreamBuffered F) : Prop where
  file : p.fileHandle = b.fileHandle
  within : b.bufferIdx ≤ b.buffer.length
  detached : b.fileHandle = none → b.bufferIdx = 0
  accepted : ∀ f, p.accepted f = b.accepted f ++ b.pending f

/-- Two streams at the same file, with files of the same contents and nothing in the
buffer. -/
structure Fresh (p : Stream F) (b : StreamBuffered F) : Prop where
  file : p.fileHandle = b.fileHandle
  empty : b.bufferIdx = 0
  accepted : p.accepted = b.accepted

section Agrees

variable {p p' : Stream F} {b b' : StreamBuffered F} {io io' : Io} {data : List UInt8} {file : F}

theorem Fresh.agrees (h : Fresh p b) : Agrees p b where
  file := h.file
  within := h.empty ▸ Nat.zero_le _
  detached _ := h.empty
  accepted f := by rw [h.accepted, StreamBuffered.pending_of_empty h.empty, List.append_nil]

theorem flush_accepted (s : Stream F) (io : Io) : (s.flush io).2.accepted = s.accepted ∧
    (s.flush io).2.fileHandle = s.fileHandle ∧ (s.flush io).2.stats = s.stats := by
  unfold flush
  split
  · exact ⟨rfl, rfl, rfl⟩
  · split_ifs <;> exact ⟨rfl, rfl, rfl⟩

theorem flush_synced {file : F} (h : p.fileHandle = some file) (hio : io.ferror = false) :
    (p.flush io).2.synced file = (p.accepted file).length := by
  unfold flush
  simp [h, hio]

theorem setFile_accepted (s : Stream F) (file : Option F) (io : Io) :
    (s.setFile file io).2.accepted = s.accepted ∧ (s.setFile file io).2.fileHandle = file := by
  unfold setFile
  split_ifs with heq
  · exact ⟨rfl, heq.symm⟩
  · exact ⟨(s.flush_accepted io).1, rfl⟩
  · exact ⟨rfl, rfl⟩

theorem Agrees.plain_flush (h : Agrees p b) (io : Io) : Agrees (p.flush io).2 b := by
  obtain ⟨haccepted, hfile, -⟩ := p.flush_accepted io
  exact ⟨hfile.trans h.file, h.within, h.detached, fun f => haccepted ▸ h.accepted f⟩

theorem Agrees.flush (h : Agrees p b) (hclean : (b.flush io).2.stats.ioWriteError = b.stats.ioWriteError) :
    Agrees p (b.flush io).2 ∧ (b.flush io).2.bufferIdx = 0 := by
  cases hb : b.fileHandle with
  | none =>
    have heq : (b.flush io).2 = b := by
      unfold StreamBuffered.flush
      rw [hb]
    rw [heq]
    exact ⟨h, h.detached hb⟩
  | some file =>
    have hflushes := StreamBuffered.flush_clean hb hclean
    have hzero := StreamBuffered.flush_bufferIdx_of_flushes hflushes
    have hfile : (b.flush io).2.fileHandle = some file := StreamBuffered.flush_fileHandle.trans hb
    refine ⟨⟨?_, ?_, fun _ => hzero, fun f => ?_⟩, hzero⟩
    · rw [h.file, hb, hfile]
    · rw [hzero]
      exact Nat.zero_le _
    · by_cases hf : f = file
      · rw [hf, ← StreamBuffered.held_eq hfile, StreamBuffered.flush_held_of_flushes hb hflushes,
          StreamBuffered.held_eq hb, h.accepted]
      · rw [StreamBuffered.flush_accepted_of_ne hb hf, StreamBuffered.pending_of_empty hzero, h.accepted,
          StreamBuffered.pending, if_neg fun heq => hf (Option.some.inj (heq.symm.trans hb))]

theorem write_clean (hok : p.write data io = .ok p') (hclean : p'.stats.ioWriteError = p.stats.ioWriteError) :
    ∃ file, p.fileHandle = some file ∧ p'.fileHandle = some file ∧
      p'.accepted = Function.update p.accepted file (p.accepted file ++ data) := by
  unfold write at hok
  split at hok
  · cases hok
  · rename_i file hfile
    dsimp only at hok
    split_ifs at hok with herror
    · obtain rfl := Except.ok.inj hok
      simp at hclean
    · obtain rfl := Except.ok.inj hok
      obtain ⟨hwritten, -⟩ := not_or.mp herror
      refine ⟨file, hfile, hfile, ?_⟩
      rw [not_not.mp hwritten, List.take_length]

theorem Agrees.write {r : Bool × StreamBuffered F} (h : Agrees p b) (hlen : data.length ≤ b.buffer.length)
    (hp : p.write data io = .ok p') (hb : b.write data io' = .ok r)
    (hclean : p'.stats.ioWriteError = p.stats.ioWriteError) :
    Agrees p' r.2 ∧ (r.2.bufferIdx = 0 ↔ b.bufferIdx = 0 ∧ data = []) := by
  obtain ⟨file, hfile, hfile', haccepted⟩ := write_clean hp hclean
  have hbfile : b.fileHandle = some file := h.file.symm.trans hfile
  obtain ⟨-, hidx, hle, hrfile, hraccepted, -⟩ := StreamBuffered.write_spec h.within hlen hb
  have hheld := StreamBuffered.write_held hbfile h.within hlen hb
  have hrfile' : r.2.fileHandle = some file := hrfile.trans hbfile
  have hlength := StreamBuffered.write_length h.within hlen hb
  refine ⟨⟨hfile'.trans hrfile'.symm, hlength ▸ hle, fun hnone => ?_, fun f => ?_⟩, ?_⟩
  · rw [hrfile'] at hnone
    cases hnone
  · by_cases hf : f = file
    · rw [hf, haccepted, Function.update_self, ← StreamBuffered.held_eq hrfile', hheld,
        StreamBuffered.held_eq hbfile, h.accepted]
    · have hother : r.2.accepted f = b.accepted f := by
        rw [hraccepted, StreamBuffered.prepared]
        split_ifs
        · rfl
        · exact StreamBuffered.flush_accepted_of_ne hbfile hf
      have hpending : ∀ s : StreamBuffered F, s.fileHandle = some file → s.pending f = [] := by
        intro s hs
        rw [StreamBuffered.pending, if_neg fun heq => hf (Option.some.inj (heq.symm.trans hs))]
      rw [haccepted, Function.update_of_ne hf, hother, hpending r.2 hrfile', h.accepted, hpending b hbfile]
  · rw [hidx, Nat.add_eq_zero_iff, List.length_eq_zero_iff, StreamBuffered.prepared]
    split_ifs with hroom
    · rfl
    · -- an empty write finds room
      have hne : data ≠ [] := by
        rintro rfl
        exact hroom ((StreamBuffered.bufferHasRoom_iff h.within 0).mpr h.within)
      simp [hne]

theorem Agrees.moves (h : Agrees p b) (hzero : b.bufferIdx = 0) (file : Option F) :
    Agrees { p with fileHandle := file } { b with fileHandle := file } where
  file := rfl
  within := h.within
  detached _ := hzero
  accepted f := by
    have haccepted := h.accepted f
    rw [StreamBuffered.pending_of_empty hzero] at haccepted
    rw [StreamBuffered.pending_of_empty (s := { b with fileHandle := file }) hzero]
    exact haccepted

theorem Agrees.setFile (h : Agrees p b) (file : Option F)
    (hclean : (b.setFile file io').2.stats.ioWriteError = b.stats.ioWriteError) :
    Agrees (p.setFile file io).2 (b.setFile file io').2 ∧
      (file ≠ p.fileHandle → (b.setFile file io').2.bufferIdx = 0) := by
  unfold Stream.setFile StreamBuffered.setFile at *
  rw [← h.file] at hclean ⊢
  split_ifs at hclean ⊢ with heq hsome
  · exact ⟨h, fun hne => absurd heq hne⟩
  · obtain ⟨hflush, hzero⟩ := (h.plain_flush io).flush hclean
    exact ⟨hflush.moves hzero file, fun _ => hzero⟩
  · have hzero := h.detached (by rw [← h.file]; simpa using hsome)
    exact ⟨h.moves hzero file, fun _ => hzero⟩

end Agrees

/-- What is written while the stream is at a file. -/
def writtenTo : Option F → List (StreamOp F) → F → List UInt8
  | _, [], _ => []
  | file, .write data :: ops, f => (if file = some f then data else []) ++ writtenTo file ops f
  | file, .flush :: ops, f => writtenTo file ops f
  | _, .setFile file :: ops, f => writtenTo file ops f

/-- Whether something has been written since the last flush or change of file. -/
def Unflushed : Option F → Bool → List (StreamOp F) → Bool
  | _, unflushed, [] => unflushed
  | file, unflushed, .write data :: ops => Unflushed file (unflushed || !data.isEmpty) ops
  | file, _, .flush :: ops => Unflushed file false ops
  | file, unflushed, .setFile file' :: ops => Unflushed file' (unflushed && decide (file' = file)) ops

/-! ### Counting errors -/

section Counting

variable {p p' : Stream F} {b b' : StreamBuffered F} {op : StreamOp F} {io : Io}

/-- A counter that has been counted up at most `n` times, and may have wrapped. -/
def CountsUpTo (n : ℕ) (x y : UInt32) : Prop := ∃ k ≤ n, y.toNat = (x.toNat + k) % 4294967296

theorem CountsUpTo.refl (n : ℕ) (x : UInt32) : CountsUpTo n x x :=
  ⟨0, Nat.zero_le n, (Nat.mod_eq_of_lt x.toNat_lt).symm⟩

theorem CountsUpTo.succ (x : UInt32) : CountsUpTo 1 x (x + 1) := ⟨1, le_rfl, UInt32.toNat_add x 1⟩

theorem CountsUpTo.trans {n m : ℕ} {x y z : UInt32} (h : CountsUpTo n x y) (h' : CountsUpTo m y z) :
    CountsUpTo (n + m) x z := by
  obtain ⟨k, hk, hy⟩ := h
  obtain ⟨k', hk', hz⟩ := h'
  exact ⟨k + k', Nat.add_le_add hk hk', by omega⟩

/-- A counter that comes back to where it was has not been counted up, if that was too
short a time for it to wrap. -/
theorem CountsUpTo.antisymm {n m : ℕ} {x y : UInt32} (h : CountsUpTo n x y) (h' : CountsUpTo m y x)
    (hlt : n + m < 4294967296) : y = x := by
  obtain ⟨k, hk, hy⟩ := h
  obtain ⟨k', hk', hx⟩ := h'
  have hlt := x.toNat_lt
  exact UInt32.toNat_inj.mp (by omega)

theorem step_counts (h : p.step op io = .ok p') :
    CountsUpTo 1 p.stats.ioWriteError p'.stats.ioWriteError := by
  cases op with
  | write data =>
    rw [step, write] at h
    split at h
    · cases h
    · dsimp only at h
      split_ifs at h
      · exact (Except.ok.inj h) ▸ .succ _
      · exact (Except.ok.inj h) ▸ .refl _ _
  | flush =>
    obtain rfl := Except.ok.inj h
    rw [(p.flush_accepted io).2.2]
    exact .refl _ _
  | setFile file =>
    obtain rfl := Except.ok.inj h
    unfold setFile
    split_ifs
    · exact .refl _ _
    · dsimp only
      rw [(p.flush_accepted io).2.2]
      exact .refl _ _
    · exact .refl _ _

theorem buffered_flush_counts (b : StreamBuffered F) (io : Io) :
    CountsUpTo 1 b.stats.ioWriteError (b.flush io).2.stats.ioWriteError := by
  unfold StreamBuffered.flush
  split
  · exact .refl _ _
  · dsimp only
    split_ifs
    · exact .succ _
    · exact .refl _ _

theorem buffered_step_counts (h : b.step op io = .ok b') :
    CountsUpTo 1 b.stats.ioWriteError b'.stats.ioWriteError := by
  cases op with
  | write data =>
    obtain ⟨r, hwrite, hr⟩ := Loop.bind_eq_ok.mp h
    obtain rfl := Except.ok.inj hr
    rcases Nat.lt_or_ge b.buffer.length data.length with hlt | hle
    · rw [StreamBuffered.write_throws hlt] at hwrite
      exact (Except.ok.inj hwrite) ▸ .refl _ _
    · rw [StreamBuffered.write_stats hle hwrite, StreamBuffered.prepared]
      split_ifs
      · exact .refl _ _
      · exact buffered_flush_counts b io
  | flush =>
    obtain rfl := Except.ok.inj h
    exact buffered_flush_counts b io
  | setFile file =>
    obtain rfl := Except.ok.inj h
    unfold StreamBuffered.setFile
    split_ifs
    · exact .refl _ _
    · exact buffered_flush_counts b io
    · exact .refl _ _

theorem run_counts : ∀ {ops : List (StreamOp F × Io)} {p : Stream F}, p.run ops = .ok p' →
    CountsUpTo ops.length p.stats.ioWriteError p'.stats.ioWriteError
  | [], p, h => (Except.ok.inj h) ▸ .refl _ _
  | (op, io) :: ops, p, h => by
    obtain ⟨p1, hstep, h⟩ := Loop.bind_eq_ok.mp h
    rw [List.length_cons, Nat.add_comm]
    exact (step_counts hstep).trans (run_counts h)

theorem buffered_run_counts : ∀ {ops : List (StreamOp F × Io)} {b : StreamBuffered F}, b.run ops = .ok b' →
    CountsUpTo ops.length b.stats.ioWriteError b'.stats.ioWriteError
  | [], b, h => (Except.ok.inj h) ▸ .refl _ _
  | (op, io) :: ops, b, h => by
    obtain ⟨b1, hstep, h⟩ := Loop.bind_eq_ok.mp h
    rw [List.length_cons, Nat.add_comm]
    exact (buffered_step_counts hstep).trans (buffered_run_counts h)

theorem step_clean {p1 : Stream F} {ops : List (StreamOp F × Io)} (hstep : p.step op io = .ok p1)
    (hrun : p1.run ops = .ok p') (hlen : ops.length + 1 < 4294967296)
    (hclean : p'.stats.ioWriteError = p.stats.ioWriteError) :
    p1.stats.ioWriteError = p.stats.ioWriteError :=
  (step_counts hstep).antisymm (hclean ▸ run_counts hrun) (by omega)

theorem buffered_step_clean {b1 : StreamBuffered F} {ops : List (StreamOp F × Io)}
    (hstep : b.step op io = .ok b1) (hrun : b1.run ops = .ok b')
    (hlen : ops.length + 1 < 4294967296) (hclean : b'.stats.ioWriteError = b.stats.ioWriteError) :
    b1.stats.ioWriteError = b.stats.ioWriteError :=
  (buffered_step_counts hstep).antisymm (hclean ▸ buffered_run_counts hrun) (by omega)

end Counting

/-! ### Runs of both -/

section Runs

variable {p p' : Stream F} {b b' : StreamBuffered F} {op : StreamOp F} {io io' : Io}

/-- **The same operation on both**, when none counts an error. -/
theorem Agrees.step (h : Agrees p b)
    (hfit : ∀ data, op = .write data → data.length ≤ b.buffer.length) (hp : p.step op io = .ok p')
    (hb : b.step op io' = .ok b') (hpclean : p'.stats.ioWriteError = p.stats.ioWriteError)
    (hbclean : b'.stats.ioWriteError = b.stats.ioWriteError) :
    Agrees p' b' ∧ ∀ ops, Unflushed p.fileHandle (decide (b.bufferIdx ≠ 0)) (op :: ops) =
      Unflushed p'.fileHandle (decide (b'.bufferIdx ≠ 0)) ops := by
  cases op with
  | write data =>
    obtain ⟨r, hwrite, hr⟩ := Loop.bind_eq_ok.mp hb
    obtain rfl := Except.ok.inj hr
    obtain ⟨h', hzero⟩ := h.write (hfit data rfl) hp hwrite hpclean
    obtain ⟨file, hfile, hfile', -⟩ := write_clean hp hpclean
    refine ⟨h', fun ops => ?_⟩
    rw [Unflushed, hfile, hfile']
    congr 1
    rw [Bool.eq_iff_iff]
    simp [hzero]
  | flush =>
    obtain rfl := Except.ok.inj hp
    obtain rfl := Except.ok.inj hb
    obtain ⟨h', hzero⟩ := (h.plain_flush io).flush hbclean
    refine ⟨h', fun ops => ?_⟩
    rw [Unflushed, (p.flush_accepted io).2.1, hzero]
    rfl
  | setFile file =>
    obtain rfl := Except.ok.inj hp
    obtain rfl := Except.ok.inj hb
    obtain ⟨h', hzero⟩ := h.setFile file hbclean
    refine ⟨h', fun ops => ?_⟩
    rw [Unflushed, (p.setFile_accepted file io).2]
    by_cases heq : file = p.fileHandle
    · have hsame : (b.setFile file io').2 = b := by
        rw [StreamBuffered.setFile, if_pos (heq.trans h.file)]
      rw [hsame, decide_eq_true heq, Bool.and_true]
    · rw [hzero heq, decide_eq_false heq, Bool.and_false]
      rfl

theorem step_written (h : p.step op io = .ok p') (hclean : p'.stats.ioWriteError = p.stats.ioWriteError)
    (ops : List (StreamOp F)) (f : F) :
    p.accepted f ++ writtenTo p.fileHandle (op :: ops) f =
      p'.accepted f ++ writtenTo p'.fileHandle ops f := by
  cases op with
  | write data =>
    obtain ⟨file, hfile, hfile', haccepted⟩ := write_clean h hclean
    rw [writtenTo, hfile, hfile', haccepted]
    by_cases hf : f = file
    · rw [hf, if_pos rfl, Function.update_self, List.append_assoc]
    · rw [if_neg fun heq => hf (Option.some.inj heq).symm, Function.update_of_ne hf, List.nil_append]
  | flush =>
    obtain rfl := Except.ok.inj h
    obtain ⟨haccepted, hfile, -⟩ := p.flush_accepted io
    rw [writtenTo, haccepted, hfile]
  | setFile file =>
    obtain rfl := Except.ok.inj h
    obtain ⟨haccepted, hfile⟩ := p.setFile_accepted file io
    rw [writtenTo, haccepted, hfile]

theorem run_written : ∀ {ops : List (StreamOp F × Io)} {p : Stream F},
    p.run ops = .ok p' → ops.length < 4294967296 →
    p'.stats.ioWriteError = p.stats.ioWriteError → ∀ f,
      p'.accepted f = p.accepted f ++ writtenTo p.fileHandle (ops.map Prod.fst) f
  | [], p, h, _, _, f => by
    obtain rfl := Except.ok.inj h
    exact (List.append_nil _).symm
  | (op, io) :: ops, p, h, hlen, hclean, f => by
    obtain ⟨p1, hstep, h⟩ := Loop.bind_eq_ok.mp h
    rw [List.length_cons] at hlen
    have h1 := step_clean hstep h hlen hclean
    rw [run_written h (by omega) (hclean.trans h1.symm) f, List.map_cons, step_written hstep h1]

/-- **A run on both** that counts no error. -/
theorem Agrees.run : ∀ {ops : List (StreamOp F × Io × Io)} {p : Stream F} {b : StreamBuffered F}, Agrees p b →
    ops.length < 4294967296 → (∀ x ∈ ops, ∀ data, x.1 = .write data → data.length ≤ b.buffer.length) →
    p.run (ops.map fun x => (x.1, x.2.1)) = .ok p' → b.run (ops.map fun x => (x.1, x.2.2)) = .ok b' →
    p'.stats.ioWriteError = p.stats.ioWriteError → b'.stats.ioWriteError = b.stats.ioWriteError →
    Agrees p' b' ∧ Unflushed p.fileHandle (decide (b.bufferIdx ≠ 0)) (ops.map Prod.fst) =
      decide (b'.bufferIdx ≠ 0)
  | [], p, b, h, _, _, hp, hb, _, _ => by
    obtain rfl := Except.ok.inj hp
    obtain rfl := Except.ok.inj hb
    exact ⟨h, rfl⟩
  | (op, io, io') :: ops, p, b, h, hlen, hfit, hp, hb, hpclean, hbclean => by
    obtain ⟨p1, hpstep, hp⟩ := Loop.bind_eq_ok.mp hp
    obtain ⟨b1, hbstep, hb⟩ := Loop.bind_eq_ok.mp hb
    rw [List.length_cons] at hlen
    have hp1 := step_clean hpstep hp (by rw [List.length_map]; exact hlen) hpclean
    have hb1 := buffered_step_clean hbstep hb (by rw [List.length_map]; exact hlen) hbclean
    obtain ⟨h1, hunflushed⟩ := h.step (hfit _ List.mem_cons_self) hpstep hbstep hp1 hb1
    have hsize := (StreamBuffered.step_within h.within hbstep).1
    obtain ⟨h', hrest⟩ := Agrees.run h1 (by omega) (fun x hx data hdata => by
      rw [hsize]
      exact hfit x (List.mem_cons_of_mem _ hx) data hdata) hp hb (hpclean.trans hp1.symm)
        (hbclean.trans hb1.symm)
    exact ⟨h', (hunflushed _).trans hrest⟩

theorem Fresh.run {ops : List (StreamOp F × Io × Io)} (h : Fresh p b)
    (hlen : ops.length < 4294967296)
    (hfit : ∀ x ∈ ops, ∀ data, x.1 = .write data → data.length ≤ b.buffer.length)
    (hp : p.run (ops.map fun x => (x.1, x.2.1)) = .ok p')
    (hb : b.run (ops.map fun x => (x.1, x.2.2)) = .ok b')
    (hpclean : p'.stats.ioWriteError = p.stats.ioWriteError)
    (hbclean : b'.stats.ioWriteError = b.stats.ioWriteError) :
    Agrees p' b' ∧ Unflushed p.fileHandle false (ops.map Prod.fst) = decide (b'.bufferIdx ≠ 0) ∧
      ∀ f, p'.accepted f = p.accepted f ++ writtenTo p.fileHandle (ops.map Prod.fst) f := by
  obtain ⟨hagrees, hunflushed⟩ := h.agrees.run hlen hfit hp hb hpclean hbclean
  rw [h.empty] at hunflushed
  refine ⟨hagrees, hunflushed, fun f => ?_⟩
  have hwritten := run_written hp (by rw [List.length_map]; exact hlen) hpclean f
  rwa [List.map_map] at hwritten

/-- **Both streams give every file the same**: what was written while they were at it,
but for what the buffered one still has in its buffer. -/
theorem buffered_agrees {ops : List (StreamOp F × Io × Io)} (h : Fresh p b)
    (hlen : ops.length < 4294967296)
    (hfit : ∀ x ∈ ops, ∀ data, x.1 = .write data → data.length ≤ b.buffer.length)
    (hp : p.run (ops.map fun x => (x.1, x.2.1)) = .ok p')
    (hb : b.run (ops.map fun x => (x.1, x.2.2)) = .ok b')
    (hpclean : p'.stats.ioWriteError = p.stats.ioWriteError)
    (hbclean : b'.stats.ioWriteError = b.stats.ioWriteError) (f : F) :
    p'.accepted f = p.accepted f ++ writtenTo p.fileHandle (ops.map Prod.fst) f ∧
      b'.accepted f ++ b'.pending f = b.accepted f ++ writtenTo b.fileHandle (ops.map Prod.fst) f := by
  obtain ⟨hagrees, -, hwritten⟩ := h.run hlen hfit hp hb hpclean hbclean
  exact ⟨hwritten f, by rw [← hagrees.accepted f, hwritten f, h.accepted, h.file]⟩

/-- A plain stream and a buffered one with four bytes of buffer, at a file that has got a
byte before; one has counted an error, and the other is about to wrap its counter. -/
def freshPlain : Stream Bool := ⟨some false, ⟨0, 1, 0⟩, fun f => if f then [] else [9], fun _ => 0⟩

def freshBuffered : StreamBuffered Bool :=
  ⟨some false, [0, 0, 0, 0], by decide, 0, ⟨0, 4294967295, 7⟩, fun f => if f then [] else [9]⟩

theorem fresh_streams : Fresh freshPlain freshBuffered := ⟨rfl, rfl, rfl⟩

/-- Three writes to two files; the last is still in the buffer. -/
def threeWrites : List (StreamOp Bool × Io × Io) :=
  [(.write [1, 2, 3], ⟨3, false⟩, ⟨0, false⟩), (.write [4, 5], ⟨2, false⟩, ⟨3, false⟩),
    (.setFile (some true), ⟨0, false⟩, ⟨2, false⟩), (.write [6], ⟨1, false⟩, ⟨0, false⟩)]

theorem threeWrites_run : ∃ (p : Stream Bool) (b : StreamBuffered Bool),
    freshPlain.run (threeWrites.map fun x => (x.1, x.2.1)) = .ok p ∧
    freshBuffered.run (threeWrites.map fun x => (x.1, x.2.2)) = .ok b ∧
    p.stats.ioWriteError = freshPlain.stats.ioWriteError ∧
      b.stats.ioWriteError = freshBuffered.stats.ioWriteError ∧
    b.accepted true = [] :=
  ⟨_, _, rfl, rfl, rfl, rfl, rfl⟩

theorem buffered_agrees_example : ∃ (p : Stream Bool) (b : StreamBuffered Bool),
    freshPlain.run (threeWrites.map fun x => (x.1, x.2.1)) = .ok p ∧
    freshBuffered.run (threeWrites.map fun x => (x.1, x.2.2)) = .ok b ∧
    b.accepted true = [] ∧ p.accepted true = [6] ∧ b.accepted true ++ b.pending true = [6] ∧
    p.accepted false = [9, 1, 2, 3, 4, 5] ∧ b.accepted false ++ b.pending false = [9, 1, 2, 3, 4, 5] := by
  obtain ⟨p, b, hp, hb, hpclean, hbclean, hempty⟩ := threeWrites_run
  have hall := buffered_agrees fresh_streams (by simp [threeWrites])
    (by simp [threeWrites, freshBuffered]) hp hb hpclean
    hbclean
  exact ⟨p, b, hp, hb, hempty, (hall true).1, (hall true).2, (hall false).1, (hall false).2⟩

/-- **What the destructor loses**: a plain stream has given every file what was written to
it, and hands on what it has given the file it is at; a buffered one has given every
file what was written to it if and only if nothing was written after the last flush or
change of file. -/
theorem destroy_loses_iff {ops : List (StreamOp F × Io × Io)} (h : Fresh p b)
    (hlen : ops.length < 4294967296)
    (hfit : ∀ x ∈ ops, ∀ data, x.1 = .write data → data.length ≤ b.buffer.length)
    (hp : p.run (ops.map fun x => (x.1, x.2.1)) = .ok p')
    (hb : b.run (ops.map fun x => (x.1, x.2.2)) = .ok b')
    (hpclean : p'.stats.ioWriteError = p.stats.ioWriteError)
    (hbclean : b'.stats.ioWriteError = b.stats.ioWriteError) (io : Io) :
    (∀ f, (p'.destroy io).accepted f = p.accepted f ++ writtenTo p.fileHandle (ops.map Prod.fst) f ∧
      (p'.fileHandle = some f → io.ferror = false →
        (p'.destroy io).synced f = (p.accepted f ++ writtenTo p.fileHandle (ops.map Prod.fst) f).length)) ∧
      ((∀ f, b'.destroy.accepted f = b.accepted f ++ writtenTo b.fileHandle (ops.map Prod.fst) f) ↔
        Unflushed b.fileHandle false (ops.map Prod.fst) = false) := by
  obtain ⟨hagrees, hunflushed, hwritten⟩ := h.run hlen hfit hp hb hpclean hbclean
  refine ⟨fun f => ⟨?_, fun hf hio => ?_⟩, ?_⟩
  · rw [← hwritten f, destroy, cleanup, (p'.flush_accepted io).1]
  · rw [← hwritten f, destroy, cleanup, p'.flush_synced hf hio]
  rw [← h.file, hunflushed, decide_eq_false_iff_not, not_not]
  have hsplit : ∀ f, b.accepted f ++ writtenTo p.fileHandle (ops.map Prod.fst) f =
      b'.destroy.accepted f ++ b'.pending f :=
    fun f => h.accepted ▸ (hwritten f).symm.trans (hagrees.accepted f)
  constructor
  · intro hall
    by_contra hne
    obtain ⟨f, hf⟩ := Option.ne_none_iff_exists'.mp (mt hagrees.detached hne)
    have hpending := hsplit f
    rw [← hall f, List.self_eq_append_right, StreamBuffered.pending_of_file hf] at hpending
    have hlength := congrArg List.length hpending
    rw [List.length_take, Nat.min_eq_left hagrees.within] at hlength
    exact hne hlength
  · intro hzero f
    rw [hsplit, StreamBuffered.pending_of_empty hzero, List.append_nil]

theorem destroy_loses_iff_example : ∃ (p : Stream Bool) (b : StreamBuffered Bool),
    freshPlain.run (threeWrites.map fun x => (x.1, x.2.1)) = .ok p ∧
    freshBuffered.run (threeWrites.map fun x => (x.1, x.2.2)) = .ok b ∧
    ¬ ∀ f, b.destroy.accepted f = freshBuffered.accepted f ++ writtenTo (some false)
      (threeWrites.map Prod.fst) f := by
  obtain ⟨p, b, hp, hb, hpclean, hbclean, -⟩ := threeWrites_run
  have hloses := destroy_loses_iff fresh_streams (by simp [threeWrites])
    (by simp [threeWrites, freshBuffered]) hp hb
    hpclean hbclean ⟨0, false⟩
  exact ⟨p, b, hp, hb, mt hloses.2.mp (by decide)⟩

end Runs

end Stream
end Memlog

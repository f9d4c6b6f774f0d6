/-
# The buffered stream

`src/src/lib/stream.{h,cpp}`: `StreamBuffered` collects what is written to it in a
buffer and hands the buffer to `fwrite` when it is flushed, when there is no room for
the next write, or when the file changes. The buffer is taken to have the size that
the stream goes by (`getBufferSize`), which the constructor does not set. What
`fwrite` accepts and what `ferror` says in a flush is given with each operation
(`Io`); `accepted` has the bytes that each file has accepted.

`flush` empties the buffer only if all of it was accepted; otherwise, and without a
file, it changes nothing in it. `write` does not look at what `flush` made of it, so
it stays inside the buffer for exactly the runs in which every flush that is to make
room does (`stays_inside_iff`). And what a file has accepted of a buffer that is
kept comes again with the next flush, so each byte is delivered once for exactly the
runs in which a flush is accepted as a whole or not at all (`delivers_iff`).
-/
import Mathlib.Data.List.Infix
import Memlog.Machine

namespace Memlog

/-- The counters of a stream that its functions use. -/
structure StreamStats where
  ioErrorNo : UInt32
  ioWriteError : UInt32
  flushWriteCount : UInt32

/-- What the C library does in a flush: how many of the bytes `fwrite` accepts, which
it returns, and what `ferror` answers. -/
structure Io where
  written : ℕ
  ferror : Bool
deriving DecidableEq

/-- The members of `StreamBuffered` and `Stream`, and the bytes that each file has
accepted. -/
structure StreamBuffered (F : Type) where
  fileHandle : Option F
  buffer : List UInt8
  buffer_lt : buffer.length < 4294967296
  bufferIdx : ℕ
  stats : StreamStats
  accepted : F → List UInt8

namespace StreamBuffered

variable {F : Type}

/-- A stream at a file, with nothing in its buffer, as the constructor is meant to leave
it: it sets neither the size nor the counters. -/
def new (fileHandle : Option F) (buffer : List UInt8) (h : buffer.length < 4294967296) :
    StreamBuffered F where
  fileHandle := fileHandle
  buffer := buffer
  buffer_lt := h
  bufferIdx := 0
  stats := ⟨0, 0, 0⟩
  accepted := fun _ => []

def getBufferSize (s : StreamBuffered F) : ℕ := s.buffer.length

def availableData (s : StreamBuffered F) : ℕ := s.bufferIdx

def bufferHasRoom (s : StreamBuffered F) (len : ℕ) : Bool := len ≤ u32Sub s.getBufferSize s.bufferIdx

/-- `memcpy(&buffer[bufferIdx], data, len)`. -/
def copy (s : StreamBuffered F) (data : List UInt8) : Except Fault (StreamBuffered F) :=
  if h : s.bufferIdx + data.length ≤ s.buffer.length then
    .ok { s with
      buffer := s.buffer.take s.bufferIdx ++ data ++ s.buffer.drop (s.bufferIdx + data.length)
      buffer_lt := by
        have hlt := s.buffer_lt
        simp only [List.length_append, List.length_take, List.length_drop]
        omega }
  else .error .bounds

variable [DecidableEq F]

def flush (s : StreamBuffered F) (io : Io) : ℤ × StreamBuffered F :=
  let dataInBuffer := s.availableData
  match s.fileHandle with
  | none => (0, s)
  | some file =>
    let s := { s with
      stats.flushWriteCount := s.stats.flushWriteCount + 1
      accepted := Function.update s.accepted file
        (s.accepted file ++ (s.buffer.take dataInBuffer).take io.written) }
    if io.written ≠ dataInBuffer ∨ io.ferror then
      (-1, { s with stats.ioErrorNo := 0, stats.ioWriteError := s.stats.ioWriteError + 1 })
    else (0, { s with bufferIdx := 0 })

/-- `Stream::setFile`. -/
def setFile (s : StreamBuffered F) (file : Option F) (io : Io) : ℤ × StreamBuffered F :=
  if file = s.fileHandle then (0, s)
  else
    let s := if s.fileHandle.isSome then (s.flush io).2 else s
    (0, { s with fileHandle := file })

/-- `write`: whether it throws, and the stream after it. -/
def write (s : StreamBuffered F) (data : List UInt8) (io : Io) : Except Fault (Bool × StreamBuffered F) := do
  if s.getBufferSize < data.length then return (true, s)
  let s := if s.bufferHasRoom data.length then s else (s.flush io).2
  let s ← s.copy data
  return (false, { s with bufferIdx := u32 (s.bufferIdx + data.length) })

end StreamBuffered

/-- The operations on a stream. -/
inductive StreamOp (F : Type) where
  | write (data : List UInt8)
  | flush
  | setFile (file : Option F)
deriving DecidableEq

namespace StreamBuffered

variable {F : Type} [DecidableEq F]

/-- One operation. -/
def step (s : StreamBuffered F) (op : StreamOp F) (io : Io) : Except Fault (StreamBuffered F) := do
  match op with
  | .write data => return (← s.write data io).2
  | .flush => return (s.flush io).2
  | .setFile file => return (s.setFile file io).2

/-- Operations one after the other. -/
def run (s : StreamBuffered F) : List (StreamOp F × Io) → Except Fault (StreamBuffered F)
  | [] => .ok s
  | (op, io) :: ops => do (← s.step op io).run ops

/-! ### What a flush leaves -/

section Flush

variable {s : StreamBuffered F} {io : Io}

/-- A flush that empties the buffer: there is a file, and it accepts everything. -/
def Flushes (s : StreamBuffered F) (io : Io) : Prop :=
  s.fileHandle ≠ none ∧ io.written = s.bufferIdx ∧ io.ferror = false

omit [DecidableEq F] in
theorem not_flushes_iff {file : F} (h : s.fileHandle = some file) :
    ¬ s.Flushes io ↔ io.written ≠ s.bufferIdx ∨ io.ferror = true := by
  rw [Flushes, h, not_and_or, not_and_or, Bool.not_eq_false]
  simp

@[simp] theorem flush_buffer : (s.flush io).2.buffer = s.buffer := by
  unfold flush
  split
  · rfl
  · dsimp only
    split <;> rfl

@[simp] theorem flush_fileHandle : (s.flush io).2.fileHandle = s.fileHandle := by
  unfold flush
  split
  · rfl
  · dsimp only
    split <;> rfl

theorem flush_bufferIdx_of_flushes (h : s.Flushes io) : (s.flush io).2.bufferIdx = 0 := by
  unfold flush availableData
  split
  · rename_i hnone
    exact absurd hnone h.1
  · dsimp only
    rename_i file hfile
    rw [if_neg (mt (not_flushes_iff hfile).mpr (not_not.mpr h))]

theorem flush_bufferIdx_of_not (h : ¬ s.Flushes io) : (s.flush io).2.bufferIdx = s.bufferIdx := by
  unfold flush availableData
  split
  · rfl
  · dsimp only
    rename_i file hfile
    rw [if_pos ((not_flushes_iff hfile).mp h)]

theorem flush_bufferIdx_le : (s.flush io).2.bufferIdx ≤ s.bufferIdx := by
  by_cases h : s.Flushes io
  · rw [flush_bufferIdx_of_flushes h]
    exact Nat.zero_le _
  · rw [flush_bufferIdx_of_not h]

theorem flush_accepted {file : F} (h : s.fileHandle = some file) :
    (s.flush io).2.accepted file = s.accepted file ++ (s.buffer.take s.bufferIdx).take io.written := by
  unfold flush availableData
  split
  · rename_i hnone
    rw [hnone] at h
    cases h
  · rename_i file' hfile
    obtain rfl : file' = file := Option.some.inj (hfile.symm.trans h)
    dsimp only
    split <;> exact Function.update_self ..

end Flush

/-! ### Staying inside the buffer -/

section Inside

variable {s s' : StreamBuffered F} {op : StreamOp F} {io : Io} {data : List UInt8}

omit [DecidableEq F] in
theorem bufferHasRoom_iff (h : s.bufferIdx ≤ s.buffer.length) (len : ℕ) :
    s.bufferHasRoom len = true ↔ s.bufferIdx + len ≤ s.buffer.length := by
  unfold bufferHasRoom getBufferSize
  rw [decide_eq_true_iff, u32Sub_of_le h s.buffer_lt]
  omega

omit [DecidableEq F] in
theorem copy_ok_iff : (∃ s', s.copy data = .ok s') ↔ s.bufferIdx + data.length ≤ s.buffer.length := by
  unfold copy
  split_ifs with h <;> simp [h]

omit [DecidableEq F] in
theorem copy_spec (h : s.copy data = .ok s') : s'.bufferIdx = s.bufferIdx ∧ s'.fileHandle = s.fileHandle ∧
    s'.accepted = s.accepted ∧
    s'.buffer = s.buffer.take s.bufferIdx ++ data ++ s.buffer.drop (s.bufferIdx + data.length) := by
  unfold copy at h
  split_ifs at h
  obtain rfl := Except.ok.inj h
  exact ⟨rfl, rfl, rfl, rfl⟩

/-- The stream that `write` copies to: flushed, if there was no room. -/
def prepared (s : StreamBuffered F) (len : ℕ) (io : Io) : StreamBuffered F :=
  if s.bufferHasRoom len then s else (s.flush io).2

@[simp] theorem prepared_buffer (len : ℕ) : (s.prepared len io).buffer = s.buffer := by
  unfold prepared
  split_ifs
  · rfl
  · exact flush_buffer

@[simp] theorem prepared_fileHandle (len : ℕ) : (s.prepared len io).fileHandle = s.fileHandle := by
  unfold prepared
  split_ifs
  · rfl
  · exact flush_fileHandle

theorem prepared_room_iff (h : s.bufferIdx ≤ s.buffer.length) {len : ℕ} (hlen : len ≤ s.buffer.length) :
    (s.prepared len io).bufferIdx + len ≤ s.buffer.length ↔
      s.bufferIdx + len ≤ s.buffer.length ∨ s.Flushes io := by
  unfold prepared
  split_ifs with hroom
  · rw [bufferHasRoom_iff h] at hroom
    exact ⟨.inl, fun _ => hroom⟩
  · rw [bufferHasRoom_iff h] at hroom
    by_cases hf : s.Flushes io
    · rw [flush_bufferIdx_of_flushes hf]
      exact ⟨fun _ => .inr hf, fun _ => by omega⟩
    · rw [flush_bufferIdx_of_not hf]
      exact ⟨.inl, fun h => h.resolve_right hf⟩

theorem write_throws (h : s.buffer.length < data.length) : s.write data io = .ok (true, s) := by
  unfold write getBufferSize
  rw [if_pos h]
  rfl

theorem write_eq (h : data.length ≤ s.buffer.length) : s.write data io = (do
    let s ← (s.prepared data.length io).copy data
    return (false, { s with bufferIdx := u32 (s.bufferIdx + data.length) })) := by
  unfold write getBufferSize
  rw [if_neg h.not_gt]
  rfl

/-- A write that throws, or has the room it needs. -/
def Fits (s : StreamBuffered F) (len : ℕ) (io : Io) : Prop :=
  s.buffer.length < len ∨ s.bufferIdx + len ≤ s.buffer.length ∨ s.Flushes io

theorem write_ok_iff (h : s.bufferIdx ≤ s.buffer.length) :
    (∃ r, s.write data io = .ok r) ↔ s.Fits data.length io := by
  rcases Nat.lt_or_ge s.buffer.length data.length with hlt | hle
  · exact ⟨fun _ => .inl hlt, fun _ => ⟨_, write_throws hlt⟩⟩
  · have hbuffer : (s.prepared data.length io).buffer = s.buffer := prepared_buffer _
    rw [Fits, or_iff_right hle.not_gt, ← prepared_room_iff h hle, write_eq hle, ← hbuffer, ← copy_ok_iff]
    constructor
    · rintro ⟨r, hr⟩
      obtain ⟨s', hcopy, -⟩ := Loop.bind_eq_ok.mp hr
      exact ⟨s', hcopy⟩
    · rintro ⟨s', hcopy⟩
      exact ⟨_, Loop.bind_eq_ok.mpr ⟨s', hcopy, rfl⟩⟩

theorem write_spec {r : Bool × StreamBuffered F} (h : s.bufferIdx ≤ s.buffer.length)
    (hlen : data.length ≤ s.buffer.length) (hok : s.write data io = .ok r) :
    (s.bufferIdx + data.length ≤ s.buffer.length ∨ s.Flushes io) ∧
      r.2.bufferIdx = (s.prepared data.length io).bufferIdx + data.length ∧
      r.2.bufferIdx ≤ s.buffer.length ∧ r.2.fileHandle = s.fileHandle ∧
      r.2.accepted = (s.prepared data.length io).accepted ∧
      r.2.buffer = s.buffer.take (s.prepared data.length io).bufferIdx ++ data ++
        s.buffer.drop ((s.prepared data.length io).bufferIdx + data.length) := by
  have hfits := (write_ok_iff h).mp ⟨r, hok⟩
  have hroom := (prepared_room_iff h hlen).mpr (hfits.resolve_left hlen.not_gt)
  rw [write_eq hlen] at hok
  obtain ⟨s', hcopy, hr⟩ := Loop.bind_eq_ok.mp hok
  obtain rfl := Except.ok.inj hr
  obtain ⟨hidx, hfile, haccepted, hbuffer⟩ := copy_spec hcopy
  have hidx' : u32 (s'.bufferIdx + data.length) = (s.prepared data.length io).bufferIdx + data.length := by
    have hlt := s.buffer_lt
    rw [hidx, u32_of_lt (by omega)]
  refine ⟨hfits.resolve_left hlen.not_gt, hidx', hidx'.trans_le hroom, ?_, haccepted, ?_⟩
  · rw [hfile, prepared_fileHandle]
  · rw [hbuffer, prepared_buffer]

theorem write_length {r : Bool × StreamBuffered F} (h : s.bufferIdx ≤ s.buffer.length)
    (hlen : data.length ≤ s.buffer.length) (hok : s.write data io = .ok r) :
    r.2.buffer.length = s.buffer.length := by
  obtain ⟨-, hidx, hle, -, -, hbuffer⟩ := write_spec h hlen hok
  rw [hbuffer, List.length_append, List.length_append, List.length_take, List.length_drop]
  omega

/-- The bytes that an operation copies lie in the buffer. -/
def CopiesInside (s : StreamBuffered F) (io : Io) : StreamOp F → Prop
  | .write data => s.Fits data.length io
  | .flush => True
  | .setFile _ => True

theorem step_ok_iff (h : s.bufferIdx ≤ s.buffer.length) :
    (∃ s', s.step op io = .ok s') ↔ s.CopiesInside io op := by
  cases op with
  | write data =>
    rw [CopiesInside, ← write_ok_iff h]
    constructor
    · rintro ⟨s', hok⟩
      obtain ⟨r, hwrite, -⟩ := Loop.bind_eq_ok.mp hok
      exact ⟨r, hwrite⟩
    · rintro ⟨r, hwrite⟩
      exact ⟨r.2, Loop.bind_eq_ok.mpr ⟨r, hwrite, rfl⟩⟩
  | flush => exact ⟨fun _ => trivial, fun _ => ⟨_, rfl⟩⟩
  | setFile file => exact ⟨fun _ => trivial, fun _ => ⟨_, rfl⟩⟩

theorem step_within (h : s.bufferIdx ≤ s.buffer.length) (hok : s.step op io = .ok s') :
    s'.buffer.length = s.buffer.length ∧ s'.bufferIdx ≤ s'.buffer.length := by
  cases op with
  | write data =>
    obtain ⟨r, hwrite, hr⟩ := Loop.bind_eq_ok.mp hok
    obtain rfl := Except.ok.inj hr
    rcases Nat.lt_or_ge s.buffer.length data.length with hlt | hle
    · rw [write_throws hlt] at hwrite
      obtain rfl := Except.ok.inj hwrite
      exact ⟨rfl, h⟩
    · have hlength := write_length h hle hwrite
      obtain ⟨-, -, hidx, -⟩ := write_spec h hle hwrite
      exact ⟨hlength, hidx.trans_eq hlength.symm⟩
  | flush =>
    obtain rfl := Except.ok.inj hok
    rw [flush_buffer]
    exact ⟨rfl, flush_bufferIdx_le.trans h⟩
  | setFile file =>
    obtain rfl := Except.ok.inj hok
    unfold setFile
    split_ifs
    · exact ⟨rfl, h⟩
    · exact ⟨congrArg List.length flush_buffer, by
        dsimp only
        rw [flush_buffer]
        exact flush_bufferIdx_le.trans h⟩
    · exact ⟨rfl, h⟩

theorem run_append (s : StreamBuffered F) (ops ops' : List (StreamOp F × Io)) :
    s.run (ops ++ ops') = (do (← s.run ops).run ops') := by
  induction ops generalizing s with
  | nil => rfl
  | cons x ops ih =>
    obtain ⟨op, io⟩ := x
    rw [List.cons_append, run, run]
    cases s.step op io with
    | error e => rfl
    | ok s' => exact ih s'

theorem run_concat (s : StreamBuffered F) (ops : List (StreamOp F × Io)) (op : StreamOp F) (io : Io) :
    s.run (ops ++ [(op, io)]) = (do (← s.run ops).step op io) := by
  rw [run_append]
  cases s.run ops with
  | error e => rfl
  | ok s' =>
    simp only [Loop.ok_bind, run]
    cases s'.step op io <;> rfl

theorem run_within (h : s.bufferIdx ≤ s.buffer.length) {ops : List (StreamOp F × Io)}
    (hok : s.run ops = .ok s') :
    s'.buffer.length = s.buffer.length ∧ s'.bufferIdx ≤ s'.buffer.length := by
  induction ops generalizing s with
  | nil =>
    obtain rfl := Except.ok.inj hok
    exact ⟨rfl, h⟩
  | cons x ops ih =>
    obtain ⟨s1, hstep, hok⟩ := Loop.bind_eq_ok.mp hok
    obtain ⟨hlength, hidx⟩ := step_within h hstep
    obtain ⟨hlength', hidx'⟩ := ih hidx hok
    exact ⟨hlength'.trans hlength, hidx'⟩

/-- After every operation of a run the index is in the buffer, and all that was copied
until then lies in it. -/
def StaysInside (s : StreamBuffered F) (ops : List (StreamOp F × Io)) : Prop :=
  ∀ pre, pre <+: ops → ∃ s', s.run pre = .ok s' ∧ s'.bufferIdx ≤ s.getBufferSize

/-- Every write of a run throws, finds room, or is made room by a flush that empties
the buffer. -/
def MakesRoom (s : StreamBuffered F) (ops : List (StreamOp F × Io)) : Prop :=
  ∀ pre data io s', pre ++ [(.write data, io)] <+: ops → s.run pre = .ok s' → s'.Fits data.length io

/-- **Inside the buffer.** A run stays inside the buffer if and only if room is made
for every write. -/
theorem stays_inside_iff (file : Option F) (buffer : List UInt8) (h : buffer.length < 4294967296)
    (ops : List (StreamOp F × Io)) : (new file buffer h).StaysInside ops ↔
      (new file buffer h).MakesRoom ops := by
  have h0 : (new file buffer h).bufferIdx ≤ (new file buffer h).buffer.length := Nat.zero_le _
  constructor
  · intro hstays pre data io s' hpre hrun
    obtain ⟨s1, hrun1, -⟩ := hstays _ hpre
    rw [run_concat, hrun, Loop.ok_bind] at hrun1
    exact (step_ok_iff (run_within h0 hrun).2).mp ⟨s1, hrun1⟩
  · intro hroom pre hpre
    induction pre using List.reverseRecOn with
    | nil => exact ⟨_, rfl, h0⟩
    | append_singleton pre x ih =>
      obtain ⟨op, io⟩ := x
      obtain ⟨s', hrun, -⟩ := ih ((List.prefix_append _ _).trans hpre)
      have hinside : s'.CopiesInside io op := by
        cases op with
        | write data => exact hroom pre data io s' hpre hrun
        | flush => trivial
        | setFile file => trivial
      obtain ⟨s1, hstep⟩ := (step_ok_iff (run_within h0 hrun).2).mpr hinside
      have hrun1 : (new file buffer h).run (pre ++ [(op, io)]) = .ok s1 := by
        rw [run_concat, hrun, Loop.ok_bind, hstep]
      obtain ⟨hlength, hidx⟩ := run_within h0 hrun1
      exact ⟨s1, hrun1, hidx.trans_eq hlength⟩

/-- The second write does not find room, and its flush is accepted. -/
theorem stays_inside_iff_example :
    let s := new (some ()) [0, 0, 0, 0] (by decide)
    let ops : List (StreamOp Unit × Io) := [(.write [1, 2, 3], ⟨0, false⟩), (.write [4, 5, 6], ⟨3, false⟩)]
    s.StaysInside ops ↔ s.MakesRoom ops :=
  stays_inside_iff (some ()) [0, 0, 0, 0] (by decide)
    [(.write [1, 2, 3], ⟨0, false⟩), (.write [4, 5, 6], ⟨3, false⟩)]

/-- Without a file nothing makes room: the second write leaves the buffer. -/
theorem leaves_buffer : ¬ (new (none : Option Unit) [0, 0, 0, 0] (by decide)).StaysInside
    [(.write [1, 2, 3], ⟨0, false⟩), (.write [4, 5, 6], ⟨0, false⟩)] := by
  intro h
  obtain ⟨s', hrun, -⟩ := h _ (List.prefix_refl _)
  cases hrun

end Inside

/-! ### Delivering every byte once -/

section Delivery

variable {s s' : StreamBuffered F} {op : StreamOp F} {io : Io} {data : List UInt8} {file : F}

/-- What a file has accepted and what the buffer still holds. -/
def held (s : StreamBuffered F) (file : F) : List UInt8 := s.accepted file ++ s.buffer.take s.bufferIdx

/-- A flush that is accepted as a whole, or not at all. -/
def WholeOrNot (s : StreamBuffered F) (io : Io) : Prop :=
  s.bufferIdx = 0 ∨ io.written = 0 ∨ (io.written = s.bufferIdx ∧ io.ferror = false)

theorem flush_held_of_flushes (hfile : s.fileHandle = some file) (h : s.Flushes io) :
    (s.flush io).2.held file = s.held file := by
  rw [held, held, flush_accepted hfile, flush_buffer, flush_bufferIdx_of_flushes h, h.2.1, List.take_take,
    Nat.min_self, List.take_zero, List.append_nil]

/-- What was accepted of a buffer that is kept is held twice. -/
theorem flush_held_of_not (hfile : s.fileHandle = some file) (h : ¬ s.Flushes io) :
    (s.flush io).2.held file =
      s.accepted file ++ ((s.buffer.take s.bufferIdx).take io.written ++ s.buffer.take s.bufferIdx) := by
  rw [held, flush_accepted hfile, flush_buffer, flush_bufferIdx_of_not h, List.append_assoc]

theorem flush_held_iff (hfile : s.fileHandle = some file) (hidx : s.bufferIdx ≤ s.buffer.length) :
    (s.flush io).2.held file = s.held file ↔ s.WholeOrNot io := by
  by_cases h : s.Flushes io
  · exact ⟨fun _ => .inr (.inr h.2), fun _ => flush_held_of_flushes hfile h⟩
  · have hempty : (s.buffer.take s.bufferIdx).take io.written = [] ↔ io.written = 0 ∨ s.bufferIdx = 0 := by
      rw [← List.length_eq_zero_iff, List.length_take, List.length_take]
      omega
    rw [flush_held_of_not hfile h, held, List.append_cancel_left_eq, List.append_left_eq_self, hempty]
    constructor
    · rintro (h0 | h0)
      · exact .inr (.inl h0)
      · exact .inl h0
    · rintro (h0 | h0 | hflushes)
      · exact .inr h0
      · exact .inl h0
      · exact absurd ⟨by rw [hfile]; simp, hflushes⟩ h

/-- A write holds its bytes behind what is held. -/
theorem write_held {r : Bool × StreamBuffered F} (hfile : s.fileHandle = some file)
    (hidx : s.bufferIdx ≤ s.buffer.length) (hlen : data.length ≤ s.buffer.length)
    (hok : s.write data io = .ok r) : r.2.held file = s.held file ++ data := by
  obtain ⟨hroom, hidx', hle, -, haccepted, hbuffer⟩ := write_spec hidx hlen hok
  have hprepared : (s.prepared data.length io).held file = s.held file := by
    unfold prepared
    split_ifs with hr
    · rfl
    · rw [bufferHasRoom_iff hidx] at hr
      exact flush_held_of_flushes hfile (hroom.resolve_left hr)
  have htake : (s.buffer.take (s.prepared data.length io).bufferIdx ++ data).length =
      (s.prepared data.length io).bufferIdx + data.length := by
    rw [List.length_append, List.length_take]
    omega
  rw [← hprepared, held, held, haccepted, hbuffer, hidx', prepared_buffer, List.take_left' htake,
    List.append_assoc]

/-- The bytes passed to `write`. -/
def passed (ops : List (StreamOp F × Io)) : List UInt8 :=
  ops.flatMap fun x => match x.1 with
    | .write data => data
    | .flush => []
    | .setFile _ => []

/-- The operations on one file: flushes, and writes of at most `C` bytes. -/
def OnOneFile (C : ℕ) : StreamOp F → Prop
  | .write data => data.length ≤ C
  | .flush => True
  | .setFile _ => False

/-- After every operation of a run, unless it has left the buffer, the file and the
buffer hold what was passed to `write`, once and in order. -/
def Delivers (s : StreamBuffered F) (file : F) (ops : List (StreamOp F × Io)) : Prop :=
  ∀ pre s', pre <+: ops → s.run pre = .ok s' → s'.held file = passed pre

/-- Every flush of a run is accepted as a whole or not at all. -/
def FlushesWhole (s : StreamBuffered F) (ops : List (StreamOp F × Io)) : Prop :=
  ∀ pre io s', pre ++ [(.flush, io)] <+: ops → s.run pre = .ok s' → s'.WholeOrNot io

omit [DecidableEq F] in
theorem passed_concat (ops : List (StreamOp F × Io)) (op : StreamOp F) (io : Io) :
    passed (ops ++ [(op, io)]) = passed ops ++ passed [(op, io)] := List.flatMap_append

theorem step_file (h : s.bufferIdx ≤ s.buffer.length) (hop : OnOneFile s.buffer.length op)
    (hok : s.step op io = .ok s') : s'.fileHandle = s.fileHandle := by
  cases op with
  | write data =>
    obtain ⟨r, hwrite, hr⟩ := Loop.bind_eq_ok.mp hok
    obtain rfl := Except.ok.inj hr
    obtain ⟨-, -, -, hfile, -⟩ := write_spec h hop hwrite
    exact hfile
  | flush =>
    obtain rfl := Except.ok.inj hok
    exact flush_fileHandle
  | setFile file => exact absurd hop id

theorem run_file (h : s.bufferIdx ≤ s.buffer.length) {ops : List (StreamOp F × Io)}
    (hops : ∀ x ∈ ops, OnOneFile s.buffer.length x.1) (hok : s.run ops = .ok s') :
    s'.fileHandle = s.fileHandle := by
  induction ops generalizing s with
  | nil => rw [Except.ok.inj hok]
  | cons x ops ih =>
    obtain ⟨s1, hstep, hok⟩ := Loop.bind_eq_ok.mp hok
    obtain ⟨hlength, hidx⟩ := step_within h hstep
    have hfile := step_file h (hops x List.mem_cons_self) hstep
    have hrest : ∀ x ∈ ops, OnOneFile s1.buffer.length x.1 := fun x hx => by
      rw [hlength]
      exact hops x (List.mem_cons_of_mem _ hx)
    exact (ih hidx hrest hok).trans hfile

/-- **Every byte once.** On one file a run delivers every byte once and in order if and
only if every flush is accepted as a whole or not at all. -/
theorem delivers_iff (file : F) (buffer : List UInt8) (h : buffer.length < 4294967296)
    (ops : List (StreamOp F × Io)) (hops : ∀ x ∈ ops, OnOneFile buffer.length x.1) :
    (new (some file) buffer h).Delivers file ops ↔ (new (some file) buffer h).FlushesWhole ops := by
  have h0 : (new (some file) buffer h).bufferIdx ≤ (new (some file) buffer h).buffer.length := Nat.zero_le _
  have hstate {pre s'} (hpre : pre <+: ops) (hrun : (new (some file) buffer h).run pre = .ok s') :
      s'.buffer.length = buffer.length ∧ s'.bufferIdx ≤ s'.buffer.length ∧ s'.fileHandle = some file :=
    have hwithin := run_within h0 hrun
    ⟨hwithin.1, hwithin.2, run_file h0 (fun x hx => hops x (hpre.subset hx)) hrun⟩
  constructor
  · intro hdelivers pre io s' hpre hrun
    have hbefore : pre <+: ops := (List.prefix_append _ _).trans hpre
    obtain ⟨-, hidx, hfile⟩ := hstate hbefore hrun
    have hrun1 : (new (some file) buffer h).run (pre ++ [(.flush, io)]) = .ok (s'.flush io).2 := by
      rw [run_concat, hrun]
      rfl
    have hheld := hdelivers _ _ hpre hrun1
    rw [passed_concat, ← hdelivers _ _ hbefore hrun] at hheld
    exact (flush_held_iff hfile hidx).mp (hheld.trans (List.append_nil _))
  · intro hwhole pre
    induction pre using List.reverseRecOn with
    | nil =>
      intro s' _ hrun
      obtain rfl := Except.ok.inj hrun
      rfl
    | append_singleton pre x ih =>
      intro s1 hpre hrun1
      obtain ⟨op, io⟩ := x
      have hbefore : pre <+: ops := (List.prefix_append _ _).trans hpre
      rw [run_concat] at hrun1
      obtain ⟨s', hrun, hstep⟩ := Loop.bind_eq_ok.mp hrun1
      obtain ⟨hlength, hidx, hfile⟩ := hstate hbefore hrun
      have hop := hops (op, io) (hpre.subset (by simp))
      rw [passed_concat, ← ih s' hbefore hrun]
      cases op with
      | write data =>
        obtain ⟨r, hwrite, hr⟩ := Loop.bind_eq_ok.mp hstep
        obtain rfl := Except.ok.inj hr
        rw [write_held hfile hidx (hop.trans_eq hlength.symm) hwrite]
        simp [passed]
      | flush =>
        obtain rfl := Except.ok.inj hstep
        exact ((flush_held_iff hfile hidx).mpr (hwhole pre io s' hpre hrun)).trans (List.append_nil _).symm
      | setFile file' => exact absurd hop id

/-- A flush that is accepted as a whole. -/
theorem delivers_iff_example :
    let s := new (some ()) [0, 0, 0, 0] (by decide)
    let ops : List (StreamOp Unit × Io) := [(.write [1, 2, 3], ⟨0, false⟩), (.flush, ⟨3, false⟩)]
    s.Delivers () ops ↔ s.FlushesWhole ops :=
  delivers_iff () [0, 0, 0, 0] (by decide) [(.write [1, 2, 3], ⟨0, false⟩), (.flush, ⟨3, false⟩)]
    (by simp [OnOneFile])

/-- A flush that fails after the first byte and is tried again: the file has 1, 1, 2, 3. -/
theorem retry_repeats : ¬ (new (some ()) [0, 0, 0, 0] (by decide)).Delivers ()
    [(.write [1, 2, 3], ⟨0, false⟩), (.flush, ⟨1, false⟩), (.flush, ⟨3, false⟩)] := by
  intro h
  exact absurd (h _ _ (List.prefix_refl _) rfl) (by decide)

end Delivery

end StreamBuffered
end Memlog

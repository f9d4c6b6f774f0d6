/-
# A thread in `dump`

`src/src/lib/log.cpp`: `dump` may be called by any thread, while calls of `traceVargs`
write to the ring and the collector reads it. It prints the records from `firstLine` to
the index that it finds current when it starts, and has up to ten looks at a record that
is not complete, with a pause between two of them, before it gives up.

Here `dump` is taken apart into the steps in which it looks at what is shared: for the
first line, for the current index, and once for each try on a record (`dumpStep`).
Without interference they make `Log.dump` (`dump_solo`). Of what is shared they change
counters only, so a thread that dumps is an observer of the system (`Dumping.Step`).

In a ring that is not filled, by calls that round-trip (`Renders`) and store their index
in order (`InOrder`), a dump writes the lines of the first records in order, each once,
and behind them at most one notice; and when it returns, all that was published when it
began is among them (`dump_delivers`). It returns, after a number of its own steps that
does not depend on what the others do (`dump_returns`).

Key definitions: `DumpPc`, `dumpStep`, `Dumping.Step`, `Dumping.Dumps`.
Key theorems: `dumpStep_same`, `dump_solo`, `Dumping.dump_delivers`,
`Dumping.dump_returns`.
-/
import Memlog.Resync
import Memlog.Session

namespace Memlog

open Circular Loop
open Producers

/-! ### `dump`, step by step -/

namespace Log

variable (env : Env)

/-- `printAtIndex` behind its loop. -/
def printFound (index : ℕ) (dst : List UInt8) (printed_header : Header) :
    Bool × List UInt8 × Log → Except Fault Printed := fun (success, scratch, log) => do
  if ¬ success then
    return ⟨true, overlay [0] dst, index, printed_header, 0,
      { log with stats.printFallCount := log.stats.printFallCount + 1 }⟩
  let hdr := Header.ofBytes scratch
  let pre := printPrefix env hdr
  let r ← decodeFromArgsBuffer env (env.strings hdr.format) scratch (indexInc 0 Header.size)
    (hdr.length.toNat - Trailer.size) pre
  let text := r.outputString.written
  if LOG_MAX_LOG_TRACE_LINE * 2 < text.length then throw .bounds
  return ⟨false, overlay text dst, u32 (indexInc r.argsBufferIndex index + Trailer.size), hdr,
    r.outputStringLength.getD 0 + pre.length, { log with stats.lastPrintedId := hdr.id }⟩

/-- A round of `dumpRange` behind `printAtIndex`. -/
def walkPrinted (last : ℕ) (continueOnFailure : Bool) (w : Walk) (p : Printed) :
    Except Fault (Next Walk Walk) := do
  if p.err then
    let (new_i, buf, log) ← getNextHeader env p.log w.i (some p.dst)
    let buf := buf.getD p.dst
    let text := noticeText env log (Header.ofBytes buf) new_i p.printed_header
    let w : Walk := ⟨w.i, overlay (text ++ [0]) buf, p.printed_header, log, w.out ++ [.notice text]⟩
    if ¬ continueOnFailure then return .done { w with i := new_i }
    if last < new_i then return .done w
    return .again { w with i := new_i }
  let w : Walk := ⟨w.i, p.dst, p.printed_header, p.log, w.out⟩
  if last < p.next_index then return .done w
  if LOG_MAX_LOG_TRACE_LINE < p.stringLength then throw .assertion
  return .again { w with
    i := p.next_index
    log := { w.log with stats.collectCount := w.log.stats.collectCount + 1 }
    out := w.out ++ [.line w.printedHeader (p.dst.take p.stringLength)] }

variable {env}

theorem printAtIndex_eq (log : Log) (index : ℕ) (dst : List UInt8) (retry : Bool) (hdr : Header) :
    printAtIndex env log index dst retry hdr =
      spin index (if retry then SPINS else 1) (stackBuffer env) log >>= printFound env index dst hdr := rfl

theorem walkStep_eq {last : ℕ} {continueOnFailure : Bool} {w : Walk} (hin : w.i < last) :
    walkStep env last continueOnFailure w =
      printAtIndex env w.log w.i w.traceBuffer (!continueOnFailure) w.printedHeader >>=
        walkPrinted env last continueOnFailure w :=
  if_neg (not_not.mpr hin)

end Log

/-- Where a thread stands in `dump`: before it looks for the first line, before it reads
the current index, before a try on a record, with more `tries` to come. The log and the
output of the walk are those that all threads share, not the ones kept in `w`. -/
inductive DumpPc where
  | firstLine
  | current (i : ℕ)
  | walk (w : Log.Walk) (last : ℕ) (scratch : List UInt8) (tries : ℕ)

/-- A thread comes to the next record. -/
def DumpPc.next (env : Env) (w : Log.Walk) (last : ℕ) : DumpPc :=
  .walk w last (Log.stackBuffer env) (Log.SPINS - 1)

/-- How many steps are at most to come, in a ring of `S` bytes. -/
def DumpPc.rounds (S : ℕ) : DumpPc → ℕ
  | .firstLine => 10 * S + 12
  | .current _ => 10 * S + 11
  | .walk w last _ tries => 10 * (last - w.i) + tries + 1

/-- A step in `dump`; `none` is its return. -/
def dumpStep (env : Env) (log : Log) (out : List Chunk) :
    DumpPc → Except Fault (Log × List Chunk × Option DumpPc)
  | .firstLine => do
    let (i, log) ← log.firstLine env
    return (log, out, some (.current (log.ringBuffer.normalize i)))
  | .current i =>
    let rb := log.ringBuffer
    let last := Log.rangeEnd rb.size i (u32Sub (rb.normalize rb.getCurrentIndex) 1)
    .ok (log, out, some (.next env ⟨i % rb.size, Log.stackBuffer env, Log.zeroHeader, log, []⟩ last))
  | .walk w last scratch tries => do
    if ¬ w.i < last then return (log, out, none)
    let (success, scratch, log) ← log.getLog w.i scratch
    if ¬ success ∧ 0 < tries then return (log, out, some (.walk w last scratch (tries - 1)))
    let p ← Log.printFound env w.i w.traceBuffer w.printedHeader (success, scratch, log)
    match ← Log.walkPrinted env last false { w with out := out } p with
    | .again w => return (w.log, w.out, some (.next env w last))
    | .done w => return (w.log, w.out, none)

section Same

variable {env : Env}

theorem Log.firstLine_same {log log' : Log} {i : ℕ} (h : log.firstLine env = .ok (i, log')) :
    log.Same log' := by
  unfold Log.firstLine at h
  dsimp only at h
  split at h
  · obtain ⟨⟨j, buf, log1⟩, hnext, h⟩ := Loop.bind_eq_ok.mp h
    cases h
    exact Log.getNextHeader_same env hnext
  · cases h
    exact .refl _

theorem Log.printFound_same {index : ℕ} {dst scratch : List UInt8} {hdr : Header} {success : Bool}
    {log : Log} {p : Log.Printed}
    (h : Log.printFound env index dst hdr (success, scratch, log) = .ok p) :
    log.Same p.log := by
  unfold Log.printFound at h
  cases success with
  | false =>
    cases h
    exact ⟨_, rfl⟩
  | true =>
    obtain ⟨r, -, h⟩ := Loop.bind_eq_ok.mp h
    dsimp only at h
    split at h <;> cases h
    exact ⟨_, rfl⟩

theorem Log.walkPrinted_same {last : ℕ} {continueOnFailure : Bool} {w : Log.Walk} {p : Log.Printed}
    {r : Next Log.Walk Log.Walk} (h : Log.walkPrinted env last continueOnFailure w p = .ok r) :
    p.log.Same (Log.after r).log ∧ w.out <+: (Log.after r).out := by
  unfold Log.walkPrinted at h
  split at h
  · obtain ⟨⟨new_i, buf, log1⟩, hnext, h⟩ := Loop.bind_eq_ok.mp h
    have hs := Log.getNextHeader_same env hnext
    dsimp only at h
    split at h
    · cases h
      exact ⟨hs, List.prefix_append _ _⟩
    split at h <;> cases h <;> exact ⟨hs, List.prefix_append _ _⟩
  · dsimp only at h
    split at h
    · cases h
      exact ⟨.refl _, List.prefix_refl _⟩
    split at h <;> cases h
    exact ⟨⟨_, rfl⟩, List.prefix_append _ _⟩

/-- A step in `dump` changes counters of the log, and adds to the output. -/
theorem dumpStep_same {log log' : Log} {out out' : List Chunk} {p : DumpPc} {next : Option DumpPc}
    (h : dumpStep env log out p = .ok (log', out', next)) : log.Same log' ∧ out <+: out' := by
  cases p with
  | firstLine =>
    obtain ⟨⟨i, log1⟩, hfirst, h⟩ := Loop.bind_eq_ok.mp h
    cases h
    exact ⟨Log.firstLine_same hfirst, List.prefix_refl _⟩
  | current i =>
    cases h
    exact ⟨.refl _, List.prefix_refl _⟩
  | walk w last scratch tries =>
    unfold dumpStep at h
    dsimp only at h
    split at h
    · cases h
      exact ⟨.refl _, List.prefix_refl _⟩
    obtain ⟨⟨success, scratch', log1⟩, hget, h⟩ := Loop.bind_eq_ok.mp h
    have hs := Log.getLog_same hget
    dsimp only at h
    split at h
    · cases h
      exact ⟨hs, List.prefix_refl _⟩
    obtain ⟨p, hprint, h⟩ := Loop.bind_eq_ok.mp h
    obtain ⟨r, hwalk, h⟩ := Loop.bind_eq_ok.mp h
    obtain ⟨hs', hout⟩ := Log.walkPrinted_same hwalk
    have hall := (hs.trans (Log.printFound_same hprint)).trans hs'
    cases r <;> cases h <;> exact ⟨hall, hout⟩

end Same

/-! ### A thread alone in `dump` -/

section Solo

variable (env : Env)

/-- A round of a thread that is alone in `dump`. -/
def dumpRound : Log × List Chunk × DumpPc → Except Fault
    (Next (Log × List Chunk × DumpPc) (Log × List Chunk)) :=
  fun (log, out, p) => do
    let (log, out, next) ← dumpStep env log out p
    match next with
    | some p => return .again (log, out, p)
    | none => return .done (log, out)

variable {env} {w : Log.Walk} {last : ℕ} {out : List Chunk}

/-- The tries of `printAtIndex`, one step each, up to the last one or one that finds a
record. -/
theorem spin_solo (hin : w.i < last) :
    ∀ {n : ℕ} {log : Log} {scratch : List UInt8} {r : Bool × List UInt8 × Log},
    Log.spin w.i (n + 1) scratch log = .ok r → ∃ k log1 scratch1 tries,
      Reaches Fault.fuel (dumpRound env) k (log, out, .walk w last scratch n)
        (log1, out, .walk w last scratch1 tries) ∧
        log1.getLog w.i scratch1 = .ok r ∧ (r.1 = true ∨ tries = 0)
  | n, log, scratch, r, h => by
    obtain ⟨⟨success, scratch', log'⟩, hget, h⟩ := Loop.bind_eq_ok.mp h
    cases success with
    | true =>
      cases h
      exact ⟨0, log, scratch, n, Reaches.refl _, hget, .inl rfl⟩
    | false =>
      cases n with
      | zero =>
        cases h
        exact ⟨0, log, scratch, 0, Reaches.refl _, hget, .inr rfl⟩
      | succ n =>
        obtain ⟨k, log1, scratch1, tries, hreach, hlast⟩ := spin_solo hin h
        refine ⟨1 + k, log1, scratch1, tries, (Reaches.single ?_).trans hreach, hlast⟩
        simp [dumpRound, dumpStep, hin, hget]

/-- A round of `dumpRange`, one step for each try. -/
theorem walkStep_solo {w0 : Log.Walk} {r : Next Log.Walk Log.Walk}
    (hw0 : { w0 with log := w.log, out := w.out } = w) (h : Log.walkStep env last false w = .ok r) :
    ∃ k s, Reaches Fault.fuel (dumpRound env) k
      (w.log, w.out, .walk w0 last (Log.stackBuffer env) (Log.SPINS - 1)) s ∧
        dumpRound env s = .ok (match r with
          | .again w' => .again (w'.log, w'.out, .next env w' last)
          | .done w' => .done (w'.log, w'.out)) := by
  have hi : w0.i = w.i := by
    have hcongr := congrArg Log.Walk.i hw0
    exact hcongr
  by_cases hin : w.i < last
  swap
  · rw [Log.walkStep_end env false (Nat.not_lt.mp hin)] at h
    obtain rfl := Except.ok.inj h
    refine ⟨0, _, Reaches.refl _, ?_⟩
    simp [dumpRound, dumpStep, hi, hin]
  rw [Log.walkStep_eq hin] at h
  obtain ⟨p, hprint, hwalk⟩ := Loop.bind_eq_ok.mp h
  rw [Log.printAtIndex_eq] at hprint
  obtain ⟨⟨success, scratch, log⟩, hspin, hprint⟩ := Loop.bind_eq_ok.mp hprint
  rw [← hi] at hspin
  obtain ⟨k, log1, scratch1, tries, hreach, hget, hlast⟩ := spin_solo (hi ▸ hin) hspin
  refine ⟨k, _, hreach, ?_⟩
  have hstop : ¬ (¬ success = true ∧ 0 < tries) := by
    rintro ⟨hfail, hpos⟩
    rcases hlast with hsuccess | rfl
    · exact hfail hsuccess
    · exact Nat.lt_irrefl 0 hpos
  have hprint0 : Log.printFound env w0.i w0.traceBuffer w0.printedHeader (success, scratch, log) = .ok p := by
    rw [← hw0] at hprint
    exact hprint
  have hwalk0 : Log.walkPrinted env last false { w0 with out := w.out } p = .ok r := by
    rw [← hw0] at hwalk
    exact hwalk
  unfold dumpRound dumpStep
  dsimp only
  rw [if_neg (not_not.mpr (hi ▸ hin)), hget]
  simp only [Loop.ok_bind]
  rw [if_neg hstop, hprint0]
  simp only [Loop.ok_bind, hwalk0]
  cases r <;> rfl

theorem walk_solo : ∀ {n : ℕ} {w w0 w' : Log.Walk}, { w0 with log := w.log, out := w.out } = w →
    run Fault.fuel (Log.walkStep env last false) n w = .ok w' →
      ∃ m, run Fault.fuel (dumpRound env) m (w.log, w.out, .next env w0 last) = .ok (w'.log, w'.out)
  | 0, _, _, _, _, h => by cases h
  | n + 1, w, w0, w', hw0, h => by
    rcases run_inv h with hdone | ⟨m, w1, hagain, -⟩
    · obtain ⟨k, s, hreach, hround⟩ := walkStep_solo hw0 hdone
      exact ⟨k + 1, hreach.run_done hround (Nat.lt_succ_self k)⟩
    · obtain ⟨k, s, hreach, hround⟩ := walkStep_solo hw0 hagain
      rw [run_again hagain] at h
      obtain ⟨m, hrun⟩ := walk_solo (show { w1 with log := w1.log, out := w1.out } = w1 from rfl) h
      obtain ⟨j, -, hj⟩ := hreach.trans (.single hround)
      exact ⟨m + j, (hj m).trans hrun⟩

/-- **A thread alone in `dump`** makes `Log.dump`. -/
theorem dump_solo {fuel : ℕ} {log log' : Log} {new : List Chunk} (out : List Chunk)
    (h : log.dump env fuel = .ok (log', new)) :
    ∃ n, run Fault.fuel (dumpRound env) n (log, out, .firstLine) = .ok (log', out ++ new) := by
  obtain ⟨⟨i, log1⟩, hfirst, h⟩ := Loop.bind_eq_ok.mp h
  obtain ⟨⟨_, log2, new2⟩, hrange, h⟩ := Loop.bind_eq_ok.mp h
  obtain ⟨rfl, rfl⟩ := Prod.mk.inj (Except.ok.inj h)
  rw [Log.dumpRange_eq] at hrange
  obtain ⟨w, hrun, hrange⟩ := Loop.bind_eq_ok.mp hrange
  obtain ⟨-, hrange⟩ := Prod.mk.inj (Except.ok.inj hrange)
  obtain ⟨rfl, rfl⟩ := Prod.mk.inj hrange
  obtain ⟨w', hrun', rfl⟩ :=
    (run_related (fun w w' => walkStep_behind env false out) fuel (t := _) rfl).ok_left hrun
  rw [List.append_nil] at hrun'
  obtain ⟨m, hm⟩ := walk_solo rfl hrun'
  have hstart : Reaches Fault.fuel (dumpRound env) 1 (log, out, .firstLine)
      (log1, out, .current (log1.ringBuffer.normalize i)) := by
    refine .single ?_
    simp only [dumpRound, dumpStep, hfirst, Loop.ok_bind]
    rfl
  have hcurrent : Reaches Fault.fuel (dumpRound env) 1
      (log1, out, .current (log1.ringBuffer.normalize i)) (log1, out,
      .next env ⟨log1.ringBuffer.normalize i % log1.ringBuffer.size, Log.stackBuffer env,
        Log.zeroHeader, log1, []⟩
        (Log.rangeEnd log1.ringBuffer.size (log1.ringBuffer.normalize i)
          (u32Sub (log1.ringBuffer.normalize log1.ringBuffer.getCurrentIndex) 1))) := .single rfl
  obtain ⟨j, -, hj⟩ := hstart.trans hcurrent
  exact ⟨m + j, (hj m).trans hm⟩

end Solo

/-! ### A try on a record -/

section Tries

variable {env : Env} {log : Log} {w : Log.Walk} {last tries : ℕ} {scratch : List UInt8}
  {out : List Chunk} {e : Entry}
  {text : List UInt8}

variable (scratch) in
/-- A record prints in the buffer it is copied to, whatever that held before. -/
theorem Log.printFound_record {q : ℕ} (h : log.ringBuffer.entryAt q = some e.bytes) (hp : e.Prints env text)
    (hq : q + e.bytes.length < 4294967296) (dst : List UInt8) (hdr : Header) :
    Log.printFound env q dst hdr (true, overlay e.bytes scratch, log) =
      if LOG_MAX_LOG_TRACE_LINE * 2 < text.length + 1 then .error .bounds
      else .ok ⟨false, overlay (text ++ [0]) dst, q + e.bytes.length, e.header, text.length,
        { log with stats.lastPrintedId := e.header.id }⟩ := by
  obtain ⟨decoded, rfl, hdec⟩ := hp
  obtain ⟨hheader, h64, -⟩ := RingBuffer.entry_length h
  have hlen := e.length_eq
  have hof : Header.ofBytes (overlay e.bytes scratch) = e.header := by
    rw [overlay, Header.ofBytes_append (by omega), e.ofBytes]
  have hdecode : decodeFromArgsBuffer env (env.strings e.header.format) (overlay e.bytes scratch) 56
      (e.bytes.length - 8)
      (Log.printPrefix env e.header) =
        .ok (.printed (e.bytes.length - 8) decoded (.start (Log.printPrefix env e.header))) :=
    hdec _
  have hnext : u32 (indexInc (e.bytes.length - 8) q + 8) = q + e.bytes.length := by
    rw [indexInc_of_lt (by omega), u32_of_lt (by omega)]
    omega
  have hlength := Output.length_put (Log.printPrefix env e.header) decoded
  have hindex : indexInc 0 Header.size = 56 := by decide
  rw [e.ofBytes] at hheader
  unfold Log.printFound
  simp only [not_true_eq_false, if_false, hof, hindex, ← hheader, Trailer.size, hdecode,
    DecodeResult.printed_start,
    Output.written, Loop.ok_bind, hnext, hlength, Loop.throw_eq_error, Loop.error_bind, Loop.pure_eq_ok]
  rw [@List.length_append _ _ [0], List.length_singleton]

theorem Log.walkPrinted_found {p : Log.Printed} (h : p.err = false) : Log.walkPrinted env last false w p =
    if last < p.next_index then .ok (.done ⟨w.i, p.dst, p.printed_header, p.log, w.out⟩)
    else if LOG_MAX_LOG_TRACE_LINE < p.stringLength then .error .assertion
    else .ok (.again ⟨p.next_index, p.dst, p.printed_header,
      { p.log with stats.collectCount := p.log.stats.collectCount + 1 },
      w.out ++ [.line p.printed_header (p.dst.take p.stringLength)]⟩) := by
  unfold Log.walkPrinted
  rw [if_neg (by rw [h]; exact Bool.false_ne_true)]
  split_ifs <;> rfl

variable (tries scratch out) in
/-- A try on a record that prints. -/
theorem dumpStep_found (hS : log.ringBuffer.size < 2147483648) (hfit : e.bytes.length ≤ log.ringBuffer.size)
    (hlast : last ≤ log.ringBuffer.size) (hin : w.i < last) (h : log.ringBuffer.entryAt w.i = some e.bytes)
    (hp : e.Prints env text) : ∃ log1 log2 w', w'.i = w.i + e.bytes.length ∧
      dumpStep env log out (.walk w last scratch tries) =
        if LOG_MAX_LOG_TRACE_LINE * 2 < text.length + 1 then .error .bounds
        else if last < w.i + e.bytes.length then .ok (log1, out, none)
        else if LOG_MAX_LOG_TRACE_LINE < text.length then .error .assertion
        else .ok (log2, out ++ [.line e.header text], some (.next env w' last)) := by
  have hlen := e.length_eq
  have hget := Log.getLog_some hS (by omega) hfit h scratch
  have hprint := Log.printFound_record scratch h hp (by omega) w.traceBuffer w.printedHeader
  have htake : (overlay (text ++ [0]) w.traceBuffer).take text.length = text := by
    rw [overlay, List.append_assoc, List.take_left]
  let log1 : Log := { log with stats.lastPrintedId := e.header.id }
  let log2 : Log := { log1 with stats.collectCount := log.stats.collectCount + 1 }
  refine ⟨log1, log2, ⟨w.i + e.bytes.length, overlay (text ++ [0]) w.traceBuffer, e.header, log2,
    out ++ [.line e.header text]⟩, rfl, ?_⟩
  unfold dumpStep
  dsimp only
  rw [if_neg (not_not.mpr hin), hget]
  simp only [Loop.ok_bind, not_true_eq_false, false_and, if_false]
  rw [hprint]
  by_cases hlong : LOG_MAX_LOG_TRACE_LINE * 2 < text.length + 1
  · rw [if_pos hlong, if_pos hlong]
    rfl
  rw [if_neg hlong, if_neg hlong, Loop.ok_bind, Log.walkPrinted_found rfl]
  dsimp only
  rw [htake]
  split_ifs <;> rfl

variable (tries scratch out) in
/-- A try where there is no record: the next one, or the last was in vain. -/
theorem dumpStep_missing (hS : log.ringBuffer.size < 2147483648) (h4096 : 4096 ≤ log.ringBuffer.size)
    (hlast : last ≤ log.ringBuffer.size) (hin : w.i < last) (h : log.ringBuffer.entryAt w.i = none) :
    ∃ log1 log2 scratch' t, dumpStep env log out (.walk w last scratch tries) =
      .ok (if 0 < tries then (log1, out, some (.walk w last scratch' (tries - 1))) else
        (log2, out ++ [.notice t], none)) := by
  obtain ⟨scratch', st, hget, -⟩ := Log.getLog_none hS h4096 h scratch
  let log1 : Log := { log with stats := st }
  let p : Log.Printed := ⟨true, overlay [0] w.traceBuffer, w.i, w.printedHeader, 0,
    { log1 with stats.printFallCount := log1.stats.printFallCount + 1 }⟩
  have hnext : ∃ new_i buf log2, Log.getNextHeader env p.log w.i (some p.dst) = .ok (new_i, buf, log2) := by
    rcases Log.getNextHeader_cases env (show p.log.ringBuffer.size < 2147483648 from hS) h4096
        (show w.i + log.ringBuffer.size < 4294967296 by omega) (some p.dst) with
      ⟨j, entry, -, -, buf, log2, -, hnext⟩ | ⟨-, buf, log2, -, hnext⟩
    · exact ⟨_, buf, log2, hnext⟩
    · exact ⟨_, buf, log2, hnext⟩
  obtain ⟨new_i, buf, log2, hnext⟩ := hnext
  refine ⟨log1, log2, scratch',
    Log.noticeText env log2 (Header.ofBytes (buf.getD p.dst)) new_i w.printedHeader, ?_⟩
  unfold dumpStep
  dsimp only
  rw [if_neg (not_not.mpr hin), hget]
  simp only [Loop.ok_bind]
  by_cases htries : 0 < tries
  · rw [if_pos ⟨Bool.false_ne_true, htries⟩, if_pos htries]
    rfl
  · rw [if_neg fun hc => htries hc.2, if_neg htries, show Log.printFound env w.i w.traceBuffer w.printedHeader
      (false, scratch', log1) = .ok p from rfl, Loop.ok_bind]
    unfold Log.walkPrinted
    rw [if_pos rfl, hnext]
    rfl

end Tries

/-! ### The system with a thread that dumps -/

namespace System

theorem Shared.not_wrapped {env : Env} {S : ℕ} {line : Entry → List UInt8} {c : Collect} {ps : List Producer}
    (h : Shared env S line c ps) : ¬ c.log.Wrapped := by
  have hsize := h.placed.size
  have hcurrent := h.placed.current
  have htotal := h.total
  rintro (hfull | hwrapped)
  · rw [RingBuffer.getCurrentIndex, hcurrent] at hfull
    omega
  · simp [RingBuffer.hasWrappedAround, h.fresh] at hwrapped

/-- The system, what a thread in `dump` has written, and where it stands; `none` when it
has returned. -/
structure Dumping where
  system : System
  dumped : List Chunk
  pc : Option DumpPc

namespace Dumping

/-- A step of the thread in `dump`. -/
def ownStep (env : Env) (d : Dumping) : Except Fault Dumping :=
  match d.pc with
  | none => .ok d
  | some p => do
    let (log, dumped, next) ← dumpStep env d.system.collect.log d.dumped p
    return ⟨{ d.system with collect.log := log }, dumped, next⟩

/-- Runs in which the thread in `dump` takes `n` steps. -/
inductive Underway (env : Env) (Q : Call → Prop) (O : Log → List Producer → ℕ → Prop)
    (P : System → CollectPc → Prop) : ℕ → Dumping → Dumping → Prop
  | refl {d : Dumping} : Underway env Q O P 0 d d
  | system {n : ℕ} {d d' : Dumping} {s : System} : Underway env Q O P n d d' → Step env Q O P d'.system s →
      Underway env Q O P n d { d' with system := s }
  | own {n : ℕ} {d d' d'' : Dumping} : Underway env Q O P n d d' → d'.pc ≠ none → d'.ownStep env = .ok d'' →
      Underway env Q O P (n + 1) d d''

variable {env : Env} {Q : Call → Prop} {O : Log → List Producer → ℕ → Prop}
  {P : System → CollectPc → Prop} {S n m : ℕ}
  {d d' : Dumping}

theorem Underway.mono {Q' : Call → Prop} (h : Underway env Q O P n d d') (hQ : ∀ call, Q call → Q' call) :
    Underway env Q' O P n d d' := by
  induction h with
  | refl => exact .refl
  | system _ hstep ih => exact ih.system (hstep.mono hQ)
  | own _ hpc hstep ih => exact ih.own hpc hstep

theorem ownStep_observes (h : d.ownStep env = .ok d') :
    d'.system = { d.system with collect.log := d'.system.collect.log } ∧
      d.system.collect.log.Same d'.system.collect.log ∧ d.dumped <+: d'.dumped := by
  unfold ownStep at h
  split at h
  · obtain rfl := Except.ok.inj h
    exact ⟨rfl, .refl _, List.prefix_refl _⟩
  · obtain ⟨⟨log, dumped, next⟩, hstep, h⟩ := Loop.bind_eq_ok.mp h
    obtain rfl := Except.ok.inj h
    exact ⟨rfl, dumpStep_same hstep⟩

theorem Underway.steps (h : Underway env Q O P n d d') : Steps env Q O P d.system d'.system := by
  induction h with
  | refl => exact .refl
  | system _ hstep ih => exact ih.tail hstep
  | own _ _ hstep ih =>
    obtain ⟨heq, hsame, -⟩ := ownStep_observes hstep
    rw [heq]
    exact ih.tail (.observe hsame)

/-- Where a thread in `dump` stands when it has written the first `m` records; what was
published when it began ends at `start`. -/
inductive Dumps (S : ℕ) (es : List Entry) (start : ℕ) : Option DumpPc → ℕ → List Chunk → Prop
  | firstLine : Dumps S es start (some .firstLine) 0 []
  | current : Dumps S es start (some (.current 0)) 0 []
  | walk {w : Log.Walk} {last : ℕ} {scratch : List UInt8} {tries m : ℕ} :
      At es w.i m → last ≤ S → start ≤ last →
      tries < Log.SPINS → Dumps S es start (some (.walk w last scratch tries)) m []
  | returned {x m : ℕ} {tail : List Chunk} : At es x m → start ≤ x → (tail = [] ∨ ∃ t, tail = [.notice t]) →
      Dumps S es start none m tail

/-- What holds while a thread is in `dump`: it has written the first records, behind
`old`. -/
structure Inv (env : Env) (S : ℕ) (text : Call → List UInt8) (start : ℕ) (old : List Chunk)
    (d : Dumping) : Prop where
  shared : Shared env S (Entry.line env text) d.system.collect d.system.producers
  consistent : d.system.Consistent
  start_le : start ≤ d.system.collect.log.bufLastWrittenIndex
  boundary : Boundary (records d.system.producers) start
  dumps : ∃ m tail, Dumps S (records d.system.producers) start d.pc m tail ∧
    d.dumped = old ++ lines (Entry.line env text) ((records d.system.producers).take m) ++ tail

section Inv

variable {text : Call → List UInt8} {start : ℕ} {old : List Chunk}

theorem boundary_mono {es es' : List Entry} {x : ℕ} (h : Boundary es x) (hp : es <+: es') :
    Boundary es' x := by
  obtain ⟨k, hk⟩ := exists_at h
  exact (hk.mono hp).boundary

theorem Dumps.mono {es es' : List Entry} {p : Option DumpPc} {tail : List Chunk}
    (h : Dumps S es start p m tail) (hp : es <+: es') : Dumps S es' start p m tail := by
  cases h with
  | firstLine => exact .firstLine
  | current => exact .current
  | walk hat hlast hstart htries => exact .walk (hat.mono hp) hlast hstart htries
  | returned hat hstart htail => exact .returned (hat.mono hp) hstart htail

theorem Dumps.le {es : List Entry} {p : Option DumpPc} {tail : List Chunk}
    (h : Dumps S es start p m tail) : m ≤ es.length := by
  cases h with
  | firstLine | current => exact Nat.zero_le _
  | walk hat _ _ _ => exact hat.1
  | returned hat _ _ => exact hat.1

section Step

variable {line : Entry → List UInt8} {c : Collect} {ps : List Producer} {log : Log}
  {out out' : List Chunk} {p : DumpPc}
  {next : Option DumpPc} {tail : List Chunk}

/-- How many steps are at most to come, of a thread that may have returned. -/
def rounds (S : ℕ) (p : Option DumpPc) : ℕ := p.elim 0 (DumpPc.rounds S)

/-- A try on the record at a place prints it, or everything that was published when the
thread began has been dumped. -/
theorem Dumps.walk_step {w : Log.Walk} {last tries : ℕ} {scratch : List UInt8}
    (hs : Shared env S line c ps) (hstart : start ≤ c.log.bufLastWrittenIndex)
    (hb : Boundary (records ps) start) (hat : At (records ps) w.i m) (hlast : last ≤ S)
    (hle : start ≤ last) (htries : tries < Log.SPINS)
    (hstep : dumpStep env c.log out (.walk w last scratch tries) = .ok (log, out', next)) :
    ∃ m' new, Dumps S (records ps) start next m' new ∧
      rounds S next < (DumpPc.walk w last scratch tries).rounds S ∧
      ∀ old, out = old ++ lines line ((records ps).take m) →
        out' = old ++ lines line ((records ps).take m') ++ new := by
  have hsize := hs.placed.size
  have hS := hs.size_lt
  have h4096 := hs.size_ge
  rcases Nat.lt_or_ge w.i last with hin | hout
  swap
  · -- the range is done
    unfold dumpStep at hstep
    dsimp only at hstep
    rw [if_pos (Nat.not_lt.mpr hout)] at hstep
    cases hstep
    exact ⟨m, [], .returned hat (hle.trans hout) (.inl rfl), Nat.succ_pos _,
      fun old hold => by rw [hold, List.append_nil]⟩
  rcases hs.set_or_unset w.i with ⟨q, hq, he, hset⟩ | hunset
  · obtain ⟨hentry, hgenuine, hprints⟩ := hs.entryAt he hset
    have hlen := q.entry.length_eq
    have hfit := hgenuine.length_le
    obtain ⟨log1, log2, w', hi, hfound⟩ := dumpStep_found tries scratch out
      (by omega) (by omega) (by omega) hin hentry hprints
    obtain ⟨hget, hnext⟩ := hat.entry he
    rw [hfound] at hstep
    split_ifs at hstep with hlong hover hshort
    · -- the record ends behind the range
      cases hstep
      refine ⟨m, [], .returned hat ?_ (.inl rfl), Nat.succ_pos _,
        fun old hold => by rw [hold, List.append_nil]⟩
      by_contra hbefore
      have hend := hb.end_le he (Nat.not_le.mp hbefore)
      omega
    · cases hstep
      refine ⟨m + 1, [], .walk (hi ▸ hnext) hlast hle (by decide), ?_, fun old hold => ?_⟩
      · simp only [rounds, Option.elim_some, DumpPc.rounds, DumpPc.next, Log.SPINS]
        omega
      · rw [hold, List.append_nil, List.take_add_one, hget, lines, lines, List.map_append, List.append_assoc]
        rfl
  · obtain ⟨log1, log2, scratch', t, hmissing⟩ := dumpStep_missing tries scratch out
      (by omega) (by omega) (by omega) hin (hs.entryAt_none hat.boundary hunset)
    rw [hmissing] at hstep
    split_ifs at hstep with hmore
    · cases hstep
      refine ⟨m, [], .walk hat hlast hle (by omega), ?_, fun old hold => by rw [hold, List.append_nil]⟩
      simp only [rounds, Option.elim_some, DumpPc.rounds]
      omega
    · -- a record that was published when the thread began has its bytes set
      cases hstep
      refine ⟨m, [.notice t], .returned hat ?_ (.inr ⟨t, rfl⟩), Nat.succ_pos _, fun old hold => by rw [hold]⟩
      by_contra hbefore
      have htotal := hb.le
      obtain ⟨e, -, he, -⟩ := hat.next ((hat.lt_iff ⟨le_rfl, by rw [List.take_length]⟩).mp
        ((Nat.not_le.mp hbefore).trans_le htotal))
      obtain ⟨pre, s, post, rfl, -, hloc⟩ := hs.placed.exists_producer he
      have hstage := hunset ⟨e, s⟩ (by simp) hloc
      exact hs.set ⟨e, s⟩ (by simp) (by simp only; omega) hstage

/-- **A step in `dump`** takes it on to its end. -/
theorem Dumps.step (h : Dumps S (records ps) start (some p) m tail) (hs : Shared env S line c ps)
    (hstart : start ≤ c.log.bufLastWrittenIndex) (hb : Boundary (records ps) start)
    (hstep : dumpStep env c.log out p = .ok (log, out', next)) :
    ∃ m' new, Dumps S (records ps) start next m' new ∧ rounds S next < p.rounds S ∧
      ∀ old, out = old ++ lines line ((records ps).take m) →
        out' = old ++ lines line ((records ps).take m') ++ new := by
  have hsize := hs.placed.size
  have hcurrent := hs.placed.current
  have htotal := hs.total
  have hS := hs.size_lt
  cases h with
  | firstLine =>
    unfold dumpStep at hstep
    rw [Log.firstLine_fresh env hs.not_wrapped] at hstep
    simp only [Loop.ok_bind, RingBuffer.normalize, Nat.zero_mod] at hstep
    cases hstep
    exact ⟨0, [], .current, by simp [rounds, DumpPc.rounds], fun old hold => by rw [hold, List.append_nil]⟩
  | current =>
    have hle := hs.lastWritten.le
    have hpos := hs.placed.size ▸ c.log.ringBuffer.size_pos
    have hrange := Log.rangeEnd_le hpos 0 (u32Sub ((flat (records ps)).length) 1)
    have hlast : start ≤ Log.rangeEnd S 0 (u32Sub ((flat (records ps)).length) 1) := by
      rcases Nat.eq_zero_or_pos (flat (records ps)).length with hzero | hpos'
      · omega
      · rw [Log.rangeEnd_sub_one (by rw [Nat.zero_mod]; exact hpos') htotal.le (by omega)]
        omega
    unfold dumpStep at hstep
    simp only [RingBuffer.normalize, RingBuffer.getCurrentIndex, hsize, hcurrent,
      Nat.mod_eq_of_lt htotal, Nat.zero_mod]
      at hstep
    cases hstep
    refine ⟨0, [], .walk (At.zero _) hrange hlast (by decide), ?_,
      fun old hold => by rw [hold, List.append_nil]⟩
    simp only [rounds, Option.elim_some, DumpPc.rounds, DumpPc.next, Log.SPINS]
    omega
  | walk hat hlast hle htries => exact Dumps.walk_step hs hstart hb hat hlast hle htries hstep

variable (out) in
/-- A thread in `dump` can go on, if no line is too long. -/
theorem Dumps.step_ok (h : Dumps S (records ps) start (some p) m tail) (hs : Shared env S line c ps)
    (hshort : ∀ e ∈ records ps, (line e).length ≤ 4096) : ∃ r, dumpStep env c.log out p = .ok r := by
  have hsize := hs.placed.size
  have hS := hs.size_lt
  have h4096 := hs.size_ge
  cases h with
  | firstLine =>
    unfold dumpStep
    rw [Log.firstLine_fresh env hs.not_wrapped]
    exact ⟨_, rfl⟩
  | current => exact ⟨_, rfl⟩
  | @walk w last scratch tries m hat hlast hle htries =>
    rcases Nat.lt_or_ge w.i last with hin | hout
    swap
    · exact ⟨(c.log, out, none), if_pos (Nat.not_lt.mpr hout)⟩
    rcases hs.set_or_unset w.i with ⟨q, hq, he, hset⟩ | hunset
    · obtain ⟨hentry, hgenuine, hprints⟩ := hs.entryAt he hset
      have hfit := hgenuine.length_le
      have hline := hshort _ (List.mem_map_of_mem hq)
      obtain ⟨log1, log2, w', -, hfound⟩ := dumpStep_found tries scratch out
        (by omega) (by omega) (by omega) hin hentry hprints
      rw [hfound, if_neg (by rw [LOG_MAX_LOG_TRACE_LINE]; omega)]
      split_ifs with hover hlong
      · exact ⟨_, rfl⟩
      · rw [LOG_MAX_LOG_TRACE_LINE] at hlong
        omega
      · exact ⟨_, rfl⟩
    · obtain ⟨_, _, _, _, hmissing⟩ := dumpStep_missing tries scratch out
        (by omega) (by omega) (by omega) hin (hs.entryAt_none hat.boundary hunset)
      exact ⟨_, hmissing⟩

end Step

/-- The other threads leave what is dumped alone. -/
theorem Inv.system {s : System} (h : Inv env S text start old d)
    (hstep : Step env (Renders env text) InOrder P d.system s)
    (htotal : (flat (records s.producers)).length < S) :
    Inv env S text start old { d with system := s } := by
  obtain ⟨hshared, hlast⟩ := hstep.shared h.consistent h.shared htotal
  have hprefix := hstep.records_prefix h.consistent
  obtain ⟨m, tail, hdumps, hout⟩ := h.dumps
  refine ⟨hshared, hstep.consistent h.consistent, h.start_le.trans hlast,
    boundary_mono h.boundary hprefix, m, tail, hdumps.mono hprefix, ?_⟩
  obtain ⟨rest, hrest⟩ := hprefix
  rw [hout, ← hrest, List.take_append_of_le_length hdumps.le]

/-- A step in `dump` keeps what holds, and is one less to come. -/
theorem Inv.own (h : Inv env S text start old d) (hpc : d.pc ≠ none) (hstep : d.ownStep env = .ok d') :
    Inv env S text start old d' ∧ rounds S d'.pc < rounds S d.pc := by
  obtain ⟨m, tail, hdumps, hout⟩ := h.dumps
  unfold ownStep at hstep
  split at hstep
  · exact absurd ‹d.pc = none› hpc
  case h_2 p hp =>
    obtain ⟨⟨log, dumped, next⟩, hown, hstep⟩ := Loop.bind_eq_ok.mp hstep
    obtain rfl := Except.ok.inj hstep
    rw [hp] at hdumps
    obtain rfl : tail = [] := by cases hdumps <;> rfl
    rw [List.append_nil] at hout
    obtain ⟨m', new, hdumps', hrounds, hout'⟩ := hdumps.step h.shared h.start_le h.boundary hown
    have hsame := (dumpStep_same hown).1
    refine ⟨⟨h.shared.same hsame, h.consistent, ?_, h.boundary, m', new, hdumps', hout' old hout⟩,
      by rw [hp]; exact hrounds⟩
    obtain ⟨st, rfl⟩ := hsame
    exact h.start_le

theorem Underway.inv (h : Underway env (Renders env text) InOrder P n d d') (hc : d.system.Consistent)
    (hinv : (flat (records d.system.producers)).length < S → Inv env S text start old d) :
    d'.system.Consistent ∧ ((flat (records d'.system.producers)).length < S →
      Inv env S text start old d' ∧ n + rounds S d'.pc ≤ rounds S d.pc) := by
  induction h with
  | refl => exact ⟨hc, fun htotal => ⟨hinv htotal, (Nat.zero_add _).le⟩⟩
  | system _ hstep ih =>
    obtain ⟨hc', ih⟩ := ih hc hinv
    refine ⟨hstep.consistent hc', fun htotal => ?_⟩
    obtain ⟨h', hrounds⟩ := ih ((hstep.total_le hc').trans_lt htotal)
    exact ⟨h'.system hstep htotal, hrounds⟩
  | own _ hpc hstep ih =>
    obtain ⟨hc', ih⟩ := ih hc hinv
    obtain ⟨heq, -⟩ := ownStep_observes hstep
    refine ⟨?_, fun htotal => ?_⟩
    · rw [heq]
      exact hc'
    rw [heq] at htotal
    obtain ⟨h', hrounds⟩ := ih htotal
    obtain ⟨h'', hless⟩ := h'.own hpc hstep
    exact ⟨h'', by omega⟩

/-- **A thread in `dump` comes to its end** by its own steps. -/
theorem Underway.exists_returned (h : Underway env Q O P n d d') (hinv : Inv env S text start old d')
    (hshort : ∀ e ∈ records d'.system.producers, (e.line env text).length ≤ 4096) :
    ∃ k d'', Underway env Q O P (n + k) d d'' ∧ d''.pc = none ∧
      d''.system.producers = d'.system.producers := by
  generalize hr : rounds S d'.pc = r
  induction r using Nat.strong_induction_on generalizing n d' with
  | _ r ih =>
    subst hr
    by_cases hpc : d'.pc = none
    · exact ⟨0, d', h, hpc, rfl⟩
    obtain ⟨d1, hstep⟩ : ∃ d1, d'.ownStep env = .ok d1 := by
      obtain ⟨m, tail, hdumps, -⟩ := hinv.dumps
      obtain ⟨p, hp⟩ := Option.ne_none_iff_exists'.mp hpc
      rw [hp] at hdumps
      obtain ⟨r, hstep⟩ := hdumps.step_ok d'.dumped hinv.shared hshort
      unfold ownStep
      simp only [hp, hstep, Loop.ok_bind]
      exact ⟨_, rfl⟩
    obtain ⟨hinv1, hless⟩ := hinv.own hpc hstep
    have hproducers : d1.system.producers = d'.system.producers := by
      rw [(ownStep_observes hstep).1]
    obtain ⟨k, d2, hrun, hnone, heq⟩ :=
      ih _ hless (h.own hpc hstep) hinv1 (by rw [hproducers]; exact hshort) rfl
    exact ⟨1 + k, d2, by rw [← Nat.add_assoc]; exact hrun, hnone, heq.trans hproducers⟩

theorem Inv.begin (hs : Shared env S (Entry.line env text) d.system.collect d.system.producers)
    (hc : d.system.Consistent) (hbegin : d.pc = some .firstLine) :
    Inv env S text d.system.collect.log.bufLastWrittenIndex d.dumped d where
  shared := hs
  consistent := hc
  start_le := le_rfl
  boundary := hs.lastWritten
  dumps := ⟨0, [], hbegin ▸ .firstLine, by simp [lines]⟩

/-- What a dump has written, from what holds of its place in the program. -/
theorem Underway.delivers {d0 : Dumping} (h0 : 4096 ≤ S) (hS : 0 < S) (h1 : S < 2147483648)
    (hrun : Steps env (Renders env text) InOrder P (new S hS h1) d0.system)
    (hbegin : d0.pc = some .firstLine) (h : Underway env (Renders env text) InOrder P n d0 d)
    (htotal : (flat (records d.system.producers)).length < S) :
    ∃ m tail, d.dumped = d0.dumped ++ lines (Entry.line env text)
      ((records d.system.producers).take m) ++ tail ∧
      (tail = [] ∨ (d.pc = none ∧ ∃ t, tail = [.notice t])) ∧
      (d.pc = none → ∀ e ∈ records d0.system.producers,
        e.location < d0.system.collect.log.bufLastWrittenIndex →
        e ∈ (records d.system.producers).take m) := by
  obtain ⟨hc, hshared⟩ := hrun.shared h0 hS h1
  obtain ⟨-, hprefix⟩ := h.steps.records_prefix hc
  obtain ⟨-, hinv⟩ := h.inv hc fun htotal0 => Inv.begin (hshared htotal0) hc hbegin
  obtain ⟨hinv, -⟩ := hinv htotal
  obtain ⟨m, tail, hdumps, hout⟩ := hinv.dumps
  refine ⟨m, tail, hout, ?_, fun hnone e he hlt => ?_⟩
  · cases hpc : d.pc with
    | none =>
      rw [hpc] at hdumps
      cases hdumps with
      | returned _ _ htail => exact htail.imp_right fun ht => ⟨rfl, ht⟩
    | some p =>
      rw [hpc] at hdumps
      cases hdumps <;> exact .inl rfl
  · rw [hnone] at hdumps
    cases hdumps with
    | returned hat hle _ =>
      obtain ⟨k, hk, hget⟩ := hinv.shared.exists_at (List.IsPrefix.subset hprefix he)
      have hkm := (hk.lt_iff hat).mp (hlt.trans_le hle)
      exact List.mem_of_getElem? ((List.getElem?_take_of_lt hkm).trans hget)

theorem exists_dumping (hcall : Q (stringCall (letters 4 (by decide)))) : ∃ (d0 : Dumping) (e : Entry),
    Steps stringEnv Q InOrder Ahead (new 4096 (by decide) (by decide)) d0.system ∧
    d0.pc = some .firstLine ∧ d0.dumped = [] ∧ records d0.system.producers = [e] ∧ (flat [e]).length = 69 ∧
    e.location < d0.system.collect.log.bufLastWrittenIndex ∧ (e.line stringEnv callText).length = 4 := by
  obtain ⟨s0, s1, s2, e, hstart, -, hsession, -, -, -, -, hrecords, -, hbytes, hline, hloc, -, hlast⟩ :=
    exists_session hcall ahead_grants
  refine ⟨⟨s1, [], some .firstLine⟩, e, hstart.trans hsession.steps, rfl, rfl, hrecords, hbytes, ?_, hline⟩
  rw [hloc]
  exact hlast ▸ (by decide)

/-- **What a dump writes.** In a ring of at least 4096 bytes that calls which round-trip
and store their index in order do not fill, in every interleaving with them and with the
collector: the lines of the first records, in order, each once, and when it returns at
most one notice. When it returns, all records that were published when it began are
among them. -/
theorem dump_delivers {d0 : Dumping} (h0 : 4096 ≤ S) (hS : 0 < S) (h1 : S < 2147483648)
    (hrun : Steps env (Renders env text) InOrder P (new S hS h1) d0.system)
    (hbegin : d0.pc = some .firstLine) (h : Underway env (Renders env text) InOrder P n d0 d)
    (htotal : (flat (records d.system.producers)).length < S) :
    ∃ m tail, d.dumped = d0.dumped ++ lines (Entry.line env text)
      ((records d.system.producers).take m) ++ tail ∧
      (tail = [] ∨ (d.pc = none ∧ ∃ t, tail = [.notice t])) ∧
      (d.pc = none → ∀ e ∈ records d0.system.producers,
        e.location < d0.system.collect.log.bufLastWrittenIndex →
        e ∈ (records d.system.producers).take m) := by
  exact h.delivers h0 hS h1 hrun hbegin htotal

theorem dump_delivers_example : ∃ (d : Dumping) (m : ℕ) (e : Entry) (tail : List Chunk),
    d.pc = none ∧ records d.system.producers = [e] ∧
    d.dumped = [] ++ lines (Entry.line stringEnv callText) ([e].take m) ++ tail ∧ e ∈ [e].take m := by
  obtain ⟨d0, e, hrun, hbegin, hempty, hrecords, hbytes, hlt, hline⟩ := exists_dumping callText_renders
  have hinv : Inv stringEnv 4096 callText d0.system.collect.log.bufLastWrittenIndex d0.dumped d0 := by
    obtain ⟨hc, hshared⟩ := hrun.shared (by decide) (by decide) (by decide)
    exact Inv.begin (hshared (by rw [hrecords, hbytes]; decide)) hc hbegin
  obtain ⟨k, d, h, hnone, hproducers⟩ :=
    (show Underway stringEnv
      (Renders stringEnv callText) InOrder Ahead 0 d0 d0 from .refl).exists_returned hinv
        (by simp [hrecords, hline])
  obtain ⟨m, tail, hout, -, hall⟩ := dump_delivers (le_refl _) (by decide) (by decide) hrun hbegin h
    (by rw [hproducers, hrecords, hbytes]; decide)
  rw [hproducers, hrecords] at hout hall
  rw [hempty] at hout
  exact ⟨d, m, e, tail, hnone, by rw [hproducers, hrecords], hout, hall hnone e (by simp) hlt⟩

end Inv

end Dumping
end System
end Memlog

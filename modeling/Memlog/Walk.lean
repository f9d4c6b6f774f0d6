/-
# Walking over records

`dumpRange` walks a range of the ring. Where a record starts that the decoder
reads to its end (`Entry.Prints`), a round writes the record's line and moves on
to the next record (`walkStep_line`), unless the record ends behind the range
(`walkStep_overrun`). So over records that lie one behind the other the walk
writes their lines in order (`walk_lines`).

`RoundTrips` gives `Entry.Prints` for a record that `traceVargs` wrote
(`Traced.prints`).

Key definitions: `Entry.Prints`, `Log.Same`, `RecordsAt`.
-/
import Memlog.Deferred
import Memlog.Journal

namespace Memlog

open Circular ByteCodec

/-- The log after a reader: only counters have changed. -/
def Log.Same (log log' : Log) : Prop := ∃ st, log' = { log with stats := st }

theorem Log.Same.refl (log : Log) : log.Same log := ⟨log.stats, rfl⟩

theorem Log.Same.trans {a b c : Log} (h : a.Same b) (h' : b.Same c) : a.Same c := by
  obtain ⟨st, rfl⟩ := h
  obtain ⟨st', rfl⟩ := h'
  exact ⟨st', rfl⟩

theorem Log.Same.ringBuffer {a b : Log} (h : a.Same b) : b.ringBuffer = a.ringBuffer := by
  obtain ⟨st, rfl⟩ := h
  rfl

theorem Tracks.same {S : ℕ} {log log' : Log} {es : List Entry} (h : Tracks S log es) (hs : log.Same log') :
    Tracks S log' es := by
  obtain ⟨st, rfl⟩ := hs
  exact ⟨h.size, h.image, h.current, h.lastWritten, h.genuine, h.location, h.current_pos, h.fresh⟩

/-- The decoder reads the arguments of `e` to their end, and the line of `e` is
`text`. -/
def Entry.Prints (env : Env) (e : Entry) (text : List UInt8) : Prop :=
  ∃ out, text = Log.printPrefix env e.header ++ out ∧ ∀ rest,
    decodeFromArgsBuffer env (env.strings e.header.format) (e.bytes ++ rest) 56 (e.bytes.length - 8)
      (Log.printPrefix env e.header) =
        .ok (.printed (e.bytes.length - 8) out (.start (Log.printPrefix env e.header)))

theorem Entry.prints_of_staged {env : Env} {call : Call} {e : Entry} {out : List UInt8}
    (hstage : Log.stage env call = .ok e.args) (hformat : e.header.format = call.format)
    (hr : RoundTrips env (env.strings call.format) call.args out) :
    e.Prints env (Log.printPrefix env e.header ++ out) := by
  obtain ⟨enc, henc, hdec⟩ := hr
  obtain ⟨hargs, hle⟩ := Log.stage_ok hstage
  obtain rfl : e.args = enc := Except.ok.inj (hargs.symm.trans henc)
  have hlen := e.length_eq
  refine ⟨out, rfl, fun rest => ?_⟩
  have hdec := hdec e.header.bytes (trailer e.header.id ++ rest) (Log.printPrefix env e.header)
    (by rw [Header.bytes_length]; omega)
  have hend : 56 + e.args.length = e.bytes.length - 8 := by omega
  rw [Header.bytes_length, hend] at hdec
  rw [hformat, Entry.bytes, record, List.append_assoc, List.append_assoc]
  exact hdec

theorem Traced.prints {env : Env} {log log' : Log} {call : Call} {e : Entry} {out : List UInt8}
    (h : Traced env log call log' e) (hr : RoundTrips env (env.strings call.format) call.args out) :
    e.Prints env (Log.printPrefix env e.header ++ out) := by
  apply Entry.prints_of_staged h.staged _ hr
  rw [h.header]
  rfl

/-! ### Records one behind the other -/

/-- The records `rs` lie in the ring one behind the other, from position `q` on. -/
def RecordsAt (rb : RingBuffer) : ℕ → List Entry → Prop
  | _, [] => True
  | q, e :: rs => rb.entryAt q = some e.bytes ∧ RecordsAt rb (q + e.bytes.length) rs

theorem RecordsAt.append {rb : RingBuffer} : ∀ {q : ℕ} {rs rs' : List Entry},
    RecordsAt rb q (rs ++ rs') → RecordsAt rb q rs ∧ RecordsAt rb (q + (flat rs).length) rs'
  | q, [], rs', h => ⟨trivial, h⟩
  | q, e :: rs, rs', h => by
    obtain ⟨h1, h2⟩ := RecordsAt.append h.2
    refine ⟨⟨h.1, h1⟩, ?_⟩
    rwa [flat_cons, List.length_append, ← Nat.add_assoc]

theorem RecordsAt.congr {rb : RingBuffer} : ∀ {a b : ℕ} {rs : List Entry}, a % rb.size = b % rb.size →
    RecordsAt rb a rs → RecordsAt rb b rs
  | _, _, [], _, h => h
  | a, b, e :: rs, hab, h => by
    refine ⟨(rb.entryAt_congr hab).symm.trans h.1, RecordsAt.congr ?_ h.2⟩
    rw [Nat.add_mod, hab, ← Nat.add_mod]

theorem recordsAt_of_tracks {S : ℕ} {log : Log} : ∀ {pre rs : List Entry}, Tracks S log (pre ++ rs) →
    (flat rs).length ≤ S → RecordsAt log.ringBuffer (flat pre).length rs
  | _, [], _, _ => trivial
  | pre, e :: rs, h, hfit => by
    rw [flat_cons, List.length_append] at hfit
    have h' : Tracks S log ((pre ++ [e]) ++ rs) := by rwa [List.append_assoc, List.singleton_append]
    have hrest := recordsAt_of_tracks h' (by omega)
    rw [flat_append, flat_cons, flat_nil, List.append_nil, List.length_append] at hrest
    exact ⟨h.entryAt hfit, hrest⟩

/-- The lines of records. -/
def lines (line : Entry → List UInt8) (rs : List Entry) : List Chunk :=
  rs.map fun e => .line e.header (line e)

theorem notice_notMem_lines (line : Entry → List UInt8) (rs : List Entry) (t : List UInt8) :
    Chunk.notice t ∉ lines line rs := by
  intro hmem
  obtain ⟨e, -, he⟩ := List.mem_map.mp hmem
  cases he

/-! ### Printing one entry -/

namespace Log

variable (env : Env) {log : Log} {q : ℕ}

theorem spin_none (hS : log.ringBuffer.size < 2147483648) (h4096 : 4096 ≤ log.ringBuffer.size)
    (h : log.ringBuffer.entryAt q = none) : ∀ (n : ℕ) (buf : List UInt8) (log' : Log), log.Same log' →
    ∃ buf' log'', spin q n buf log' = .ok (false, buf', log'') ∧ log.Same log''
  | 0, buf, log', hs => ⟨buf, log', rfl, hs⟩
  | n + 1, buf, log', hs => by
    have hrb := hs.ringBuffer
    have h' : log'.ringBuffer.entryAt q = none := by rw [hrb, h]
    obtain ⟨buf', st, hget, -⟩ := getLog_none (by rw [hrb]; exact hS) (by rw [hrb]; exact h4096) h' buf
    obtain ⟨buf'', log'', hspin, hs'⟩ := spin_none hS h4096 h n buf' _ (hs.trans ⟨st, rfl⟩)
    exact ⟨buf'', log'', by simp [spin, hget, hspin], hs'⟩

theorem printAtIndex_none (hS : log.ringBuffer.size < 2147483648) (h4096 : 4096 ≤ log.ringBuffer.size)
    (h : log.ringBuffer.entryAt q = none) (dst : List UInt8) (retry : Bool) (hdr : Header) :
    ∃ log', printAtIndex env log q dst retry hdr = .ok ⟨true, overlay [0] dst, q, hdr, 0, log'⟩ ∧
      log.Same log' := by
  obtain ⟨buf', log', hspin, hs⟩ := spin_none hS h4096 h (if retry then SPINS else 1) (stackBuffer env) log
    (Same.refl log)
  refine ⟨{ log' with stats.printFallCount := log'.stats.printFallCount + 1 }, ?_, hs.trans ⟨_, rfl⟩⟩
  simp [printAtIndex, hspin]

theorem overlay_length {entry : List UInt8} (h : entry.length ≤ 4096) :
    (overlay entry (stackBuffer env)).length = 8192 := by
  rw [overlay, List.length_append, List.length_drop, stackBuffer, List.length_map, List.length_range,
    LOG_MAX_LOG_TRACE_LINE]
  omega

/-- `printAtIndex` where there is an entry: it is decoded in the buffer it is copied to. -/
theorem printAtIndex_entry {entry : List UInt8} (hS : log.ringBuffer.size < 2147483648)
    (hfit : entry.length ≤ log.ringBuffer.size) (h : log.ringBuffer.entryAt q = some entry) (dst : List UInt8)
    (retry : Bool) (hdr : Header) :
    printAtIndex env log q dst retry hdr = (do
      let hdr := Header.ofBytes entry
      let r ← decodeFromArgsBuffer env (env.strings hdr.format) (overlay entry (stackBuffer env)) 56
        (entry.length - 8)
        (printPrefix env hdr)
      let text := r.outputString.written
      if LOG_MAX_LOG_TRACE_LINE * 2 < text.length then throw .bounds
      return ⟨false, overlay text dst, u32 (indexInc r.argsBufferIndex q + 8), hdr,
        r.outputStringLength.getD 0 + (printPrefix env hdr).length,
        { log with stats.lastPrintedId := hdr.id }⟩) := by
  obtain ⟨hlen, h64, h4096'⟩ := RingBuffer.entry_length h
  have hspin : spin q (if retry then SPINS else 1) (stackBuffer env) log =
      .ok (true, overlay entry (stackBuffer env), log) := by
    have hget := getLog_some hS (by omega) hfit h (stackBuffer env)
    cases retry <;> simp [spin, SPINS, hget]
  have hof : Header.ofBytes (overlay entry (stackBuffer env)) = Header.ofBytes entry :=
    Header.ofBytes_append (by omega)
  have hindex : indexInc 0 Header.size = 56 := by decide
  unfold printAtIndex
  simp only [hspin, Loop.ok_bind, hof, hindex, ← hlen, Trailer.size]
  rfl

/-- `printAtIndex` where there is an entry: it is decoded in place. -/
theorem printAtIndex_some {entry : List UInt8} (hS : log.ringBuffer.size < 2147483648)
    (hfit : entry.length ≤ log.ringBuffer.size) (h : log.ringBuffer.entryAt q = some entry) (dst : List UInt8)
    (retry : Bool) (hdr : Header) :
    ∃ rest, (entry ++ rest).length = 8192 ∧ printAtIndex env log q dst retry hdr = (do
      let hdr := Header.ofBytes entry
      let r ← decodeFromArgsBuffer env (env.strings hdr.format) (entry ++ rest) 56 (entry.length - 8)
        (printPrefix env hdr)
      let text := r.outputString.written
      if LOG_MAX_LOG_TRACE_LINE * 2 < text.length then throw .bounds
      return ⟨false, overlay text dst, u32 (indexInc r.argsBufferIndex q + 8), hdr,
        r.outputStringLength.getD 0 + (printPrefix env hdr).length,
        { log with stats.lastPrintedId := hdr.id }⟩) :=
  ⟨(stackBuffer env).drop entry.length, overlay_length env (RingBuffer.entry_length h).2.2,
    printAtIndex_entry env hS hfit h dst retry hdr⟩

/-- `printAtIndex` on a record that prints: its line, and the index behind it. -/
theorem printAtIndex_record {e : Entry} {text : List UInt8} (hS : log.ringBuffer.size < 2147483648)
    (hfit : e.bytes.length ≤ log.ringBuffer.size) (h : log.ringBuffer.entryAt q = some e.bytes)
    (hp : e.Prints env text) (hq : q + e.bytes.length < 4294967296) (dst : List UInt8)
    (retry : Bool) (hdr : Header) :
    printAtIndex env log q dst retry hdr =
      if LOG_MAX_LOG_TRACE_LINE * 2 < text.length + 1 then .error .bounds
      else .ok ⟨false, overlay (text ++ [0]) dst, q + e.bytes.length, e.header, text.length,
        { log with stats.lastPrintedId := e.header.id }⟩ := by
  obtain ⟨out, rfl, hdec⟩ := hp
  obtain ⟨rest, -, hprint⟩ := printAtIndex_some env hS hfit h dst retry hdr
  have hlen := e.length_eq
  have hnext : u32 (indexInc (e.bytes.length - 8) q + 8) = q + e.bytes.length := by
    rw [indexInc_of_lt (by omega), u32_of_lt (by omega)]
    omega
  have hlength := Output.length_put (printPrefix env e.header) out
  rw [hprint]
  simp only [e.ofBytes, hdec, DecodeResult.printed_start, Output.written, Loop.ok_bind, hnext,
    hlength, Loop.throw_eq_error, Loop.error_bind, Loop.pure_eq_ok]
  rw [@List.length_append _ _ [0], List.length_singleton]

/-! ### A round of the walk -/

variable (continueOnFailure : Bool) {last : ℕ} {w : Walk} {e : Entry} {text : List UInt8}

/-- A round on a record that ends in the range writes its line and moves behind
it. -/
theorem walkStep_line (hS : w.log.ringBuffer.size < 2147483648)
    (hfit : e.bytes.length ≤ w.log.ringBuffer.size) (hlast : last < 2147483648)
    (h : w.log.ringBuffer.entryAt w.i = some e.bytes) (hp : e.Prints env text)
    (hend : w.i + e.bytes.length ≤ last) (htext : text.length ≤ 4096) :
    ∃ w', walkStep env last continueOnFailure w = .ok (.again w') ∧ w'.i = w.i + e.bytes.length ∧
      w'.out = w.out ++ [.line e.header text] ∧ w.log.Same w'.log := by
  have hlen := e.length_eq
  have hprint := printAtIndex_record env hS hfit h hp (by omega) w.traceBuffer
    (!continueOnFailure) w.printedHeader
  rw [if_neg (by rw [LOG_MAX_LOG_TRACE_LINE]; omega)] at hprint
  have htake : (overlay (text ++ [0]) w.traceBuffer).take text.length = text := by
    rw [overlay, List.append_assoc, List.take_left]
  have hin : ¬ ¬ w.i < last := by omega
  unfold walkStep
  rw [if_neg hin, hprint]
  simp only [Loop.ok_bind, Bool.false_eq_true, if_false, if_neg (show ¬ last < w.i + e.bytes.length by omega),
    if_neg (show ¬ LOG_MAX_LOG_TRACE_LINE < text.length by rw [LOG_MAX_LOG_TRACE_LINE]; omega), htake]
  exact ⟨_, rfl, rfl, rfl, ⟨_, rfl⟩⟩

/-- A round on a record that ends behind the range ends the walk in front of it. -/
theorem walkStep_overrun (hS : w.log.ringBuffer.size < 2147483648)
    (hfit : e.bytes.length ≤ w.log.ringBuffer.size) (hlast : last < 2147483648)
    (h : w.log.ringBuffer.entryAt w.i = some e.bytes) (he : e.Genuine) (hp : e.Prints env text)
    (hin : w.i < last) (hend : last < w.i + e.bytes.length) (htext : text.length ≤ 4096) :
    ∃ w', walkStep env last continueOnFailure w = .ok (.done w') ∧ w'.i = w.i ∧ w'.out = w.out ∧
      w.log.Same w'.log := by
  have hlen := he.length_le
  have hprint := printAtIndex_record env hS hfit h hp (by omega) w.traceBuffer
    (!continueOnFailure) w.printedHeader
  rw [if_neg (by rw [LOG_MAX_LOG_TRACE_LINE]; omega)] at hprint
  unfold walkStep
  rw [if_neg (not_not.mpr hin), hprint]
  simp only [Loop.ok_bind, Bool.false_eq_true, if_false, if_pos hend]
  exact ⟨_, rfl, rfl, rfl, ⟨_, rfl⟩⟩

/-- A round on a record that does not fail ends the walk in front of it, or writes
its line and moves behind it. -/
theorem walkStep_record {r : Loop.Next Walk Walk} (hS : w.log.ringBuffer.size < 2147483648)
    (hfit : e.bytes.length ≤ w.log.ringBuffer.size) (hlast : last < 2147483648)
    (h : w.log.ringBuffer.entryAt w.i = some e.bytes) (he : e.Genuine) (hp : e.Prints env text)
    (hin : w.i < last) (hstep : walkStep env last continueOnFailure w = .ok r) :
    (last < w.i + e.bytes.length ∧ ∃ w', r = .done w' ∧ w'.out = w.out) ∨
      (w.i + e.bytes.length ≤ last ∧ text.length ≤ 4096 ∧ ∃ w', r = .again w' ∧ w'.i = w.i + e.bytes.length ∧
        w'.out = w.out ++ [.line e.header text] ∧ w.log.Same w'.log) := by
  have hlen := he.length_le
  have hprint := printAtIndex_record env hS hfit h hp (by omega) w.traceBuffer
    (!continueOnFailure) w.printedHeader
  by_cases htext : text.length ≤ 4096
  · rcases Nat.lt_or_ge last (w.i + e.bytes.length) with hout | hend
    · obtain ⟨w', hstep', -, hout', -⟩ :=
        walkStep_overrun env continueOnFailure hS hfit hlast h he hp hin hout htext
      exact .inl ⟨hout, w', Except.ok.inj (hstep.symm.trans hstep'), hout'⟩
    · obtain ⟨w', hstep', hi, hout', hs⟩ := walkStep_line env continueOnFailure hS hfit hlast h hp hend htext
      exact .inr ⟨hend, htext, w', Except.ok.inj (hstep.symm.trans hstep'), hi, hout', hs⟩
  · -- the line is too long for the assertion, or for the buffer
    left
    unfold walkStep at hstep
    rw [if_neg (not_not.mpr hin), hprint] at hstep
    split at hstep
    · cases hstep
    · simp only [Loop.ok_bind, Bool.false_eq_true, if_false] at hstep
      by_cases hout : last < w.i + e.bytes.length
      · rw [if_pos hout] at hstep
        exact ⟨hout, _, (Except.ok.inj hstep).symm, rfl⟩
      · rw [if_neg hout, if_pos (by rw [LOG_MAX_LOG_TRACE_LINE]; omega)] at hstep
        cases hstep

theorem walkStep_end (h : last ≤ w.i) : walkStep env last continueOnFailure w = .ok (.done w) := by
  unfold walkStep
  rw [if_pos (by omega)]
  rfl

/-- **The walk over records** that end in the range writes their lines in order,
and stands behind the last of them. -/
theorem walk_lines {line : Entry → List UInt8} (hlast : last < 2147483648) :
    ∀ {rs : List Entry} {w : Walk}, w.log.ringBuffer.size < 2147483648 →
      RecordsAt w.log.ringBuffer w.i rs → (∀ e ∈ rs, e.bytes.length ≤ w.log.ringBuffer.size) →
      (∀ e ∈ rs, e.Prints env (line e) ∧ (line e).length ≤ 4096) → w.i + (flat rs).length ≤ last →
      ∃ w', Loop.Reaches .fuel (walkStep env last continueOnFailure) rs.length w w' ∧
        w'.i = w.i + (flat rs).length ∧ w'.out = w.out ++ lines line rs ∧ w.log.Same w'.log
  | [], w, _, _, _, _, _ => ⟨w, Loop.Reaches.refl w, rfl, by simp [lines], Same.refl _⟩
  | e :: rs, w, hS, hat, hfit, hp, hend => by
    rw [flat_cons, List.length_append] at hend
    obtain ⟨hp1, hp2⟩ := hp e List.mem_cons_self
    obtain ⟨w1, hstep, hi1, hout1, hs1⟩ := walkStep_line env continueOnFailure
      hS (hfit e List.mem_cons_self) hlast hat.1 hp1 (by omega) hp2
    have hrb := hs1.ringBuffer
    obtain ⟨w2, hreach, hi2, hout2, hs2⟩ := walk_lines hlast (w := w1) (by rw [hrb]; exact hS)
      (by rw [hrb, hi1]; exact hat.2) (fun x hx => by rw [hrb]; exact hfit x (List.mem_cons_of_mem _ hx))
      (fun x hx => hp x (List.mem_cons_of_mem _ hx)) (by omega)
    refine ⟨w2, ((Loop.Reaches.single hstep).trans hreach).mono (by rw [List.length_cons]; omega), ?_, ?_,
      hs1.trans hs2⟩
    · rw [hi2, hi1, flat_cons, List.length_append, Nat.add_assoc]
    · rw [hout2, hout1, List.append_assoc]
      rfl

theorem fit_of_recordsAt {rb : RingBuffer} (h4096 : 4096 ≤ rb.size) :
    ∀ {q : ℕ} {rs : List Entry}, RecordsAt rb q rs →
    ∀ e ∈ rs, e.bytes.length ≤ rb.size
  | _, [], _, e, he => absurd he List.not_mem_nil
  | q, x :: rs, hat, e, he => by
    rcases List.mem_cons.mp he with rfl | he
    · exact (RingBuffer.entry_length hat.1).2.2.trans h4096
    · exact fit_of_recordsAt h4096 hat.2 e he

/-- **The walk over records that reach the end of the range** writes the lines of
those that end in it, and none of them is too long. -/
theorem walk_prefix {line : Entry → List UInt8} (hlast : last < 2147483648) {rs : List Entry}
    {n : ℕ} {w' : Walk} (hS : w.log.ringBuffer.size < 2147483648)
    (h4096 : 4096 ≤ w.log.ringBuffer.size) (hat : RecordsAt w.log.ringBuffer w.i rs)
    (hp : ∀ e ∈ rs, e.Genuine ∧ e.Prints env (line e)) (hi : w.i ≤ last)
    (hend : last ≤ w.i + (flat rs).length)
    (hrun : Loop.run .fuel (walkStep env last continueOnFailure) n w = .ok w') :
    ∃ top rest, rs = top ++ rest ∧ w'.out = w.out ++ lines line top ∧ w.i + (flat top).length ≤ last ∧
      ∀ e ∈ top, (line e).length ≤ 4096 := by
  induction rs generalizing n w with
  | nil =>
    rw [flat_nil, List.length_nil] at hend
    have hdone := walkStep_end env continueOnFailure (show last ≤ w.i by omega)
    rcases Loop.run_inv hrun with hstep | ⟨m, w1, hstep, -⟩
    · rw [hdone] at hstep
      cases hstep
      exact ⟨[], [], rfl, (List.append_nil _).symm, hi, by simp⟩
    · rw [hdone] at hstep
      cases hstep
  | cons e rs ih =>
    rw [flat_cons, List.length_append] at hend
    obtain ⟨hg, hprint⟩ := hp e List.mem_cons_self
    -- nothing of `e :: rs` is written when the walk ends here
    have hstop : ∀ w1 : Walk, w1.out = w.out → ∃ top rest, e :: rs = top ++ rest ∧
        w1.out = w.out ++ lines line top ∧
        w.i + (flat top).length ≤ last ∧ ∀ e ∈ top, (line e).length ≤ 4096 := fun w1 hout =>
      ⟨[], e :: rs, rfl, by rw [hout]; exact (List.append_nil _).symm, hi, by simp⟩
    rcases Nat.lt_or_ge w.i last with hin | hout
    swap
    · have hdone := walkStep_end env continueOnFailure hout
      rcases Loop.run_inv hrun with hstep | ⟨m, w1, hstep, -⟩
      · rw [hdone] at hstep
        cases hstep
        exact hstop _ rfl
      · rw [hdone] at hstep
        cases hstep
    rcases Loop.run_inv hrun with hstep | ⟨m, w1, hstep, hrest⟩
    · rcases walkStep_record env continueOnFailure hS
          (hg.length_le.trans h4096) hlast hat.1 hg hprint hin hstep with
        ⟨-, w1, hr, hout⟩ | ⟨-, -, w1, hr, -⟩
      · cases hr
        exact hstop w' hout
      · cases hr
    · rcases walkStep_record env continueOnFailure hS
          (hg.length_le.trans h4096) hlast hat.1 hg hprint hin hstep with
        ⟨-, w2, hr, -⟩ | ⟨hle, hshort, w2, hr, hi1, hout, hs⟩
      · cases hr
      · cases hr
        have hrb := hs.ringBuffer
        obtain ⟨top, rest, rfl, hout', hle', hshort'⟩ := ih (by rw [hrb]; exact hS) (by rw [hrb]; exact h4096)
          (by rw [hrb, hi1]; exact hat.2) (fun x hx => hp x (List.mem_cons_of_mem _ hx)) (by omega)
            (by omega) hrest
        refine ⟨e :: top, rest, rfl, by rw [hout', hout, List.append_assoc]; rfl, ?_, ?_⟩
        · rw [flat_cons, List.length_append]
          omega
        · intro x hx
          rcases List.mem_cons.mp hx with rfl | hx
          · exact hshort
          · exact hshort' x hx

/-! ### A range of records -/

/-- The end of the range that `dumpRange` walks. -/
def rangeEnd (S start last : ℕ) : ℕ := if last % S + 1 < start % S then S else last % S + 1

theorem rangeEnd_le {S : ℕ} (hS : 0 < S) (start last : ℕ) : rangeEnd S start last ≤ S := by
  have h := Nat.mod_lt last hS
  unfold rangeEnd
  split <;> omega

theorem rangeEnd_eq {S start last : ℕ} (hstart : start % S ≤ last + 1) (hlast : last < S) :
    rangeEnd S start last = last + 1 := by
  unfold rangeEnd
  rw [Nat.mod_eq_of_lt hlast, if_neg (by omega)]

theorem rangeEnd_sub_one {S start stop : ℕ} (hstart : start % S < stop) (hstop : stop ≤ S)
    (hS : S < 4294967296) :
    rangeEnd S start (u32Sub stop 1) = stop := by
  rw [u32Sub_of_le (by omega) (by omega), rangeEnd_eq (by omega) (by omega)]
  omega

theorem dumpRange_eq (fuel : ℕ) (log : Log) (start last : ℕ) :
    dumpRange env fuel log start last continueOnFailure = (do
      let w ← Loop.run .fuel
        (walkStep env (rangeEnd log.ringBuffer.size start last) continueOnFailure) fuel
        ⟨start % log.ringBuffer.size, stackBuffer env, zeroHeader, log, []⟩
      return (w.i, w.log, w.out)) := by
  have hlt := Nat.mod_lt last log.ringBuffer.size_pos
  have hS := log.ringBuffer.size_lt
  have hu : u32 (last % log.ringBuffer.size + 1) = last % log.ringBuffer.size + 1 := u32_of_lt (by omega)
  simp only [dumpRange, RingBuffer.normalize, hu, rangeEnd]

/-- **A range of records**: their lines are written in order, and the index behind
the range is returned. -/
theorem dumpRange_lines (line : Entry → List UInt8) (log : Log) (rs : List Entry) (start last : ℕ)
    (hS : log.ringBuffer.size < 2147483648) (hat : RecordsAt log.ringBuffer (start % log.ringBuffer.size) rs)
    (hfit : ∀ e ∈ rs, e.bytes.length ≤ log.ringBuffer.size)
    (hp : ∀ e ∈ rs, e.Prints env (line e) ∧ (line e).length ≤ 4096)
    (hend : start % log.ringBuffer.size + (flat rs).length = rangeEnd log.ringBuffer.size start last) :
    ∃ log', log.Same log' ∧ ∀ fuel, log.ringBuffer.size < fuel →
      dumpRange env fuel log start last continueOnFailure =
        .ok (rangeEnd log.ringBuffer.size start last, log', lines line rs) := by
  have hle := rangeEnd_le log.ringBuffer.size_pos start last
  obtain ⟨w, hreach, hi, hout, hs⟩ := walk_lines env continueOnFailure
    (w := ⟨start % log.ringBuffer.size, stackBuffer env, zeroHeader, log, []⟩)
    (show rangeEnd log.ringBuffer.size start last < 2147483648 by omega) hS hat hfit hp hend.le
  have hcount := length_le_flat rs
  refine ⟨w.log, hs, fun fuel hfuel => ?_⟩
  have hrun := hreach.run_done (walkStep_end env continueOnFailure (by rw [hi]; exact hend.ge))
    (show rs.length < fuel by omega)
  rw [dumpRange_eq, hrun, Loop.ok_bind, hi, hout, hend]
  rfl

/-- In a ring of at least 4096 bytes. -/
theorem dumpRange_records (line : Entry → List UInt8) (log : Log) (rs : List Entry) (start last : ℕ)
    (hS : log.ringBuffer.size < 2147483648) (h4096 : 4096 ≤ log.ringBuffer.size)
    (hat : RecordsAt log.ringBuffer (start % log.ringBuffer.size) rs)
    (hp : ∀ e ∈ rs, e.Prints env (line e) ∧ (line e).length ≤ 4096)
    (hend : start % log.ringBuffer.size + (flat rs).length = rangeEnd log.ringBuffer.size start last) :
    ∃ log', log.Same log' ∧ ∀ fuel, log.ringBuffer.size < fuel →
      dumpRange env fuel log start last continueOnFailure =
        .ok (rangeEnd log.ringBuffer.size start last, log', lines line rs) :=
  dumpRange_lines env continueOnFailure line log rs start last hS hat (fit_of_recordsAt h4096 hat) hp hend

/-! ### What a round can do -/

theorem printAtIndex_inv {entry dst : List UInt8} {retry : Bool} {hdr : Header} {p : Printed}
    (hS : log.ringBuffer.size < 2147483648) (hfit : entry.length ≤ log.ringBuffer.size)
    (h : log.ringBuffer.entryAt q = some entry) (hq : q < 2147483648)
    (hp : printAtIndex env log q dst retry hdr = .ok p) :
    ∃ rest r, decodeFromArgsBuffer env (env.strings (Header.ofBytes entry).format) (entry ++ rest) 56
        (entry.length - 8) (printPrefix env (Header.ofBytes entry)) = .ok r ∧ 56 ≤ r.argsBufferIndex ∧
          p.err = false ∧
      p.printed_header = Header.ofBytes entry ∧ p.next_index = q + r.argsBufferIndex + 8 ∧
        log.Same p.log := by
  obtain ⟨rest, hbuf, hprint⟩ := printAtIndex_some env hS hfit h dst retry hdr
  rw [hprint] at hp
  obtain ⟨r, hdec, hp⟩ := Loop.bind_eq_ok.mp hp
  obtain ⟨h1, h2⟩ := decodeFromArgsBuffer_bounds (by omega) (by omega) hdec
  by_cases hlong : LOG_MAX_LOG_TRACE_LINE * 2 < r.outputString.written.length
  · simp only [if_pos hlong, Loop.throw_eq_error, Loop.error_bind] at hp
    cases hp
  · simp only [if_neg hlong] at hp
    obtain rfl := Except.ok.inj hp
    refine ⟨rest, r, hdec, h1, rfl, rfl, ?_, ⟨_, rfl⟩⟩
    rw [indexInc_of_lt (by omega), u32_of_lt (by omega), Nat.add_comm r.argsBufferIndex]

/-- `getNextHeader` finds the first position that has an entry, or the ring has
none. -/
theorem getNextHeader_cases (hS : log.ringBuffer.size < 2147483648) (h4096 : 4096 ≤ log.ringBuffer.size)
    (hq : q + log.ringBuffer.size < 4294967296) (buf : Option (List UInt8)) :
    (∃ j entry, log.ringBuffer.entryAt (q + j) = some entry ∧
      (∀ i < j, log.ringBuffer.entryAt (q + i) = none) ∧
      ∃ buf' log', log.Same log' ∧ getNextHeader env log q buf = .ok (q + j, buf', log')) ∨
    ((∀ i, log.ringBuffer.entryAt (q + i) = none) ∧
      ∃ buf' log', log.Same log' ∧ getNextHeader env log q buf = .ok (0, buf', log')) := by
  by_cases hex : ∃ p, log.ringBuffer.entryAt p ≠ none
  · left
    obtain ⟨j, hj, entry, hentry, hmin⟩ := exists_first_entry log.ringBuffer q hex
    obtain ⟨buf', st, -, -, hnext⟩ := getNextHeader_some env hS h4096 hq hj.le hmin hentry buf
    exact ⟨j, entry, hentry, hmin, _, _, ⟨_, rfl⟩, hnext⟩
  · right
    have hnone : ∀ i, log.ringBuffer.entryAt (q + i) = none := fun i => not_not.mp fun h => hex ⟨_, h⟩
    obtain ⟨buf', st, -, -, hnext⟩ := getNextHeader_none env hS h4096 hq hnone buf
    exact ⟨hnone, buf', _, ⟨_, rfl⟩, hnext⟩

/-- **A round on a position without an entry** writes a notice. It ends a walk that
does not go on after a failure at the next entry, ends another one that finds the
next entry behind the range, and otherwise moves there. In a ring without entries
the next one is at 0. -/
theorem walkStep_search (hS : w.log.ringBuffer.size < 2147483648) (h4096 : 4096 ≤ w.log.ringBuffer.size)
    (hlast : last ≤ w.log.ringBuffer.size) (hin : w.i < last) (hentry : w.log.ringBuffer.entryAt w.i = none) :
    ∃ new_i t, ∃ w' : Walk, w.log.Same w'.log ∧ w'.out = w.out ++ [.notice t] ∧
      ((w.i < new_i ∧ w.log.ringBuffer.entryAt new_i ≠ none ∧
          ∀ x, w.i ≤ x → x < new_i → w.log.ringBuffer.entryAt x = none) ∨
        (new_i = 0 ∧ ∀ i, w.log.ringBuffer.entryAt (w.i + i) = none)) ∧
      walkStep env last continueOnFailure w = .ok (
        if ¬ continueOnFailure then .done { w' with i := new_i }
        else if last < new_i then .done { w' with i := w.i } else .again { w' with i := new_i }) := by
  obtain ⟨log1, hprint, hs1⟩ := printAtIndex_none env hS h4096 hentry w.traceBuffer (!continueOnFailure)
    w.printedHeader
  have hrb := hs1.ringBuffer
  have hround : ∀ new_i buf log2, getNextHeader env log1 w.i (some (overlay [0] w.traceBuffer)) =
      .ok (new_i, buf, log2) → ∃ t tb, walkStep env last continueOnFailure w = .ok (
        if ¬ continueOnFailure then .done ⟨new_i, tb, w.printedHeader, log2, w.out ++ [.notice t]⟩
        else if last < new_i then .done ⟨w.i, tb, w.printedHeader, log2, w.out ++ [.notice t]⟩
        else .again ⟨new_i, tb, w.printedHeader, log2, w.out ++ [.notice t]⟩) := by
    intro new_i buf log2 hnext
    unfold walkStep
    rw [if_neg (not_not.mpr hin), hprint]
    simp only [Loop.ok_bind, if_true, hnext]
    generalize noticeText env log2 (Header.ofBytes (buf.getD (overlay [0] w.traceBuffer))) new_i
      w.printedHeader = t
    refine ⟨t, overlay (t ++ [0]) (buf.getD (overlay [0] w.traceBuffer)), ?_⟩
    cases continueOnFailure with
    | false => rfl
    | true =>
      by_cases hout : last < new_i
      · simp only [hout, if_true, not_true_eq_false, if_false, Loop.pure_eq_ok]
      · simp only [hout, not_true_eq_false, if_false, Loop.pure_eq_ok]
  rcases getNextHeader_cases env (q := w.i) (by rw [hrb]; exact hS) (by rw [hrb]; exact h4096)
    (by rw [hrb]; omega) (some (overlay [0] w.traceBuffer)) with
    ⟨j, entry, hj, hmin, buf, log2, hs2, hnext⟩ | ⟨hnone, buf, log2, hs2, hnext⟩
  · rw [hrb] at hj hmin
    obtain ⟨t, tb, hstep⟩ := hround _ _ _ hnext
    have hj0 : j ≠ 0 := by
      rintro rfl
      rw [Nat.add_zero, hentry] at hj
      cases hj
    refine ⟨w.i + j, t, ⟨w.i, tb, w.printedHeader, log2, w.out ++ [.notice t]⟩, hs1.trans hs2, rfl,
      .inl ⟨Nat.lt_add_of_pos_right (Nat.pos_of_ne_zero hj0), by simp [hj], fun x hx hx' => ?_⟩, hstep⟩
    obtain ⟨i, rfl⟩ := Nat.exists_eq_add_of_le hx
    exact hmin i (Nat.lt_of_add_lt_add_left hx')
  · rw [hrb] at hnone
    obtain ⟨t, tb, hstep⟩ := hround _ _ _ hnext
    exact ⟨0, t, ⟨w.i, tb, w.printedHeader, log2, w.out ++ [.notice t]⟩, hs1.trans hs2, rfl,
      .inr ⟨rfl, hnone⟩, hstep⟩

/-- A round on a position without an entry, in a walk that goes on after a failure. -/
theorem walkStep_notice {r : Loop.Next Walk Walk} (hS : w.log.ringBuffer.size < 2147483648)
    (h4096 : 4096 ≤ w.log.ringBuffer.size) (hlast : last ≤ w.log.ringBuffer.size) (hin : w.i < last)
    (hentry : w.log.ringBuffer.entryAt w.i = none) (h : walkStep env last true w = .ok r) :
    ∃ w' t, w.log.Same w'.log ∧ w'.out = w.out ++ [.notice t] ∧
      ((w'.i = w.i ∧ r = .done w') ∨
       (r = .again w' ∧ w'.i ≤ last ∧
        ((w.i < w'.i ∧ w.log.ringBuffer.entryAt w'.i ≠ none ∧
            ∀ x, w.i ≤ x → x < w'.i → w.log.ringBuffer.entryAt x = none) ∨
          ∀ i, w.log.ringBuffer.entryAt (w.i + i) = none))) := by
  obtain ⟨new_i, t, w', hs, hout, hfound, hstep⟩ := walkStep_search env true hS h4096 hlast hin hentry
  rw [hstep, if_neg (not_not.mpr rfl)] at h
  by_cases hbehind : last < new_i
  · rw [if_pos hbehind] at h
    exact ⟨{ w' with i := w.i }, t, hs, hout, .inl ⟨rfl, (Except.ok.inj h).symm⟩⟩
  · rw [if_neg hbehind] at h
    refine ⟨{ w' with i := new_i }, t, hs, hout, .inr ⟨(Except.ok.inj h).symm, Nat.le_of_not_lt hbehind, ?_⟩⟩
    exact hfound.imp id And.right

/-- A round on an entry stops if the entry ends behind the range, and otherwise
writes its line and moves on. -/
theorem walkStep_entry {r : Loop.Next Walk Walk} {entry : List UInt8}
    (hS : w.log.ringBuffer.size < 2147483648) (h4096 : 4096 ≤ w.log.ringBuffer.size)
    (hlast : last ≤ w.log.ringBuffer.size) (hin : w.i < last)
    (hentry : w.log.ringBuffer.entryAt w.i = some entry)
    (h : walkStep env last continueOnFailure w = .ok r) :
    ∃ w', w.log.Same w'.log ∧
      ((w'.i = w.i ∧ w'.out = w.out ∧ r = .done w') ∨
       (r = .again w' ∧ w'.i ≤ last ∧ ∃ rest d text,
          decodeFromArgsBuffer env (env.strings (Header.ofBytes entry).format) (entry ++ rest) 56
            (entry.length - 8) (printPrefix env (Header.ofBytes entry)) = .ok d ∧
              56 ≤ d.argsBufferIndex ∧ w'.i = w.i + d.argsBufferIndex + 8 ∧
          w'.out = w.out ++ [.line (Header.ofBytes entry) text])) := by
  unfold walkStep at h
  rw [if_neg (not_not.mpr hin)] at h
  obtain ⟨p, hprint, h⟩ := Loop.bind_eq_ok.mp h
  obtain ⟨rest, d, hdec, hd, herr, hhdr, hnext, hs⟩ := printAtIndex_inv env hS
    ((RingBuffer.entry_length hentry).2.2.trans h4096) hentry (by omega) hprint
  simp only [herr, Bool.false_eq_true, if_false, hhdr] at h
  by_cases hout : last < p.next_index
  · rw [if_pos hout] at h
    exact ⟨⟨w.i, p.dst, Header.ofBytes entry, p.log, w.out⟩, hs, .inl ⟨rfl, rfl, (Except.ok.inj h).symm⟩⟩
  · rw [if_neg hout] at h
    by_cases hlong : LOG_MAX_LOG_TRACE_LINE < p.stringLength
    · simp only [if_pos hlong, Loop.throw_eq_error, Loop.error_bind] at h
      cases h
    · simp only [if_neg hlong] at h
      exact ⟨⟨p.next_index, p.dst, Header.ofBytes entry,
        { p.log with stats.collectCount := p.log.stats.collectCount + 1 },
        w.out ++ [.line (Header.ofBytes entry) (p.dst.take p.stringLength)]⟩, hs.trans ⟨_, rfl⟩,
        .inr ⟨(Except.ok.inj h).symm, Nat.le_of_not_lt hout, rest, d, _, hdec, hd, hnext, rfl⟩⟩

/-- The walk that a round leaves, whether it goes on or not. -/
def after : Loop.Next Walk Walk → Walk
  | .again w => w
  | .done w => w

/-- `getLog` changes nothing but counters. -/
theorem getLog_same {buf buf' : List UInt8} {b : Bool} {log' : Log}
    (h : log.getLog q buf = .ok (b, buf', log')) :
    log.Same log' := by
  unfold getLog at h
  obtain ⟨read_hdr, -, h⟩ := Loop.bind_eq_ok.mp h
  dsimp only at h
  split at h
  · cases h
    exact ⟨_, rfl⟩
  split at h
  · cases h
    exact ⟨_, rfl⟩
  obtain ⟨entry, -, h⟩ := Loop.bind_eq_ok.mp h
  split at h
  · cases h
    exact ⟨_, rfl⟩
  split at h
  all_goals
    cases h
    exact ⟨_, rfl⟩

theorem isEntryValid_same {buf buf' : Option (List UInt8)} {b : Bool} {log' : Log}
    (h : isEntryValid env log q buf = .ok (b, buf', log')) : log.Same log' := by
  cases buf with
  | none =>
    obtain ⟨⟨b', buf1, log1⟩, hget, h⟩ := Loop.bind_eq_ok.mp h
    cases h
    exact getLog_same hget
  | some buf =>
    obtain ⟨⟨b', buf1, log1⟩, hget, h⟩ := Loop.bind_eq_ok.mp h
    cases h
    exact getLog_same hget

/-- A round of the search ends at a start pattern, or moves on. -/
theorem searchStep_inv {s : Search} {r : Loop.Next Search (ℕ × Option (List UInt8) × Log)}
    (h : searchStep env s = .ok r) :
    ∃ buf log', s.log.Same log' ∧
      ((r = .done (s.index, buf, log') ∧
          read s.log.ringBuffer.size s.log.ringBuffer.buffer s.index 4 = leBytes 4 START_PATTERN.toNat) ∨
        r = ({ s with buf := buf, log := log' } : Search).advance) := by
  unfold searchStep at h
  simp only [RingBuffer.compare_eq, Loop.ok_bind, leBytes_length] at h
  by_cases hc : read s.log.ringBuffer.size s.log.ringBuffer.buffer s.index 4 = leBytes 4 START_PATTERN.toNat
  · rw [if_pos hc, if_neg (by decide)] at h
    obtain ⟨⟨valid, buf, log'⟩, hvalid, h⟩ := Loop.bind_eq_ok.mp h
    have hs := isEntryValid_same env hvalid
    cases valid with
    | true =>
      cases h
      exact ⟨_, _, hs.trans ⟨_, rfl⟩, .inl ⟨rfl, hc⟩⟩
    | false =>
      cases h
      exact ⟨_, _, hs, .inr rfl⟩
  · rw [if_neg hc, if_pos (by decide)] at h
    cases h
    exact ⟨s.buf, s.log, Same.refl _, .inr rfl⟩

theorem getNextHeader_same {buf buf' : Option (List UInt8)} {i : ℕ} {log' : Log}
    (h : getNextHeader env log q buf = .ok (i, buf', log')) : log.Same log' := by
  have hround : ∀ s r, log.Same s.log → searchStep env s = .ok r →
      (∀ s', r = .again s' → log.Same s'.log) ∧ ∀ b, r = .done b → log.Same b.2.2 := by
    intro s r hs hstep
    obtain ⟨buf1, log1, hs1, ⟨rfl, -⟩ | rfl⟩ := searchStep_inv env hstep
    · refine ⟨fun s' h => (by cases h), fun b hb => ?_⟩
      cases hb
      exact hs.trans hs1
    · rw [Search.advance]
      split
      · refine ⟨fun s' h => (by cases h), fun b hb => ?_⟩
        cases hb
        exact hs.trans (hs1.trans ⟨_, rfl⟩)
      · refine ⟨fun s' h => ?_, fun b h => (by cases h)⟩
        cases h
        exact hs.trans hs1
  exact Loop.run_partial (fun s => log.Same s.log) (fun r => log.Same r.2.2)
    (fun s b hs hstep => (hround s _ hs hstep).2 b rfl) (fun s s' hs hstep => (hround s _ hs hstep).1 s' rfl)
    (Same.refl log) h

theorem spin_same : ∀ {n : ℕ} {buf buf' : List UInt8} {log log' : Log} {b : Bool},
    spin q n buf log = .ok (b, buf', log') → log.Same log'
  | 0, buf, _, log, _, _, h => by
    cases h
    exact Same.refl log
  | n + 1, buf, _, log, _, _, h => by
    obtain ⟨⟨success, buf1, log1⟩, hget, h⟩ := Loop.bind_eq_ok.mp h
    have hs := getLog_same hget
    cases success with
    | true =>
      cases h
      exact hs
    | false => exact hs.trans (spin_same h)

theorem printAtIndex_same {dst : List UInt8} {retry : Bool} {hdr : Header} {p : Printed}
    (h : printAtIndex env log q dst retry hdr = .ok p) : log.Same p.log := by
  obtain ⟨⟨success, scratch, log1⟩, hspin, h⟩ := Loop.bind_eq_ok.mp h
  have hs := spin_same hspin
  cases success with
  | false =>
    cases h
    exact hs.trans ⟨_, rfl⟩
  | true =>
    obtain ⟨r, -, h⟩ := Loop.bind_eq_ok.mp h
    dsimp only at h
    split at h
    · cases h
    · cases h
      exact hs.trans ⟨_, rfl⟩

/-- A round changes nothing but counters, and only adds to the output. -/
theorem walkStep_same {last : ℕ} {continueOnFailure : Bool} {w : Walk} {r : Loop.Next Walk Walk}
    (h : walkStep env last continueOnFailure w = .ok r) :
    w.log.Same (after r).log ∧ w.out <+: (after r).out := by
  unfold walkStep at h
  split at h
  · cases h
    exact ⟨Same.refl _, List.prefix_refl _⟩
  obtain ⟨p, hprint, h⟩ := Loop.bind_eq_ok.mp h
  have hs := printAtIndex_same env hprint
  split at h
  · obtain ⟨⟨new_i, buf, log1⟩, hnext, h⟩ := Loop.bind_eq_ok.mp h
    have hs1 := hs.trans (getNextHeader_same env hnext)
    dsimp only at h
    split at h
    · cases h
      exact ⟨hs1, List.prefix_append _ _⟩
    split at h
    all_goals
      cases h
      exact ⟨hs1, List.prefix_append _ _⟩
  · dsimp only at h
    split at h
    · cases h
      exact ⟨hs, List.prefix_refl _⟩
    split at h
    · cases h
    · cases h
      exact ⟨hs.trans ⟨_, rfl⟩, List.prefix_append _ _⟩

/-- **Induction over a range**: an invariant that every round keeps, with what it
says when the walk ends. -/
theorem dumpRange_induct {log log' : Log} {start last fuel i : ℕ} {out : List Chunk} (I P : Walk → Prop)
    (h : dumpRange env fuel log start last continueOnFailure = .ok (i, log', out))
    (h0 : ∀ buf, I ⟨start % log.ringBuffer.size, buf, zeroHeader, log, []⟩)
    (hagain : ∀ w w', log.Same w.log → I w →
      walkStep env (rangeEnd log.ringBuffer.size start last) continueOnFailure w = .ok (.again w') → I w')
    (hdone : ∀ w w', log.Same w.log → I w →
      walkStep env (rangeEnd log.ringBuffer.size start last) continueOnFailure w = .ok (.done w') → P w') :
    log.Same log' ∧ ∃ w, P w ∧ w.i = i ∧ w.out = out := by
  rw [dumpRange_eq] at h
  obtain ⟨w, hrun, hr⟩ := Loop.bind_eq_ok.mp h
  obtain ⟨rfl, hpair⟩ := Prod.mk.inj (Except.ok.inj hr)
  obtain ⟨rfl, rfl⟩ := Prod.mk.inj hpair
  have hP := Loop.run_partial (fun w => log.Same w.log ∧ I w) (fun w => log.Same w.log ∧ P w)
    (fun w w' hw hstep => ⟨hw.1.trans (walkStep_same env hstep).1, hdone w w' hw.1 hw.2 hstep⟩)
    (fun w w' hw hstep => ⟨hw.1.trans (walkStep_same env hstep).1, hagain w w' hw.1 hw.2 hstep⟩)
    ⟨Same.refl _, h0 _⟩ hrun
  exact ⟨hP.1, w, hP.2, rfl, rfl⟩

variable {continueOnFailure}

theorem dumpRange_same {log log' : Log} {start last fuel i : ℕ} {out : List Chunk}
    (h : dumpRange env fuel log start last continueOnFailure = .ok (i, log', out)) : log.Same log' :=
  (dumpRange_induct env continueOnFailure (fun _ => True) (fun _ => True) h (fun _ => trivial)
    (fun _ _ _ _ _ => trivial) (fun _ _ _ _ _ => trivial)).1

/-- A range that starts where there is no entry gives a notice. -/
theorem dumpRange_notice {log log' : Log} {start last fuel i : ℕ} {out : List Chunk}
    (hS : log.ringBuffer.size < 2147483648) (h4096 : 4096 ≤ log.ringBuffer.size)
    (hstart : start % log.ringBuffer.size < rangeEnd log.ringBuffer.size start last)
    (hentry : log.ringBuffer.entryAt (start % log.ringBuffer.size) = none)
    (h : dumpRange env fuel log start last continueOnFailure = .ok (i, log', out)) :
    ∃ t, .notice t ∈ out := by
  have hle := rangeEnd_le log.ringBuffer.size_pos start last
  -- the first round writes the notice, and later ones only add to the output
  have hround : ∀ w r, log.Same w.log →
      (w.i = start % log.ringBuffer.size ∧ w.out = []) ∨ (∃ t, Chunk.notice t ∈ w.out) →
      walkStep env (rangeEnd log.ringBuffer.size start last) continueOnFailure w = .ok r →
      ∃ t, Chunk.notice t ∈ (after r).out := by
    intro w r hs hI hstep
    have hrb := hs.ringBuffer
    rcases hI with ⟨hi, -⟩ | ⟨t, ht⟩
    · obtain ⟨new_i, t, w', -, hout, -, hsearch⟩ :=
        walkStep_search env continueOnFailure (by rw [hrb]; exact hS)
        (by rw [hrb]; exact h4096)
        (show rangeEnd log.ringBuffer.size start last ≤ w.log.ringBuffer.size by rw [hrb]; exact hle)
        (by rw [hi]; exact hstart) (by rw [hrb, hi]; exact hentry)
      have hafter : (after r).out = w.out ++ [.notice t] := by
        rw [← Except.ok.inj (hsearch.symm.trans hstep), ← hout]
        split
        · rfl
        · split <;> rfl
      rw [hafter]
      exact ⟨t, List.mem_append_right _ List.mem_cons_self⟩
    · exact ⟨t, (walkStep_same env hstep).2.subset ht⟩
  obtain ⟨-, w, ht, -, rfl⟩ := dumpRange_induct env continueOnFailure
    (fun w => (w.i = start % log.ringBuffer.size ∧ w.out = []) ∨ ∃ t, Chunk.notice t ∈ w.out)
    (fun w => ∃ t, Chunk.notice t ∈ w.out) h (fun _ => .inl ⟨rfl, rfl⟩)
    (fun w w' hs hI hstep => .inr (hround w _ hs hI hstep)) (fun w w' hs hI hstep => hround w _ hs hI hstep)
  exact ht

end Log

/-! ### Records of one string

Calls with the format `%s`, for the runs that show what goes wrong. -/

/-- Every format is `%s`. -/
def stringEnv : Env := exampleEnv fun _ => ⟨ascii "%s", by decide, by decide⟩

/-- Log the string `s`, without a time. -/
def stringCall (s : CString) : Call := ⟨false, 0, 0, 0, 0, [.str (some s)], (0, 0), 0, 0⟩

/-- The text of a call of `stringCall`. -/
def callText (call : Call) : List UInt8 :=
  match call.args with
  | [.str s] => stringText s
  | _ => []

/-- A string of `n` letters. -/
def letters (n : ℕ) (h : n < 2147483648) : CString where
  bytes := List.replicate n (chr 'a')
  nul_free := by simp [chr]
  length_lt := by simpa using h

theorem letters_length (n : ℕ) (h : n < 2147483648) : (letters n h).bytes.length = n := List.length_replicate

theorem stage_string {s : CString} (h : s.bytes.length + 65 ≤ 4096) :
    Log.stage stringEnv (stringCall s) = .ok (s.bytes ++ [0]) := by
  have henc : encodeToArgsBuffer (stringEnv.strings 0) [.str (some s)] = .ok (s.bytes ++ [0]) := by
    rw [encodeToArgsBuffer_eq]
    simp [show encodeScan false (stringEnv.strings 0).bytes =
      ([.string], true) by decide, storeAll, Kind.store, vaString, memSetString]
  unfold Log.stage
  simp only [stringCall, henc, Loop.ok_bind, List.length_append, List.length_singleton]
  rw [if_neg (by rw [LOG_MAX_LOG_TRACE_LINE, Header.size, Trailer.size]; omega),
    if_neg (by rw [LOG_MAX_LOG_TRACE_LINE, Header.size, Trailer.size]; omega)]
  rfl

theorem roundTrips_string (s : CString) : RoundTrips stringEnv (stringEnv.strings (stringCall s).format)
    (stringCall s).args (callText (stringCall s)) := by
  have h := roundTrips_pieces stringEnv printf_sprintfDecimal [.str] ⟨ascii "%s", by decide, by decide⟩ rfl
    (by simp) [.str (some s)] (.cons trivial .nil)
  have htext : immediate stringEnv.sprintf [.str] [.str (some s)] = callText (stringCall s) :=
    List.append_nil _
  rw [htext] at h
  exact h

/-- Logging a string: a record of 65 bytes and the string. -/
theorem trace_string (log : Log) (s : CString) (h1 : log.ringBuffer.size < 2147483648)
    (h0 : 4096 ≤ log.ringBuffer.size) (h : s.bytes.length + 65 ≤ 4096) :
    ∃ log' e, log.traceVargs stringEnv (stringCall s) = .ok (log', e) ∧
      Traced stringEnv log (stringCall s) log' e ∧ e.args = s.bytes ++ [0] ∧
      e.bytes.length = s.bytes.length + 65 ∧ Log.printPrefix stringEnv e.header = [] := by
  have hstage := stage_string h
  obtain ⟨log', e, hok, ht⟩ :=
    traceVargs_ok h1 hstage (by rw [List.length_append, List.length_singleton]; omega)
  have hargs : e.args = s.bytes ++ [0] := Except.ok.inj (ht.staged.symm.trans hstage)
  refine ⟨log', e, hok, ht, hargs, ?_, ?_⟩
  · rw [e.length_eq, hargs, List.length_append, List.length_singleton]
    omega
  · have hsec : e.header.tv_sec = 0 := by
      rw [ht.header]
      rfl
    unfold Log.printPrefix
    simp only [hsec]
    rfl

theorem traceAll_strings {S : ℕ} (h0 : 4096 ≤ S) (h1 : S < 2147483648) (ss : List CString)
    (hss : ∀ s ∈ ss, s.bytes.length + 65 ≤ 4096) :
    ∃ log es, traceAll stringEnv (Log.new S (lines_pos h0) h1) (ss.map stringCall) = .ok (log, es) ∧
      Tracks S log es ∧
      es.map Entry.args = ss.map (·.bytes ++ [0]) := by
  have hfit : Fits stringEnv S (ss.map stringCall) := by
    intro call hcall
    obtain ⟨s, hs, rfl⟩ := List.mem_map.mp hcall
    have hlen := hss s hs
    exact ⟨_, stage_string hlen, by rw [List.length_append, List.length_singleton]; omega⟩
  obtain ⟨log, es, hrun, -, htracks⟩ := traceAll_tracks h1 hfit (Tracks.new (by omega) h1)
  obtain ⟨-, hcalls, htraced⟩ := traceAll_traced h0 h1 (Tracks.new (by omega) h1) hrun
  rw [List.nil_append] at htracks
  refine ⟨log, es, hrun, htracks, ?_⟩
  -- what a call stages is what its record holds
  clear hrun htracks hfit
  induction ss generalizing es with
  | nil => rw [List.map_eq_nil_iff.mp hcalls, List.map_nil, List.map_nil]
  | cons s ss ih =>
    obtain ⟨e, es, rfl, he, hes⟩ := List.map_eq_cons_iff.mp hcalls
    obtain ⟨log0, log1, ht⟩ := htraced e List.mem_cons_self
    have hstage := ht.staged
    rw [he, stage_string (hss s List.mem_cons_self)] at hstage
    rw [List.map_cons, List.map_cons, ← Except.ok.inj hstage,
      ih (fun s hs => hss s (List.mem_cons_of_mem _ hs)) es hes fun e he =>
        htraced e (List.mem_cons_of_mem _ he)]

end Memlog

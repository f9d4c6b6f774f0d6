/-
# The log as a journal

What the ring is for: a journal of records, of which the ring keeps the last `S`
bytes. `Tracks S log es` relates a log to the journal `es` of all records
written so far: the block is the image of the records' bytes one behind the
other, and the index stands at their end modulo `S`, however often it was
reduced. `traceVargs` appends to the journal (`Tracks.step`), and a record whose
bytes are still among the last `S` is found where it was put
(`Tracks.entryAt`), so `getLog` returns it unchanged (`getLog_surviving`).

Key definitions: `flat`, `Entry.Genuine`, `Traced`, `Tracks`, `traceAll`.
-/
import Memlog.Entries
import Memlog.Lib.Split

namespace Memlog

open Circular

/-- The bytes of records, one behind the other. -/
def flat (es : List Entry) : List UInt8 := es.flatMap Entry.bytes

@[simp] theorem flat_nil : flat [] = [] := rfl

@[simp] theorem flat_cons (e : Entry) (es : List Entry) : flat (e :: es) = e.bytes ++ flat es := rfl

@[simp] theorem flat_append (es es' : List Entry) : flat (es ++ es') = flat es ++ flat es' :=
  List.flatMap_append

theorem flat_length_le {es es' : List Entry} (h : es <+: es') : (flat es).length ≤ (flat es').length := by
  obtain ⟨rest, rfl⟩ := h
  rw [flat_append, List.length_append]
  exact Nat.le_add_right _ _

theorem length_le_flat : ∀ es : List Entry, 64 * es.length ≤ (flat es).length
  | [] => Nat.le_refl 0
  | e :: es => by
    have ih := length_le_flat es
    have hlen : e.bytes.length = 64 + e.args.length := record_length _ _
    rw [flat_cons, List.length_append, List.length_cons]
    omega

/-- A record as `traceVargs` writes it: what `getLog` looks for in its header. -/
structure Entry.Genuine (e : Entry) : Prop where
  pattern : e.header.pattern = START_PATTERN
  length : e.header.length.toNat = e.bytes.length
  length_le : e.bytes.length ≤ 4096

@[simp] theorem Entry.ofBytes (e : Entry) : Header.ofBytes e.bytes = e.header := by
  have hof := Header.ofBytes_record e.header e.args []
  rwa [List.append_nil] at hof

theorem Entry.length_eq (e : Entry) : e.bytes.length = 64 + e.args.length := record_length _ _

/-- A position that holds the bytes of a genuine record has that entry. -/
theorem Entry.Genuine.entryAt {e : Entry} (he : e.Genuine) {rb : RingBuffer} {q : ℕ}
    (h : read rb.size rb.buffer q e.bytes.length = e.bytes) : rb.entryAt q = some e.bytes := by
  have hlen := e.length_eq
  have htrailer : e.bytes.drop (e.bytes.length - 8) = trailer e.header.id := by
    have hsplit : e.bytes.length - 8 = (e.header.bytes ++ e.args).length := by
      rw [hlen, List.length_append, Header.bytes_length]
      omega
    rw [hsplit, bytes, record, ← List.append_assoc, List.drop_left]
  exact RingBuffer.entryAt_of_read h (by rw [e.ofBytes, he.pattern]) (by rw [e.ofBytes, he.length]) (by omega)
    he.length_le (by rw [e.ofBytes, htrailer])

/-! ### A call -/

/-- What a call of `traceVargs` does. -/
structure Traced (env : Env) (log : Log) (call : Call) (log' : Log) (e : Entry) : Prop where
  forCall : e.call = call
  staged : Log.stage env call = .ok e.args
  location : e.location = log.ringBuffer.rollOver.currentIndex
  header : e.header =
    Log.setHeader log.ringBuffer.rollOver call (64 + e.args.length) e.location log.globalId
  ringBuffer : log'.ringBuffer = { log.ringBuffer.rollOver.advance e.bytes.length with
    buffer := write log.ringBuffer.size log.ringBuffer.buffer e.location e.bytes }
  lastWritten : log'.bufLastWrittenIndex = log'.ringBuffer.currentIndex
  globalId : log'.globalId = log.allocateId.2.globalId

/-- What is staged was encoded, and passed the assertion: the record has at most
4096 bytes. -/
theorem Log.stage_ok {env : Env} {call : Call} {args : List UInt8} (h : stage env call = .ok args) :
    encodeToArgsBuffer (env.strings call.format) call.args = .ok args ∧ 64 + args.length ≤ 4096 := by
  unfold stage at h
  obtain ⟨args', henc, h⟩ := Loop.bind_eq_ok.mp h
  simp only [Loop.throw_eq_error, Loop.error_bind, Loop.pure_eq_ok] at h
  by_cases h1 : LOG_MAX_LOG_TRACE_LINE + 1 < Header.size + args'.length + Trailer.size
  · rw [if_pos h1] at h
    cases h
  rw [if_neg h1] at h
  by_cases h2 : LOG_MAX_LOG_TRACE_LINE < Header.size + args'.length + Trailer.size
  · rw [if_pos h2] at h
    cases h
  rw [if_neg h2] at h
  obtain rfl := Except.ok.inj h
  rw [LOG_MAX_LOG_TRACE_LINE, Header.size, Trailer.size] at h2
  exact ⟨henc, by omega⟩

theorem Log.stage_length {env : Env} {call : Call} {args : List UInt8} (h : stage env call = .ok args) :
    64 + args.length ≤ 4096 := (stage_ok h).2

/-- A call whose record fits the ring does what it should. -/
theorem traceVargs_ok {env : Env} {log : Log} {call : Call} {args : List UInt8}
    (hS : log.ringBuffer.size < 2147483648) (h : Log.stage env call = .ok args)
    (hfit : 64 + args.length ≤ log.ringBuffer.size) :
    ∃ log' e, log.traceVargs env call = .ok (log', e) ∧ Traced env log call log' e := by
  have hroll := log.ringBuffer.rollOver_le hS
  have hle := Log.stage_length h
  let e : Entry := ⟨call, log.ringBuffer.rollOver.currentIndex,
    Log.setHeader (log.ringBuffer.rollOver.advance (64 + args.length)) call (64 + args.length)
      log.ringBuffer.rollOver.currentIndex log.globalId, args⟩
  have hlen : e.bytes.length = 64 + args.length := e.length_eq
  have hlen' : Header.size + args.length + Trailer.size = 64 + args.length := by
    rw [Header.size, Trailer.size]
    omega
  have hmod := Nat.mod_lt e.location log.ringBuffer.size_pos
  let rb' : RingBuffer := { log.ringBuffer.rollOver.advance (64 + args.length) with
    buffer := write log.ringBuffer.size log.ringBuffer.buffer e.location e.bytes }
  have hset : (log.ringBuffer.rollOver.advance (64 + args.length)).set e.location e.bytes = .ok rb' := by
    rw [RingBuffer.set_eq _ (by rw [hlen]; simpa using hfit) (by simp; omega)]
    simp [rb']
  refine ⟨Log.setLastWrittenIndex { log.allocateId.2 with ringBuffer := rb' } rb'.getCurrentIndex, e, ?_, ?_⟩
  · unfold Log.traceVargs
    simp only [h, Loop.ok_bind, hlen', Log.allocateId, RingBuffer.allocate]
    rw [hset]
    rfl
  · exact ⟨rfl, h, rfl, rfl, by rw [hlen]; rfl, rfl, rfl⟩

/-- In a ring of at least 4096 bytes every call that returns does what it should. -/
theorem traced_of_ok {env : Env} {log log' : Log} {call : Call} {e : Entry}
    (hS : log.ringBuffer.size < 2147483648) (h4096 : 4096 ≤ log.ringBuffer.size)
    (h : log.traceVargs env call = .ok (log', e)) : Traced env log call log' e := by
  obtain ⟨args, hstage, -⟩ := Loop.bind_eq_ok.mp h
  have hle := Log.stage_length hstage
  obtain ⟨log'', e', h', ht⟩ := traceVargs_ok hS hstage (hle.trans h4096)
  rw [h] at h'
  obtain ⟨rfl, rfl⟩ := Prod.mk.inj (Except.ok.inj h')
  exact ht

section Traced

variable {env : Env} {log log' : Log} {call : Call} {e : Entry}

theorem Traced.genuine (h : Traced env log call log' e) : e.Genuine := by
  have hle := Log.stage_length h.staged
  have hlen := e.length_eq
  refine ⟨by rw [h.header]; rfl, ?_, by omega⟩
  rw [h.header, hlen]
  exact (UInt16.toNat_ofNat' ..).trans (Nat.mod_eq_of_lt (by omega))

theorem Traced.size (h : Traced env log call log' e) : log'.ringBuffer.size = log.ringBuffer.size := by
  rw [h.ringBuffer]
  simp

theorem Traced.buffer (h : Traced env log call log' e) :
    log'.ringBuffer.buffer = write log.ringBuffer.size log.ringBuffer.buffer e.location e.bytes := by
  rw [h.ringBuffer]

theorem Traced.currentIndex (h : Traced env log call log' e) (hS : log.ringBuffer.size < 2147483648) :
    log'.ringBuffer.currentIndex = e.location + e.bytes.length := by
  have hroll := log.ringBuffer.rollOver_le hS
  have hle := h.genuine.length_le
  rw [h.ringBuffer, h.location]
  exact RingBuffer.advance_current _ (by omega)

end Traced

/-! ### The journal behind a log -/

/-- The history of the block: zeros, and then the records. -/
def history (S : ℕ) (es : List Entry) : List UInt8 := List.replicate S 0 ++ flat es

@[simp] theorem history_length (S : ℕ) (es : List Entry) : (history S es).length = S + (flat es).length := by
  simp [history]

/-- The log has written the records `es`, into a ring of `S` bytes. -/
structure Tracks (S : ℕ) (log : Log) (es : List Entry) : Prop where
  size : log.ringBuffer.size = S
  image : Image S log.ringBuffer.buffer (history S es)
  current : log.ringBuffer.currentIndex % S = (flat es).length % S
  lastWritten : log.bufLastWrittenIndex = log.ringBuffer.currentIndex
  genuine : ∀ e ∈ es, e.Genuine
  location : ∀ pre e post, es = pre ++ e :: post → e.location % S = (flat pre).length % S
  current_pos : es ≠ [] → 0 < log.ringBuffer.currentIndex
  /-- The index has not been reduced while it is small. -/
  fresh : (flat es).length < 2147483648 →
    log.ringBuffer.currentIndex = (flat es).length ∧ log.ringBuffer.indexWrapAroundCount = 0

/-- A new log has an empty journal. -/
theorem Tracks.new {lines : ℕ} (h0 : 0 < lines) (h1 : lines < 2147483648) :
    Tracks lines (Log.new lines h0 h1) [] where
  size := rfl
  image x _ hx := by simp [history, Log.new, RingBuffer.new]
  current := rfl
  lastWritten := rfl
  genuine := by simp
  location pre e post h := by simp at h
  current_pos h := absurd rfl h
  fresh _ := ⟨rfl, rfl⟩

/-- A call appends its record to the journal. -/
theorem Tracks.step {S : ℕ} {env : Env} {log log' : Log} {es : List Entry} {call : Call} {e : Entry}
    (h : Tracks S log es) (hS : S < 2147483648) (ht : Traced env log call log' e)
    (hfit : e.bytes.length ≤ S) : Tracks S log' (es ++ [e]) := by
  have hsize := h.size
  have hpos := log.ringBuffer.size_pos
  have hloc : e.location % S = (flat es).length % S := by
    rw [ht.location, ← hsize, log.ringBuffer.rollOver_mod, hsize, h.current]
  have hcur := ht.currentIndex (by omega)
  have hlen := e.length_eq
  refine ⟨by rw [ht.size, hsize], ?_, ?_, ht.lastWritten, ?_, ?_, fun _ => by omega, ?_⟩
  · have himage := h.image.write hfit
    have hend : (history S es).length % S = e.location % S := by
      rw [history_length, Nat.add_mod_left, hloc]
    rw [write_congr hend] at himage
    rw [ht.buffer, hsize]
    simpa [history] using himage
  · rw [hcur, flat_append, List.length_append, Nat.add_mod, hloc, ← Nat.add_mod]
    simp
  · intro x hx
    rcases List.mem_append.mp hx with hx | hx
    · exact h.genuine x hx
    · rw [List.mem_singleton.mp hx]
      exact ht.genuine
  · intro pre x post heq
    rcases Split.concat_cases heq with ⟨rfl, rfl, -⟩ | ⟨post', -, rfl⟩
    · exact hloc
    · exact h.location pre x post' rfl
  · intro hlt
    rw [flat_append, List.length_append, flat_cons, flat_nil, List.append_nil] at hlt ⊢
    obtain ⟨hc, hw⟩ := h.fresh (by omega)
    have hroll : log.ringBuffer.rollOver = log.ringBuffer := by
      refine if_neg ?_
      rw [RingBuffer.isIndexRollingOver_iff]
      omega
    rw [hcur, ht.location, hroll, hc, ht.ringBuffer, hroll]
    exact ⟨rfl, hw⟩

/-- The ring holds the last `S` bytes of the journal. -/
theorem Tracks.read_flat {S : ℕ} {log : Log} {es : List Entry} (h : Tracks S log es) {x n : ℕ}
    (hx : (flat es).length ≤ x + S) (hn : x + n ≤ (flat es).length) :
    read S log.ringBuffer.buffer x n = ((flat es).drop x).take n := by
  have himage := h.image.read (a := S + x) (n := n) (by rw [history_length]; omega)
    (by rw [history_length]; omega)
  have hdrop : (history S es).drop (S + x) = (flat es).drop x := by
    rw [history, List.drop_append, List.drop_eq_nil_of_le (by simp), List.nil_append, List.length_replicate,
      Nat.add_sub_cancel_left]
  rw [hdrop, read_congr (Nat.add_mod_left S x)] at himage
  exact himage

theorem Tracks.read {S : ℕ} {log : Log} {pre post : List Entry} {e : Entry}
    (h : Tracks S log (pre ++ e :: post)) (hfit : e.bytes.length + (flat post).length ≤ S) :
    Circular.read S log.ringBuffer.buffer (flat pre).length e.bytes.length = e.bytes := by
  have hlen : (flat (pre ++ e :: post)).length =
      (flat pre).length + (e.bytes.length + (flat post).length) := by
    simp
  rw [h.read_flat (by omega) (by omega), flat_append, flat_cons, List.drop_left, List.take_left]

theorem Tracks.entryAt {S : ℕ} {log : Log} {pre post : List Entry} {e : Entry}
    (h : Tracks S log (pre ++ e :: post)) (hfit : e.bytes.length + (flat post).length ≤ S) :
    log.ringBuffer.entryAt (flat pre).length = some e.bytes := by
  refine (h.genuine e (by simp)).entryAt ?_
  rw [h.size]
  exact h.read hfit

/-! ### Runs of calls -/

/-- Calls one after the other: the log they leave, and the records they wrote. -/
def traceAll (env : Env) : Log → List Call → Except Fault (Log × List Entry)
  | log, [] => .ok (log, [])
  | log, call :: calls => do
    let (log, e) ← log.traceVargs env call
    let (log, es) ← traceAll env log calls
    return (log, e :: es)

/-- The calls all pass `traceVargs`' assertion with records that fit the ring. -/
def Fits (env : Env) (S : ℕ) (calls : List Call) : Prop :=
  ∀ call ∈ calls, ∃ args, Log.stage env call = .ok args ∧ 64 + args.length ≤ S

/-- Calls that fit are executed, and the journal grows by their records. -/
theorem traceAll_tracks {env : Env} {S : ℕ} (hS : S < 2147483648) :
    ∀ {calls : List Call} {log : Log} {es : List Entry}, Fits env S calls → Tracks S log es →
      ∃ log' es', traceAll env log calls = .ok (log', es') ∧ es'.length = calls.length ∧
        Tracks S log' (es ++ es')
  | [], log, es, _, h => ⟨log, [], rfl, rfl, by rwa [List.append_nil]⟩
  | call :: calls, log, es, hfit, h => by
    obtain ⟨args, hstage, hargs⟩ := hfit call List.mem_cons_self
    obtain ⟨log', e, hok, ht⟩ := traceVargs_ok (by rw [h.size]; exact hS) hstage (by rw [h.size]; exact hargs)
    have hlen : e.bytes.length ≤ S := by
      have heq : e.args = args := Except.ok.inj (ht.staged.symm.trans hstage)
      rw [e.length_eq, heq]
      exact hargs
    obtain ⟨log'', es', hrun, hcount, htracks⟩ := traceAll_tracks hS
      (fun c hc => hfit c (List.mem_cons_of_mem _ hc)) (h.step hS ht hlen)
    refine ⟨log'', e :: es', ?_, by rw [List.length_cons, hcount, List.length_cons], ?_⟩
    · simp only [traceAll, hok, Loop.ok_bind, hrun, Loop.pure_eq_ok]
    · rwa [List.append_assoc, List.singleton_append] at htracks

/-- In a ring of at least 4096 bytes calls that are executed append their records. -/
theorem traceAll_traced {env : Env} {S : ℕ} (h0 : 4096 ≤ S) (h1 : S < 2147483648) :
    ∀ {calls : List Call} {log log' : Log} {es es' : List Entry}, Tracks S log es →
      traceAll env log calls = .ok (log', es') → Tracks S log' (es ++ es') ∧ es'.map Entry.call = calls ∧
        ∀ e ∈ es', ∃ log0 log1, Traced env log0 e.call log1 e
  | [], log, log', es, es', h, hrun => by
    obtain ⟨rfl, rfl⟩ := Prod.mk.inj (Except.ok.inj hrun)
    exact ⟨by rwa [List.append_nil], rfl, by simp⟩
  | call :: calls, log, log', es, es', h, hrun => by
    obtain ⟨⟨log1, e⟩, hok, hrun⟩ := Loop.bind_eq_ok.mp hrun
    obtain ⟨⟨log2, rs⟩, hrest, hrun⟩ := Loop.bind_eq_ok.mp hrun
    obtain ⟨rfl, rfl⟩ := Prod.mk.inj (Except.ok.inj hrun)
    have ht := traced_of_ok (by rw [h.size]; exact h1) (by rw [h.size]; exact h0) hok
    obtain ⟨htracks, hcalls, htraced⟩ :=
      traceAll_traced h0 h1 (h.step h1 ht (ht.genuine.length_le.trans h0)) hrest
    rw [List.append_assoc, List.singleton_append] at htracks
    refine ⟨htracks, by rw [List.map_cons, hcalls, ht.forCall], fun x hx => ?_⟩
    rcases List.mem_cons.mp hx with rfl | hx
    · rw [ht.forCall]
      exact ⟨log, log1, ht⟩
    · exact htraced x hx

/-- **Surviving records stay intact.** After any calls whose records fit the
ring, a record that lies with all later ones within the last `S` bytes is
delivered by `getLog`, at the location `allocate` gave it and at that location
modulo the size, as `traceVargs` built it. -/
theorem getLog_surviving (env : Env) (S : ℕ) (h0 : 0 < S) (h1 : S < 2147483648) (calls : List Call)
    (hfit : Fits env S calls) :
    ∃ log es, traceAll env (Log.new S h0 h1) calls = .ok (log, es) ∧ es.length = calls.length ∧
      ∀ pre e post, es = pre ++ e :: post → e.bytes.length + (flat post).length ≤ S → ∀ buf,
        log.getLog e.location buf = .ok (true, overlay e.bytes buf, log) ∧
        log.getLog (e.location % S) buf = .ok (true, overlay e.bytes buf, log) := by
  obtain ⟨log, es, hrun, hcount, htracks⟩ := traceAll_tracks h1 hfit (Tracks.new h0 h1)
  rw [List.nil_append] at htracks
  refine ⟨log, es, hrun, hcount, ?_⟩
  rintro pre e post rfl hle buf
  have hsize := htracks.size
  have hlen := e.length_eq
  have hentry : ∀ q, q % S = (flat pre).length % S → log.ringBuffer.entryAt q = some e.bytes := by
    intro q hq
    have hq' : q % log.ringBuffer.size = (flat pre).length % log.ringBuffer.size := by rw [hsize, hq]
    exact (log.ringBuffer.entryAt_congr hq').trans (htracks.entryAt hle)
  have hloc := htracks.location pre e post rfl
  exact ⟨Log.getLog_some (by omega) (by omega) (by omega) (hentry _ hloc) buf,
    Log.getLog_some (by omega) (by omega) (by omega) (hentry _ (by rw [Nat.mod_mod, hloc])) buf⟩

/-- Two records of 68 bytes in a ring of 100 bytes: the second one lies across
its end, and is delivered. -/
theorem getLog_surviving_example :
    let env : Env := ⟨fun _ => ⟨ascii "%d", by decide, by decide⟩, fun _ _ => [], fun _ => [], fun _ => 0⟩
    let call (v : UInt32) : Call := ⟨false, 0, 0, 0, 0, [.int v], (0, 0), 0, 0⟩
    ∃ log a b, traceAll env (Log.new 100 (by decide) (by decide)) [call 1, call 2] = .ok (log, [a, b]) ∧
      ∀ buf, log.getLog b.location buf = .ok (true, overlay b.bytes buf, log) := by
  intro env call
  have h1 : Log.stage env (call 1) = .ok [1, 0, 0, 0] := rfl
  have h2 : Log.stage env (call 2) = .ok [2, 0, 0, 0] := rfl
  have hfit : Fits env 100 [call 1, call 2] := by
    intro c hc
    rcases List.mem_pair.mp hc with rfl | rfl
    · exact ⟨_, h1, by decide⟩
    · exact ⟨_, h2, by decide⟩
  obtain ⟨log, es, hrun, hcount, hget⟩ := getLog_surviving env 100 (by decide) (by decide) _ hfit
  obtain ⟨a, b, rfl⟩ := List.length_eq_two.mp hcount
  refine ⟨log, a, b, hrun, fun buf => (hget [a] b [] rfl ?_ buf).1⟩
  -- the record of the second call has 68 bytes
  obtain ⟨⟨log1, x⟩, -, hrun⟩ := Loop.bind_eq_ok.mp hrun
  obtain ⟨⟨log2, es⟩, hrest, hrun⟩ := Loop.bind_eq_ok.mp hrun
  obtain ⟨⟨log3, y⟩, hy, hrest⟩ := Loop.bind_eq_ok.mp hrest
  obtain ⟨args, hstage, hy⟩ := Loop.bind_eq_ok.mp hy
  obtain ⟨rb, -, hy⟩ := Loop.bind_eq_ok.mp hy
  obtain rfl : [2, 0, 0, 0] = args := Except.ok.inj (h2.symm.trans hstage)
  obtain ⟨-, rfl⟩ := Prod.mk.inj (Except.ok.inj hy)
  obtain ⟨-, rfl⟩ := Prod.mk.inj (Except.ok.inj hrest)
  obtain ⟨-, heq⟩ := Prod.mk.inj (Except.ok.inj hrun)
  obtain ⟨rfl, hb⟩ := List.cons.inj heq
  obtain ⟨rfl, -⟩ := List.cons.inj hb
  rw [Entry.length_eq]
  exact (show 64 + 4 ≤ 100 by decide)

end Memlog

/-
# Limits that nothing keeps

Two bounds of the writer that the code relies on. The arguments are encoded into a
stack buffer of 4097 bytes, and only afterwards the length of the record is
asserted: every byte lies in the buffer, and the assertion holds, exactly when the
conversions of the format ask for at most 4032 bytes (`stage_inside_iff`).

`set` and `get` copy a range in at most two pieces, so a record of 4096 bytes may
lie anywhere in the ring only if the ring has 4095 bytes or more
(`accesses_inside_iff`).

Key definitions: `room`, `Log.StagesInside`, `AccessesInside`.
-/
import Memlog.Walk

namespace Memlog

/-! ### The staging buffer -/

/-- The bytes one conversion stores for its argument; a string goes with its NUL. -/
def Kind.room : Kind → Arg → ℕ
  | .byte, _ => 1
  | .word, _ => 2
  | .int, _ => 4
  | .double, _ | .ptr, _ | .long64, _ => 8
  | .string, .str s => (stringText s).length + 1
  | .string, _ => 0

/-- The bytes that the conversions `ks` store for the arguments. -/
def room : List Kind → List Arg → ℕ
  | k :: ks, a :: args => k.room a + room ks args
  | _, _ => 0

theorem Kind.store_length {k : Kind} {a : Arg} {b : List UInt8} (h : k.store a = .ok b) :
    b.length = k.room a := by
  cases k with
  | string =>
    obtain ⟨s, hs, h⟩ := Loop.bind_eq_ok.mp h
    obtain rfl := Except.ok.inj h
    cases a <;> cases hs
    rw [memSetString_eq, List.length_append]
    rfl
  | byte | word | int | double | ptr | long64 =>
    obtain ⟨v, -, h⟩ := Loop.bind_eq_ok.mp h
    obtain rfl := Except.ok.inj h
    rfl

theorem storeAll_length : ∀ {ks : List Kind} {args : List Arg} {enc : List UInt8},
    storeAll ks args = .ok enc →
    enc.length = room ks args
  | [], _, _, h => by
    obtain rfl := Except.ok.inj h
    rfl
  | _ :: _, [], _, h => by cases h
  | k :: ks, a :: args, enc, h => by
    obtain ⟨b, hb, h⟩ := Loop.bind_eq_ok.mp h
    obtain ⟨rest, hrest, h⟩ := Loop.bind_eq_ok.mp h
    obtain rfl := Except.ok.inj h
    rw [List.length_append, Kind.store_length hb, storeAll_length hrest, room]

/-- What the encoder has stored, in any round, is the front of what it stores. -/
theorem encode_visits {format : CString} {args : List Arg} {enc : List UInt8} {st : EncodeState}
    (h : encodeToArgsBuffer format args = .ok enc)
    (hvisit : Loop.Visits (encodeStep format) ⟨0, false, args, []⟩ st) : st.dst <+: enc := by
  rw [encodeToArgsBuffer_eq] at h
  have hrest : encodeRest format ⟨0, false, args, []⟩ = .ok enc := by
    simpa [encodeRest] using h
  obtain ⟨-, hst⟩ := hvisit.inv (fun st => st.i ≤ format.bytes.length ∧ encodeRest format st = .ok enc)
    ⟨Nat.zero_le _, hrest⟩ fun st st' hinv hstep => by
      obtain ⟨hi, hst⟩ := hinv
      rcases encodeStep_rest format st hi with ⟨e, he, -⟩ | ⟨b, hb, -⟩ | ⟨st'', hagain, heq, hi', -⟩
      · rw [hstep] at he
        cases he
      · rw [hstep] at hb
        cases hb
      · rw [hstep] at hagain
        cases hagain
        exact ⟨hi', heq.symm.trans hst⟩
  unfold encodeRest at hst
  obtain ⟨out, -, hst⟩ := Loop.bind_eq_ok.mp hst
  split at hst
  · obtain rfl := Except.ok.inj hst
    exact List.prefix_append _ _
  · cases hst

/-- `traceVargs` stays inside its stack buffer: what the encoder has stored behind
the header, in any round, and the trailer behind that; and the assertion holds. -/
structure Log.StagesInside (env : Env) (call : Call) : Prop where
  encoding : ∀ st, Loop.Visits (encodeStep (env.strings call.format)) ⟨0, false, call.args, []⟩ st →
    Header.size + st.dst.length ≤ LOG_MAX_LOG_TRACE_LINE + 1
  trailer : ∀ args, encodeToArgsBuffer (env.strings call.format) call.args = .ok args →
    Header.size + args.length + Trailer.size ≤ LOG_MAX_LOG_TRACE_LINE + 1
  assertion : ∀ args, encodeToArgsBuffer (env.strings call.format) call.args = .ok args →
    Header.size + args.length + Trailer.size ≤ LOG_MAX_LOG_TRACE_LINE

theorem encode_length {format : CString} {args : List Arg} {enc : List UInt8}
    (h : encodeToArgsBuffer format args = .ok enc) :
    enc.length = room (encodeScan false format.bytes).1 args := by
  rw [encodeToArgsBuffer_eq] at h
  obtain ⟨out, hout, h⟩ := Loop.bind_eq_ok.mp h
  split at h
  · obtain rfl := Except.ok.inj h
    exact storeAll_length hout
  · cases h

/-- Staging succeeds when it stays inside the buffer. -/
theorem Log.stage_ok_iff {env : Env} {call : Call} {enc : List UInt8}
    (h : encodeToArgsBuffer (env.strings call.format) call.args = .ok enc) :
    (∃ args, stage env call = .ok args) ↔ StagesInside env call := by
  constructor
  · rintro ⟨args, hargs⟩
    obtain ⟨henc, hle⟩ := stage_ok hargs
    have hlen : ∀ args', encodeToArgsBuffer (env.strings call.format) call.args = .ok args' →
        64 + args'.length ≤ 4096 := fun args' h' => by
      obtain rfl := Except.ok.inj (henc.symm.trans h')
      exact hle
    rw [Except.ok.inj (h.symm.trans henc)] at h
    refine ⟨fun st hvisit => ?_, fun args' h' => ?_, fun args' h' => ?_⟩
    · have hpre := (encode_visits h hvisit).length_le
      rw [Header.size, LOG_MAX_LOG_TRACE_LINE]
      omega
    · have := hlen args' h'
      rw [Header.size, Trailer.size, LOG_MAX_LOG_TRACE_LINE]
      omega
    · have := hlen args' h'
      rw [Header.size, Trailer.size, LOG_MAX_LOG_TRACE_LINE]
      omega
  · intro hin
    refine ⟨enc, ?_⟩
    have h1 := hin.trailer enc h
    have h2 := hin.assertion enc h
    unfold stage
    simp only [h, Loop.ok_bind, if_neg (Nat.not_lt.mpr h1), if_neg (Nat.not_lt.mpr h2)]
    rfl

theorem Log.stagesInside_iff {env : Env} {call : Call} {enc : List UInt8}
    (h : encodeToArgsBuffer (env.strings call.format) call.args = .ok enc) :
    StagesInside env call ↔
      Header.size + room (encodeScan false (env.strings call.format).bytes).1 call.args + Trailer.size ≤
        LOG_MAX_LOG_TRACE_LINE := by
  have hlen := encode_length h
  constructor
  · intro hin
    rw [← hlen]
    exact hin.assertion enc h
  · intro hle
    rw [← hlen] at hle
    have hall : ∀ args, encodeToArgsBuffer (env.strings call.format) call.args = .ok args → args = enc :=
      fun args h' => Except.ok.inj (h'.symm.trans h)
    refine ⟨fun st hvisit => ?_, fun args h' => ?_, fun args h' => ?_⟩
    · have hpre := (encode_visits h hvisit).length_le
      omega
    · rw [hall args h']
      omega
    · rw [hall args h']
      exact hle

/-- **The staging buffer.** For a format on which the encoder does not fail,
everything lies inside the buffer, and the assertion holds, exactly when header,
trailer and the bytes that the conversions ask for make at most 4096. -/
theorem stage_inside_iff (env : Env) (call : Call) (enc : List UInt8)
    (h : encodeToArgsBuffer (env.strings call.format) call.args = .ok enc) :
    Log.StagesInside env call ↔
      Header.size + room (encodeScan false (env.strings call.format).bytes).1 call.args + Trailer.size ≤
        LOG_MAX_LOG_TRACE_LINE := Log.stagesInside_iff h

theorem encode_letters (n : ℕ) (h : n < 2147483648) : ∃ enc,
    encodeToArgsBuffer (stringEnv.strings (stringCall (letters n h)).format)
      (stringCall (letters n h)).args = .ok enc ∧
      Header.size + room (encodeScan false (stringEnv.strings (stringCall (letters n h)).format).bytes).1
        (stringCall (letters n h)).args + Trailer.size = n + 65 := by
  have hscan : encodeScan false (stringEnv.strings (stringCall (letters n h)).format).bytes =
      ([.string], true) := by
    change encodeScan false (ascii "%s") = _
    decide
  rw [encodeToArgsBuffer_eq, hscan]
  refine ⟨(letters n h).bytes ++ [0], by simp [stringCall, storeAll, Kind.store, vaString, memSetString], ?_⟩
  simp only [stringCall, room, Kind.room, stringText, letters_length, Header.size, Trailer.size]
  omega

theorem stage_inside_example : Log.StagesInside stringEnv (stringCall (letters 4031 (by decide))) := by
  obtain ⟨enc, henc, hroom⟩ := encode_letters 4031 (by decide)
  refine (stage_inside_iff stringEnv (stringCall (letters 4031 (by decide))) enc henc).mpr ?_
  rw [hroom]
  decide

/-- A string of 4096 letters leaves the buffer. -/
theorem stage_overruns :
    ∃ enc, encodeToArgsBuffer (stringEnv.strings (stringCall (letters 4096 (by decide))).format)
    (stringCall (letters 4096 (by decide))).args = .ok enc ∧
      ¬ Log.StagesInside stringEnv (stringCall (letters 4096 (by decide))) := by
  obtain ⟨enc, henc, hroom⟩ := encode_letters 4096 (by decide)
  refine ⟨enc, henc, fun hin => ?_⟩
  have hle := (Log.stagesInside_iff henc).mp hin
  rw [hroom] at hle
  exact absurd hle (by decide)

/-! ### The size of the ring -/

/-- Every access of a ring of `S` bytes stays inside it: those that `set` makes in
calls of `traceVargs` whose records pass the assertion, and those that `get` makes
when `getLog` is called on any index, with the ring holding anything. -/
structure AccessesInside (S : ℕ) (h0 : 0 < S) (h1 : S < 2147483648) : Prop where
  set : ∀ env calls, (∀ call ∈ calls, ∃ args, Log.stage env call = .ok args) →
    ∃ r, traceAll env (Log.new S h0 h1) calls = .ok r
  get : ∀ log : Log, log.ringBuffer.size = S → ∀ index buf, ∃ r, log.getLog index buf = .ok r

section Sizes

variable {env : Env} {log : Log} {call : Call}

/-- A call writes where its location and its length leave the ring at most once. -/
theorem traceVargs_ok_iff (hS : log.ringBuffer.size < 2147483648) {args : List UInt8}
    (h : Log.stage env call = .ok args) :
    (∃ r, log.traceVargs env call = .ok r) ↔
      log.ringBuffer.currentIndex % log.ringBuffer.size + (64 + args.length) ≤ 2 * log.ringBuffer.size := by
  have hle := Log.stage_length h
  have hlen : Header.size + args.length + Trailer.size = 64 + args.length := by
    rw [Header.size, Trailer.size]
    omega
  let e : Entry := ⟨call, log.ringBuffer.rollOver.currentIndex,
    Log.setHeader (log.ringBuffer.rollOver.advance (64 + args.length)) call (64 + args.length)
      log.ringBuffer.rollOver.currentIndex log.globalId, args⟩
  have helen : e.bytes.length = 64 + args.length := e.length_eq
  have hset : (∃ rb, (log.ringBuffer.rollOver.advance (64 + args.length)).set e.location e.bytes =
      .ok rb) ↔ _ :=
    RingBuffer.set_ok_iff (by simpa using hS) (by omega)
  have hsize : (log.ringBuffer.rollOver.advance (64 + args.length)).size = log.ringBuffer.size := by simp
  rw [hsize, helen, log.ringBuffer.rollOver_mod] at hset
  rw [← hset]
  unfold Log.traceVargs
  simp only [h, Loop.ok_bind, hlen, Log.allocateId, RingBuffer.allocate]
  constructor
  · rintro ⟨r, hr⟩
    obtain ⟨rb, hrb, -⟩ := Loop.bind_eq_ok.mp hr
    exact ⟨rb, hrb⟩
  · rintro ⟨rb, hrb⟩
    exact ⟨_, by rw [hrb]; rfl⟩

theorem traceVargs_size {log' : Log} {e : Entry} (h : log.traceVargs env call = .ok (log', e)) :
    log'.ringBuffer.size = log.ringBuffer.size := by
  obtain ⟨args, -, h⟩ := Loop.bind_eq_ok.mp h
  obtain ⟨rb, hset, h⟩ := Loop.bind_eq_ok.mp h
  obtain ⟨rfl, -⟩ := Prod.mk.inj (Except.ok.inj h)
  have hsize := RingBuffer.set_size hset
  rw [RingBuffer.advance_size, RingBuffer.rollOver_size] at hsize
  exact hsize

/-- A ring of 4095 bytes takes every record, wherever it lies. -/
theorem traceAll_inside {S : ℕ} (h1 : S < 2147483648) (h4095 : 4095 ≤ S) : ∀ {calls : List Call} {log : Log},
    log.ringBuffer.size = S → (∀ call ∈ calls, ∃ args, Log.stage env call = .ok args) →
      ∃ r, traceAll env log calls = .ok r
  | [], log, _, _ => ⟨(log, []), rfl⟩
  | call :: calls, log, hsize, hstage => by
    obtain ⟨args, hargs⟩ := hstage call List.mem_cons_self
    have hle := Log.stage_length hargs
    have hmod := Nat.mod_lt log.ringBuffer.currentIndex log.ringBuffer.size_pos
    obtain ⟨⟨log1, e⟩, hok⟩ := (traceVargs_ok_iff (by omega) hargs).mpr
      (show log.ringBuffer.currentIndex % log.ringBuffer.size + (64 + args.length) ≤
        2 * log.ringBuffer.size by omega)
    obtain ⟨⟨log2, es⟩, hrest⟩ := traceAll_inside h1 h4095 ((traceVargs_size hok).trans hsize)
      fun c hc => hstage c (List.mem_cons_of_mem _ hc)
    exact ⟨(log2, e :: es), by simp only [traceAll, hok, Loop.ok_bind, hrest, Loop.pure_eq_ok]⟩

theorem getLog_inside (h1 : log.ringBuffer.size < 2147483648) (h4095 : 4095 ≤ log.ringBuffer.size) (index : ℕ)
    (buf : List UInt8) : ∃ r, log.getLog index buf = .ok r := by
  have hget : ∀ n ≤ 4096, ∃ l, log.ringBuffer.get (log.ringBuffer.normalize index) n = .ok l := by
    intro n hn
    have hmod := Nat.mod_lt (log.ringBuffer.normalize index) log.ringBuffer.size_pos
    exact (RingBuffer.get_ok_iff h1 (by omega)).mpr (by omega)
  obtain ⟨read_hdr, hread⟩ := hget Header.size (by decide)
  unfold Log.getLog
  simp only [hread, Loop.ok_bind]
  split
  · exact ⟨_, rfl⟩
  split
  · exact ⟨_, rfl⟩
  rename_i hlength
  rw [LOG_MAX_LOG_TRACE_LINE] at hlength
  obtain ⟨entry, hentry⟩ := hget (Header.ofBytes read_hdr).length.toNat (by omega)
  rw [hentry, Loop.ok_bind]
  split
  · exact ⟨_, rfl⟩
  split
  · exact ⟨_, rfl⟩
  · exact ⟨_, rfl⟩

/-- In a smaller ring, two records do not stay inside: one up to the last byte, and
the longest there is behind it. -/
theorem le_of_accessesInside {S : ℕ} {h0 : 0 < S} {h1 : S < 2147483648} (h : AccessesInside S h0 h1) :
    4095 ≤ S := by
  have hstage : ∀ n (hn : n + 65 ≤ 4096), ∃ args,
      Log.stage stringEnv (stringCall (letters n (by omega))) = .ok args ∧
      64 + args.length = n + 65 := by
    intro n hn
    refine ⟨_, stage_string (by rw [letters_length]; exact hn), ?_⟩
    rw [List.length_append, letters_length, List.length_singleton]
    omega
  obtain ⟨long, hlong, hlonglen⟩ := hstage 4031 (by decide)
  by_contra hlt
  rcases Nat.lt_or_ge S 2048 with hsmall | hlarge
  · -- the longest record leaves the ring from its start
    obtain ⟨r, hr⟩ := h.set stringEnv [stringCall (letters 4031 (by decide))] (by simpa using ⟨long, hlong⟩)
    obtain ⟨r1, hr1, -⟩ := Loop.bind_eq_ok.mp hr
    have hle : 0 % S + (64 + long.length) ≤ 2 * S := (traceVargs_ok_iff h1 hlong).mp ⟨r1, hr1⟩
    rw [Nat.zero_mod] at hle
    omega
  · obtain ⟨short, hshort, hshortlen⟩ := hstage (S - 66) (by omega)
    obtain ⟨r, hr⟩ := h.set stringEnv
      [stringCall (letters (S - 66) (by omega)), stringCall (letters 4031 (by decide))]
      (by simpa using ⟨⟨short, hshort⟩, ⟨long, hlong⟩⟩)
    obtain ⟨⟨log1, e1⟩, hok1, hr⟩ := Loop.bind_eq_ok.mp hr
    obtain ⟨rest, hrest, -⟩ := Loop.bind_eq_ok.mp hr
    obtain ⟨r2, hr2, -⟩ := Loop.bind_eq_ok.mp hrest
    -- the first record ends one byte in front of the end of the ring
    obtain ⟨log1', e1', hok1', ht⟩ := traceVargs_ok h1 hshort
      (show 64 + short.length ≤ (Log.new S h0 h1).ringBuffer.size from show _ ≤ S by omega)
    obtain ⟨rfl, rfl⟩ := Prod.mk.inj (Except.ok.inj (hok1.symm.trans hok1'))
    have hsize : log1.ringBuffer.size = S := ht.size
    have hcur : log1.ringBuffer.currentIndex = S - 1 := by
      have hargs : e1.args = short := Except.ok.inj (ht.staged.symm.trans hshort)
      rw [ht.currentIndex h1, ht.location, e1.length_eq, hargs, hshortlen]
      change 0 + (S - 66 + 65) = S - 1
      omega
    have hle := (traceVargs_ok_iff (by rw [hsize]; exact h1) hlong).mp ⟨r2, hr2⟩
    rw [hsize, hcur, Nat.mod_eq_of_lt (by omega)] at hle
    omega

/-- **The size of the ring.** Accesses stay inside the ring in every run, and on
whatever it holds, exactly when it has 4095 bytes or more. -/
theorem accesses_inside_iff (S : ℕ) (h0 : 0 < S) (h1 : S < 2147483648) : AccessesInside S h0 h1 ↔ 4095 ≤ S :=
  ⟨le_of_accessesInside, fun h => ⟨fun env _ hcalls => traceAll_inside h1 h rfl hcalls,
    fun log hsize index buf => getLog_inside (by omega) (by omega) index buf⟩⟩

theorem accesses_inside_example : AccessesInside 4095 (by decide) (by decide) :=
  (accesses_inside_iff 4095 (by decide) (by decide)).mpr (le_refl 4095)

/-- A ring of 100 bytes. -/
theorem accesses_outside : ¬ AccessesInside 100 (by decide) (by decide) := fun h =>
  absurd (le_of_accessesInside h) (by decide)

end Sizes

end Memlog

/-
# What a failed print reports

`printAtIndex` fails where `getLog` finds no entry, and should fail where the
decoder returns -1 for a `%s` that lies behind the stored bytes
(`stringBehind`). The first failure is reported and leaves everything alone. The
second one is not: the decoder's result is unsigned, so the test for it is never
true. What was printed is reported as required exactly where no string lies
behind the stored bytes (`printAtIndex_reports_iff`).

Key definitions: `stringBehind`, `Log.Reports`.
-/
import Memlog.Walk

namespace Memlog

/-- Reading the values of the pieces from `index` on, the decoder comes to a `%s`
behind the bytes that were stored. -/
def stringBehind (stored : List UInt8) : List Token → ℕ → Bool
  | [], _ => false
  | .lit _ :: ts, index => stringBehind stored ts index
  | .percent :: ts, index => stringBehind stored ts index
  | .conv .string _ :: ts, index =>
    stored.length ≤ index ||
      stringBehind stored ts (index + (((stored.drop index).dropLast).takeWhile (· ≠ 0)).length + 1)
  | .conv k _ :: ts, index => stringBehind stored ts (index + k.width)

/-! ### The decoder's result -/

section Decoder

variable {env : Env} {buf : List UInt8} {entry max : ℕ}

theorem maxString_negative_iff {index : ℕ} (hmax : max < 2147483648) (hi : index < 2147483648) :
    2147483648 ≤ maxString max index ↔ max ≤ index := by
  unfold maxString u32Sub u32
  omega

/-- Where the decoder goes on behind a value. -/
theorem printStored_again {k : Kind} {spec : List UInt8} {index : ℕ} {out : Output} {p : ℕ × Output}
    (hbuf : buf.length < 2147483648) (hk : k ≠ .string)
    (h : printStored env buf entry max k spec index out = .ok (.again p)) :
    p.1 = index + k.width ∧ p.1 ≤ buf.length := by
  rcases printStored_cases h with ⟨hk', -⟩ | ⟨hk', -⟩ | ⟨-, text, width, out', hprint, -, hnext⟩
  · exact absurd hk' hk
  · exact absurd hk' hk
  have hle := Kind.print_bounds hprint
  obtain rfl := Kind.print_width hprint
  obtain rfl := Loop.Next.again.inj hnext
  rw [indexInc_of_lt (by omega)]
  exact ⟨rfl, hle⟩

/-- Where the decoder goes on behind a string, and when it gives up. -/
theorem printStored_string {spec : List UInt8} {index : ℕ} {out : Output}
    {next : Loop.Next (ℕ × Output) DecodeResult} (hbuf : buf.length < 2147483648) (hmax : max ≤ buf.length)
    (hi : index ≤ buf.length) (h : printStored env buf entry max .string spec index out = .ok next) :
    (max ≤ index ∧ next = .done ⟨UINT32_MAX, entry, out, none⟩) ∨
      (index < max ∧ ∃ s, s = (((buf.take max).drop index).dropLast).takeWhile (· ≠ 0) ∧
        next = .again (index + s.length + 1, out.put s) ∧ index + s.length + 1 ≤ buf.length) := by
  have hneg := maxString_negative_iff (show max < 2147483648 by omega) (show index < 2147483648 by omega)
  rcases printStored_cases h with ⟨-, hmaxString, hnext⟩ | ⟨-, hmaxString, s, hs, hnext⟩ | ⟨hk, -⟩
  · exact .inl ⟨hneg.mp hmaxString, hnext⟩
  · have hle := mt hneg.mpr hmaxString
    have hbound := memGetString_bounds (by omega) hs
    have hstring := memGetString_inv (by omega) hs
    have hleft : maxString max index = max - index - 1 := by
      have hsub : u32Sub max index = max - index := u32Sub_of_le (by omega) (by omega)
      unfold maxString
      rw [hsub, u32Sub_of_le (by omega) (by omega)]
    have hcut : ((buf.take max).drop index).dropLast = (buf.drop index).take (max - index - 1) := by
      have hlen : ((buf.drop index).take (max - index)).length = max - index :=
        List.length_take_of_le (by rw [List.length_drop]; omega)
      rw [List.drop_take, List.dropLast_eq_take, hlen, List.take_take, Nat.min_eq_left (Nat.sub_le _ _)]
    refine .inr ⟨by omega, s, ?_, ?_, hbound⟩
    · rw [hstring, hleft, hcut]
    · rw [hnext, indexInc_of_lt (by omega), ← Nat.add_assoc]
  · exact absurd rfl hk

/-- The decoder returns -1 where a string lies behind the stored bytes, and 0
otherwise. -/
theorem printAll_ret (hbuf : buf.length < 2147483648) (hmax : max ≤ buf.length) :
    ∀ (ts : List Token) (index : ℕ) (out : Output) (r : DecodeResult), index ≤ buf.length →
      printAll env buf entry max ts index out = .ok r →
      r.ret = if stringBehind (buf.take max) ts index then UINT32_MAX else 0 := by
  intro ts
  induction ts with
  | nil =>
    intro index out r _ h
    obtain rfl := Except.ok.inj h
    rfl
  | cons t ts ih =>
    intro index out r hi h
    cases t with
    | lit c => exact ih index _ r hi h
    | percent => exact ih index _ r hi h
    | conv k spec =>
      obtain ⟨tempFormat, -, h⟩ := Loop.bind_eq_ok.mp h
      obtain ⟨next, hnext, h⟩ := Loop.bind_eq_ok.mp h
      by_cases hk : k = .string
      · subst hk
        have hlen : (buf.take max).length = max := List.length_take_of_le hmax
        rcases printStored_string hbuf hmax hi hnext with ⟨hle, rfl⟩ | ⟨hlt, s, hs, rfl, hs'⟩
        · obtain rfl := Except.ok.inj h
          simp [stringBehind, hlen, hle]
        · have hrest := ih _ _ r hs' h
          rw [hs] at hrest
          simp only [stringBehind, hlen, hrest, decide_eq_false (show ¬ max ≤ index by omega), Bool.false_or]
      · have hbehind : stringBehind (buf.take max) (.conv k spec :: ts) index =
            stringBehind (buf.take max) ts (index + k.width) := by
          cases k <;> first | rfl | exact absurd rfl hk
        rw [hbehind]
        cases next with
        | done r' => exact absurd (printStored_done hnext).1 hk
        | again p =>
          obtain ⟨hindex, hle⟩ := printStored_again hbuf hk hnext
          rw [← hindex]
          exact ih _ _ r hle h

end Decoder

namespace Log

/-! ### The report -/

/-- `getLog` fails at `index`, in all the tries. -/
def Unreadable (env : Env) (log : Log) (index : ℕ) (retry : Bool) : Prop :=
  ∃ buf log', spin index (if retry then SPINS else 1) (stackBuffer env) log = .ok (false, buf, log')

/-- `getLog` succeeds at `index`, and the decoder returns -1. -/
def Corrupted (env : Env) (log : Log) (index : ℕ) (retry : Bool) : Prop :=
  ∃ buf log' r, spin index (if retry then SPINS else 1) (stackBuffer env) log = .ok (true, buf, log') ∧
    decodeFromArgsBuffer env (env.strings (Header.ofBytes buf).format) buf (indexInc 0 Header.size)
      ((Header.ofBytes buf).length.toNat - Trailer.size) (printPrefix env (Header.ofBytes buf)) = .ok r ∧
      r.ret = UINT32_MAX

/-- What a call of `printAtIndex` leaves is what it should: the failures are
reported, and a reported failure has left the position alone. -/
structure Reports (env : Env) (log : Log) (index : ℕ) (retry : Bool) (p : Printed) : Prop where
  err : p.err = true ↔ log.Unreadable env index retry ∨ log.Corrupted env index retry
  unmoved : p.err = true →
    p.next_index = index ∧ p.stringLength = 0 ∧ p.log.stats.lastPrintedId = log.stats.lastPrintedId

variable {env : Env} {log : Log} {q : ℕ}

/-- What the tries have found. -/
theorem spin_inv (hS : log.ringBuffer.size < 2147483648) {success : Bool} {buf' : List UInt8} {log'' : Log} :
    ∀ {n : ℕ} {buf : List UInt8} {log' : Log}, log.Same log' → 0 < n →
      spin q n buf log' = .ok (success, buf', log'') →
      (∃ entry, log.ringBuffer.entryAt q = some entry ∧ success = true ∧ buf' = overlay entry buf) ∨
      (log.ringBuffer.entryAt q = none ∧ success = false ∧
        log''.stats.lastPrintedId = log'.stats.lastPrintedId) := by
  intro n
  induction n with
  | zero => exact fun _ hn => absurd hn (Nat.lt_irrefl 0)
  | succ n ih =>
    intro buf log' hs _ h
    obtain ⟨⟨b, buf1, log1⟩, hget, h⟩ := Loop.bind_eq_ok.mp h
    have hrb := hs.ringBuffer
    rcases getLog_inv (by rw [hrb]; exact hS) hget with ⟨entry, hentry, rfl, rfl,
        -⟩ | ⟨hnone, rfl, st, rfl, hst⟩
    · cases h
      exact .inl ⟨entry, by rw [← hrb]; exact hentry, rfl, rfl⟩
    · rw [hrb] at hnone
      have hid : st.lastPrintedId = log'.stats.lastPrintedId := by
        obtain ⟨_, _, _, _, rfl⟩ := hst
        rfl
      rcases Nat.eq_zero_or_pos n with rfl | hpos
      · cases h
        exact .inr ⟨hnone, rfl, hid⟩
      · rcases ih (hs.trans ⟨st, rfl⟩) hpos h with ⟨entry, hentry, -⟩ | ⟨-, hfalse, hid'⟩
        · rw [hnone] at hentry
          cases hentry
        · exact .inr ⟨hnone, hfalse, hid'.trans hid⟩

theorem tries_pos (retry : Bool) : 0 < if retry then SPINS else 1 := by
  cases retry <;> decide

theorem reports_of_none (hS : log.ringBuffer.size < 2147483648) {dst : List UInt8} {retry : Bool}
    {hdr : Header} {p : Printed} (hnone : log.ringBuffer.entryAt q = none)
    (h : printAtIndex env log q dst retry hdr = .ok p) :
    Reports env log q retry p := by
  obtain ⟨⟨success, buf, log1⟩, hspin, h⟩ := Loop.bind_eq_ok.mp h
  rcases spin_inv hS (Same.refl log) (tries_pos retry) hspin with ⟨entry, hentry, -⟩ | ⟨-, rfl, hid⟩
  · rw [hnone] at hentry
    cases hentry
  · cases h
    exact ⟨iff_of_true rfl (.inl ⟨buf, log1, hspin⟩), fun _ => ⟨rfl, rfl, hid⟩⟩

/-- A call of `printAtIndex` that returns, where there is an entry: it reports
nothing, and the decoder has failed where a string lies behind the stored bytes. -/
theorem reports_of_some (hS : log.ringBuffer.size < 2147483648) {entry dst : List UInt8} {retry : Bool}
    {hdr : Header} {p : Printed} (hentry : log.ringBuffer.entryAt q = some entry)
    (h : printAtIndex env log q dst retry hdr = .ok p) :
    Reports env log q retry p ↔ stringBehind (entry.take (entry.length - 8))
      (decodeScan 0 (env.strings (Header.ofBytes entry).format).bytes) 56 = false := by
  obtain ⟨hlen, h64, h4096⟩ := RingBuffer.entry_length hentry
  obtain ⟨⟨success, buf, log1⟩, hspin, h⟩ := Loop.bind_eq_ok.mp h
  rcases spin_inv hS (Same.refl log) (tries_pos retry) hspin with ⟨entry', hentry', rfl, rfl⟩ | ⟨hnone, -⟩
  swap
  · rw [hentry] at hnone
    cases hnone
  obtain rfl : entry = entry' := Option.some.inj (hentry.symm.trans hentry')
  have hof : Header.ofBytes (overlay entry (stackBuffer env)) = Header.ofBytes entry :=
    Header.ofBytes_append (by omega)
  have hbuf : (overlay entry (stackBuffer env)).length = 8192 := overlay_length env h4096
  simp only [hof, not_true_eq_false, if_false] at h
  obtain ⟨r, hdec, h⟩ := Loop.bind_eq_ok.mp h
  -- the decoder has failed if a string lies behind
  have hret := hdec
  rw [decodeFromArgsBuffer_eq, ← hlen, Trailer.size] at hret
  have hret := printAll_ret (by omega) (by omega) _ _ _ _ (by rw [hbuf]; decide) hret
  have htake : (overlay entry (stackBuffer env)).take (entry.length - 8) = entry.take (entry.length - 8) :=
    List.take_append_of_le_length (Nat.sub_le _ _)
  rw [htake, show indexInc 0 Header.size = 56 from rfl] at hret
  generalize stringBehind (entry.take (entry.length - 8))
    (decodeScan 0 (env.strings (Header.ofBytes entry).format).bytes) 56 = behind at hret ⊢
  -- the call reports nothing
  have herr : p.err = false := by
    split_ifs at h
    · cases h
    · cases h
      rfl
  have hread : ¬ log.Unreadable env q retry := by
    rintro ⟨buf', log', hspin'⟩
    rw [hspin] at hspin'
    cases hspin'
  have hcorrupted : log.Corrupted env q retry ↔ behind = true := by
    constructor
    · rintro ⟨buf', log', r', hspin', hdec', hret'⟩
      rw [hspin] at hspin'
      cases hspin'
      rw [hof] at hdec'
      obtain rfl := Except.ok.inj (hdec.symm.trans hdec')
      by_contra hb
      rw [if_neg hb, hret'] at hret
      cases hret
    · intro hb
      rw [if_pos hb] at hret
      exact ⟨_, _, r, hspin, by rw [hof]; exact hdec, hret⟩
  constructor
  · intro hreports
    by_contra hb
    have htrue := hreports.err.mpr (.inr (hcorrupted.mpr (Bool.eq_true_of_not_eq_false hb)))
    rw [herr] at htrue
    cases htrue
  · intro hb
    refine ⟨iff_of_false (by rw [herr]; decide) ?_, fun h => by rw [herr] at h; cases h⟩
    rintro (h | h)
    · exact hread h
    · rw [hcorrupted, hb] at h
      cases h

/-- **The report of `printAtIndex`.** Where `getLog` fails the call returns; and what
a call that returns leaves is as required exactly where no string of the entry lies
behind its stored bytes. -/
theorem printAtIndex_reports_iff (env : Env) (log : Log) (hS : log.ringBuffer.size < 2147483648) (index : ℕ)
    (dst : List UInt8) (retry : Bool) (hdr : Header) :
    (log.Unreadable env index retry → ∃ p, printAtIndex env log index dst retry hdr = .ok p) ∧
    ∀ p, printAtIndex env log index dst retry hdr = .ok p →
      (Reports env log index retry p ↔ ∀ entry, log.ringBuffer.entryAt index = some entry →
        stringBehind (entry.take (entry.length - 8))
          (decodeScan 0 (env.strings (Header.ofBytes entry).format).bytes) 56 = false) := by
  refine ⟨?_, fun p hp => ?_⟩
  · rintro ⟨buf, log', hspin⟩
    exact ⟨_, by unfold printAtIndex; rw [hspin]; rfl⟩
  · cases hentry : log.ringBuffer.entryAt index with
    | none => exact iff_of_true (reports_of_none hS hentry hp) fun entry h => by cases h
    | some entry =>
      rw [reports_of_some hS hentry hp]
      constructor
      · rintro h entry' hentry'
        obtain rfl := Option.some.inj hentry'
        exact h
      · exact fun h => h entry rfl

theorem entryAt_first {call : Call} {e : Entry}
    (ht : Traced env (Log.new 4096 (by decide) (by decide)) call log e) :
    log.ringBuffer.entryAt 0 = some e.bytes :=
  have hle := ht.genuine.length_le
  @Tracks.entryAt 4096 log [] [] e ((Tracks.new (by decide) (by decide)).step (by decide) ht hle) hle

theorem printAtIndex_reports_example : ∃ log e p,
    (Log.new 4096 (by decide) (by decide)).traceVargs stringEnv (stringCall (letters 5 (by decide))) =
      .ok (log, e) ∧
      printAtIndex stringEnv log 0 [] true zeroHeader = .ok p ∧ Reports stringEnv log 0 true p := by
  obtain ⟨log, e, hok, ht, -, hlen, hpre⟩ := trace_string (Log.new 4096 (by decide) (by decide))
    (letters 5 (by decide)) (by decide) (by decide) (by decide)
  rw [letters_length] at hlen
  have hsize : log.ringBuffer.size = 4096 := ht.size
  have hentry := entryAt_first ht
  have hprint := printAtIndex_record stringEnv (by rw [hsize]; decide) (by rw [hlen, hsize]; decide) hentry
    (ht.prints (roundTrips_string _)) (by rw [hlen]; decide) [] true zeroHeader
  rw [hpre, if_neg (by decide)] at hprint
  refine ⟨log, e, _, hok, hprint, ((printAtIndex_reports_iff stringEnv log (by rw [hsize]; decide) 0 [] true
    zeroHeader).2 _ hprint).mpr fun entry h => ?_⟩
  obtain rfl := Option.some.inj (hentry.symm.trans h)
  have hlit : decodeScan 0 (stringEnv.strings (Header.ofBytes e.bytes).format).bytes =
      [.conv .string (ascii "%s")] := by
    change decodeScan 0 (ascii "%s") = _
    decide
  rw [hlit]
  simp [stringBehind, hlen]

/-- The format `%5 %s`, in which the encoder sees no conversion and the decoder a
string. -/
def strayEnv : Env := exampleEnv fun _ => ⟨ascii "%5 %s", by decide, by decide⟩

/-- A call without arguments. -/
def strayCall : Call := ⟨false, 0, 0, 0, 0, [], (0, 0), 0, 0⟩

/-- The decoder returns -1, and `printAtIndex` reports success. -/
theorem printAtIndex_hides_corruption : ∃ log e p,
    (Log.new 4096 (by decide) (by decide)).traceVargs strayEnv strayCall = .ok (log, e) ∧
      printAtIndex strayEnv log 0 [] true zeroHeader = .ok p ∧ p.err = false ∧
      ¬ Reports strayEnv log 0 true p := by
  have hscan : encodeScan false (strayEnv.strings strayCall.format).bytes = ([], true) := by
    change encodeScan false (ascii "%5 %s") = _
    decide
  have hencode : encodeToArgsBuffer (strayEnv.strings strayCall.format) strayCall.args = .ok [] := by
    rw [encodeToArgsBuffer_eq, hscan]
    rfl
  have hstage : stage strayEnv strayCall = .ok [] := by
    unfold stage
    rw [hencode]
    rfl
  have hS : (Log.new 4096 (by decide) (by decide)).ringBuffer.size < 2147483648 := by decide
  obtain ⟨log, e, hok, ht⟩ := traceVargs_ok hS hstage (by decide)
  have hsize : log.ringBuffer.size = 4096 := ht.size
  have hargs : e.args = [] := Except.ok.inj (ht.staged.symm.trans hstage)
  have hlen : e.bytes.length = 64 := by rw [e.length_eq, hargs]; rfl
  have hentry := entryAt_first ht
  have htokens : decodeScan 0 (strayEnv.strings (Header.ofBytes e.bytes).format).bytes =
      [.lit (chr '%'), .lit (chr '5'), .lit (chr ' '), .conv .string (ascii "%s")] := by
    change decodeScan 0 (ascii "%5 %s") = _
    decide
  have hpre : printPrefix strayEnv (Header.ofBytes e.bytes) = [] := by
    rw [e.ofBytes, ht.header]
    rfl
  obtain ⟨rest, -, hprint⟩ :=
    printAtIndex_some strayEnv (by rw [hsize]; decide) (by rw [hlen, hsize]; decide) hentry
    [] true zeroHeader
  have hdecode : decodeFromArgsBuffer strayEnv (strayEnv.strings (Header.ofBytes e.bytes).format)
      (e.bytes ++ rest) 56
      56 [] = .ok ⟨UINT32_MAX, 56, ⟨0, ascii "%5 ", []⟩, none⟩ := by
    rw [decodeFromArgsBuffer_eq, htokens]
    rfl
  simp only [hlen, Nat.reduceSub, hpre, hdecode, Loop.ok_bind] at hprint
  rw [if_neg (by decide)] at hprint
  refine ⟨log, e, _, hok, hprint, rfl, fun hreports => ?_⟩
  have hbehind := (reports_of_some (by rw [hsize]; decide) hentry hprint).mp hreports
  rw [htokens] at hbehind
  simp [stringBehind, hlen] at hbehind

end Log
end Memlog

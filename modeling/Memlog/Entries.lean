/-
# What the readers accept

`getLog` accepts a position by the bytes it finds there. `RingBuffer.entryAt` is
what it accepts, as a function of the block: the complete entry that starts at
the position, if its header, its length and its trailer fit together.
`getLog` computes it (`getLog_some`, `getLog_none`), and `getNextHeader` finds
the first position from its argument on that has one (`getNextHeader_some`), or
fails when the whole ring has none (`getNextHeader_none`): it is the search for the
first position where `getLog` succeeds (`getNextHeader_first`).

Readers change nothing but counters: the log they leave is `{ log with stats }`.
-/
import Memlog.Log

namespace Memlog

open Circular ByteCodec

/-- The complete entry that `getLog` finds at position `q`. -/
def RingBuffer.entryAt (rb : RingBuffer) (q : ℕ) : Option (List UInt8) :=
  let hdr := Header.ofBytes (read rb.size rb.buffer q 56)
  let entry := read rb.size rb.buffer q hdr.length.toNat
  if hdr.pattern = START_PATTERN ∧ 64 ≤ hdr.length.toNat ∧ hdr.length.toNat ≤ 4096 ∧
      entry.drop (hdr.length.toNat - 8) = trailer hdr.id then some entry
  else none

theorem RingBuffer.entryAt_congr (rb : RingBuffer) {a b : ℕ} (h : a % rb.size = b % rb.size) :
    rb.entryAt a = rb.entryAt b := by
  unfold entryAt
  simp only [read_congr h]

theorem RingBuffer.entryAt_some {rb : RingBuffer} {q : ℕ} {entry : List UInt8}
    (h : rb.entryAt q = some entry) :
    let hdr := Header.ofBytes (read rb.size rb.buffer q 56)
    hdr.pattern = START_PATTERN ∧ 64 ≤ hdr.length.toNat ∧ hdr.length.toNat ≤ 4096 ∧
      entry = read rb.size rb.buffer q hdr.length.toNat ∧
        entry.drop (hdr.length.toNat - 8) = trailer hdr.id := by
  unfold entryAt at h
  simp only at h
  split_ifs at h with hc
  obtain rfl := Option.some.inj h
  exact ⟨hc.1, hc.2.1, hc.2.2.1, rfl, hc.2.2.2⟩

theorem read_take {α : Type} {S : ℕ} {buf : ℕ → α} {a m n : ℕ} (h : m ≤ n) :
    (read S buf a n).take m = read S buf a m := by
  obtain ⟨k, rfl⟩ := Nat.exists_eq_add_of_le h
  rw [read_append, List.take_left' (read_length _ _ _ _)]

theorem Header.ofBytes_take (l : List UInt8) : Header.ofBytes (l.take 56) = Header.ofBytes l := by
  have h : ∀ o w, o + w ≤ 56 → field (l.take 56) o w = field l o w := by
    intro o w how
    rw [field, field, List.drop_take, List.take_take, Nat.min_eq_left (by omega)]
  simp only [ofBytes, h, Nat.reduceAdd, Nat.reduceLeDiff]

theorem Header.ofBytes_append {l rest : List UInt8} (h : 56 ≤ l.length) :
    Header.ofBytes (l ++ rest) = Header.ofBytes l := by
  rw [← Header.ofBytes_take, List.take_append_of_le_length h, Header.ofBytes_take]

/-- Bytes that lie in the ring and look like an entry are one. -/
theorem RingBuffer.entryAt_of_read {rb : RingBuffer} {q : ℕ} {entry : List UInt8}
    (h : read rb.size rb.buffer q entry.length = entry)
    (hpattern : (Header.ofBytes entry).pattern = START_PATTERN)
    (hlength : (Header.ofBytes entry).length.toNat = entry.length) (h64 : 64 ≤ entry.length)
    (h4096 : entry.length ≤ 4096)
    (htrailer : entry.drop (entry.length - 8) = trailer (Header.ofBytes entry).id) :
    rb.entryAt q = some entry := by
  have hhdr : Header.ofBytes (read rb.size rb.buffer q 56) = Header.ofBytes entry := by
    have htake : read rb.size rb.buffer q 56 = entry.take 56 := by
      rw [← h, read_take (by omega)]
    rw [htake, Header.ofBytes_take]
  unfold entryAt
  simp only [hhdr, hlength, h]
  rw [if_pos ⟨hpattern, h64, h4096, htrailer⟩]

theorem RingBuffer.ofBytes_entry {rb : RingBuffer} {q : ℕ} {entry : List UInt8}
    (h : rb.entryAt q = some entry) :
    Header.ofBytes (read rb.size rb.buffer q 56) = Header.ofBytes entry := by
  obtain ⟨-, h1, -, hread, -⟩ := RingBuffer.entryAt_some h
  have htake := Header.ofBytes_take entry
  rw [hread, read_take (by omega)] at htake
  rw [hread, ← htake]

theorem RingBuffer.entry_length {rb : RingBuffer} {q : ℕ} {entry : List UInt8}
    (h : rb.entryAt q = some entry) :
    entry.length = (Header.ofBytes entry).length.toNat ∧ 64 ≤ entry.length ∧ entry.length ≤ 4096 := by
  obtain ⟨-, h1, h2, hread, -⟩ := RingBuffer.entryAt_some h
  have hlen := read_length rb.size rb.buffer q (Header.ofBytes (read rb.size rb.buffer q 56)).length.toNat
  rw [← hread] at hlen
  rw [← RingBuffer.ofBytes_entry h]
  omega

/-- No counters have changed but those of the entries `getLog` rejects. -/
def Stats.Rejected (st st' : Stats) : Prop :=
  ∃ a b c d, st' = { st with fullBufLenErr := a, hdrPatErr := b, hdrLenErr := c, hdrTailErr := d }

theorem Stats.Rejected.refl (st : Stats) : st.Rejected st := ⟨_, _, _, _, rfl⟩

theorem Stats.Rejected.trans {a b c : Stats} (h : a.Rejected b) (h' : b.Rejected c) : a.Rejected c := by
  obtain ⟨_, _, _, _, rfl⟩ := h
  obtain ⟨_, _, _, _, rfl⟩ := h'
  exact ⟨_, _, _, _, rfl⟩

namespace Log

variable {log : Log} {q : ℕ}

/-- `getLog` at a position with an entry: the entry is copied out. -/
theorem getLog_some {entry : List UInt8} (hS : log.ringBuffer.size < 2147483648)
    (h56 : 56 ≤ log.ringBuffer.size) (hlen : entry.length ≤ log.ringBuffer.size)
    (h : log.ringBuffer.entryAt q = some entry) (buf : List UInt8) :
    log.getLog q buf = .ok (true, overlay entry buf, log) := by
  obtain ⟨h1, h2, h3, hread, h4⟩ := RingBuffer.entryAt_some h
  have hq := Nat.mod_lt q log.ringBuffer.size_pos
  have hlen' : entry.length =
      (Header.ofBytes (read log.ringBuffer.size log.ringBuffer.buffer q 56)).length.toNat := by
    conv_lhs => rw [hread]
    rw [read_length]
  have hmod : q % log.ringBuffer.size % log.ringBuffer.size = q % log.ringBuffer.size := Nat.mod_mod _ _
  have hget : log.ringBuffer.get (log.ringBuffer.normalize q) Header.size =
      .ok (read log.ringBuffer.size log.ringBuffer.buffer q 56) := by
    rw [RingBuffer.normalize, Header.size, log.ringBuffer.get_eq h56 (by omega), read_congr hmod]
  have hget' : log.ringBuffer.get (log.ringBuffer.normalize q) entry.length = .ok entry := by
    rw [RingBuffer.normalize, log.ringBuffer.get_eq hlen (by omega), read_congr hmod, hlen', ← hread]
  unfold getLog
  simp only [hget, Loop.ok_bind, h1, ne_eq, not_true_eq_false, if_false]
  rw [← hlen'] at h2 h3 h4 ⊢
  rw [if_neg (by rw [Header.size, Trailer.size, LOG_MAX_LOG_TRACE_LINE]; omega), hget', Loop.ok_bind,
    if_neg (by rw [Header.size, hread, read_take (by omega)]; exact fun h => h rfl),
    if_neg (by rw [Trailer.size]; exact fun h => h h4)]
  rfl

/-- `getLog` at a position without an entry: the call fails, and only a counter
changes. -/
theorem getLog_none (hS : log.ringBuffer.size < 2147483648) (h4096 : 4096 ≤ log.ringBuffer.size)
    (h : log.ringBuffer.entryAt q = none) (buf : List UInt8) :
    ∃ buf' st, log.getLog q buf = .ok (false, buf', { log with stats := st }) ∧ log.stats.Rejected st := by
  have hq := Nat.mod_lt q log.ringBuffer.size_pos
  have hmod : q % log.ringBuffer.size % log.ringBuffer.size = q % log.ringBuffer.size := Nat.mod_mod _ _
  have hget : ∀ n ≤ 4096, log.ringBuffer.get (log.ringBuffer.normalize q) n =
      .ok (read log.ringBuffer.size log.ringBuffer.buffer q n) := by
    intro n hn
    rw [RingBuffer.normalize, log.ringBuffer.get_eq (by omega) (by omega), read_congr hmod]
  unfold RingBuffer.entryAt at h
  unfold getLog
  simp only [Header.size, hget 56 (by decide), Loop.ok_bind] at h ⊢
  generalize Header.ofBytes (read log.ringBuffer.size log.ringBuffer.buffer q 56) = hdr at h ⊢
  by_cases h1 : hdr.pattern = START_PATTERN
  · rw [if_neg (not_not.mpr h1)]
    by_cases h2 : hdr.length.toNat < 56 + Trailer.size ∨ LOG_MAX_LOG_TRACE_LINE < hdr.length.toNat
    · exact ⟨_, _, if_pos h2, ⟨_, _, _, _, rfl⟩⟩
    · have h2' := h2
      rw [Trailer.size, LOG_MAX_LOG_TRACE_LINE] at h2'
      rw [if_neg h2, hget _ (by omega), Loop.ok_bind]
      by_cases h3 : (read log.ringBuffer.size log.ringBuffer.buffer q hdr.length.toNat).take 56 ≠
          read log.ringBuffer.size log.ringBuffer.buffer q 56
      · exact ⟨_, _, if_pos h3, ⟨_, _, _, _, rfl⟩⟩
      · rw [if_neg h3]
        by_cases h4 : (read log.ringBuffer.size log.ringBuffer.buffer q hdr.length.toNat).drop
            (hdr.length.toNat - Trailer.size) ≠ trailer hdr.id
        · exact ⟨_, _, if_pos h4, ⟨_, _, _, _, rfl⟩⟩
        · rw [if_pos ⟨h1, by omega, by omega, not_not.mp h4⟩] at h
          cases h
  · exact ⟨_, _, if_pos h1, ⟨_, _, _, _, rfl⟩⟩

/-- What a call of `getLog` that returns has found, whatever the size of the ring. -/
theorem getLog_inv (hS : log.ringBuffer.size < 2147483648) {buf buf' : List UInt8} {success : Bool}
    {log' : Log} (h : log.getLog q buf = .ok (success, buf', log')) :
    (∃ entry, log.ringBuffer.entryAt q = some entry ∧ success = true ∧ buf' = overlay entry buf ∧
      log' = log) ∨
      (log.ringBuffer.entryAt q = none ∧ success = false ∧
        ∃ st, log' = { log with stats := st } ∧ log.stats.Rejected st) := by
  have hread : ∀ n l, n < 2147483648 → log.ringBuffer.get (log.ringBuffer.normalize q) n = .ok l →
      l = read log.ringBuffer.size log.ringBuffer.buffer q n := by
    intro n l hn hl
    rw [RingBuffer.get_inv hS hn hl, RingBuffer.normalize, read_congr (Nat.mod_mod q log.ringBuffer.size)]
  unfold getLog at h
  obtain ⟨read_hdr, hget, h⟩ := Loop.bind_eq_ok.mp h
  rw [hread _ _ (by decide) hget, Header.size] at h
  unfold RingBuffer.entryAt
  simp only at h ⊢
  generalize Header.ofBytes (read log.ringBuffer.size log.ringBuffer.buffer q 56) = hdr at h ⊢
  by_cases h1 : hdr.pattern = START_PATTERN
  swap
  · rw [if_pos h1] at h
    cases h
    exact .inr ⟨if_neg fun hc => h1 hc.1, rfl, _, rfl, _, _, _, _, rfl⟩
  rw [if_neg (not_not.mpr h1)] at h
  by_cases h2 : hdr.length.toNat < 56 + Trailer.size ∨ LOG_MAX_LOG_TRACE_LINE < hdr.length.toNat
  · rw [if_pos h2] at h
    cases h
    rw [Trailer.size, LOG_MAX_LOG_TRACE_LINE] at h2
    exact .inr ⟨if_neg (by omega), rfl, _, rfl, _, _, _, _, rfl⟩
  rw [if_neg h2] at h
  rw [Trailer.size, LOG_MAX_LOG_TRACE_LINE] at h2
  obtain ⟨entry, hentry, h⟩ := Loop.bind_eq_ok.mp h
  rw [hread _ _ (by omega) hentry, if_neg (by rw [read_take (by omega)]; exact fun h => h rfl)] at h
  by_cases h4 : (read log.ringBuffer.size log.ringBuffer.buffer q hdr.length.toNat).drop
      (hdr.length.toNat - Trailer.size) = trailer hdr.id
  · rw [if_neg (not_not.mpr h4)] at h
    cases h
    exact .inl ⟨_, if_pos ⟨h1, by omega, by omega, h4⟩, rfl, rfl, rfl⟩
  · rw [if_pos h4] at h
    cases h
    exact .inr ⟨if_neg fun hc => h4 hc.2.2.2, rfl, _, rfl, _, _, _, _, rfl⟩

/-! ### The search -/

variable (env : Env)

/-- A header with the start pattern starts with its bytes. -/
theorem read_of_pattern
    (h : (Header.ofBytes (read log.ringBuffer.size log.ringBuffer.buffer q 56)).pattern = START_PATTERN) :
    read log.ringBuffer.size log.ringBuffer.buffer q 4 = leBytes 4 START_PATTERN.toNat := by
  have hfield : field (read log.ringBuffer.size log.ringBuffer.buffer q 56) 0 4 =
      leNat (read log.ringBuffer.size log.ringBuffer.buffer q 4) := by
    rw [field, List.drop_zero, read_take (by omega)]
  have hlt : leNat (read log.ringBuffer.size log.ringBuffer.buffer q 4) < 2 ^ 32 := by
    have hlt := leNat_lt (read log.ringBuffer.size log.ringBuffer.buffer q 4)
    rw [read_length] at hlt
    exact hlt.trans_eq (by norm_num)
  have hnat : leNat (read log.ringBuffer.size log.ringBuffer.buffer q 4) = START_PATTERN.toNat := by
    rw [← h, Header.ofBytes, hfield, UInt32.toNat_ofNat', Nat.mod_eq_of_lt hlt]
  have hbytes := leBytes_leNat (read log.ringBuffer.size log.ringBuffer.buffer q 4)
  rw [read_length, hnat] at hbytes
  exact hbytes.symm

theorem read_pattern {entry : List UInt8} (h : log.ringBuffer.entryAt q = some entry) :
    read log.ringBuffer.size log.ringBuffer.buffer q 4 = leBytes 4 START_PATTERN.toNat :=
  read_of_pattern (RingBuffer.entryAt_some h).1

theorem compare_entry {entry : List UInt8} (h : log.ringBuffer.entryAt q = some entry) :
    log.ringBuffer.compare q (leBytes 4 START_PATTERN.toNat) = .ok 0 := by
  rw [RingBuffer.compare_eq, leBytes_length, if_pos (read_pattern h)]

theorem isEntryValid_some {entry : List UInt8} (hS : log.ringBuffer.size < 2147483648)
    (hfit : entry.length ≤ log.ringBuffer.size) (h : log.ringBuffer.entryAt q = some entry)
    (buf : Option (List UInt8)) :
    isEntryValid env log q buf = .ok (true, buf.map (overlay entry), log) := by
  have hlen := RingBuffer.entry_length h
  cases buf <;> simp [isEntryValid, getLog_some hS (by omega) hfit h]

theorem isEntryValid_none (hS : log.ringBuffer.size < 2147483648) (h4096 : 4096 ≤ log.ringBuffer.size)
    (h : log.ringBuffer.entryAt q = none) (buf : Option (List UInt8)) :
    ∃ buf' st, isEntryValid env log q buf = .ok (false, buf', { log with stats := st }) ∧
      buf'.isSome = buf.isSome ∧ log.stats.Rejected st := by
  cases buf with
  | none =>
    obtain ⟨buf', st, hget, hst⟩ := getLog_none hS h4096 h (stackBuffer env)
    exact ⟨none, st, by simp [isEntryValid, hget], rfl, hst⟩
  | some buf =>
    obtain ⟨buf', st, hget, hst⟩ := getLog_none hS h4096 h buf
    exact ⟨some buf', st, by simp [isEntryValid, hget], rfl, hst⟩

theorem searchStep_none {s : Search} (hS : s.log.ringBuffer.size < 2147483648)
    (h4096 : 4096 ≤ s.log.ringBuffer.size) (h : s.log.ringBuffer.entryAt s.index = none) :
    ∃ buf' st, searchStep env s = .ok ({ s with buf := buf', log.stats := st } : Search).advance ∧
      buf'.isSome = s.buf.isSome ∧ s.log.stats.Rejected st := by
  unfold searchStep
  simp only [RingBuffer.compare_eq, Loop.ok_bind]
  by_cases hc : read s.log.ringBuffer.size s.log.ringBuffer.buffer s.index
    (leBytes 4 START_PATTERN.toNat).length =
      leBytes 4 START_PATTERN.toNat
  · obtain ⟨buf', st, hval, hsome, hst⟩ := isEntryValid_none env hS h4096 h s.buf
    exact ⟨buf', st, by rw [if_pos hc, if_neg (by decide), hval]; rfl, hsome, hst⟩
  · exact ⟨s.buf, s.log.stats, by rw [if_neg hc, if_pos (by decide)]; rfl, rfl, Stats.Rejected.refl _⟩

theorem searchStep_some {s : Search} {entry : List UInt8} (hS : s.log.ringBuffer.size < 2147483648)
    (hfit : entry.length ≤ s.log.ringBuffer.size) (h : s.log.ringBuffer.entryAt s.index = some entry) :
    searchStep env s = .ok (.done (s.index, s.buf.map (overlay entry),
      { s.log with stats.glideCount := .ofNat s.loop })) := by
  unfold searchStep
  simp only [compare_entry h, Loop.ok_bind, isEntryValid_some env hS hfit h]
  rfl

theorem search_reaches (hS : log.ringBuffer.size < 2147483648) (h4096 : 4096 ≤ log.ringBuffer.size)
    (hq : q + log.ringBuffer.size < 4294967296) (buf : Option (List UInt8)) :
    ∀ j ≤ log.ringBuffer.size, (∀ i < j, log.ringBuffer.entryAt (q + i) = none) →
      ∃ (buf' : Option (List UInt8)) (st : Stats), buf'.isSome = buf.isSome ∧ log.stats.Rejected st ∧
        Loop.Reaches .fuel (searchStep env) j ⟨q, 0, buf, log⟩ ⟨q + j, j, buf', { log with stats := st }⟩
  | 0, _, _ => ⟨buf, log.stats, rfl, Stats.Rejected.refl _, Loop.Reaches.refl _⟩
  | j + 1, hj, hmin => by
    obtain ⟨buf', st, hsome, hst, hreach⟩ := search_reaches hS h4096 hq buf j (by omega)
      fun i hi => hmin i (by omega)
    obtain ⟨buf'', st', hstep, hsome', hst'⟩ := searchStep_none env
      (s := ⟨q + j, j, buf', { log with stats := st }⟩) hS h4096 (hmin j (by omega))
    refine ⟨buf'', st', hsome'.trans hsome, hst.trans hst', hreach.trans (Loop.Reaches.single ?_)⟩
    rw [hstep, Search.advance, if_neg (by simp only; omega)]
    simp only [u32_of_lt (show q + j + 1 < 4294967296 by omega)]
    rfl

/-- **The search** returns the first position from `q` on that has an entry, and
copies the entry to the front of the buffer it is given. -/
theorem getNextHeader_some (hS : log.ringBuffer.size < 2147483648) (h4096 : 4096 ≤ log.ringBuffer.size)
    (hq : q + log.ringBuffer.size < 4294967296) {j : ℕ} (hj : j ≤ log.ringBuffer.size)
    (hmin : ∀ i < j, log.ringBuffer.entryAt (q + i) = none) {entry : List UInt8}
    (h : log.ringBuffer.entryAt (q + j) = some entry) (buf : Option (List UInt8)) :
    ∃ (buf' : Option (List UInt8)) (st : Stats), buf'.isSome = buf.isSome ∧ log.stats.Rejected st ∧
      getNextHeader env log q buf =
        .ok (q + j, buf'.map (overlay entry), { log with stats := { st with glideCount := .ofNat j } }) := by
  obtain ⟨buf', st, hsome, hst, hreach⟩ := search_reaches env hS h4096 hq buf j hj hmin
  have hdone := searchStep_some env (s := ⟨q + j, j, buf', { log with stats := st }⟩) hS
    ((RingBuffer.entry_length h).2.2.trans h4096) h
  exact ⟨buf', st, hsome, hst, hreach.run_done hdone (by omega)⟩

/-- **The search** in a ring without an entry gives up and returns 0. -/
theorem getNextHeader_none (hS : log.ringBuffer.size < 2147483648) (h4096 : 4096 ≤ log.ringBuffer.size)
    (hq : q + log.ringBuffer.size < 4294967296) (h : ∀ i, log.ringBuffer.entryAt (q + i) = none)
    (buf : Option (List UInt8)) :
    ∃ (buf' : Option (List UInt8)) (st : Stats), buf'.isSome = buf.isSome ∧ log.stats.Rejected st ∧
      getNextHeader env log q buf =
        .ok (0, buf', { log with
          stats := { st with getNextHeaderFailCount := st.getNextHeaderFailCount + 1 } }) := by
  obtain ⟨buf', st, hsome, hst, hreach⟩ := search_reaches env hS h4096 hq buf log.ringBuffer.size le_rfl
    fun i _ => h i
  obtain ⟨buf'', st', hstep, hsome', hst'⟩ := searchStep_none env
    (s := ⟨q + log.ringBuffer.size, log.ringBuffer.size, buf', { log with stats := st }⟩) hS h4096 (h _)
  have hfull : log.ringBuffer.size < log.ringBuffer.size + 1 := Nat.lt_succ_self _
  rw [Search.advance, if_pos hfull] at hstep
  exact ⟨buf'', st', hsome'.trans hsome, hst.trans hst', hreach.run_done hstep (by omega)⟩

/-! ### What the search finds -/

theorem exists_first_entry (rb : RingBuffer) (q : ℕ) (h : ∃ p, rb.entryAt p ≠ none) :
    ∃ j < rb.size, ∃ entry, rb.entryAt (q + j) = some entry ∧ ∀ i < j, rb.entryAt (q + i) = none := by
  classical
  have hnear : ∃ j, j < rb.size ∧ rb.entryAt (q + j) ≠ none := by
    obtain ⟨p, hp⟩ := h
    obtain ⟨j, hj, hmod⟩ := exists_dist (Nat.mod_lt p rb.size_pos) q
    exact ⟨j, hj, by rwa [rb.entryAt_congr hmod.symm]⟩
  obtain ⟨hlt, hsome⟩ := Nat.find_spec hnear
  obtain ⟨entry, hentry⟩ := Option.ne_none_iff_exists'.mp hsome
  refine ⟨Nat.find hnear, hlt, entry, hentry, fun i hi => ?_⟩
  exact not_not.mp fun hne => Nat.find_min hnear hi ⟨hi.trans hlt, hne⟩

theorem entryAt_zero {rb : RingBuffer} (h : ∀ p, rb.buffer p = 0) (q : ℕ) : rb.entryAt q = none := by
  apply Option.eq_none_iff_forall_ne_some.mpr
  intro entry hentry
  have hpattern : read rb.size rb.buffer q 4 = leBytes 4 START_PATTERN.toNat :=
    read_pattern (show (⟨rb, 0, 0, ⟨0, 0, 0, 0, 0, 0, 0, 0, 0⟩⟩ : Log).ringBuffer.entryAt q =
      some entry from hentry)
  have hhead := congrArg (·[0]?) hpattern
  rw [getElem?_read (by decide), h] at hhead
  exact absurd (Option.some.inj hhead) (by decide)

/-- `getLog` succeeds at position `q`. -/
def Accepts (log : Log) (q : ℕ) : Prop := ∃ buf buf' log', log.getLog q buf = .ok (true, buf', log')

theorem accepts_iff (hS : log.ringBuffer.size < 2147483648) (h4096 : 4096 ≤ log.ringBuffer.size) :
    log.Accepts q ↔ log.ringBuffer.entryAt q ≠ none := by
  constructor
  · rintro ⟨buf, buf', log', h⟩ hnone
    obtain ⟨buf'', st, h', -⟩ := getLog_none hS h4096 hnone buf
    rw [h'] at h
    cases h
  · intro h
    obtain ⟨entry, hentry⟩ := Option.ne_none_iff_exists'.mp h
    exact ⟨[], _, _, getLog_some hS (by omega) ((RingBuffer.entry_length hentry).2.2.trans h4096) hentry []⟩

/-- **`getNextHeader` is the search for the first entry.** It returns. If `getLog`
succeeds anywhere, it returns the first position from `i` on where it does, less
than a turn on, with the entry that `getLog` finds there at the front of a buffer
that is not `NULL`, and its distance in `glideCount_`. Otherwise it returns 0 and
counts the failure. -/
theorem getNextHeader_first (env : Env) (log : Log) (h0 : 4096 ≤ log.ringBuffer.size)
    (h1 : log.ringBuffer.size ≤ 2147483647) (i : ℕ) (hi : i < log.ringBuffer.size)
    (buf : Option (List UInt8)) :
    ∃ j buf' log', getNextHeader env log i buf = .ok (j, buf', log') ∧
      ((∃ q, log.Accepts q) →
        i ≤ j ∧ j < i + log.ringBuffer.size ∧ log.Accepts j ∧ (∀ k, i ≤ k → k < j → ¬ log.Accepts k) ∧
        (∃ entry, (∀ b, log.getLog j b = .ok (true, overlay entry b, log)) ∧
          ∃ b : Option (List UInt8), b.isSome = buf.isSome ∧ buf' = b.map (overlay entry)) ∧
        log'.stats.glideCount = .ofNat (j - i)) ∧
      ((¬ ∃ q, log.Accepts q) →
        j = 0 ∧ log'.stats.getNextHeaderFailCount = log.stats.getNextHeaderFailCount + 1) := by
  have hS : log.ringBuffer.size < 2147483648 := by omega
  have hi32 : i + log.ringBuffer.size < 4294967296 := by omega
  simp only [accepts_iff hS h0]
  by_cases hex : ∃ q, log.ringBuffer.entryAt q ≠ none
  · obtain ⟨j, hj, entry, hentry, hmin⟩ := exists_first_entry log.ringBuffer i hex
    obtain ⟨buf', st, hsome, -, hnext⟩ := getNextHeader_some env hS h0 hi32 hj.le hmin hentry buf
    have hlen := (RingBuffer.entry_length hentry).2.2
    refine ⟨i + j, _, _, hnext, fun _ => ⟨Nat.le_add_right i j, by omega, by simp [hentry], ?_, ?_, ?_⟩,
      fun h => absurd hex h⟩
    · intro k hk hkj
      obtain ⟨d, rfl⟩ := Nat.exists_eq_add_of_le hk
      exact not_not.mpr (hmin d (by omega))
    · exact ⟨entry, getLog_some hS (by omega) (hlen.trans h0) hentry, buf', hsome, rfl⟩
    · rw [Nat.add_sub_cancel_left]
  · have hnone : ∀ k, log.ringBuffer.entryAt (i + k) = none := fun k => not_not.mp fun h => hex ⟨_, h⟩
    obtain ⟨buf', st, -, hst, hnext⟩ := getNextHeader_none env hS h0 hi32 hnone buf
    obtain ⟨_, _, _, _, rfl⟩ := hst
    exact ⟨0, buf', _, hnext, fun h => absurd h hex, fun _ => ⟨rfl, rfl⟩⟩

/-- An entry without arguments. -/
def emptyEntry : List UInt8 := record ⟨START_PATTERN, 4090, 7, 0, 0, 0, 0, 64, 0, 0, 0, 0⟩ []

/-- A ring in which the entry lies across the end, behind a start pattern that does not
belong to one. -/
def acrossEnd : Log where
  ringBuffer := { RingBuffer.new 4096 (by decide) (by decide) with
    buffer := write 4096 (write 4096 (fun _ => 0) 4090 emptyEntry) 4085 (leBytes 4 START_PATTERN.toNat) }
  globalId := 8
  bufLastWrittenIndex := 0
  stats := ⟨0, 0, 0, 0, 0, 0, 0, 0, 0⟩

theorem acrossEnd_entry : acrossEnd.ringBuffer.entryAt 4090 = some emptyEntry := by decide +kernel

theorem acrossEnd_before : ∀ k < 10, acrossEnd.ringBuffer.entryAt (4080 + k) = none := by decide +kernel

/-- From 4080 the search finds the entry at 4090, and in an empty log nothing. -/
theorem getNextHeader_first_example :
    let env : Env := ⟨fun _ => ⟨[], by decide, by decide⟩, fun _ _ => [], fun _ => [], fun _ => 0⟩
    (∃ b log, getNextHeader env acrossEnd 4080 (some []) = .ok (4090, some (overlay emptyEntry b), log) ∧
      log.stats.glideCount = 10) ∧
    ∃ buf log, getNextHeader env (Log.new 4096 (by decide) (by decide)) 4095 none = .ok (0, buf, log) ∧
      log.stats.getNextHeaderFailCount = 1 := by
  intro env
  constructor
  · obtain ⟨j, buf, log, hnext, hfound, -⟩ :=
      getNextHeader_first env acrossEnd (le_refl 4096) (by decide) 4080
      (by decide) (some [])
    have haccepts : acrossEnd.Accepts 4090 :=
      (accepts_iff (by decide) (le_refl 4096)).mpr (by rw [acrossEnd_entry]; nofun)
    obtain ⟨hle, -, hj, hmin, ⟨entry, hget, b, hsome, rfl⟩, hglide⟩ := hfound ⟨4090, haccepts⟩
    have hle' : j ≤ 4090 := not_lt.mp fun hlt => hmin 4090 (by decide) hlt haccepts
    obtain rfl : j = 4090 := by
      by_contra hne
      obtain ⟨k, rfl⟩ := Nat.exists_eq_add_of_le hle
      exact (accepts_iff (by decide) (le_refl 4096)).mp hj (acrossEnd_before k (by omega))
    obtain ⟨b, rfl⟩ := Option.isSome_iff_exists.mp hsome
    have hoverlay : overlay emptyEntry b = overlay entry b := by
      have hentry := getLog_some (by decide) (by decide) (by decide) acrossEnd_entry b
      rw [hget b] at hentry
      simpa using hentry.symm
    exact ⟨b, log, hoverlay ▸ hnext, hglide⟩
  · obtain ⟨j, buf, log, hnext, -, hnone⟩ := getNextHeader_first env (Log.new 4096 (by decide) (by decide))
      (le_refl 4096) (by decide) 4095 (by decide) none
    have hempty : ¬ ∃ q, (Log.new 4096 (by decide) (by decide)).Accepts q := by
      rintro ⟨q, hq⟩
      exact (accepts_iff (by decide) (le_refl 4096)).mp hq (entryAt_zero (fun _ => rfl) q)
    obtain ⟨rfl, hcount⟩ := hnone hempty
    exact ⟨buf, log, hnext, hcount⟩

end Log
end Memlog

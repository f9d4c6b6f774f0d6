/-
# Records that are being copied

`src/src/lib/log.cpp`: `traceVargs` copies a record to the ring while others read there.
`getLog` looks twice, first for the header and then for the whole record, and compares
the header, and the trailer, for a record that changes in between. Here the copies go
on in pieces, from front to back, in any interleaving with each other and with the two
looks (`Copies.Step`); each look sees the ring as it is at one moment. The pieces of
one record together make its `set` (`set_pieces`).

In a ring that has not been filled, what is not copied yet is zero. So the trailer of a
record is not there before its last byte (`Copy.entryAt_iff`), and no record is taken
for complete before it is: if the second look accepts it, it is complete at that look, and
if its header is there at the first look, the second accepts it as soon as it is
complete (`getLog_not_torn`).

Key definitions: `Copies.Step`, `Log.readHeader`, `Log.readEntry`.
Key theorems: `Copy.entryAt_iff`, `Copies.Steps.laid`, `Copies.getLog_not_torn`.
-/
import Mathlib.Logic.Relation
import Memlog.Laid

namespace Memlog

open Circular ByteCodec

/-! ### The two looks -/

namespace Log

/-- The first look: the header. -/
def readHeader (log : Log) (index : ℕ) : Except Fault (List UInt8) :=
  log.ringBuffer.get (log.ringBuffer.normalize index) Header.size

/-- The second look: the record, checked against the header of the first. -/
def readEntry (log : Log) (index : ℕ) (read_hdr buf : List UInt8) :
    Except Fault (Bool × List UInt8 × Log) := do
  let hdr := Header.ofBytes read_hdr
  if hdr.pattern ≠ START_PATTERN then
    return (false, buf, { log with stats.hdrPatErr := log.stats.hdrPatErr + 1 })
  if hdr.length.toNat < Header.size + Trailer.size ∨ LOG_MAX_LOG_TRACE_LINE < hdr.length.toNat then
    return (false, buf, { log with stats.fullBufLenErr := log.stats.fullBufLenErr + 1 })
  let entry ← log.ringBuffer.get (log.ringBuffer.normalize index) hdr.length.toNat
  let buf := overlay entry buf
  if entry.take Header.size ≠ read_hdr then
    return (false, buf, { log with stats.hdrLenErr := log.stats.hdrLenErr + 1 })
  if entry.drop (hdr.length.toNat - Trailer.size) ≠ trailer hdr.id then
    return (false, buf, { log with stats.hdrTailErr := log.stats.hdrTailErr + 1 })
  return (true, buf, log)

theorem getLog_eq (log : Log) (index : ℕ) (buf : List UInt8) :
    log.getLog index buf = log.readHeader index >>= fun read_hdr => log.readEntry index read_hdr buf := rfl

section Looks

variable {log : Log} {q : ℕ} {buf read_hdr : List UInt8}

theorem get_normalize {n : ℕ} (hS : log.ringBuffer.size < 2147483648)
    (h4096 : 4096 ≤ log.ringBuffer.size) (hn : n ≤ 4096) :
    log.ringBuffer.get (log.ringBuffer.normalize q) n =
      .ok (read log.ringBuffer.size log.ringBuffer.buffer q n) := by
  have hq := Nat.mod_lt q log.ringBuffer.size_pos
  have hmod : q % log.ringBuffer.size % log.ringBuffer.size = q % log.ringBuffer.size := Nat.mod_mod _ _
  rw [RingBuffer.normalize, log.ringBuffer.get_eq (by omega) (by omega), read_congr hmod]

theorem readHeader_eq (hS : log.ringBuffer.size < 2147483648) (h4096 : 4096 ≤ log.ringBuffer.size) :
    log.readHeader q = .ok (read log.ringBuffer.size log.ringBuffer.buffer q 56) :=
  get_normalize hS h4096 (by decide)

theorem readEntry_ok (hS : log.ringBuffer.size < 2147483648) (h4096 : 4096 ≤ log.ringBuffer.size)
    (read_hdr buf : List UInt8) : ∃ r, log.readEntry q read_hdr buf = .ok r := by
  unfold readEntry
  dsimp only
  split
  · exact ⟨_, rfl⟩
  split
  · exact ⟨_, rfl⟩
  · rename_i hlen
    rw [Trailer.size, Header.size, LOG_MAX_LOG_TRACE_LINE] at hlen
    rw [get_normalize hS h4096 (by omega), Loop.ok_bind]
    split
    · exact ⟨_, rfl⟩
    split <;> exact ⟨_, rfl⟩

theorem readEntry_true {log' : Log} {buf' : List UInt8} (hS : log.ringBuffer.size < 2147483648)
    (h4096 : 4096 ≤ log.ringBuffer.size) (h : log.readEntry q read_hdr buf = .ok (true, buf', log')) :
    log.readHeader q = .ok read_hdr := by
  unfold readEntry at h
  dsimp only at h
  split at h
  · cases h
  split at h
  · cases h
  · rename_i hlen
    rw [Trailer.size, Header.size, LOG_MAX_LOG_TRACE_LINE] at hlen
    rw [get_normalize hS h4096 (by omega), Loop.ok_bind] at h
    split at h
    · cases h
    · rename_i hheader
      rw [Header.size, not_not, read_take (by omega)] at hheader
      rw [readHeader_eq hS h4096, hheader]

end Looks

end Log

/-! ### A record in pieces -/

namespace Copy

variable {c : Copy}

theorem field_two (l : List UInt8) (o : ℕ) :
    field l o 2 = ((l[o]?).getD 0).toNat + 256 * ((l[o + 1]?).getD 0).toNat := by
  have h0 : l[o]? = (l.drop o)[0]? := by rw [List.getElem?_drop, Nat.add_zero]
  have h1 : l[o + 1]? = (l.drop o)[1]? := by rw [List.getElem?_drop]
  rw [h0, h1, field]
  rcases l.drop o with _ | ⟨a, _ | ⟨b, rest⟩⟩ <;> rfl

theorem length_toNat (l : List UInt8) :
    (Header.ofBytes l).length.toNat = ((l[34]?).getD 0).toNat + 256 * ((l[35]?).getD 0).toNat := by
  have h0 := ((l[34]?).getD 0).toNat_lt
  have h1 : ((l[34 + 1]?).getD 0).toNat < 256 := UInt8.toNat_lt _
  rw [Header.ofBytes, UInt16.toNat_ofNat', field_two]
  exact Nat.mod_eq_of_lt (by omega)

/-- A header that is copied in part names a length that is copied, or too small a one. -/
theorem length_content (he : c.entry.Genuine) (hle : c.copied ≤ c.entry.bytes.length) :
    let n := (Header.ofBytes c.content).length.toNat
    n ≤ c.entry.bytes.length ∧ (n = c.entry.bytes.length ∨ c.copied < 36) := by
  have hlen := c.entry.length_eq
  have hfull := length_toNat c.entry.bytes
  rw [c.entry.ofBytes, he.length] at hfull
  have hpart := length_toNat c.content
  rcases Nat.lt_or_ge c.copied 36 with hlt | hge
  · refine ⟨?_, .inr hlt⟩
    rw [getElem?_blank (k := 35) (by omega) (by omega), Option.getD_some] at hpart
    rcases Nat.lt_or_ge c.copied 35 with hlt' | hge'
    · rw [getElem?_blank (k := 34) (by omega) (by omega), Option.getD_some] at hpart
      exact hpart.trans_le (Nat.zero_le _)
    · rw [getElem?_copied (k := 34) (by omega) hle] at hpart
      have hzero : (0 : UInt8).toNat = 0 := rfl
      omega
  · rw [getElem?_copied (k := 34) (by omega) hle, getElem?_copied (k := 35) (by omega) hle, ← hfull] at hpart
    exact ⟨hpart.le, .inl hpart⟩

/-- **A record is found when its last byte is copied**, and not before. -/
theorem entryAt_iff {rb : RingBuffer} {q : ℕ} (he : c.entry.Genuine) (hle : c.copied ≤ c.entry.bytes.length)
    (hread : read rb.size rb.buffer q c.entry.bytes.length = c.content) :
    (rb.entryAt q = some c.entry.bytes ↔ c.copied = c.entry.bytes.length) ∧
      (c.copied ≠ c.entry.bytes.length → rb.entryAt q = none) := by
  have hlen := c.entry.length_eq
  have hnone : c.copied ≠ c.entry.bytes.length → rb.entryAt q = none := by
    intro hne
    by_contra hsome
    obtain ⟨entry, hentry⟩ := Option.ne_none_iff_exists'.mp hsome
    obtain ⟨-, h64, -, heq, htrailer⟩ := RingBuffer.entryAt_some hentry
    have hheader : Header.ofBytes (read rb.size rb.buffer q 56) = Header.ofBytes c.content := by
      have htake := Header.ofBytes_take c.content
      rwa [← hread, read_take (by omega), hread] at htake
    rw [hheader] at h64 heq htrailer
    obtain ⟨hn, hcase⟩ := length_content he hle
    generalize (Header.ofBytes c.content).length.toNat = n at *
    -- the last byte of the trailer is not there
    have hlast := congrArg (·[7]?) htrailer
    have hbyte : (trailer (Header.ofBytes c.content).id)[7]? = some 250 := by
      rw [trailer, List.getElem?_append_right (by rw [leBytes_length]; decide), leBytes_length]
      decide
    have hentry' : entry = c.content.take n := by rw [heq, ← hread, read_take hn]
    rw [hbyte, List.getElem?_drop,
      show n - 8 + 7 = n - 1 by omega, hentry', List.getElem?_take_of_lt (by omega),
      getElem?_blank (by omega) (by omega)] at hlast
    exact absurd hlast (by decide)
  refine ⟨⟨fun hsome => ?_, fun hcomplete => ?_⟩, hnone⟩
  · by_contra hne
    rw [hnone hne] at hsome
    cases hsome
  · rw [content_complete hcomplete] at hread
    exact he.entryAt hread

end Copy

/-- **Pieces make a `set`**, if nothing comes between them. -/
theorem RingBuffer.set_pieces {rb : RingBuffer} {d : ℕ} {xs ys : List UInt8} (hS : rb.size < 2147483648)
    (h : xs.length + ys.length ≤ rb.size) :
    rb.set d (xs ++ ys) = rb.set d xs >>= fun rb => rb.set (d + xs.length) ys := by
  have hd := Nat.mod_le d rb.size
  have hlt := Nat.mod_lt d rb.size_pos
  have hlt' := Nat.mod_lt (d + xs.length) rb.size_pos
  rw [rb.set_eq (by rw [List.length_append]; exact h) (by rw [List.length_append]; omega),
    rb.set_eq (by omega) (by omega), Loop.ok_bind]
  have hys := RingBuffer.set_eq { rb with buffer := write rb.size rb.buffer d xs } (i := d + xs.length)
    (show ys.length ≤ rb.size by omega) (show (d + xs.length) % rb.size + ys.length < 4294967296 by omega)
  rw [hys]
  simp only [write_append rb.buffer d h]

section Laid

variable {S : ℕ} {log : Log} {cs : List Copy} {c : Copy}

/-- **A record is in the ring when it is copied**, and not before, whatever other calls
have copied. -/
theorem Laid.entryAt_iff (h : Laid S log cs) (htotal : (flat (Copies.entries cs)).length < S) (hc : c ∈ cs) :
    (log.ringBuffer.entryAt c.entry.location = some c.entry.bytes ↔ c.copied = c.entry.bytes.length) ∧
      (c.copied ≠ c.entry.bytes.length → log.ringBuffer.entryAt c.entry.location = none) := by
  have hread := h.read htotal hc
  rw [← h.size] at hread
  exact Copy.entryAt_iff (h.copied c hc).1 (h.copied c hc).2 hread

theorem Laid.readHeader (h : Laid S log cs) (h4096 : 4096 ≤ S) (h1 : S < 2147483648)
    (htotal : (flat (Copies.entries cs)).length < S) (hc : c ∈ cs) (hcopied : 56 ≤ c.copied) :
    log.readHeader c.entry.location = .ok (c.entry.bytes.take 56) := by
  have hle := (h.copied c hc).2
  have hread := h.read htotal hc
  rw [← h.size] at hread
  rw [Log.readHeader_eq (h.size ▸ h1) (h.size ▸ h4096),
    ← read_take (show 56 ≤ c.entry.bytes.length by omega), hread, Copy.take_content hcopied hle]

end Laid

/-! ### Copies in any interleaving -/

/-- The log, and the calls that have allocated, in this order. -/
structure Copies where
  log : Log
  copies : List Copy

namespace Copies

/-- A call allocates, copies more of its record, or publishes an index; or a reader
changes counters. -/
inductive Step (env : Env) : Copies → Copies → Prop
  | allocate {s call log e} : s.log.allocate env call = .ok (log, e) → Step env s ⟨log, s.copies ++ [⟨e, 0⟩]⟩
  | copy {s pre c post n rb} : s.copies = pre ++ c :: post → c.copied + n ≤ c.entry.bytes.length →
      s.log.ringBuffer.set (c.entry.location + c.copied) ((c.entry.bytes.drop c.copied).take n) = .ok rb →
      Step env s ⟨{ s.log with ringBuffer := rb }, pre ++ { c with copied := c.copied + n } :: post⟩
  | publish {s} (index : ℕ) : Step env s ⟨s.log.setLastWrittenIndex index, s.copies⟩
  | observe {s log} : s.log.Same log → Step env s ⟨log, s.copies⟩

/-- Runs. -/
abbrev Steps (env : Env) : Copies → Copies → Prop := Relation.ReflTransGen (Step env)

/-- No call has allocated yet. -/
def new (S : ℕ) (h0 : 0 < S) (h1 : S < 2147483648) : Copies := ⟨.new S h0 h1, []⟩

variable {env : Env} {S : ℕ} {s s' : Copies} {c : Copy}

/-- The calls go on, and more may join them. -/
theorem Step.grows (h : Step env s s') {i : ℕ} (hc : s.copies[i]? = some c) :
    ∃ c', s'.copies[i]? = some c' ∧ c'.entry = c.entry ∧ c.copied ≤ c'.copied := by
  cases h with
  | allocate _ =>
    exact ⟨c, by rw [List.getElem?_append_left (List.getElem?_eq_some_iff.mp hc).1, hc], rfl, le_rfl⟩
  | @copy pre d post n rb hcs _ _ =>
    rw [hcs] at hc
    rcases Nat.lt_trichotomy i pre.length with hlt | rfl | hgt
    · rw [List.getElem?_append_left hlt] at hc
      exact ⟨c, by rw [List.getElem?_append_left hlt, hc], rfl, le_rfl⟩
    · rw [List.getElem?_append_right le_rfl, Nat.sub_self, List.getElem?_cons_zero] at hc
      obtain rfl := Option.some.inj hc
      exact ⟨{ d with copied := d.copied + n },
        by rw [List.getElem?_append_right le_rfl, Nat.sub_self, List.getElem?_cons_zero], rfl,
        Nat.le_add_right _ _⟩
    · obtain ⟨k, rfl⟩ := Nat.exists_eq_add_of_lt hgt
      have hdist : pre.length + k + 1 - pre.length = k + 1 := by omega
      rw [List.getElem?_append_right (by omega), hdist, List.getElem?_cons_succ] at hc
      exact ⟨c, by rw [List.getElem?_append_right (by omega), hdist, List.getElem?_cons_succ, hc], rfl,
        le_rfl⟩
  | publish _ | observe _ => exact ⟨c, hc, rfl, le_rfl⟩

theorem Step.entries_prefix (h : Step env s s') : entries s.copies <+: entries s'.copies := by
  cases h with
  | allocate _ =>
    rw [entries, entries, List.map_append]
    exact List.prefix_append _ _
  | @copy pre c post n rb hcs _ _ =>
    have hentries : entries (pre ++ { c with copied := c.copied + n } :: post) = entries s.copies := by
      simp [entries, hcs]
    exact hentries ▸ List.prefix_refl _
  | publish _ | observe _ => exact List.prefix_refl _

/-- **One step**, as long as the ring is not full. -/
theorem Step.laid (hstep : Step env s s') (h : Laid S s.log s.copies) (h1 : S < 2147483648)
    (htotal : (flat (entries s'.copies)).length < S) : Laid S s'.log s'.copies := by
  have hbefore := (flat_length_le hstep.entries_prefix).trans_lt htotal
  cases hstep with
  | allocate ha => exact h.allocate h1 (allocate_inv ha) htotal
  | copy hcs hn hset =>
    rw [hcs] at h hbefore
    obtain ⟨rb, hset', h'⟩ := h.copy h1 hbefore hn
    obtain rfl := Except.ok.inj (hset.symm.trans hset')
    exact h'
  | publish index => exact h.of_ring rfl
  | observe hs => exact h.of_ring hs.ringBuffer

/-- **A run**. -/
theorem Steps.laid (hrun : Steps env s s') (h : Laid S s.log s.copies) (h1 : S < 2147483648)
    (htotal : (flat (entries s'.copies)).length < S) : Laid S s'.log s'.copies := by
  induction hrun with
  | refl => exact h
  | tail _ hstep ih => exact hstep.laid (ih ((flat_length_le hstep.entries_prefix).trans_lt htotal)) h1 htotal

theorem Steps.entries_prefix (hrun : Steps env s s') : entries s.copies <+: entries s'.copies := by
  induction hrun with
  | refl => exact List.prefix_refl _
  | tail _ hstep ih => exact ih.trans hstep.entries_prefix

theorem Steps.grows (hrun : Steps env s s') {i : ℕ} (hc : s.copies[i]? = some c) :
    ∃ c', s'.copies[i]? = some c' ∧ c'.entry = c.entry ∧ c.copied ≤ c'.copied := by
  induction hrun with
  | refl => exact ⟨c, hc, rfl, le_rfl⟩
  | tail _ hstep ih =>
    obtain ⟨c1, hc1, hentry1, hle1⟩ := ih
    obtain ⟨c2, hc2, hentry2, hle2⟩ := hstep.grows hc1
    exact ⟨c2, hc2, hentry2.trans hentry1, hle1.trans hle2⟩

/-- **A record is read when it is copied**: a call of `traceVargs` has copied some of its
record at the first look and maybe more at the second. If the second look accepts a
record, it is this one and complete by then, and if it is complete by then and its header
was at the first look, the second look accepts it. -/
theorem getLog_not_torn {s1 s2 : Copies} {c1 c2 : Copy} {i : ℕ} (h4096 : 4096 ≤ S)
    (h1 : S < 2147483648) (hrun1 : Steps env (new S (by omega) h1) s1) (hrun2 : Steps env s1 s2)
    (htotal : (flat (entries s2.copies)).length < S) (hc1 : s1.copies[i]? = some c1)
    (hc2 : s2.copies[i]? = some c2) (buf : List UInt8) :
    ∃ hdr r, s1.log.readHeader c1.entry.location = .ok hdr ∧
      s2.log.readEntry c1.entry.location hdr buf = .ok r ∧
      (56 ≤ c1.copied → c2.copied = c1.entry.bytes.length → r.1 = true) ∧
      (r.1 = true → c2.copied = c1.entry.bytes.length ∧ r.2.1 = overlay c1.entry.bytes buf) := by
  have htotal1 := (flat_length_le (Steps.entries_prefix hrun2)).trans_lt htotal
  have hinv1 := Steps.laid hrun1 (.new (by omega) h1) h1 htotal1
  have hinv2 := Steps.laid hrun2 hinv1 h1 htotal
  obtain ⟨c, hc, hentry, hle⟩ := Steps.grows hrun2 hc1
  obtain rfl := Option.some.inj (hc2.symm.trans hc)
  have hmem1 := List.mem_of_getElem? hc1
  have hmem2 := List.mem_of_getElem? hc2
  have hfound2 := hinv2.entryAt_iff htotal hmem2
  rw [hentry] at hfound2
  have hS1 := hinv1.size
  have hS2 := hinv2.size
  have hlen := (hinv1.copied c1 hmem1).1.length_le
  obtain ⟨hdr, hhdr⟩ : ∃ hdr, s1.log.readHeader c1.entry.location = .ok hdr :=
    ⟨_, Log.readHeader_eq (by omega) (by omega)⟩
  obtain ⟨⟨success, buf', log'⟩, hr⟩ : ∃ r, s2.log.readEntry c1.entry.location hdr buf = .ok r :=
    Log.readEntry_ok (by omega) (by omega) hdr buf
  -- a second look that follows its own first look
  have hgetLog : s2.log.readHeader c1.entry.location = .ok hdr →
      s2.log.getLog c1.entry.location buf = .ok (success, buf', log') := by
    intro h
    rw [Log.getLog_eq, h, Loop.ok_bind, hr]
  refine ⟨hdr, _, hhdr, hr, fun hheader hcomplete => ?_, fun hsuccess => ?_⟩
  · have hentry2 := hfound2.1.mpr hcomplete
    have hsame : s2.log.readHeader c1.entry.location = .ok hdr := by
      rw [← hhdr, hinv1.readHeader h4096 h1 htotal1 hmem1 hheader, ← hentry]
      exact hinv2.readHeader h4096 h1 htotal hmem2 (hheader.trans hle)
    have hget := Log.getLog_some (by omega) (by omega) (by omega) hentry2 buf
    rw [hgetLog hsame] at hget
    exact congrArg Prod.fst (Except.ok.inj hget)
  · obtain rfl : success = true := hsuccess
    have hget := hgetLog (Log.readEntry_true (by omega) (by omega) hr)
    rcases Log.getLog_inv (by omega) hget with ⟨entry, hsome, -, hbuf, -⟩ | ⟨-, hfalse, -⟩
    · have hcomplete : c2.copied = c1.entry.bytes.length := by
        by_contra hne
        rw [hfound2.2 hne] at hsome
        cases hsome
      rw [hfound2.1.mpr hcomplete] at hsome
      exact ⟨hcomplete, hbuf.trans (by rw [Option.some.inj hsome])⟩
    · cases hfalse

/-- A record of 69 bytes: 60 of them are there at the first look and all at the second. -/
theorem getLog_not_torn_example : ∃ (s1 s2 : Copies) (e : Entry),
    e.bytes.length = 69 ∧ s1.copies = [⟨e, 60⟩] ∧
    s2.copies = [⟨e, 69⟩] ∧ ∃ hdr log, s1.log.readHeader e.location = .ok hdr ∧
      s2.log.readEntry e.location hdr [] = .ok (true, overlay e.bytes [], log) := by
  have h1 : (4096 : ℕ) < 2147483648 := by decide
  have hstage := stage_string (show (letters 4 (by decide)).bytes.length + 65 ≤ 4096 by decide)
  obtain ⟨log, e, halloc⟩ := allocate_ok hstage (Log.new 4096 (by decide) h1)
  have ha := allocate_inv halloc
  have hargs : e.args = (letters 4 (by decide)).bytes ++ [0] := Except.ok.inj (ha.staged.symm.trans hstage)
  have hbytes : e.bytes.length = 69 := by
    rw [e.length_eq, hargs]
    rfl
  have hloc : e.location = 0 := ha.location
  have hsize : log.ringBuffer.size = 4096 := by
    rw [ha.ringBuffer]
    rfl
  have hset : ∀ (rb : RingBuffer) (d : ℕ) (xs : List UInt8), rb.size = 4096 → d ≤ 60 → xs.length ≤ 69 →
      ∃ rb', rb.set d xs = .ok rb' ∧ rb'.size = 4096 := by
    intro rb d xs hrb hd hxs
    have hmod := Nat.mod_le d rb.size
    exact ⟨_, rb.set_eq (by omega) (by omega), hrb⟩
  obtain ⟨rb1, hset1, hsize1⟩ :=
    hset log.ringBuffer (e.location + 0) ((e.bytes.drop 0).take 60) hsize (by omega)
    (by rw [List.length_take]; omega)
  obtain ⟨rb2, hset2, -⟩ := hset rb1 (e.location + 60) ((e.bytes.drop 60).take 9) hsize1 (by omega)
    (by rw [List.length_take]; omega)
  have hallocate : Step stringEnv (new 4096 (by decide) h1) ⟨log, [⟨e, 0⟩]⟩ := .allocate halloc
  have hbound1 : (⟨e, 0⟩ : Copy).copied + 60 ≤ e.bytes.length := by
    show 60 ≤ _
    omega
  have hbound2 : (⟨e, 60⟩ : Copy).copied + 9 ≤ e.bytes.length := by
    show 69 ≤ _
    omega
  have hcopy1 : Step stringEnv ⟨log, [⟨e, 0⟩]⟩ ⟨{ log with ringBuffer := rb1 }, [⟨e, 60⟩]⟩ :=
    @Step.copy stringEnv ⟨log, [⟨e, 0⟩]⟩ [] ⟨e, 0⟩ [] 60 rb1 rfl hbound1 hset1
  have hcopy2 : Step stringEnv
      ⟨{ log with ringBuffer := rb1 }, [⟨e, 60⟩]⟩ ⟨{ log with ringBuffer := rb2 }, [⟨e, 69⟩]⟩ :=
    @Step.copy stringEnv ⟨{ log with ringBuffer := rb1 }, [⟨e, 60⟩]⟩ [] ⟨e, 60⟩ [] 9 rb2 rfl hbound2 hset2
  have htotal : (flat (entries [⟨e, 69⟩])).length < 4096 := by simp [entries, hbytes]
  obtain ⟨hdr, ⟨success, buf, log'⟩, hhdr, hr, haccepts, hfound⟩ :=
    getLog_not_torn (by decide) h1 (.tail (.single hallocate) hcopy1) (.single hcopy2) htotal
      (List.getElem?_cons_zero ..) (List.getElem?_cons_zero ..) []
  obtain rfl : success = true := haccepts (show 56 ≤ 60 by decide) hbytes.symm
  obtain rfl : buf = overlay e.bytes [] := (hfound rfl).2
  exact ⟨_, _, e, hbytes, rfl, rfl, hdr, log', hhdr, hr⟩

end Copies

end Memlog

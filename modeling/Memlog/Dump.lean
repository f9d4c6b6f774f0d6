/-
# What `dump` writes

`dump` finds the oldest record and walks from there to the write position, as one
range. Where the start pattern leads records only (`Entry.Unmarked`), the search
is right (`Tracks.clean_of_unmarked`), and the walk writes the records that end
in the range. Of a ring that has been filled that is the part up to its end: the
range goes on to the write position only if that is not in front of the oldest
record (`RangeFits`), and then everything is written (`dump_whole`).

Key definitions: `Entry.Unmarked`, `RangeFits`.
-/
import Memlog.Resync

namespace Memlog

open Circular ByteCodec

/-! ### Markers -/

/-- No four bytes of the record but its first are the start pattern. -/
def Entry.Unmarked (e : Entry) : Prop :=
  ∀ k, 0 < k → k + 4 ≤ e.bytes.length → (e.bytes.drop k).take 4 ≠ leBytes 4 START_PATTERN.toNat

theorem Entry.end_pattern (e : Entry) : e.bytes.drop (e.bytes.length - 4) = leBytes 4 END_PATTERN.toNat := by
  have hlen := e.length_eq
  have hsplit : e.bytes = (e.header.bytes ++ (e.args ++ leBytes 4 e.header.id.toNat)) ++
      leBytes 4 END_PATTERN.toNat := by
    rw [bytes, record, trailer, List.append_assoc, List.append_assoc]
  have hpre : (e.header.bytes ++ (e.args ++ leBytes 4 e.header.id.toNat)).length = e.bytes.length - 4 := by
    rw [hlen, List.length_append, List.length_append, Header.bytes_length, leBytes_length]
    omega
  rw [← hpre]
  conv_lhs => rw [hsplit]
  exact List.drop_left

section Markers

variable {S : ℕ} {log : Log} {es : List Entry} {x : ℕ}

/-- Where records are unmarked, only they have entries. -/
theorem Tracks.startsAt_of_entryAt (h : Tracks S log es) (hu : ∀ e ∈ es, e.Unmarked)
    (hx : (flat es).length ≤ x + S) (hxT : x < (flat es).length) (hentry : log.ringBuffer.entryAt x ≠ none) :
    ∃ e, StartsAt es x e := by
  obtain ⟨entry, hentry⟩ := Option.ne_none_iff_exists'.mp hentry
  have hpattern := Log.read_pattern hentry
  rw [h.size] at hpattern
  obtain ⟨p, e, he, hpx, hxe⟩ := exists_startsAt hxT
  rcases Nat.eq_or_lt_of_le hpx with rfl | hlt
  · exact ⟨e, he⟩
  exfalso
  have hend := he.end_le
  obtain ⟨k, rfl⟩ := Nat.exists_eq_add_of_le hpx
  -- what lies in the ring up to the end of the record
  have hread : ∀ n, k + n ≤ e.bytes.length → Circular.read S log.ringBuffer.buffer (p + k) n =
      (e.bytes.drop k).take n := by
    intro n hn
    rw [h.read_flat hx (by omega)]
    obtain ⟨pre, post, rfl, rfl⟩ := he
    rw [flat_append, flat_cons, ← List.drop_drop, List.drop_left, List.drop_append_of_le_length (by omega),
      List.take_append_of_le_length (by rw [List.length_drop]; omega)]
  rcases Nat.lt_or_ge e.bytes.length (k + 4) with hover | hin
  · -- the last three bytes are not the first of the pattern
    have hone := hread 1 (by omega)
    rw [← read_take (show 1 ≤ 4 by decide), hpattern] at hone
    have hlen := e.length_eq
    obtain ⟨j, hj⟩ : ∃ j, k = e.bytes.length - 4 + j := ⟨k - (e.bytes.length - 4), by omega⟩
    rw [hj, ← List.drop_drop, e.end_pattern] at hone
    have hj' : j = 1 ∨ j = 2 ∨ j = 3 := by omega
    rcases hj' with rfl | rfl | rfl
    all_goals exact absurd hone (by decide)
  · have heu : e.Unmarked := by
      obtain ⟨pre, post, rfl, -⟩ := he
      exact hu e (by simp)
    exact heu k (by omega) hin (by rw [← hread 4 hin, hpattern])

/-- Where records are unmarked, the remains in front of the oldest one have no
entry. -/
theorem Tracks.clean_of_unmarked (h : Tracks S log es) (hu : ∀ e ∈ es, e.Unmarked)
    (hx : (flat es).length ≤ x + S) (hxo : x < oldest S es) : log.ringBuffer.entryAt x = none := by
  by_contra hentry
  have hle := oldest_le S es
  obtain ⟨e, he⟩ := h.startsAt_of_entryAt hu hx (by omega) hentry
  have hold := he.oldest_le hx
  omega

end Markers

/-! ### The range -/

/-- The range that `dump` walks is the one of the records still in the ring: it
starts with the oldest of them, and the write position is behind that, or both it
and the end of the range that stands for it are the end of the ring. -/
def RangeFits (S : ℕ) (log : Log) (es : List Entry) : Prop :=
  (log.Wrapped ∨ oldest S es % S = 0) ∧
  (oldest S es % S < (flat es).length % S ∨
    (flat es).length % S = 0 ∧ (UINT32_MAX % S + 1 = S ∨ UINT32_MAX % S + 1 < oldest S es % S))

/-- The end of the range for the write position: a write position of 0 is taken for
the one before 2^32. -/
theorem rangeEnd_write {S : ℕ} (start last : ℕ) (h32 : last < 4294967296) (hlast : last < S) :
    Log.rangeEnd S start (u32Sub last 1) =
      if (if last = 0 then UINT32_MAX % S + 1 else last) < start % S then S
      else if last = 0 then UINT32_MAX % S + 1 else last := by
  have hsub : (u32Sub last 1) % S + 1 = if last = 0 then UINT32_MAX % S + 1 else last := by
    by_cases h0 : last = 0
    · rw [if_pos h0, h0]
      rfl
    · rw [if_neg h0, u32Sub_of_le (by omega) h32, Nat.mod_eq_of_lt (by omega)]
      omega
  rw [Log.rangeEnd, hsub]

theorem rangeEnd_pos {S : ℕ} (hS : 0 < S) (start last : ℕ) : 0 < Log.rangeEnd S start last := by
  unfold Log.rangeEnd
  split <;> omega

section RangeEnd

variable {S o L : ℕ}

/-- One range of `L` bytes on, the cell is in the same turn or in the next. -/
theorem add_mod_turn (hLS : L ≤ S) (hS : 0 < S) :
    ((o + L) % S = o % S + L ∧ o % S + L < S) ∨ (o + L) % S + S = o % S + L := by
  have ho := Nat.mod_lt o hS
  rcases Nat.eq_or_lt_of_le hLS with rfl | hlt
  · right
    rw [Nat.add_mod_right]
  · rcases add_mod_cases (a := o) hlt with ⟨h, h'⟩ | ⟨h, h'⟩
    · exact .inl ⟨h', h⟩
    · right
      rw [h']
      omega

/-- The range ends where the newest record ends exactly when the write position is
behind the oldest one. -/
theorem rangeEnd_eq_iff (hS : 0 < S) (h32 : S < 4294967296) (hL : 0 < L) (hLS : L ≤ S) :
    o % S + L = Log.rangeEnd S (o % S) (u32Sub ((o + L) % S) 1) ↔
      o % S < (o + L) % S ∨
        (o + L) % S = 0 ∧ (UINT32_MAX % S + 1 = S ∨ UINT32_MAX % S + 1 < o % S) := by
  have ho := Nat.mod_lt o hS
  have hT := Nat.mod_lt (o + L) hS
  have hmax := Nat.mod_lt UINT32_MAX hS
  have hcases := add_mod_turn (o := o) hLS hS
  rw [rangeEnd_write _ _ (by omega) hT, Nat.mod_mod]
  generalize (o + L) % S = e at *
  generalize UINT32_MAX % S = m at *
  by_cases he : e = 0
  · rw [if_pos he]
    split <;> omega
  · rw [if_neg he]
    split <;> omega

/-- The range does not go on behind the newest record. -/
theorem rangeEnd_le_add (hS : 0 < S) (h32 : S < 4294967296) (hL : 0 < L) (hLS : L ≤ S) :
    Log.rangeEnd S (o % S) (u32Sub ((o + L) % S) 1) ≤ o % S + L := by
  have ho := Nat.mod_lt o hS
  have hT := Nat.mod_lt (o + L) hS
  have hmax := Nat.mod_lt UINT32_MAX hS
  have hcases := add_mod_turn (o := o) hLS hS
  rw [rangeEnd_write _ _ (by omega) hT, Nat.mod_mod]
  generalize (o + L) % S = e at *
  generalize UINT32_MAX % S = m at *
  by_cases he : e = 0
  · rw [if_pos he]
    split <;> omega
  · rw [if_neg he]
    split <;> omega

end RangeEnd

/-! ### The dump -/

section Dump

variable (env : Env) {S : ℕ} {log log1 log' : Log} {es : List Entry} {line : Entry → List UInt8} {q fuel : ℕ}

theorem Tracks.dump_eq (h : Tracks S log es) (hs : log.Same log1) (hfirst : log.firstLine env = .ok (q, log1))
    (fuel : ℕ) : log.dump env fuel = (do
      let r ← log1.dumpRange env fuel (q % S) (u32Sub ((flat es).length % S) 1) false
      return (r.2.1, r.2.2)) := by
  unfold Log.dump
  simp only [hfirst, Loop.ok_bind, RingBuffer.normalize, RingBuffer.getCurrentIndex, hs.ringBuffer,
    h.size, h.current]

theorem Tracks.survivorsAt (h : Tracks S log es) (hs : log.Same log1) :
    RecordsAt log1.ringBuffer (oldest S es) (survivors S es) := by
  obtain ⟨dead, hdead, hlen⟩ := survivors_suffix S es
  rw [hs.ringBuffer, ← hlen]
  exact recordsAt_of_tracks (hdead ▸ h) (survivors_le S es)

/-- Equally many lines of a beginning of `rs` are those of all of `rs`. -/
theorem lines_prefix {rs top rest : List Entry} (hrs : rs = top ++ rest)
    (h : lines line rs = lines line top) :
    rs = top := by
  have hlen := congrArg List.length h
  rw [lines, lines, List.length_map, List.length_map, hrs, List.length_append] at hlen
  rw [hrs, List.length_eq_zero_iff.mp (show rest.length = 0 by omega), List.append_nil]

/-- From the oldest record on, `dump` writes all records if the range ends behind
them. -/
theorem Tracks.dump_of_range (h : Tracks S log es) (h0 : 4096 ≤ S) (h1 : S < 2147483648) (hs : log.Same log1)
    (hfirst : log.firstLine env = .ok (q, log1)) (hq : q % S = oldest S es % S)
    (hp : ∀ e ∈ survivors S es, e.Prints env (line e) ∧ (line e).length ≤ 4096)
    (hend : oldest S es % S + (flat (survivors S es)).length =
      Log.rangeEnd S (oldest S es % S) (u32Sub ((flat es).length % S) 1)) :
    ∃ log', ∀ fuel, S < fuel → log.dump env fuel = .ok (log', lines line (survivors S es)) := by
  have hsize : log1.ringBuffer.size = S := by rw [hs.ringBuffer, h.size]
  obtain ⟨log', -, hdump⟩ := Log.dumpRange_records env false line log1 (survivors S es) (oldest S es % S)
    (u32Sub ((flat es).length % S) 1) (by omega) (by omega)
    ((h.survivorsAt hs).congr (by rw [hsize, Nat.mod_mod, Nat.mod_mod])) hp
    (by rw [hsize, Nat.mod_mod, hend])
  rw [hsize] at hdump
  refine ⟨log', fun fuel hfuel => ?_⟩
  rw [h.dump_eq env hs hfirst, hq, hdump fuel hfuel]
  rfl

/-- If it writes all of them, the range does end there, and no line is too long. -/
theorem Tracks.range_of_dump (h : Tracks S log es) (h0 : 4096 ≤ S) (h1 : S < 2147483648) (hs : log.Same log1)
    (hfirst : log.firstLine env = .ok (q, log1)) (hq : q % S = oldest S es % S) (hne : survivors S es ≠ [])
    (hp : ∀ e ∈ survivors S es, e.Genuine ∧ e.Prints env (line e))
    (hdump : log.dump env fuel = .ok (log', lines line (survivors S es))) :
    oldest S es % S + (flat (survivors S es)).length =
        Log.rangeEnd S (oldest S es % S) (u32Sub ((flat es).length % S) 1) ∧
      ∀ e ∈ survivors S es, (line e).length ≤ 4096 := by
  have hsize : log1.ringBuffer.size = S := by rw [hs.ringBuffer, h.size]
  have hcount := length_le_flat (survivors S es)
  have hpos := List.length_pos_iff.mpr hne
  have hadd := oldest_add S es
  have hle := rangeEnd_le_add (o := oldest S es) (show 0 < S by omega) (by omega)
    (show 0 < (flat (survivors S es)).length by omega) (survivors_le S es)
  rw [hadd] at hle
  have hstart := start_le_rangeEnd (show 0 < S by omega) (oldest S es % S) (u32Sub ((flat es).length % S) 1)
  have hstop := Log.rangeEnd_le (show 0 < S by omega) (oldest S es % S) (u32Sub ((flat es).length % S) 1)
  rw [Nat.mod_mod] at hstart
  rw [h.dump_eq env hs hfirst, hq, Log.dumpRange_eq, hsize, Nat.mod_mod] at hdump
  obtain ⟨r, hrange, hr⟩ := Loop.bind_eq_ok.mp hdump
  obtain ⟨w, hrun, hw⟩ := Loop.bind_eq_ok.mp hrange
  obtain rfl := Except.ok.inj hw
  obtain ⟨-, hout⟩ := Prod.mk.inj (Except.ok.inj hr)
  obtain ⟨top, rest, htop, hwout, hfit, hshort⟩ := Log.walk_prefix env false (by omega)
    (by simp only [hsize]; omega) (by simp only [hsize]; omega)
    ((h.survivorsAt hs).congr (by rw [hsize, Nat.mod_mod])) hp hstart hle hrun
  rw [List.nil_append] at hwout
  have hall := lines_prefix htop (hout.symm.trans hwout)
  rw [← hall] at hfit hshort
  exact ⟨Nat.le_antisymm hfit hle, hshort⟩

/-- The last records of a ring that is full, from the one in cell 0 on: they are not
all that survive if the oldest one is in another cell. -/
theorem Tracks.last_lap (h : Tracks S log es) (h0 : 4096 ≤ S) (h1 : S < 2147483648)
    (hu : ∀ e ∈ es, e.Unmarked) (hold : oldest S es % S ≠ 0) (hT : S ≤ (flat es).length)
    (hentry : log.ringBuffer.entryAt 0 ≠ none) :
    ∃ a rs, survivors S es = a ++ rs ∧ a ≠ [] ∧ RecordsAt log.ringBuffer 0 rs ∧
      Log.rangeEnd S 0 (u32Sub ((flat es).length % S) 1) = (flat rs).length := by
  have hsize := h.size
  have hadd := oldest_add S es
  have hle := survivors_le S es
  -- the position that cell 0 holds
  have hdiv := Nat.div_add_mod ((flat es).length - 1) S
  have hmod := Nat.mod_lt ((flat es).length - 1) (show 0 < S by omega)
  obtain ⟨x, hx⟩ : ∃ x, x = S * (((flat es).length - 1) / S) := ⟨_, rfl⟩
  have hx0 : x % S = 0 := by rw [hx, Nat.mul_mod_right]
  have hcell : log.ringBuffer.entryAt x = log.ringBuffer.entryAt 0 :=
    log.ringBuffer.entryAt_congr (by rw [hsize, hx0, Nat.zero_mod])
  obtain ⟨e, he⟩ := h.startsAt_of_entryAt (x := x) hu (by omega) (by omega) (by rw [hcell]; exact hentry)
  have hox := he.oldest_le (S := S) (by omega)
  have hox' : oldest S es ≠ x := by
    rintro heq
    exact hold (by rw [heq, hx0])
  obtain ⟨pre, post, hes, hpre⟩ := he
  obtain ⟨dead, hdead, hdlen⟩ := survivors_suffix S es
  have hafter : (flat (e :: post)).length = (flat es).length - x := by
    rw [← hpre, hes, flat_append, List.length_append, Nat.add_sub_cancel_left]
  have hat := recordsAt_of_tracks (hes ▸ h) (show (flat (e :: post)).length ≤ S by omega)
  rw [hpre] at hat
  have hwrite : (flat es).length % S = (flat es).length - x := by
    obtain ⟨n, hn⟩ := Nat.exists_eq_add_of_le (show x ≤ (flat es).length by omega)
    rw [hn, Nat.add_mod, hx0, Nat.zero_add, Nat.mod_mod, Nat.mod_eq_of_lt (by omega), Nat.add_sub_cancel_left]
  have hstop : Log.rangeEnd S 0 (u32Sub ((flat es).length % S) 1) = (flat (e :: post)).length := by
    rw [rangeEnd_write _ _ (by omega) (by omega), Nat.zero_mod, if_neg (Nat.not_lt_zero _),
      if_neg (by omega), hwrite, hafter]
  rcases List.append_eq_append_iff.mp (hdead.symm.trans hes) with ⟨a, hpre', hsurv⟩ | ⟨c, hdead', -⟩
  · refine ⟨a, e :: post, hsurv, ?_, hat.congr (by rw [hsize, hx0, Nat.zero_mod]), hstop⟩
    rintro rfl
    rw [List.append_nil] at hpre'
    rw [hpre'] at hpre
    omega
  · rw [hdead', flat_append, List.length_append] at hdlen
    omega

/-- If `firstLine` does not search although the oldest record is not at 0, the
records are not all written. -/
theorem Tracks.not_dump_fresh (h : Tracks S log es) (h0 : 4096 ≤ S) (h1 : S < 2147483648)
    (hu : ∀ e ∈ es, e.Unmarked) (hw : ¬ log.Wrapped) (hold : oldest S es % S ≠ 0)
    (hp : ∀ e ∈ survivors S es, e.Genuine ∧ e.Prints env (line e)) :
    log.dump env fuel ≠ .ok (log', lines line (survivors S es)) := by
  intro hdump
  have hsize := h.size
  have hT : S ≤ (flat es).length := by
    by_contra hT
    apply hold
    rw [oldest, survivors_eq_self (by omega), Nat.sub_self, Nat.zero_mod]
  rw [h.dump_eq env (Log.Same.refl _) (Log.firstLine_fresh env hw), Nat.zero_mod] at hdump
  obtain ⟨⟨i, log1, out⟩, hrange, hr⟩ := Loop.bind_eq_ok.mp hdump
  obtain ⟨-, rfl⟩ := Prod.mk.inj (Except.ok.inj hr)
  by_cases hentry : log.ringBuffer.entryAt 0 = none
  · -- a notice, which is no line
    obtain ⟨t, ht⟩ := Log.dumpRange_notice env (by rw [hsize]; exact h1) (by rw [hsize]; exact h0)
      (by rw [hsize, Nat.zero_mod]; exact rangeEnd_pos (by omega) _ _)
        (by rw [Nat.zero_mod]; exact hentry) hrange
    exact notice_notMem_lines line _ t ht
  · -- a record behind the oldest one: only the records from there on are written
    obtain ⟨a, rs, hsurv, ha, hat, hstop⟩ := h.last_lap h0 h1 hu hold hT hentry
    rw [Log.dumpRange_eq, hsize, Nat.zero_mod, hstop] at hrange
    obtain ⟨w, hrun, hw'⟩ := Loop.bind_eq_ok.mp hrange
    have hout : w.out = lines line (survivors S es) := (Prod.mk.inj (Prod.mk.inj (Except.ok.inj hw')).2).2
    have hle := survivors_le S es
    have hlen : (flat rs).length ≤ S := by
      rw [hsurv, flat_append, List.length_append] at hle
      omega
    obtain ⟨top, rest, htop, hwout, -, -⟩ := Log.walk_prefix env false (by omega)
      (by simp only; omega) (by simp only; omega) hat
      (fun r hr => hp r (by rw [hsurv]; exact List.mem_append_right a hr)) (Nat.zero_le _)
        (Nat.zero_add _).ge hrun
    rw [List.nil_append] at hwout
    have hcount := congrArg List.length (hout.symm.trans hwout)
    rw [lines, lines, List.length_map, List.length_map, hsurv, htop, List.length_append,
      List.length_append] at hcount
    have hpos := List.length_pos_iff.mpr ha
    omega

/-- A ring that is taken to be full has been filled. -/
theorem Tracks.le_of_wrapped (h : Tracks S log es) (h1 : S < 2147483648) (hw : log.Wrapped) :
    S ≤ (flat es).length := by
  by_contra hlt
  obtain ⟨hcurrent, hcount⟩ := h.fresh (by omega)
  rcases hw with hw | hw
  · rw [RingBuffer.getCurrentIndex, hcurrent, h.size] at hw
    exact hlt hw
  · rw [RingBuffer.hasWrappedAround, hcount] at hw
    cases hw

/-- `firstLine` finds the oldest record, if it searches or that is at 0. -/
theorem Tracks.firstLine_unmarked (h : Tracks S log es) (h0 : 4096 ≤ S) (h1 : S < 2147483648)
    (hu : ∀ e ∈ es, e.Unmarked) (hw : log.Wrapped ∨ oldest S es % S = 0) :
    ∃ q log1, log.Same log1 ∧ log.firstLine env = .ok (q, log1) ∧ q % S = oldest S es % S := by
  by_cases hwrapped : log.Wrapped
  · exact (h.firstLine_iff env h0 h1 (h.le_of_wrapped h1 hwrapped) hwrapped).mpr fun x hx hxo =>
      h.clean_of_unmarked hu hx hxo
  · exact ⟨0, log, Log.Same.refl _, Log.firstLine_fresh env hwrapped,
      by rw [hw.resolve_left hwrapped, Nat.zero_mod]⟩

end Dump

/-! ### Records of letters -/

/-- A record whose bytes behind the first are not the first byte of the pattern is
unmarked. -/
theorem Entry.unmarked_of_tail {e : Entry} {b : UInt8} {t : List UInt8} (h : e.bytes = b :: t)
    (ht : 0xce ∉ t) :
    e.Unmarked := by
  intro k hk hle heq
  obtain ⟨j, rfl⟩ := Nat.exists_eq_add_of_lt hk
  rw [h, Nat.zero_add, List.drop_succ_cons] at heq
  refine ht (List.mem_of_mem_drop (i := j) (List.mem_of_mem_take (i := 4) ?_))
  rw [heq]
  decide

/-- The record of a string is unmarked if the string, the location, the id and the
length are free of the first byte of the pattern. -/
theorem Traced.unmarked_string {log log' : Log} {s : CString} {e : Entry}
    (h : Traced stringEnv log (stringCall s) log' e) (hs : 0xce ∉ e.args)
    (hloc : 0xce ∉ leBytes 4 e.header.location.toNat) (hid : 0xce ∉ leBytes 4 e.header.id.toNat)
    (hlen : 0xce ∉ leBytes 2 e.header.length.toNat) :
    e.Unmarked := by
  obtain ⟨rest, hrest⟩ : ∃ rest, rest = [0xfa, 0xed, 0xbe] ++
      (e.header.bytes.drop 4 ++ (e.args ++ trailer e.header.id)) :=
    ⟨_, rfl⟩
  have hpattern : e.header.pattern = START_PATTERN := h.genuine.pattern
  have hzero : e.header.padding = 0 ∧ e.header.format = 0 ∧ e.header.functionName = 0 ∧
      e.header.lineNumber = 0 ∧
      e.header.tag = 0 ∧ e.header.unused = 0 ∧ e.header.tv_sec = 0 ∧ e.header.tv_nsec = 0 := by
    rw [h.header]
    exact ⟨rfl, rfl, rfl, rfl, rfl, rfl, rfl, rfl⟩
  obtain ⟨h1, h2, h3, h4, h5, h6, h7, h8⟩ := hzero
  have hdrop : e.header.bytes.drop 4 = leBytes 4 e.header.location.toNat ++ (leBytes 4 e.header.id.toNat ++
      (leBytes 4 0 ++ (leBytes 8 0 ++ (leBytes 8 0 ++ (leBytes 2 0 ++ (leBytes 2 e.header.length.toNat ++
      (leBytes 1 0 ++ (leBytes 3 0 ++ (leBytes 8 0 ++ leBytes 8 0))))))))) := by
    rw [Header.bytes, List.drop_left' (leBytes_length 4 _), h1, h2, h3, h4, h5, h6, h7, h8]
    rfl
  have hbytes : e.bytes = 0xce :: rest := by
    have hsplit : e.header.bytes = leBytes 4 e.header.pattern.toNat ++ e.header.bytes.drop 4 := by
      rw [Header.bytes, List.drop_left' (leBytes_length 4 _)]
    rw [Entry.bytes, record, hsplit, hpattern, hrest]
    rfl
  refine Entry.unmarked_of_tail hbytes ?_
  rw [hrest, hdrop, trailer]
  simp only [List.mem_append, not_or]
  exact ⟨by decide, ⟨hloc, hid, by decide, by decide, by decide, by decide, hlen, by decide, by decide,
    by decide, by decide⟩, hs, hid, by decide⟩

theorem Traced.header_location {S : ℕ} {env : Env} {log log' : Log} {es : List Entry} {call : Call}
    {e : Entry} (ht : Traced env log call log' e) (h : Tracks S log es) :
    e.header.location = .ofNat ((flat es).length % S) := by
  have hloc : log.ringBuffer.rollOver.normalize e.location = (flat es).length % S := by
    rw [ht.location, RingBuffer.normalize, RingBuffer.rollOver_size, RingBuffer.rollOver_mod,
      h.size, h.current]
  rw [ht.header, ← hloc]
  rfl

theorem Traced.header_id {env : Env} {log log' : Log} {call : Call} {e : Entry}
    (ht : Traced env log call log' e) :
    e.header.id = log.globalId := by
  rw [ht.header]
  rfl

theorem Traced.header_length {env : Env} {log log' : Log} {call : Call} {e : Entry}
    (ht : Traced env log call log' e) : e.header.length = .ofNat e.bytes.length := by
  rw [ht.header, e.length_eq]
  rfl

theorem Tracks.trace_letters {log : Log} {es : List Entry} (h : Tracks 4096 log es) {n : ℕ}
    (hn : n + 65 ≤ 4096) (hloc : 0xce ∉ leBytes 4 (UInt32.ofNat ((flat es).length % 4096)).toNat)
    (hid : 0xce ∉ leBytes 4 log.globalId.toNat)
    (hlen : 0xce ∉ leBytes 2 (UInt16.ofNat (n + 65)).toNat) : ∃ log' e,
      log.traceVargs stringEnv (stringCall (letters n (by omega))) = .ok (log', e) ∧
      Tracks 4096 log' (es ++ [e]) ∧ e.Unmarked ∧ e.bytes.length = n + 65 ∧
      e.Prints stringEnv (e.line stringEnv callText) ∧ (e.line stringEnv callText).length = n ∧
      log'.globalId = log.allocateId.2.globalId := by
  have hsize := h.size
  obtain ⟨log', e, hok, ht, hargs, hbytes, hpre⟩ :=
    trace_string log (letters n (by omega)) (by rw [hsize]; decide)
    (by rw [hsize]) (by rw [letters_length]; exact hn)
  rw [letters_length] at hbytes
  refine ⟨log', e, hok, h.step (by decide) ht (by omega), ?_, hbytes, ?_, ?_, ht.globalId⟩
  · refine ht.unmarked_string ?_ (by rwa [ht.header_location h]) (by rwa [ht.header_id])
      (by rwa [ht.header_length, hbytes])
    rw [hargs, letters, List.mem_append, List.mem_replicate]
    exact not_or.mpr ⟨fun h => absurd h.2 (by decide), by decide⟩
  · exact ht.prints_line (roundTrips_string _)
  · rw [Entry.line, hpre, ht.forCall, List.nil_append]
    exact letters_length n _

/-! ### The whole log -/

/-- **`dump` writes the whole surviving log**, oldest record first, exactly when the
range it walks is the one of the surviving records and their lines pass its
assertion. -/
theorem dump_whole (env : Env) (S : ℕ) (h0 : 4096 ≤ S) (h1 : S < 2147483648) (text : Call → List UInt8)
    (calls : List Call) (hne : calls ≠ []) (hrender : ∀ call ∈ calls, Renders env text call) (log : Log)
    (es : List Entry) (hrun : traceAll env (Log.new S (lines_pos h0) h1) calls = .ok (log, es))
    (hu : ∀ e ∈ es, e.Unmarked) :
    (∃ fuel log', log.dump env fuel = .ok (log', lines (Entry.line env text) (survivors S es))) ↔
      RangeFits S log es ∧ ∀ e ∈ survivors S es, (e.line env text).length ≤ 4096 := by
  obtain ⟨htracks, hcalls, htraced⟩ := traceAll_traced h0 h1 (Tracks.new (by omega) h1) hrun
  rw [List.nil_append] at htracks
  have hes : es ≠ [] := by
    rintro rfl
    exact hne hcalls.symm
  have hsurv := survivors_ne_nil hes fun e he => (htracks.genuine e he).length_le.trans h0
  obtain ⟨dead, hdead, -⟩ := survivors_suffix S es
  have hp : ∀ e ∈ survivors S es, e.Genuine ∧ e.Prints env (e.line env text) := by
    intro e he
    have hmem : e ∈ es := by
      rw [hdead]
      exact List.mem_append_right dead he
    obtain ⟨log0, log1, ht⟩ := htraced e hmem
    exact ⟨htracks.genuine e hmem,
      ht.prints (hrender e.call (by rw [← hcalls]; exact List.mem_map_of_mem hmem))⟩
  -- where the range ends
  have hcount := length_le_flat (survivors S es)
  have hpos := List.length_pos_iff.mpr hsurv
  have hiff := rangeEnd_eq_iff (o := oldest S es) (show 0 < S by omega) (by omega)
    (show 0 < (flat (survivors S es)).length by omega) (survivors_le S es)
  rw [oldest_add] at hiff
  constructor
  · rintro ⟨fuel, log', hdump⟩
    by_cases hw : log.Wrapped ∨ oldest S es % S = 0
    · obtain ⟨q, log1, hs, hfirst, hq⟩ := htracks.firstLine_unmarked env h0 h1 hu hw
      obtain ⟨hend, hshort⟩ := htracks.range_of_dump env h0 h1 hs hfirst hq hsurv hp hdump
      exact ⟨⟨hw, hiff.mp hend⟩, hshort⟩
    · obtain ⟨hfresh, hold⟩ := not_or.mp hw
      exact absurd hdump (htracks.not_dump_fresh env h0 h1 hu hfresh hold hp)
  · rintro ⟨⟨hw, hfit⟩, hshort⟩
    obtain ⟨q, log1, hs, hfirst, hq⟩ := htracks.firstLine_unmarked env h0 h1 hu hw
    obtain ⟨log', hdump⟩ := htracks.dump_of_range env h0 h1 hs hfirst hq
      (fun e he => ⟨(hp e he).2, hshort e he⟩) (hiff.mpr hfit)
    exact ⟨S + 1, log', hdump (S + 1) (Nat.lt_succ_self S)⟩

/-- The first of three records fills the ring; the others have overwritten it. -/
theorem dump_whole_example : ∃ log a b c fuel log',
    traceAll stringEnv (Log.new 4096 (by decide) (by decide)) [stringCall (letters 4031 (by decide)),
      stringCall (letters 100 (by decide)), stringCall (letters 100 (by decide))] = .ok (log, [a, b, c]) ∧
    log.Wrapped ∧ survivors 4096 [a, b, c] = [b, c] ∧
    log.dump stringEnv fuel = .ok (log', lines (Entry.line stringEnv callText) [b, c]) := by
  have hnew : Tracks 4096 (Log.new 4096 (by decide) (by decide)) [] := Tracks.new (by decide) (by decide)
  obtain ⟨log1, a, hok1, htr1, hua, hlena, -, -, hid1⟩ :=
    hnew.trace_letters (n := 4031) (by decide) (by decide)
    (show 0xce ∉ leBytes 4 0 by decide) (by decide)
  have hid1 : log1.globalId = 1 := hid1
  have hflat1 : (flat ([] ++ [a])).length = 4096 := by simp [hlena]
  obtain ⟨log2, b, hok2, htr2, hub, hlenb, -, hlineb, hid2⟩ := htr1.trace_letters (n := 100) (by decide)
    (by rw [hflat1]; decide) (by rw [hid1]; decide) (by decide)
  have hid2 : log2.globalId = 2 := by
    rw [hid2, Log.allocateId, hid1]
    rfl
  have hflat2 : (flat ([] ++ [a] ++ [b])).length = 4261 := by simp [hlena, hlenb]
  obtain ⟨log3, c, hok3, htr3, huc, hlenc, -, hlinec, -⟩ := htr2.trace_letters (n := 100) (by decide)
    (by rw [hflat2]; decide) (by rw [hid2]; decide) (by decide)
  have hrun : traceAll stringEnv
      (Log.new 4096 (by decide) (by decide)) [stringCall (letters 4031 (by decide)),
      stringCall (letters 100 (by decide)), stringCall (letters 100 (by decide))] =
        .ok (log3, [a, b, c]) := by
    simp only [traceAll, hok1, hok2, hok3, Loop.ok_bind, Loop.pure_eq_ok]
  have htotal : (flat [a, b, c]).length = 4426 := by simp [hlena, hlenb, hlenc]
  have hsurv : survivors 4096 [a, b, c] = [b, c] := by simp [survivors, hlena, hlenb, hlenc]
  have hold : oldest 4096 [a, b, c] = 4096 := by
    rw [oldest, hsurv, htotal]
    simp [hlenb, hlenc]
  have hwrapped : log3.Wrapped := by
    refine .inl ?_
    have hcurrent := (htr3.fresh (by simp [hlena, hlenb, hlenc])).1
    rw [RingBuffer.getCurrentIndex, hcurrent, htr3.size]
    simp [hlena, hlenb, hlenc]
  have hu : ∀ e ∈ [a, b, c], e.Unmarked := by simp [hua, hub, huc]
  have hrender : ∀ call ∈ [stringCall (letters 4031 (by decide)), stringCall (letters 100 (by decide)),
      stringCall (letters 100 (by decide))], Renders stringEnv callText call := by
    intro call hcall
    simp only [List.mem_cons, List.not_mem_nil, or_false] at hcall
    rcases hcall with rfl | rfl | rfl <;> exact roundTrips_string _
  have hiff := dump_whole stringEnv 4096 (le_refl _)
    (by decide) callText [stringCall (letters 4031 (by decide)),
    stringCall (letters 100 (by decide)), stringCall (letters 100 (by decide))] (by simp)
    hrender log3 [a, b, c] hrun hu
  rw [hsurv] at hiff
  have hfits : RangeFits 4096 log3 [a, b, c] := ⟨.inl hwrapped, .inl (by rw [hold, htotal]; decide)⟩
  obtain ⟨fuel, log', hdump⟩ := hiff.mpr ⟨hfits, by simp [hlineb, hlinec]⟩
  exact ⟨log3, a, b, c, fuel, log', hrun, hwrapped, hsurv, hdump⟩

/-- Behind a full turn the newest record is not written: a ring of 4096 bytes, and
two records of 2100 bytes, the second of which lies across its end. -/
theorem dump_loses_newest : ∃ log es,
    traceAll stringEnv (Log.new 4096 (by decide) (by decide))
        [stringCall (letters 2035 (by decide)), stringCall (letters 2035 (by decide))] = .ok (log, es) ∧
      (∀ s, Renders stringEnv callText (stringCall s)) ∧ (∀ e ∈ es, e.Unmarked) ∧
      ¬ ∃ fuel log', log.dump stringEnv fuel =
        .ok (log', lines (Entry.line stringEnv callText) (survivors 4096 es)) := by
  have h0 : 4096 ≤ 4096 := le_refl _
  have h1 : 4096 < 2147483648 := by decide
  have hnew : Tracks 4096 (Log.new 4096 (by decide) h1) [] := Tracks.new (by decide) h1
  obtain ⟨log1, a, hok1, htr1, hua, hlen1, -, -, hid1⟩ :=
    hnew.trace_letters (n := 2035) (by decide) (by decide)
    (show 0xce ∉ leBytes 4 0 by decide) (by decide)
  have hid1 : log1.globalId = 1 := hid1
  have hflat1 : (flat ([] ++ [a])).length = 2100 := by simp [hlen1]
  obtain ⟨log2, b, hok2, htr2, hub, hlen2, hprintb, -, -⟩ := htr1.trace_letters (n := 2035) (by decide)
    (by rw [hflat1]; decide) (by rw [hid1]; decide) (by decide)
  have hflat2 : (flat [a, b]).length = 4200 := by simp [hlen1, hlen2]
  have hu : ∀ e ∈ [a, b], e.Unmarked := by simp [hua, hub]
  have hsurv : survivors 4096 [a, b] = [b] := by simp [survivors, hlen1, hlen2]
  have hold : oldest 4096 [a, b] = 2100 := by
    rw [oldest, hflat2, hsurv]
    simp [hlen2]
  rw [List.nil_append, List.singleton_append] at htr2
  refine ⟨log2, [a, b], ?_, fun s => roundTrips_string s, hu, ?_⟩
  · simp only [traceAll, hok1, hok2, Loop.ok_bind, Loop.pure_eq_ok]
  · rintro ⟨fuel, log', hdump⟩
    have hw : log2.Wrapped := by
      refine .inl ?_
      rw [RingBuffer.getCurrentIndex, (htr2.fresh (by omega)).1, htr2.size, hflat2]
      decide
    obtain ⟨q, log3, hs, hfirst, hq⟩ := htr2.firstLine_unmarked stringEnv h0 h1 hu (.inl hw)
    have hprints : ∀ e ∈ survivors 4096 [a, b],
        e.Genuine ∧ e.Prints stringEnv (e.line stringEnv callText) := by
      rw [hsurv]
      intro e he
      obtain rfl := List.mem_singleton.mp he
      exact ⟨htr2.genuine e (by simp), hprintb⟩
    obtain ⟨hend, -⟩ := htr2.range_of_dump stringEnv h0 h1 hs hfirst hq (by rw [hsurv]; simp) hprints hdump
    rw [hold, hsurv, hflat2, flat_cons, flat_nil, List.append_nil, hlen2] at hend
    exact absurd hend (by decide)

end Memlog

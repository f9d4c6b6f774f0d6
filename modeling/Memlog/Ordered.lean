/-
# The order of what the collector writes

The walk of `dumpRange` follows the records, so what it writes is in the order of
the journal as long as every entry it finds is a record (`Sound`). It leaves the
records in three ways: a range starts in the middle of one, a record lies across
the end of the ring, or the decoder does not read a record to its end
(`Astray`). Then it searches for the next entry, and `Sound` says that the search
does not come upon an entry that only looks like one.

The two ranges of a wrapped `collect` lie one behind the other, except when the
journal ends at the end of the ring: then the lower one is the whole ring again.

Key definitions: `StartsAt`, `Sound`, `Astray`, `Writes`, `unread`.
-/
import Memlog.Collected

namespace Memlog

open Circular

/-! ### Where records start -/

/-- The record `e` of the journal `es` starts at position `x`. -/
def StartsAt (es : List Entry) (x : ℕ) (e : Entry) : Prop :=
  ∃ pre post, es = pre ++ e :: post ∧ (flat pre).length = x

section StartsAt

variable {es : List Entry} {x y : ℕ} {e f : Entry}

theorem StartsAt.end_le (h : StartsAt es x e) : x + e.bytes.length ≤ (flat es).length := by
  obtain ⟨pre, post, rfl, rfl⟩ := h
  rw [flat_append, flat_cons, List.length_append, List.length_append]
  omega

theorem StartsAt.append (h : StartsAt es x e) (es' : List Entry) : StartsAt (es ++ es') x e := by
  obtain ⟨pre, post, rfl, hx⟩ := h
  exact ⟨pre, post ++ es', by rw [List.append_assoc, List.cons_append], hx⟩

theorem StartsAt.cons (h : StartsAt es x e) (f : Entry) : StartsAt (f :: es) (f.bytes.length + x) e := by
  obtain ⟨pre, post, rfl, rfl⟩ := h
  exact ⟨f :: pre, post, rfl, by rw [flat_cons, List.length_append]⟩

theorem StartsAt.cons_cases (h : StartsAt (f :: es) x e) :
    (x = 0 ∧ e = f) ∨ ∃ y, x = f.bytes.length + y ∧ StartsAt es y e := by
  obtain ⟨pre, post, heq, rfl⟩ := h
  cases pre with
  | nil => exact .inl ⟨rfl, (List.cons.inj heq).1.symm⟩
  | cons g pre =>
    obtain ⟨rfl, rfl⟩ := List.cons.inj heq
    exact .inr ⟨_, by rw [flat_cons, List.length_append], pre, post, rfl, rfl⟩

theorem StartsAt.disjoint (h : StartsAt es x e) (h' : StartsAt es y f) :
    (x = y ∧ e = f) ∨ x + e.bytes.length ≤ y ∨ y + f.bytes.length ≤ x := by
  induction es generalizing x y with
  | nil =>
    obtain ⟨pre, post, heq, -⟩ := h
    cases pre <;> cases heq
  | cons g es ih =>
    rcases h.cons_cases with ⟨hx, rfl⟩ | ⟨x', hx, hx'⟩
    · rcases h'.cons_cases with ⟨hy, rfl⟩ | ⟨y', hy, -⟩
      · exact .inl ⟨by rw [hx, hy], rfl⟩
      · exact .inr (.inl (by omega))
    · rcases h'.cons_cases with ⟨hy, rfl⟩ | ⟨y', hy, hy'⟩
      · exact .inr (.inr (by omega))
      · rcases ih hx' hy' with ⟨hxy, hef⟩ | hle | hle
        · exact .inl ⟨by rw [hx, hy, hxy], hef⟩
        · exact .inr (.inl (by omega))
        · exact .inr (.inr (by omega))

theorem exists_startsAt : ∀ {es : List Entry} {x : ℕ}, x < (flat es).length →
    ∃ p e, StartsAt es p e ∧ p ≤ x ∧ x < p + e.bytes.length
  | [], x, h => by simp at h
  | e :: es, x, h => by
    rcases Nat.lt_or_ge x e.bytes.length with hlt | hge
    · exact ⟨0, e, ⟨[], es, rfl, rfl⟩, Nat.zero_le x, by omega⟩
    · rw [flat_cons, List.length_append] at h
      obtain ⟨p, f, hf, hle, hlt⟩ := exists_startsAt (show x - e.bytes.length < (flat es).length by omega)
      exact ⟨_, f, hf.cons e, by omega, by omega⟩

theorem StartsAt.next (h : StartsAt es x e) :
    x + e.bytes.length = (flat es).length ∨ ∃ f, StartsAt es (x + e.bytes.length) f := by
  obtain ⟨pre, post, rfl, rfl⟩ := h
  cases post with
  | nil =>
    left
    rw [flat_append, flat_cons, flat_nil, List.append_nil, List.length_append]
  | cons f post =>
    refine .inr ⟨f, pre ++ [e], post, by rw [List.append_assoc]; rfl, ?_⟩
    rw [flat_append, flat_cons, flat_nil, List.append_nil, List.length_append]

theorem StartsAt.entryAt {S : ℕ} {log : Log} (h : StartsAt es x e) (ht : Tracks S log es)
    (hx : (flat es).length ≤ x + S) : log.ringBuffer.entryAt x = some e.bytes := by
  obtain ⟨pre, post, rfl, rfl⟩ := h
  refine ht.entryAt ?_
  rw [flat_append, flat_cons, List.length_append, List.length_append] at hx
  omega

theorem StartsAt.unsplit {S : ℕ} (h : StartsAt es x e) (hu : Unsplit S 0 es) :
    x % S + e.bytes.length ≤ S := by
  obtain ⟨pre, post, rfl, rfl⟩ := h
  have hrest := hu.of_append.2.1
  rwa [Nat.zero_add] at hrest

theorem StartsAt.append_cases {done pend : List Entry} (h : StartsAt (done ++ pend) x e) :
    x + e.bytes.length ≤ (flat done).length ∨ (flat done).length ≤ x := by
  induction done generalizing x with
  | nil => exact .inr (Nat.zero_le x)
  | cons f done ih =>
    rw [flat_cons, List.length_append]
    rcases StartsAt.cons_cases h with ⟨rfl, rfl⟩ | ⟨y, rfl, hy⟩
    · exact .inl (by omega)
    · exact (ih hy).imp (fun hle => by omega) fun hle => by omega

/-- Records named by rising positions are a part of the journal, in its order. -/
theorem sublist_of_startsAt : ∀ {es : List Entry} {ps : List (ℕ × Entry)} (b : ℕ),
    (ps.map Prod.fst).Pairwise (· < ·) → (∀ p ∈ ps, b ≤ p.1 ∧ StartsAt es (p.1 - b) p.2) →
    (ps.map Prod.snd).Sublist es
  | _, [], _, _, _ => List.nil_sublist _
  | [], p :: ps, _, _, h => by
    obtain ⟨-, pre, post, heq, -⟩ := h p List.mem_cons_self
    cases pre <;> cases heq
  | e :: es, p :: ps, b, hrise, h => by
    rw [List.map_cons, List.pairwise_cons] at hrise
    have hpos : 64 ≤ e.bytes.length := by
      rw [e.length_eq]
      omega
    -- behind the first record
    have hrest : ∀ q : ℕ × Entry, b ≤ q.1 ∧ StartsAt (e :: es) (q.1 - b) q.2 → q.1 ≠ b →
        b + e.bytes.length ≤ q.1 ∧ StartsAt es (q.1 - (b + e.bytes.length)) q.2 := by
      rintro q ⟨hle, hq⟩ hne
      rcases hq.cons_cases with ⟨h0, -⟩ | ⟨y, hy, hq⟩
      · omega
      · obtain rfl : q.1 - (b + e.bytes.length) = y := by omega
        exact ⟨by omega, hq⟩
    by_cases hpb : p.1 = b
    · obtain ⟨hle, hp⟩ := h p List.mem_cons_self
      have heq : p.2 = e := by
        rcases hp.cons_cases with ⟨-, heq⟩ | ⟨y, hy, -⟩
        · exact heq
        · omega
      rw [List.map_cons, heq]
      refine List.Sublist.cons_cons e (sublist_of_startsAt (b + e.bytes.length) hrise.2 fun q hq => ?_)
      have hlt := hrise.1 q.1 (List.mem_map_of_mem hq)
      exact hrest q (h q (List.mem_cons_of_mem _ hq)) (by omega)
    · refine List.Sublist.cons e (sublist_of_startsAt (b + e.bytes.length)
        (show ((p :: ps).map Prod.fst).Pairwise (· < ·) from List.pairwise_cons.mpr hrise) fun q hq => ?_)
      have hle := (h p List.mem_cons_self).1
      have hlt : p.1 ≤ q.1 := by
        rcases List.mem_cons.mp hq with rfl | hq
        · exact Nat.le_refl _
        · exact (hrise.1 q.1 (List.mem_map_of_mem hq)).le
      exact hrest q (h q hq) (by omega)

end StartsAt

/-! ### What the walk may find -/

/-- Where the decoder reads the arguments of `e`, it reads them to their end. -/
def Entry.Aligned (env : Env) (e : Entry) : Prop :=
  ∀ rest r, decodeFromArgsBuffer env (env.strings e.header.format) (e.bytes ++ rest) 56 (e.bytes.length - 8)
    (Log.printPrefix env e.header) = .ok r → r.argsBufferIndex = e.bytes.length - 8

theorem Entry.Prints.aligned {env : Env} {e : Entry} {text : List UInt8} (h : e.Prints env text) :
    e.Aligned env := by
  obtain ⟨out, -, hdec⟩ := h
  intro rest r hr
  rw [hdec rest] at hr
  obtain rfl := Except.ok.inj hr
  rfl

/-- An entry that `getLog` finds at one of the positions from `B` on is a record,
or lies inside a record that a walk from `B` on passes over: a record from `B` on
that is not across the end of the ring, and that is read to its end as those before
it are. -/
def Sound (env : Env) (S : ℕ) (rb : RingBuffer) (es : List Entry) (B : ℕ) : Prop :=
  ∀ x, B ≤ x → x < (flat es).length → rb.entryAt x ≠ none →
    (∃ e, StartsAt es x e) ∨
    ∃ p e, StartsAt es p e ∧ B ≤ p ∧ p < x ∧ x < p + e.bytes.length ∧ p % S + e.bytes.length ≤ S ∧
      ∀ p' e', StartsAt es p' e' → B ≤ p' → p' ≤ p → e'.Aligned env

/-- A position inside a record to which a walk from `B` on can come: it is behind a
record that the decoder does not read to its end, or inside one that starts before
`B` or lies across the end of the ring. -/
def Astray (env : Env) (S : ℕ) (es : List Entry) (B x : ℕ) : Prop :=
  ∃ p e, StartsAt es p e ∧ p < x ∧
    ((B ≤ p ∧ ¬ e.Aligned env) ∨ (x < p + e.bytes.length ∧ (p < B ∨ S < p % S + e.bytes.length)))

/-- A position where a walk from `B` on can stand. -/
def Reachable (env : Env) (S : ℕ) (es : List Entry) (B x : ℕ) : Prop :=
  x = (flat es).length ∨ (∃ e, StartsAt es x e) ∨ Astray env S es B x

section Sound

variable {env : Env} {S : ℕ} {rb : RingBuffer} {es : List Entry} {B x y : ℕ} {e : Entry}

/-- From a position astray the walk gets back to a record. -/
theorem Sound.resync (h : Sound env S rb es B) (hat : ∀ p e, B ≤ p → StartsAt es p e → rb.entryAt p ≠ none)
    (hx : Astray env S es B x) (hB : B ≤ x) (hxy : x ≤ y) (hy : y < (flat es).length)
    (hnone : ∀ z, x ≤ z → z < y → rb.entryAt z = none) (hentry : rb.entryAt y ≠ none) :
    ∃ e, StartsAt es y e := by
  rcases h y (by omega) hy hentry with hstart | ⟨p, e, hp, hBp, hpy, hyp, hin, haligned⟩
  · exact hstart
  -- the record around `y` starts before `x`, since its start has an entry
  exfalso
  have hpx : p < x := by
    by_contra hge
    exact hat p e hBp hp (hnone p (by omega) hpy)
  obtain ⟨p', e', hp', hpx', hwhy⟩ := hx
  rcases hp.disjoint hp' with ⟨rfl, rfl⟩ | hle | hle
  · rcases hwhy with ⟨-, hbad⟩ | ⟨-, hlt | hlt⟩
    · exact hbad (haligned p e hp hBp (Nat.le_refl p))
    all_goals omega
  · omega
  · rcases hwhy with ⟨hBp', hbad⟩ | ⟨hlt, -⟩
    · exact hbad (haligned p' e' hp' hBp' (by omega))
    · omega

/-- Where no record lies across the end of the ring and all are read to their end, a walk
from a record on finds nothing that is not accounted for. -/
theorem sound_of_unsplit {done pend : List Entry} (hu : Unsplit S 0 (done ++ pend))
    (haligned : ∀ e ∈ done ++ pend, e.Aligned env) : Sound env S rb (done ++ pend) (flat done).length := by
  intro x hB hx _
  obtain ⟨p, e, hp, hle, hlt⟩ := exists_startsAt hx
  rcases Nat.eq_or_lt_of_le hle with rfl | hpx
  · exact .inl ⟨e, hp⟩
  · have hBp : (flat done).length ≤ p := hp.append_cases.resolve_left (by omega)
    refine .inr ⟨p, e, hp, hBp, hpx, hlt, hp.unsplit hu, fun p' e' hp' _ _ => ?_⟩
    obtain ⟨pre, post, heq, -⟩ := hp'
    exact haligned e' (by simp [heq])

/-- From the start of a record the walk gets to the next one, or goes astray. -/
theorem StartsAt.reachable (h : StartsAt es x e) (hB : B ≤ x) (hxy : x < y)
    (hy : e.Aligned env → y = x + e.bytes.length) : Reachable env S es B y := by
  by_cases haligned : e.Aligned env
  · rw [hy haligned]
    rcases h.next with hend | hnext
    · exact .inl hend
    · exact .inr (.inl hnext)
  · exact .inr (.inr ⟨x, e, h, hxy, .inl ⟨hB, haligned⟩⟩)

theorem reachable_self (hx : x ≤ (flat es).length) : Reachable env S es x x := by
  rcases Nat.lt_or_ge x (flat es).length with hlt | hge
  · obtain ⟨p, e, hp, hle, hlt'⟩ := exists_startsAt hlt
    rcases Nat.lt_or_ge p x with hpx | hpx
    · exact .inr (.inr ⟨p, e, hp, hpx, .inr ⟨hlt', .inl hpx⟩⟩)
    · obtain rfl : p = x := by omega
      exact .inr (.inl ⟨e, hp⟩)
  · exact .inl (by omega)

/-- The end of the ring is reachable. -/
theorem reachable_end (hx : x ≤ (flat es).length) (hS : 0 < S) (h0 : x % S = 0) : Reachable env S es B x := by
  rcases Nat.lt_or_ge x (flat es).length with hlt | hge
  · obtain ⟨p, e, hp, hle, hlt'⟩ := exists_startsAt hlt
    rcases Nat.lt_or_ge p x with hpx | hpx
    · refine .inr (.inr ⟨p, e, hp, hpx, .inr ⟨hlt', .inr ?_⟩⟩)
      -- a record that starts before a multiple of `S` and ends behind it
      by_contra hin
      obtain ⟨m, rfl⟩ := Nat.dvd_of_mod_eq_zero h0
      have hdiv := Nat.div_add_mod p S
      have hm : p / S < m := (Nat.div_lt_iff_lt_mul hS).mpr (by rw [Nat.mul_comm]; exact hpx)
      have hmul : S * (p / S) + S ≤ S * m := by
        rw [← Nat.mul_succ]
        exact Nat.mul_le_mul_left S hm
      omega
    · obtain rfl : p = x := by omega
      exact .inr (.inl ⟨e, hp⟩)
  · exact .inl (by omega)

end Sound

/-! ### What a walk writes -/

/-- The headers of the lines of an output. -/
def headers (out : List Chunk) : List Header :=
  out.filterMap fun
    | .line hdr _ => some hdr
    | .notice _ => none

theorem headers_append (out out' : List Chunk) : headers (out ++ out') = headers out ++ headers out' :=
  List.filterMap_append

/-- The lines of `out` are of records of `es` that start from `a` on and before `b`,
in order. -/
def Writes (es : List Entry) (a b : ℕ) (out : List Chunk) : Prop :=
  ∃ ps : List (ℕ × Entry), headers out = ps.map (·.2.header) ∧ (ps.map Prod.fst).Pairwise (· < ·) ∧
    ∀ p ∈ ps, a ≤ p.1 ∧ p.1 < b ∧ StartsAt es p.1 p.2

section Writes

variable {es : List Entry} {a b c : ℕ} {out out' : List Chunk}

theorem Writes.nil (es : List Entry) (a b : ℕ) : Writes es a b [] := ⟨[], rfl, List.Pairwise.nil, by simp⟩

theorem Writes.mono (h : Writes es a b out) (hbc : b ≤ c) : Writes es a c out := by
  obtain ⟨ps, hout, hrise, hps⟩ := h
  exact ⟨ps, hout, hrise, fun p hp => ⟨(hps p hp).1, (hps p hp).2.1.trans_le hbc, (hps p hp).2.2⟩⟩

theorem Writes.journal (h : Writes es a b out) (es' : List Entry) : Writes (es ++ es') a b out := by
  obtain ⟨ps, hout, hrise, hps⟩ := h
  exact ⟨ps, hout, hrise, fun p hp => ⟨(hps p hp).1, (hps p hp).2.1, (hps p hp).2.2.append es'⟩⟩

theorem Writes.append (h : Writes es a b out) (h' : Writes es b c out') (hab : a ≤ b) (hbc : b ≤ c) :
    Writes es a c (out ++ out') := by
  obtain ⟨ps, hout, hrise, hps⟩ := h
  obtain ⟨ps', hout', hrise', hps'⟩ := h'
  refine ⟨ps ++ ps', by rw [headers_append, hout, hout', List.map_append], ?_, ?_⟩
  · rw [List.map_append, List.pairwise_append]
    refine ⟨hrise, hrise', fun x hx y hy => ?_⟩
    obtain ⟨p, hp, rfl⟩ := List.mem_map.mp hx
    obtain ⟨p', hp', rfl⟩ := List.mem_map.mp hy
    exact (hps p hp).2.1.trans_le (hps' p' hp').1
  · intro p hp
    rcases List.mem_append.mp hp with hp | hp
    · exact ⟨(hps p hp).1, (hps p hp).2.1.trans_le hbc, (hps p hp).2.2⟩
    · exact ⟨hab.trans (hps' p hp).1, (hps' p hp).2⟩

theorem Writes.notice (es : List Entry) (a b : ℕ) (t : List UInt8) : Writes es a b [.notice t] :=
  ⟨[], rfl, List.Pairwise.nil, by simp⟩

theorem Writes.line {e : Entry} (h : StartsAt es a e) (hab : a < b) (text : List UInt8) :
    Writes es a b [.line e.header text] :=
  ⟨[(a, e)], rfl, by simp, by simp [h, hab]⟩

theorem Writes.sublist (h : Writes es a b out) :
    ∃ rs : List Entry, rs.Sublist es ∧ headers out = rs.map Entry.header := by
  obtain ⟨ps, hout, hrise, hps⟩ := h
  refine ⟨ps.map Prod.snd, sublist_of_startsAt 0 hrise fun p hp => ⟨Nat.zero_le _, (hps p hp).2.2⟩, ?_⟩
  rw [hout, List.map_map]
  rfl

end Writes

/-! ### The walk over a range -/

/-- A range of the ring, up to cell `stop`, in which every entry from `B` on is
accounted for: cell `i` of the range holds position `base + i` of the journal. -/
structure Span (env : Env) (S : ℕ) (log : Log) (es : List Entry) (B base stop : ℕ) : Prop where
  tracks : Tracks S log es
  sound : Sound env S log.ringBuffer es B
  base_mod : base % S = 0
  stop_le : stop ≤ S
  end_le : base + stop ≤ (flat es).length
  unfilled : (flat es).length < B + S

/-- Where the walk over a range from cell `start` stands, and what it has written. -/
structure Along (env : Env) (S : ℕ) (es : List Entry) (B base start stop : ℕ) (w : Log.Walk) : Prop where
  start_le : start ≤ w.i
  le_stop : w.i ≤ stop
  writes : Writes es (base + start) (base + w.i) w.out
  reachable : Reachable env S es B (base + w.i)

section Walk

variable {env : Env} {S : ℕ} {log log' : Log} {es : List Entry} {B base start stop last fuel i : ℕ}
  {out : List Chunk}

theorem Span.cell (h : Span env S log es B base stop) (x : ℕ) :
    log.ringBuffer.entryAt (base + x) = log.ringBuffer.entryAt x := by
  refine log.ringBuffer.entryAt_congr ?_
  rw [h.tracks.size, Nat.add_mod, h.base_mod, Nat.zero_add, Nat.mod_mod]

theorem Span.entryAt (h : Span env S log es B base stop) {p : ℕ} {e : Entry} (hp : B ≤ p)
    (he : StartsAt es p e) :
    log.ringBuffer.entryAt p = some e.bytes := by
  have hfill := h.unfilled
  exact he.entryAt h.tracks (by omega)

theorem Span.exists_entry (h : Span env S log es B base stop) (h0 : 4096 ≤ S) (hne : es ≠ []) (q : ℕ) :
    ∃ i, log.ringBuffer.entryAt (q + i) ≠ none := by
  obtain ⟨pre, e, rfl⟩ := List.eq_nil_or_concat es |>.resolve_left hne
  rw [List.concat_eq_append] at h
  have hentry := h.tracks.entryAt (by
    rw [flat_nil, List.length_nil, Nat.add_zero]
    exact (h.tracks.genuine e (by simp)).length_le.trans h0)
  -- some turns on from `q`
  refine ⟨(flat pre).length + (S - 1) * q, ?_⟩
  have hturn : q + ((flat pre).length + (S - 1) * q) = (flat pre).length + S * q := by
    obtain ⟨k, rfl⟩ : ∃ k, S = k + 1 := ⟨S - 1, by omega⟩
    rw [Nat.add_sub_cancel, Nat.add_one_mul]
    omega
  have hmod : (q + ((flat pre).length + (S - 1) * q)) % log.ringBuffer.size =
      (flat pre).length % log.ringBuffer.size := by
    rw [hturn, h.tracks.size, Nat.add_mul_mod_self_left]
  rw [log.ringBuffer.entryAt_congr hmod, hentry]
  exact Option.some_ne_none _

/-- A round of the walk writes at most the line of the record it stands on. -/
theorem Span.round {w : Log.Walk} {r : Loop.Next Log.Walk Log.Walk} (h : Span env S log es B base stop)
    (h1 : S < 2147483648) (h0 : 4096 ≤ S) (hB : B ≤ base + start) (hs : log.Same w.log)
    (hw : Along env S es B base start stop w) (hstep : Log.walkStep env stop true w = .ok r) :
    Along env S es B base start stop (Log.after r) := by
  have hrb := hs.ringBuffer
  have hsize := h.tracks.size
  have hstop := h.stop_le
  have hend := h.end_le
  have hge := hw.start_le
  by_cases hin : w.i < stop
  swap
  · rw [Log.walkStep_end env true (by omega)] at hstep
    obtain rfl := Except.ok.inj hstep
    exact hw
  have hat : ∀ p e, B ≤ p → StartsAt es p e → log.ringBuffer.entryAt p ≠ none := by
    intro p e hp he
    rw [h.entryAt hp he]
    exact Option.some_ne_none _
  cases hentry : w.log.ringBuffer.entryAt w.i with
  | none =>
    obtain ⟨w', t, -, hout, hcases⟩ := Log.walkStep_notice env (by rw [hrb]; omega) (by rw [hrb]; omega)
      (by rw [hrb]; omega) hin hentry hstep
    have hwrites : Writes es (base + start) (base + w.i) w'.out := by
      rw [hout]
      exact hw.writes.append (Writes.notice es (base + w.i) (base + w.i) t) (by omega) (Nat.le_refl _)
    rcases hcases with ⟨hi, rfl⟩ | ⟨rfl, hi, ⟨hlt, hsome, hnone⟩ | hnone⟩
    · rw [← hi] at hwrites
      exact ⟨by rw [Log.after, hi]; exact hge, by rw [Log.after, hi]; exact hin.le, hwrites, by
        rw [Log.after, hi]; exact hw.reachable⟩
    · -- the next entry: the walk was astray, and is back on a record
      refine ⟨by rw [Log.after]; omega, hi, hwrites.mono (by rw [Log.after]; omega), ?_⟩
      rw [hrb] at hentry hsome hnone
      rcases Nat.lt_or_ge (base + w'.i) (flat es).length with hlast | hlast
      swap
      · exact .inl (by rw [Log.after]; omega)
      rcases hw.reachable with hfin | ⟨e, he⟩ | hastray
      · omega
      · exact absurd ((h.cell _).trans hentry) (hat _ e (by omega) he)
      · refine .inr (.inl (h.sound.resync hat hastray (by omega) (by rw [Log.after]; omega) hlast ?_ ?_))
        · intro z hz hz'
          obtain ⟨x, rfl⟩ := Nat.exists_eq_add_of_le (show base ≤ z by omega)
          rw [h.cell]
          exact hnone x (by omega) (by rw [Log.after] at hz'; omega)
        · rw [Log.after, h.cell]
          exact hsome
    · -- the newest record has an entry
      exfalso
      rw [hrb] at hnone
      obtain ⟨i, hi⟩ := h.exists_entry h0 (by rintro rfl; rw [flat_nil, List.length_nil] at hend; omega) w.i
      exact hi (hnone i)
  | some entry =>
    obtain ⟨w', -, ⟨hi, hout, rfl⟩ | ⟨rfl, hi, rest, d, text, hdec, hd, hnext, hout⟩⟩ :=
      Log.walkStep_entry env true (by rw [hrb]; omega) (by rw [hrb]; omega)
        (by rw [hrb]; omega) hin hentry hstep
    · exact ⟨by rw [Log.after, hi]; exact hge, by rw [Log.after, hi]; exact hin.le,
        by rw [Log.after, hi, hout]; exact hw.writes, by rw [Log.after, hi]; exact hw.reachable⟩
    · -- the walk stands on a record
      rw [hrb, ← h.cell] at hentry
      have hstart : ∃ e, StartsAt es (base + w.i) e := by
        rcases hw.reachable with hfin | he | hastray
        · omega
        · exact he
        · exact h.sound.resync hat hastray (by omega) (Nat.le_refl _) (by omega) (fun z hz hz' => by omega)
            (by rw [hentry]; exact Option.some_ne_none _)
      obtain ⟨e, he⟩ := hstart
      obtain rfl : e.bytes = entry := Option.some.inj ((h.entryAt (by omega) he).symm.trans hentry)
      rw [e.ofBytes] at hdec hout
      have hlen := e.length_eq
      refine ⟨by rw [Log.after]; omega, hi, ?_,
        he.reachable (by omega) (by rw [Log.after]; omega) fun haligned => ?_⟩
      · rw [Log.after, hout]
        exact hw.writes.append (Writes.line he (by omega) text) (by omega) (by omega)
      · rw [Log.after, hnext, haligned rest d hdec]
        omega

theorem start_le_rangeEnd (hS : 0 < S) (start last : ℕ) : start % S ≤ Log.rangeEnd S start last := by
  have h := Nat.mod_lt start hS
  unfold Log.rangeEnd
  split <;> omega

/-- **A range** is written in the order of the journal. -/
theorem Span.dumpRange (h : Span env S log es B base (Log.rangeEnd S start last)) (h1 : S < 2147483648)
    (h0 : 4096 ≤ S) (hB : B ≤ base + start % S) (hstart : Reachable env S es B (base + start % S))
    (hdump : log.dumpRange env fuel start last true = .ok (i, log', out)) :
    log.Same log' ∧ start % S ≤ i ∧ base + i ≤ (flat es).length ∧ i ≤ S ∧
      Writes es (base + start % S) (base + i) out := by
  have hsize := h.tracks.size
  have hend := h.end_le
  have hstop := h.stop_le
  obtain ⟨hs, w, hw, rfl, rfl⟩ := Log.dumpRange_induct env true
    (Along env S es B base (start % S) (Log.rangeEnd S start last))
    (Along env S es B base (start % S) (Log.rangeEnd S start last)) hdump
    (fun buf => ⟨by rw [hsize], by rw [hsize]; exact start_le_rangeEnd (by omega) start last,
      Writes.nil _ _ _, by rw [hsize]; exact hstart⟩)
    (fun w w' hs hw hstep => h.round (r := .again w') h1 h0 hB hs hw (by rw [← hsize]; exact hstep))
    (fun w w' hs hw hstep => h.round (r := .done w') h1 h0 hB hs hw (by rw [← hsize]; exact hstep))
  have hle := hw.le_stop
  exact ⟨hs, hw.start_le, by omega, by omega, hw.writes⟩

end Walk

/-! ### In order -/

/-- The position of the bookmark in a journal of `T` bytes, if it is one of the
last `S`. -/
def unread (S T bookmark : ℕ) : ℕ := T - (T % S + (S - bookmark % S)) % S

theorem unread_spec {S T B bookmark : ℕ} (hS : 0 < S) (hB : B ≤ T) (hmod : B % S = bookmark % S) :
    B ≤ unread S T bookmark ∧ unread S T bookmark ≤ T ∧ unread S T bookmark % S = bookmark % S ∧
      T < unread S T bookmark + S := by
  obtain ⟨n, rfl⟩ := Nat.exists_eq_add_of_le hB
  have hlt := Nat.mod_lt B hS
  have hn := Nat.mod_lt n hS
  have hle := Nat.mod_le n S
  -- the distance of the two cells is `n` modulo `S`
  have hdist : ((B + n) % S + (S - bookmark % S)) % S = n % S := by
    have hdiv := Nat.div_add_mod B S
    have hsum : B + n + (S - B % S) = n + S * (B / S + 1) := by
      rw [Nat.mul_add_one]
      omega
    rw [← hmod, Nat.mod_add_mod, hsum, Nat.add_mul_mod_self_left]
  unfold unread
  rw [hdist]
  refine ⟨by omega, by omega, ?_, by omega⟩
  have hdiv := Nat.div_add_mod n S
  have hsub : B + n - n % S = B + S * (n / S) := by omega
  rw [hsub, Nat.add_mul_mod_self_left, hmod]

/-- The journal `es` may be collected: it does not end at the end of the ring,
unless there is nothing to collect, and what the walk may find are records. -/
def InOrder (env : Env) (S : ℕ) (c : Collect) (es : List Entry) : Prop :=
  ((flat es).length % S = 0 → c.collectorBookmark % S = 0) ∧
  Sound env S c.log.ringBuffer es (unread S (flat es).length c.collectorBookmark)

section InOrder

variable {env : Env} {S : ℕ} {c c' : Collect} {es done pend : List Entry} {fuel : ℕ} {new out : List Chunk}

/-- What holds in every run that collects in order: what was written are records
in front of the bookmark. -/
structure Follows (S : ℕ) (c : Collect) (es : List Entry) (out : List Chunk) : Prop where
  tracks : Tracks S c.log es
  writes : ∃ B ≤ (flat es).length, B % S = c.collectorBookmark % S ∧ Writes es 0 B out

/-- Whole records may be collected, unless the last one ends at the end of the ring. -/
theorem Caught.inOrder {text : Call → List UInt8} (h : Caught env S text c done pend) (h0 : 0 < S)
    (hfill : Unfilled S pend) (hw : Whole env S text done pend)
    (hend : (flat (done ++ pend)).length % S ≠ 0) :
    InOrder env S c (done ++ pend) := by
  have hB : (flat done).length ≤ (flat (done ++ pend)).length := by simp
  obtain ⟨hle, hle', hmod, hlt⟩ := unread_spec h0 hB h.bookmark.symm
  have hunread : unread S (flat (done ++ pend)).length c.collectorBookmark = (flat done).length := by
    rw [Unfilled] at hfill
    rw [flat_append, List.length_append] at *
    exact eq_of_mod_eq (S := S) (w := (flat done).length) hle (by omega) (Nat.le_refl _) (by omega)
      (hmod.trans h.bookmark)
  refine ⟨fun hzero => absurd hzero hend, hunread ▸ sound_of_unsplit ?_ fun e he => (h.prints e he).aligned⟩
  exact h.unsplit.append (by rw [Nat.zero_add]; exact hw.1)

theorem Follows.trace {call : Call} {log : Log} {e : Entry} (h : Follows S c es out) (h0 : 4096 ≤ S)
    (h1 : S < 2147483648) (ht : Traced env c.log call log e) :
    Follows S { c with log := log } (es ++ [e]) out := by
  obtain ⟨B, hB, hmod, hwrites⟩ := h.writes
  refine ⟨h.tracks.step h1 ht (ht.genuine.length_le.trans h0), B, ?_, hmod, hwrites.journal [e]⟩
  rw [flat_append, List.length_append]
  omega

/-- A `collect` of a journal that may be collected writes records behind those
written before. -/
theorem Follows.collect (h : Follows S c es out) (h0 : 4096 ≤ S) (h1 : S < 2147483648)
    (hin : InOrder env S c es) (hcollect : c.collect env fuel = .ok (c', new)) :
    Follows S c' es (out ++ new) := by
  obtain ⟨B, hB, hmod, hwrites⟩ := h.writes
  obtain ⟨hwrap, hsound⟩ := hin
  obtain ⟨hBx, hxT, hxmod, hfill⟩ := unread_spec (show 0 < S by omega) hB hmod
  generalize unread S (flat es).length c.collectorBookmark = x at hsound hBx hxT hxmod hfill
  have hsize := h.tracks.size
  have hlast : c.log.bufLastWrittenIndex % S = (flat es).length % S := by
    rw [h.tracks.lastWritten, h.tracks.current]
  have hT := Nat.mod_lt (flat es).length (show 0 < S by omega)
  have hb := Nat.mod_lt c.collectorBookmark (show 0 < S by omega)
  have hdivT := Nat.div_add_mod (flat es).length S
  have hdivx := Nat.div_add_mod x S
  rw [hxmod] at hdivx
  -- the turn that the end of the journal is in
  have hbase : S * ((flat es).length / S) % S = 0 := Nat.mul_mod_right S _
  generalize S * ((flat es).length / S) = base at hdivT hbase
  have hreach : Reachable env S es x x := reachable_self hxT
  have hwrites' : Writes es 0 x out := hwrites.mono hBx
  rcases Collect.collect_cases hsize hcollect with ⟨heq, rfl, rfl⟩ | ⟨hlt, i, log, hdump, rfl⟩ |
    ⟨hlt, i, log, top, i', log', bottom, htop, hbottom, rfl, rfl⟩
  · -- nothing to collect
    refine ⟨h.tracks, (flat es).length, Nat.le_refl _, hlast.symm, ?_⟩
    rw [List.append_nil]
    exact hwrites'.mono hxT
  · rw [hlast] at hlt
    have hne : es ≠ [] := by
      rintro rfl
      simp at hlt
    have hend := h.tracks.rangeEnd_lastWritten hne c.collectorBookmark (.inl hlt.le)
    rw [if_neg (by omega)] at hend
    -- the bookmark is in the same turn
    obtain rfl : x = base + c.collectorBookmark % S := by
      refine eq_of_mod_eq (S := S) (w := (flat es).length + 1 - S) (by omega) (by omega) ?_ (by omega) ?_
      · omega
      · rw [hxmod, Nat.add_mod, hbase, Nat.zero_add, Nat.mod_mod, Nat.mod_mod]
    have hspan : Span env S c.log es (base + c.collectorBookmark % S) base
        (Log.rangeEnd S c.collectorBookmark (u32Sub c.log.bufLastWrittenIndex 1)) :=
      ⟨h.tracks, hsound, hbase, by rw [hend]; omega, by rw [hend]; omega, hfill⟩
    obtain ⟨hs, hge, hle, -, hnew⟩ := hspan.dumpRange h1 h0 (Nat.le_refl _) hreach hdump
    refine ⟨h.tracks.same hs, base + i, hle, ?_, hwrites'.append hnew (Nat.zero_le _) (by omega)⟩
    rw [Nat.add_mod, hbase, Nat.zero_add, Nat.mod_mod]
  · -- the bookmark is in the turn before
    rw [hlast] at hlt
    have hlastne : (flat es).length % S ≠ 0 := fun h0 => by
      have := hwrap h0
      omega
    have hne : es ≠ [] := by
      rintro rfl
      simp at hlastne
    have hxb : x + S = base + c.collectorBookmark % S := by
      refine eq_of_mod_eq (S := S) (w := (flat es).length + 1) (by omega) (by omega) (by omega) (by omega) ?_
      rw [Nat.add_mod_right, hxmod, Nat.add_mod base, hbase, Nat.zero_add, Nat.mod_mod, Nat.mod_mod]
    have hbase' : S * (x / S) % S = 0 := Nat.mul_mod_right S _
    generalize S * (x / S) = base' at hdivx hbase'
    have hendtop : Log.rangeEnd S c.collectorBookmark (u32Sub S 1) = S :=
      Log.rangeEnd_sub_one (Nat.mod_lt _ (by omega)) (Nat.le_refl S) (by omega)
    have hspan : Span env S c.log es x base' (Log.rangeEnd S c.collectorBookmark (u32Sub S 1)) :=
      ⟨h.tracks, hsound, hbase', by rw [hendtop], by rw [hendtop]; omega, hfill⟩
    obtain ⟨hs, hge, hle, hi, hnew⟩ := hspan.dumpRange h1 h0 hdivx.ge (by rw [hdivx]; exact hreach) htop
    -- the lower half goes on at the end of the ring
    have hend := h.tracks.rangeEnd_lastWritten hne 0 (.inl (by rw [Nat.zero_mod]; exact Nat.zero_le _))
    rw [if_neg hlastne] at hend
    have hspan' : Span env S log es x base (Log.rangeEnd S 0 (u32Sub c.log.bufLastWrittenIndex 1)) :=
      ⟨h.tracks.same hs, by rw [hs.ringBuffer]; exact hsound, hbase, by rw [hend]; omega,
        by rw [hend]; omega, hfill⟩
    obtain ⟨hs', hge', hle', -, hnew'⟩ := hspan'.dumpRange h1 h0 (by rw [Nat.zero_mod]; omega)
      (by rw [Nat.zero_mod]; exact reachable_end (by omega) (by omega) hbase) hbottom
    rw [Nat.zero_mod, Nat.add_zero] at hnew'
    rw [hdivx] at hnew
    refine ⟨h.tracks.same (hs.trans hs'), base + i', hle', ?_, ?_⟩
    · rw [Nat.add_mod, hbase, Nat.zero_add, Nat.mod_mod]
    · rw [← List.append_assoc]
      exact (hwrites'.append (hnew.mono (show base' + i ≤ base by omega)) (Nat.zero_le _)
        (by omega)).append hnew'
        (Nat.zero_le _) (by omega)

theorem Run.follows {h0 : 4096 ≤ S} {h1 : S < 2147483648} {Q : Call → Prop}
    (h : Run env S h0 h1 Q (fun c done pend => Unfilled S pend ∧
      InOrder env S c (done ++ pend)) c done pend out) :
    Follows S c (done ++ pend) out := by
  induction h with
  | new => exact ⟨Tracks.new _ h1, 0, Nat.zero_le _, rfl, Writes.nil _ _ _⟩
  | @trace c done pend out call log e hrun hcall htrace ih =>
    have hsize := ih.tracks.size
    have ht := traced_of_ok (by rw [hsize]; exact h1) (by rw [hsize]; exact h0) htrace
    rw [← List.append_assoc]
    exact ih.trace h0 h1 ht
  | @collect c done pend out fuel c' new hrun hP hcollect ih =>
    rw [List.append_nil]
    exact ih.collect h0 h1 hP.2 hcollect

/-- **The collector writes records in the order they were logged**, each at most
once, in every run that collects only journals that may be collected. -/
theorem collect_in_order {h0 : 4096 ≤ S} {h1 : S < 2147483648} {Q : Call → Prop}
    (hrun : Run env S h0 h1 Q (fun c done pend => Unfilled S pend ∧
      InOrder env S c (done ++ pend)) c done pend out) :
    ∃ rs : List Entry, rs.Sublist (done ++ pend) ∧ headers out = rs.map Entry.header := by
  obtain ⟨-, B, -, -, hwrites⟩ := hrun.follows
  exact hwrites.sublist

end InOrder

/-- Two records are collected, and then two more around the end of the ring. -/
theorem collect_in_order_example : ∃ c e1 e2 e3 e4 out new,
    Run stringEnv 4096 (le_refl _) (by decide) (Renders stringEnv callText)
      (fun c done pend => Unfilled 4096 pend ∧ InOrder stringEnv 4096 c (done ++ pend)) c [e1, e2, e3, e4] []
      (out ++ new) ∧
    lines (Entry.line stringEnv callText) [e1, e2] <:+ out ∧
      lines (Entry.line stringEnv callText) [e3, e4] <:+ new ∧
    ∃ rs : List Entry, rs.Sublist [e1, e2, e3, e4] ∧ headers (out ++ new) = rs.map Entry.header := by
  obtain ⟨c, e1, e2, e3, e4, out, h⟩ := exists_turned (P := fun c done pend => Unfilled 4096 pend ∧
    InOrder stringEnv 4096 c (done ++ pend)) fun c e1 e2 hc hfill hwhole hlen =>
      ⟨hfill, hc.inOrder (by decide) hfill hwhole (by rw [List.nil_append, hlen]; decide)⟩
  obtain ⟨c', new, -, hdel, hall⟩ := h.caught.collect (le_refl _) (by decide) h.whole.1 h.whole.2
  have hin := h.caught.inOrder (by decide) h.whole.1 h.whole.2 (by rw [h.total]; decide)
  have hrun : Run stringEnv 4096 (le_refl _) (by decide) (Renders stringEnv callText)
      (fun c done pend => Unfilled 4096 pend ∧ InOrder stringEnv 4096 c (done ++ pend)) c' [e1, e2, e3, e4] []
      (out ++ new) := .collect h.run ⟨h.whole.1, hin⟩ (hall 4097 (by decide))
  exact ⟨c', e1, e2, e3, e4, out, new, hrun, h.written, hdel.1, by simpa using collect_in_order hrun⟩

/-- When the journal ends at the end of the ring, the lower half is the whole ring:
two records of 2048 bytes each, collected one after the other, fill a ring of 4096
bytes, and the second `collect` writes both again. -/
theorem collect_writes_again : ∃ c done pend out,
    Run stringEnv 4096 (le_refl _) (by decide) (Renders stringEnv callText)
      (fun _ _ pend => Unfilled 4096 pend)
      c done pend out ∧
    ¬ ∃ rs : List Entry, rs.Sublist (done ++ pend) ∧ headers out = rs.map Entry.header := by
  have h0 : 4096 ≤ 4096 := le_refl _
  have h1 : 4096 < 2147483648 := by decide
  -- the first record, collected
  obtain ⟨log1, e1, -, hok1, hc1, hlen1, -, hline1⟩ :=
    (Caught.new (by decide) h1).trace_letters h0 h1 1983 (by decide)
  rw [List.nil_append] at hc1
  have hflat1 : (flat [e1]).length = 2048 := by rw [flat_cons, flat_nil, List.append_nil, hlen1]
  have hfill1 : Unfilled 4096 [e1] := by
    unfold Unfilled
    omega
  obtain ⟨c2, new2, hc2, hdel2, hall2⟩ := hc1.collect h0 h1 hfill1 ⟨⟨by simp [hlen1], trivial⟩,
    by simp [hline1]⟩
  -- the second one, up to the end of the ring
  obtain ⟨log3, e3, -, hok3, hc3, hlen3, -, hline3⟩ := hc2.trace_letters h0 h1 1983 (by decide)
  simp only [List.nil_append] at hc3
  have hflat3 : (flat [e3]).length = 2048 := by rw [flat_cons, flat_nil, List.append_nil, hlen3]
  have hfill3 : Unfilled 4096 [e3] := by
    unfold Unfilled
    omega
  have hu : Unsplit 4096 0 ([e1] ++ [e3]) := ⟨by omega, by omega, trivial⟩
  have hprints : ∀ e ∈ [e1] ++ [e3], e.Prints stringEnv (e.line stringEnv callText) ∧
      (e.line stringEnv callText).length ≤ 4096 := by
    intro e he
    refine ⟨hc3.prints e he, ?_⟩
    rcases List.mem_pair.mp he with rfl | rfl
    all_goals omega
  obtain ⟨c4, rs, -, -, hne, hall4⟩ :=
    collect_wrapped h1 h0 hc3.tracks hc3.bookmark hu hprints (by omega) (by omega)
  refine ⟨_, _, _, _, .collect
    (.trace (.collect (.trace .new (roundTrips_string _) hok1) hfill1 (hall2 4097 (by decide)))
    (roundTrips_string _) hok3) hfill3 (hall4 4097 (by decide)), ?_⟩
  rintro ⟨ks, hsub, hks⟩
  -- at least three lines of two records
  have hrs := List.length_pos_iff.mpr (hne (by rw [flat_append, List.length_append, hflat1, hflat3]))
  have hlines : ∀ es, headers (lines (Entry.line stringEnv callText) es) = es.map Entry.header := by
    intro es
    rw [headers, lines, List.filterMap_map, ← List.filterMap_eq_map]
    rfl
  have hcount := congrArg List.length hks
  obtain ⟨pre, hpre⟩ := hdel2.1
  rw [headers_append, hlines, ← hpre, List.nil_append, headers_append, hlines] at hcount
  simp only [List.length_append, List.length_map, List.length_cons, List.length_nil] at hcount
  have hle := hsub.length_le
  simp only [List.nil_append, List.append_nil, List.length_append, List.length_cons, List.length_nil] at hle
  omega

end Memlog

/-
# A thread in `collect` as a consumer

The threads that collect share the bookmark as consumers share a cursor: positions in
the ring are numbers of records (`At`), and a step in `collect` is at most one step of
`Cursor`, in a ring that the calls of `traceVargs` do not fill and in which they
publish in order (`Along.collectStep`).

A thread that has read the last written index while nothing was published takes one
from 0 for the end of its range when it finds a bookmark beyond it. So a thread that
has read 0 is to find the bookmark at 0.

Key definitions: `At`, `Shared`, `Stands`, `Along`.
Key theorems: `Shared.round_set`, `Shared.round_top`, `Along.collectStep`.
-/
import Memlog.Delivered
import Memlog.Lib.Cursor
import Memlog.Worker

namespace Memlog

open Circular

namespace System

open Producers

/-! ### Numbers of records -/

/-- Record number `n` starts at `x`, or the journal of `n` records ends there. -/
def At (es : List Entry) (x n : ℕ) : Prop := n ≤ es.length ∧ (flat (es.take n)).length = x

section At

variable {es : List Entry} {x y n m : ℕ}

theorem At.split (h : At es x n) : ∃ pre post, es = pre ++ post ∧ pre.length = n ∧ (flat pre).length = x :=
  ⟨es.take n, es.drop n, (List.take_append_drop n es).symm,
    by rw [List.length_take, Nat.min_eq_left h.1], h.2⟩

theorem at_of_split {pre post : List Entry} (h : es = pre ++ post) : At es (flat pre).length pre.length := by
  subst h
  exact ⟨by rw [List.length_append]; exact Nat.le_add_right _ _, by rw [List.take_left]⟩

theorem At.lt_of_lt (h : At es x n) (h' : At es y m) (hlt : n < m) : x < y := by
  have htake : es.take m = es.take n ++ (es.drop n).take (m - n) := by
    rw [← List.take_add, Nat.add_sub_cancel' hlt.le]
  have hcount := length_le_flat ((es.drop n).take (m - n))
  have hm := h'.1
  rw [List.length_take, List.length_drop, Nat.min_eq_left (by omega)] at hcount
  rw [← h.2, ← h'.2, htake, flat_append, List.length_append]
  omega

theorem At.lt_iff (h : At es x n) (h' : At es y m) : x < y ↔ n < m := by
  refine ⟨fun hlt => ?_, h.lt_of_lt h'⟩
  by_contra hle
  rcases Nat.eq_or_lt_of_le (Nat.not_lt.mp hle) with rfl | hlt'
  · exact hlt.ne (h.2.symm.trans h'.2)
  · exact Nat.lt_asymm hlt (h'.lt_of_lt h hlt')

theorem At.le_iff (h : At es x n) (h' : At es y m) : x ≤ y ↔ n ≤ m := by
  rw [← Nat.not_lt, ← Nat.not_lt, h'.lt_iff h]

theorem At.eq_iff (h : At es x n) (h' : At es y m) : x = y ↔ n = m := by
  rw [Nat.eq_iff_le_and_ge, Nat.eq_iff_le_and_ge, h.le_iff h', h'.le_iff h]

theorem At.zero (es : List Entry) : At es 0 0 := ⟨Nat.zero_le _, rfl⟩

theorem At.boundary (h : At es x n) : Boundary es x := by
  obtain ⟨pre, post, rfl, -, rfl⟩ := h.split
  cases post with
  | nil => exact .inl (by rw [List.append_nil])
  | cons e post => exact .inr ⟨e, pre, post, rfl, rfl⟩

theorem exists_at (h : Boundary es x) : ∃ n, At es x n := by
  obtain ⟨pre, post, heq, rfl⟩ := h.split
  exact ⟨pre.length, at_of_split heq⟩

theorem At.le (h : At es x n) : x ≤ (flat es).length := h.boundary.le

theorem At.mono {es' : List Entry} (h : At es x n) (hp : es <+: es') : At es' x n := by
  obtain ⟨rest, rfl⟩ := hp
  exact ⟨by rw [List.length_append]; exact Nat.le_add_right_of_le h.1,
    by rw [List.take_append_of_le_length h.1]; exact h.2⟩

theorem At.concat (h : At es x n) (e : Entry) : At (es ++ [e]) x n := h.mono (List.prefix_append _ _)

theorem At.next (h : At es x n) (hn : n < es.length) :
    ∃ e, es[n]? = some e ∧ StartsAt es x e ∧ At es (x + e.bytes.length) (n + 1) := by
  obtain ⟨pre, post, rfl, rfl, rfl⟩ := h.split
  cases post with
  | nil => exact absurd hn (by simp)
  | cons e post =>
    refine ⟨e, by simp, ⟨pre, post, rfl, rfl⟩, ?_⟩
    have hat : At (pre ++ e :: post) (flat (pre ++ [e])).length (pre ++ [e]).length :=
      at_of_split (by rw [List.append_assoc]; rfl)
    simpa using hat

theorem At.entry {e : Entry} (h : At es x n) (he : StartsAt es x e) :
    es[n]? = some e ∧ At es (x + e.bytes.length) (n + 1) := by
  have hend : At es (flat es).length es.length := ⟨le_rfl, by rw [List.take_length]⟩
  have hlen := e.length_eq
  have hle := he.end_le
  obtain ⟨f, hget, hf, hnext⟩ := h.next ((h.lt_iff hend).mp (by omega))
  obtain ⟨-, rfl⟩ : x = x ∧ e = f := by
    rcases he.disjoint hf with heq | hbefore | hbehind
    · exact heq
    · omega
    · have hflen := f.length_eq
      omega
  exact ⟨hget, hnext⟩

end At

/-! ### Rounds of a range -/

/-- The collector and the calls of `traceVargs`, in a ring of at least 4096 bytes that
they do not fill; the calls have published in order. -/
structure Shared (env : Env) (S : ℕ) (line : Entry → List UInt8) (c : Collect) (ps : List Producer) :
    Prop where
  placed : Placed env S line c.log ps
  total : (flat (records ps)).length < S
  size_ge : 4096 ≤ S
  size_lt : S < 2147483648
  set : ∀ p ∈ ps, p.entry.location < c.log.bufLastWrittenIndex → p.stage ≠ .allocated
  lastWritten : Boundary (records ps) c.log.bufLastWrittenIndex
  read : ∀ p ∈ ps, ∀ index, p.stage = .read index → Boundary (records ps) index
  fresh : c.log.ringBuffer.indexWrapAroundCount = 0

section Rounds

variable {env : Env} {S : ℕ} {line : Entry → List UInt8} {c : Collect} {ps : List Producer} {w : Log.Walk}
  {r : Loop.Next Log.Walk Log.Walk} {e : Entry} {x last : ℕ}

theorem Shared.same {log : Log} (h : Shared env S line c ps) (hs : c.log.Same log) :
    Shared env S line { c with log := log } ps := by
  have hplaced := h.placed.same hs
  obtain ⟨st, rfl⟩ := hs
  exact ⟨hplaced, h.total, h.size_ge, h.size_lt, h.set, h.lastWritten, h.read, h.fresh⟩

theorem Shared.bookmark (h : Shared env S line c ps) (b : ℕ) :
    Shared env S line { c with collectorBookmark := b } ps :=
  ⟨h.placed, h.total, h.size_ge, h.size_lt, h.set, h.lastWritten, h.read, h.fresh⟩

theorem Shared.exists_at (h : Shared env S line c ps) (he : e ∈ records ps) :
    ∃ n, At (records ps) e.location n ∧ (records ps)[n]? = some e := by
  obtain ⟨pre, post, heq⟩ := List.append_of_mem he
  have hloc := h.placed.located _ e ⟨pre, post, heq, rfl⟩
  exact ⟨pre.length, hloc ▸ at_of_split heq, by rw [heq]; simp⟩

theorem Shared.entryAt (h : Shared env S line c ps) (he : StartsAt (records ps) x e)
    (hset : ∀ p ∈ ps, p.entry.location = x → p.stage ≠ .allocated) :
    c.log.ringBuffer.entryAt x = some e.bytes ∧ e.Genuine ∧ e.Prints env (line e) := by
  obtain ⟨pre, s, post, rfl, -, hloc⟩ := h.placed.exists_producer he
  have hentry := h.placed.entryAt (hset ⟨e, s⟩ (by simp) hloc) h.total
  rw [hloc] at hentry
  exact ⟨hentry, h.placed.sound e (by rw [records_append]; simp [records])⟩

theorem Shared.round_set (h : Shared env S line c ps) (hw : w.log = c.log) (he : StartsAt (records ps) w.i e)
    (hset : ∀ p ∈ ps, p.entry.location = w.i → p.stage ≠ .allocated) (hend : w.i + e.bytes.length ≤ last)
    (hlast : last ≤ S) (hstep : Log.walkStep env last true w = .ok r) :
    ∃ w', r = .again w' ∧ c.log.Same w'.log ∧ w'.i = w.i + e.bytes.length ∧
      w'.out = w.out ++ [.line e.header (line e)] := by
  obtain ⟨hentry, hgenuine, hprints⟩ := h.entryAt he hset
  have hsize := h.placed.size
  have hlen := e.length_eq
  have hS := h.size_lt
  rw [← hw] at hentry hsize
  rcases Log.walkStep_record env true (by omega) (by omega) (by omega) hentry hgenuine hprints
      (by omega) hstep with
    ⟨hout, -⟩ | ⟨-, -, w', rfl, hi, hout, hsame⟩
  · omega
  · exact ⟨w', rfl, hw ▸ hsame, hi, hout⟩

theorem Shared.entryAt_none (h : Shared env S line c ps) (hx : Boundary (records ps) x)
    (hunset : ∀ p ∈ ps, p.entry.location = x → p.stage = .allocated) : c.log.ringBuffer.entryAt x = none := by
  have hblank : c.log.ringBuffer.Blank x := by
    have hle := hx.le
    have htotal := h.total
    rcases hx with rfl | ⟨e, he⟩
    · exact h.placed.blank_behind le_rfl h.total
    · obtain ⟨pre, s, post, rfl, -, hloc⟩ := h.placed.exists_producer he
      obtain rfl : s = .allocated := hunset ⟨e, s⟩ (by simp) hloc
      have hlen := e.length_eq
      exact h.placed.blank h.total hloc.le (by omega)
  apply Option.eq_none_iff_forall_ne_some.mpr
  exact fun entry hentry => Log.read_blank hblank (Log.read_pattern hentry)

/-- The search from a boundary comes to the next record that is set. -/
theorem Shared.entryAt_some (h : Shared env S line c ps) {y : ℕ} (hx : Boundary (records ps) x)
    (hxy : x < y) (hy : y < S) (hnone : ∀ z, x ≤ z → z < y → c.log.ringBuffer.entryAt z = none)
    (hentry : c.log.ringBuffer.entryAt y ≠ none) :
    Boundary (records ps) y := by
  obtain ⟨entry, hsome⟩ := Option.ne_none_iff_exists'.mp hentry
  have hnotBlank : ¬ c.log.ringBuffer.Blank y := fun hblank => Log.read_blank hblank (Log.read_pattern hsome)
  rcases Nat.lt_or_ge y (flat (records ps)).length with hlt | hge
  swap
  · exact absurd (h.placed.blank_behind hge hy) hnotBlank
  obtain ⟨z, e, he, hzy, hyz⟩ := exists_startsAt hlt
  obtain ⟨pre, s, post, rfl, -, hloc⟩ := h.placed.exists_producer he
  have hset : s ≠ .allocated := by
    rintro rfl
    exact hnotBlank (h.placed.blank h.total (by omega) (by omega))
  rcases Nat.eq_or_lt_of_le hzy with rfl | hzy
  · exact .inr ⟨e, he⟩
  · -- the record would have been found where it starts
    have hxz : x ≤ z := by
      by_contra hzx
      have hend := hx.end_le he (Nat.not_le.mp hzx)
      omega
    have hstart := h.placed.entryAt (s := s) hset h.total
    rw [hloc, hnone z hxz hzy] at hstart
    cases hstart

/-- Whether the bytes of a record at a place are set. -/
theorem Shared.set_or_unset (h : Shared env S line c ps) (x : ℕ) :
    (∃ p ∈ ps, StartsAt (records ps) x p.entry ∧ ∀ q ∈ ps, q.entry.location = x → q.stage ≠ .allocated) ∨
      ∀ p ∈ ps, p.entry.location = x → p.stage = .allocated := by
  by_cases hset : ∃ p ∈ ps, p.entry.location = x ∧ p.stage ≠ .allocated
  · obtain ⟨p, hp, rfl, hstage⟩ := hset
    obtain ⟨pre, post, rfl⟩ := List.append_of_mem hp
    have hlocation := h.placed.location
    refine .inl ⟨p, hp, ⟨records pre, records post,
      by rw [records_append, records_cons], hlocation.symm⟩, fun q hq hqloc => ?_⟩
    have hlen := p.entry.length_eq
    have hqlen := q.entry.length_eq
    rcases location_cases h.placed.located rfl hq with rfl | hbefore | hbehind
    · exact hstage
    · omega
    · omega
  · refine .inr fun p hp hloc => ?_
    by_contra hstage
    exact hset ⟨p, hp, hloc, hstage⟩

/-- A round is defined if no line is too long. -/
theorem Shared.round_ok (h : Shared env S line c ps) (hw : w.log = c.log) (hlast : last ≤ S)
    (hi : Boundary (records ps) w.i ∨ last ≤ w.i)
    (hend : ∀ e, StartsAt (records ps) w.i e → w.i < last → w.i + e.bytes.length ≤ last)
    (hshort : ∀ e ∈ records ps, (line e).length ≤ 4096) : ∃ r, Log.walkStep env last true w = .ok r := by
  have hsize := h.placed.size
  have hS := h.size_lt
  have hge := h.size_ge
  rcases Nat.lt_or_ge w.i last with hin | hdone
  swap
  · exact ⟨_, Log.walkStep_end env true hdone⟩
  rcases h.set_or_unset w.i with ⟨p, hp, he, hset⟩ | hunset
  · obtain ⟨hentry, -, hprints⟩ := h.entryAt he hset
    have hle := hend _ he hin
    rw [← hw] at hentry hsize
    obtain ⟨w', hstep, -⟩ := Log.walkStep_line env true (by omega) (by omega) (by omega) hentry hprints hle
      (hshort _ (List.mem_map_of_mem hp))
    exact ⟨_, hstep⟩
  · have hnone := h.entryAt_none (hi.resolve_right (Nat.not_le.mpr hin)) hunset
    rw [← hw] at hnone hsize
    obtain ⟨_, _, _, -, -, -, hstep⟩ :=
      Log.walkStep_search env true (by omega) (by omega) (by omega) hin hnone
    exact ⟨_, hstep⟩

/-- **A round of the range up to the end of the ring**, from where a record starts or
the journal ends: it writes the line of a record or a notice, and comes to such a place
again, or to the end of the ring. -/
theorem Shared.round_top (h : Shared env S line c ps) (hw : w.log = c.log) (hi : Boundary (records ps) w.i)
    (hpos : 0 < c.log.bufLastWrittenIndex) (hstep : Log.walkStep env S true w = .ok r) :
    ∃ w', c.log.Same w'.log ∧
      ((r = .done w' ∧ ∃ t, w'.out = w.out ++ [.notice t]) ∨
        (r = .again w' ∧ w.i < w'.i ∧ (Boundary (records ps) w'.i ∨ w'.i = S) ∧
          ((∃ t, w'.out = w.out ++ [.notice t]) ∨
            ∃ e ∈ records ps, w'.out = w.out ++ [.line e.header (line e)]))) := by
  have hsize := h.placed.size
  have htotal := h.total
  have hle := hi.le
  rw [← hw] at hsize
  rcases h.set_or_unset w.i with ⟨p, hp, he, hset⟩ | hunset
  · have hmem : p.entry ∈ records ps := List.mem_map_of_mem hp
    have hend := he.end_le
    obtain ⟨w', rfl, hsame, hi', hout⟩ := h.round_set hw he hset (by omega) le_rfl hstep
    have hlen := p.entry.length_eq
    refine ⟨w', hsame, .inr ⟨rfl, by omega, .inl ?_, .inr ⟨p.entry, hmem, hout⟩⟩⟩
    rw [hi']
    rcases he.next with hnext | ⟨f, hf⟩
    · exact .inl hnext
    · exact .inr ⟨f, hf⟩
  · have hnone := h.entryAt_none hi hunset
    rw [← hw] at hnone
    obtain ⟨w', t, hsame, hout, hcases⟩ := Log.walkStep_notice env (by rw [hsize]; exact h.size_lt)
      (by rw [hsize]; exact h.size_ge) hsize.ge (by omega) hnone hstep
    rw [hw] at hsame
    rcases hcases with ⟨-, rfl⟩ | ⟨rfl, hle', hfound⟩
    · exact ⟨w', hsame, .inl ⟨rfl, t, hout⟩⟩
    · rcases hfound with ⟨hlt, hentry, hbefore⟩ | hnowhere
      · rw [hw] at hentry hbefore
        refine ⟨w', hsame, .inr ⟨rfl, hlt, ?_, .inl ⟨t, hout⟩⟩⟩
        exact (Nat.lt_or_eq_of_le hle').imp (fun hlt' => h.entryAt_some hi hlt hlt' hbefore hentry) id
      · -- the first record of the journal is set
        obtain ⟨q, hq, hqset⟩ : ∃ q ∈ ps, q.stage ≠ .allocated := by
          obtain ⟨z, e, he, hz, -⟩ := exists_startsAt (show 0 < (flat (records ps)).length from
            Nat.lt_of_lt_of_le hpos h.lastWritten.le)
          obtain ⟨pre, s, post, rfl, -, hloc⟩ := h.placed.exists_producer he
          exact ⟨⟨e, s⟩, by simp, h.set ⟨e, s⟩ (by simp) (by simp only; omega)⟩
        obtain ⟨j, -, entry, hentry, -⟩ := h.placed.exists_fitting h.total hq hqset w.i
        have hno := hnowhere j
        rw [hw, hentry] at hno
        cases hno

end Rounds

/-! ### A step in `collect` -/

/-- The two threads that collect. -/
inductive Thread where
  | main
  | worker
deriving DecidableEq

/-- Where a thread in `collect` stands as a consumer. -/
inductive Stands (S : ℕ) (es : List Entry) : Option CollectPc → Cursor.Pc → Prop
  | out : Stands S es none .idle
  | read : Stands S es (some .read) .idle
  | compare {bookmarkEnd stop} : At es bookmarkEnd stop →
      Stands S es (some (.compare bookmarkEnd)) (.loaded stop)
  | order {bookmarkEnd stop} : At es bookmarkEnd stop → 0 < bookmarkEnd →
      Stands S es (some (.order bookmarkEnd)) (.differs stop)
  | start {bookmarkEnd stop} : At es bookmarkEnd stop → 0 < bookmarkEnd →
      Stands S es (some (.start bookmarkEnd false)) (.differs stop)
  | wrap {bookmarkEnd stop} : At es bookmarkEnd stop → 0 < bookmarkEnd →
      Stands S es (some (.start bookmarkEnd true)) (.rewinding stop)
  | top {w bookmarkEnd stop} : At es bookmarkEnd stop → 0 < bookmarkEnd → Boundary es w.i ∨ w.i = S →
      Stands S es (some (.walk w S (some bookmarkEnd))) (.rewinding stop)
  | walk {w last i stop} : At es w.i i → At es last stop →
      Stands S es (some (.walk w last none)) (.walking i stop)
  | store {bookmarkEnd stop} : At es bookmarkEnd stop →
      Stands S es (some (.store bookmarkEnd)) (.walking stop stop)

theorem Stands.concat {S : ℕ} {es : List Entry} {p : Option CollectPc} {q : Cursor.Pc}
    (h : Stands S es p q) (e : Entry) :
    Stands S (es ++ [e]) p q := by
  cases h with
  | out => exact .out
  | read => exact .read
  | compare hat => exact .compare (hat.concat e)
  | order hat hpos => exact .order (hat.concat e) hpos
  | start hat hpos => exact .start (hat.concat e) hpos
  | wrap hat hpos => exact .wrap (hat.concat e) hpos
  | top hat hpos hi => exact .top (hat.concat e) hpos (hi.imp_left fun hb => hb.concat e)
  | walk hi hlast => exact .walk (hi.concat e) (hlast.concat e)
  | store hat => exact .store (hat.concat e)

/-- The collector and the stream as what consumers share: `old` was written before. -/
structure Along (env : Env) (S : ℕ) (line : Entry → List UInt8) (old : List Chunk) (c : Collect)
    (ps : List Producer) (out : List Chunk) (a : Cursor.State Entry Thread) : Prop where
  shared : Shared env S line c ps
  journal : a.journal = records ps
  published : At (records ps) c.log.bufLastWrittenIndex a.published
  cursor : At (records ps) c.collectorBookmark a.cursor
  written : linesOf out = old ++ lines line a.written

section Along

variable {env : Env} {S : ℕ} {line : Entry → List UInt8} {old : List Chunk} {c : Collect} {ps : List Producer}
  {out : List Chunk} {a : Cursor.State Entry Thread}

theorem Along.same {log : Log} (h : Along env S line old c ps out a) (hs : c.log.Same log) :
    Along env S line old { c with log := log } ps out a := by
  have hshared := h.shared.same hs
  obtain ⟨st, rfl⟩ := hs
  exact ⟨hshared, h.journal, h.published, h.cursor, h.written⟩

theorem Along.notice (h : Along env S line old c ps out a) (t : List UInt8) :
    Along env S line old c ps (out ++ [.notice t]) a := by
  refine ⟨h.shared, h.journal, h.published, h.cursor, ?_⟩
  rw [linesOf_append, h.written]
  exact List.append_nil _

theorem Along.writes (h : Along env S line old c ps out a) (e : Entry) :
    Along env S line old c ps (out ++ [.line e.header (line e)]) { a with written := a.written ++ [e] } := by
  refine ⟨h.shared, h.journal, h.published, h.cursor, ?_⟩
  rw [linesOf_append, h.written, lines, lines, List.map_append, List.append_assoc]
  rfl

theorem Along.goto (h : Along env S line old c ps out a) (t : Thread) (q : Cursor.Pc) :
    Along env S line old c ps out (a.goto t q) :=
  ⟨h.shared, h.journal, h.published, h.cursor, h.written⟩

theorem Along.mod {x n : ℕ} (h : Along env S line old c ps out a) (hx : At (records ps) x n) :
    x % c.log.ringBuffer.size = x := by
  have hle := hx.le
  have htotal := h.shared.total
  rw [h.shared.placed.size, Nat.mod_eq_of_lt (by omega)]

theorem Along.range {x y n m : ℕ} (h : Along env S line old c ps out a) (hx : At (records ps) x n)
    (hy : At (records ps) y m) (hxy : x < y) (log : Log)
    (hlog : log.ringBuffer.size = c.log.ringBuffer.size) :
    ∃ w : Log.Walk, w.i = x ∧ CollectPc.range env log x (u32Sub y 1) none = .walk w y none := by
  have hle := hy.le
  have htotal := h.shared.total
  have hS := h.shared.size_lt
  have hsize := h.shared.placed.size
  have hmod := h.mod hx
  refine ⟨⟨x, Log.stackBuffer env, Log.zeroHeader, log, []⟩, rfl, ?_⟩
  rw [CollectPc.range, hlog, hmod, Log.rangeEnd_sub_one (by omega) (by omega) (by omega)]

/-- Thread `t` goes from `p` to `next`: at most one step of a consumer, with fewer steps
to come. -/
def Advances (env : Env) (S : ℕ) (line : Entry → List UInt8) (old : List Chunk)
    (P : Cursor.State Entry Thread → Prop) (a : Cursor.State Entry Thread) (t : Thread)
    (p : CollectPc) (c : Collect) (ps : List Producer) (out : List Chunk) (next : Option CollectPc) :
    Prop :=
  ∃ a' q, Along env S line old c ps out a' ∧ (a' = a ∨ Cursor.Step P a a') ∧
    a'.pc = Function.update a.pc t q ∧
    Stands S (records ps) next q ∧ next.elim 0 (CollectPc.rounds S) < p.rounds S

section Advances

variable {base : ℕ} {t : Thread} {c' : Collect} {out' : List Chunk} {next : Option CollectPc}
  {P : Cursor.State Entry Thread → Prop} {bookmarkEnd stop : ℕ}

theorem Along.compare (h : Along env S line old c ps out a) (hat : At (records ps) bookmarkEnd stop)
    (hpc : a.pc t = .loaded stop) (hsteady : (CollectPc.compare bookmarkEnd).Steady c)
    (hstep : collectStep env c out (.compare bookmarkEnd) = .ok (c', out', next)) :
    Advances env S line old P a t (.compare bookmarkEnd) c' ps out' next := by
  rw [collectStep_compare, h.mod h.cursor, h.mod hat] at hstep
  by_cases heq : c.collectorBookmark = bookmarkEnd
  · obtain ⟨rfl, rfl, rfl⟩ : c = c' ∧ out = out' ∧ some (.store bookmarkEnd) = next := by
      simpa [heq] using hstep
    obtain rfl := (hat.eq_iff h.cursor).mp heq.symm
    refine ⟨_, _, h.goto t _, .inr (.skip hpc rfl), rfl, .store hat, ?_⟩
    simp only [Option.elim_some, CollectPc.rounds]
    omega
  · obtain ⟨rfl, rfl, rfl⟩ : c = c' ∧ out = out' ∧ some (.order bookmarkEnd) = next := by
      simpa [heq] using hstep
    have hpos : 0 < bookmarkEnd := by
      cases bookmarkEnd with
      | zero => exact absurd hsteady heq
      | succ n => exact Nat.succ_pos n
    have hne : a.cursor ≠ stop := fun hne => heq ((h.cursor.eq_iff hat).mpr hne)
    refine ⟨_, _, h.goto t _, .inr (.differ hpc hne), rfl, .order hat hpos, ?_⟩
    simp only [Option.elim_some, CollectPc.rounds]
    omega

theorem Along.order (h : Along env S line old c ps out a) (hat : At (records ps) bookmarkEnd stop)
    (hpos : 0 < bookmarkEnd) (hpc : a.pc t = .differs stop)
    (hstep : collectStep env c out (.order bookmarkEnd) = .ok (c', out', next)) :
    Advances env S line old P a t (.order bookmarkEnd) c' ps out' next := by
  rw [collectStep_order, h.mod h.cursor, h.mod hat] at hstep
  by_cases hlt : c.collectorBookmark < bookmarkEnd
  · obtain ⟨rfl, rfl, rfl⟩ : c = c' ∧ out = out' ∧ some (.start bookmarkEnd false) = next := by
      simpa [hlt] using hstep
    refine ⟨a, .differs stop, h, .inl rfl, by rw [← hpc, Function.update_eq_self], .start hat hpos, ?_⟩
    simp only [Option.elim_some, CollectPc.rounds]
    omega
  · obtain ⟨rfl, rfl, rfl⟩ : c = c' ∧ out = out' ∧ some (.start bookmarkEnd true) = next := by
      simpa [hlt] using hstep
    have hle : stop ≤ a.cursor := (hat.le_iff h.cursor).mp (Nat.not_lt.mp hlt)
    refine ⟨_, _, h.goto t _, .inr (.rewind hpc hle), rfl, .wrap hat hpos, ?_⟩
    simp only [Option.elim_some, CollectPc.rounds]
    omega

/-- The range starts at a bookmark that is still before its end. -/
theorem Along.start (h : Along env S line old c ps out a) (hat : At (records ps) bookmarkEnd stop)
    (hpc : a.pc t = .differs stop) (hsteady : (CollectPc.start bookmarkEnd false).Steady c)
    (hstep : collectStep env c out (.start bookmarkEnd false) = .ok (c', out', next)) :
    Advances env S line old P a t (.start bookmarkEnd false) c' ps out' next := by
  have htotal := h.shared.total
  have hle := hat.le
  have hlt : c.collectorBookmark < bookmarkEnd := by
    have hlt : c.collectorBookmark % c.log.ringBuffer.size < bookmarkEnd % c.log.ringBuffer.size := hsteady
    rwa [h.mod h.cursor, h.mod hat] at hlt
  obtain ⟨w, hw, hrange⟩ := h.range h.cursor hat hlt c.log rfl
  rw [collectStep, hrange] at hstep
  obtain ⟨rfl, rfl, rfl⟩ : c = c' ∧ out = out' ∧ some (.walk w bookmarkEnd none) = next := by
    simpa using hstep
  refine ⟨_, _, h.goto t _, .inr (.start hpc ((h.cursor.lt_iff hat).mp hlt)), rfl,
    .walk (hw ▸ h.cursor) hat, ?_⟩
  simp only [Option.elim_some, CollectPc.rounds]
  omega

/-- The range up to the end of the ring starts at any bookmark. -/
theorem Along.wrap (h : Along env S line old c ps out a) (hat : At (records ps) bookmarkEnd stop)
    (hpos : 0 < bookmarkEnd) (hpc : a.pc t = .rewinding stop)
    (hstep : collectStep env c out (.start bookmarkEnd true) = .ok (c', out', next)) :
    Advances env S line old P a t (.start bookmarkEnd true) c' ps out' next := by
  have hsize := h.shared.placed.size
  have htotal := h.shared.total
  have hS := h.shared.size_lt
  have hcursorle := h.cursor.le
  have hrange : CollectPc.range env c.log c.collectorBookmark (u32Sub c.log.ringBuffer.size 1)
      (some bookmarkEnd) =
      .walk ⟨c.collectorBookmark, Log.stackBuffer env, Log.zeroHeader, c.log, []⟩ S (some bookmarkEnd) := by
    rw [CollectPc.range, h.mod h.cursor, hsize,
      Log.rangeEnd_sub_one (Nat.mod_lt _ (by omega)) le_rfl (by omega)]
  rw [collectStep, hrange] at hstep
  obtain ⟨rfl, rfl, hnext⟩ : c = c' ∧ out = out' ∧ some (.walk ⟨c.collectorBookmark, Log.stackBuffer env,
      Log.zeroHeader, c.log, []⟩ S (some bookmarkEnd)) = next := by simpa using hstep
  rw [← hnext]
  refine ⟨a, .rewinding stop, h, .inl rfl, by rw [← hpc, Function.update_eq_self],
    .top hat hpos (.inl h.cursor.boundary), ?_⟩
  simp only [Option.elim_some, CollectPc.rounds]
  omega

theorem Along.top {w : Log.Walk} (h : Along env S line old c ps out a)
    (hat : At (records ps) bookmarkEnd stop) (hpos : 0 < bookmarkEnd) (hstop : stop ≤ a.published)
    (hw : Boundary (records ps) w.i ∨ w.i = S) (hpc : a.pc t = .rewinding stop)
    (hstep : collectStep env c out (.walk w S (some bookmarkEnd)) = .ok (c', out', next)) :
    Advances env S line old P a t (.walk w S (some bookmarkEnd)) c' ps out' next := by
  have htotal := h.shared.total
  have hle := hat.le
  have hwritten : 0 < c.log.bufLastWrittenIndex :=
    Nat.lt_of_lt_of_le hpos ((hat.le_iff h.published).mpr hstop)
  obtain ⟨r, hround, hstep⟩ := Loop.bind_eq_ok.mp hstep
  -- the range from the start of the ring is next
  have hdone : ∀ {w' : Log.Walk} {out1 : List Chunk}, r = .done w' → c.log.Same w'.log → w'.out = out1 →
      (∀ log, c.log.Same log → Along env S line old { c with log := log } ps out1 a) →
      Advances env S line old P a t (.walk w S (some bookmarkEnd)) c' ps out' next := by
    rintro w' _ rfl hsame rfl halong
    obtain ⟨v, hv, hrange⟩ := h.range (At.zero _) hat hpos w'.log (by rw [hsame.ringBuffer])
    have hreturn := Except.ok.inj hstep
    simp only [hrange, Prod.mk.injEq] at hreturn
    obtain ⟨rfl, rfl, rfl⟩ := hreturn
    refine ⟨_, _, (halong _ hsame).goto t _, .inr (.restart hpc), rfl,
      .walk (by rw [hv]; exact At.zero _) hat, ?_⟩
    simp only [Option.elim_some, CollectPc.rounds]
    omega
  rcases hw with hw | hw
  · obtain ⟨w', hsame, ⟨hr, n, hout⟩ | ⟨rfl, hlt, hi', hout⟩⟩ :=
      h.shared.round_top (w := { w with log := c.log, out := out }) rfl hw hwritten hround
    · exact hdone hr hsame hout fun log hs => (h.same hs).notice n
    · obtain ⟨rfl, rfl, rfl⟩ : { c with log := w'.log } = c' ∧ w'.out = out' ∧
          some (.walk w' S (some bookmarkEnd)) = next := by
        simpa using hstep
      have hrounds : (CollectPc.walk w' S (some bookmarkEnd)).rounds S <
          (CollectPc.walk w S (some bookmarkEnd)).rounds S := by
        have hlast : w'.i ≤ S := by
          rcases hi' with hi' | hi'
          · exact hi'.le.trans htotal.le
          · exact hi'.le
        simp only [CollectPc.rounds] at hlt ⊢
        omega
      rcases hout with ⟨n, hout⟩ | ⟨e, he, hout⟩
      · rw [hout]
        exact ⟨a, .rewinding stop, (h.same hsame).notice n, .inl rfl, by rw [← hpc, Function.update_eq_self],
          .top hat hpos hi', hrounds⟩
      · rw [hout]
        exact ⟨{ a with written := a.written ++ [e] }, .rewinding stop, (h.same hsame).writes e,
          .inr (.rewrite hpc (h.journal ▸ he)), by
            rw [← hpc, Function.update_eq_self], .top hat hpos hi', hrounds⟩
  · -- the end of the ring
    rw [Log.walkStep_end env true (w := { w with log := c.log, out := out }) hw.ge] at hround
    exact hdone (Except.ok.inj hround).symm (Log.Same.refl _) rfl fun log hs => h.same hs

theorem Along.walk {w : Log.Walk} {last i : ℕ} (h : Along env S line old c ps out a)
    (hat : At (records ps) w.i i) (hlast : At (records ps) last stop) (hi : i ≤ stop)
    (hstop : stop ≤ a.published) (hpc : a.pc t = .walking i stop)
    (hstep : collectStep env c out (.walk w last none) = .ok (c', out', next)) :
    Advances env S line old P a t (.walk w last none) c' ps out' next := by
  have htotal := h.shared.total
  obtain ⟨r, hround, hstep⟩ := Loop.bind_eq_ok.mp hstep
  have hlen := hlast.le
  rcases Nat.eq_or_lt_of_le hi with rfl | hlt
  · -- the range is done
    obtain rfl := (hat.eq_iff hlast).mpr rfl
    rw [Log.walkStep_end env true (w := { w with log := c.log, out := out }) le_rfl] at hround
    obtain rfl := Except.ok.inj hround
    obtain ⟨rfl, rfl, rfl⟩ : c = c' ∧ out = out' ∧ some (.store w.i) = next := by simpa using hstep
    refine ⟨a, .walking i i, h, .inl rfl, by rw [← hpc, Function.update_eq_self], .store hat, ?_⟩
    simp only [Option.elim_some, CollectPc.rounds]
    omega
  · -- the record at this place is published, so its bytes are set
    obtain ⟨e, hget, he, hnext⟩ := hat.next (Nat.lt_of_lt_of_le hlt hlast.1)
    have hend := (hnext.le_iff hlast).mpr hlt
    have hlast' := (hlast.le_iff h.published).mpr hstop
    have hlene := e.length_eq
    have hbefore : w.i < c.log.bufLastWrittenIndex := by omega
    obtain ⟨w', rfl, hsame, hi', hout⟩ := h.shared.round_set (w := { w with log := c.log, out := out }) rfl he
      (fun p hp hloc => h.shared.set p hp (hloc.trans_lt hbefore)) hend (by omega) hround
    obtain ⟨rfl, rfl, rfl⟩ : { c with log := w'.log } = c' ∧ w'.out = out' ∧
        some (.walk w' last none) = next := by
      simpa using hstep
    rw [hout]
    refine ⟨_, .walking (i + 1) stop, ((h.same hsame).writes e).goto t (.walking (i + 1) stop),
      .inr (.next hpc hlt (h.journal ▸ hget)), rfl, .walk (hi' ▸ hnext) hlast, ?_⟩
    simp only [Option.elim_some, CollectPc.rounds]
    simp only at hi'
    omega

/-- **A step in `collect` is at most one step of a consumer** if the thread finds the
bookmark where it takes it to be. -/
theorem Along.collectStep {p : CollectPc} (h : Along env S line old c ps out a) (hi : Cursor.Inv base a)
    (hp : Stands S (records ps) (some p) (a.pc t)) (hload : p = .read → P a)
    (hsteady : p.Steady c)
    (hstep : Memlog.collectStep env c out p = .ok (c', out', next)) :
    Advances env S line old P a t p c' ps out' next := by
  have hstop := hi.stops t
  generalize hpc : a.pc t = q at hp hstop
  cases hp with
  | read =>
    obtain ⟨rfl, rfl, rfl⟩ : c = c' ∧ out = out' ∧ some (.compare c.log.bufLastWrittenIndex) = next := by
      simpa [Memlog.collectStep] using hstep
    refine ⟨_, _, h.goto t _, .inr (.load hpc (hload rfl)), rfl, .compare h.published, ?_⟩
    simp only [Option.elim_some, CollectPc.rounds]
    omega
  | compare hat => exact h.compare hat hpc hsteady hstep
  | order hat hpos => exact h.order hat hpos hpc hstep
  | start hat _ => exact h.start hat hpc hsteady hstep
  | wrap hat hpos => exact h.wrap hat hpos hpc hstep
  | top hat hpos hw => exact h.top hat hpos hstop hw hpc hstep
  | walk hat hlast => exact h.walk hat hlast (hi.walks t _ _ hpc).1 hstop hpc hstep
  | @store bookmarkEnd stop hat =>
    obtain ⟨rfl, rfl, rfl⟩ : { c with collectorBookmark := bookmarkEnd } = c' ∧ out = out' ∧ none = next := by
      simpa [Memlog.collectStep] using hstep
    exact ⟨{ a.goto t .idle with cursor := stop }, .idle,
      ⟨h.shared.bookmark _, h.journal, h.published, hat, h.written⟩, .inr (.store hpc), rfl, .out,
        Nat.zero_lt_one⟩

/-- **A thread in `collect` can go on** if no line is too long. -/
theorem Along.collectStep_ok {p : CollectPc} (h : Along env S line old c ps out a)
    (hp : Stands S (records ps) (some p) (a.pc t)) (hshort : ∀ e ∈ records ps, (line e).length ≤ 4096) :
    ∃ r, Memlog.collectStep env c out p = .ok r := by
  have htotal := h.shared.total
  have hround : ∀ {w : Log.Walk} {last : ℕ} {rest : Option ℕ},
      (∃ r, Log.walkStep env last true { w with log := c.log, out := out } = .ok r) →
      ∃ r, Memlog.collectStep env c out (.walk w last rest) = .ok r := by
    rintro w last rest ⟨r, hr⟩
    simp only [Memlog.collectStep, hr, Loop.ok_bind]
    cases r with
    | again w => exact ⟨_, rfl⟩
    | done w => cases rest <;> exact ⟨_, rfl⟩
  generalize a.pc t = q at hp
  cases hp with
  | read | compare _ | order _ _ | start _ _ | wrap _ _ => exact ⟨_, rfl⟩
  | top hat hpos hw =>
    refine hround (h.shared.round_ok rfl le_rfl (hw.imp_right fun h => h.ge) (fun e he _ => ?_) hshort)
    have hend := he.end_le
    exact hend.trans htotal.le
  | walk hat hlast =>
    have hle := hlast.le
    exact hround (h.shared.round_ok rfl (hle.trans htotal.le) (.inl hat.boundary)
      (fun e he hlt => hlast.boundary.end_le he hlt) hshort)
  | store _ => exact ⟨_, rfl⟩

end Advances

end Along

/-! ### The calls of `traceVargs` -/

section Calls

variable {env : Env} {S : ℕ} {line : Entry → List UInt8} {old : List Chunk} {c : Collect}
  {ps pre post : List Producer}
  {e : Entry} {s s' : Stage} {log : Log} {out : List Chunk} {a : Cursor.State Entry Thread}

/-- An index that is not reduced stays so. -/
theorem allocate_fresh {call : Call} (ha : Allocated env c.log call log e)
    (hle : c.log.ringBuffer.currentIndex ≤ 4294957055) (hfresh : c.log.ringBuffer.indexWrapAroundCount = 0) :
    log.ringBuffer.indexWrapAroundCount = 0 := by
  have hroll : c.log.ringBuffer.rollOver = c.log.ringBuffer := by
    apply if_neg
    rw [RingBuffer.isIndexRollingOver_iff]
    omega
  rw [ha.ringBuffer, hroll]
  exact hfresh

theorem store_fresh {rb rb' : RingBuffer} {off : ℕ} {src : List UInt8} (h : rb.store off src = .ok rb') :
    rb'.indexWrapAroundCount = rb.indexWrapAroundCount := by
  unfold RingBuffer.store at h
  split at h <;> cases h
  rfl

theorem set_fresh (h : c.log.set e = .ok log) :
    log.ringBuffer.indexWrapAroundCount = c.log.ringBuffer.indexWrapAroundCount := by
  obtain ⟨rb, hset, h⟩ := Loop.bind_eq_ok.mp h
  obtain rfl := Except.ok.inj h
  unfold RingBuffer.set at hset
  dsimp only at hset
  split at hset
  · exact store_fresh hset
  · obtain ⟨rb1, hrb1, hset⟩ := Loop.bind_eq_ok.mp hset
    exact (store_fresh hset).trans (store_fresh hrb1)

theorem Shared.allocate {call : Call} (h : Shared env S line c ps) (ha : Allocated env c.log call log e)
    (hp : e.Prints env (line e)) (htotal : (flat (records (ps ++ [⟨e, .allocated⟩]))).length < S) :
    Shared env S line { c with log := log } (ps ++ [⟨e, .allocated⟩]) := by
  have hplaced := h.placed.allocate h.size_lt ha hp htotal
  have hloc := hplaced.location
  have hlast := h.lastWritten
  have hrecords : records (ps ++ [⟨e, .allocated⟩]) = records ps ++ [e] := records_append _ _
  have hcurrent := h.placed.current
  have hbefore := h.total
  have hsize := h.size_lt
  refine ⟨hplaced, htotal, h.size_ge, h.size_lt, ?_, ?_, ?_, allocate_fresh ha (by omega) h.fresh⟩
  · intro p hp hbefore
    rw [ha.lastWritten] at hbefore
    rcases List.mem_append.mp hp with hp | hp
    · exact h.set p hp hbefore
    · obtain rfl := List.mem_singleton.mp hp
      have hle := hlast.le
      simp only at hbefore
      omega
  · rw [ha.lastWritten, hrecords]
    exact hlast.concat e
  · intro p hp index hindex
    rw [hrecords]
    rcases List.mem_append.mp hp with hp | hp
    · exact (h.read p hp index hindex).concat e
    · obtain rfl := List.mem_singleton.mp hp
      cases hindex

theorem Shared.stage (h : Shared env S line c (pre ++ ⟨e, s⟩ :: post)) (hs : s' ≠ .allocated)
    (hplaced : Placed env S line log (pre ++ ⟨e, s'⟩ :: post))
    (hset : ∀ p ∈ pre ++ ⟨e, s⟩ :: post, p.entry.location < log.bufLastWrittenIndex → p.stage ≠ .allocated)
    (hlast : Boundary (records (pre ++ ⟨e, s⟩ :: post)) log.bufLastWrittenIndex)
    (hread : ∀ index, s' = .read index → Boundary (records (pre ++ ⟨e, s⟩ :: post)) index)
    (hfresh : log.ringBuffer.indexWrapAroundCount = 0) :
    Shared env S line { c with log := log } (pre ++ ⟨e, s'⟩ :: post) := by
  have hmem : ∀ p ∈ pre ++ ⟨e, s'⟩ :: post, p ∈ pre ++ ⟨e, s⟩ :: post ∨ p = ⟨e, s'⟩ := by
    intro p hp
    simp only [List.mem_append, List.mem_cons] at hp ⊢
    rcases hp with hp | hp | hp
    · exact .inl (.inl hp)
    · exact .inr hp
    · exact .inl (.inr (.inr hp))
  have htotal := h.total
  rw [records_stage pre post e s s'] at hlast htotal
  refine ⟨hplaced, htotal, h.size_ge, h.size_lt, ?_, hlast, ?_, hfresh⟩
  · intro p hp hbefore
    rcases hmem p hp with hp | rfl
    · exact hset p hp hbefore
    · exact hs
  · intro p hp index hindex
    rw [records_stage pre post e s' s]
    rcases hmem p hp with hp | rfl
    · exact h.read p hp index hindex
    · exact hread index hindex

theorem Shared.set_ok (h : Shared env S line c (pre ++ ⟨e, .allocated⟩ :: post))
    (hset : c.log.set e = .ok log) :
    log.bufLastWrittenIndex = c.log.bufLastWrittenIndex ∧
      Shared env S line { c with log := log } (pre ++ ⟨e, .set⟩ :: post) := by
  obtain ⟨log', hset', hlast, hplaced⟩ := h.placed.set h.size_lt h.total
  obtain rfl := Except.ok.inj (hset.symm.trans hset')
  refine ⟨hlast, h.stage (by simp) hplaced ?_ ?_ nofun ((set_fresh hset).trans h.fresh)⟩
  · rw [hlast]
    exact h.set
  · rw [hlast]
    exact h.lastWritten

theorem Shared.read_current (h : Shared env S line c (pre ++ ⟨e, .set⟩ :: post)) :
    Shared env S line c (pre ++ ⟨e, .read c.log.ringBuffer.getCurrentIndex⟩ :: post) := by
  have hcurrent := h.placed.current
  refine h.stage (by simp) (h.placed.stage (by simp) (by simp)) h.set h.lastWritten
    (fun index hindex => ?_) h.fresh
  obtain rfl := Stage.read.inj hindex
  rw [RingBuffer.getCurrentIndex, hcurrent]
  exact .inl rfl

theorem Shared.store {index : ℕ} (h : Shared env S line c (pre ++ ⟨e, .read index⟩ :: post))
    (horder : InOrder c.log (pre ++ ⟨e, .read index⟩ :: post) index) :
    Shared env S line { c with log := c.log.setLastWrittenIndex index } (pre ++ ⟨e, .stored⟩ :: post) := by
  have hplaced : Placed env S line c.log (pre ++ ⟨e, .stored⟩ :: post) := h.placed.stage (by simp) (by simp)
  exact h.stage (by simp) (hplaced.of_ring rfl) horder.2
    (h.read ⟨e, .read index⟩ (by simp) index rfl) nofun h.fresh

theorem Along.allocate {call : Call} (h : Along env S line old c ps out a)
    (ha : Allocated env c.log call log e) (hp : e.Prints env (line e))
    (htotal : (flat (records (ps ++ [⟨e, .allocated⟩]))).length < S) :
    Along env S line old { c with log := log } (ps ++ [⟨e, .allocated⟩]) out
      { a with journal := a.journal ++ [e] } := by
  have hrecords : records (ps ++ [⟨e, .allocated⟩]) = records ps ++ [e] := records_append _ _
  refine ⟨h.shared.allocate ha hp htotal, by rw [hrecords, h.journal], ?_, ?_, h.written⟩
  · rw [hrecords, ha.lastWritten]
    exact h.published.concat e
  · rw [hrecords]
    exact h.cursor.concat e

theorem Along.set (h : Along env S line old c (pre ++ ⟨e, .allocated⟩ :: post) out a)
    (hset : c.log.set e = .ok log) :
    Along env S line old { c with log := log } (pre ++ ⟨e, .set⟩ :: post) out a := by
  obtain ⟨hlast, hshared⟩ := h.shared.set_ok hset
  have hrecords := records_stage pre post e .allocated .set
  refine ⟨hshared, hrecords ▸ h.journal, ?_, ?_, h.written⟩
  · rw [← hrecords, hlast]
    exact h.published
  · rw [← hrecords]
    exact h.cursor

theorem Along.read (h : Along env S line old c (pre ++ ⟨e, .set⟩ :: post) out a) :
    Along env S line old c (pre ++ ⟨e, .read c.log.ringBuffer.getCurrentIndex⟩ :: post) out a := by
  have hrecords := records_stage pre post e .set (.read c.log.ringBuffer.getCurrentIndex)
  exact ⟨h.shared.read_current, hrecords ▸ h.journal, hrecords ▸ h.published, hrecords ▸ h.cursor, h.written⟩

/-- A call that publishes in order moves the end of what is published. -/
theorem Along.store {index : ℕ} {P : Cursor.State Entry Thread → Prop}
    (h : Along env S line old c (pre ++ ⟨e, .read index⟩ :: post) out a)
    (horder : InOrder c.log (pre ++ ⟨e, .read index⟩ :: post) index) :
    ∃ a', Along env S line old { c with log := c.log.setLastWrittenIndex index }
      (pre ++ ⟨e, .stored⟩ :: post) out a' ∧
      Cursor.Step P a a' ∧ a'.pc = a.pc := by
  have hindex := h.shared.read ⟨e, .read index⟩ (by simp) index rfl
  have hrecords := records_stage pre post e (.read index) .stored
  obtain ⟨n, hn⟩ := exists_at hindex
  have hle := (h.published.le_iff hn).mp horder.1
  exact ⟨{ a with published := n },
    ⟨h.shared.store horder, hrecords ▸ h.journal, hrecords ▸ hn, hrecords ▸ h.cursor,
    h.written⟩, .publish hle (h.journal ▸ hn.1), rfl⟩

end Calls

end System
end Memlog

/-
# Many producers and the collector

Calls of `traceVargs` in any number, interleaved with each other and with `collect`.
A call has four steps in which it touches what it shares: it allocates its bytes, it
sets them, it reads the index of the ring, and it stores what it read as the last
written index (`traceVargs_eq`). A `collect` is one step. `Run` is a run of them,
with the calls in the order of their allocations.

The index that a call reads covers the bytes of every call that has allocated
before, set or not, and two calls may store what they read in the other order. So
the collector may pass over bytes that are set later, or go back; a `collect` that
does neither is settled (`Settled`).

Over these, what the producers leave for the collector: the ring holds the records
whose bytes are set, in the order of their locations, and zeros elsewhere (`Placed`),
and the last written index lies between two records (`Published`).

Key definitions: `Stage`, `Producer`, `Run`, `Settled`, `Placed`, `Published`.
-/
import Memlog.Laid

namespace Memlog

open Circular

/-! ### A call in four steps -/

/-- The bytes of a record are copied to the ring. -/
def Log.set (log : Log) (e : Entry) : Except Fault Log := do
  let rb ← log.ringBuffer.set e.location e.bytes
  return { log with ringBuffer := rb }

/-- **A call without interference** makes its four steps one after the other. -/
theorem traceVargs_eq (env : Env) (log : Log) (call : Call) :
    log.traceVargs env call = (do
      let (log, e) ← log.allocate env call
      let log ← log.set e
      let index := log.ringBuffer.getCurrentIndex
      return (log.setLastWrittenIndex index, e)) := by
  unfold Log.traceVargs Log.allocate Log.set
  cases Log.stage env call with
  | error e => rfl
  | ok args =>
    simp only [Loop.ok_bind, Loop.pure_eq_ok]
    generalize hrb : RingBuffer.set _ _ _ = r
    cases r with
    | error e => rfl
    | ok rb => rfl

section Allocated

variable {env : Env} {log log' : Log} {call : Call} {e : Entry}

theorem Allocated.prints {text : Call → List UInt8} (h : Allocated env log call log' e)
    (hcall : Renders env text call) :
    e.Prints env (e.line env text) := by
  rw [Entry.line, h.forCall]
  exact Entry.prints_of_staged h.staged (by rw [h.header]; rfl) hcall

end Allocated

/-! ### Runs -/

/-- How far a call is: it has allocated its bytes, it has set them, it has read the
index of the ring, or it has stored that. -/
inductive Stage where
  | allocated
  | set
  | read (index : ℕ)
  | stored
deriving DecidableEq

/-- A call of `traceVargs` that has allocated the bytes of its record. -/
structure Producer where
  entry : Entry
  stage : Stage

/-- The records of calls. -/
def records (ps : List Producer) : List Entry := ps.map Producer.entry

/-- A call sets its record as a whole: none of its bytes are copied, or all of them. -/
def Producer.copy (p : Producer) : Copy := ⟨p.entry, if p.stage = .allocated then 0 else p.entry.bytes.length⟩

theorem Producer.copy_set (e : Entry) {s : Stage} (h : s ≠ .allocated) :
    copy ⟨e, s⟩ = ⟨e, e.bytes.length⟩ := by
  rw [copy, if_neg h]

namespace Producers

/-- Runs of any number of calls, in any interleaving: the collector, the calls that
have allocated, in this order, and what was written to the stream. `Q` is what may be
logged, and `P` the condition under which a `collect` is made. -/
inductive Run (env : Env) (S : ℕ) (h0 : 0 < S) (h1 : S < 2147483648) (Q : Call → Prop)
    (P : Collect → List Producer → Prop) : Collect → List Producer → List Chunk → Prop
  | new : Run env S h0 h1 Q P (Collect.new S h0 h1) [] []
  | allocate {c ps out call log e} : Run env S h0 h1 Q P c ps out → Q call →
      c.log.allocate env call = .ok (log, e) →
      Run env S h0 h1 Q P { c with log := log } (ps ++ [⟨e, .allocated⟩]) out
  | set {c pre e post out log} : Run env S h0 h1 Q P c (pre ++ ⟨e, .allocated⟩ :: post) out →
      c.log.set e = .ok log → Run env S h0 h1 Q P { c with log := log } (pre ++ ⟨e, .set⟩ :: post) out
  | read {c pre e post out} : Run env S h0 h1 Q P c (pre ++ ⟨e, .set⟩ :: post) out →
      Run env S h0 h1 Q P c (pre ++ ⟨e, .read c.log.ringBuffer.getCurrentIndex⟩ :: post) out
  | store {c pre e index post out} : Run env S h0 h1 Q P c (pre ++ ⟨e, .read index⟩ :: post) out →
      Run env S h0 h1 Q P { c with log := c.log.setLastWrittenIndex index } (pre ++ ⟨e, .stored⟩ :: post) out
  | collect {c ps out fuel c' new} : Run env S h0 h1 Q P c ps out → P c ps →
      c.collect env fuel = .ok (c', new) →
      Run env S h0 h1 Q P c' ps (out ++ new)

/-- From `b` up to `last`, no record whose bytes are set starts behind one whose bytes
are not. -/
def Gapless (b last : ℕ) (ps : List Producer) : Prop :=
  ∀ p ∈ ps, ∀ q ∈ ps, b ≤ p.entry.location → p.entry.location < q.entry.location → q.entry.location ≤ last →
    q.stage ≠ .allocated → p.stage ≠ .allocated

/-- The last written index is not behind the bookmark, and there is no gap between
them. -/
structure Settled (c : Collect) (ps : List Producer) : Prop where
  ahead : c.collectorBookmark ≤ c.log.bufLastWrittenIndex
  gapless : Gapless c.collectorBookmark c.log.bufLastWrittenIndex ps

/-! ### What the ring holds -/

theorem records_append (ps qs : List Producer) : records (ps ++ qs) = records ps ++ records qs :=
  List.map_append

theorem records_cons (p : Producer) (ps : List Producer) : records (p :: ps) = p.entry :: records ps := rfl

theorem records_stage (pre post : List Producer) (e : Entry) (s s' : Stage) :
    records (pre ++ ⟨e, s⟩ :: post) = records (pre ++ ⟨e, s'⟩ :: post) := by
  rw [records_append, records_append, records_cons, records_cons]

theorem flat_records_concat (ps : List Producer) (e : Entry) (s : Stage) :
    (flat (records (ps ++ [⟨e, s⟩]))).length = (flat (records ps)).length + e.bytes.length := by
  rw [records_append, flat_append, List.length_append]
  exact congrArg _ (congrArg _ (List.append_nil _))

/-- Two calls are the same, or the record of one lies before that of the other. -/
theorem location_cases {ps pre post : List Producer} {p q : Producer}
    (hloc : ∀ x e, StartsAt (records ps) x e → e.location = x) (hps : ps = pre ++ q :: post) (hp : p ∈ ps) :
    p = q ∨ p.entry.location + p.entry.bytes.length ≤ (flat (records pre)).length ∨
      (flat (records pre)).length + q.entry.bytes.length ≤ p.entry.location := by
  obtain ⟨pre', post', hps'⟩ := List.append_of_mem hp
  have hat := hloc _ p.entry ⟨records pre', records post', by rw [hps', records_append]; rfl, rfl⟩
  rcases Split.cons_cases (hps'.symm.trans hps) with ⟨-, hpq, -⟩ | ⟨mid, rfl, -⟩ | ⟨mid, rfl, -⟩
  · exact .inl hpq
  · rw [records_append, records_cons, flat_append, flat_cons, List.length_append, List.length_append] at hat
    omega
  · rw [records_append, records_cons, flat_append, flat_cons, List.length_append, List.length_append]
    omega

def copies (ps : List Producer) : List Copy := ps.map Producer.copy

theorem entries_copies (ps : List Producer) : Copies.entries (copies ps) = records ps := List.map_map

theorem copies_split (pre post : List Producer) (p : Producer) :
    copies (pre ++ p :: post) = copies pre ++ p.copy :: copies post := List.map_append

/-- The calls have allocated the bytes from the start of the ring on, and the block
holds what has been set of them. -/
structure Placed (env : Env) (S : ℕ) (line : Entry → List UInt8) (log : Log) (ps : List Producer) : Prop where
  laid : Laid S log (copies ps)
  prints : ∀ e ∈ records ps, e.Prints env (line e)

section Placed

variable {env : Env} {S : ℕ} {line : Entry → List UInt8} {log log' : Log}
  {ps pre post : List Producer} {e : Entry}

theorem Placed.new (h0 : 0 < S) (h1 : S < 2147483648) : Placed env S line (Log.new S h0 h1) [] :=
  ⟨.new h0 h1, fun _ h => absurd h List.not_mem_nil⟩

theorem Placed.size (h : Placed env S line log ps) : log.ringBuffer.size = S := h.laid.size

theorem Placed.current (h : Placed env S line log ps) :
    log.ringBuffer.currentIndex = (flat (records ps)).length :=
  entries_copies ps ▸ h.laid.current

theorem Placed.located (h : Placed env S line log ps) : ∀ x e, StartsAt (records ps) x e → e.location = x :=
  entries_copies ps ▸ h.laid.located

theorem Placed.sound (h : Placed env S line log ps) (e : Entry) (he : e ∈ records ps) :
    e.Genuine ∧ e.Prints env (line e) := by
  obtain ⟨p, hp, rfl⟩ := List.mem_map.mp he
  exact ⟨(h.laid.copied p.copy (List.mem_map_of_mem hp)).1, h.prints _ he⟩

theorem Placed.allocate {call : Call} (h : Placed env S line log ps) (h1 : S < 2147483648)
    (ha : Allocated env log call log' e) (hp : e.Prints env (line e))
    (htotal : (flat (records (ps ++ [⟨e, .allocated⟩]))).length < S) :
    Placed env S line log' (ps ++ [⟨e, .allocated⟩]) := by
  have hcopies : copies (ps ++ [⟨e, .allocated⟩]) = copies ps ++ [⟨e, 0⟩] := List.map_append
  rw [← entries_copies, hcopies] at htotal
  refine ⟨hcopies ▸ h.laid.allocate h1 ha htotal, fun f hf => ?_⟩
  rw [records_append] at hf
  rcases List.mem_append.mp hf with hf | hf
  · exact h.prints f hf
  · obtain rfl := List.mem_singleton.mp hf
    exact hp

theorem Placed.location {s : Stage} (h : Placed env S line log (pre ++ ⟨e, s⟩ :: post)) :
    e.location = (flat (records pre)).length :=
  h.located _ e ⟨records pre, records post, records_append _ _, rfl⟩

/-- A call sets its bytes, and no others: it copies all of them. -/
theorem Placed.set (h : Placed env S line log (pre ++ ⟨e, .allocated⟩ :: post)) (h1 : S < 2147483648)
    (htotal : (flat (records (pre ++ ⟨e, .allocated⟩ :: post))).length < S) :
    ∃ log', log.set e = .ok log' ∧ log'.bufLastWrittenIndex = log.bufLastWrittenIndex ∧
      Placed env S line log' (pre ++ ⟨e, .set⟩ :: post) := by
  have hlaid := h.laid
  rw [← entries_copies, copies_split] at htotal
  rw [copies_split] at hlaid
  obtain ⟨rb, hset, hlaid'⟩ := hlaid.copy h1 htotal (c := ⟨e, 0⟩) (n := e.bytes.length) (Nat.zero_add _).le
  simp only [Nat.add_zero, Nat.zero_add, List.drop_zero, List.take_length] at hset hlaid'
  refine ⟨{ log with ringBuffer := rb }, by rw [Log.set, hset]; rfl, rfl, ?_, ?_⟩
  · rw [copies_split]
    exact hlaid'
  · rw [records_stage pre post e .set .allocated]
    exact h.prints

theorem Placed.stage {s s' : Stage} (h : Placed env S line log (pre ++ ⟨e, s⟩ :: post)) (hs : s ≠ .allocated)
    (hs' : s' ≠ .allocated) : Placed env S line log (pre ++ ⟨e, s'⟩ :: post) := by
  have hcopies : copies (pre ++ ⟨e, s'⟩ :: post) = copies (pre ++ ⟨e, s⟩ :: post) := by
    rw [copies_split, copies_split, Producer.copy_set e hs, Producer.copy_set e hs']
  exact ⟨hcopies ▸ h.laid, records_stage pre post e s' s ▸ h.prints⟩

theorem Placed.entryAt {s : Stage} (h : Placed env S line log (pre ++ ⟨e, s⟩ :: post)) (hs : s ≠ .allocated)
    (htotal : (flat (records (pre ++ ⟨e, s⟩ :: post))).length < S) :
    log.ringBuffer.entryAt e.location = some e.bytes := by
  rw [← entries_copies] at htotal
  have hread := h.laid.read htotal (c := ⟨e, e.bytes.length⟩)
    (by rw [copies_split, Producer.copy_set e hs]; simp)
  rw [Copy.content_complete rfl, ← h.size] at hread
  exact (h.sound e (by rw [records_append]; simp [records])).1.entryAt hread

/-- Records whose bytes are all set lie one behind the other. -/
theorem Placed.recordsAt (h : Placed env S line log ps) (htotal : (flat (records ps)).length < S)
    (hset : ∀ p ∈ ps, p.stage ≠ .allocated) : RecordsAt log.ringBuffer 0 (records ps) := by
  suffices hsuffix : ∀ pre post, ps = pre ++ post →
      RecordsAt log.ringBuffer (flat (records pre)).length (records post) from hsuffix [] ps rfl
  intro pre post hps
  induction post generalizing pre with
  | nil => exact trivial
  | cons p post ih =>
    have hentry : log.ringBuffer.entryAt (flat (records pre)).length = some p.entry.bytes := by
      subst hps
      rw [← h.location]
      exact h.entryAt (hset p (by simp)) htotal
    have hrest := ih (pre ++ [p]) (by rw [hps, List.append_assoc]; rfl)
    rw [flat_records_concat] at hrest
    exact ⟨hentry, hrest⟩

theorem Placed.blank (h : Placed env S line log (pre ++ ⟨e, .allocated⟩ :: post))
    (htotal : (flat (records (pre ++ ⟨e, .allocated⟩ :: post))).length < S) {x : ℕ} (hx : e.location ≤ x)
    (hlt : x < e.location + e.bytes.length) : log.ringBuffer.Blank x := by
  rw [← entries_copies] at htotal
  exact h.laid.blank htotal (c := ⟨e, 0⟩) (by rw [copies_split]; simp [Producer.copy]) hx hlt

theorem Placed.blank_behind (h : Placed env S line log ps) {x : ℕ}
    (hx : (flat (records ps)).length ≤ x) (hS : x < S) :
    log.ringBuffer.Blank x :=
  h.laid.blank_behind (entries_copies ps ▸ hx) hS

theorem Placed.of_ring (h : Placed env S line log ps) (hrb : log'.ringBuffer = log.ringBuffer) :
    Placed env S line log' ps :=
  ⟨h.laid.of_ring hrb, h.prints⟩

theorem Placed.same (h : Placed env S line log ps) (hs : log.Same log') : Placed env S line log' ps :=
  h.of_ring hs.ringBuffer

end Placed

/-! ### What is published -/

/-- A record starts at `x`, or the journal ends there. -/
def Boundary (es : List Entry) (x : ℕ) : Prop := x = (flat es).length ∨ ∃ e, StartsAt es x e

theorem Boundary.le {es : List Entry} {x : ℕ} (h : Boundary es x) : x ≤ (flat es).length := by
  rcases h with rfl | ⟨e, he⟩
  · exact Nat.le_refl _
  · exact (Nat.le_add_right _ _).trans he.end_le

theorem Boundary.split {es : List Entry} {x : ℕ} (h : Boundary es x) :
    ∃ pre post, es = pre ++ post ∧ (flat pre).length = x := by
  rcases h with rfl | ⟨e, pre, post, heq, hx⟩
  · exact ⟨es, [], (List.append_nil es).symm, rfl⟩
  · exact ⟨pre, e :: post, heq, hx⟩

theorem Boundary.concat {es : List Entry} {x : ℕ} (h : Boundary es x) (e : Entry) :
    Boundary (es ++ [e]) x := by
  rcases h with rfl | ⟨f, hf⟩
  · exact .inr ⟨e, es, [], rfl, rfl⟩
  · exact .inr ⟨f, hf.append [e]⟩

theorem Boundary.end_le {es : List Entry} {x y : ℕ} {e : Entry} (h : Boundary es y)
    (he : StartsAt es x e) (hxy : x < y) :
    x + e.bytes.length ≤ y := by
  rcases h with rfl | ⟨f, hf⟩
  · exact he.end_le
  · have hpos := f.length_eq
    rcases he.disjoint hf with ⟨rfl, -⟩ | hle | hle
    · exact absurd hxy (Nat.lt_irrefl x)
    · exact hle
    · omega

/-- The last written index, and what calls have read to store it. -/
structure Published (log : Log) (ps : List Producer) : Prop where
  lastWritten : Boundary (records ps) log.bufLastWrittenIndex
  read : ∀ p ∈ ps, ∀ index, p.stage = .read index → 0 < index ∧ Boundary (records ps) index
  set : 0 < log.bufLastWrittenIndex → ∃ p ∈ ps, p.stage ≠ .allocated
  stored : ∀ p ∈ ps, p.stage = .stored → 0 < log.bufLastWrittenIndex

section Published

variable {log log' : Log} {ps pre post : List Producer} {e : Entry}

theorem Published.new {S : ℕ} (h0 : 0 < S) (h1 : S < 2147483648) : Published (Log.new S h0 h1) [] :=
  ⟨.inl rfl, by simp, fun h => absurd h (Nat.lt_irrefl 0), by simp⟩

theorem Published.allocate (h : Published log ps)
    (hlast : log'.bufLastWrittenIndex = log.bufLastWrittenIndex) (e : Entry) :
    Published log' (ps ++ [⟨e, .allocated⟩]) := by
  have hrecords : records (ps ++ [⟨e, .allocated⟩]) = records ps ++ [e] := records_append _ _
  refine ⟨by rw [hrecords, hlast]; exact h.lastWritten.concat e, ?_, ?_, ?_⟩
  · intro p hp index hstage
    rcases List.mem_append.mp hp with hp | hp
    · obtain ⟨hpos, hindex⟩ := h.read p hp index hstage
      rw [hrecords]
      exact ⟨hpos, hindex.concat e⟩
    · rw [List.mem_singleton.mp hp] at hstage
      cases hstage
  · intro hpos
    rw [hlast] at hpos
    obtain ⟨p, hp, hset⟩ := h.set hpos
    exact ⟨p, List.mem_append_left _ hp, hset⟩
  · intro p hp hstage
    rw [hlast]
    rcases List.mem_append.mp hp with hp | hp
    · exact h.stored p hp hstage
    · rw [List.mem_singleton.mp hp] at hstage
      cases hstage

theorem Published.stage {s s' : Stage} (h : Published log (pre ++ ⟨e, s⟩ :: post)) (hs' : s' ≠ .allocated)
    (hread : ∀ index, s' = .read index → 0 < index ∧ Boundary (records (pre ++ ⟨e, s⟩ :: post)) index)
    (hlast : Boundary (records (pre ++ ⟨e, s⟩ :: post)) log'.bufLastWrittenIndex)
    (hpos : 0 < log.bufLastWrittenIndex → 0 < log'.bufLastWrittenIndex)
    (hstored : s' = .stored → 0 < log'.bufLastWrittenIndex) : Published log' (pre ++ ⟨e, s'⟩ :: post) := by
  have hrecords := records_stage pre post e s' s
  have hmem : ∀ p ∈ pre ++ ⟨e, s'⟩ :: post, p = ⟨e, s'⟩ ∨ p ∈ pre ++ ⟨e, s⟩ :: post := by
    intro p hp
    rcases List.mem_append.mp hp with hp | hp
    · exact .inr (List.mem_append_left _ hp)
    · rcases List.mem_cons.mp hp with rfl | hp
      · exact .inl rfl
      · exact .inr (List.mem_append_right _ (List.mem_cons_of_mem _ hp))
  refine ⟨by rw [hrecords]; exact hlast, ?_, fun _ => ⟨⟨e, s'⟩, by simp, hs'⟩, ?_⟩
  · intro p hp index hstage
    rw [hrecords]
    rcases hmem p hp with rfl | hp
    · exact hread index hstage
    · exact h.read p hp index hstage
  · intro p hp hstage
    rcases hmem p hp with rfl | hp
    · exact hstored hstage
    · exact hpos (h.stored p hp hstage)

end Published

end Producers
end Memlog

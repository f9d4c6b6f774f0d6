/-
# The collector

`src/src/lib/collector.cpp`: the background reader keeps a bookmark into the
ring and, each time it collects, dumps what lies between the bookmark and the
last written index: one range, or, when the bookmark is behind it in the ring,
the range up to the end of the ring and the range from its start.

The stream is the list of what was written to it.

`shallCollect` is to tell whether more bytes are unread than the threshold, a
share of the ring; `Measured` says where it does (`shallCollect_iff`). It always
does with the percentage a collector starts with (`measured_default`).
-/
import Memlog.Log

namespace Memlog

/-- `Log::Collect` with its log. -/
structure Collect where
  log : Log
  collectorBookmark : ℕ

namespace Collect

/-- `DEFAULT_BUFFER_THRESHOLD_PCT`, what `bufferThresholdPct_` starts with. -/
def DEFAULT_BUFFER_THRESHOLD_PCT : ℕ := 0

/-- The log and its collector when the program starts: the bookmark is the last
written index. -/
def new (lines : ℕ) (h0 : 0 < lines) (h1 : lines < 2147483648) : Collect where
  log := .new lines h0 h1
  collectorBookmark := 0

/-- `collect`: the collector with its new bookmark, and what it wrote. -/
def collect (env : Env) (fuel : ℕ) (c : Collect) : Except Fault (Collect × List Chunk) := do
  let rb := c.log.ringBuffer
  let bookmarkEnd := c.log.bufLastWrittenIndex
  if rb.normalize c.collectorBookmark = rb.normalize bookmarkEnd then
    return ({ c with collectorBookmark := bookmarkEnd }, [])
  else if rb.normalize c.collectorBookmark < rb.normalize bookmarkEnd then
    let (bookmarkEnd, log, out) ← c.log.dumpRange env fuel c.collectorBookmark (u32Sub bookmarkEnd 1) true
    return (⟨log, bookmarkEnd⟩, out)
  else
    let rangeEnd := bookmarkEnd
    let (_, log, top) ← c.log.dumpRange env fuel c.collectorBookmark (u32Sub rb.size 1) true
    let (bookmarkEnd, log, bottom) ← log.dumpRange env fuel 0 (u32Sub rangeEnd 1) true
    return (⟨log, bookmarkEnd⟩, top ++ bottom)

/-- `getBufferThreshold`: the product is a `uint32_t`. -/
def getBufferThreshold (bufferThresholdPct : ℕ) (c : Collect) : ℕ :=
  u32 (bufferThresholdPct * c.log.ringBuffer.size) / 100

/-- `shallCollect`: whether the worker thread collects or idles. -/
def shallCollect (bufferThresholdPct : ℕ) (c : Collect) : Bool :=
  let rb := c.log.ringBuffer
  let last := rb.normalize c.log.bufLastWrittenIndex
  let bookmark := rb.normalize c.collectorBookmark
  if last = bookmark then false
  else if c.getBufferThreshold bufferThresholdPct < u32Sub last bookmark then true
  else
    let sizeBlockEnd := u32Sub (rb.normalize UINT32_MAX) bookmark
    let sizeBlockStart := last
    if c.getBufferThreshold bufferThresholdPct < u32 (sizeBlockEnd + sizeBlockStart) then true else false

/-! ### How much is unread -/

/-- Where the last written index is in the ring. -/
def last (c : Collect) : ℕ := c.log.ringBuffer.normalize c.log.bufLastWrittenIndex

/-- Where the bookmark is in the ring. -/
def bookmark (c : Collect) : ℕ := c.log.ringBuffer.normalize c.collectorBookmark

/-- The bytes from the bookmark on, around the ring, to the last written index. -/
def unread (c : Collect) : ℕ := (c.last + (c.log.ringBuffer.size - c.bookmark)) % c.log.ringBuffer.size

/-- Nothing is unread, or more than the threshold is; or the last written index is
behind the bookmark and the bytes do not pass the threshold, whose product has 32 bits,
even with the cells before that of `UINT32_MAX`, which the test for the wrapped case
adds. -/
def Measured (bufferThresholdPct : ℕ) (c : Collect) : Prop :=
  let rb := c.log.ringBuffer
  c.last = c.bookmark ∨ bufferThresholdPct * rb.size / 100 < c.unread ∨
    (c.bookmark < c.last ∧ rb.normalize UINT32_MAX + c.unread ≤ u32 (bufferThresholdPct * rb.size) / 100)

section Threshold

variable {c : Collect}

theorem last_lt : c.last < c.log.ringBuffer.size := Nat.mod_lt _ c.log.ringBuffer.size_pos

theorem bookmark_lt : c.bookmark < c.log.ringBuffer.size := Nat.mod_lt _ c.log.ringBuffer.size_pos

/-- The product may lose its upper bits. -/
theorem getBufferThreshold_le (bufferThresholdPct : ℕ) :
    c.getBufferThreshold bufferThresholdPct ≤ bufferThresholdPct * c.log.ringBuffer.size / 100 :=
  Nat.div_le_div_right (Nat.mod_le _ _)

theorem getBufferThreshold_lt (bufferThresholdPct : ℕ) :
    c.getBufferThreshold bufferThresholdPct < 42949673 := by
  have h := u32_lt (bufferThresholdPct * c.log.ringBuffer.size)
  unfold getBufferThreshold
  omega

theorem unread_of_eq (h : c.last = c.bookmark) : c.unread = 0 := by
  rw [unread, h, Nat.add_sub_cancel' bookmark_lt.le, Nat.mod_self]

theorem unread_of_lt (h : c.bookmark < c.last) : c.unread = c.last - c.bookmark := by
  have hl := @last_lt c
  unfold unread
  rw [Nat.mod_eq_sub_mod (by omega), Nat.mod_eq_of_lt (by omega)]
  omega

theorem unread_of_gt (h : c.last < c.bookmark) :
    c.unread = c.last + (c.log.ringBuffer.size - c.bookmark) := by
  have hb := @bookmark_lt c
  exact Nat.mod_eq_of_lt (by omega)

theorem shallCollect_eq (bufferThresholdPct : ℕ) : c.shallCollect bufferThresholdPct =
    if c.last = c.bookmark then false
    else if c.getBufferThreshold bufferThresholdPct < u32Sub c.last c.bookmark then true
    else if c.getBufferThreshold bufferThresholdPct <
      u32 (u32Sub (c.log.ringBuffer.normalize UINT32_MAX) c.bookmark + c.last) then true else false := rfl

/-- What is answered for a last written index in front of the bookmark: the difference
passes every threshold. -/
theorem shallCollect_of_gt (hS : c.log.ringBuffer.size < 2147483648) (bufferThresholdPct : ℕ)
    (h : c.last < c.bookmark) : c.shallCollect bufferThresholdPct = true := by
  have hb := @bookmark_lt c
  have hlt := @getBufferThreshold_lt c bufferThresholdPct
  have hsub : c.getBufferThreshold bufferThresholdPct < u32Sub c.last c.bookmark := by
    unfold u32Sub u32
    rw [Nat.mod_eq_of_lt (by omega)]
    omega
  rw [shallCollect_eq, if_neg h.ne, if_pos hsub]

/-- Behind the bookmark the test for the wrapped case decides. -/
theorem shallCollect_of_lt (hS : c.log.ringBuffer.size < 2147483648) (bufferThresholdPct : ℕ)
    (h : c.bookmark < c.last) : c.shallCollect bufferThresholdPct = true ↔
      c.getBufferThreshold bufferThresholdPct < c.log.ringBuffer.normalize UINT32_MAX + c.unread := by
  have hl := @last_lt c
  have hm : c.log.ringBuffer.normalize UINT32_MAX < c.log.ringBuffer.size :=
    Nat.mod_lt _ c.log.ringBuffer.size_pos
  have hunread := unread_of_lt h
  have hsub : u32Sub c.last c.bookmark = c.unread := by rw [hunread, u32Sub_of_le h.le (by omega)]
  have hsum : u32 (u32Sub (c.log.ringBuffer.normalize UINT32_MAX) c.bookmark + c.last) =
      c.log.ringBuffer.normalize UINT32_MAX + c.unread := by
    rw [hunread]
    unfold u32Sub u32
    omega
  rw [shallCollect_eq, hsub, hsum, if_neg h.ne']
  split_ifs with h1 h2
  · exact ⟨fun _ => h1.trans_le (Nat.le_add_left _ _), fun _ => rfl⟩
  · exact ⟨fun _ => h2, fun _ => rfl⟩
  · exact ⟨fun h => absurd h (by decide), fun h => absurd h h2⟩

/-- **When to collect.** What is answered is whether more bytes are unread than the
threshold exactly where the bytes are measured. -/
theorem shallCollect_iff (c : Collect) (bufferThresholdPct : ℕ) (hS : c.log.ringBuffer.size < 2147483648) :
    (c.shallCollect bufferThresholdPct = true ↔ bufferThresholdPct * c.log.ringBuffer.size / 100 < c.unread) ↔
      c.Measured bufferThresholdPct := by
  have hle := @getBufferThreshold_le c bufferThresholdPct
  unfold Measured
  rcases Nat.lt_trichotomy c.last c.bookmark with hlt | heq | hgt
  · simp only [shallCollect_of_gt hS bufferThresholdPct hlt, true_iff]
    omega
  · have hfalse : c.shallCollect bufferThresholdPct = false := if_pos heq
    simp [hfalse, unread_of_eq heq, heq]
  · rw [shallCollect_of_lt hS bufferThresholdPct hgt]
    unfold getBufferThreshold at hle ⊢
    omega

/-- The threshold is half a ring of 4096 and 3000 bytes are unread. -/
theorem shallCollect_iff_example :
    let log := (Log.new 4096 (by decide) (by decide)).setLastWrittenIndex 3000
    (shallCollect 50 ⟨log, 0⟩ = true ↔ 50 * 4096 / 100 < unread ⟨log, 0⟩) ↔ Measured 50 ⟨log, 0⟩ :=
  shallCollect_iff ⟨(Log.new 4096 (by decide) (by decide)).setLastWrittenIndex 3000, 0⟩ 50 (by decide)

/-- With 100 bytes unread of a threshold of 2048 the worker collects: 4095 is added to
them. -/
theorem shallCollect_early :
    let c : Collect := ⟨(Log.new 4096 (by decide) (by decide)).setLastWrittenIndex 100, 0⟩
    ¬ (c.shallCollect 50 = true ↔ 50 * c.log.ringBuffer.size / 100 < c.unread) := by
  decide

/-- The percentage that a collector starts with hides the difference. -/
theorem measured_default (c : Collect) : c.Measured DEFAULT_BUFFER_THRESHOLD_PCT := by
  have hb := @bookmark_lt c
  unfold Measured DEFAULT_BUFFER_THRESHOLD_PCT
  simp only [Nat.zero_mul, Nat.zero_div]
  rcases Nat.lt_trichotomy c.last c.bookmark with hlt | heq | hgt
  · have hunread := unread_of_gt hlt
    omega
  · exact .inl heq
  · have hunread := unread_of_lt hgt
    omega

end Threshold

end Collect
end Memlog

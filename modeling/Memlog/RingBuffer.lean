/-
# The ring buffer

`src/src/lib/ringbuffer.{h,cpp}`: a block of `size_` bytes and a 32-bit index
that only grows. Callers name places by unreduced indices, and every access
reduces them (`normalize`). `get` and `set` copy in at most two pieces with
`memcpy`; a copy that leaves the block is `Fault.bounds`.

`allocate` hands out the index and advances it. Close to 2^32 it first reduces
the index; the thread-safe branch does so in a compare-and-swap loop, which
without interference succeeds in its first round (`Memlog.Allocate` has its
single steps).

Over these, what the block is: `get` reads and `set` writes a circular range
(`get_eq`, `set_eq`, in the terms of `Circular`), `compare` answers 0 when the
circular range holds the bytes (`compare_eq`), and `getString` copies the range
up to the first NUL (`getString_eq`); together they make the block a circular
array (`refines_circular`). A copy stays in the block exactly when its range ends
less than a turn behind the end of the block (`get_ok_iff`, `set_ok_iff`).
-/
import Memlog.Lib.Circular
import Memlog.Machine

namespace Memlog

/-- The block, its size, the next index to hand out, and how often that was
reduced (`stats_.indexWrapAroundCount`). -/
structure RingBuffer where
  size : ℕ
  size_pos : 0 < size
  size_lt : size < 4294967296
  buffer : ℕ → UInt8
  currentIndex : ℕ
  currentIndex_lt : currentIndex < 4294967296
  indexWrapAroundCount : ℕ

namespace RingBuffer

/-- The constructor: the block is zeroed. -/
def new (size : ℕ) (h0 : 0 < size) (h1 : size < 4294967296) : RingBuffer where
  size := size
  size_pos := h0
  size_lt := h1
  buffer := fun _ => 0
  currentIndex := 0
  currentIndex_lt := u32_zero_lt
  indexWrapAroundCount := 0

variable (rb : RingBuffer)

def getCurrentIndex : ℕ := rb.currentIndex

def hasWrappedAround : Bool := 0 < rb.indexWrapAroundCount

def normalize (index : ℕ) : ℕ := index % rb.size

def isIndexRollingOver (index : ℕ) : Bool := UINT32_MAX - 10240 < index

/-- The roll-over step of `allocate`: reduce the index when it is about to pass
2^32. -/
def rollOver : RingBuffer :=
  if isIndexRollingOver rb.currentIndex then
    { rb with
      currentIndex := rb.normalize rb.currentIndex
      currentIndex_lt := (Nat.mod_lt _ rb.size_pos).trans rb.size_lt
      indexWrapAroundCount := u32 (rb.indexWrapAroundCount + 1) }
  else rb

/-- The index advanced by `bufferLen`. -/
def advance (bufferLen : ℕ) : RingBuffer :=
  { rb with
    currentIndex := u32 (rb.currentIndex + bufferLen)
    currentIndex_lt := u32_lt _ }

/-- `allocate`: hand the index out and advance it. -/
def allocate (bufferLen : ℕ) : ℕ × RingBuffer :=
  (rb.rollOver.currentIndex, rb.rollOver.advance bufferLen)

/-- `buffer_[i]`. -/
def byteAt (i : ℕ) : Except Fault UInt8 :=
  if i < rb.size then .ok (rb.buffer i) else .error .bounds

/-- `memcpy(dst, &buffer_[off], length)`. -/
def load (off length : ℕ) : Except Fault (List UInt8) :=
  if off + length ≤ rb.size then .ok ((List.range length).map fun k => rb.buffer (off + k))
  else .error .bounds

/-- `memcpy(&buffer_[off], src, length)`. -/
def store (off : ℕ) (src : List UInt8) : Except Fault RingBuffer :=
  if off + src.length ≤ rb.size then
    .ok { rb with buffer := fun p => if off ≤ p then (src[p - off]?).getD (rb.buffer p) else rb.buffer p }
  else .error .bounds

def get (srcIndex length : ℕ) : Except Fault (List UInt8) := do
  let srcIndex := rb.normalize srcIndex
  if u32 (srcIndex + length) ≤ rb.size then
    rb.load srcIndex length
  else
    let copyLength := rb.size - srcIndex
    let top ← rb.load srcIndex copyLength
    let bottom ← rb.load 0 (u32Sub length copyLength)
    return top ++ bottom

def set (dstIndex : ℕ) (src : List UInt8) : Except Fault RingBuffer := do
  let dstIndex := rb.normalize dstIndex
  if u32 (dstIndex + src.length) ≤ rb.size then
    rb.store dstIndex src
  else
    let copyLength := rb.size - dstIndex
    let rb ← rb.store dstIndex (src.take copyLength)
    rb.store 0 (src.drop copyLength)

/-- The loop of `compare`, over the bytes of `p` not yet compared. -/
def compareFrom (bufferIndex : ℕ) : List UInt8 → Except Fault ℤ
  | [] => .ok 0
  | b :: p => do
    if (← rb.byteAt bufferIndex) ≠ b then return -1
    compareFrom (rb.normalize (u32 (bufferIndex + 1))) p

def compare (bufferIndex : ℕ) (p : List UInt8) : Except Fault ℤ :=
  rb.compareFrom (rb.normalize bufferIndex) p

/-- The loop of `getString`, with `left` bytes still allowed: the byte is read
before `di` is checked. -/
def getStringFrom : ℕ → ℕ → Except Fault (List UInt8)
  | left, bufferIndex => do
    let b ← rb.byteAt bufferIndex
    if b = 0 then return []
    match left with
    | 0 => return []
    | left + 1 => return b :: (← getStringFrom left (rb.normalize (u32 (bufferIndex + 1))))

/-- `getString`: the length, and what was copied. -/
def getString (bufferIndex : ℕ) : Except Fault (ℕ × List UInt8) := do
  let dst ← rb.getStringFrom rb.size (rb.normalize bufferIndex)
  return (dst.length, dst)

/-! ### Allocation -/

@[simp] theorem rollOver_size : rb.rollOver.size = rb.size := by
  unfold rollOver
  split <;> rfl

@[simp] theorem rollOver_buffer : rb.rollOver.buffer = rb.buffer := by
  unfold rollOver
  split <;> rfl

@[simp] theorem advance_size (n : ℕ) : (rb.advance n).size = rb.size := rfl

@[simp] theorem advance_buffer (n : ℕ) : (rb.advance n).buffer = rb.buffer := rfl

theorem rollOver_mod : rb.rollOver.currentIndex % rb.size = rb.currentIndex % rb.size := by
  unfold rollOver
  split
  · exact Nat.mod_mod _ _
  · rfl

theorem isIndexRollingOver_iff {index : ℕ} : isIndexRollingOver index = true ↔ 4294957055 < index := by
  have h : UINT32_MAX - 10240 = 4294957055 := by rw [UINT32_MAX]
  unfold isIndexRollingOver
  rw [h, decide_eq_true_eq]

/-- After the roll-over step a ring of less than 2^31 bytes has room before 2^32. -/
theorem rollOver_le (hS : rb.size < 2147483648) : rb.rollOver.currentIndex ≤ 4294957055 := by
  have hlt := Nat.mod_lt rb.currentIndex rb.size_pos
  by_cases h : isIndexRollingOver rb.currentIndex = true
  · rw [rollOver, if_pos h]
    simp only [normalize]
    omega
  · rw [rollOver, if_neg h]
    rw [isIndexRollingOver_iff] at h
    omega

theorem advance_current {n : ℕ} (h : rb.currentIndex + n < 4294967296) :
    (rb.advance n).currentIndex = rb.currentIndex + n := u32_of_lt h

/-! ### Copies -/

/-- `get` reads a circular range, as long as it leaves the block only once. -/
theorem get_wrapped {i n : ℕ} (hn : i % rb.size + n ≤ 2 * rb.size) (h32 : i % rb.size + n < 4294967296) :
    rb.get i n = .ok (Circular.read rb.size rb.buffer i n) := by
  have hi := Nat.mod_lt i rb.size_pos
  have hmod : Circular.read rb.size rb.buffer i n = Circular.read rb.size rb.buffer (i % rb.size) n :=
    Circular.read_congr (by rw [Nat.mod_mod]) n
  rw [hmod]
  unfold get
  simp only [normalize, u32_of_lt h32]
  split
  · -- in one piece
    rename_i h
    simp only [load, h, if_true, Circular.read]
    congr 1
    refine List.map_congr_left fun k hk => ?_
    have hk := List.mem_range.mp hk
    rw [Nat.mod_eq_of_lt (show i % rb.size + k < rb.size by omega)]
  · -- in two pieces: up to the end of the block, and from its start
    rename_i h
    have hsub : u32Sub n (rb.size - i % rb.size) = n - (rb.size - i % rb.size) :=
      u32Sub_of_le (by omega) (by omega)
    have hsplit : n = (rb.size - i % rb.size) + (n - (rb.size - i % rb.size)) := by omega
    have hload1 : i % rb.size + (rb.size - i % rb.size) ≤ rb.size := by omega
    have hload2 : 0 + (n - (rb.size - i % rb.size)) ≤ rb.size := by omega
    rw [hsub]
    simp only [load, if_pos hload1, if_pos hload2, Loop.ok_bind, Loop.pure_eq_ok]
    congr 1
    conv_rhs => rw [hsplit, Circular.read_append]
    congr 1
    · refine List.map_congr_left fun k hk => ?_
      have hk := List.mem_range.mp hk
      rw [Nat.mod_eq_of_lt (show i % rb.size + k < rb.size by omega)]
    · refine List.map_congr_left fun k hk => ?_
      have hk := List.mem_range.mp hk
      have : i % rb.size + (rb.size - i % rb.size) + k = k + rb.size := by omega
      rw [this, Nat.add_mod_right, Nat.mod_eq_of_lt (by omega), Nat.zero_add]

theorem get_eq {i n : ℕ} (hn : n ≤ rb.size) (h32 : i % rb.size + n < 4294967296) :
    rb.get i n = .ok (Circular.read rb.size rb.buffer i n) := by
  have hi := Nat.mod_lt i rb.size_pos
  exact rb.get_wrapped (by omega) h32

/-- Two copies that write the same cells with the same bytes. -/
theorem store_eq {i : ℕ} {src : List UInt8} (h : i + src.length ≤ rb.size) :
    rb.store i src = .ok { rb with buffer := Circular.write rb.size rb.buffer i src } := by
  simp only [store, h, if_true]
  congr 2
  funext p
  unfold Circular.write
  rcases Nat.lt_or_ge p rb.size with hp | hp
  · rw [if_pos hp]
    rcases Nat.lt_or_ge p i with hpi | hpi
    · -- the cell is before the range, one turn away from its start
      have hi : i ≤ rb.size := by omega
      rw [if_neg (by omega), List.getElem?_eq_none]
      · rfl
      · rcases Nat.lt_or_ge i rb.size with hlt | hge
        · rw [Nat.mod_eq_of_lt hlt, Nat.mod_eq_of_lt (by omega)]
          omega
        · have : src.length = 0 := by omega
          omega
    · have hi : i < rb.size := by omega
      have : p + (rb.size - i) = (p - i) + rb.size := by omega
      rw [if_pos hpi, Nat.mod_eq_of_lt hi, this, Nat.add_mod_right, Nat.mod_eq_of_lt (by omega)]
  · rw [if_neg (show ¬ p < rb.size by omega)]
    split
    · rw [List.getElem?_eq_none (by omega)]
      rfl
    · rfl

theorem set_eq {i : ℕ} {src : List UInt8} (hn : src.length ≤ rb.size)
    (h32 : i % rb.size + src.length < 4294967296) :
    rb.set i src = .ok { rb with buffer := Circular.write rb.size rb.buffer i src } := by
  have hi := Nat.mod_lt i rb.size_pos
  have hmod : Circular.write rb.size rb.buffer i src = Circular.write rb.size rb.buffer (i % rb.size) src :=
    Circular.write_congr (by rw [Nat.mod_mod]) src
  rw [hmod]
  unfold set
  simp only [normalize, u32_of_lt h32]
  split
  · rename_i h
    exact rb.store_eq h
  · -- the second piece starts at cell 0, one turn after the end of the first
    rename_i h
    have hlen : (src.take (rb.size - i % rb.size)).length = rb.size - i % rb.size := by
      rw [List.length_take]
      omega
    have hstart : (i % rb.size + (src.take (rb.size - i % rb.size)).length) % rb.size = 0 % rb.size := by
      have : i % rb.size + (rb.size - i % rb.size) = rb.size := by omega
      rw [hlen, this, Nat.mod_self, Nat.zero_mod]
    rw [rb.store_eq (by rw [hlen]; omega), Loop.ok_bind, store_eq _ (by simp; omega),
      Circular.write_congr hstart.symm, Circular.write_append _ _ (by simp; omega),
      List.take_append_drop]

/-! ### Comparison -/

theorem byteAt_eq {i : ℕ} (hi : i < rb.size) : rb.byteAt i = .ok (rb.buffer i) := by
  simp [byteAt, hi]

theorem compareFrom_eq : ∀ (p : List UInt8) (i : ℕ), i < rb.size →
    rb.compareFrom i p = .ok (if Circular.read rb.size rb.buffer i p.length = p then 0 else -1)
  | [], i, _ => by simp [compareFrom, Circular.read]
  | b :: p, i, hi => by
    have hlt := rb.size_lt
    have hnext : rb.normalize (u32 (i + 1)) = (i + 1) % rb.size := by
      rw [normalize, u32_of_lt (by omega)]
    have ih := compareFrom_eq p ((i + 1) % rb.size) (Nat.mod_lt _ rb.size_pos)
    rw [Circular.read_congr (Nat.mod_mod (i + 1) rb.size)] at ih
    rw [compareFrom, rb.byteAt_eq hi, Loop.ok_bind, List.length_cons, Circular.read_succ,
      Nat.mod_eq_of_lt hi, hnext, ih]
    by_cases hb : rb.buffer i = b
    · simp [hb]
    · simp [hb]

/-- `compare` answers 0 exactly when the circular range holds the bytes. -/
theorem compare_eq (i : ℕ) (p : List UInt8) :
    rb.compare i p = .ok (if Circular.read rb.size rb.buffer i p.length = p then 0 else -1) := by
  rw [compare, normalize, rb.compareFrom_eq p _ (Nat.mod_lt _ rb.size_pos),
    Circular.read_congr (Nat.mod_mod i rb.size)]

/-! ### Strings -/

theorem getStringFrom_eq : ∀ (left i : ℕ), i < rb.size →
    rb.getStringFrom left i = .ok ((Circular.read rb.size rb.buffer i left).takeWhile (· ≠ 0))
  | left, i, hi => by
    have hlt := rb.size_lt
    rw [getStringFrom.eq_def]
    dsimp only
    rw [rb.byteAt_eq hi, Loop.ok_bind]
    cases left with
    | zero =>
      by_cases hb : rb.buffer i = 0
      · rw [if_pos hb]
        rfl
      · rw [if_neg hb]
        rfl
    | succ left =>
      rw [Circular.read_succ, Nat.mod_eq_of_lt hi]
      by_cases hb : rb.buffer i = 0
      · rw [if_pos hb, List.takeWhile_cons_of_neg (by simpa using hb)]
        rfl
      · have hnext : rb.normalize (u32 (i + 1)) = (i + 1) % rb.size := by
          rw [normalize, u32_of_lt (by omega)]
        have ih := getStringFrom_eq left ((i + 1) % rb.size) (Nat.mod_lt _ rb.size_pos)
        rw [Circular.read_congr (Nat.mod_mod (i + 1) rb.size)] at ih
        rw [if_neg hb, hnext]
        simp only [ih, Loop.ok_bind, Loop.pure_eq_ok]
        rw [List.takeWhile_cons_of_pos (by simpa using hb)]

/-- `getString` copies the circular range from the position on, up to the first
NUL and at most once around. -/
theorem getString_eq (i : ℕ) :
    rb.getString i = .ok (((Circular.read rb.size rb.buffer i rb.size).takeWhile (· ≠ 0)).length,
      (Circular.read rb.size rb.buffer i rb.size).takeWhile (· ≠ 0)) := by
  unfold getString
  rw [normalize, rb.getStringFrom_eq _ _ (Nat.mod_lt _ rb.size_pos),
    Circular.read_congr (Nat.mod_mod i rb.size), Loop.ok_bind]
  rfl

/-! ### Copies that stay in the block -/

section InBounds

variable {rb : RingBuffer} {i n : ℕ}

theorem load_ok_iff {off : ℕ} : (∃ l, rb.load off n = .ok l) ↔ off + n ≤ rb.size := by
  unfold load
  by_cases h : off + n ≤ rb.size
  · simp [h]
  · simp [h]

theorem store_ok_iff {off : ℕ} {src : List UInt8} :
    (∃ rb', rb.store off src = .ok rb') ↔ off + src.length ≤ rb.size := by
  unfold store
  by_cases h : off + src.length ≤ rb.size
  · simp [h]
  · simp [h]

theorem store_size {off : ℕ} {src : List UInt8} {rb' : RingBuffer} (h : rb.store off src = .ok rb') :
    rb'.size = rb.size := by
  unfold store at h
  split at h
  · obtain rfl := Except.ok.inj h
    rfl
  · cases h

/-- Two pieces are enough for a range that is less than one turn longer than what
is left of the block. -/
theorem get_ok_iff (hS : rb.size < 2147483648) (hn : n < 2147483648) :
    (∃ l, rb.get i n = .ok l) ↔ i % rb.size + n ≤ 2 * rb.size := by
  have hi := Nat.mod_lt i rb.size_pos
  unfold get
  simp only [normalize, u32_of_lt (show i % rb.size + n < 4294967296 by omega)]
  by_cases h : i % rb.size + n ≤ rb.size
  · rw [if_pos h, load_ok_iff]
    omega
  · have hsub : u32Sub n (rb.size - i % rb.size) = n - (rb.size - i % rb.size) :=
      u32Sub_of_le (by omega) (by omega)
    have hload : ∀ off n, off + n ≤ rb.size → ∃ l, rb.load off n = .ok l := fun _ _ => load_ok_iff.mpr
    obtain ⟨top, htop⟩ := hload (i % rb.size) (rb.size - i % rb.size) (by omega)
    rw [if_neg h, htop, Loop.ok_bind, hsub]
    constructor
    · rintro ⟨l, hl⟩
      obtain ⟨bottom, hbottom, -⟩ := Loop.bind_eq_ok.mp hl
      have hle := load_ok_iff.mp ⟨bottom, hbottom⟩
      omega
    · intro hle
      obtain ⟨bottom, hbottom⟩ := hload 0 (n - (rb.size - i % rb.size)) (by omega)
      exact ⟨top ++ bottom, by rw [hbottom]; rfl⟩

theorem get_inv (hS : rb.size < 2147483648) (hn : n < 2147483648) {l : List UInt8} (h : rb.get i n = .ok l) :
    l = Circular.read rb.size rb.buffer i n := by
  have hi := Nat.mod_lt i rb.size_pos
  have hle := (get_ok_iff hS hn).mp ⟨l, h⟩
  exact Except.ok.inj (h.symm.trans (rb.get_wrapped hle (by omega)))

theorem set_ok_iff (hS : rb.size < 2147483648) {src : List UInt8} (hn : src.length < 2147483648) :
    (∃ rb', rb.set i src = .ok rb') ↔ i % rb.size + src.length ≤ 2 * rb.size := by
  have hi := Nat.mod_lt i rb.size_pos
  unfold set
  simp only [normalize, u32_of_lt (show i % rb.size + src.length < 4294967296 by omega)]
  by_cases h : i % rb.size + src.length ≤ rb.size
  · rw [if_pos h, store_ok_iff]
    omega
  · have htake : (src.take (rb.size - i % rb.size)).length = rb.size - i % rb.size := by
      rw [List.length_take]
      omega
    have hstore : ∃ rb1, rb.store (i % rb.size) (src.take (rb.size - i % rb.size)) = .ok rb1 :=
      store_ok_iff.mpr (by omega)
    obtain ⟨rb1, hrb1⟩ := hstore
    rw [if_neg h, hrb1, Loop.ok_bind, store_ok_iff, store_size hrb1, List.length_drop]
    omega

theorem set_size {src : List UInt8} {rb' : RingBuffer} (h : rb.set i src = .ok rb') : rb'.size = rb.size := by
  unfold set at h
  dsimp only at h
  split at h
  · exact store_size h
  · obtain ⟨rb1, hrb1, h⟩ := Loop.bind_eq_ok.mp h
    exact (store_size h).trans (store_size hrb1)

end InBounds

/-! ### The ring is a circular array -/

/-- **The block is a circular array**: `set` writes the cells of its range and no
others, `get` reads them, so it returns what was `set`, `compare` answers 0 when
they hold the bytes, however many those are, and `getString` copies them up to
the first NUL, at most once around. No access leaves the block, and no sum of
indices wraps. -/
theorem refines_circular (hS : rb.size < 2147483648) (d : ℕ) :
    let cell k := (d % rb.size + k) % rb.size
    (∀ src, src.length ≤ rb.size → ∃ buffer, rb.set d src = .ok { rb with buffer := buffer } ∧
      (∀ k (hk : k < src.length), buffer (cell k) = src[k]) ∧
      (∀ p, (∀ k < src.length, p ≠ cell k) → buffer p = rb.buffer p) ∧
      RingBuffer.get { rb with buffer := buffer } d src.length = .ok src) ∧
    (∀ n ≤ rb.size, rb.get d n = .ok ((List.range n).map fun k => rb.buffer (cell k))) ∧
    (∀ p, ∃ r, rb.compare d p = .ok r ∧ (r = 0 ↔ ∀ k (hk : k < p.length), p[k] = rb.buffer (cell k))) ∧
    (∃ n ≤ rb.size, rb.getString d = .ok (n, (List.range n).map fun k => rb.buffer (cell k)) ∧
      (∀ k < n, rb.buffer (cell k) ≠ 0) ∧ (n < rb.size → rb.buffer (cell n) = 0)) ∧
    (∀ n ≤ rb.size, u32 (rb.normalize d + n) = rb.normalize d + n) ∧ ∀ i < rb.size, u32 (i + 1) = i + 1 := by
  have hd := Nat.mod_lt d rb.size_pos
  have hcell : ∀ k, (d % rb.size + k) % rb.size = (d + k) % rb.size := fun k => Nat.mod_add_mod d rb.size k
  simp only [hcell]
  refine ⟨fun src hsrc => ?_, fun n hn => ?_, fun p => ?_, ?_, fun n hn => ?_, fun i hi => ?_⟩
  · refine ⟨Circular.write rb.size rb.buffer d src, rb.set_eq hsrc (by omega), fun k hk => ?_,
      fun p hp => Circular.write_of_ne rb.buffer hp, ?_⟩
    · rw [Circular.write_apply rb.size_pos _ _ _ (by omega), List.getElem?_eq_getElem hk]
      rfl
    · have hget := RingBuffer.get_eq { rb with buffer := Circular.write rb.size rb.buffer d src } hsrc
        (show d % rb.size + src.length < 4294967296 by omega)
      exact hget.trans (congrArg Except.ok (Circular.read_write_same rb.size_pos rb.buffer d hsrc))
  · exact rb.get_eq hn (by omega)
  · refine ⟨_, rb.compare_eq d p, ?_⟩
    rw [← Circular.read_eq_iff]
    by_cases h : Circular.read rb.size rb.buffer d p.length = p
    · rw [if_pos h]
      exact ⟨fun _ => h, fun _ => rfl⟩
    · rw [if_neg h]
      exact ⟨fun h0 => absurd h0 (by decide), fun hp => absurd hp h⟩
  · obtain ⟨n, hn, htake, hin, hstop⟩ := Circular.takeWhile_read rb.size rb.buffer d fun b => decide (b ≠ 0)
    refine ⟨n, hn, ?_, fun k hk => by simpa using hin k hk, fun hlt => by simpa using hstop hlt⟩
    rw [rb.getString_eq, htake, Circular.read_length]
    rfl
  · exact u32_of_lt (by rw [normalize]; omega)
  · exact u32_of_lt (by omega)

/-- Two bytes at an index far above the size, across the end of the block. -/
theorem refines_circular_example : ∃ buffer,
    (RingBuffer.new 4 (by decide) (by decide)).set 4294967295 [7, 8] =
      .ok { RingBuffer.new 4 (by decide) (by decide) with buffer := buffer } ∧ buffer 3 = 7 ∧
        buffer 0 = 8 := by
  obtain ⟨buffer, hset, hin, -, -⟩ :=
    (refines_circular (.new 4 (by decide) (by decide)) (by decide) 4294967295).1 [7, 8] (by decide)
  exact ⟨buffer, hset, hin 0 (by decide), hin 1 (by decide)⟩

end RingBuffer
end Memlog

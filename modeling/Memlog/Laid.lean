/-
# Records that are copied to a ring

`src/src/lib/log.cpp`: `traceVargs` allocates the bytes of its record in one step
(`Log.allocate`, what it does is `Allocated`) and copies the record there later, as a
whole or in pieces. `Copy` is a record and how many of its bytes are copied.

As long as the ring has not been filled, the records lie one behind the other in the
order of their allocations, each as far as it is copied, and everything else is zero
(`Laid`). A call that allocates comes behind all others (`Laid.allocate`), and one that
copies more of its record changes nothing else (`Laid.copy`).

Key definitions: `Log.allocate`, `Copy`, `Laid`.
-/
import Memlog.Blank
import Memlog.Ordered

namespace Memlog

open Circular ByteCodec

/-! ### The first step of a call -/

/-- `traceVargs` up to the header: the record, and the log with its bytes allocated. -/
def Log.allocate (env : Env) (log : Log) (call : Call) : Except Fault (Log × Entry) := do
  let args ← stage env call
  let bufferLen := Header.size + args.length + Trailer.size
  let (id, log) := log.allocateId
  let (location, rb) := log.ringBuffer.allocate bufferLen
  return ({ log with ringBuffer := rb }, ⟨call, location, setHeader rb call bufferLen location id, args⟩)

/-- What the first step of a call does. -/
structure Allocated (env : Env) (log : Log) (call : Call) (log' : Log) (e : Entry) : Prop where
  forCall : e.call = call
  staged : Log.stage env call = .ok e.args
  location : e.location = log.ringBuffer.rollOver.currentIndex
  header : e.header = Log.setHeader log.ringBuffer.rollOver call e.bytes.length e.location log.globalId
  ringBuffer : log'.ringBuffer = log.ringBuffer.rollOver.advance e.bytes.length
  lastWritten : log'.bufLastWrittenIndex = log.bufLastWrittenIndex

theorem allocate_inv {env : Env} {log log' : Log} {call : Call} {e : Entry}
    (h : log.allocate env call = .ok (log', e)) : Allocated env log call log' e := by
  obtain ⟨args, hstage, h⟩ := Loop.bind_eq_ok.mp h
  obtain ⟨rfl, rfl⟩ := Prod.mk.inj (Except.ok.inj h)
  have hlen : Header.size + args.length + Trailer.size = 64 + args.length := by
    rw [Header.size, Trailer.size]
    omega
  refine ⟨rfl, hstage, rfl, ?_, ?_, rfl⟩
  · rw [Entry.length_eq, ← hlen]
    rfl
  · rw [Entry.length_eq, ← hlen]

theorem allocate_ok {env : Env} {call : Call} {args : List UInt8}
    (h : Log.stage env call = .ok args) (log : Log) :
    ∃ log' e, log.allocate env call = .ok (log', e) := by
  unfold Log.allocate
  rw [h]
  exact ⟨_, _, rfl⟩

section Allocated

variable {env : Env} {log log' : Log} {call : Call} {e : Entry}

theorem Allocated.genuine (h : Allocated env log call log' e) : e.Genuine := by
  have hle := Log.stage_length h.staged
  have hlen := e.length_eq
  refine ⟨by rw [h.header]; rfl, ?_, by omega⟩
  rw [h.header]
  exact (UInt16.toNat_ofNat' ..).trans (Nat.mod_eq_of_lt (by omega))

end Allocated

/-! ### How far a record is copied -/

/-- A call of `traceVargs` that has allocated its bytes, and how many of them it has
copied to the ring. -/
structure Copy where
  entry : Entry
  copied : ℕ

namespace Copy

/-- What the ring holds of a record: the bytes that are copied, and zeros. -/
def content (c : Copy) : List UInt8 :=
  c.entry.bytes.take c.copied ++ List.replicate (c.entry.bytes.length - c.copied) 0

variable {c : Copy}

theorem content_length (h : c.copied ≤ c.entry.bytes.length) : c.content.length = c.entry.bytes.length := by
  rw [content, List.length_append, List.length_take, List.length_replicate]
  omega

theorem content_complete (h : c.copied = c.entry.bytes.length) : c.content = c.entry.bytes := by
  rw [content, h, List.take_length, Nat.sub_self, List.replicate_zero, List.append_nil]

theorem take_content {n : ℕ} (h : n ≤ c.copied) (hle : c.copied ≤ c.entry.bytes.length) :
    c.content.take n = c.entry.bytes.take n := by
  rw [content, List.take_append_of_le_length (by rw [List.length_take]; omega), List.take_take,
    Nat.min_eq_left h]

theorem getElem?_copied {k : ℕ} (h : k < c.copied) (hle : c.copied ≤ c.entry.bytes.length) :
    c.content[k]? = c.entry.bytes[k]? := by
  rw [content, List.getElem?_append_left (by rw [List.length_take]; omega), List.getElem?_take_of_lt h]

theorem getElem?_blank {k : ℕ} (h : c.copied ≤ k) (hk : k < c.entry.bytes.length) :
    c.content[k]? = some 0 := by
  have htake : (c.entry.bytes.take c.copied).length = c.copied := by
    rw [List.length_take]
    omega
  rw [content, List.getElem?_append_right (by omega), htake, List.getElem?_replicate, if_pos (by omega)]

/-- The bytes of a piece are next to those that are copied. -/
theorem content_add {n : ℕ} (h : c.copied + n ≤ c.entry.bytes.length) :
    c.content = c.entry.bytes.take c.copied ++
      (List.replicate n 0 ++ List.replicate (c.entry.bytes.length - (c.copied + n)) 0) ∧
    { c with copied := c.copied + n }.content = c.entry.bytes.take c.copied ++
      ((c.entry.bytes.drop c.copied).take n ++ List.replicate (c.entry.bytes.length - (c.copied + n)) 0) := by
  constructor
  · rw [content, ← List.replicate_add,
      show n + (c.entry.bytes.length - (c.copied + n)) = c.entry.bytes.length - c.copied by omega]
  · rw [content, List.take_add, List.append_assoc]

end Copy

namespace Copies

def entries (cs : List Copy) : List Entry := cs.map Copy.entry

/-- What the ring holds of all calls. -/
def contents (cs : List Copy) : List UInt8 := cs.flatMap Copy.content

theorem entries_append (cs cs' : List Copy) : entries (cs ++ cs') = entries cs ++ entries cs' :=
  List.map_append

theorem contents_split (pre post : List Copy) (c : Copy) :
    contents (pre ++ c :: post) = contents pre ++ (c.content ++ contents post) :=
  List.flatMap_append

theorem contents_length : ∀ {cs : List Copy}, (∀ c ∈ cs, c.copied ≤ c.entry.bytes.length) →
    (contents cs).length = (flat (entries cs)).length
  | [], _ => rfl
  | c :: cs, h => by
    have ih := contents_length fun x hx => h x (List.mem_cons_of_mem c hx)
    rw [contents, List.flatMap_cons, List.length_append, Copy.content_length (h c List.mem_cons_self),
      entries, List.map_cons, flat_cons, List.length_append]
    exact congrArg _ ih

end Copies

/-! ### One behind the other -/

open Copies

/-- The calls have allocated the bytes from the start of the ring on, and the block
holds what they have copied, and zeros. -/
structure Laid (S : ℕ) (log : Log) (cs : List Copy) : Prop where
  size : log.ringBuffer.size = S
  current : log.ringBuffer.currentIndex = (flat (entries cs)).length
  located : ∀ x e, StartsAt (entries cs) x e → e.location = x
  copied : ∀ c ∈ cs, c.entry.Genuine ∧ c.copied ≤ c.entry.bytes.length
  filled : Filled S 0 log.ringBuffer.buffer (contents cs)

namespace Laid

variable {env : Env} {S : ℕ} {log log' : Log} {cs pre post : List Copy} {c : Copy} {e : Entry}

theorem new (h0 : 0 < S) (h1 : S < 2147483648) : Laid S (Log.new S h0 h1) [] where
  size := rfl
  current := rfl
  located x e h := by
    obtain ⟨pre, post, heq, -⟩ := h
    cases pre <;> cases heq
  copied c h := absurd h List.not_mem_nil
  filled x hx := rfl

theorem of_ring (h : Laid S log cs) (hrb : log'.ringBuffer = log.ringBuffer) : Laid S log' cs where
  size := hrb ▸ h.size
  current := hrb ▸ h.current
  located := h.located
  copied := h.copied
  filled := hrb ▸ h.filled

/-- A call allocates behind all others. -/
theorem allocate {call : Call} (h : Laid S log cs) (h1 : S < 2147483648) (ha : Allocated env log call log' e)
    (htotal : (flat (entries (cs ++ [⟨e, 0⟩]))).length < S) : Laid S log' (cs ++ [⟨e, 0⟩]) := by
  have hcurrent := h.current
  have hentries : entries (cs ++ [⟨e, 0⟩]) = entries cs ++ [e] := entries_append _ _
  have hcontents : contents (cs ++ [⟨e, 0⟩]) = contents cs ++ List.replicate e.bytes.length 0 := by
    simp [contents, Copy.content]
  have hlength : (flat (entries cs ++ [e])).length = (flat (entries cs)).length + e.bytes.length := by
    simp
  rw [hentries, hlength] at htotal
  -- the index is not reduced
  have hroll : log.ringBuffer.rollOver = log.ringBuffer := by
    apply if_neg
    rw [RingBuffer.isIndexRollingOver_iff]
    omega
  have hrb := ha.ringBuffer
  have hloc := ha.location
  rw [hroll] at hrb hloc
  refine ⟨by rw [hrb]; exact h.size, ?_, ?_, ?_, ?_⟩
  · rw [hrb, RingBuffer.advance_current _ (by omega), hcurrent, hentries, hlength]
  · rintro x f ⟨pre, post, heq, hx⟩
    rw [hentries] at heq
    rcases Split.concat_cases heq with ⟨rfl, rfl, -⟩ | ⟨post', -, heq⟩
    · rw [hloc, hcurrent, hx]
    · exact h.located x f ⟨pre, post', heq, hx⟩
  · intro c hc
    rcases List.mem_append.mp hc with hc | hc
    · exact h.copied c hc
    · obtain rfl := List.mem_singleton.mp hc
      exact ⟨ha.genuine, Nat.zero_le _⟩
  · have hpad := h.filled.pad e.bytes.length
    rw [hrb, hcontents]
    exact hpad

theorem location (h : Laid S log (pre ++ c :: post)) :
    c.entry.location = (flat (entries pre)).length ∧ c.entry.location = (contents pre).length := by
  have hloc := h.located _ c.entry ⟨entries pre, entries post, entries_append _ _, rfl⟩
  refine ⟨hloc, ?_⟩
  rw [hloc, contents_length fun x hx => (h.copied x (List.mem_append_left _ hx)).2]

theorem fits (h : Laid S log (pre ++ c :: post)) (htotal : (flat (entries (pre ++ c :: post))).length < S) :
    c.entry.location + (c.entry.bytes.length + (contents post).length) < S := by
  rw [← contents_length fun x hx => (h.copied x hx).2, contents_split, List.length_append, List.length_append,
    Copy.content_length (h.copied c (by simp)).2] at htotal
  rw [h.location.2]
  exact htotal

/-- A call copies the next bytes of its record, and no others. -/
theorem copy {n : ℕ} (h : Laid S log (pre ++ c :: post)) (h1 : S < 2147483648)
    (htotal : (flat (entries (pre ++ c :: post))).length < S) (hn : c.copied + n ≤ c.entry.bytes.length) :
    ∃ rb, log.ringBuffer.set (c.entry.location + c.copied) ((c.entry.bytes.drop c.copied).take n) = .ok rb ∧
      Laid S { log with ringBuffer := rb } (pre ++ { c with copied := c.copied + n } :: post) := by
  have hfits := h.fits htotal
  obtain ⟨-, hloc⟩ := h.location
  obtain ⟨hbefore, hafter⟩ := Copy.content_add hn
  have hentries : entries (pre ++ { c with copied := c.copied + n } :: post) =
      entries (pre ++ c :: post) := by
    simp [entries]
  have htake : (c.entry.bytes.take c.copied).length = c.copied := by
    rw [List.length_take]
    omega
  have hpiece : ((c.entry.bytes.drop c.copied).take n).length = n := by
    rw [List.length_take, List.length_drop]
    omega
  -- where the piece goes
  obtain ⟨l, hl⟩ : ∃ l, l = contents pre ++ c.entry.bytes.take c.copied := ⟨_, rfl⟩
  obtain ⟨r, hr⟩ : ∃ r, r = List.replicate (c.entry.bytes.length - (c.copied + n)) 0 ++
      contents post := ⟨_, rfl⟩
  have hlength : l.length = c.entry.location + c.copied := by
    rw [hl, List.length_append, htake, hloc]
  have hrlength : r.length = c.entry.bytes.length - (c.copied + n) + (contents post).length := by
    rw [hr, List.length_append, List.length_replicate]
  have hold : contents (pre ++ c :: post) = l ++ (List.replicate n 0 ++ r) := by
    rw [contents_split, hbefore, hl, hr]
    simp only [List.append_assoc]
  have hnew : contents (pre ++ { c with copied := c.copied + n } :: post) =
      l ++ ((c.entry.bytes.drop c.copied).take n ++ r) := by
    rw [contents_split, hafter, hl, hr]
    simp only [List.append_assoc]
  obtain rfl := h.size
  have hmod := Nat.mod_le (c.entry.location + c.copied) log.ringBuffer.size
  refine ⟨_, RingBuffer.set_eq _ (by omega) (by omega), rfl, ?_, ?_, ?_, ?_⟩
  · rw [hentries]
    exact h.current
  · rw [hentries]
    exact h.located
  · intro x hx
    have hmem : x ∈ pre ++ c :: post ∨ x = { c with copied := c.copied + n } := by
      simp only [List.mem_append, List.mem_cons] at hx ⊢
      tauto
    rcases hmem with hx | rfl
    · exact h.copied x hx
    · exact ⟨(h.copied c (by simp)).1, hn⟩
  · have hfilled := h.filled
    rw [hold] at hfilled
    have hover := hfilled.overwrite
      (show (List.replicate n 0).length =
        ((c.entry.bytes.drop c.copied).take n).length by rw [List.length_replicate, hpiece])
      (by rw [List.length_append, List.length_append, hpiece]; omega)
    rw [hnew, ← hlength]
    exact hover

/-- What the ring holds where a call has allocated. -/
theorem read (h : Laid S log cs) (htotal : (flat (entries cs)).length < S) (hc : c ∈ cs) :
    Circular.read S log.ringBuffer.buffer c.entry.location c.entry.bytes.length = c.content := by
  obtain ⟨pre, post, rfl⟩ := List.append_of_mem hc
  have hlength := Copy.content_length (h.copied c hc).2
  have hfits := h.fits htotal
  obtain ⟨-, hloc⟩ := h.location
  have hfilled := h.filled
  rw [contents_split] at hfilled
  rw [hloc, ← hlength]
  exact hfilled.read (by omega)

theorem blank (h : Laid S log cs) (htotal : (flat (entries cs)).length < S) (hc : c ∈ cs) {x : ℕ}
    (hx : c.entry.location + c.copied ≤ x) (hlt : x < c.entry.location + c.entry.bytes.length) :
    log.ringBuffer.Blank x := by
  obtain ⟨k, rfl⟩ := Nat.exists_eq_add_of_le (Nat.le_of_add_right_le hx)
  have hcell := congrArg (·[k]?) (h.read htotal hc)
  rw [getElem?_read (by omega), Copy.getElem?_blank (by omega) (by omega)] at hcell
  rw [RingBuffer.Blank, h.size]
  exact Option.some.inj hcell

theorem blank_behind (h : Laid S log cs) {x : ℕ} (hx : (flat (entries cs)).length ≤ x) (hS : x < S) :
    log.ringBuffer.Blank x := by
  have hfilled := h.filled x hS
  rw [List.getElem?_eq_none (by rw [contents_length fun c hc => (h.copied c hc).2]; exact hx)] at hfilled
  rw [RingBuffer.Blank, h.size, Nat.mod_eq_of_lt hS]
  exact hfilled

end Laid

end Memlog

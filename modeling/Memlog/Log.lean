/-
# The log

`src/src/lib/log.{h,cpp}`. `traceVargs` encodes the arguments into a buffer of
4097 bytes on its stack, allocates ring space for header, arguments and trailer
together, copies them there and publishes the ring's index as the last written
one. The readers work on the ring alone: `getLog` judges a position by the bytes
it finds there, `getNextHeader` searches for the next position it accepts,
`printAtIndex` renders one entry, `dumpRange` walks a range of the ring and
writes the rendered lines to a stream, and `dump` chooses the range.

A stack buffer is the list of its bytes; `overlay` writes to its front. What a
buffer holds before is `Env.scratch`. The state is `Log`, with its counters in
`Stats`; `traceVargs` also returns the record it wrote (`Entry`), which the code
does not. The debug copies of the last header (`debugHdr_` and so on), which
nothing reads, are left out.
-/
import Memlog.Record
import Memlog.RingBuffer
import Memlog.StringFormat

namespace Memlog

/-- The counters for debugging. -/
structure Stats where
  glideCount : UInt32
  printFallCount : UInt32
  getNextHeaderFailCount : UInt32
  lastPrintedId : UInt32
  collectCount : UInt64
  fullBufLenErr : UInt32
  hdrPatErr : UInt32
  hdrLenErr : UInt32
  hdrTailErr : UInt32

/-- The members of `Log` its functions use. -/
structure Log where
  ringBuffer : RingBuffer
  globalId : UInt32
  bufLastWrittenIndex : ℕ
  stats : Stats

/-- The constructor, with the members it leaves uninitialised taken as 0;
`lines` is an `int`. -/
def Log.new (lines : ℕ) (h0 : 0 < lines) (h1 : lines < 2147483648) : Log where
  ringBuffer := .new lines h0 (h1.trans (by decide))
  globalId := 0
  bufLastWrittenIndex := 0
  stats := ⟨0, 0, 0, 0, 0, 0, 0, 0, 0⟩

theorem lines_pos {lines : ℕ} (h : 4096 ≤ lines) : 0 < lines := by omega

/-- What a call of `traceVargs` is given: its parameters, the time it reads, and
what its stack holds where the header is not set. -/
structure Call where
  withTs : Bool
  functionName : UInt64
  lineNumber : UInt32
  tag : UInt8
  format : UInt64
  args : List Arg
  now : UInt64 × UInt64
  padding : UInt32
  unused : BitVec 24
deriving DecidableEq

/-- A record as `traceVargs` wrote it, with the call it is for and the location
`allocate` gave it. -/
structure Entry where
  call : Call
  location : ℕ
  header : Header
  args : List UInt8
deriving DecidableEq

def Entry.bytes (e : Entry) : List UInt8 := record e.header e.args

/-- What is written to a stream: the line of an entry, and which entry that is, or
a notice. -/
inductive Chunk where
  | line (hdr : Header) (text : List UInt8)
  | notice (text : List UInt8)
deriving DecidableEq

/-- A write to the front of a buffer. -/
def overlay (bytes buf : List UInt8) : List UInt8 := bytes ++ buf.drop bytes.length

namespace Log

/-! ### Writing -/

/-- `allocateId`: the id handed out, and the log with the next one. -/
def allocateId (log : Log) : UInt32 × Log :=
  let next := log.globalId + 1
  let next := if next = START_PATTERN ∨ next = END_PATTERN then next + 1 else next
  (log.globalId, { log with globalId := next })

/-- `setHeader`, on the stack of the call. -/
def setHeader (rb : RingBuffer) (call : Call) (length location : ℕ) (id : UInt32) : Header where
  pattern := START_PATTERN
  location := .ofNat (rb.normalize location)
  id := id
  padding := call.padding
  format := call.format
  functionName := call.functionName
  lineNumber := call.lineNumber.toUInt16
  length := .ofNat length
  tag := call.tag
  unused := call.unused
  tv_sec := if call.withTs then call.now.1 else 0
  tv_nsec := if call.withTs then call.now.2 else 0

def setLastWrittenIndex (log : Log) (index : ℕ) : Log := { log with bufLastWrittenIndex := index }

/-- The arguments encoded on the stack, behind the header: header, arguments and
trailer have to fit the buffer of 4097 bytes, and then to pass the assertion. -/
def stage (env : Env) (call : Call) : Except Fault (List UInt8) := do
  let args ← encodeToArgsBuffer (env.strings call.format) call.args
  let bufferLen := Header.size + args.length + Trailer.size
  if LOG_MAX_LOG_TRACE_LINE + 1 < bufferLen then throw .bounds
  if LOG_MAX_LOG_TRACE_LINE < bufferLen then throw .assertion
  return args

/-- `traceVargs`. -/
def traceVargs (env : Env) (log : Log) (call : Call) : Except Fault (Log × Entry) := do
  let args ← stage env call
  let bufferLen := Header.size + args.length + Trailer.size
  let (id, log) := log.allocateId
  let (location, rb) := log.ringBuffer.allocate bufferLen
  let entry : Entry := ⟨call, location, setHeader rb call bufferLen location id, args⟩
  let rb ← rb.set location entry.bytes
  return (setLastWrittenIndex { log with ringBuffer := rb } rb.getCurrentIndex, entry)

/-! ### Reading one entry -/

/-- `getLog`: whether a complete entry starts at `index`, and the buffer it is
copied to. -/
def getLog (log : Log) (index : ℕ) (buf : List UInt8) : Except Fault (Bool × List UInt8 × Log) := do
  let rb := log.ringBuffer
  let index := rb.normalize index
  let read_hdr ← rb.get index Header.size
  let hdr := Header.ofBytes read_hdr
  if hdr.pattern ≠ START_PATTERN then
    return (false, buf, { log with stats.hdrPatErr := log.stats.hdrPatErr + 1 })
  if hdr.length.toNat < Header.size + Trailer.size ∨ LOG_MAX_LOG_TRACE_LINE < hdr.length.toNat then
    return (false, buf, { log with stats.fullBufLenErr := log.stats.fullBufLenErr + 1 })
  let entry ← rb.get index hdr.length.toNat
  let buf := overlay entry buf
  if entry.take Header.size ≠ read_hdr then
    return (false, buf, { log with stats.hdrLenErr := log.stats.hdrLenErr + 1 })
  if entry.drop (hdr.length.toNat - Trailer.size) ≠ trailer hdr.id then
    return (false, buf, { log with stats.hdrTailErr := log.stats.hdrTailErr + 1 })
  return (true, buf, log)

/-- A stack buffer of `LOG_MAX_LOG_TRACE_LINE * 2` bytes, not yet written. -/
def stackBuffer (env : Env) : List UInt8 := (List.range (LOG_MAX_LOG_TRACE_LINE * 2)).map env.scratch

/-- `isEntryValid`: `none` is a `buf` of `NULL`. -/
def isEntryValid (env : Env) (log : Log) (index : ℕ) :
    Option (List UInt8) → Except Fault (Bool × Option (List UInt8) × Log)
  | none => do
    let (valid, _, log) ← log.getLog index (stackBuffer env)
    return (valid, none, log)
  | some buf => do
    let (valid, buf, log) ← log.getLog index buf
    return (valid, some buf, log)

/-- The variables of `getNextHeader`. -/
structure Search where
  index : ℕ
  loop : ℕ
  buf : Option (List UInt8)
  log : Log

/-- The search moves on by one, or gives up after the whole ring and returns 0. -/
def Search.advance (s : Search) : Loop.Next Search (ℕ × Option (List UInt8) × Log) :=
  if s.log.ringBuffer.size < s.loop + 1 then
    .done (0, s.buf, { s.log with
      stats.getNextHeaderFailCount := s.log.stats.getNextHeaderFailCount + 1 })
  else .again { s with index := u32 (s.index + 1), loop := s.loop + 1 }

/-- A round of `getNextHeader`: both loops of the source, one position each. -/
def searchStep (env : Env) (s : Search) :
    Except Fault (Loop.Next Search (ℕ × Option (List UInt8) × Log)) := do
  let pattern := ByteCodec.leBytes 4 START_PATTERN.toNat
  if (← s.log.ringBuffer.compare s.index pattern) ≠ 0 then return s.advance
  let (valid, buf, log) ← isEntryValid env s.log s.index s.buf
  let s := { s with buf := buf, log := log }
  if valid then return .done (s.index, s.buf, { s.log with stats.glideCount := .ofNat s.loop })
  return s.advance

/-- `getNextHeader`: the position, the buffer, and the log with its counters. -/
def getNextHeader (env : Env) (log : Log) (index : ℕ) (buf : Option (List UInt8)) :
    Except Fault (ℕ × Option (List UInt8) × Log) :=
  Loop.run .fuel (searchStep env) (log.ringBuffer.size + 2) ⟨index, 0, buf, log⟩

def getNextHeaderIndex (env : Env) (log : Log) (index : ℕ) : Except Fault (ℕ × Log) := do
  let (index, _, log) ← getNextHeader env log index none
  return (index, log)

/-! ### Printing one entry -/

/-- `getTime`: the date, and the nanoseconds written at column 20; the result is
measured with `strlen`. -/
def getTime (env : Env) (tv_sec tv_nsec : UInt64) : List UInt8 :=
  let date := env.strftime tv_sec
  let nsec := chr '.' :: env.sprintf (ascii "%9.9ld") (.long tv_nsec)
  (if date.length < 20 then date else date.take 20 ++ nsec).takeWhile (· ≠ 0)

/-- The argument of a `%c` for a `char`. -/
def charArg (c : UInt8) : Arg := .int c.toInt8.toInt32.toUInt32

/-- What is printed before the text of an entry: `[time:id:...] `. -/
def printPrefix (env : Env) (hdr : Header) : List UInt8 :=
  let u (v : UInt32) := env.sprintf (ascii "%u") (.int v)
  let c := env.sprintf (ascii "%c") (charArg hdr.tag)
  if hdr.tv_sec ≠ 0 then
    chr '[' :: (getTime env hdr.tv_sec hdr.tv_nsec ++
      if hdr.functionName ≠ 0 then
        ascii ":" ++ u hdr.id ++ ascii ":" ++ c ++ ascii ":" ++ (env.strings hdr.functionName).bytes ++
          ascii ":" ++ u hdr.lineNumber.toUInt32 ++ ascii "] "
      else if hdr.lineNumber ≠ 0 then
        ascii ":" ++ u hdr.id ++ ascii ":" ++ c ++ ascii ":" ++ u hdr.lineNumber.toUInt32 ++ ascii "] "
      else if hdr.tag ≠ 0 then
        ascii ":" ++ u hdr.id ++ ascii ":" ++ c ++ ascii "] "
      else
        ascii ":" ++ u hdr.id ++ ascii ":" ++ u hdr.length.toUInt32 ++ ascii "] ")
  else []

/-- The retry loop of `printAtIndex`: at most `n` more tries. -/
def spin (index : ℕ) : ℕ → List UInt8 → Log → Except Fault (Bool × List UInt8 × Log)
  | 0, buf, log => .ok (false, buf, log)
  | n + 1, buf, log => do
    let (success, buf, log) ← log.getLog index buf
    if success then return (true, buf, log) else spin index n buf log

/-- `Log::Collect::SPINS`. -/
def SPINS : ℕ := 10

/-- What `printAtIndex` leaves behind. -/
structure Printed where
  err : Bool
  dst : List UInt8
  next_index : ℕ
  printed_header : Header
  stringLength : ℕ
  log : Log

/-- `printAtIndex`. The result of `decodeFromArgsBuffer` is unsigned, so the
`ret < 0` behind the call is never true. The text has to fit `dst`. -/
def printAtIndex (env : Env) (log : Log) (index : ℕ) (dst : List UInt8) (retry : Bool)
    (printed_header : Header) : Except Fault Printed := do
  let (success, scratch, log) ← spin index (if retry then SPINS else 1) (stackBuffer env) log
  if ¬ success then
    return ⟨true, overlay [0] dst, index, printed_header, 0,
      { log with stats.printFallCount := log.stats.printFallCount + 1 }⟩
  let hdr := Header.ofBytes scratch
  let pre := printPrefix env hdr
  let r ← decodeFromArgsBuffer env (env.strings hdr.format) scratch (indexInc 0 Header.size)
    (hdr.length.toNat - Trailer.size) pre
  let text := r.outputString.written
  if LOG_MAX_LOG_TRACE_LINE * 2 < text.length then throw .bounds
  return ⟨false, overlay text dst, u32 (indexInc r.argsBufferIndex index + Trailer.size), hdr,
    r.outputStringLength.getD 0 + pre.length, { log with stats.lastPrintedId := hdr.id }⟩

/-! ### Walking a range -/

/-- The text of the notice of `dumpRange`. -/
def noticeText (env : Env) (log : Log) (hdr : Header) (new_i : ℕ) (printedHeader : Header) : List UInt8 :=
  let u (v : UInt32) := env.sprintf (ascii "%u") (.int v)
  ascii "<<<< Logs are discarded. Index is realigned to id: " ++ u hdr.id ++
  ascii " lastid: " ++ u log.stats.lastPrintedId ++
  ascii " pat: 0x" ++ env.sprintf (ascii "%x") (.int hdr.pattern) ++
  ascii " lastwrittenidx: " ++ u (.ofNat log.bufLastWrittenIndex) ++
  ascii " loc: " ++ u hdr.location ++ ascii " new_i: " ++ u (.ofNat new_i) ++
  ascii " prev_id: " ++ u printedHeader.id ++ ascii " prev_loc: " ++ u printedHeader.location ++
  ascii " fail: " ++ u log.stats.getNextHeaderFailCount ++ ascii " >>>>>\n"

/-- The variables of `dumpRange`, and what it has written. -/
structure Walk where
  i : ℕ
  traceBuffer : List UInt8
  printedHeader : Header
  log : Log
  out : List Chunk

/-- A header of zeros: `memset(&printedHeader, 0, ...)`. -/
def zeroHeader : Header := Header.ofBytes []

/-- A round of `dumpRange`, from `w.i < last`. -/
def walkStep (env : Env) (last : ℕ) (continueOnFailure : Bool) (w : Walk) :
    Except Fault (Loop.Next Walk Walk) := do
  if ¬ w.i < last then return .done w
  let p ← printAtIndex env w.log w.i w.traceBuffer (!continueOnFailure) w.printedHeader
  if p.err then
    let (new_i, buf, log) ← getNextHeader env p.log w.i (some p.dst)
    let buf := buf.getD p.dst
    let text := noticeText env log (Header.ofBytes buf) new_i p.printed_header
    let w : Walk := ⟨w.i, overlay (text ++ [0]) buf, p.printed_header, log, w.out ++ [.notice text]⟩
    if ¬ continueOnFailure then return .done { w with i := new_i }
    if last < new_i then return .done w
    return .again { w with i := new_i }
  let w : Walk := ⟨w.i, p.dst, p.printed_header, p.log, w.out⟩
  if last < p.next_index then return .done w
  if LOG_MAX_LOG_TRACE_LINE < p.stringLength then throw .assertion
  return .again { w with
    i := p.next_index
    log := { w.log with stats.collectCount := w.log.stats.collectCount + 1 }
    out := w.out ++ [.line w.printedHeader (p.dst.take p.stringLength)] }

/-- `dumpRange`, in at most `fuel` rounds: the index it returns, the log, and what
it wrote. -/
def dumpRange (env : Env) (fuel : ℕ) (log : Log) (start last : ℕ) (continueOnFailure : Bool) :
    Except Fault (ℕ × Log × List Chunk) := do
  let rb := log.ringBuffer
  let start := rb.normalize start
  let last := u32 (rb.normalize last + 1)
  let last := if last < start then rb.size else last
  let w ← Loop.run .fuel (walkStep env last continueOnFailure) fuel
    ⟨start, stackBuffer env, zeroHeader, log, []⟩
  return (w.i, w.log, w.out)

/-! ### The whole log -/

/-- `firstLine`: where the oldest entry starts. -/
def firstLine (env : Env) (log : Log) : Except Fault (ℕ × Log) :=
  let current := log.ringBuffer.getCurrentIndex
  if log.ringBuffer.size ≤ current ∨ log.ringBuffer.hasWrappedAround then
    getNextHeaderIndex env log (log.ringBuffer.normalize current)
  else .ok (0, log)

/-- `dump` with `detail` off. -/
def dump (env : Env) (fuel : ℕ) (log : Log) : Except Fault (Log × List Chunk) := do
  let (i, log) ← firstLine env log
  let i := log.ringBuffer.normalize i
  let last := log.ringBuffer.normalize log.ringBuffer.getCurrentIndex
  let (_, log, out) ← dumpRange env fuel log i (u32Sub last 1) false
  return (log, out)

end Log
end Memlog

/-
# StringFormat: storing the arguments and formatting them later

`src/src/lib/stringformat.{h,cpp}`. `encodeToArgsBuffer` scans a format and
stores the arguments it asks for; `decodeFromArgsBuffer` scans the same format
again and prints each conversion with the argument it reads back. The two
scanners are written independently: the encoder is a loop over characters with
one flag (`insidePercent`) and some lookahead, the decoder parses
`%[flag][digits][.][digits]conversion` and starts over as a literal when
nothing matched.

A round of either loop is one function (`encodeStep`, `decodeStep`), iterated by
`Loop.run`. A conversion stores or reads a value of one of seven kinds (`Kind`),
and its `memSet*` and `memGet*` functions differ in the width only. The format
is read through `CString.at`, so a read past the terminating NUL is a fault, as
is a read past the end of the arguments' buffer or a copy past the 32 bytes of
`tempFormat`.

The decoder moves its cursor in the output (`Output`) by what `sprintf` returns,
and that is -1 for a width or a precision that is no `int`: the cursor steps back,
and what is printed next overwrites the byte in front of it.
-/
import Memlog.Machine

namespace Memlog

open ByteCodec

/-- What a conversion stores: the `memSet*` function it calls. -/
inductive Kind where
  | byte
  | word
  | int
  | double
  | ptr
  | string
  | long64
deriving DecidableEq, Repr

/-- `isdigit`. -/
def isdigit (c : UInt8) : Bool := chr '0' ≤ c && c ≤ chr '9'

/-! ### Memory buffer utilities -/

def memSetByte (u8 : UInt8) : List UInt8 := [u8]

def memSetWord (u16 : UInt16) : List UInt8 := leBytes 2 u16.toNat

def memSetInt (v : UInt32) : List UInt8 := leBytes 4 v.toNat

def memSetLong64 (u64 : UInt64) : List UInt8 := leBytes 8 u64.toNat

def memSetDouble (d : UInt64) : List UInt8 := leBytes 8 d.toNat

def memSetPtr (src : UInt64) : List UInt8 := leBytes 8 src.toNat

def memSetString : Option CString → List UInt8
  | none => ascii "(null)" ++ [0]
  | some src => src.bytes ++ [0]

/-- `n` bytes at `buf + dstIndex`. -/
def memGet (n : ℕ) (buf : List UInt8) (dstIndex : ℕ) : Except Fault ℕ :=
  if dstIndex + n ≤ buf.length then .ok (leNat ((buf.drop dstIndex).take n)) else .error .bounds

def memGetByte (buf : List UInt8) (dstIndex : ℕ) : Except Fault UInt8 :=
  UInt8.ofNat <$> memGet 1 buf dstIndex

def memGetWord (buf : List UInt8) (dstIndex : ℕ) : Except Fault UInt16 :=
  UInt16.ofNat <$> memGet 2 buf dstIndex

def memGetInt (buf : List UInt8) (dstIndex : ℕ) : Except Fault UInt32 :=
  UInt32.ofNat <$> memGet 4 buf dstIndex

def memGetDouble (buf : List UInt8) (dstIndex : ℕ) : Except Fault UInt64 :=
  UInt64.ofNat <$> memGet 8 buf dstIndex

def memGetPtr (buf : List UInt8) (dstIndex : ℕ) : Except Fault UInt64 :=
  UInt64.ofNat <$> memGet 8 buf dstIndex

def memGetLong64 (buf : List UInt8) (dstIndex : ℕ) : Except Fault UInt64 :=
  UInt64.ofNat <$> memGet 8 buf dstIndex

/-- `memGetString`, with `maxStringLength - di` bytes still allowed: the byte is
read before the limit is checked. -/
def memGetString (buf : List UInt8) : ℕ → ℕ → Except Fault (List UInt8)
  | left, bufferIndex => do
    let b ← if bufferIndex < buf.length then .ok (buf.getD bufferIndex 0) else .error .bounds
    if b = 0 then return []
    match left with
    | 0 => return []
    | left + 1 => return b :: (← memGetString buf left (u32 (bufferIndex + 1)))

/-! ### The encoder -/

/-- `va_arg` for an `int` or an `unsigned int`; a `long` is passed in the same
slot and gives its low half. -/
def vaInt : Arg → Except Fault UInt32
  | .int v => .ok v
  | .long v => .ok v.toUInt32
  | _ => .error .argument

def vaLongLong : Arg → Except Fault UInt64
  | .longLong v => .ok v
  | .long v => .ok v
  | _ => .error .argument

def vaDouble : Arg → Except Fault UInt64
  | .double d => .ok d
  | _ => .error .argument

def vaPtr : Arg → Except Fault UInt64
  | .ptr p => .ok p
  | _ => .error .argument

def vaString : Arg → Except Fault (Option CString)
  | .str s => .ok s
  | _ => .error .argument

/-- The bytes one conversion stores for its argument. -/
def Kind.store : Kind → Arg → Except Fault (List UInt8)
  | .byte, a => do return memSetByte (← vaInt a).toUInt8
  | .word, a => do return memSetWord (← vaInt a).toUInt16
  | .int, a => do return memSetInt (← vaInt a)
  | .double, a => do return memSetDouble (← vaDouble a)
  | .ptr, a => do return memSetPtr (← vaPtr a)
  | .string, a => do return memSetString (← vaString a)
  | .long64, a => do return memSetLong64 (← vaLongLong a)

/-- The encoder's variables: the cursor, the flag, the arguments not yet
pulled, and what was stored. -/
structure EncodeState where
  i : ℕ
  insidePercent : Bool
  args : List Arg
  dst : List UInt8

/-- Pull one argument and store it. -/
def EncodeState.pull (st : EncodeState) (k : Kind) : Except Fault EncodeState :=
  match st.args with
  | [] => .error .argument
  | a :: args => do return { st with args := args, dst := st.dst ++ (← k.store a) }

/-- The encoder's `switch` after an `h` at `i`: the kind it stores, if any, and
where the loop goes on. -/
def encodeH (format : CString) (i : ℕ) : Except Fault (Option Kind × ℕ) := do
  let c1 ← format.at (i + 1)
  if c1 ∈ [chr 'o', chr 'x', chr 'X', chr 'u'] then return (some .word, i + 1)
  if c1 ∈ [chr 'd', chr 'i'] then return (some .word, i + 1)
  if c1 = chr 'h' then
    let c2 ← format.at (i + 2)
    -- `continue`: the `h` is read again, as a literal
    if c2 ∈ [chr 'x', chr 'X', chr 'u', chr 'o'] then return (some .word, i)
    return (none, i + 1)
  return (none, i + 1)

/-- The encoder's `switch` after an `l` at `i`. -/
def encodeL (format : CString) (i : ℕ) : Except Fault (Option Kind × ℕ) := do
  let c1 ← format.at (i + 1)
  if c1 = chr 'l' then
    let c2 ← format.at (i + 2)
    -- `i += 2` and `continue`: the conversion character is read as a literal
    if c2 ∈ [chr 'x', chr 'X', chr 'd', chr 'i', chr 'u'] then return (some .long64, i + 2)
    return (none, i + 1)
  if c1 ∈ [chr 'x', chr 'X', chr 'd', chr 'i', chr 'u'] then return (some .int, i + 1)
  if c1 = chr 'f' then return (some .double, i + 1)
  return (none, i + 1)

/-- The `switch` of the encoder on a character `c` at `i` after a `%`. -/
def encodeSwitch (format : CString) (c : UInt8) (i : ℕ) : Except Fault (Option Kind × ℕ) := do
  if c = chr 'h' then encodeH format i
  else if c = chr 'c' then return (some .byte, i + 1)
  else if c ∈ [chr 'd', chr 'u', chr 'i', chr 'x', chr 'X'] then return (some .int, i + 1)
  else if c = chr 'f' then return (some .double, i + 1)
  else if c = chr 'p' then return (some .ptr, i + 1)
  else if c = chr 's' then return (some .string, i + 1)
  else if c = chr 'l' then encodeL format i
  else throw .assertion

/-- The characters after which the encoder stays inside a conversion. -/
def staysInside (c : UInt8) : Bool :=
  c ∈ [chr '-', chr '+', chr ' ', chr '#', chr '.'] || isdigit c

/-- A round of the encoder's loop. -/
def encodeStep (format : CString) (st : EncodeState) :
    Except Fault (Loop.Next EncodeState (List UInt8)) := do
  let c ← format.at st.i
  if c = 0 then return .done st.dst
  if c = chr '%' then
    return .again { st with insidePercent := !st.insidePercent, i := st.i + 1 }
  if st.insidePercent then
    if staysInside c then return .again { st with i := st.i + 1 }
    let (kind, i) ← encodeSwitch format c st.i
    let st := { st with insidePercent := false, i := i }
    match kind with
    | none => return .again st
    | some kind => return .again (← st.pull kind)
  return .again { st with i := st.i + 1 }

/-- `encodeToArgsBuffer`: the bytes stored at `*argsBuffer`. -/
def encodeToArgsBuffer (format : CString) (args : List Arg) : Except Fault (List UInt8) :=
  Loop.run .fuel (encodeStep format) (2 * format.bytes.length + 2) ⟨0, false, args, []⟩

/-! ### The decoder -/

def indexInc (index v : ℕ) : ℕ := u32 (index + v)

/-- `strlcpy` of `siz - 1` characters into `tempFormat[32]`. -/
def strlcpy (src : List UInt8) (siz : ℕ) : Except Fault (List UInt8) :=
  if siz ≤ 32 then .ok (src.take (siz - 1)) else .error .bounds

/-- `while (format[i] != 0 && isdigit(format[i])) i++`. -/
def skipDigits (format : CString) : ℕ → ℕ → Except Fault ℕ
  | 0, _ => .error .fuel
  | n + 1, i => do
    let c ← format.at i
    if c ≠ 0 ∧ isdigit c then skipDigits format n (i + 1) else return i

/-- The characters the decoder takes as a flag. -/
def isFlag (c : UInt8) : Bool := c ∈ [chr '0', chr ' ', chr '#', chr '-', chr '+']

/-- From the character after a `%`: past the flag, the width and the precision. -/
def skipModifiers (format : CString) (i : ℕ) : Except Fault ℕ := do
  let fuel := format.bytes.length + 1
  let c ← format.at i
  let i := if isFlag c then i + 1 else i
  let i ← skipDigits format fuel i
  let c ← format.at i
  let i := if c = chr '.' then i + 1 else i
  skipDigits format fuel i

/-- What a conversion of the decoder does: print a stored value, or a `%`. -/
inductive Action where
  | print (k : Kind)
  | percent
deriving DecidableEq, Repr

/-- The decoder's `switch` after an `h` at `i`: what the conversion does and where
it ends, if it is one the decoder knows. -/
def decodeH (format : CString) (i : ℕ) : Except Fault (Option (Action × ℕ)) := do
  let c1 ← format.at (i + 1)
  if c1 ∈ [chr 'd', chr 'u', chr 'x', chr 'X', chr 'o', chr 'i'] then
    return some (.print .word, i + 2)
  if c1 = chr 'h' then
    let c2 ← format.at (i + 2)
    if c2 ∈ [chr 'x', chr 'X', chr 'u', chr 'o'] then return some (.print .word, i + 3)
    return none
  return none

/-- The decoder's `switch` after an `l` at `i`. -/
def decodeL (format : CString) (i : ℕ) : Except Fault (Option (Action × ℕ)) := do
  let c1 ← format.at (i + 1)
  if c1 = chr 'l' then
    let c2 ← format.at (i + 2)
    if c2 ∈ [chr 'd', chr 'i', chr 'x', chr 'u', chr 'X'] then return some (.print .long64, i + 3)
    return none
  if c1 ∈ [chr 'd', chr 'u', chr 'i', chr 'x', chr 'X'] then return some (.print .int, i + 2)
  if c1 = chr 'f' then return some (.print .double, i + 2)
  return none

/-- The `switch` of the decoder on the character at `i`. -/
def decodeSwitch (format : CString) (i : ℕ) : Except Fault (Option (Action × ℕ)) := do
  let c ← format.at i
  if c = chr 'h' then decodeH format i
  else if c = chr 'c' then return some (.print .byte, i + 1)
  else if c ∈ [chr 'd', chr 'u', chr 'i', chr 'x', chr 'X'] then return some (.print .int, i + 1)
  else if c = chr 'f' then return some (.print .double, i + 1)
  else if c = chr 'p' then return some (.print .ptr, i + 1)
  else if c = chr 's' then return some (.print .string, i + 1)
  else if c = chr 'l' then decodeL format i
  else if c = chr '%' then return some (.percent, i + 1)
  else return none

/-- The buffer that is printed into: what stands in front of the cursor, and what was
written at the cursor and behind it. `startOutputString` is where the cursor was on entry. -/
structure Output where
  startOutputString : ℕ
  text : List UInt8
  rest : List UInt8
deriving DecidableEq

namespace Output

/-- A call starts behind what its caller has printed, and behind that stands a NUL. -/
def start (front : List UInt8) : Output := ⟨front.length, front, [0]⟩

/-- All that was written. -/
def written (out : Output) : List UInt8 := out.text ++ out.rest

/-- Characters are stored at the cursor, and it moves behind them. -/
def put (s : List UInt8) (out : Output) : Output :=
  { out with text := out.text ++ s, rest := out.rest.drop s.length }

/-- A NUL is stored at the cursor. -/
def nul (out : Output) : Output := { out with rest := 0 :: out.rest.drop 1 }

/-- The cursor moves by -1, which is out of the buffer if nothing stands in front of it. -/
def back (out : Output) : Except Fault Output :=
  match out.text.getLast? with
  | none => .error .bounds
  | some c => .ok { out with text := out.text.dropLast, rest := c :: out.rest }

/-- `*outputStringLength`, where it is stored. -/
def length (out : Output) : Option ℕ :=
  if out.startOutputString < out.text.length then some (out.text.length - out.startOutputString) else none

end Output

/-- The number that decimal digits stand for; none stand for 0. -/
def digitsValue (ds : List UInt8) : ℕ := ds.foldl (fun n c => 10 * n + (c.toNat - 48)) 0

/-- Whether the width or the precision of a conversion `%[flag]digits[.digits]conv` is
above `INT_MAX`; then `sprintf` fails. -/
def overflows (spec : List UInt8) : Bool :=
  let s := spec.drop 1
  let s := if isFlag (s.getD 0 0) then s.drop 1 else s
  let width := s.takeWhile isdigit
  let s := s.dropWhile isdigit
  let precision := if s.getD 0 0 = chr '.' then (s.drop 1).takeWhile isdigit else []
  INT_MAX < digitsValue width || INT_MAX < digitsValue precision

/-- `outputString += sprintf(outputString, spec, ...)`, where `text` is what the conversion
prints: a call that fails prints nothing but the NUL, and returns -1. -/
def Output.sprintf (spec text : List UInt8) (out : Output) : Except Fault Output :=
  if overflows spec then out.nul.back else .ok (out.put text).nul

/-- The decoder's variables: the cursor, the index into the arguments, and the output. -/
structure DecodeState where
  i : ℕ
  argsBufferIndex : ℕ
  outputString : Output

/-- What a call leaves: its return value, `*argsBufferIndexPtr`, the output, and
`*outputStringLength` if it was stored. -/
structure DecodeResult where
  ret : ℕ
  argsBufferIndex : ℕ
  outputString : Output
  outputStringLength : Option ℕ
deriving DecidableEq

/-- Read a value of kind `k` other than a string and print it with `spec`; the
width of the value goes with it. -/
def Kind.print (env : Env) (spec : List UInt8) (buf : List UInt8) (index : ℕ) :
    Kind → Except Fault (List UInt8 × ℕ)
  | .byte => do return (env.sprintf spec (.int (← memGetByte buf index).toUInt32), 1)
  | .word => do return (env.sprintf spec (.int (← memGetWord buf index).toUInt32), 2)
  | .int => do return (env.sprintf spec (.int (← memGetInt buf index)), 4)
  | .double => do return (env.sprintf spec (.double (← memGetDouble buf index)), 8)
  | .ptr => do return (env.sprintf spec (.ptr (← memGetPtr buf index)), 8)
  | .long64 => do return (env.sprintf spec (.longLong (← memGetLong64 buf index)), 8)
  | .string => .error .argument

/-- `max_string`, as the bits of an `int`: the bytes left in the buffer without
the terminating NUL. -/
def maxString (outputStringMaxLength index : ℕ) : ℕ := u32Sub (u32Sub outputStringMaxLength index) 1

/-- Print the value of kind `k` at `index`; `entry` is `*argsBufferIndexPtr` on entry.
A string is copied without its NUL. -/
def printStored (env : Env) (argsBuffer : List UInt8) (entry outputStringMaxLength : ℕ) (k : Kind)
    (tempFormat : List UInt8) (index : ℕ) (out : Output) :
    Except Fault (Loop.Next (ℕ × Output) DecodeResult) := do
  if k = .string then
    let max_string := maxString outputStringMaxLength index
    -- a negative `int`: `return -1`, and `*argsBufferIndexPtr` is not stored
    if 2147483648 ≤ max_string then return .done ⟨UINT32_MAX, entry, out, none⟩
    let s ← memGetString argsBuffer max_string index
    return .again (indexInc index (s.length + 1), out.put s)
  else
    let (text, width) ← k.print env tempFormat argsBuffer index
    return .again (indexInc index width, ← out.sprintf tempFormat text)

/-- The conversion at the character `c` at `start`, if there is one: its action
and the cursor behind it. -/
def decodeConversion (format : CString) (start : ℕ) (c : UInt8) : Except Fault (Option (Action × ℕ)) :=
  if c = chr '%' then do decodeSwitch format (← skipModifiers format (start + 1)) else .ok none

/-- A round of the decoder's loop. -/
def decodeStep (env : Env) (format : CString) (argsBuffer : List UInt8) (entry outputStringMaxLength : ℕ)
    (st : DecodeState) : Except Fault (Loop.Next DecodeState DecodeResult) := do
  let c ← format.at st.i
  if c = 0 then
    return .done ⟨0, st.argsBufferIndex, st.outputString.nul, st.outputString.length⟩
  match ← decodeConversion format st.i c with
  | none =>
    -- not consumed: the character is printed and the next one is read
    return .again { st with i := st.i + 1, outputString := st.outputString.put [c] }
  | some (.percent, i) =>
    return .again { st with i := i, outputString := (st.outputString.put [chr '%']).nul }
  | some (.print k, i) =>
    let tempFormat ← strlcpy (format.bytes.drop st.i) (i - st.i + 1)
    match ← printStored env argsBuffer entry outputStringMaxLength k tempFormat st.argsBufferIndex
      st.outputString with
    | .done r => return .done r
    | .again (index, out) => return .again ⟨i, index, out⟩

/-- `decodeFromArgsBuffer`: `index` is `*argsBufferIndexPtr` on entry, and `front` stands
in front of `outputString` in its buffer. -/
def decodeFromArgsBuffer (env : Env) (format : CString) (argsBuffer : List UInt8)
    (index outputStringMaxLength : ℕ) (front : List UInt8) : Except Fault DecodeResult :=
  Loop.run .fuel (decodeStep env format argsBuffer index outputStringMaxLength)
    (format.bytes.length + 1) ⟨0, index, .start front⟩

end Memlog

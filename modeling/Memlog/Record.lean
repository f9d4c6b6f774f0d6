/-
# Records as they lie in the ring

`Log::Header` and `Log::Trailer` of `src/src/lib/log.h` as the compiler lays
them out on a 64-bit little-endian target: 56 bytes with four bytes of padding
behind `id`, the arguments of the format behind them (`stack[0]`), and 8 bytes
of trailer. Nothing sets the padding nor `unused`; they hold what the stack of
`traceVargs` held.

A header and its bytes determine each other (`Header.ofBytes_bytes`), so reading
a record back gives the header that was written.

Key definitions: `Header`, `Header.bytes`, `Header.ofBytes`, `record`.
-/
import Memlog.Machine

namespace Memlog

open ByteCodec

def START_PATTERN : UInt32 := 0xbeedface

def END_PATTERN : UInt32 := 0xfadebeef

/-- `LOG_MAX_LOG_TRACE_LINE`. -/
def LOG_MAX_LOG_TRACE_LINE : ℕ := 4096

/-- `Log::Header` with its padding. -/
structure Header where
  pattern : UInt32
  location : UInt32
  id : UInt32
  padding : UInt32
  format : UInt64
  functionName : UInt64
  lineNumber : UInt16
  length : UInt16
  tag : UInt8
  unused : BitVec 24
  tv_sec : UInt64
  tv_nsec : UInt64
deriving DecidableEq

/-- `sizeof(Log::Header)`. -/
def Header.size : ℕ := 56

/-- `sizeof(Log::Trailer)`. -/
def Trailer.size : ℕ := 8

/-- A header in memory. -/
def Header.bytes (h : Header) : List UInt8 :=
  leBytes 4 h.pattern.toNat ++ (leBytes 4 h.location.toNat ++ (leBytes 4 h.id.toNat ++
  (leBytes 4 h.padding.toNat ++ (leBytes 8 h.format.toNat ++ (leBytes 8 h.functionName.toNat ++
  (leBytes 2 h.lineNumber.toNat ++ (leBytes 2 h.length.toNat ++ (leBytes 1 h.tag.toNat ++
  (leBytes 3 h.unused.toNat ++ (leBytes 8 h.tv_sec.toNat ++ leBytes 8 h.tv_nsec.toNat))))))))))

/-- The `w` bytes at offset `o`, as a number. -/
def field (l : List UInt8) (o w : ℕ) : ℕ := leNat ((l.drop o).take w)

/-- A header from memory. -/
def Header.ofBytes (l : List UInt8) : Header where
  pattern := .ofNat (field l 0 4)
  location := .ofNat (field l 4 4)
  id := .ofNat (field l 8 4)
  padding := .ofNat (field l 12 4)
  format := .ofNat (field l 16 8)
  functionName := .ofNat (field l 24 8)
  lineNumber := .ofNat (field l 32 2)
  length := .ofNat (field l 34 2)
  tag := .ofNat (field l 36 1)
  unused := .ofNat _ (field l 37 3)
  tv_sec := .ofNat (field l 40 8)
  tv_nsec := .ofNat (field l 48 8)

/-- `Log::Trailer { id, END_PATTERN }` in memory. -/
def trailer (id : UInt32) : List UInt8 := leBytes 4 id.toNat ++ leBytes 4 END_PATTERN.toNat

/-- A complete log entry: header, arguments, trailer. -/
def record (hdr : Header) (args : List UInt8) : List UInt8 := hdr.bytes ++ (args ++ trailer hdr.id)

@[simp] theorem Header.bytes_length (h : Header) : h.bytes.length = 56 := by
  simp [Header.bytes]

@[simp] theorem trailer_length (id : UInt32) : (trailer id).length = 8 := by
  simp [trailer]

@[simp] theorem record_length (hdr : Header) (args : List UInt8) :
    (record hdr args).length = 64 + args.length := by
  simp [record]
  omega

theorem field_leBytes (w n : ℕ) (rest : List UInt8) : field (leBytes w n ++ rest) 0 w = n % 256 ^ w := by
  have htake : (leBytes w n ++ rest).take (leBytes w n).length = leBytes w n := List.take_left
  rw [leBytes_length] at htake
  rw [field, List.drop_zero, htake, leNat_leBytes]

theorem field_skip {w n o v : ℕ} {rest : List UInt8} (h : w ≤ o) :
    field (leBytes w n ++ rest) o v = field rest (o - w) v := by
  rw [field, field, List.drop_append, List.drop_eq_nil_of_le (by rw [leBytes_length]; exact h),
    List.nil_append, leBytes_length]

@[simp] theorem Header.ofBytes_bytes (h : Header) (rest : List UInt8) :
    Header.ofBytes (h.bytes ++ rest) = h := by
  have hu : h.unused.toNat % 16777216 = h.unused.toNat := Nat.mod_eq_of_lt h.unused.isLt
  simp [Header.ofBytes, Header.bytes, field_skip, field_leBytes, hu]

@[simp] theorem Header.ofBytes_record (hdr : Header) (args rest : List UInt8) :
    Header.ofBytes (record hdr args ++ rest) = hdr := by
  rw [record, List.append_assoc, Header.ofBytes_bytes]

end Memlog

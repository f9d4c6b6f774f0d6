/-
# What the program runs on

The parts of the C++ machine that every class uses: 32-bit arithmetic on
indices (`u32`), NUL-terminated strings (`CString`, which cannot hold a NUL and
is shorter than 2^31, since the code indexes its strings with an `int`), the
values a `va_list` carries (`Arg`), the ways an execution goes
wrong (`Fault`), and the environment (`Env`): the strings the program's pointers
reach, and the library functions that print one value.

`sprintf spec a` is what the C library prints for the one conversion `spec`
and the argument `a`, when the call succeeds; `strftime` is the text of a time in
seconds. Both are parameters. `strings` finds a string behind every pointer, so a
pointer that a forged entry holds does not end a run. `scratch` is what the
reader's stack buffer held before it was filled.
-/
import Mathlib.Data.Nat.Notation
import Memlog.Lib.Bytes
import Memlog.Lib.Loop

namespace Memlog

/-- How an execution goes wrong: an access outside its object, an assertion
that fails, an argument of another type than `va_arg` asks for, a loop that is
still running. -/
inductive Fault where
  | bounds
  | assertion
  | argument
  | fuel
deriving DecidableEq, Repr

/-- `UINT32_MAX`. -/
def UINT32_MAX : ℕ := 4294967295

/-- `INT_MAX`. -/
def INT_MAX : ℕ := 2147483647

/-- A `uint32_t` holds a number modulo 2^32. -/
def u32 (n : ℕ) : ℕ := n % 4294967296

/-- Subtraction of `uint32_t`s. -/
def u32Sub (a b : ℕ) : ℕ := u32 (a + (4294967296 - b))

theorem u32_lt (n : ℕ) : u32 n < 4294967296 := Nat.mod_lt _ (by decide)

theorem u32_zero_lt : 0 < 4294967296 := by decide

theorem u32_of_lt {n : ℕ} (h : n < 4294967296) : u32 n = n := Nat.mod_eq_of_lt h

theorem u32Sub_of_le {a b : ℕ} (h : b ≤ a) (ha : a < 4294967296) : u32Sub a b = a - b := by
  unfold u32Sub u32
  omega

/-- The byte of an ASCII character. -/
def chr (c : Char) : UInt8 := UInt8.ofNat c.toNat

/-- The bytes of an ASCII text. -/
def ascii (s : String) : List UInt8 := s.toList.map chr

/-- A C string: its bytes before the terminating NUL. -/
structure CString where
  bytes : List UInt8
  nul_free : 0 ∉ bytes
  length_lt : bytes.length < 2147483648
deriving DecidableEq

/-- `s[i]`: the terminating NUL is the last byte that may be read. -/
def CString.at (s : CString) (i : ℕ) : Except Fault UInt8 :=
  if i < s.bytes.length then .ok (s.bytes.getD i 0)
  else if i = s.bytes.length then .ok 0
  else .error .bounds

/-- A value in a `va_list`, by the type it was passed with; a `double` by its
bits, a pointer to a string by the string. -/
inductive Arg where
  | int (v : UInt32)
  | long (v : UInt64)
  | longLong (v : UInt64)
  | double (bits : UInt64)
  | ptr (p : UInt64)
  | str (s : Option CString)
deriving DecidableEq

/-- The environment of the program. -/
structure Env where
  strings : UInt64 → CString
  sprintf : List UInt8 → Arg → List UInt8
  strftime : UInt64 → List UInt8
  scratch : ℕ → UInt8

end Memlog

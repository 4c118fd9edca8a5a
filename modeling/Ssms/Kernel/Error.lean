/-!
# Errors (`srs_kernel_error.hpp`)

`srs_error_t` is a pointer to an `SrsCplxError`, with `srs_success` the null pointer. A function
that returns one is modelled as a computation that fails with the error, so success carries no
error value. An error keeps its code, its message and the error it wraps. A message is the format
string of the source with the arguments `vsnprintf` would be given; the formatted text itself is
not built. Function name, file, line, errno and context id are left out: only a description shows
them (`Ssms.Kernel.ErrorChain`).
-/

namespace Ssms.Kernel

/-- A byte string (`std::string`, or the characters of a `char*` before the final zero). -/
abbrev Bytes := List UInt8

/-- `value.c_str()` read as a C string: the bytes before the first zero. -/
def cStr (value : Bytes) : Bytes := value.takeWhile (· ≠ 0)

/-- The characters of a string literal. -/
def ascii (s : String) : Bytes := s.toList.map fun c => UInt8.ofNat c.toNat

/-- An argument of a format string. -/
inductive MsgArg where
  | int (v : Int)
  | str (v : Bytes)
  deriving Repr, DecidableEq

/-- A message: format string and arguments. -/
structure Msg where
  fmt : String
  args : List MsgArg
  deriving Repr, DecidableEq

/-- `SrsCplxError`: code, message, wrapped error. -/
inductive SrsCplxError where
  | mk (code : Int) (msg : Msg) (wrapped : Option SrsCplxError)

namespace SrsCplxError

/-- `SrsCplxError::error_code` of an error. -/
def errorCode : SrsCplxError → Int
  | .mk code _ _ => code

/-- `srs_error_new(ret, fmt, ...)`. -/
def new (ret : Int) (fmt : String) (args : List MsgArg) : SrsCplxError :=
  .mk ret ⟨fmt, args⟩ none

/-- `srs_error_wrap(err, fmt, ...)`: the code is the wrapped error's. -/
def wrap (err : SrsCplxError) (fmt : String) (args : List MsgArg) : SrsCplxError :=
  .mk err.errorCode ⟨fmt, args⟩ (some err)

end SrsCplxError

/-- How a run can end without a value. -/
inductive Fault where
  | error (e : SrsCplxError)
  | assertFailed
  | outOfBounds
  | outOfFuel

/-- Fault at a wrapped error, or the same fault. -/
def Fault.wrap (fmt : String) (args : List MsgArg) : Fault → Fault
  | .error e => .error (e.wrap fmt args)
  | f => f

/-! ## The codes of the AMF0 codec -/

/-- `ERROR_RTMP_AMF0_DECODE`. -/
def errorRtmpAmf0Decode : Int := 2003

/-- `ERROR_RTMP_AMF0_INVALID`. -/
def errorRtmpAmf0Invalid : Int := 2004

/-- `ERROR_RTMP_AMF0_ENCODE`. -/
def errorRtmpAmf0Encode : Int := 2009

end Ssms.Kernel

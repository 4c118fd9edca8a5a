import Ssms.Kernel.Buffer
import Ssms.Amf0.Value

/-!
# The AMF0 codec (`srs_protocol_amf0.cpp`)

`read` of a class updates an instance, so its model takes the fields the instance holds and returns
the new ones; `write` stores an instance. Both follow the source statement by statement over the
cursor of `SrsBuffer`, with the texts of its errors.

`srs_amf0_read_any` and the `read` of the three containers are mutually recursive. Here `read` takes
the recursive call as a parameter, and `srsAmf0ReadAnyFuel n` ties the knot `n` levels deep; the
`while` loop of the property tables has a fuel of its own. `srsAmf0ReadAny` starts both from the
number of unread bytes, which is always enough (`srsAmf0ReadAny_eq`, proved with the decoder's
specification).
-/

namespace Ssms.Amf0

open Ssms.Kernel Ssms.Kernel.SrsBuffer Ssms.Protocol

/-- A `char` passed to `%#x`: it is promoted to `int` with its sign. -/
def MsgArg.ofChar (c : UInt8) : MsgArg := .int c.toBitVec.toInt

/-! ## Reading -/

/-- The marker check every `read` starts with. -/
def readMarker (marker : UInt8) (short invalid : String) : Exec Unit := do
  requireOr 1 errorRtmpAmf0Decode short []
  let m ← read1bytes
  if m ≠ marker then srsErrorNew errorRtmpAmf0Decode invalid [MsgArg.ofChar m] else pure ()

/-- `srs_amf0_read_utf8`: `value` is the string to be overwritten. -/
def srsAmf0ReadUtf8 (value : Bytes) : Exec Bytes := do
  requireOr 2 errorRtmpAmf0Decode "requires 2 only %d bytes" []
  let len ← read2bytes
  if len.toInt ≤ 0 then pure value
  else do
    requireOr len.toInt errorRtmpAmf0Decode "requires %d only %d bytes" [.int len.toInt]
    readString len.toInt

def srsAmf0ReadString (value : Bytes) : Exec Bytes := do
  readMarker rtmpAmf0String "requires 1 only %d bytes" "String invalid marker=%#x"
  srsAmf0ReadUtf8 value

def srsAmf0ReadBoolean : Exec Bool := do
  readMarker rtmpAmf0Boolean "requires 1 only %d bytes" "Boolean invalid marker=%#x"
  requireOr 1 errorRtmpAmf0Decode "requires 1 only %d bytes" []
  let x ← read1bytes
  pure (decide (x ≠ 0))

def srsAmf0ReadNumber : Exec (BitVec 64) := do
  readMarker rtmpAmf0Number "requires 1 only %d bytes" "Number invalid marker=%#x"
  requireOr 8 errorRtmpAmf0Decode "requires 8 only %d bytes" []
  read8bytes

def srsAmf0ReadNull : Exec Unit :=
  readMarker rtmpAmf0Null "requires 1 only %d bytes" "Null invalid marker=%#x"

def srsAmf0ReadUndefined : Exec Unit :=
  readMarker rtmpAmf0Undefined "requires 1 only %d bytes" "Undefined invalid marker=%#x"

/-- `SrsAmf0Date::read`: value and time zone. -/
def SrsAmf0Date.read : Exec (BitVec 64 × BitVec 16) := do
  readMarker rtmpAmf0Date "requires 1 only %d bytes" "Date invalid marker=%#x"
  requireOr 8 errorRtmpAmf0Decode "requires 8 only %d bytes" []
  let dateValue ← read8bytes
  requireOr 2 errorRtmpAmf0Decode "requires 2 only %d bytes" []
  let timeZone ← read2bytes
  pure (dateValue, timeZone)

/-- `SrsAmf0ObjectEOF::read`. -/
def SrsAmf0ObjectEOF.read : Exec Unit := do
  requireOr 2 errorRtmpAmf0Decode "EOF requires 2 only %d bytes" []
  let temp ← read2bytes
  if temp ≠ 0x00 then srsErrorNew errorRtmpAmf0Decode "EOF invalid marker=%#x" [.int temp.toInt]
  else readMarker rtmpAmf0ObjectEnd "EOF requires 1 only %d bytes" "EOF invalid marker=%#x"

/-- `srs_amf0_is_object_eof`: peek three bytes. -/
def srsAmf0IsObjectEof : Exec Bool := do
  let b ← get
  if b.require 3 then do
    let flag ← read3bytes
    skip (-3)
    pure (decide (0x09 = flag))
  else pure false

/-- The fresh instance for a marker: the `switch` of `SrsAmf0Any::discovery`. -/
def SrsAmf0Any.ofMarker (marker : UInt8) : Option SrsAmf0Any :=
  if marker = rtmpAmf0String then some (.string [])
  else if marker = rtmpAmf0Boolean then some (.boolean false)
  else if marker = rtmpAmf0Number then some (.number 0)
  else if marker = rtmpAmf0Null then some .null
  else if marker = rtmpAmf0Undefined then some .undefined
  else if marker = rtmpAmf0Object then some .newObject
  else if marker = rtmpAmf0EcmaArray then some .newEcmaArray
  else if marker = rtmpAmf0StrictArray then some .newStrictArray
  else if marker = rtmpAmf0Date then some (.newDate 0)
  else none

/-- `SrsAmf0Any::discovery`: a fresh instance for what comes next, without consuming it. -/
def SrsAmf0Any.discovery : Exec SrsAmf0Any := do
  let eof ← srsAmf0IsObjectEof
  if eof then pure .objectEOF
  else do
    requireOr 1 errorRtmpAmf0Decode "marker requires 1 only %d bytes" []
    let marker ← read1bytes
    skip (-1)
    match SrsAmf0Any.ofMarker marker with
    | some v => pure v
    | none =>
      srsErrorNew errorRtmpAmf0Invalid "invalid amf0 message, marker=%#x" [MsgArg.ofChar marker]

section Containers

variable (readAny : Exec SrsAmf0Any)

/-- The `while` loop of `SrsAmf0Object::read` and `SrsAmf0EcmaArray::read`. -/
def readProperties : Nat → List (Bytes × SrsAmf0Any) → Exec (List (Bytes × SrsAmf0Any))
  | 0, _ => throw .outOfFuel
  | fuel + 1, properties => do
    let b ← get
    if b.empty then pure properties
    else do
      let eof ← srsAmf0IsObjectEof
      if eof then do
        wrapping "read EOF" [] SrsAmf0ObjectEOF.read
        pure properties
      else do
        let name ← wrapping "read property name" [] (srsAmf0ReadUtf8 [])
        let value ← wrapping "read property value, name=%s" [.str (cStr name)] readAny
        readProperties fuel (SrsUnSortedHashtable.set properties name (some value))

/-- The `for` loop of `SrsAmf0StrictArray::read`, with `n` elements still expected. -/
def readElements : Nat → List SrsAmf0Any → Exec (List SrsAmf0Any)
  | 0, properties => pure properties
  | n + 1, properties => do
    let b ← get
    if b.empty then pure properties
    else do
      let elem ← wrapping "read property" [] readAny
      readElements n (properties ++ [elem])

/-- `SrsAmf0Object::read` into an instance that holds `properties`. -/
def SrsAmf0Object.read (properties : List (Bytes × SrsAmf0Any)) :
    Exec (List (Bytes × SrsAmf0Any)) := do
  readMarker rtmpAmf0Object "object requires 1 only %d bytes" "object invalid marker=%#x"
  let b ← get
  readProperties readAny (b.left.toNat + 1) properties

/-- `SrsAmf0EcmaArray::read` into an instance that holds `properties`. -/
def SrsAmf0EcmaArray.read (properties : List (Bytes × SrsAmf0Any)) :
    Exec (BitVec 32 × List (Bytes × SrsAmf0Any)) := do
  readMarker rtmpAmf0EcmaArray "requires 1 only %d bytes" "EcmaArray invalid marker=%#x"
  requireOr 4 errorRtmpAmf0Decode "requires 4 only %d bytes" []
  let count ← read4bytes
  let b ← get
  let properties ← readProperties readAny (b.left.toNat + 1) properties
  pure (count, properties)

/-- `SrsAmf0StrictArray::read` into an instance that holds `properties`. -/
def SrsAmf0StrictArray.read (properties : List SrsAmf0Any) :
    Exec (BitVec 32 × List SrsAmf0Any) := do
  readMarker rtmpAmf0StrictArray "requires 1 only %d bytes" "StrictArray invalid marker=%#x"
  requireOr 4 errorRtmpAmf0Decode "requires 4 only %d bytes" []
  let count ← read4bytes
  let properties ← readElements readAny count.toInt.toNat properties
  pure (count, properties)

/-- The virtual `read`: the instance after reading into it. -/
def SrsAmf0Any.read : SrsAmf0Any → Exec SrsAmf0Any
  | .string value => .string <$> srsAmf0ReadString value
  | .boolean _ => .boolean <$> srsAmf0ReadBoolean
  | .number _ => .number <$> srsAmf0ReadNumber
  | .date _ _ => (fun d => .date d.1 d.2) <$> SrsAmf0Date.read
  | .null => (fun _ => .null) <$> srsAmf0ReadNull
  | .undefined => (fun _ => .undefined) <$> srsAmf0ReadUndefined
  | .objectEOF => (fun _ => .objectEOF) <$> SrsAmf0ObjectEOF.read
  | .object properties => .object <$> SrsAmf0Object.read readAny properties
  | .ecmaArray _ properties =>
    (fun r => .ecmaArray r.1 r.2) <$> SrsAmf0EcmaArray.read readAny properties
  | .strictArray _ properties =>
    (fun r => .strictArray r.1 r.2) <$> SrsAmf0StrictArray.read readAny properties

end Containers

/-- `srs_amf0_read_any`, at most `n` levels deep. -/
def srsAmf0ReadAnyFuel : Nat → Exec SrsAmf0Any
  | 0 => throw .outOfFuel
  | n + 1 => do
    let v ← wrapping "discovery" [] SrsAmf0Any.discovery
    wrapping "parse elem" [] (v.read (srsAmf0ReadAnyFuel n))

/-- `srs_amf0_read_any`. -/
def srsAmf0ReadAny : Exec SrsAmf0Any := fun b => srsAmf0ReadAnyFuel (b.left.toNat + 1) b

/-- `*ppvalue` after `srs_amf0_read_any`: untouched when discovery fails, freed and set to null when
reading the instance fails. -/
def srsAmf0ReadAnyOut (ppvalue : Option SrsAmf0Any) (b : SrsBuffer) : Option SrsAmf0Any :=
  match SrsAmf0Any.discovery b with
  | .error _ _ => ppvalue
  | .ok v b' =>
    match v.read srsAmf0ReadAny b' with
    | .error _ _ => none
    | .ok v' _ => some v'

/-! ## Writing -/

/-- The marker every `write` starts with. -/
def writeMarker (marker : UInt8) (short : String) : Exec Unit := do
  requireOr 1 errorRtmpAmf0Encode short []
  write1bytes marker

/-- `srs_amf0_write_utf8`. -/
def srsAmf0WriteUtf8 (value : Bytes) : Exec Unit := do
  requireOr 2 errorRtmpAmf0Encode "requires 2 only %d bytes" []
  write2bytes (BitVec.ofNat 16 value.length)
  if value.length ≤ 0 then pure ()
  else do
    requireOr (intOfSize value.length) errorRtmpAmf0Encode "requires %lu only %d bytes"
      [.int value.length]
    writeString value

def srsAmf0WriteString (value : Bytes) : Exec Unit := do
  writeMarker rtmpAmf0String "requires 1 only %d bytes"
  srsAmf0WriteUtf8 value

def srsAmf0WriteBoolean (value : Bool) : Exec Unit := do
  writeMarker rtmpAmf0Boolean "requires 1 only %d bytes"
  requireOr 1 errorRtmpAmf0Encode "requires 1 only %d bytes" []
  write1bytes (if value then 0x01 else 0x00)

def srsAmf0WriteNumber (value : BitVec 64) : Exec Unit := do
  writeMarker rtmpAmf0Number "requires 1 only %d bytes"
  requireOr 8 errorRtmpAmf0Encode "requires 8 only %d bytes" []
  write8bytes value

def srsAmf0WriteNull : Exec Unit := writeMarker rtmpAmf0Null "requires 1 only %d bytes"

def srsAmf0WriteUndefined : Exec Unit := writeMarker rtmpAmf0Undefined "requires 1 only %d bytes"

/-- `SrsAmf0Date::write`. -/
def SrsAmf0Date.write (dateValue : BitVec 64) (timeZone : BitVec 16) : Exec Unit := do
  writeMarker rtmpAmf0Date "requires 1 only %d bytes"
  requireOr 8 errorRtmpAmf0Encode "requires 8 only %d bytes" []
  write8bytes dateValue
  requireOr 2 errorRtmpAmf0Encode "requires 2 only %d bytes" []
  write2bytes timeZone

/-- `SrsAmf0ObjectEOF::write`. -/
def SrsAmf0ObjectEOF.write : Exec Unit := do
  requireOr 2 errorRtmpAmf0Encode "EOF requires 2 only %d bytes" []
  write2bytes 0x00
  requireOr 1 errorRtmpAmf0Encode "EOF requires 1 only %d bytes" []
  write1bytes rtmpAmf0ObjectEnd

mutual

/-- The virtual `write`. -/
def SrsAmf0Any.write : SrsAmf0Any → Exec Unit
  | .string value => srsAmf0WriteString value
  | .boolean value => srsAmf0WriteBoolean value
  | .number value => srsAmf0WriteNumber value
  | .date dateValue timeZone => SrsAmf0Date.write dateValue timeZone
  | .null => srsAmf0WriteNull
  | .undefined => srsAmf0WriteUndefined
  | .objectEOF => SrsAmf0ObjectEOF.write
  | .object properties => do
    writeMarker rtmpAmf0Object "object requires 1 only %d bytes"
    writeProperties properties
    wrapping "write EOF" [] SrsAmf0ObjectEOF.write
  | .ecmaArray count properties => do
    writeMarker rtmpAmf0EcmaArray "requires 1 only %d bytes"
    requireOr 4 errorRtmpAmf0Encode "requires 4 only %d bytes" []
    write4bytes count
    writeProperties properties
    wrapping "write EOF" [] SrsAmf0ObjectEOF.write
  | .strictArray count properties => do
    writeMarker rtmpAmf0StrictArray "requires 1 only %d bytes"
    requireOr 4 errorRtmpAmf0Encode "requires 4 only %d bytes" []
    write4bytes count
    writeElements properties

/-- The loop over the properties in `write`. -/
def writeProperties : List (Bytes × SrsAmf0Any) → Exec Unit
  | [] => pure ()
  | (name, any) :: properties => do
    wrapping "write property name=%s" [.str (cStr name)] (srsAmf0WriteUtf8 name)
    wrapping "write property value, name=%s" [.str (cStr name)] any.write
    writeProperties properties

/-- The loop over the elements in `write`. -/
def writeElements : List SrsAmf0Any → Exec Unit
  | [] => pure ()
  | any :: properties => do
    wrapping "write property" [] any.write
    writeElements properties

end

end Ssms.Amf0

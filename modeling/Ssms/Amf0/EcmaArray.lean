import Ssms.Amf0.Encode
import Ssms.Lib.Run

/-!
# The count of an ECMA array (`SrsAmf0EcmaArray`)

`_count` is kept beside the property table. The constructor sets it to zero, `copy` copies it, and
only `read` stores another value: `set` and `clear` change the table alone. `write` emits `_count`
and then every pair of the table.

* `emitsCount_iff`: an array built by `set`, `clear` and `copy` emits the number of its pairs only
  where it has none.
-/

namespace Ssms.Amf0

open Ssms.Kernel Ssms.Kernel.SrsBuffer Ssms.Lib Ssms.Lib.BigEndian Ssms.Protocol

/-- The fields of an instance. -/
structure SrsAmf0EcmaArray where
  count : BitVec 32
  properties : List (Bytes × SrsAmf0Any)
  deriving Repr

namespace SrsAmf0EcmaArray

/-- The instance as a value. -/
def toAny (a : SrsAmf0EcmaArray) : SrsAmf0Any := .ecmaArray a.count a.properties

/-- `SrsAmf0Any::ecma_array()`. -/
def new : SrsAmf0EcmaArray := ⟨0, []⟩

/-- `set(key, value)`; the value may be null. -/
def set (a : SrsAmf0EcmaArray) (key : Bytes) (value : Option SrsAmf0Any) : SrsAmf0EcmaArray :=
  { a with properties := SrsUnSortedHashtable.set a.properties key value }

/-- `clear()`. -/
def clear (a : SrsAmf0EcmaArray) : SrsAmf0EcmaArray := { a with properties := [] }

/-- `copy()`. -/
def copy (a : SrsAmf0EcmaArray) : SrsAmf0EcmaArray := ⟨a.count, copyProperties [] a.properties⟩

end SrsAmf0EcmaArray

/-- A step of a run. -/
inductive EcmaStep : SrsAmf0EcmaArray → SrsAmf0EcmaArray → Prop
  | set (a) (key : Bytes) (value : Option SrsAmf0Any) : EcmaStep a (a.set key value)
  | clear (a) : EcmaStep a a.clear
  | copy (a) : EcmaStep a a.copy

/-- The arrays reached from `ecma_array()`. -/
abbrev EcmaReached : SrsAmf0EcmaArray → Prop :=
  Run.Reached (· = SrsAmf0EcmaArray.new) EcmaStep

/-- The bytes are those of an array that announces as many pairs as it holds. -/
def EmitsCount (a : SrsAmf0EcmaArray) (l : Bytes) : Prop :=
  ∃ u32 : Bytes, u32.length = 4 ∧ ofBytes u32 = SrsUnSortedHashtable.count a.properties ∧
    l = rtmpAmf0EcmaArray :: (u32 ++ (encodeProperties a.properties ++ encodeObjectEof))

/-- No step changes `_count`. -/
theorem EcmaStep.count_eq {a a' : SrsAmf0EcmaArray} (h : EcmaStep a a') : a'.count = a.count := by
  cases h <;> rfl

/-- **`_count` stays zero.** -/
theorem count_of_ecmaReached {a : SrsAmf0EcmaArray} (h : EcmaReached a) : a.count = 0 := by
  induction h with
  | start h =>
    subst h
    rfl
  | step _ hstep ih => rw [hstep.count_eq, ih]

/-- What `write` emits of an array, with the count first. -/
theorem written_ecmaArray {a : SrsAmf0EcmaArray} {b b' : SrsBuffer}
    (hw : a.toAny.write b = .ok () b') :
    b.written b' = rtmpAmf0EcmaArray ::
      (toBytes 4 a.count.toNat ++ (encodeProperties a.properties ++ encodeObjectEof)) := by
  rw [(stores_any a.toAny).written hw]
  rfl

/-- **`write` emits the number of pairs exactly where there is none.** -/
theorem emitsCount_iff (a : SrsAmf0EcmaArray) (h : EcmaReached a) (b b' : SrsBuffer)
    (hw : a.toAny.write b = .ok () b') : EmitsCount a (b.written b') ↔ a.properties = [] := by
  have hwritten := written_ecmaArray hw
  rw [count_of_ecmaReached h] at hwritten
  constructor
  · rintro ⟨u32, hlen, hcount, hl⟩
    rw [hwritten, List.cons.injEq] at hl
    obtain ⟨rfl, -⟩ := List.append_inj hl.2 (by rw [hlen, toBytes_length])
    rw [ofBytes_toBytes] at hcount
    simpa [SrsUnSortedHashtable.count] using hcount.symm
  · intro hnil
    refine ⟨toBytes 4 0, toBytes_length 4 0, ?_, hwritten⟩
    rw [hnil]
    rfl

/-- A pair that is set to null again. -/
theorem emitsCount_removed :
    EmitsCount ((SrsAmf0EcmaArray.new.set [0x61] (some .null)).set [0x61] none)
      [0x08, 0x00, 0x00, 0x00, 0x00, 0x00, 0x00, 0x09] :=
  (emitsCount_iff _ (.step (.step (.start rfl) (.set _ [0x61] (some .null))) (.set _ [0x61] none))
    (SrsBuffer.new (List.replicate 8 0) (by decide))
    ((SrsBuffer.new [0x08, 0x00, 0x00, 0x00, 0x00, 0x00, 0x00, 0x09] (by decide)).advance 8)
    rfl).mpr rfl

/-- One pair, after a count of zero. -/
theorem set_keeps_count :
    EcmaReached (SrsAmf0EcmaArray.new.set [0x61] (some .null)) ∧
    (SrsAmf0EcmaArray.new.set [0x61] (some .null)).toAny.write
        (SrsBuffer.new (List.replicate 12 0) (by decide)) =
      .ok () ((SrsBuffer.new [0x08, 0x00, 0x00, 0x00, 0x00, 0x00, 0x01, 0x61, 0x05, 0x00, 0x00,
        0x09] (by decide)).advance 12) ∧
    SrsUnSortedHashtable.count (SrsAmf0EcmaArray.new.set [0x61] (some .null)).properties = 1 :=
  ⟨.step (.start rfl) (.set _ [0x61] (some .null)), rfl, rfl⟩

end Ssms.Amf0

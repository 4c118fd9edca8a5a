import Ssms.Amf0.Codec

/-!
# What `write` stores, and how long it is

`encode v` is the byte string of a value, as the grammar comments of `srs_protocol_amf0.hpp` spell
it out. `writes_any` connects it to the code: `write` stores exactly `encode v` when it fits, and
fails with `ERROR_RTMP_AMF0_ENCODE` otherwise. Its length is `totalSize` (`length_encode`), so the
two recursions the source keeps apart agree, and `write_iff_totalSize_le` is the size law: `write`
succeeds exactly on cursors with `total_size()` bytes left.
-/

namespace Ssms.Amf0

open Ssms.Kernel Ssms.Kernel.SrsBuffer Ssms.Lib.BigEndian

/-- `UTF-8 = U16 *(UTF8-char)`; the length is cast to `int16_t`. -/
def encodeUtf8 (value : Bytes) : Bytes :=
  toBytes 2 (BitVec.ofNat 16 value.length).toNat ++ value

/-- `object-end-type = UTF-8-empty object-end-marker`. -/
def encodeObjectEof : Bytes := [0x00, 0x00, rtmpAmf0ObjectEnd]

mutual

/-- The bytes of a value. -/
def SrsAmf0Any.encode : SrsAmf0Any → Bytes
  | .string value => rtmpAmf0String :: encodeUtf8 value
  | .boolean value => [rtmpAmf0Boolean, if value then 0x01 else 0x00]
  | .number value => rtmpAmf0Number :: toBytes 8 value.toNat
  | .date dateValue timeZone =>
    rtmpAmf0Date :: (toBytes 8 dateValue.toNat ++ toBytes 2 timeZone.toNat)
  | .null => [rtmpAmf0Null]
  | .undefined => [rtmpAmf0Undefined]
  | .objectEOF => encodeObjectEof
  | .object properties => rtmpAmf0Object :: (encodeProperties properties ++ encodeObjectEof)
  | .ecmaArray count properties =>
    rtmpAmf0EcmaArray :: (toBytes 4 count.toNat ++ (encodeProperties properties ++ encodeObjectEof))
  | .strictArray count properties =>
    rtmpAmf0StrictArray :: (toBytes 4 count.toNat ++ encodeElements properties)

/-- `*(object-property)`. -/
def encodeProperties : List (Bytes × SrsAmf0Any) → Bytes
  | [] => []
  | (name, any) :: properties => encodeUtf8 name ++ (any.encode ++ encodeProperties properties)

/-- `*(value-type)`. -/
def encodeElements : List SrsAmf0Any → Bytes
  | [] => []
  | any :: properties => any.encode ++ encodeElements properties

end

/-! ## Lengths -/

theorem length_encodeUtf8 (value : Bytes) : (encodeUtf8 value).length = SrsAmf0Size.utf8 value := by
  rw [encodeUtf8, List.length_append, toBytes_length, SrsAmf0Size.utf8]

theorem length_encodeProperties : ∀ {ps : List (Bytes × SrsAmf0Any)},
    (∀ e ∈ ps, e.2.encode.length = e.2.totalSize) →
    (encodeProperties ps).length = propertiesSize ps
  | [], _ => rfl
  | (name, any) :: ps, h => by
    obtain ⟨hany, hps⟩ := List.forall_mem_cons.mp h
    rw [encodeProperties, propertiesSize, List.length_append, List.length_append,
      length_encodeUtf8, hany, length_encodeProperties hps, Nat.add_assoc]

theorem length_encodeElements : ∀ {ps : List SrsAmf0Any},
    (∀ e ∈ ps, e.encode.length = e.totalSize) → (encodeElements ps).length = elementsSize ps
  | [], _ => rfl
  | any :: ps, h => by
    obtain ⟨hany, hps⟩ := List.forall_mem_cons.mp h
    rw [encodeElements, elementsSize, List.length_append, hany, length_encodeElements hps]

/-- **A value takes `totalSize` bytes.** -/
theorem length_encode (v : SrsAmf0Any) : v.encode.length = v.totalSize := by
  induction v with
  | string value =>
    rw [SrsAmf0Any.encode, List.length_cons, length_encodeUtf8, SrsAmf0Any.totalSize,
      SrsAmf0Size.str, Nat.add_comm]
  | boolean value => rfl
  | number value => simp [SrsAmf0Any.encode, SrsAmf0Any.totalSize, SrsAmf0Size.number]
  | date dateValue timeZone =>
    simp [SrsAmf0Any.encode, SrsAmf0Any.totalSize, SrsAmf0Size.date]
  | null => rfl
  | undefined => rfl
  | objectEOF => rfl
  | object ps ih =>
    rw [SrsAmf0Any.encode, SrsAmf0Any.totalSize, List.length_cons, List.length_append,
      length_encodeProperties ih]
    show propertiesSize ps + 3 + 1 = 1 + propertiesSize ps + 3
    omega
  | ecmaArray count ps ih =>
    rw [SrsAmf0Any.encode, SrsAmf0Any.totalSize, List.length_cons, List.length_append,
      List.length_append, length_encodeProperties ih, toBytes_length]
    show 4 + (propertiesSize ps + 3) + 1 = 1 + 4 + propertiesSize ps + 3
    omega
  | strictArray count ps ih =>
    rw [SrsAmf0Any.encode, SrsAmf0Any.totalSize, List.length_cons, List.length_append,
      length_encodeElements ih, toBytes_length]
    omega

/-! ## The writers -/

theorem writes_marker (marker : UInt8) (short : String) :
    Writes errorRtmpAmf0Encode (writeMarker marker short) [marker] :=
  Writes.write1bytes marker short []

theorem writes_utf8 {value : Bytes} (h : value.length < 2 ^ 31) :
    Writes errorRtmpAmf0Encode (srsAmf0WriteUtf8 value) (encodeUtf8 value) := by
  have hlen : Writes errorRtmpAmf0Encode
      (requireOr 2 errorRtmpAmf0Encode "requires 2 only %d bytes" [] >>= fun _ =>
        write2bytes (BitVec.ofNat 16 value.length))
      (toBytes 2 (BitVec.ofNat 16 value.length).toNat) :=
    Writes.writeBe two_pos _ _ _
  rw [srsAmf0WriteUtf8, ← bind_assoc]
  refine hlen.seq ?_
  cases value with
  | nil => exact Writes.nil
  | cons x l =>
    rw [if_neg (by simp)]
    exact Writes.writeString (List.cons_ne_nil x l) h _ _

theorem writes_objectEof :
    Writes errorRtmpAmf0Encode SrsAmf0ObjectEOF.write encodeObjectEof := by
  have hzero : Writes errorRtmpAmf0Encode
      (requireOr 2 errorRtmpAmf0Encode "EOF requires 2 only %d bytes" [] >>= fun _ =>
        write2bytes 0x00) [0x00, 0x00] :=
    Writes.writeBe two_pos _ _ _
  rw [SrsAmf0ObjectEOF.write, ← bind_assoc]
  exact hzero.seq (Writes.write1bytes rtmpAmf0ObjectEnd _ [])

/-- A 4-byte count after a marker. -/
theorem writes_count (count : BitVec 32) :
    Writes errorRtmpAmf0Encode
      (requireOr 4 errorRtmpAmf0Encode "requires 4 only %d bytes" [] >>= fun _ =>
        write4bytes count) (toBytes 4 count.toNat) :=
  Writes.writeBe four_pos _ _ _

theorem writes_properties : ∀ {ps : List (Bytes × SrsAmf0Any)}, propertiesSize ps < 2 ^ 31 →
    (∀ e ∈ ps, e.2.totalSize < 2 ^ 31 → Writes errorRtmpAmf0Encode e.2.write e.2.encode) →
    Writes errorRtmpAmf0Encode (writeProperties ps) (encodeProperties ps)
  | [], _, _ => Writes.nil
  | (name, any) :: ps, hlt, h => by
    obtain ⟨hany, hps⟩ := List.forall_mem_cons.mp h
    rw [propertiesSize, SrsAmf0Size.utf8] at hlt
    rw [writeProperties, encodeProperties]
    have hname : Writes errorRtmpAmf0Encode (srsAmf0WriteUtf8 name) (encodeUtf8 name) :=
      writes_utf8 (by omega)
    have hvalue : Writes errorRtmpAmf0Encode any.write any.encode :=
      hany (show any.totalSize < 2 ^ 31 by omega)
    exact (hname.wrapping _ _).seq ((hvalue.wrapping _ _).seq (writes_properties (by omega) hps))

theorem writes_elements : ∀ {ps : List SrsAmf0Any}, elementsSize ps < 2 ^ 31 →
    (∀ e ∈ ps, e.totalSize < 2 ^ 31 → Writes errorRtmpAmf0Encode e.write e.encode) →
    Writes errorRtmpAmf0Encode (writeElements ps) (encodeElements ps)
  | [], _, _ => Writes.nil
  | any :: ps, hlt, h => by
    obtain ⟨hany, hps⟩ := List.forall_mem_cons.mp h
    rw [elementsSize] at hlt
    rw [writeElements, encodeElements]
    exact ((hany (by omega)).wrapping _ _).seq (writes_elements (by omega) hps)

/-- **`write` stores `encode v`**, or fails with the encode error. -/
theorem writes_any {v : SrsAmf0Any} (h : v.totalSize < 2 ^ 31) :
    Writes errorRtmpAmf0Encode v.write v.encode := by
  induction v with
  | string value =>
    rw [SrsAmf0Any.totalSize, SrsAmf0Size.str, SrsAmf0Size.utf8] at h
    exact (writes_marker _ _).seq (writes_utf8 (by omega))
  | boolean value => exact (writes_marker _ _).seq (Writes.write1bytes _ _ [])
  | number value => exact (writes_marker _ _).seq (Writes.writeBe (n := 8) (by decide) value _ [])
  | date dateValue timeZone =>
    refine (writes_marker _ _).seq ?_
    rw [← bind_assoc]
    exact Writes.seq (Writes.writeBe (n := 8) (by decide) dateValue _ [])
      (Writes.writeBe two_pos timeZone _ [])
  | null => exact writes_marker _ _
  | undefined => exact writes_marker _ _
  | objectEOF => exact writes_objectEof
  | object ps ih =>
    rw [SrsAmf0Any.totalSize] at h
    exact (writes_marker _ _).seq
      ((writes_properties (by omega) ih).seq (writes_objectEof.wrapping _ _))
  | ecmaArray count ps ih =>
    rw [SrsAmf0Any.totalSize] at h
    refine (writes_marker _ _).seq ?_
    rw [← bind_assoc]
    exact (writes_count count).seq
      ((writes_properties (by omega) ih).seq (writes_objectEof.wrapping _ _))
  | strictArray count ps ih =>
    rw [SrsAmf0Any.totalSize] at h
    refine (writes_marker _ _).seq ?_
    rw [← bind_assoc]
    exact (writes_count count).seq (writes_elements (by omega) ih)

/-- A value that has room is stored. -/
theorem write_run {v : SrsAmf0Any} {b : SrsBuffer} (hv : v.totalSize < 2 ^ 31)
    (h : (v.totalSize : Int) ≤ b.left) : v.write b = .ok () (b.put v.encode) := by
  refine (writes_any hv b).1 (Or.inr ?_)
  rwa [length_encode]

/-! ## What a successful write stored -/

theorem stores_marker (marker : UInt8) (short : String) :
    Stores (writeMarker marker short) [marker] :=
  Stores.requireOr _ _ _ _ (Stores.write1bytes marker)

theorem stores_utf8 (value : Bytes) : Stores (srsAmf0WriteUtf8 value) (encodeUtf8 value) := by
  unfold srsAmf0WriteUtf8
  refine Stores.requireOr _ _ _ _ ((Stores.writeBe 2 (BitVec.ofNat 16 value.length)).seq ?_)
  cases value with
  | nil => exact Stores.nil
  | cons x l =>
    rw [if_neg (by simp)]
    exact Stores.requireOr _ _ _ _ (Stores.writeString (x :: l))

theorem stores_objectEof : Stores SrsAmf0ObjectEOF.write encodeObjectEof :=
  Stores.requireOr _ _ _ _ ((Stores.writeBe 2 (0x00 : BitVec 16)).seq
    (Stores.requireOr _ _ _ _ (Stores.write1bytes rtmpAmf0ObjectEnd)))

theorem stores_properties : ∀ {ps : List (Bytes × SrsAmf0Any)},
    (∀ e ∈ ps, Stores e.2.write e.2.encode) → Stores (writeProperties ps) (encodeProperties ps)
  | [], _ => Stores.nil
  | (name, any) :: ps, h => by
    obtain ⟨hany, hps⟩ := List.forall_mem_cons.mp h
    unfold writeProperties encodeProperties
    exact ((stores_utf8 name).wrapping _ _).seq ((hany.wrapping _ _).seq (stores_properties hps))

theorem stores_elements : ∀ {ps : List SrsAmf0Any},
    (∀ e ∈ ps, Stores e.write e.encode) → Stores (writeElements ps) (encodeElements ps)
  | [], _ => Stores.nil
  | any :: ps, h => by
    obtain ⟨hany, hps⟩ := List.forall_mem_cons.mp h
    unfold writeElements encodeElements
    exact (hany.wrapping _ _).seq (stores_elements hps)

/-- **Whenever `write` succeeds, it has stored `encode v`**, for values of any size. -/
theorem stores_any (v : SrsAmf0Any) : Stores v.write v.encode := by
  induction v with
  | string value => exact (stores_marker _ _).seq (stores_utf8 value)
  | boolean value =>
    exact (stores_marker _ _).seq (Stores.requireOr _ _ _ _ (Stores.write1bytes _))
  | number value =>
    exact (stores_marker _ _).seq (Stores.requireOr _ _ _ _ (Stores.writeBe 8 value))
  | date dateValue timeZone =>
    exact (stores_marker _ _).seq (Stores.requireOr _ _ _ _ ((Stores.writeBe 8 dateValue).seq
      (Stores.requireOr _ _ _ _ (Stores.writeBe 2 timeZone))))
  | null => exact stores_marker _ _
  | undefined => exact stores_marker _ _
  | objectEOF => exact stores_objectEof
  | object ps ih =>
    exact (stores_marker _ _).seq
      ((stores_properties ih).seq (stores_objectEof.wrapping _ _))
  | ecmaArray count ps ih =>
    exact (stores_marker _ _).seq (Stores.requireOr _ _ _ _ ((Stores.writeBe 4 count).seq
      ((stores_properties ih).seq (stores_objectEof.wrapping _ _))))
  | strictArray count ps ih =>
    exact (stores_marker _ _).seq (Stores.requireOr _ _ _ _ ((Stores.writeBe 4 count).seq
      (stores_elements ih)))

/-! ## The size law -/

/-- **The size law.** `write` succeeds iff `left() >= total_size()`. On success the position
advances by `total_size()` and only the bytes of that range change. On failure the error is
`ERROR_RTMP_AMF0_ENCODE` (so no assertion fired and no store left the block), and nothing at or
beyond the end of the range changed. -/
theorem write_iff_totalSize_le (v : SrsAmf0Any) (hv : v.totalSize ≤ 2 ^ 31 - 1) (b : SrsBuffer) :
    ((∃ b', v.write b = .ok () b') ↔ (v.totalSize : Int) ≤ b.left) ∧
    (∀ b', v.write b = .ok () b' →
      b'.p = b.p + v.totalSize ∧ b'.nbBytes = b.nbBytes ∧ b'.mem.length = b.mem.length ∧
      ∀ i, i < b.p ∨ b.p + v.totalSize ≤ i → b'.mem[i]? = b.mem[i]?) ∧
    ∀ f b', v.write b = .error f b' →
      (∃ e, f = .error e ∧ e.errorCode = errorRtmpAmf0Encode) ∧
      ∀ i : Nat, b.nbBytes ≤ i → b'.mem[i]? = b.mem[i]? := by
  have hw := writes_any (show v.totalSize < 2 ^ 31 by omega) b
  have hfit : Fits b v.encode ↔ (v.totalSize : Int) ≤ b.left := by
    have hne : v.encode ≠ [] := List.length_pos_iff.mp
      (by rw [length_encode]; exact totalSize_pos v)
    simp [Fits, hne, length_encode]
  by_cases h : (v.totalSize : Int) ≤ b.left
  · have hrun := hw.1 (hfit.mpr h)
    refine ⟨⟨fun _ => h, fun _ => ⟨_, hrun⟩⟩, fun b' hb' => ?_, fun f b' hb' => ?_⟩
    · rw [hrun] at hb'
      cases hb'
      have hmem := b.nbBytes_le_mem
      have hroom : b.p + v.encode.length ≤ b.mem.length := by
        rw [left] at h
        rw [length_encode]
        omega
      refine ⟨by rw [p_put, length_encode], nbBytes_put _ _, length_mem_put _ _, fun i hi => ?_⟩
      rw [getElem?_mem_put b _ hroom, if_neg (by rw [length_encode]; omega)]
    · rw [hrun] at hb'
      exact absurd hb' (by simp)
  · obtain ⟨e, b'', hrun, he, hwithin⟩ := hw.2 fun hc => h (hfit.mp hc)
    refine ⟨⟨?_, fun hc => absurd hc h⟩, fun b' hb' => ?_, fun f b' hb' => ?_⟩
    · rintro ⟨b', hb'⟩
      rw [hrun] at hb'
      exact absurd hb' (by simp)
    · rw [hrun] at hb'
      exact absurd hb' (by simp)
    · rw [hrun] at hb'
      cases hb'
      exact ⟨⟨e, rfl, he⟩, fun i hi => hwithin.outside i (Or.inr hi)⟩

/-- The law at an object with one property and a cursor that fits it exactly. -/
theorem write_object_fits : ∃ b', (SrsAmf0Any.object [([0x61], .null)]).write
    (SrsBuffer.new (List.replicate 8 0) (by decide)) = .ok () b' :=
  (write_iff_totalSize_le _ (by decide) _).1.mpr (by decide)

end Ssms.Amf0

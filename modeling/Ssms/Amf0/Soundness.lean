import Ssms.Amf0.Decode

/-!
# What acceptance and discovery say about the bytes

* `readAny_documented`: what `srs_amf0_read_any` accepts is a value of the documented format, except
  that the end of the buffer may close the containers that are open there (`while
  (!stream->empty())`). So a value that is followed by anything is complete.
* `discovery_written_iff`: `discovery` on the bytes of a written value yields an instance of its
  kind exactly when the value is not a number whose first payload bytes complete an end marker.
-/

namespace Ssms.Amf0

open Ssms.Kernel Ssms.Kernel.SrsBuffer Ssms.Lib.BigEndian Ssms.Protocol

/-! ## Soundness -/

/-- Lengths below `2 ^ 15` mean what the format says. -/
theorem utf8Length_eq {l : Bytes} (h : ofBytes l < 2 ^ 15) : utf8Length l = ofBytes l := by
  unfold utf8Length
  rw [BitVec.toInt_eq_toNat_of_lt] <;> rw [BitVec.toNat_ofNat, Nat.mod_eq_of_lt] <;> omega

theorem documented_utf8 {cut : Prop} {i s o : Bytes} (h : decodedUtf8 [] i s o) :
    (documented cut).utf8 i s o := by
  obtain ⟨l, r, hl, hi, h⟩ := h
  refine ⟨l, r, hl, hi, ?_, fun hlt => ?_⟩
  · rcases h with ⟨-, -, rfl⟩ | ⟨-, -, rfl⟩
    · exact List.suffix_refl _
    · exact List.suffix_append s o
  · rw [utf8Length_eq hlt] at h
    rcases h with ⟨hle, rfl, rfl⟩ | ⟨-, hs, hr⟩
    · exact ⟨by rw [List.length_nil]; omega, rfl⟩
    · exact ⟨by omega, hr⟩

theorem documented_count {cut : Prop} {c : BitVec 32} {n : Nat} (h : n = c.toInt.toNat) :
    (documented cut).count c n := by
  intro hlt
  rw [h, BitVec.toInt_eq_toNat_of_lt (by omega), Int.toNat_natCast]

/-- **Accepted bytes are a documented value**, complete unless the buffer ended. -/
theorem readAny_documented (b b' : SrsBuffer) (v : SrsAmf0Any) (h : srsAmf0ReadAny b = .ok v b') :
    Derives (documented (b'.rest = [])) b.rest (.any v) b'.rest :=
  ((reads_any b).sound h).mono (fun _ _ _ => documented_utf8) (fun _ _ => documented_count)
    fun _ ho => ho

/-- An object with a strict array in it, followed by a byte, is complete. -/
theorem readAny_documented_object :
    Derives (documented (([0x05] : Bytes) = [])) [0x03, 0x00, 0x01, 0x61, 0x0A, 0x00, 0x00, 0x00,
        0x02, 0x05, 0x01, 0x01, 0x00, 0x00, 0x09, 0x05]
      (.any (.object [([0x61], .strictArray 2 [.null, .boolean true])])) [0x05] := by
  have hcount : BitVec.ofNat 32 (ofBytes [0x00, 0x00, 0x00, 0x02]) = 2 := by decide
  have harray : Derives decoder
      [0x0A, 0x00, 0x00, 0x00, 0x02, 0x05, 0x01, 0x01, 0x00, 0x00, 0x09, 0x05]
      (.any (.strictArray 2 [.null, .boolean true])) [0x00, 0x00, 0x09, 0x05] := by
    rw [← hcount]
    exact .strictArray (l := [0x00, 0x00, 0x00, 0x02]) (n := 2) rfl rfl
      (congrArg (fun c : BitVec 32 => c.toInt.toNat) hcount).symm
      (.element (.null rfl) (.element (.boolean rfl) .elementsEnd))
  have hrun : Derives decoder [0x03, 0x00, 0x01, 0x61, 0x0A, 0x00, 0x00, 0x00, 0x02, 0x05, 0x01,
      0x01, 0x00, 0x00, 0x09, 0x05]
      (.any (.object [([0x61], .strictArray 2 [.null, .boolean true])])) [0x05] :=
    .object rfl (.property (by decide)
      ⟨[0x00, 0x01], _, rfl, rfl, .inr ⟨by decide, by decide, rfl⟩⟩ harray (.propertiesEnd rfl))
  obtain ⟨b, hb⟩ : ∃ b : SrsBuffer, b.rest = [0x03, 0x00, 0x01, 0x61, 0x0A, 0x00, 0x00, 0x00, 0x02,
      0x05, 0x01, 0x01, 0x00, 0x00, 0x09, 0x05] := ⟨_, rest_new _ (by decide)⟩
  rw [← hb] at hrun ⊢
  obtain ⟨b', hread, -, hrest⟩ := (reads_any b).complete hrun
  have h := readAny_documented _ b' _ hread
  rwa [show b'.rest = [0x05] from hrest] at h

/-- The marker of an object alone is accepted as an empty object, although no complete value starts
there and it is a strict prefix of an encoding. -/
theorem readAny_object_marker :
    (∃ b', srsAmf0ReadAny (SrsBuffer.new [0x03] (by decide)) = .ok (.object []) b') ∧
    (∀ v o, ¬ Derives strict [0x03] (.any v) o) ∧
    [0x03] <+: (SrsAmf0Any.object []).encode ∧ [0x03] ≠ (SrsAmf0Any.object []).encode := by
  refine ⟨⟨_, rfl⟩, ?_, by decide, by decide⟩
  rintro v o h
  obtain ⟨w, hw, hm⟩ := discovered_of_derives h
  obtain rfl : SrsAmf0Any.newObject = w := Option.some_inj.mp hw
  generalize hi : ([0x03] : Bytes) = i at h
  cases h with
  | object hi' hps =>
    obtain ⟨-, rfl⟩ := List.cons_eq_cons.mp (hi.trans hi')
    rcases derives_properties_iff.mp hps with ⟨hend, -⟩ | ⟨hcut, -⟩ | ⟨-, name, i₁, hname, -⟩
    · exact absurd hend (by simp [encodeObjectEof])
    · exact hcut
    · obtain ⟨l, hl, -, hnil⟩ := hname
      have hlen := congrArg List.length hnil
      rw [List.length_append, hl, List.length_nil] at hlen
      omega
  | _ => cases hm

/-! ## Discovery -/

/-- A number whose pattern begins `00 09`, so that its encoding begins with an end marker. -/
def SrsAmf0Any.IsEofNumber : SrsAmf0Any → Prop
  | .number value => value >>> 48 = 0x0009
  | _ => False

instance : DecidablePred SrsAmf0Any.IsEofNumber := fun v => by
  cases v <;> unfold SrsAmf0Any.IsEofNumber <;> infer_instance

/-- A new instance of the same kind. -/
def SrsAmf0Any.fresh : SrsAmf0Any → SrsAmf0Any
  | .string _ => .string []
  | .boolean _ => .boolean false
  | .number _ => .number 0
  | .date _ _ => .newDate 0
  | .null => .null
  | .undefined => .undefined
  | .objectEOF => .objectEOF
  | .object _ => .newObject
  | .ecmaArray _ _ => .newEcmaArray
  | .strictArray _ _ => .newStrictArray

theorem marker_fresh (v : SrsAmf0Any) : v.fresh.marker = v.marker := by cases v <;> rfl

/-- The encoding of a number begins with an end marker iff its top 16 bits are `0x0009`. -/
theorem atObjectEof_number_iff (x : BitVec 64) (s : Bytes) :
    AtObjectEof (rtmpAmf0Number :: (toBytes 8 x.toNat ++ s)) ↔ x >>> 48 = 0x0009 := by
  have hx := x.isLt
  have hbytes : AtObjectEof (rtmpAmf0Number :: (toBytes 8 x.toNat ++ s)) ↔
      UInt8.ofNat (x.toNat / 256 ^ 7) = 0 ∧ UInt8.ofNat (x.toNat / 256 ^ 6) = 9 := by
    unfold AtObjectEof encodeObjectEof rtmpAmf0ObjectEnd rtmpAmf0Number
    simp only [toBytes, List.cons_append, List.cons_prefix_cons, List.nil_prefix, and_true,
      true_and, eq_comm]
  have hword : x >>> 48 = 0x0009 ↔ x.toNat / 2 ^ 48 = 9 := by
    rw [← BitVec.toNat_inj, BitVec.toNat_ushiftRight, Nat.shiftRight_eq_div_pow]
    rfl
  rw [hbytes, hword, ← UInt8.toNat_inj, ← UInt8.toNat_inj]
  simp only [UInt8.toNat_ofNat']
  show x.toNat / 256 ^ 7 % 256 = 0 ∧ x.toNat / 256 ^ 6 % 256 = 9 ↔ _
  omega

/-- **What discovery sees at an encoding.** -/
theorem discovered_encode_iff (v : SrsAmf0Any) (s : Bytes) :
    discovered (v.encode ++ s) = some v.fresh ↔ ¬ v.IsEofNumber := by
  cases v with
  | number x =>
    show discovered (rtmpAmf0Number :: (toBytes 8 x.toNat ++ s)) = _ ↔ ¬ x >>> 48 = 0x0009
    rw [← atObjectEof_number_iff x s]
    unfold discovered
    by_cases heof : AtObjectEof (rtmpAmf0Number :: (toBytes 8 x.toNat ++ s))
    · rw [if_pos heof]
      simp [heof, SrsAmf0Any.fresh]
    · rw [if_neg heof]
      exact ⟨fun _ => heof, fun _ => rfl⟩
  | objectEOF =>
    refine ⟨fun _ h => h, fun _ => ?_⟩
    have heof : AtObjectEof (SrsAmf0Any.objectEOF.encode ++ s) := List.prefix_append _ _
    unfold discovered
    rw [if_pos heof]
    rfl
  | _ => exact ⟨fun _ h => h, fun _ => discovered_cons (by decide)⟩

/-- **Discovery of written values.** At the bytes a value wrote, followed by anything, `discovery`
yields a new instance of the value's kind and does not move, iff the value is not a number whose top
16 bits are `0x0009`. -/
theorem discovery_written_iff (v : SrsAmf0Any) (b b' c : SrsBuffer) (s : Bytes)
    (hw : v.write b = .ok () b') (hc : c.rest = b.written b' ++ s) :
    (SrsAmf0Any.discovery c = .ok v.fresh c ∧ v.fresh.marker = v.marker) ↔ ¬ v.IsEofNumber := by
  rw [(stores_any v).written hw] at hc
  rw [and_iff_left (marker_fresh v), ← discovered_encode_iff v s, ← hc]
  refine ⟨fun h => ?_, discovery_run⟩
  exact ((reads_discovery c).sound h).1

/-- A null, followed by an end marker. -/
theorem discovery_written_null : SrsAmf0Any.discovery
    (SrsBuffer.new [0x05, 0x00, 0x00, 0x09] (by decide)) =
      .ok .null (SrsBuffer.new [0x05, 0x00, 0x00, 0x09] (by decide)) :=
  ((discovery_written_iff .null (SrsBuffer.new [0x00] (by decide)) _ _ [0x00, 0x00, 0x09] rfl
    (rest_new _ _)).mpr id).1

/-- The number `0x0009000000000000` is taken for an end marker. -/
theorem discovery_written_eofNumber :
    (SrsAmf0Any.number 0x0009000000000000).write (SrsBuffer.new (List.replicate 9 0) (by decide)) =
      .ok () (SrsBuffer.new [0x00, 0x00, 0x09, 0, 0, 0, 0, 0, 0] (by decide) |>.advance 9) ∧
    SrsAmf0Any.discovery (SrsBuffer.new [0x00, 0x00, 0x09, 0, 0, 0, 0, 0, 0] (by decide)) =
      .ok .objectEOF (SrsBuffer.new [0x00, 0x00, 0x09, 0, 0, 0, 0, 0, 0] (by decide)) ∧
    SrsAmf0Any.objectEOF.marker ≠ (SrsAmf0Any.number 0x0009000000000000).marker :=
  ⟨rfl, rfl, by decide⟩

end Ssms.Amf0

import Ssms.Amf0.RoundTrip

/-!
# The UTF-8 item (`srs_amf0_write_utf8`, `srs_amf0_read_utf8`)

The item is a `U16` length and that many bytes. `write` casts the length of the string to `int16_t`
and stores all of its bytes; `read` takes a length that is not positive for the empty string.

* `read_write_utf8_iff`: what is written is read back, and what does not fit the length is refused,
  exactly for strings of up to 32767 bytes. One of 32768 to 65535 bytes is read as the empty string,
  and a longer one is not refused.
* `string_agree_iff`: what a string held before it is read into shows afterwards, exactly if the
  length of the item is not positive: `read` returns then without an assignment.
-/

namespace Ssms.Amf0

open Ssms.Kernel Ssms.Kernel.SrsBuffer Ssms.Lib.BigEndian Ssms.Lib.Reading

/-- Where there is room, `write` stores the item, however long it is. -/
theorem write_utf8_run {s : Bytes} {b : SrsBuffer} (h : (2 + s.length : Int) ≤ b.left) :
    srsAmf0WriteUtf8 s b = .ok () (b.put (encodeUtf8 s)) := by
  have hlt : s.length < 2 ^ 31 := by
    have := b.isInt
    rw [left] at h
    omega
  refine (writes_utf8 hlt b).1 (Or.inr ?_)
  rw [length_encodeUtf8, SrsAmf0Size.utf8]
  exact_mod_cast h

/-- Where `write` started, the item is unread. -/
theorem rest_seek_write {s : Bytes} {b : SrsBuffer} (h : (2 + s.length : Int) ≤ b.left) :
    ∃ o, ((b.put (encodeUtf8 s)).seek b.p).rest = encodeUtf8 s ++ o := by
  refine rest_put_seek ?_
  rw [length_encodeUtf8, SrsAmf0Size.utf8]
  exact_mod_cast h

/-- An item of up to 32767 bytes is read whole. -/
theorem read_utf8_of_le {s o : Bytes} {c : SrsBuffer} (h : s.length ≤ 32767)
    (hc : c.rest = encodeUtf8 s ++ o) :
    srsAmf0ReadUtf8 [] c = .ok s (c.advance (2 + s.length)) := by
  obtain ⟨c', hrun, hadv, hrest⟩ := (reads_utf8 [] c).complete
    (show decodedUtf8 [] (bufferReading.view c) s o by
      show decodedUtf8 [] c.rest s o
      rw [hc]
      exact decodedUtf8_encodeUtf8 h o)
  rw [hrun, eq_advance_of_view hadv hc hrest, length_encodeUtf8, SrsAmf0Size.utf8]

/-- An item of 32768 to 65535 bytes is read as the empty string. -/
theorem read_utf8_of_lt {s o : Bytes} {c : SrsBuffer} (h : 32767 < s.length)
    (hlt : s.length ≤ 65535) (hc : c.rest = encodeUtf8 s ++ o) :
    srsAmf0ReadUtf8 [] c = .ok [] (c.advance 2) := by
  set l := toBytes 2 (BitVec.ofNat 16 s.length).toNat with hl
  have hneg : utf8Length l ≤ 0 := by
    rw [utf8Length, hl, ofBytes_length, BitVec.toInt_eq_toNat_cond, BitVec.toNat_ofNat,
      Nat.mod_eq_of_lt (by omega), if_neg (by omega)]
    omega
  have hlen : l.length = 2 := toBytes_length 2 _
  have hrest : c.rest = l ++ (s ++ o) := by rw [hc, encodeUtf8, List.append_assoc]
  obtain ⟨c', hrun, hadv, hview⟩ := (reads_utf8 [] c).complete
    (show decodedUtf8 [] c.rest [] (s ++ o) from ⟨l, s ++ o, hlen, hrest, Or.inl ⟨hneg, rfl, rfl⟩⟩)
  rw [hrun, eq_advance_of_view hadv hrest hview, hlen]

/-- **The item is kept exactly up to 32767 bytes**: one that a `U16` counts is written and read back
to where `write` stopped, and a longer one is refused. -/
theorem read_write_utf8_iff (s : Bytes) (b : SrsBuffer) (h : (2 + s.length : Int) ≤ b.left) :
    ((s.length ≤ 65535 → ∃ b', srsAmf0WriteUtf8 s b = .ok () b' ∧
        srsAmf0ReadUtf8 [] (b'.seek b.p) = .ok s b') ∧
      (65535 < s.length → ∃ e b', srsAmf0WriteUtf8 s b = .error (.error e) b')) ↔
    s.length ≤ 32767 := by
  have hwrite := write_utf8_run h
  obtain ⟨o, ho⟩ := rest_seek_write h
  constructor
  · rintro ⟨hkept, hrefused⟩
    by_contra hlong
    by_cases hu16 : s.length ≤ 65535
    · obtain ⟨b', hb', hread⟩ := hkept hu16
      rw [hwrite] at hb'
      cases hb'
      rw [read_utf8_of_lt (by omega) hu16 ho] at hread
      cases hread
      simp at hlong
    · obtain ⟨e, b', hb'⟩ := hrefused (by omega)
      rw [hwrite] at hb'
      cases hb'
  · intro hshort
    refine ⟨fun _ => ⟨_, hwrite, ?_⟩, fun hlong => by omega⟩
    rw [read_utf8_of_le hshort ho, advance_seek]
    have hp : b.p + (2 + s.length) = (b.put (encodeUtf8 s)).p := by
      rw [p_put, length_encodeUtf8, SrsAmf0Size.utf8]
    rw [hp, seek_p]

/-- Two bytes, into a cursor of four. -/
theorem read_write_utf8_ab : ∃ b',
    srsAmf0WriteUtf8 [0x61, 0x62] (SrsBuffer.new (List.replicate 4 0) (by decide)) = .ok () b' ∧
      srsAmf0ReadUtf8 [] (b'.seek 0) = .ok [0x61, 0x62] b' :=
  ((read_write_utf8_iff [0x61, 0x62] (SrsBuffer.new (List.replicate 4 0) (by decide))
    (by decide)).mpr (by decide)).1 (by decide)

/-- A string of 32768 bytes, into a cursor it fits: `write` succeeds, and the empty string is read,
two bytes further. -/
theorem utf8_lost :
    let s : Bytes := List.replicate 32768 0x61
    let b := SrsBuffer.new (List.replicate 32770 0) (by rw [List.length_replicate]; omega)
    ∃ b', srsAmf0WriteUtf8 s b = .ok () b' ∧
      srsAmf0ReadUtf8 [] (b'.seek b.p) = .ok [] (b'.seek (b.p + 2)) ∧ s ≠ [] := by
  intro s b
  have hlen : s.length = 32768 := List.length_replicate
  have hleft : b.left = 32770 := by
    show ((List.replicate 32770 (0 : UInt8)).length : Int) - 0 = _
    rw [List.length_replicate]
    rfl
  obtain ⟨o, ho⟩ := rest_seek_write (s := s) (b := b) (by omega)
  have hread := read_utf8_of_lt (by omega) (by omega) ho
  rw [advance_seek] at hread
  refine ⟨_, write_utf8_run (by omega), hread, ?_⟩
  intro hnil
  rw [hnil] at hlen
  cases hlen

/-! ## The string that is read into -/

/-- The next item has a length that is not positive. -/
def BeginsEmpty (i : Bytes) : Prop := ∃ l r, l.length = 2 ∧ i = l ++ r ∧ utf8Length l ≤ 0

/-- The cursors that a reader moves to differ in what is unread. -/
theorem eq_of_rest_eq {b c c' : SrsBuffer} (h : bufferReading.Adv b c) (h' : bufferReading.Adv b c')
    (heq : c.rest = c'.rest) : c = c' := by
  obtain ⟨n, hn, rfl⟩ := h
  obtain ⟨n', hn', rfl⟩ := h'
  have hlen := congrArg List.length heq
  rw [rest_advance, rest_advance, List.length_drop, List.length_drop] at hlen
  rw [show n = n' by omega]

/-- What is decoded depends on the old value at an item without characters alone. -/
theorem decodedUtf8_congr_iff (v v' i : Bytes) :
    (∀ s o, decodedUtf8 v i s o ↔ decodedUtf8 v' i s o) ↔ (BeginsEmpty i → v = v') := by
  constructor
  · rintro h ⟨l, r, hl, hi, hneg⟩
    obtain ⟨l', r', hl', hi', hcase⟩ := (h v r).mp ⟨l, r, hl, hi, .inl ⟨hneg, rfl, rfl⟩⟩
    obtain ⟨rfl, rfl⟩ := List.append_inj (hi.symm.trans hi') (hl.trans hl'.symm)
    rcases hcase with ⟨-, hv, -⟩ | ⟨hpos, -, -⟩
    · exact hv
    · omega
  · intro h s o
    by_cases hempty : BeginsEmpty i
    · rw [h hempty]
    · refine exists_congr fun l => exists_congr fun r => ?_
      refine and_congr_right fun hl => and_congr_right fun hi => ?_
      have hpos : ¬ utf8Length l ≤ 0 := fun hneg => hempty ⟨l, r, hl, hi, hneg⟩
      simp [hpos]

/-- A marker before the item. -/
theorem cons_congr_iff (m : UInt8) (v v' i : Bytes) :
    (∀ s o, (∃ i', i = m :: i' ∧ decodedUtf8 v i' s o) ↔
        ∃ i', i = m :: i' ∧ decodedUtf8 v' i' s o) ↔
      ((∃ i', i = m :: i' ∧ BeginsEmpty i') → v = v') := by
  by_cases hm : ∃ i', i = m :: i'
  · obtain ⟨i', rfl⟩ := hm
    have hexists : ∀ P : Bytes → Prop, (∃ j, m :: i' = m :: j ∧ P j) ↔ P i' := fun P =>
      ⟨fun ⟨_, heq, hP⟩ => (List.cons_eq_cons.mp heq).2 ▸ hP, fun hP => ⟨i', rfl, hP⟩⟩
    simp only [hexists]
    exact decodedUtf8_congr_iff v v' i'
  · refine iff_of_true (fun s o => ?_) fun ⟨i', hi, _⟩ => absurd ⟨i', hi⟩ hm
    exact iff_of_false (fun ⟨i', hi, _⟩ => hm ⟨i', hi⟩) fun ⟨i', hi, _⟩ => hm ⟨i', hi⟩

/-- **What a string held before shows exactly at an item without characters.** -/
theorem string_agree_iff (b : SrsBuffer) (v v' : Bytes) (readAny : Exec SrsAmf0Any) :
    (Agree (srsAmf0ReadUtf8 v) (srsAmf0ReadUtf8 v') b ↔ (BeginsEmpty b.rest → v = v')) ∧
    (Agree (srsAmf0ReadString v) (srsAmf0ReadString v') b ↔
      ((∃ i, b.rest = rtmpAmf0String :: i ∧ BeginsEmpty i) → v = v')) ∧
    (Agree ((SrsAmf0Any.string v).read readAny) ((SrsAmf0Any.string v').read readAny) b ↔
      ((∃ i, b.rest = rtmpAmf0String :: i ∧ BeginsEmpty i) → v = v')) := by
  have hview : ∀ c c', bufferReading.Adv b c → bufferReading.Adv b c' →
      bufferReading.view c = bufferReading.view c' → c = c' := fun c c' => eq_of_rest_eq
  have hstring : Agree (srsAmf0ReadString v) (srsAmf0ReadString v') b ↔
      ((∃ i, b.rest = rtmpAmf0String :: i ∧ BeginsEmpty i) → v = v') :=
    ((reads_string v b).agree_iff hview (reads_string v' b)).trans
      (cons_congr_iff rtmpAmf0String v v' b.rest)
  refine ⟨?_, hstring, ?_⟩
  · exact ((reads_utf8 v b).agree_iff hview (reads_utf8 v' b)).trans
      (decodedUtf8_congr_iff v v' b.rest)
  · exact (agree_map_iff fun _ _ h => SrsAmf0Any.string.inj h).trans hstring

/-- The empty string, read into one that is empty and into one that is not. -/
theorem string_kept :
    let b := SrsBuffer.new [0x02, 0x00, 0x00] (by decide)
    srsAmf0ReadString [] b = .ok [] (b.advance 3) ∧
      srsAmf0ReadString [0x61] b = .ok [0x61] (b.advance 3) :=
  ⟨rfl, rfl⟩

end Ssms.Amf0

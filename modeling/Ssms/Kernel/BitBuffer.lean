import Ssms.Kernel.Buffer
import Ssms.Lib.Bits

/-!
# The bit reader (`SrsBitBuffer`, `srs_kernel_buffer.cpp`)

`SrsBitBuffer` takes one byte of its stream at a time and gives out its bits, the most significant
one first. `cb` is the byte, an `int8_t`, and `cbLeft` the number of its bits still to come.

* `Consumed b k s`: `s` is what becomes of a fresh reader on `b` after `k` bits.
* `readBits_spec`: `k` reads give the first `k` bits of the unread bytes.
-/

namespace Ssms.Kernel

open Ssms.Lib.Bits Ssms.Lib.Reading

/-- `SrsBitBuffer`. -/
structure SrsBitBuffer where
  cb : BitVec 8
  cbLeft : UInt8
  stream : SrsBuffer

namespace SrsBitBuffer

/-- A computation over a bit reader. -/
abbrev BitExec := EStateM Fault SrsBitBuffer

/-- `SrsBitBuffer(b)`. -/
def new (b : SrsBuffer) : SrsBitBuffer := ⟨0, 0, b⟩

/-- `empty()`. -/
def empty (s : SrsBitBuffer) : Bool := if s.cbLeft ≠ 0 then false else s.stream.empty

/-- A call of the stream. -/
def onStream {α : Type} (m : Exec α) : BitExec α := fun s =>
  match m s.stream with
  | .ok a b => .ok a { s with stream := b }
  | .error e b => .error e { s with stream := b }

/-- `(cb >> n) & 0x01`, where `cb` is promoted to an `int` with its sign, as an `int8_t`. -/
def shiftedBit (cb : BitVec 8) (n : Nat) : BitVec 8 :=
  ((cb.signExtend 32).sshiftRight n &&& 0x01#32).setWidth 8

/-- `srs_assert(!stream->empty())`, and the next byte. -/
def takeByte : BitExec Unit := do
  onStream (get >>= fun b => srsAssert (!b.empty))
  let cb ← onStream SrsBuffer.read1bytes
  modify fun s => { s with cb := cb.toBitVec, cbLeft := 8 }

/-- The start of `read_bit()`: another byte, where no bit is left. -/
def refill : BitExec Unit := do
  let s ← get
  if s.cbLeft = 0 then takeByte else pure ()

/-- `read_bit()`. -/
def readBit : BitExec (BitVec 8) := do
  refill
  let s ← get
  let v := shiftedBit s.cb (s.cbLeft.toNat - 1)
  set { s with cbLeft := s.cbLeft - 1 }
  pure v

/-- `n` calls of `read_bit()`. -/
def readBits : Nat → BitExec (List (BitVec 8))
  | 0 => pure []
  | n + 1 => do
    let v ← readBit
    let l ← readBits n
    pure (v :: l)

/-- A bit as the `int8_t` that is returned for it. -/
def ofBit (bit : Bool) : BitVec 8 := if bit then 1 else 0

/-! ## One bit -/

theorem shiftedBit_eq (cb : BitVec 8) {n : Nat} (hn : n < 8) :
    shiftedBit cb n = ofBit (cb.toNat.testBit n) := by
  have hbit : cb.toNat.testBit n = cb.getLsbD n := rfl
  apply BitVec.eq_of_getLsbD_eq
  intro i hi
  unfold shiftedBit ofBit
  simp only [BitVec.getLsbD_setWidth, BitVec.getLsbD_and, BitVec.getLsbD_sshiftRight,
    BitVec.getLsbD_signExtend, hbit]
  by_cases hzero : i = 0
  · subst hzero
    cases h : cb.getLsbD n with
    | true => simp [hn, show n < 32 by omega]
    | false => simp [hn, show n < 32 by omega]
  · cases cb.getLsbD n <;> simp [hzero]

/-- After `k` bits: the bytes that hold them are read, and the other bits of the last one are
left. -/
structure Consumed (b : SrsBuffer) (k : Nat) (s : SrsBitBuffer) : Prop where
  stream : s.stream = b.advance ((k + 7) / 8)
  cbLeft : s.cbLeft.toNat = 8 * ((k + 7) / 8) - k
  /-- The byte that bit `k` is in, where it has been read. -/
  cb : ∀ x, k % 8 ≠ 0 → b.rest[k / 8]? = some x → s.cb = x.toBitVec

theorem consumed_new (b : SrsBuffer) : Consumed b 0 (new b) where
  stream := rfl
  cbLeft := rfl
  cb _ h := absurd rfl h

theorem takeByte_run {s : SrsBitBuffer} {x : UInt8} {l : Bytes} (h : s.stream.rest = x :: l) :
    takeByte s = .ok () ⟨x.toBitVec, 8, s.stream.advance 1⟩ := by
  have hempty : s.stream.empty = false := by
    rw [← Bool.not_eq_true, SrsBuffer.empty_iff, h]
    exact List.cons_ne_nil x l
  have hassert : onStream (get >>= fun b => srsAssert (!b.empty)) s = .ok () s := by
    rw [onStream, get_bind, hempty]
    rfl
  have hread : onStream SrsBuffer.read1bytes s = .ok x { s with stream := s.stream.advance 1 } := by
    rw [onStream, read1bytes_run h]
  rw [takeByte, bind_ok hassert, bind_ok hread]
  rfl

/-- A byte is taken where bit `k` is the first one of it, and is there already elsewhere. -/
theorem refill_spec {b : SrsBuffer} {k : Nat} {s : SrsBitBuffer} (h : Consumed b k s) {x : UInt8}
    (hx : b.rest[k / 8]? = some x) :
    ∃ s', refill s = .ok () s' ∧ s'.stream = b.advance (k / 8 + 1) ∧
      s'.cbLeft.toNat = 8 - k % 8 ∧ s'.cb = x.toBitVec := by
  have hleft := h.cbLeft
  by_cases hfirst : k % 8 = 0
  · have hzero : s.cbLeft = 0 := UInt8.toNat_inj.mp (by rw [hleft, UInt8.toNat_zero]; omega)
    have hstream : s.stream = b.advance (k / 8) := by
      rw [h.stream, show (k + 7) / 8 = k / 8 by omega]
    have hrest : s.stream.rest = x :: b.rest.drop (k / 8 + 1) := by
      obtain ⟨hlt, hget⟩ := List.getElem?_eq_some_iff.mp hx
      rw [hstream, SrsBuffer.rest_advance, List.drop_eq_getElem_cons hlt, hget]
    refine ⟨⟨x.toBitVec, 8, s.stream.advance 1⟩, ?_, ?_, ?_, rfl⟩
    · show (if s.cbLeft = 0 then takeByte else pure ()) s = _
      rw [if_pos hzero, takeByte_run hrest]
    · show s.stream.advance 1 = _
      rw [hstream, SrsBuffer.advance_advance]
    · rw [hfirst]
      rfl
  · have hne : s.cbLeft ≠ 0 := by
      intro hzero
      rw [hzero, UInt8.toNat_zero] at hleft
      omega
    refine ⟨s, ?_, ?_, ?_, h.cb x hfirst hx⟩
    · show (if s.cbLeft = 0 then takeByte else pure ()) s = _
      rw [if_neg hne]
      rfl
    · rw [h.stream, show (k + 7) / 8 = k / 8 + 1 by omega]
    · omega

/-- A bit is given out: its byte is read, and one bit less is left of it. -/
theorem consumed_succ {b : SrsBuffer} {k : Nat} {s : SrsBitBuffer} {x : UInt8}
    (hx : b.rest[k / 8]? = some x) (hstream : s.stream = b.advance (k / 8 + 1))
    (hleft : s.cbLeft.toNat = 8 - k % 8) (hcb : s.cb = x.toBitVec) :
    Consumed b (k + 1) { s with cbLeft := s.cbLeft - 1 } where
  stream := by
    show s.stream = _
    rw [hstream, show (k + 1 + 7) / 8 = k / 8 + 1 by omega]
  cbLeft := by
    have hone : (1 : UInt8) ≤ s.cbLeft := by
      rw [UInt8.le_iff_toNat_le, hleft, UInt8.toNat_one]
      omega
    rw [UInt8.toNat_sub_of_le _ _ hone, hleft, UInt8.toNat_one]
    omega
  cb y hmod hy := by
    rw [show (k + 1) / 8 = k / 8 by omega, hx] at hy
    rw [← Option.some.inj hy]
    exact hcb

/-- **One bit is the next one of the unread bytes.** -/
theorem readBit_spec {b : SrsBuffer} {k : Nat} {s : SrsBitBuffer} (h : Consumed b k s)
    (hk : k < 8 * b.rest.length) :
    ∃ bit s', (bits b.rest)[k]? = some bit ∧ readBit s = .ok (ofBit bit) s' ∧
      Consumed b (k + 1) s' := by
  obtain ⟨x, hx⟩ : ∃ x, b.rest[k / 8]? = some x :=
    ⟨_, List.getElem?_eq_getElem (show k / 8 < b.rest.length by omega)⟩
  obtain ⟨s', hrefill, hstream, hleft, hcb⟩ := refill_spec h hx
  have hmod : k % 8 < 8 := Nat.mod_lt k (by decide)
  have hbit : (bits b.rest)[k]? = some (x.toNat.testBit (7 - k % 8)) := by
    rw [← getElem?_bits hx hmod, Nat.div_add_mod]
  have hvalue : shiftedBit s'.cb (s'.cbLeft.toNat - 1) = ofBit (x.toNat.testBit (7 - k % 8)) := by
    rw [hleft, hcb, show 8 - k % 8 - 1 = 7 - k % 8 by omega]
    exact shiftedBit_eq _ (by omega)
  refine ⟨_, { s' with cbLeft := s'.cbLeft - 1 }, hbit, ?_, ?_⟩
  · rw [readBit, bind_ok hrefill, ← hvalue]
    rfl
  · exact consumed_succ hx hstream hleft hcb

/-! ## Successive bits -/

/-- **Successive bits are those of the unread bytes, in their order.** -/
theorem readBits_run {b : SrsBuffer} {k n : Nat} {s : SrsBitBuffer} (h : Consumed b k s)
    (hkn : k + n ≤ 8 * b.rest.length) :
    ∃ s', readBits n s = .ok ((((bits b.rest).drop k).take n).map ofBit) s' ∧
      Consumed b (k + n) s' := by
  induction n generalizing k s with
  | zero => exact ⟨s, by rw [List.take_zero]; rfl, h⟩
  | succ n ih =>
    obtain ⟨bit, s₁, hbit, hrun, h₁⟩ := readBit_spec h (by omega)
    obtain ⟨s₂, hrun', h₂⟩ := ih h₁ (by omega)
    have hdrop : (bits b.rest).drop k = bit :: (bits b.rest).drop (k + 1) := by
      obtain ⟨hlt, hget⟩ := List.getElem?_eq_some_iff.mp hbit
      rw [List.drop_eq_getElem_cons hlt, hget]
    refine ⟨s₂, ?_, by rwa [show k + (n + 1) = k + 1 + n by omega]⟩
    rw [readBits, bind_ok hrun, bind_ok hrun', hdrop]
    rfl

/-- The reader is empty where all bits are consumed. -/
theorem Consumed.empty_iff {b : SrsBuffer} {k : Nat} {s : SrsBitBuffer} (h : Consumed b k s)
    (hk : k ≤ 8 * b.rest.length) : s.empty = true ↔ k = 8 * b.rest.length := by
  have hleft := h.cbLeft
  unfold empty
  by_cases hzero : s.cbLeft = 0
  · rw [hzero, UInt8.toNat_zero] at hleft
    have hlen : (b.advance ((k + 7) / 8)).rest.length = b.rest.length - k / 8 := by
      rw [SrsBuffer.rest_advance, List.length_drop, show (k + 7) / 8 = k / 8 by omega]
    rw [if_neg (not_not_intro hzero), SrsBuffer.empty_iff, h.stream, ← List.length_eq_zero_iff,
      hlen]
    omega
  · have hne : s.cbLeft.toNat ≠ 0 := fun hc => hzero (UInt8.toNat_inj.mp hc)
    rw [if_pos hzero]
    exact iff_of_false Bool.false_ne_true (by omega)

/-- **A fresh bit reader is the bit expansion of the unread bytes**: `k` calls of `read_bit()` give
the first `k` bits, have taken the bytes that hold them, and leave the reader empty at the end of
the unread bytes only. -/
theorem readBits_spec (b : SrsBuffer) (k : Nat) (hk : k ≤ 8 * b.rest.length) :
    ∃ s, readBits k (new b) = .ok (((bits b.rest).take k).map ofBit) s ∧
      s.stream = b.advance ((k + 7) / 8) ∧ (s.empty = true ↔ k = 8 * b.rest.length) := by
  obtain ⟨s, hrun, hs⟩ := readBits_run (consumed_new b) (n := k) (by omega)
  rw [Nat.zero_add] at hs
  exact ⟨s, hrun, hs.stream, hs.empty_iff hk⟩

/-- Eleven bits of a byte with its sign bit set and the byte after it. -/
theorem readBits_of_negative : ∃ s,
    readBits 11 (new (SrsBuffer.new [0xa5, 0x3c] (by decide))) =
      .ok [1, 0, 1, 0, 0, 1, 0, 1, 0, 0, 1] s ∧
    s.stream.p = 2 ∧ s.empty = false := by
  have hrest : (SrsBuffer.new [0xa5, 0x3c] (by decide)).rest = [0xa5, 0x3c] :=
    SrsBuffer.rest_new _ _
  obtain ⟨s, hrun, hstream, hempty⟩ :=
    readBits_spec (SrsBuffer.new [0xa5, 0x3c] (by decide)) 11 (by rw [hrest]; decide)
  rw [hrest] at hrun hempty
  refine ⟨s, hrun, by rw [hstream]; rfl, ?_⟩
  rw [← Bool.not_eq_true, hempty]
  decide

end SrsBitBuffer

end Ssms.Kernel

import Ssms.Kernel.Error
import Ssms.Lib.BigEndian
import Ssms.Lib.Reading
import Mathlib.Tactic.Linarith

/-!
# The byte cursor (`SrsBuffer`, `srs_kernel_buffer.cpp`)

`SrsBuffer` is a cursor over a block of memory owned by the caller. The block is `bytes`, with
`none` for a null pointer; `nbBytes` is `nb_bytes`, and `p` is the offset `p - bytes`. The two
promises the constructor relies on are fields: `nbBytes` is an `int`, and the block holds at least
`nbBytes` bytes, so a block may be longer than the cursor's range.

Operations are computations `Exec`. Besides an error value, a run can end in a fault:
`assertFailed` is a failed `srs_assert`, `outOfBounds` a load or store outside the block, and
`outOfFuel` a model recursion cut short. A proof that a run has no fault is therefore a proof that
no assertion fires and that memory stays safe.

* `bufferReading` is the vocabulary of readers over a cursor: the input is the unread bytes `rest`,
  a reader only moves the position forward inside the range, and only error values are allowed.
* `readBe_run`, `writeBe_run` and the lemmas beside them: where the range has room, an operation
  ends without a fault, and it gives the unread bytes or stores those of its value.
* `Writes code m l`: the writer `m` stores exactly `l` at the position when `l` fits in the range,
  and otherwise fails with `code`, having stored nothing outside the range.
-/

namespace Ssms.Kernel

open Ssms.Lib Ssms.Lib.BigEndian Ssms.Lib.Reading

/-- `(int)n` of a `size_t`. -/
def intOfSize (n : Nat) : Int := (BitVec.ofNat 32 n).toInt

theorem intOfSize_eq {n : Nat} (h : n < 2 ^ 31) : intOfSize n = n := by
  unfold intOfSize
  rw [BitVec.toInt_eq_toNat_of_lt] <;> rw [BitVec.toNat_ofNat, Nat.mod_eq_of_lt] <;> omega

/-- `SrsBuffer`. -/
structure SrsBuffer where
  bytes : Option Bytes
  nbBytes : Int
  p : Nat
  /-- The block is at least as long as the constructor was told. -/
  fits : nbBytes ≤ (bytes.getD []).length
  /-- `nb_bytes` is an `int`. -/
  isInt : nbBytes < 2 ^ 31

/-- A computation over a cursor. -/
abbrev Exec := EStateM Fault SrsBuffer

/-- Fail with a new error. -/
def srsErrorNew {α : Type} (ret : Int) (fmt : String) (args : List MsgArg) : Exec α :=
  throw (.error (.new ret fmt args))

/-- Run `m`, wrapping its error: `if ((err = m) != srs_success) return srs_error_wrap(err, …)`. -/
def wrapping {α : Type} (fmt : String) (args : List MsgArg) (m : Exec α) : Exec α := fun b =>
  match m b with
  | .ok a b' => .ok a b'
  | .error f b' => .error (f.wrap fmt args) b'

/-- `srs_assert`. -/
def srsAssert (c : Bool) : Exec Unit := if c then pure () else throw .assertFailed

namespace SrsBuffer

/-- The memory behind the cursor. -/
def mem (b : SrsBuffer) : Bytes := b.bytes.getD []

/-- A fresh cursor over a whole block: `SrsBuffer(b, b.length)`. -/
def new (l : Bytes) (h : l.length < 2 ^ 31) : SrsBuffer :=
  ⟨some l, l.length, 0, le_refl _, by exact_mod_cast h⟩

/-- `left()`. -/
def left (b : SrsBuffer) : Int := b.nbBytes - b.p

/-- `empty()`. -/
def empty (b : SrsBuffer) : Bool := b.bytes.isNone || decide (b.nbBytes ≤ b.p)

/-- `require(required_size)`. -/
def require (b : SrsBuffer) (requiredSize : Int) : Bool :=
  if requiredSize < 0 then false else decide (requiredSize ≤ b.nbBytes - b.p)

/-- The cursor `n` bytes further. -/
def advance (b : SrsBuffer) (n : Nat) : SrsBuffer := { b with p := b.p + n }

/-- The cursor at another position of its block. -/
def seek (b : SrsBuffer) (p : Nat) : SrsBuffer := { b with p := p }

/-- The cursor after `*p++ = x`. -/
def putByte (b : SrsBuffer) (x : UInt8) : SrsBuffer where
  bytes := b.bytes.map (·.set b.p x)
  nbBytes := b.nbBytes
  p := b.p + 1
  fits := by
    have := b.fits
    cases h : b.bytes <;> simp_all
  isInt := b.isInt

/-- The cursor after storing `l`. -/
def put (b : SrsBuffer) (l : Bytes) : SrsBuffer := l.foldl putByte b

/-- The load `*p++`. -/
def fetch : Exec UInt8 := fun b =>
  match b.mem[b.p]? with
  | some x => .ok x (b.advance 1)
  | none => .error .outOfBounds b

/-- `n` loads `*p++`, or a `memcpy` from `p`. -/
def fetchN : Nat → Exec Bytes
  | 0 => pure []
  | n + 1 => do
    let x ← fetch
    let l ← fetchN n
    pure (x :: l)

/-- The store `*p++ = x`. -/
def store (x : UInt8) : Exec Unit := fun b =>
  if b.p < b.mem.length then .ok () (b.putByte x) else .error .outOfBounds b

/-- The stores `*p++ = x` of a list, or a `memcpy` to `p`. -/
def storeN : Bytes → Exec Unit
  | [] => pure ()
  | x :: l => do
    store x
    storeN l

/-- `skip(size)`. -/
def skip (size : Int) : Exec Unit := do
  let b ← get
  srsAssert b.bytes.isSome
  srsAssert (decide (0 ≤ b.p + size))
  srsAssert (decide (b.p + size ≤ b.nbBytes))
  set { b with p := (b.p + size).toNat }

/-- `read_1bytes()`. -/
def read1bytes : Exec UInt8 := do
  let b ← get
  srsAssert (b.require 1)
  fetch

/-- `n` loads into the low bytes of a zeroed `w`-bit integer, most significant first. -/
def readBe (n w : Nat) : Exec (BitVec w) := do
  let b ← get
  srsAssert (b.require n)
  let l ← fetchN n
  pure (BitVec.ofNat w (ofBytes l))

/-- `read_2bytes()`. -/
def read2bytes : Exec (BitVec 16) := readBe 2 16

/-- `read_3bytes()`. -/
def read3bytes : Exec (BitVec 32) := readBe 3 32

/-- `read_4bytes()`. -/
def read4bytes : Exec (BitVec 32) := readBe 4 32

/-- `read_8bytes()`. -/
def read8bytes : Exec (BitVec 64) := readBe 8 64

/-- `n` loads into the low bytes of a zeroed `w`-bit integer, least significant first. -/
def readLe (n w : Nat) : Exec (BitVec w) := do
  let b ← get
  srsAssert (b.require n)
  let l ← fetchN n
  pure (BitVec.ofNat w (ofBytes l.reverse))

/-- `read_le2bytes()`. -/
def readLe2bytes : Exec (BitVec 16) := readLe 2 16

/-- `read_le3bytes()`. -/
def readLe3bytes : Exec (BitVec 32) := readLe 3 32

/-- `read_le4bytes()`. -/
def readLe4bytes : Exec (BitVec 32) := readLe 4 32

/-- `read_le8bytes()`. -/
def readLe8bytes : Exec (BitVec 64) := readLe 8 64

/-- `read_string(len)`. -/
def readString (len : Int) : Exec Bytes := do
  let b ← get
  srsAssert (b.require len)
  fetchN len.toNat

/-- `read_bytes(data, size)`: the block `data` after the copy. -/
def readBytes (data : Bytes) (size : Int) : Exec Bytes := do
  let b ← get
  srsAssert (b.require size)
  if size.toNat ≤ data.length then do
    let l ← fetchN size.toNat
    pure (l ++ data.drop size.toNat)
  else throw .outOfBounds

/-- `write_1bytes(value)`. -/
def write1bytes (value : UInt8) : Exec Unit := do
  let b ← get
  srsAssert (b.require 1)
  store value

/-- The low `n` bytes of an integer, most significant first. -/
def writeBe (n : Nat) {w : Nat} (value : BitVec w) : Exec Unit := do
  let b ← get
  srsAssert (b.require n)
  storeN (toBytes n value.toNat)

/-- `write_2bytes(value)`. -/
def write2bytes (value : BitVec 16) : Exec Unit := writeBe 2 value

/-- `write_3bytes(value)`. -/
def write3bytes (value : BitVec 32) : Exec Unit := writeBe 3 value

/-- `write_4bytes(value)`. -/
def write4bytes (value : BitVec 32) : Exec Unit := writeBe 4 value

/-- `write_8bytes(value)`. -/
def write8bytes (value : BitVec 64) : Exec Unit := writeBe 8 value

/-- The low `n` bytes of an integer, least significant first. -/
def writeLe (n : Nat) {w : Nat} (value : BitVec w) : Exec Unit := do
  let b ← get
  srsAssert (b.require n)
  storeN (toBytes n value.toNat).reverse

/-- `write_le2bytes(value)`. -/
def writeLe2bytes (value : BitVec 16) : Exec Unit := writeLe 2 value

/-- `write_le3bytes(value)`. -/
def writeLe3bytes (value : BitVec 32) : Exec Unit := writeLe 3 value

/-- `write_le4bytes(value)`. -/
def writeLe4bytes (value : BitVec 32) : Exec Unit := writeLe 4 value

/-- `write_le8bytes(value)`. -/
def writeLe8bytes (value : BitVec 64) : Exec Unit := writeLe 8 value

/-- `write_string(value)`: the assertion sees the length as an `int`, the copy as a `size_t`. -/
def writeString (value : Bytes) : Exec Unit := do
  let b ← get
  srsAssert (b.require (intOfSize value.length))
  storeN value

/-- `write_bytes(data, size)`. -/
def writeBytes (data : Bytes) (size : Int) : Exec Unit := do
  let b ← get
  srsAssert (b.require size)
  if size.toNat ≤ data.length then storeN (data.take size.toNat) else throw .outOfBounds

end SrsBuffer

/-- `if (!stream->require(n)) return srs_error_new(code, fmt, …, stream->left())`. -/
def requireOr (n : Int) (code : Int) (fmt : String) (args : List MsgArg) : Exec Unit := do
  let b ← get
  if b.require n then pure ()
  else srsErrorNew code fmt (args ++ [.int b.left])

theorem get_bind {α : Type} (f : SrsBuffer → Exec α) (b : SrsBuffer) : (get >>= f) b = f b b := rfl

theorem srsAssert_bind {α : Type} {c : Bool} (hc : c = true) (m : Exec α) :
    (srsAssert c >>= fun _ => m) = m := by
  rw [hc]
  rfl

section RequireOr

variable {n code : Int} {fmt : String} {args : List MsgArg} {b : SrsBuffer}

theorem requireOr_ok (h : b.require n = true) : requireOr n code fmt args b = .ok () b := by
  rw [requireOr, get_bind, if_pos h]
  rfl

theorem requireOr_error (h : ¬ b.require n = true) :
    requireOr n code fmt args b = .error (.error (.new code fmt (args ++ [.int b.left]))) b := by
  rw [requireOr, get_bind, if_neg h]
  rfl

end RequireOr

/-! ## Unread bytes -/

namespace SrsBuffer

/-- The bytes between the position and the end of the range. -/
def rest (b : SrsBuffer) : Bytes := (b.mem.take b.nbBytes.toNat).drop b.p

theorem nbBytes_le_mem (b : SrsBuffer) : b.nbBytes ≤ b.mem.length := b.fits

theorem rest_length (b : SrsBuffer) : b.rest.length = b.left.toNat := by
  have := b.nbBytes_le_mem
  simp only [rest, left, List.length_drop, List.length_take]
  omega

theorem rest_length_lt (b : SrsBuffer) : b.rest.length < 2 ^ 31 := by
  have := b.isInt
  rw [rest_length, left]
  omega

@[simp] theorem advance_advance (b : SrsBuffer) (m n : Nat) :
    (b.advance m).advance n = b.advance (m + n) := by
  simp only [advance, Nat.add_assoc]

@[simp] theorem rest_advance (b : SrsBuffer) (n : Nat) : (b.advance n).rest = b.rest.drop n := by
  simp only [rest, advance, List.drop_drop]
  rfl

@[simp] theorem advance_seek (b : SrsBuffer) (p n : Nat) :
    (b.seek p).advance n = b.seek (p + n) := rfl

@[simp] theorem seek_p (b : SrsBuffer) : b.seek b.p = b := rfl

theorem rest_new (l : Bytes) (h : l.length < 2 ^ 31) : (new l h).rest = l :=
  List.take_length

theorem require_of_left {b : SrsBuffer} {n : Nat} (h : (n : Int) ≤ b.left) :
    b.require n = true := by
  rw [require, if_neg (by omega), decide_eq_true_eq]
  exact h

theorem le_rest {b : SrsBuffer} {n : Nat} (h : (n : Int) ≤ b.left) : n ≤ b.rest.length := by
  rw [rest_length]
  omega

theorem le_left {b : SrsBuffer} {n : Nat} (hn : 0 < n) (h : n ≤ b.rest.length) :
    (n : Int) ≤ b.left := by
  rw [rest_length] at h
  omega

theorem require_iff (b : SrsBuffer) {n : Nat} (hn : 0 < n) :
    b.require n = true ↔ n ≤ b.rest.length := by
  rw [rest_length, require, if_neg (by omega), decide_eq_true_eq, left]
  omega

/-- A buffer with unread bytes has a block and a position inside the range. -/
theorem of_rest_ne_nil {b : SrsBuffer} (h : b.rest ≠ []) :
    b.bytes.isSome = true ∧ (b.p : Int) < b.nbBytes := by
  have hlen : 0 < b.rest.length := List.length_pos_iff.mpr h
  rw [rest_length, left] at hlen
  refine ⟨?_, by omega⟩
  have hmem := b.nbBytes_le_mem
  cases hb : b.bytes with
  | some l => rfl
  | none =>
    simp only [mem, hb, Option.getD_none, List.length_nil] at hmem
    omega

theorem empty_iff (b : SrsBuffer) : b.empty = true ↔ b.rest = [] := by
  constructor
  · intro h
    by_contra hr
    obtain ⟨h1, h2⟩ := of_rest_ne_nil hr
    simp only [empty, Bool.or_eq_true, decide_eq_true_eq, Option.isNone_iff_eq_none] at h
    rcases h with h | h
    · rw [h] at h1
      exact Bool.false_ne_true h1
    · omega
  · intro h
    have hlen := b.rest_length
    rw [h, List.length_nil, left] at hlen
    simp only [empty, Bool.or_eq_true, decide_eq_true_eq]
    exact Or.inr (by omega)

theorem fetch_rest {b : SrsBuffer} {x : UInt8} {l : Bytes} (h : b.rest = x :: l) :
    fetch b = .ok x (b.advance 1) := by
  have hx : (b.mem.take b.nbBytes.toNat)[b.p]? = some x := by
    have h0 : b.rest[0]? = some x := by rw [h]; rfl
    rwa [rest, List.getElem?_drop, Nat.add_zero] at h0
  rw [List.getElem?_take] at hx
  split at hx
  · rw [fetch, hx]
  · exact absurd hx (by simp)

theorem fetchN_rest : ∀ {n : Nat} {b : SrsBuffer}, n ≤ b.rest.length →
    fetchN n b = .ok (b.rest.take n) (b.advance n)
  | 0, b, _ => by rw [List.take_zero]; rfl
  | n + 1, b, h => by
    cases hr : b.rest with
    | nil => rw [hr] at h; exact absurd h (by simp)
    | cons x l =>
      have hl : (b.advance 1).rest = l := by rw [rest_advance, hr]; rfl
      rw [hr, List.length_cons] at h
      have hrun : fetchN n (b.advance 1) = .ok (l.take n) (b.advance (n + 1)) := by
        rw [fetchN_rest (by rw [hl]; omega), hl, advance_advance, Nat.add_comm 1 n]
      rw [fetchN, bind_ok (fetch_rest hr), bind_ok hrun]
      rfl

/-- A move that stays inside the range of a block. -/
theorem skip_run {b : SrsBuffer} {size : Int} {p : Nat} (hdata : b.bytes.isSome = true)
    (hp : b.p + size = p) (hrange : (p : Int) ≤ b.nbBytes) : skip size b = .ok () (b.seek p) := by
  rw [skip, get_bind, srsAssert_bind hdata, hp, srsAssert_bind (decide_eq_true (by omega)),
    srsAssert_bind (decide_eq_true hrange)]
  rfl

/-- Stepping back over bytes that were unread. -/
theorem skip_back {b : SrsBuffer} {n : Nat} (hn : 0 < n) (h : n ≤ b.rest.length) :
    skip (-(n : Int)) (b.advance n) = .ok () b := by
  obtain ⟨h1, h2⟩ := of_rest_ne_nil (List.length_pos_iff.mp (by omega : 0 < b.rest.length))
  have hp : ((b.advance n).p : Int) + -(n : Int) = b.p := by
    show ((b.p + n : Nat) : Int) + -(n : Int) = b.p
    omega
  exact skip_run (b := b.advance n) h1 hp h2.le

end SrsBuffer

/-! ## Readers over a cursor -/

/-- The fault is an error value. -/
def Fault.IsError (f : Fault) : Prop := ∃ e, f = .error e

/-- Readers over a cursor. -/
def bufferReading : Setting Fault SrsBuffer Bytes where
  view := SrsBuffer.rest
  Adv b b' := ∃ n, n ≤ b.rest.length ∧ b' = b.advance n
  Ok := Fault.IsError
  refl b := ⟨0, Nat.zero_le _, rfl⟩
  trans := by
    rintro b _ _ ⟨m, hm, rfl⟩ ⟨n, hn, rfl⟩
    rw [SrsBuffer.rest_advance, List.length_drop] at hn
    exact ⟨m + n, by omega, SrsBuffer.advance_advance b m n⟩

/-- The reader `m` decides `R` at `b`. -/
abbrev Reads {α : Type} (m : Exec α) (R : ReadRel Bytes α) (b : SrsBuffer) : Prop :=
  Implements bufferReading m R b

open SrsBuffer

theorem advance_eq {b : SrsBuffer} {n : Nat} (h : n ≤ b.rest.length) :
    bufferReading.Adv b (b.advance n) := ⟨n, h, rfl⟩

/-- A reader that moved to where `o` is unread moved by what is missing from the input. -/
theorem eq_advance_of_view {b b' : SrsBuffer} {l o : Bytes} (hadv : bufferReading.Adv b b')
    (hr : b.rest = l ++ o) (ho : b'.rest = o) : b' = b.advance l.length := by
  obtain ⟨n, hn, rfl⟩ := hadv
  have h1 := congrArg List.length ho
  rw [rest_advance, List.length_drop, hr, List.length_append] at h1
  rw [hr, List.length_append] at hn
  rw [show n = l.length by omega]

/-- A checked read of `n` bytes. -/
theorem reads_requireOr_fetchN {α : Type} {n : Nat} (hn : 0 < n) (code : Int) (fmt : String)
    (args : List MsgArg) {m : Exec α} {f : Bytes → α}
    (hm : ∀ b : SrsBuffer, n ≤ b.rest.length → m b = .ok (f (b.rest.take n)) (b.advance n))
    (b : SrsBuffer) :
    Reads (requireOr n code fmt args >>= fun _ => m)
      (fun i a o => ∃ l, l.length = n ∧ i = l ++ o ∧ a = f l) b := by
  have hsplit : ∀ l o : Bytes, l.length = n → b.rest = l ++ o →
      b.rest.take n = l ∧ b.rest.drop n = o := by
    rintro l o rfl h
    rw [h]
    exact ⟨List.take_left, List.drop_left⟩
  by_cases h : n ≤ b.rest.length
  · have hrun : (requireOr n code fmt args >>= fun _ => m) b =
        .ok (f (b.rest.take n)) (b.advance n) := by
      rw [bind_ok (requireOr_ok ((b.require_iff hn).mpr h))]
      exact hm b h
    refine Implements.of_ok hrun (advance_eq h) fun a o => ?_
    show (∃ l, l.length = n ∧ b.rest = l ++ o ∧ a = f l) ↔ _
    rw [show bufferReading.view (b.advance n) = b.rest.drop n from rest_advance b n]
    constructor
    · rintro ⟨l, hl, hr, rfl⟩
      obtain ⟨h1, h2⟩ := hsplit l o hl hr
      exact ⟨by rw [h1], h2.symm⟩
    · rintro ⟨rfl, rfl⟩
      exact ⟨_, by rw [List.length_take]; omega, (List.take_append_drop n _).symm, rfl⟩
  · have hrun : (requireOr n code fmt args >>= fun _ => m) b =
        .error (.error (.new code fmt (args ++ [.int b.left]))) b :=
      bind_error (requireOr_error fun hc => h ((b.require_iff hn).mp hc))
    refine Implements.of_error hrun ⟨_, rfl⟩ (bufferReading.refl b) ?_
    rintro a o ⟨l, hl, hr, -⟩
    have hr : b.rest = l ++ o := hr
    rw [hr, List.length_append] at h
    omega

theorem readBe_run {n w : Nat} {b : SrsBuffer} (h : (n : Int) ≤ b.left) :
    readBe n w b = .ok (BitVec.ofNat w (ofBytes (b.rest.take n))) (b.advance n) := by
  rw [readBe, get_bind, srsAssert_bind (require_of_left h), bind_ok (fetchN_rest (le_rest h))]
  rfl

theorem readLe_run {n w : Nat} {b : SrsBuffer} (h : (n : Int) ≤ b.left) :
    readLe n w b = .ok (BitVec.ofNat w (ofBytes (b.rest.take n).reverse)) (b.advance n) := by
  rw [readLe, get_bind, srsAssert_bind (require_of_left h), bind_ok (fetchN_rest (le_rest h))]
  rfl

theorem readString_run {n : Nat} {b : SrsBuffer} (h : (n : Int) ≤ b.left) :
    readString n b = .ok (b.rest.take n) (b.advance n) := by
  rw [readString, get_bind, srsAssert_bind (require_of_left h)]
  exact fetchN_rest (le_rest h)

/-- A block of memory is overwritten from its start. -/
theorem readBytes_run {data : Bytes} {n : Nat} {b : SrsBuffer} (h : (n : Int) ≤ b.left)
    (hroom : n ≤ data.length) :
    readBytes data n b = .ok (b.rest.take n ++ data.drop n) (b.advance n) := by
  rw [readBytes, get_bind, srsAssert_bind (require_of_left h), Int.toNat_natCast, if_pos hroom,
    bind_ok (fetchN_rest (le_rest h))]
  rfl

theorem read1bytes_run {b : SrsBuffer} {x : UInt8} {l : Bytes} (h : b.rest = x :: l) :
    read1bytes b = .ok x (b.advance 1) := by
  have hreq : b.require 1 = true := (b.require_iff one_pos).mpr (by simp [h])
  rw [read1bytes, get_bind, srsAssert_bind hreq]
  exact fetch_rest h

/-- `if (!require(1)) return error; x = read_1bytes();` -/
theorem reads_read1bytes (code : Int) (fmt : String) (args : List MsgArg) (b : SrsBuffer) :
    Reads (requireOr 1 code fmt args >>= fun _ => read1bytes) (fun i x o => i = x :: o) b := by
  have hrun : ∀ b : SrsBuffer, 1 ≤ b.rest.length →
      read1bytes b = .ok ((b.rest.take 1).headD 0) (b.advance 1) := by
    intro b h
    cases hr : b.rest with
    | nil => rw [hr] at h; exact absurd h (by simp)
    | cons x l => exact read1bytes_run hr
  refine (reads_requireOr_fetchN one_pos code fmt args (f := fun l => l.headD 0) hrun b).congr
    fun x o => ?_
  constructor
  · rintro ⟨l, hl, hr, rfl⟩
    obtain ⟨y, rfl⟩ := List.length_eq_one_iff.mp hl
    exact hr
  · intro hr
    exact ⟨[x], rfl, hr, rfl⟩

/-- `if (!require(n)) return error; x = read_nbytes();` -/
theorem reads_readBe {n : Nat} (w : Nat) (hn : 0 < n) (code : Int) (fmt : String)
    (args : List MsgArg) (b : SrsBuffer) :
    Reads (requireOr n code fmt args >>= fun _ => readBe n w)
      (fun i x o => ∃ l, l.length = n ∧ i = l ++ o ∧ x = BitVec.ofNat w (ofBytes l)) b :=
  reads_requireOr_fetchN hn code fmt args (fun _ h => readBe_run (le_left hn h)) b

/-- `if (!require(len)) return error; str = read_string(len);` -/
theorem reads_readString {n : Nat} (hn : 0 < n) (code : Int) (fmt : String)
    (args : List MsgArg) (b : SrsBuffer) :
    Reads (requireOr n code fmt args >>= fun _ => readString n)
      (fun i x o => x.length = n ∧ i = x ++ o) b :=
  (reads_requireOr_fetchN hn code fmt args (f := id)
    (fun _ h => readString_run (le_left hn h)) b).congr fun x o => by simp

theorem reads_srsErrorNew {α : Type} (code : Int) (fmt : String) (args : List MsgArg)
    (b : SrsBuffer) : Reads (srsErrorNew code fmt args : Exec α) (fun _ _ _ => False) b :=
  Implements.throw (S := bufferReading) ⟨_, rfl⟩ b

theorem reads_wrapping {α : Type} {m : Exec α} {R : ReadRel Bytes α} {b : SrsBuffer} (fmt : String)
    (args : List MsgArg) (h : Reads m R b) : Reads (wrapping fmt args m) R b := by
  cases hm : m b with
  | ok a b' =>
    obtain ⟨hadv, hR⟩ := h.ok_inv hm
    exact Implements.of_ok (by rw [wrapping, hm]) hadv hR
  | error f b' =>
    obtain ⟨⟨e, rfl⟩, hadv, hR⟩ := h.error_inv hm
    exact Implements.of_error (by rw [wrapping, hm]; rfl) ⟨e.wrap fmt args, rfl⟩ hadv hR

/-! ## Writers -/

namespace SrsBuffer

@[simp] theorem mem_putByte (b : SrsBuffer) (x : UInt8) :
    (b.putByte x).mem = b.mem.set b.p x := by
  simp only [mem, putByte]
  cases b.bytes <;> rfl

@[simp] theorem put_nil (b : SrsBuffer) : b.put [] = b := rfl

theorem put_append (b : SrsBuffer) (l l' : Bytes) : b.put (l ++ l') = (b.put l).put l' :=
  List.foldl_append

@[simp] theorem nbBytes_put (b : SrsBuffer) (l : Bytes) : (b.put l).nbBytes = b.nbBytes := by
  induction l generalizing b with
  | nil => rfl
  | cons x l ih => exact ih (b.putByte x)

@[simp] theorem p_put (b : SrsBuffer) (l : Bytes) : (b.put l).p = b.p + l.length := by
  induction l generalizing b with
  | nil => rfl
  | cons x l ih =>
    show ((b.putByte x).put l).p = _
    rw [ih, List.length_cons]
    show b.p + 1 + l.length = _
    omega

@[simp] theorem left_put (b : SrsBuffer) (l : Bytes) : (b.put l).left = b.left - l.length := by
  simp only [left, nbBytes_put, p_put]
  omega

/-- What a store leaves in memory: `l` at the position, every other byte as it was. -/
theorem getElem?_mem_put (b : SrsBuffer) (l : Bytes) (h : b.p + l.length ≤ b.mem.length)
    (i : Nat) :
    (b.put l).mem[i]? = if b.p ≤ i ∧ i < b.p + l.length then l[i - b.p]? else b.mem[i]? := by
  induction l generalizing b with
  | nil => rw [put_nil, if_neg (by simp)]
  | cons x l ih =>
    have hp : (b.putByte x).p = b.p + 1 := rfl
    rw [List.length_cons] at h ⊢
    show ((b.putByte x).put l).mem[i]? = _
    rw [ih (b.putByte x) (by rw [hp, mem_putByte, List.length_set]; omega), hp, mem_putByte,
      List.getElem?_set]
    by_cases hi : b.p = i
    · subst hi
      rw [if_neg (by omega), if_pos rfl, if_pos (by omega), if_pos (by omega), Nat.sub_self]
      rfl
    · by_cases hin : b.p + 1 ≤ i ∧ i < b.p + 1 + l.length
      · rw [if_pos hin, if_pos (by omega), show i - b.p = i - (b.p + 1) + 1 by omega]
        rfl
      · rw [if_neg hin, if_neg hi, if_neg (by omega)]

@[simp] theorem length_mem_put (b : SrsBuffer) (l : Bytes) :
    (b.put l).mem.length = b.mem.length := by
  induction l generalizing b with
  | nil => rfl
  | cons x l ih =>
    show ((b.putByte x).put l).mem.length = _
    rw [ih, mem_putByte, List.length_set]

theorem storeN_run : ∀ {l : Bytes} {b : SrsBuffer}, b.p + l.length ≤ b.mem.length →
    storeN l b = .ok () (b.put l)
  | [], _, _ => rfl
  | x :: l, b, h => by
    rw [List.length_cons] at h
    have hp : (b.putByte x).p = b.p + 1 := rfl
    rw [storeN, bind_apply, store, if_pos (by omega)]
    exact storeN_run (by rw [hp, mem_putByte, List.length_set]; omega)

theorem isSome_bytes_put (b : SrsBuffer) (l : Bytes) :
    (b.put l).bytes.isSome = b.bytes.isSome := by
  induction l generalizing b with
  | nil => rfl
  | cons x l ih =>
    show ((b.putByte x).put l).bytes.isSome = _
    rw [ih, putByte, Option.isSome_map]

theorem storeN_of_left {b : SrsBuffer} {l : Bytes} (h : (l.length : Int) ≤ b.left) :
    storeN l b = .ok () (b.put l) := by
  have := b.nbBytes_le_mem
  rw [left] at h
  exact storeN_run (by omega)

theorem write1bytes_run {b : SrsBuffer} {x : UInt8} (h : (1 : Int) ≤ b.left) :
    write1bytes x b = .ok () (b.put [x]) := by
  have hreq : b.require 1 = true := require_of_left h
  have hlt : b.p < b.mem.length := by
    have := b.nbBytes_le_mem
    rw [left] at h
    omega
  rw [write1bytes, get_bind, srsAssert_bind hreq, store, if_pos hlt]
  rfl

theorem writeBe_run {n w : Nat} (x : BitVec w) {b : SrsBuffer} (h : (n : Int) ≤ b.left) :
    writeBe n x b = .ok () (b.put (toBytes n x.toNat)) := by
  rw [writeBe, get_bind, srsAssert_bind (require_of_left h)]
  exact storeN_of_left (by rwa [toBytes_length])

theorem writeLe_run {n w : Nat} (x : BitVec w) {b : SrsBuffer} (h : (n : Int) ≤ b.left) :
    writeLe n x b = .ok () (b.put (toBytes n x.toNat).reverse) := by
  rw [writeLe, get_bind, srsAssert_bind (require_of_left h)]
  exact storeN_of_left (by rwa [List.length_reverse, toBytes_length])

theorem writeString_run {b : SrsBuffer} {value : Bytes} (h : (value.length : Int) ≤ b.left) :
    writeString value b = .ok () (b.put value) := by
  have hlt : value.length < 2 ^ 31 := lt_of_le_of_lt (le_rest h) b.rest_length_lt
  rw [writeString, get_bind, intOfSize_eq hlt, srsAssert_bind (require_of_left h)]
  exact storeN_of_left h

theorem writeBytes_run {b : SrsBuffer} {data : Bytes} {n : Nat} (h : (n : Int) ≤ b.left)
    (hroom : n ≤ data.length) : writeBytes data n b = .ok () (b.put (data.take n)) := by
  rw [writeBytes, get_bind, srsAssert_bind (require_of_left h), Int.toNat_natCast, if_pos hroom]
  exact storeN_of_left (by rwa [List.length_take, Nat.min_eq_left hroom])

/-- The bytes stored between two positions. -/
def written (b b' : SrsBuffer) : Bytes := (b'.mem.drop b.p).take (b'.p - b.p)

theorem written_put {b : SrsBuffer} {l : Bytes} (h : b.p + l.length ≤ b.mem.length) :
    b.written (b.put l) = l := by
  apply List.ext_getElem?
  intro i
  rw [written, p_put, Nat.add_sub_cancel_left, List.getElem?_take]
  split
  · rw [List.getElem?_drop, getElem?_mem_put b l h, if_pos (by omega), Nat.add_sub_cancel_left]
  · exact (List.getElem?_eq_none (by omega)).symm

/-- Back at the start of a store, what was stored is unread. -/
theorem rest_put_seek {b : SrsBuffer} {l : Bytes} (h : (l.length : Int) ≤ b.left) :
    ∃ o, ((b.put l).seek b.p).rest = l ++ o := by
  have hmem := b.nbBytes_le_mem
  rw [left] at h
  have hwritten : ((b.put l).mem.drop b.p).take l.length = l := by
    have := written_put (b := b) (l := l) (by omega)
    rwa [written, p_put, Nat.add_sub_cancel_left] at this
  have hrest : ((b.put l).seek b.p).rest.take l.length = l := by
    show (((b.put l).mem.take (b.put l).nbBytes.toNat).drop b.p).take l.length = l
    rw [nbBytes_put, List.drop_take, List.take_take, Nat.min_eq_left (by omega), hwritten]
  have hsplit := List.take_append_drop l.length ((b.put l).seek b.p).rest
  rw [hrest] at hsplit
  exact ⟨_, hsplit.symm⟩

end SrsBuffer

/-- Whenever `m` succeeds, it has stored exactly `l` inside the block. -/
def Stores (m : Exec Unit) (l : Bytes) : Prop :=
  ∀ b b', m b = .ok () b' → b' = b.put l ∧ (l = [] ∨ b.p + l.length ≤ b.mem.length)

namespace Stores

theorem nil : Stores (pure ()) [] := by
  rintro b b' h
  cases h
  exact ⟨rfl, Or.inl rfl⟩

theorem seq {m m' : Exec Unit} {l l' : Bytes} (h : Stores m l) (h' : Stores m' l') :
    Stores (m >>= fun _ => m') (l ++ l') := by
  intro b b' hrun
  cases hm : m b with
  | error f b₁ => rw [bind_error hm] at hrun; cases hrun
  | ok u b₁ =>
    rw [bind_ok hm] at hrun
    obtain ⟨rfl, hl⟩ := h b b₁ hm
    obtain ⟨rfl, hl'⟩ := h' _ b' hrun
    rw [p_put, length_mem_put] at hl'
    refine ⟨(put_append b l l').symm, ?_⟩
    rcases hl with rfl | hl
    · rcases hl' with rfl | hl'
      · exact Or.inl rfl
      · exact Or.inr (by simpa using hl')
    · rcases hl' with rfl | hl'
      · exact Or.inr (by simpa using hl)
      · exact Or.inr (by rw [List.length_append]; omega)

theorem wrapping {m : Exec Unit} {l : Bytes} (fmt : String) (args : List MsgArg)
    (h : Stores m l) : Stores (Kernel.wrapping fmt args m) l := by
  intro b b' hrun
  unfold Kernel.wrapping at hrun
  cases hm : m b with
  | error f b₁ => rw [hm] at hrun; cases hrun
  | ok u b₁ => rw [hm] at hrun; cases hrun; exact h b b' hm

/-- A check that reads the cursor only. -/
theorem requireOr {m : Exec Unit} {l : Bytes} (n code : Int) (fmt : String) (args : List MsgArg)
    (h : Stores m l) : Stores (Kernel.requireOr n code fmt args >>= fun _ => m) l := by
  intro b b' hrun
  by_cases hreq : b.require n = true
  · rw [bind_ok (requireOr_ok hreq)] at hrun
    exact h b b' hrun
  · rw [bind_error (requireOr_error hreq)] at hrun
    cases hrun

/-- An assertion about the cursor. -/
theorem srsAssert {m : Exec Unit} {l : Bytes} (c : SrsBuffer → Bool) (h : Stores m l) :
    Stores (get >>= fun b => Kernel.srsAssert (c b) >>= fun _ => m) l := by
  intro b b' hrun
  rw [get_bind] at hrun
  cases hc : c b with
  | false => rw [hc] at hrun; cases hrun
  | true => rw [srsAssert_bind hc] at hrun; exact h b b' hrun

theorem storeN : ∀ l : Bytes, Stores (SrsBuffer.storeN l) l
  | [] => nil
  | x :: l => by
    have hx : Stores (store x) [x] := by
      intro b b' hrun
      unfold store at hrun
      split at hrun
      · rename_i hlt
        cases hrun
        exact ⟨rfl, Or.inr hlt⟩
      · cases hrun
    exact hx.seq (storeN l)

theorem writeBe (n : Nat) {w : Nat} (x : BitVec w) :
    Stores (SrsBuffer.writeBe n x) (toBytes n x.toNat) :=
  srsAssert _ (storeN _)

theorem writeString (value : Bytes) : Stores (SrsBuffer.writeString value) value :=
  srsAssert _ (storeN value)

theorem write1bytes (x : UInt8) : Stores (SrsBuffer.write1bytes x) [x] :=
  srsAssert _ (by simpa [SrsBuffer.storeN] using storeN [x])

/-- The bytes between the two positions are what was stored. -/
theorem written {m : Exec Unit} {l : Bytes} (h : Stores m l) {b b' : SrsBuffer}
    (hrun : m b = .ok () b') : b.written b' = l := by
  obtain ⟨rfl, hl⟩ := h b b' hrun
  rcases hl with rfl | hl
  · rw [SrsBuffer.written, put_nil, Nat.sub_self, List.take_zero]
  · exact written_put hl

end Stores

/-- Everything outside the unread part of the range is as it was, and the position is not moved
back. -/
structure Within (b b' : SrsBuffer) : Prop where
  nbBytes : b'.nbBytes = b.nbBytes
  p_le : b.p ≤ b'.p
  length_mem : b'.mem.length = b.mem.length
  outside : ∀ i : Nat, i < b.p ∨ b.nbBytes ≤ i → b'.mem[i]? = b.mem[i]?

theorem Within.refl (b : SrsBuffer) : Within b b := ⟨rfl, le_refl _, rfl, fun _ _ => rfl⟩

theorem Within.trans {b b' b'' : SrsBuffer} (h : Within b b') (h' : Within b' b'') :
    Within b b'' where
  nbBytes := h'.nbBytes.trans h.nbBytes
  p_le := h.p_le.trans h'.p_le
  length_mem := h'.length_mem.trans h.length_mem
  outside i hi := by
    rw [← h.outside i hi]
    refine h'.outside i ?_
    rw [h.nbBytes]
    have := h.p_le
    omega

theorem within_put {b : SrsBuffer} {l : Bytes} (h : (l.length : Int) ≤ b.left) :
    Within b (b.put l) where
  nbBytes := nbBytes_put b l
  p_le := by rw [p_put]; omega
  length_mem := length_mem_put b l
  outside i hi := by
    have hmem := b.nbBytes_le_mem
    rw [left] at h
    rw [getElem?_mem_put b l (by omega), if_neg (by omega)]

/-- `l` can be stored: there is room for it, or nothing to store. -/
def Fits (b : SrsBuffer) (l : Bytes) : Prop := l = [] ∨ (l.length : Int) ≤ b.left

theorem fits_append {b : SrsBuffer} {l l' : Bytes} :
    Fits b (l ++ l') ↔ Fits b l ∧ Fits (b.put l) l' := by
  unfold Fits
  simp only [List.append_eq_nil_iff, List.length_append, left_put]
  rcases eq_or_ne l [] with rfl | hl
  · simp
  · rcases eq_or_ne l' [] with rfl | hl'
    · simp [hl]
    · simp only [hl, hl', false_or, false_and]
      omega

/-- The writer `m` stores exactly `l`, or fails with `code` when `l` does not fit. -/
def Writes (code : Int) (m : Exec Unit) (l : Bytes) : Prop :=
  ∀ b, (Fits b l → m b = .ok () (b.put l)) ∧
    (¬ Fits b l → ∃ e b', m b = .error (.error e) b' ∧ e.errorCode = code ∧ Within b b')

namespace Writes

variable {code : Int}

theorem within_of_fits {b : SrsBuffer} {l : Bytes} (h : Fits b l) : Within b (b.put l) := by
  rcases h with rfl | h
  · exact Within.refl b
  · exact within_put h

theorem nil : Writes code (pure ()) [] := fun _ => ⟨fun _ => rfl, fun h => absurd (Or.inl rfl) h⟩

/-- Writers in sequence store one list after the other. -/
theorem seq {m m' : Exec Unit} {l l' : Bytes} (h : Writes code m l) (h' : Writes code m' l') :
    Writes code (m >>= fun _ => m') (l ++ l') := by
  intro b
  rw [fits_append, put_append]
  constructor
  · rintro ⟨hl, hl'⟩
    rw [bind_ok ((h b).1 hl)]
    exact (h' _).1 hl'
  · intro hn
    by_cases hl : Fits b l
    · obtain ⟨e, b', hrun, he, hw⟩ := (h' (b.put l)).2 fun hc => hn ⟨hl, hc⟩
      refine ⟨e, b', ?_, he, (within_of_fits hl).trans hw⟩
      rw [bind_ok ((h b).1 hl)]
      exact hrun
    · obtain ⟨e, b', hrun, he, hw⟩ := (h b).2 hl
      exact ⟨e, b', bind_error hrun, he, hw⟩

/-- Wrapping an error keeps its code. -/
theorem wrapping {m : Exec Unit} {l : Bytes} (fmt : String) (args : List MsgArg)
    (h : Writes code m l) : Writes code (Kernel.wrapping fmt args m) l := by
  intro b
  constructor
  · intro hl
    rw [Kernel.wrapping, (h b).1 hl]
  · intro hl
    obtain ⟨e, b', hrun, he, hw⟩ := (h b).2 hl
    exact ⟨e.wrap fmt args, b', by rw [Kernel.wrapping, hrun]; rfl, he, hw⟩

/-- A checked store: `if (!require(n)) return error;` before `n` bytes are stored. -/
theorem checked {m : Exec Unit} {l : Bytes} (hl : l ≠ []) (fmt : String) (args : List MsgArg)
    (hm : ∀ b : SrsBuffer, (l.length : Int) ≤ b.left → m b = .ok () (b.put l)) :
    Writes code (requireOr l.length code fmt args >>= fun _ => m) l := by
  have hreq : ∀ b : SrsBuffer, b.require l.length = true ↔ Fits b l := by
    intro b
    rw [SrsBuffer.require, if_neg (by omega), decide_eq_true_eq, Fits, left]
    simp [hl]
  intro b
  by_cases hb : Fits b l
  · refine ⟨fun _ => ?_, fun h => absurd hb h⟩
    rw [bind_ok (requireOr_ok ((hreq b).mpr hb))]
    exact hm b (hb.resolve_left hl)
  · refine ⟨fun h => absurd h hb, fun _ => ?_⟩
    exact ⟨_, b, bind_error (requireOr_error fun hc => hb ((hreq b).mp hc)), rfl, Within.refl b⟩

theorem write1bytes (x : UInt8) (fmt : String) (args : List MsgArg) :
    Writes code (requireOr 1 code fmt args >>= fun _ => SrsBuffer.write1bytes x) [x] :=
  checked (List.cons_ne_nil x []) fmt args fun _ hb => write1bytes_run hb

theorem writeBe {n w : Nat} (hn : 0 < n) (x : BitVec w) (fmt : String) (args : List MsgArg) :
    Writes code (requireOr n code fmt args >>= fun _ => SrsBuffer.writeBe n x)
      (toBytes n x.toNat) := by
  have hlen : (toBytes n x.toNat).length = n := toBytes_length n _
  have hne : toBytes n x.toNat ≠ [] := List.length_pos_iff.mp (by omega)
  have h : Writes code _ _ := checked hne fmt args fun _ hb => writeBe_run x (hlen ▸ hb)
  rwa [hlen] at h

/-- `if (!require((int)value.length())) return error; write_string(value);` -/
theorem writeString {value : Bytes} (hne : value ≠ []) (hlt : value.length < 2 ^ 31) (fmt : String)
    (args : List MsgArg) :
    Writes code (requireOr (intOfSize value.length) code fmt args >>= fun _ =>
      SrsBuffer.writeString value) value := by
  rw [intOfSize_eq hlt]
  exact checked hne fmt args fun _ hb => writeString_run hb

end Writes

end Ssms.Kernel

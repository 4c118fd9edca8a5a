import Ssms.Kernel.Buffer

/-!
# Scripts of typed reads and writes (`SrsBuffer`, `srs_kernel_buffer.cpp`)

A `Typed` value is a value with the pair of operations that writes and reads it: the integers of 1,
2, 3, 4 and 8 bytes in both byte orders, a string, and a block that is copied into memory of the
reader. A script is a list of them over one cursor.

* `write_run`, `read_run`: an operation stores the bytes of its value, and reads the value back
  where they are unread.
* `roundTrip_run`: a script is written, the cursor goes back with `skip`, and the script is read.
-/

namespace Ssms.Kernel

open Ssms.Lib Ssms.Lib.BigEndian Ssms.Lib.Reading SrsBuffer

/-- The two forms of an integer operation. -/
inductive ByteOrder where
  | big
  | little

/-- The operation of a byte order. -/
def ByteOrder.pick {α : Type} (o : ByteOrder) (big little : α) : α :=
  match o with
  | .big => big
  | .little => little

/-- A value with the operations for it. -/
inductive Typed where
  /-- `write_1bytes(v)`, `read_1bytes()`. -/
  | int1 (v : UInt8)
  | int2 (o : ByteOrder) (v : BitVec 16)
  | int3 (o : ByteOrder) (v : BitVec 32)
  | int4 (o : ByteOrder) (v : BitVec 32)
  | int8 (o : ByteOrder) (v : BitVec 64)
  /-- `write_string(v)`, `read_string((int)v.length())`. -/
  | string (v : Bytes)
  /-- `write_bytes(data, n)`, `read_bytes(dest, n)` for the length `n` of `data`. -/
  | block (data dest : Bytes) (room : data.length ≤ dest.length)

/-- What a read operation gives: a signed integer, or bytes. -/
inductive Item where
  | int (v : Int)
  | bytes (l : Bytes)
  deriving DecidableEq

namespace Typed

/-- The number of bytes a value takes. -/
def size : Typed → Nat
  | int1 _ => 1
  | int2 _ _ => 2
  | int3 _ _ => 3
  | int4 _ _ => 4
  | int8 _ _ => 8
  | string v => v.length
  | block data _ _ => data.length

/-- The write operation. -/
def write : Typed → Exec Unit
  | int1 v => write1bytes v
  | int2 o v => o.pick (write2bytes v) (writeLe2bytes v)
  | int3 o v => o.pick (write3bytes v) (writeLe3bytes v)
  | int4 o v => o.pick (write4bytes v) (writeLe4bytes v)
  | int8 o v => o.pick (write8bytes v) (writeLe8bytes v)
  | string v => writeString v
  | block data _ _ => writeBytes data data.length

/-- The matching read operation. -/
def read : Typed → Exec Item
  | int1 _ => (fun x => .int x.toBitVec.toInt) <$> read1bytes
  | int2 o _ => (fun x => .int x.toInt) <$> o.pick read2bytes readLe2bytes
  | int3 o _ => (fun x => .int x.toInt) <$> o.pick read3bytes readLe3bytes
  | int4 o _ => (fun x => .int x.toInt) <$> o.pick read4bytes readLe4bytes
  | int8 o _ => (fun x => .int x.toInt) <$> o.pick read8bytes readLe8bytes
  | string v => .bytes <$> readString (intOfSize v.length)
  | block data dest _ => .bytes <$> readBytes dest data.length

/-- The value that is to be read back: a 3-byte integer keeps its low bytes only, and a block
replaces the start of the memory it is read into. -/
def value : Typed → Item
  | int1 v => .int v.toBitVec.toInt
  | int2 _ v => .int v.toInt
  | int3 _ v => .int (v.toInt % 2 ^ 24)
  | int4 _ v => .int v.toInt
  | int8 _ v => .int v.toInt
  | string v => .bytes v
  | block data dest _ => .bytes (data ++ dest.drop data.length)

end Typed

/-- The number of bytes a script takes. -/
def scriptSize (script : List Typed) : Nat := (script.map Typed.size).sum

/-- The writes of a script, in order. -/
def writeAll : List Typed → Exec Unit
  | [] => pure ()
  | t :: script => do
    t.write
    writeAll script

/-- The reads of a script, in order. -/
def readAll : List Typed → Exec (List Item)
  | [] => pure []
  | t :: script => do
    let x ← t.read
    let l ← readAll script
    pure (x :: l)

/-- The writes, `skip` back by the number of bytes written, and the reads. -/
def roundTrip (script : List Typed) : Exec (List Item) := do
  let start ← get
  writeAll script
  let stop ← get
  skip (start.p - stop.p)
  readAll script

/-! ## Integers -/

/-- The bytes of an integer in a byte order. -/
def ByteOrder.bytes (o : ByteOrder) (n : Nat) {w : Nat} (v : BitVec w) : Bytes :=
  o.pick (toBytes n v.toNat) (toBytes n v.toNat).reverse

@[simp] theorem ByteOrder.length_bytes (o : ByteOrder) (n : Nat) {w : Nat} (v : BitVec w) :
    (o.bytes n v).length = n := by
  cases o with
  | big => exact toBytes_length n _
  | little => exact List.length_reverse.trans (toBytes_length n _)

theorem write_pick (o : ByteOrder) {n w : Nat} (v : BitVec w) {b : SrsBuffer}
    (h : (n : Int) ≤ b.left) :
    o.pick (writeBe n v) (writeLe n v) b = .ok () (b.put (o.bytes n v)) := by
  cases o with
  | big => exact writeBe_run v h
  | little => exact writeLe_run v h

/-- The low `n` bytes of an integer are read back where its bytes are unread. -/
theorem read_pick (o : ByteOrder) {n w w' : Nat} {v : BitVec w} {c : SrsBuffer} {l : Bytes}
    (hleft : (n : Int) ≤ c.left) (hrest : c.rest = o.bytes n v ++ l) :
    o.pick (readBe n w') (readLe n w') c =
      .ok (BitVec.ofNat w' (v.toNat % 256 ^ n)) (c.advance n) := by
  have htake : c.rest.take n = o.bytes n v := by
    rw [hrest]
    exact List.take_left' (o.length_bytes n v)
  cases o with
  | big =>
    have hbytes : ofBytes (c.rest.take n) = v.toNat % 256 ^ n := by
      rw [htake]
      exact ofBytes_toBytes n _
    rw [← hbytes]
    exact readBe_run hleft
  | little =>
    have hbytes : ofBytes (c.rest.take n).reverse = v.toNat % 256 ^ n := by
      rw [htake]
      exact (congrArg ofBytes (List.reverse_reverse _)).trans (ofBytes_toBytes n _)
    rw [← hbytes]
    exact readLe_run hleft

/-- All bytes of an integer are the integer. -/
theorem toInt_all_bytes (n : Nat) {w : Nat} (hw : w = 8 * n) (v : BitVec w) :
    (BitVec.ofNat w (v.toNat % 256 ^ n)).toInt = v.toInt := by
  rw [← ofBytes_toBytes, ofNat_ofBytes_toBytes hw]

/-- Three bytes of an `int32_t` are its residue, which has no sign. -/
theorem toInt_three_bytes (v : BitVec 32) :
    (BitVec.ofNat 32 (v.toNat % 256 ^ 3)).toInt = v.toInt % 2 ^ 24 := by
  have hlt := v.isLt
  have hnat : (BitVec.ofNat 32 (v.toNat % 256 ^ 3)).toNat = v.toNat % 256 ^ 3 := by
    rw [BitVec.toNat_ofNat]
    omega
  rw [BitVec.toInt_eq_toNat_of_lt (by rw [hnat]; omega), hnat, BitVec.toInt_eq_toNat_cond]
  split <;> omega

/-! ## One operation -/

namespace Typed

/-- The bytes of a value. -/
def encode : Typed → Bytes
  | int1 v => [v]
  | int2 o v => o.bytes 2 v
  | int3 o v => o.bytes 3 v
  | int4 o v => o.bytes 4 v
  | int8 o v => o.bytes 8 v
  | string v => v
  | block data _ _ => data

theorem length_encode (t : Typed) : t.encode.length = t.size := by
  cases t <;> simp [encode, size]

/-- **A write stores the bytes of the value.** -/
theorem write_run {t : Typed} {b : SrsBuffer} (h : (t.size : Int) ≤ b.left) :
    t.write b = .ok () (b.put t.encode) := by
  cases t with
  | int1 v => exact write1bytes_run h
  | int2 o v => exact write_pick o v h
  | int3 o v => exact write_pick o v h
  | int4 o v => exact write_pick o v h
  | int8 o v => exact write_pick o v h
  | string v => exact writeString_run h
  | block data dest room =>
    have hwrite : writeBytes data data.length b = .ok () (b.put (data.take data.length)) :=
      writeBytes_run h le_rfl
    rwa [List.take_length] at hwrite

/-- **A read gives the value back where its bytes are unread.** -/
theorem read_run {t : Typed} {c : SrsBuffer} {l : Bytes} (hleft : (t.size : Int) ≤ c.left)
    (hrest : c.rest = t.encode ++ l) : t.read c = .ok t.value (c.advance t.size) := by
  cases t with
  | int1 v => exact map_ok (read1bytes_run hrest) rfl
  | int2 o v =>
    exact map_ok (read_pick o hleft hrest) (congrArg Item.int (toInt_all_bytes 2 rfl v))
  | int3 o v =>
    exact map_ok (read_pick o hleft hrest) (congrArg Item.int (toInt_three_bytes v))
  | int4 o v =>
    exact map_ok (read_pick o hleft hrest) (congrArg Item.int (toInt_all_bytes 4 rfl v))
  | int8 o v =>
    exact map_ok (read_pick o hleft hrest) (congrArg Item.int (toInt_all_bytes 8 rfl v))
  | string v =>
    have hlen : intOfSize v.length = v.length :=
      intOfSize_eq (lt_of_le_of_lt (le_rest hleft) c.rest_length_lt)
    have htake : c.rest.take v.length = v := by
      rw [hrest]
      exact List.take_left
    have hread := readString_run hleft
    rw [show size (string v) = v.length from rfl, htake, ← hlen] at hread
    exact map_ok hread rfl
  | block data dest room =>
    have htake : c.rest.take data.length = data := by
      rw [hrest]
      exact List.take_left
    have hread := readBytes_run hleft room
    rw [show size (block data dest room) = data.length from rfl, htake] at hread
    exact map_ok hread rfl

end Typed

/-! ## A script -/

/-- The bytes of a script. -/
def encodeAll (script : List Typed) : Bytes := script.flatMap Typed.encode

theorem encodeAll_cons (t : Typed) (script : List Typed) :
    encodeAll (t :: script) = t.encode ++ encodeAll script := rfl

theorem scriptSize_cons (t : Typed) (script : List Typed) :
    scriptSize (t :: script) = t.size + scriptSize script := by
  simp [scriptSize]

theorem length_encodeAll (script : List Typed) : (encodeAll script).length = scriptSize script := by
  induction script with
  | nil => rfl
  | cons t script ih =>
    rw [encodeAll_cons, List.length_append, ih, t.length_encode, scriptSize_cons]

/-- The writes store the bytes of the script. -/
theorem writeAll_run {script : List Typed} {b : SrsBuffer}
    (h : (scriptSize script : Int) ≤ b.left) :
    writeAll script b = .ok () (b.put (encodeAll script)) := by
  induction script generalizing b with
  | nil => rfl
  | cons t script ih =>
    rw [scriptSize_cons] at h
    have hleft : (b.put t.encode).left = b.left - t.size := by rw [left_put, t.length_encode]
    rw [writeAll, bind_ok (t.write_run (by omega)), encodeAll_cons, put_append]
    exact ih (by omega)

/-- The reads give the values back where the bytes of the script are unread. -/
theorem readAll_run {script : List Typed} {c : SrsBuffer} {l : Bytes}
    (hleft : (scriptSize script : Int) ≤ c.left) (hrest : c.rest = encodeAll script ++ l) :
    readAll script c = .ok (script.map Typed.value) (c.advance (scriptSize script)) := by
  induction script generalizing c with
  | nil => rfl
  | cons t script ih =>
    rw [scriptSize_cons] at hleft ⊢
    rw [encodeAll_cons, List.append_assoc] at hrest
    have hnext : (c.advance t.size).left = c.left - t.size := by
      show c.nbBytes - ((c.p + t.size : Nat) : Int) = c.nbBytes - c.p - t.size
      omega
    have hrest' : (c.advance t.size).rest = encodeAll script ++ l := by
      rw [rest_advance, hrest, ← t.length_encode]
      exact List.drop_left
    have hrun := ih (by omega) hrest'
    rw [readAll, bind_ok (t.read_run (by omega) hrest), bind_ok hrun, advance_advance]
    rfl

/-- `skip` goes back to where a store began. -/
theorem skip_put {b : SrsBuffer} {l : Bytes} (hdata : b.bytes.isSome = true)
    (hroom : (l.length : Int) ≤ b.left) :
    skip (b.p - (b.put l).p) (b.put l) = .ok () ((b.put l).seek b.p) := by
  have hright : b.nbBytes - b.p = b.left := rfl
  have hdata' : (b.put l).bytes.isSome = true := by rwa [isSome_bytes_put]
  exact skip_run hdata' (by omega) (by rw [nbBytes_put]; omega)

theorem left_put_seek (b : SrsBuffer) (l : Bytes) : ((b.put l).seek b.p).left = b.left := by
  show (b.put l).nbBytes - (b.p : Int) = _
  rw [nbBytes_put]
  rfl

/-- **Scripts round trip**: on a cursor over a block with enough room, the values come back, in the
state that the writes left, and no byte outside the written range has changed. -/
theorem roundTrip_run (script : List Typed) (b : SrsBuffer) (hdata : b.bytes.isSome = true)
    (hroom : (scriptSize script : Int) ≤ b.left) :
    ∃ b', writeAll script b = .ok () b' ∧
      roundTrip script b = .ok (script.map Typed.value) b' ∧
      b'.p = b.p + scriptSize script ∧ b'.mem.length = b.mem.length ∧
      ∀ i, i < b.p ∨ b.p + scriptSize script ≤ i → b'.mem[i]? = b.mem[i]? := by
  have hlen := length_encodeAll script
  have hmem := b.nbBytes_le_mem
  have hright : b.nbBytes - b.p = b.left := rfl
  refine ⟨b.put (encodeAll script), writeAll_run hroom, ?_, by rw [p_put, hlen],
    length_mem_put b _, fun i hi => ?_⟩
  · obtain ⟨l, hrest⟩ := rest_put_seek (b := b) (l := encodeAll script) (by rwa [hlen])
    have hread := readAll_run (by rwa [left_put_seek]) hrest
    have hstop : (b.put (encodeAll script)).seek (b.p + scriptSize script) =
        b.put (encodeAll script) := by
      rw [← hlen, ← p_put, seek_p]
    rw [advance_seek, hstop] at hread
    rw [roundTrip, get_bind, bind_ok (writeAll_run hroom), get_bind,
      bind_ok (skip_put hdata (by rwa [hlen]))]
    exact hread
  · rw [getElem?_mem_put b _ (by omega), if_neg (by omega)]

/-- A script with both byte orders, a negative 3-byte integer, a string and a block. -/
theorem roundTrip_mixed : ∃ b',
    roundTrip [.int3 .little (-1), .int1 0x80, .string [0x68, 0x69], .int2 .big 0x8001,
      .block [7] [0, 9] (by decide)] (.new (List.replicate 10 0) (by decide)) =
      .ok [.int 16777215, .int (-128), .bytes [0x68, 0x69], .int (-32767), .bytes [7, 9]] b' ∧
    b'.p = 9 := by
  obtain ⟨b', -, hrun, hp, -⟩ := roundTrip_run
    [.int3 .little (-1), .int1 0x80, .string [0x68, 0x69], .int2 .big 0x8001,
      .block [7] [0, 9] (by decide)] (.new (List.replicate 10 0) (by decide)) rfl (by decide)
  exact ⟨b', hrun, hp⟩

/-- `SrsBuffer(NULL, 0)`. -/
def nullBuffer : SrsBuffer := ⟨none, 0, 0, le_rfl, by decide⟩

/-- **A cursor over no block has room for the empty script**, and `skip` asserts all the same that
there is a block. -/
theorem skip_of_null :
    (scriptSize [] : Int) ≤ nullBuffer.left ∧
      roundTrip [] nullBuffer = .error .assertFailed nullBuffer :=
  ⟨le_rfl, rfl⟩

end Ssms.Kernel

import Ssms.Amf0.Copy
import Ssms.Lib.Run

/-!
# The count of a strict array (`SrsAmf0StrictArray`)

`_count` is kept beside the vector of elements. `append` recounts, `copy` copies both, but `clear`
leaves `_count` as it is, and `read` stores the declared count and appends to the elements that are
already there, however many it finds. `SafelyReached` are the runs that avoid this: `clear` and
`read` only on an array without elements, `read` only where the stream holds a complete strict
array, and `append` only of values the codec keeps. In every such run the count is right, so the
array is read back as it is (`count_of_safelyReached`).
-/

namespace Ssms.Amf0

open Ssms.Kernel Ssms.Kernel.SrsBuffer Ssms.Lib Ssms.Lib.BigEndian Ssms.Lib.Reading Ssms.Protocol
  SrsAmf0Any

/-- The fields of an instance. -/
structure SrsAmf0StrictArray where
  count : BitVec 32
  properties : List SrsAmf0Any
  deriving Repr

namespace SrsAmf0StrictArray

/-- The instance as a value. -/
def toAny (a : SrsAmf0StrictArray) : SrsAmf0Any := .strictArray a.count a.properties

/-- `SrsAmf0Any::strict_array()`. -/
def new : SrsAmf0StrictArray := ⟨0, []⟩

/-- `append(any)`. -/
def append (a : SrsAmf0StrictArray) (any : SrsAmf0Any) : SrsAmf0StrictArray :=
  ⟨BitVec.ofNat 32 (a.properties ++ [any]).length, a.properties ++ [any]⟩

/-- `clear()`: the elements are freed, `_count` is not touched. -/
def clear (a : SrsAmf0StrictArray) : SrsAmf0StrictArray := { a with properties := [] }

/-- `copy()`. -/
def copy (a : SrsAmf0StrictArray) : SrsAmf0StrictArray := ⟨a.count, copyElements [] a.properties⟩

end SrsAmf0StrictArray

/-- An operation of a run. -/
inductive ArrayOp where
  | append (any : SrsAmf0Any)
  | clear
  | copy
  | read (stream : SrsBuffer)

namespace ArrayOp

/-- The array after the operation; a `read` that fails is no step. -/
def apply (a : SrsAmf0StrictArray) : ArrayOp → Option SrsAmf0StrictArray
  | .append any => some (a.append any)
  | .clear => some a.clear
  | .copy => some a.copy
  | .read stream =>
    match SrsAmf0StrictArray.read srsAmf0ReadAny a.properties stream with
    | .ok r _ => some ⟨r.1, r.2⟩
    | .error _ _ => none

/-- The operation does not reach the stale count, and what it appends is kept by the codec. -/
def Safe (a : SrsAmf0StrictArray) : ArrayOp → Prop
  | .append any => Faithful any ∧ a.toAny.totalSize + any.totalSize ≤ 2 ^ 31 - 1
  | .clear => a.properties = []
  | .copy => True
  | .read stream => a.properties = [] ∧
    ∃ count ps o, Derives complete stream.rest (.any (.strictArray count ps)) o

end ArrayOp

/-- A safe operation. -/
def SafeStep (a a' : SrsAmf0StrictArray) : Prop :=
  ∃ op, ArrayOp.Safe a op ∧ ArrayOp.apply a op = some a'

/-- The arrays reached from `strict_array()` by safe operations. -/
abbrev SafelyReached : SrsAmf0StrictArray → Prop :=
  Run.Reached (· = SrsAmf0StrictArray.new) SafeStep

/-! ## Copies of faithful values -/

/-- Copying the values of a table keeps its names. -/
theorem map_fst_copy (ps : List (Bytes × SrsAmf0Any)) :
    (ps.map fun e => (e.1, e.2.copy)).map Prod.fst = ps.map Prod.fst := by
  rw [List.map_map]
  rfl

/-- A table value with copied values, when these are faithful. -/
theorem faithful_copy_table {v : SrsAmf0Any} {ps : List (Bytes × SrsAmf0Any)}
    (hv : v.table = ps.map fun e => (e.1, e.2.copy)) (hchildren : v.children = v.table.map Prod.snd)
    (hs : ∀ value, v ≠ .string value) (hn : ¬ v.IsEofNumber)
    (ha : ∀ count ps, v ≠ .strictArray count ps) (hkeys : ∀ e ∈ ps, e.1.length ≤ 32767)
    (hnames : DistinctNames ps) (hps : ∀ e ∈ ps, Faithful e.2.copy) : Faithful v := by
  have hmem : ∀ e ∈ v.table, ∃ e' ∈ ps, (e'.1, e'.2.copy) = e := fun e he =>
    List.mem_map.mp (hv ▸ he)
  refine everywhere_of_table ⟨fun value h => absurd h (hs value), fun e he => ?_, ?_, hn,
    fun count ps h => absurd h (ha count ps)⟩ hchildren fun e he => ?_
  · obtain ⟨e', he', rfl⟩ := hmem e he
    exact hkeys e' he'
  · unfold DistinctNames
    rw [hv, map_fst_copy]
    exact hnames
  · obtain ⟨e', he', rfl⟩ := hmem e he
    exact hps e' he'

/-- **A copy of a value the codec keeps is one too.** -/
theorem faithful_copy {v : SrsAmf0Any} (h : Faithful v) : Faithful v.copy := by
  have hnames : ∀ {w : SrsAmf0Any}, Faithful w → Everywhere NamesNode w := fun h =>
    h.mono fun _ h => h.names
  induction v with
  | string value =>
    refine .leaf rfl ⟨fun value' h' => ?_, fun _ he => absurd he List.not_mem_nil, List.nodup_nil,
      id, nofun⟩
    cases h'
    exact (length_cStr_le value).trans (h.here.string value rfl)
  | object ps ih =>
    rw [copy_object (hnames h)]
    exact faithful_copy_table rfl rfl nofun id nofun h.here.keys h.here.names
      fun e he => ih e he (h.of_mem_table he)
  | ecmaArray count ps ih =>
    rw [copy_ecmaArray (hnames h)]
    exact faithful_copy_table rfl rfl nofun id nofun h.here.keys h.here.names
      fun e he => ih e he (h.of_mem_table he)
  | strictArray count ps ih =>
    rw [copy_strictArray]
    refine .node ⟨nofun, fun _ he => absurd he List.not_mem_nil, List.nodup_nil, id,
      fun count' ps' h' => ?_⟩ fun w hw => ?_
    · cases h'
      rw [List.length_map]
      exact h.here.count count ps rfl
    · obtain ⟨e, he, rfl⟩ := List.mem_map.mp hw
      exact ih e he (h.inside e he)
  | _ => exact h

/-! ## The invariant -/

/-- What holds of every safely reached array. -/
structure ArrayInv (a : SrsAmf0StrictArray) : Prop where
  faithful : Faithful a.toAny
  size : a.toAny.totalSize ≤ 2 ^ 31 - 1

namespace ArrayInv

variable {a : SrsAmf0StrictArray}

/-- An array is faithful when its elements are and its count is right. -/
theorem faithful_array {count : BitVec 32} {ps : List SrsAmf0Any} (hcount : count.toInt = ps.length)
    (hps : ∀ v ∈ ps, Faithful v) : Faithful (.strictArray count ps) := by
  refine .node ⟨nofun, fun _ he => absurd he List.not_mem_nil, List.nodup_nil, id,
    fun count' ps' h => ?_⟩ hps
  cases h
  exact hcount

/-- The count, as far as it fits, of as many elements. -/
theorem toInt_count {n : Nat} (h : n < 2 ^ 31) : (BitVec.ofNat 32 n).toInt = n := by
  rw [BitVec.toInt_eq_toNat_of_lt] <;> rw [BitVec.toNat_ofNat, Nat.mod_eq_of_lt] <;> omega

theorem new : ArrayInv SrsAmf0StrictArray.new :=
  ⟨faithful_array rfl fun _ hv => absurd hv List.not_mem_nil, by decide⟩

theorem elementsSize_append (ps qs : List SrsAmf0Any) :
    elementsSize (ps ++ qs) = elementsSize ps + elementsSize qs := by
  induction ps with
  | nil => simp [elementsSize]
  | cons v ps ih =>
    simp only [List.cons_append, elementsSize, ih]
    omega

theorem append (h : ArrayInv a) {any : SrsAmf0Any} (hsafe : ArrayOp.Safe a (.append any)) :
    ArrayInv (a.append any) := by
  obtain ⟨hany, hsize⟩ := hsafe
  have hsum : (a.append any).toAny.totalSize = a.toAny.totalSize + any.totalSize := by
    show 1 + 4 + elementsSize (a.properties ++ [any]) = 1 + 4 + elementsSize a.properties + _
    rw [elementsSize_append, elementsSize, elementsSize]
    omega
  have hlen := length_le_elementsSize (a.properties ++ [any])
  have htotal : (a.append any).toAny.totalSize = 1 + 4 + elementsSize (a.properties ++ [any]) := rfl
  refine ⟨faithful_array (toInt_count (by omega)) fun v hv => ?_, by omega⟩
  rcases List.mem_append.mp hv with hv | hv
  · exact h.faithful.inside v hv
  · exact List.mem_singleton.mp hv ▸ hany

theorem clear (h : ArrayInv a) (hsafe : ArrayOp.Safe a .clear) : ArrayInv a.clear := by
  have heq : a.clear = a := by
    obtain ⟨count, ps⟩ := a
    exact congrArg _ (Eq.symm hsafe)
  exact heq ▸ h

theorem copy (h : ArrayInv a) : ArrayInv a.copy :=
  ⟨faithful_copy h.faithful,
    (totalSize_copy_le (h.faithful.mono fun _ h => h.names)).trans h.size⟩

/-- Into an array without elements, `read` of a complete array leaves that array. -/
theorem read {stream : SrsBuffer} (hsafe : ArrayOp.Safe a (.read stream)) {a' : SrsAmf0StrictArray}
    (hstep : ArrayOp.apply a (.read stream) = some a') : ArrayInv a' := by
  obtain ⟨hnil, count, ps, o, hder⟩ := hsafe
  have hreads : ReadsBelow srsAmf0ReadAny stream.rest.length := fun b _ => reads_any b
  obtain ⟨stream', hrun, -⟩ := (readsKind_strictArray hreads (le_refl _)).complete
    ⟨hder.decoder_of_complete, rfl⟩
  have ha' : a' = ⟨count, ps⟩ := by
    unfold ArrayOp.apply at hstep
    rw [hnil] at hstep
    dsimp only at hstep
    rw [map_eq_pure_bind, bind_apply] at hrun
    cases hread : SrsAmf0StrictArray.read srsAmf0ReadAny [] stream with
    | error f b' => rw [hread] at hrun; cases hrun
    | ok r b' =>
      rw [hread] at hrun hstep
      cases hrun
      exact (Option.some_inj.mp hstep).symm
  have hsize := hder.size_le
  have hlt := stream.rest_length_lt
  unfold Phrase.SizeLe at hsize
  subst ha'
  refine ⟨faithful_of_complete hder, ?_⟩
  show (SrsAmf0Any.strictArray count ps).totalSize ≤ _
  omega

/-- A safe step keeps the invariant. -/
theorem step (h : ArrayInv a) {a' : SrsAmf0StrictArray} (hstep : SafeStep a a') : ArrayInv a' := by
  obtain ⟨op, hsafe, hstep⟩ := hstep
  cases op with
  | append any => exact Option.some_inj.mp hstep ▸ h.append hsafe
  | clear => exact Option.some_inj.mp hstep ▸ h.clear hsafe
  | copy => exact Option.some_inj.mp hstep ▸ h.copy
  | read stream => exact read hsafe hstep

/-- The invariant holds in every safe run. -/
theorem of_safelyReached (h : SafelyReached a) : ArrayInv a :=
  h.invariant (fun _ ha => ha ▸ ArrayInv.new) fun _ _ _ hinv hstep => hinv.step hstep

end ArrayInv

/-- **The count of a safely reached array is right.** `write` emits its marker, the number of its
elements as `array-count` and then that many elements, it succeeds wherever it has room, and what it
emitted, followed by anything, is read back as the same array over exactly `total_size()` bytes. -/
theorem count_of_safelyReached (a : SrsAmf0StrictArray) (h : SafelyReached a) :
    a.count.toInt = a.properties.length ∧
    (∀ b : SrsBuffer, (a.toAny.totalSize : Int) ≤ b.left → ∃ b', a.toAny.write b = .ok () b') ∧
    ∀ (b b' c : SrsBuffer) (s : Bytes), a.toAny.write b = .ok () b' →
      b.written b' = rtmpAmf0StrictArray ::
        (toBytes 4 a.properties.length ++ encodeElements a.properties) ∧
      (c.rest = b.written b' ++ s →
        srsAmf0ReadAny c = .ok a.toAny (c.advance a.toAny.totalSize)) := by
  have hinv := ArrayInv.of_safelyReached h
  have hcount : a.count.toInt = a.properties.length :=
    hinv.faithful.here.count a.count a.properties rfl
  refine ⟨hcount, fun b hb => ?_, fun b b' c s hw => ?_⟩
  · have hsize := hinv.size
    exact ⟨_, write_run (by omega) hb⟩
  · have hwritten := (stores_any a.toAny).written hw
    refine ⟨?_, fun hc => ?_⟩
    · have htoNat : a.count.toNat = a.properties.length := by
        have := BitVec.toInt_eq_toNat_cond a.count
        split at this <;> omega
      rw [hwritten, ← htoNat]
      rfl
    · rw [hwritten] at hc
      rw [← length_encode]
      exact readAny_of_complete hc (hc ▸ derives_encode hinv.faithful s)

/-- An empty array is cleared, one with a null is read into it, a string is appended, and the array
is copied. -/
theorem count_of_safelyReached_run : SafelyReached ⟨2, [.null, .string [0x61]]⟩ ∧
    (2 : BitVec 32).toInt = [SrsAmf0Any.null, .string [0x61]].length := by
  have hnull : Faithful .null :=
    .leaf rfl ⟨nofun, fun _ he => absurd he List.not_mem_nil, List.nodup_nil, id, nofun⟩
  have hstring : Faithful (.string [0x61]) :=
    .leaf rfl ⟨fun _ h => by cases h; decide, fun _ he => absurd he List.not_mem_nil,
      List.nodup_nil, id, nofun⟩
  have harray : Faithful (.strictArray 1 [.null]) :=
    ArrayInv.faithful_array rfl fun v hv => List.mem_singleton.mp hv ▸ hnull
  have hcleared : SafelyReached ⟨0, []⟩ := .step (.start rfl) ⟨.clear, rfl, rfl⟩
  have hread : SafelyReached ⟨1, [.null]⟩ :=
    .step hcleared ⟨.read (SrsBuffer.new [0x0A, 0x00, 0x00, 0x00, 0x01, 0x05] (by decide)),
      ⟨rfl, 1, [.null], [], derives_encode harray []⟩, rfl⟩
  have happended : SafelyReached ⟨2, [.null, .string [0x61]]⟩ :=
    .step hread ⟨.append (.string [0x61]), ⟨hstring, by decide⟩, rfl⟩
  have hcopied : SafelyReached ⟨2, [.null, .string [0x61]]⟩ :=
    .step happended ⟨.copy, trivial, rfl⟩
  exact ⟨hcopied, (count_of_safelyReached _ hcopied).1⟩

/-- After `append` and `clear` the count is still one: `write` announces an element that does not
follow, and the byte after the array is read as that element. -/
theorem clear_keeps_count :
    (ArrayOp.append .null).apply SrsAmf0StrictArray.new = some ⟨1, [.null]⟩ ∧
    ArrayOp.clear.apply ⟨1, [.null]⟩ = some ⟨1, []⟩ ∧
    (SrsAmf0StrictArray.toAny ⟨1, []⟩).write (SrsBuffer.new (List.replicate 5 0) (by decide)) =
      .ok () ((SrsBuffer.new [0x0A, 0x00, 0x00, 0x00, 0x01] (by decide)).advance 5) ∧
    srsAmf0ReadAny (SrsBuffer.new [0x0A, 0x00, 0x00, 0x00, 0x01, 0x05] (by decide)) =
      .ok (.strictArray 1 [.null])
        ((SrsBuffer.new [0x0A, 0x00, 0x00, 0x00, 0x01, 0x05] (by decide)).advance 6) ∧
    (SrsAmf0StrictArray.toAny ⟨1, []⟩).totalSize = 5 :=
  ⟨rfl, rfl, rfl, rfl, rfl⟩

end Ssms.Amf0

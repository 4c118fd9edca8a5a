import Ssms.Amf0.RoundTrip
import Mathlib.Data.List.TakeWhile

/-!
# Copies (`SrsAmf0Any::copy`)

`Obtained` are the values a program can hold: what was read, what the factories make, and what
`set`, `append` and changes in place make of these. All of them have distinct names throughout
(`Obtained.names`), so rebuilding a table by `set` keeps its order (`copy_object`), and a copy
differs from its original only in the strings: `SrsAmf0String::copy` passes `value.c_str()` to the
constructor, which stops at the first zero byte.

* `copy_eq_self`, `noNul_of_totalSize_copy`: a copy is the original if no string in it holds a zero
  byte, and only then is it as long.
* `copy_faithful_iff`: exactly then does it write the same bytes.
-/

namespace Ssms.Amf0

open Ssms.Kernel Ssms.Kernel.SrsBuffer Ssms.Lib.Reading Ssms.Protocol SrsAmf0Any

/-- The values a program can hold. -/
inductive Obtained : SrsAmf0Any → Prop
  | read {v} (b b' : SrsBuffer) (h : srsAmf0ReadAny b = .ok v b') : Obtained v
  | str (value : Bytes) : Obtained (SrsAmf0Any.str value)
  | boolean (value : Bool) : Obtained (.boolean value)
  | number (value : BitVec 64) : Obtained (.number value)
  | date (value : BitVec 64) : Obtained (newDate value)
  | null : Obtained .null
  | undefined : Obtained .undefined
  | objectEOF : Obtained .objectEOF
  | object : Obtained newObject
  | ecmaArray : Obtained newEcmaArray
  | strictArray : Obtained newStrictArray
  | setObject {ps} (h : Obtained (.object ps)) (key : Bytes) (value : Option SrsAmf0Any)
      (hvalue : ∀ v, value = some v → Obtained v) :
      Obtained (.object (SrsUnSortedHashtable.set ps key value))
  | setEcmaArray {count ps} (h : Obtained (.ecmaArray count ps)) (key : Bytes)
      (value : Option SrsAmf0Any) (hvalue : ∀ v, value = some v → Obtained v) :
      Obtained (.ecmaArray count (SrsUnSortedHashtable.set ps key value))
  | append {count ps v} (h : Obtained (.strictArray count ps)) (hv : Obtained v) :
      Obtained (.strictArray (BitVec.ofNat 32 (ps ++ [v]).length) (ps ++ [v]))
  | child {v w} (h : Obtained v) (hw : w ∈ v.children) : Obtained w
  | inObject {l r key v w} (h : Obtained (.object (l ++ (key, v) :: r))) (hw : Obtained w) :
      Obtained (.object (l ++ (key, w) :: r))
  | inEcmaArray {count l r key v w} (h : Obtained (.ecmaArray count (l ++ (key, v) :: r)))
      (hw : Obtained w) : Obtained (.ecmaArray count (l ++ (key, w) :: r))
  | inStrictArray {count l r v w} (h : Obtained (.strictArray count (l ++ v :: r)))
      (hw : Obtained w) : Obtained (.strictArray count (l ++ w :: r))

/-- The string itself holds no zero byte. -/
def NoNulNode (v : SrsAmf0Any) : Prop := ∀ value, v = .string value → (0 : UInt8) ∉ value

/-! ## Names -/

theorem namesTable_of_object {v : SrsAmf0Any} (h : Everywhere NamesNode v) :
    NamesTable v.table := ⟨h.here, fun _ he => h.of_mem_table he⟩

theorem everywhere_of_namesTable {v : SrsAmf0Any} (h : NamesTable v.table)
    (hv : v.children = v.table.map Prod.snd) : Everywhere NamesNode v :=
  everywhere_of_table h.1 hv h.2

/-- `set` with or without a value. -/
theorem NamesTable.setOption {ps : List (Bytes × SrsAmf0Any)} (h : NamesTable ps) (key : Bytes)
    (value : Option SrsAmf0Any) (hvalue : ∀ v, value = some v → Everywhere NamesNode v) :
    NamesTable (SrsUnSortedHashtable.set ps key value) := by
  cases value with
  | some v => exact h.set key (hvalue v rfl)
  | none =>
    refine ⟨distinctNames_set h.1 key none, fun e he => h.2 e ?_⟩
    exact List.mem_of_mem_eraseP he

/-- Changing a value in place keeps the names. -/
theorem NamesTable.update {l r : List (Bytes × SrsAmf0Any)} {key : Bytes} {v w : SrsAmf0Any}
    (h : NamesTable (l ++ (key, v) :: r)) (hw : Everywhere NamesNode w) :
    NamesTable (l ++ (key, w) :: r) := by
  refine ⟨?_, fun e he => ?_⟩
  · have hnames := h.1
    unfold DistinctNames at hnames ⊢
    simpa using hnames
  · rcases List.mem_append.mp he with he | he
    · exact h.2 e (List.mem_append_left _ he)
    · rcases List.mem_cons.mp he with rfl | he
      · exact hw
      · exact h.2 e (List.mem_append_right _ (List.mem_cons_of_mem _ he))

/-- **Every value a program can hold has distinct names throughout.** -/
theorem Obtained.names {v : SrsAmf0Any} (h : Obtained v) : Everywhere NamesNode v := by
  induction h with
  | read b b' h => exact ((reads_any b).sound h).names
  | str | boolean | number | date | null | undefined | objectEOF | object | ecmaArray
  | strictArray => exact .leaf rfl List.nodup_nil
  | setObject _ key value _ ih ihvalue | setEcmaArray _ key value _ ih ihvalue =>
    exact everywhere_of_namesTable ((namesTable_of_object ih).setOption key value ihvalue) rfl
  | append _ _ ih ihv =>
    refine .node List.nodup_nil fun w hw => ?_
    rcases List.mem_append.mp hw with hw | hw
    · exact ih.inside w hw
    · exact List.mem_singleton.mp hw ▸ ihv
  | child _ hw ih => exact ih.inside _ hw
  | inObject _ _ ih ihw | inEcmaArray _ _ ih ihw =>
    exact everywhere_of_namesTable ((namesTable_of_object ih).update ihw) rfl
  | @inStrictArray _ l r v w _ _ ih ihw =>
    refine .node List.nodup_nil fun x hx => ?_
    rcases List.mem_append.mp hx with hx | hx
    · exact ih.inside x (List.mem_append_left _ hx)
    · rcases List.mem_cons.mp hx with rfl | hx
      · exact ihw
      · exact ih.inside x (List.mem_append_right _ (List.mem_cons_of_mem _ hx))

/-! ## What a copy is -/

/-- With distinct names, the copy of a table has the same names in the same order. -/
theorem copyProperties_of_names {ps : List (Bytes × SrsAmf0Any)} (h : DistinctNames ps) :
    copyProperties [] ps = ps.map fun e => (e.1, e.2.copy) := by
  rw [copyProperties_eq, copy_new copy ps [] h, List.nil_append]

theorem copy_object {ps : List (Bytes × SrsAmf0Any)} (h : Everywhere NamesNode (object ps)) :
    (object ps).copy = .object (ps.map fun e => (e.1, e.2.copy)) :=
  congrArg _ (copyProperties_of_names h.here)

theorem copy_ecmaArray {count : BitVec 32} {ps : List (Bytes × SrsAmf0Any)}
    (h : Everywhere NamesNode (ecmaArray count ps)) :
    (ecmaArray count ps).copy = .ecmaArray count (ps.map fun e => (e.1, e.2.copy)) :=
  congrArg _ (copyProperties_of_names h.here)

theorem copy_strictArray (count : BitVec 32) (ps : List SrsAmf0Any) :
    (strictArray count ps).copy = .strictArray count (ps.map copy) :=
  congrArg _ ((copyElements_eq ps []).trans (List.nil_append _))

/-- A C string ends before the first zero byte. -/
theorem length_cStr_le (value : Bytes) : (cStr value).length ≤ value.length :=
  (List.takeWhile_prefix _).length_le

theorem cStr_eq_self_iff (value : Bytes) : cStr value = value ↔ (0 : UInt8) ∉ value := by
  unfold cStr
  rw [List.takeWhile_eq_self_iff]
  constructor
  · intro h h0
    exact absurd (h 0 h0) (by decide)
  · intro h x hx
    exact decide_eq_true fun h0 => h (h0 ▸ hx)

theorem map_eq_self {α : Type} {f : α → α} {l : List α} (h : ∀ x ∈ l, f x = x) : l.map f = l :=
  (List.map_congr_left h).trans (List.map_id l)

/-- **A copy of a value without zero bytes in its strings is the value.** -/
theorem copy_eq_self {v : SrsAmf0Any} (h : Everywhere NamesNode v) (hn : Everywhere NoNulNode v) :
    v.copy = v := by
  induction v with
  | string value =>
    exact congrArg SrsAmf0Any.string ((cStr_eq_self_iff value).mpr (hn.here value rfl))
  | object ps ih =>
    rw [copy_object h]
    refine congrArg _ (map_eq_self fun e he => ?_)
    rw [ih e he (h.of_mem_table he) (hn.of_mem_table he)]
  | ecmaArray count ps ih =>
    rw [copy_ecmaArray h]
    refine congrArg _ (map_eq_self fun e he => ?_)
    rw [ih e he (h.of_mem_table he) (hn.of_mem_table he)]
  | strictArray count ps ih =>
    rw [copy_strictArray]
    exact congrArg _ (map_eq_self fun e he => ih e he (h.inside e he) (hn.inside e he))
  | _ => rfl

/-! ## How long a copy is -/

theorem propertiesSize_copy : ∀ ps : List (Bytes × SrsAmf0Any),
    (∀ e ∈ ps, e.2.copy.totalSize ≤ e.2.totalSize) →
    propertiesSize (ps.map fun e => (e.1, e.2.copy)) ≤ propertiesSize ps ∧
    (propertiesSize (ps.map fun e => (e.1, e.2.copy)) = propertiesSize ps →
      ∀ e ∈ ps, e.2.copy.totalSize = e.2.totalSize)
  | [], _ => ⟨le_refl _, fun _ _ he => absurd he List.not_mem_nil⟩
  | (name, v) :: ps, h => by
    obtain ⟨hv, hps⟩ := List.forall_mem_cons.mp h
    obtain ⟨hle, heq⟩ := propertiesSize_copy ps hps
    simp only [List.map_cons, propertiesSize] at hv ⊢
    refine ⟨by omega, fun h => List.forall_mem_cons.mpr ⟨?_, heq ?_⟩⟩
    · show v.copy.totalSize = v.totalSize
      omega
    · omega

theorem elementsSize_copy : ∀ ps : List SrsAmf0Any,
    (∀ v ∈ ps, v.copy.totalSize ≤ v.totalSize) →
    elementsSize (ps.map copy) ≤ elementsSize ps ∧
    (elementsSize (ps.map copy) = elementsSize ps → ∀ v ∈ ps, v.copy.totalSize = v.totalSize)
  | [], _ => ⟨le_refl _, fun _ _ he => absurd he List.not_mem_nil⟩
  | v :: ps, h => by
    obtain ⟨hv, hps⟩ := List.forall_mem_cons.mp h
    obtain ⟨hle, heq⟩ := elementsSize_copy ps hps
    simp only [List.map_cons, elementsSize]
    refine ⟨by omega, fun h => List.forall_mem_cons.mpr ⟨by omega, heq (by omega)⟩⟩

/-- A copy is not longer than its original. -/
theorem totalSize_copy_le {v : SrsAmf0Any} (h : Everywhere NamesNode v) :
    v.copy.totalSize ≤ v.totalSize := by
  induction v with
  | string value =>
    have := length_cStr_le value
    show 1 + (2 + (cStr value).length) ≤ 1 + (2 + value.length)
    omega
  | object ps ih =>
    have hps := (propertiesSize_copy ps fun e he => ih e he (h.of_mem_table he)).1
    rw [copy_object h, totalSize, totalSize]
    omega
  | ecmaArray count ps ih =>
    have hps := (propertiesSize_copy ps fun e he => ih e he (h.of_mem_table he)).1
    rw [copy_ecmaArray h, totalSize, totalSize]
    omega
  | strictArray count ps ih =>
    have hps := (elementsSize_copy ps fun e he => ih e he (h.inside e he)).1
    rw [copy_strictArray, totalSize, totalSize]
    omega
  | _ => exact le_refl _

/-- A copy that is as long as its original has lost no byte. -/
theorem noNul_of_totalSize_copy {v : SrsAmf0Any} (h : Everywhere NamesNode v)
    (heq : v.copy.totalSize = v.totalSize) : Everywhere NoNulNode v := by
  induction v with
  | string value =>
    refine .leaf rfl fun value' hv => ?_
    cases hv
    have hlen : 1 + (2 + (cStr value).length) = 1 + (2 + value.length) := heq
    exact (cStr_eq_self_iff value).mp
      ((List.takeWhile_prefix _).eq_of_length (show (cStr value).length = _ by omega))
  | object ps ih =>
    rw [copy_object h, totalSize, totalSize] at heq
    have hps := (propertiesSize_copy ps fun e he => totalSize_copy_le (h.of_mem_table he)).2
      (by omega)
    exact everywhere_of_table (fun _ h => by cases h) rfl fun e he =>
      ih e he (h.of_mem_table he) (hps e he)
  | ecmaArray count ps ih =>
    rw [copy_ecmaArray h, totalSize, totalSize] at heq
    have hps := (propertiesSize_copy ps fun e he => totalSize_copy_le (h.of_mem_table he)).2
      (by omega)
    exact everywhere_of_table (fun _ h => by cases h) rfl fun e he =>
      ih e he (h.of_mem_table he) (hps e he)
  | strictArray count ps ih =>
    rw [copy_strictArray, totalSize, totalSize] at heq
    have hps := (elementsSize_copy ps fun e he => totalSize_copy_le (h.inside e he)).2
      (by omega)
    exact .node (fun _ h => by cases h) fun e he => ih e he (h.inside e he) (hps e he)
  | _ => exact .leaf rfl fun _ h => by cases h

/-- **A copy is faithful iff no string in the value holds a zero byte**, for every value a program
can hold. -/
theorem copy_faithful_iff (v : SrsAmf0Any) (h : Obtained v) :
    (v.copy.totalSize = v.totalSize ∧ ∀ b, v.copy.write b = v.write b) ↔
      Everywhere NoNulNode v := by
  constructor
  · rintro ⟨heq, -⟩
    exact noNul_of_totalSize_copy h.names heq
  · intro hn
    rw [copy_eq_self h.names hn]
    exact ⟨rfl, fun _ => rfl⟩

/-- A copy of an array with one string. -/
theorem copy_faithful_array :
    (SrsAmf0Any.strictArray 1 [.string [0x61]]).copy.totalSize = 9 := by
  have hstr : Obtained (.string [0x61]) := .str [0x61]
  have harray : Obtained (.strictArray 1 [.string [0x61]]) := .append .strictArray hstr
  exact ((copy_faithful_iff _ harray).mpr (.node nofun (List.forall_mem_singleton.mpr
    (.leaf rfl fun value h => by cases h; decide)))).1

/-- The string `a\0b` is read from six bytes; its copy takes four. -/
theorem copy_nul_string :
    Obtained (.string [0x61, 0x00, 0x62]) ∧
    (SrsAmf0Any.string [0x61, 0x00, 0x62]).totalSize = 6 ∧
    (SrsAmf0Any.string [0x61, 0x00, 0x62]).copy.totalSize = 4 :=
  ⟨.read (SrsBuffer.new [0x02, 0x00, 0x03, 0x61, 0x00, 0x62] (by decide)) _ rfl, rfl, rfl⟩

end Ssms.Amf0

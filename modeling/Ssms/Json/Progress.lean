import Ssms.Json.ScanValue
import Ssms.Json.Filling

/-!
# The first pass reads a value, or fails

* `value_or_fails`: where a value is looked for in the first pass, one can be read as the grammar
  says, or the pass fails. Then the nodes that have been allocated are the whole heap, in the order
  of their links.
* `progresses`: the same holds of the rest of an array and of an object.
-/

namespace Ssms.Json

open Ssms.Kernel Ssms.Lib Ssms.Lib.Decimal
open Ssms.Lib.Rfc8259 hiding Bytes Text Phrase Derives Value IsNumber
open Lenient
open JsonValue (size sizes memberSizes)

/-! ## Bytes that fail -/

/-- The bytes that begin a value. -/
def BeginsValue (b : UInt8) : Prop :=
  b = beginObject ∨ b = beginArray ∨ b = quotationMark ∨ b = 0x74 ∨ b = 0x66 ∨ b = 0x6E ∨
    IsDigit b ∨ b = minus

instance : DecidablePred BeginsValue := fun b => by unfold BeginsValue; infer_instance

section Failing

variable {arith : Arithmetic} {text i : Bytes} {f : Flags} {m : Memory} {s : JsonState}

theorem stops_iteration (h : ∀ s, On text ⟨i, f, m⟩ s →
    ∃ s', s.iteration arith = .error (.failed s') ∧ s'.mem = m) :
    Loop.Stops (passStep arith) potential (On text ⟨i, f, m⟩) (FailedWith m) := by
  refine .now fun s hs => ?_
  obtain ⟨s', hstep, hmem⟩ := h s hs
  exact ⟨_, passStep_failed hstep, s', rfl, hmem⟩

theorem beginValue_failed {b : UInt8} (hb : ¬ BeginsValue b) (s : JsonState) :
    s.beginValue b = .error (.failed s) := by
  simp only [BeginsValue, beginObject, beginArray, quotationMark, minus, not_or] at hb
  obtain ⟨h1, h2, h3, h4, h5, h6, h7, h8⟩ := hb
  simp [JsonState.beginValue, h1, h2, h3, h4, h5, h6, h7, h8]

theorem isSpace_eq_false {b : UInt8} (hb : ¬ IsWs b) : isSpace b = false := by
  rw [← isSpace_iff] at hb
  simpa using hb

/-- No value begins here. -/
theorem stops_value (hws : ¬ IsWs (i.headD 0))
    (hbracket : i.headD 0 = endArray → m.topIsArray = .ok false) (hb : ¬ BeginsValue (i.headD 0)) :
    Loop.Stops (passStep arith) potential (On text ⟨i, { seekValue := true }, m⟩)
      (FailedWith m) := by
  refine stops_iteration fun s hs => ?_
  obtain ⟨hat, hflags, rfl⟩ := hs
  rw [iteration_value hat (by rw [hflags]) (by rw [hflags])]
  generalize i.headD 0 = b at hws hbracket hb
  have hspace := isSpace_eq_false hws
  by_cases hb' : b = 0x5D
  · exact ⟨s, by simp [JsonState.inValue, JsonState.seekingValue, hflags, hb', hbracket hb',
      JsonState.check, error_bind, ok_bind, show isSpace 0x5D = false from rfl], rfl⟩
  · have hbegin := beginValue_failed hb (s.setFlags {})
    exact ⟨s.setFlags {}, by simp [JsonState.inValue, JsonState.seekingValue, hflags, hspace, hb',
      hbegin, error_bind], rfl⟩

/-- No comma between two elements. -/
theorem stops_elementComma (hws : ¬ IsWs (i.headD 0)) (hbracket : i.headD 0 ≠ endArray)
    (hb : i.headD 0 ≠ valueSeparator) : Loop.Stops (passStep arith) potential
      (On text ⟨i, { seekValue := true, needComma := true }, m⟩) (FailedWith m) := by
  refine stops_iteration fun s hs => ⟨s, ?_, hs.mem⟩
  have hflags := hs.flags
  rw [iteration_value hs.toAt (by rw [hflags]) (by rw [hflags])]
  generalize i.headD 0 = b at hws hbracket hb
  have hbracket : b ≠ 0x5D := hbracket
  have hb : b ≠ 0x2C := hb
  simp [JsonState.inValue, JsonState.seekingValue, hflags, isSpace_eq_false hws, hbracket, hb,
    error_bind]

/-- No colon after a name. -/
theorem stops_colon (hws : ¬ IsWs (i.headD 0)) (harray : m.topIsArray = .ok false)
    (hb : i.headD 0 ≠ nameSeparator) : Loop.Stops (passStep arith) potential
      (On text ⟨i, { seekValue := true, needColon := true }, m⟩) (FailedWith m) := by
  refine stops_iteration fun s hs => ?_
  obtain ⟨hat, hflags, rfl⟩ := hs
  refine ⟨s, ?_, rfl⟩
  rw [iteration_value hat (by rw [hflags]) (by rw [hflags])]
  generalize i.headD 0 = b at hws hb
  have hb : b ≠ 0x3A := hb
  have hspace := isSpace_eq_false hws
  by_cases hb' : b = 0x5D
  · simp [JsonState.inValue, JsonState.seekingValue, hflags, hb', harray,
      JsonState.check, error_bind, ok_bind, show isSpace 0x5D = false from rfl]
  · simp [JsonState.inValue, JsonState.seekingValue, hflags, hspace, hb', hb, error_bind]

/-- Neither a name nor the end of the object. -/
theorem stops_member {comma : Bool} (hm : TopIsObject m) (hws : ¬ IsWs (i.headD 0))
    (hbracket : i.headD 0 ≠ endObject)
    (hb : i.headD 0 ≠ if comma then valueSeparator else quotationMark) :
    Loop.Stops (passStep arith) potential (On text ⟨i, { needComma := comma }, m⟩)
      (FailedWith m) := by
  obtain ⟨a, node, length, nameBytes, values, names, objectMem, hnode, hu⟩ := hm
  refine stops_iteration fun s hs => ⟨s, ?_, hs.mem⟩
  rw [iteration_object arith hnode hu hs]
  have hflags := hs.flags
  generalize i.headD 0 = b at hws hbracket hb
  have hbracket : b ≠ 0x7D := hbracket
  cases comma with
  | true =>
    have hb : b ≠ 0x2C := hb
    simp [JsonState.inObject, hflags, isSpace_eq_false hws, hbracket, hb, error_bind]
  | false =>
    have hb : b ≠ 0x22 := hb
    simp [JsonState.inObject, hflags, isSpace_eq_false hws, hbracket, hb, error_bind]

/-- Something after the value of the text. -/
theorem stops_done (hws : ¬ IsWs (i.headD 0)) (hb : i.headD 0 ≠ 0) :
    Loop.Stops (passStep arith) potential (On text ⟨i, { needComma := true, done := true }, m⟩)
      (FailedWith m) := by
  refine stops_iteration fun s hs => ⟨s, ?_, hs.mem⟩
  have hflags := hs.flags
  rw [iteration_eq hs.toAt, inString_ok (by rw [hflags]), ok_bind]
  generalize i.headD 0 = b at hws hb
  simp [JsonState.afterRoot, hflags, hb, isSpace_eq_false hws, error_bind]

/-- The end of the text. -/
theorem stops_end (hb : i.headD 0 = 0) :
    Loop.Stops (passStep arith) potential (On text ⟨i, { needComma := true, done := true }, m⟩)
      (fun r => ∃ s, r = .stop s ∧ s.mem = m ∧ s.json = text) := by
  refine .now fun s hs => ?_
  have hflags := hs.flags
  have hstop : s.iteration arith = .error (.stop s) := by
    rw [iteration_eq hs.toAt, inString_ok (by rw [hflags]), ok_bind, hb]
    simp [JsonState.afterRoot, hflags, error_bind]
  exact ⟨.stop s, by rw [passStep, hstop], s, rfl, hs.mem, hs.json⟩

/-- White space reaches up to something else. -/
theorem exists_ws (i : Bytes) : ∃ o, Ws i o ∧ ¬ IsWs (o.headD 0) := by
  induction i with
  | nil => exact ⟨[], .none [], by decide⟩
  | cons c i ih =>
    by_cases hc : IsWs c
    · obtain ⟨o, ⟨w, hw, rfl⟩, ho⟩ := ih
      exact ⟨o, ⟨c :: w, List.forall_mem_cons.mpr ⟨hc, hw⟩, rfl⟩, ho⟩
    · exact ⟨c :: i, .none _, hc⟩

end Failing

/-! ## Memory in the first pass -/

/-- Memory in the first pass, with the nodes `l`. -/
def firstMemory (l : List JsonBody) (top : Option Nat) : Memory := layout true l l.length top

/-- The pass has failed, and the heap is the nodes that have been allocated. -/
def FailedFirst (r : PassResult) : Prop :=
  ∃ l top, Unfilled l ∧ FailedWith (firstMemory l top) r

/-- Where a value is looked for: its parent has room. -/
inductive Ready : List JsonBody → Option Nat → Prop
  | root {l} : Ready l none
  | array {pre mid p done} (hroom : done.length < JsonState.uintMax) :
      Ready (pre ++ ⟨p, arrayOf true done 0⟩ :: mid) (some pre.length)
  | object {pre mid p done name} (hroom : done.length < JsonState.uintMax) :
      Ready (pre ++ ⟨p, namedOf true done name []⟩ :: mid) (some pre.length)

section First

variable {arith : Arithmetic} {text i o : Bytes} {l pre mid post : List JsonBody}
  {p top : Option Nat} {u : JsonU} {done : List Nat} {es : List (Bytes × Nat)} {f : Flags}
  {m' : Memory}

theorem newValue_firstMemory (l : List JsonBody) (p : Option Nat) (u : JsonU) :
    (firstMemory l p).newValue u = .ok (firstMemory (l ++ [⟨p, u⟩]) (some l.length)) := by
  have hu : Allocates true u u u := rfl
  have hnew := newValue_layout [] l p (fun _ => rfl : true = true → ([] : List JsonBody) = []) hu
  simpa [firstMemory, pending] using hnew

theorem topIsObject_firstMemory (todo : List Bytes) :
    TopIsObject (firstMemory (pre ++ ⟨p, objectOf true es todo⟩ :: mid) (some pre.length)) :=
  ⟨_, _, _, _, _, _, _, deref_layout _ _ _ _ _ _, rfl⟩

/-- A value is appended. -/
theorem builds_firstMemory {v : JsonValue} (hv : Everywhere JsonValue.children FitsNode v)
    (hend : Ends (firstMemory (l ++ ⟨p, nodeOf true l.length v⟩ :: nodesIn true l.length v)
      (some l.length)) f m') : Builds (.value v) (firstMemory l p) f m' := by
  have hlen := length_nodesIn true v l.length
  have hsize : (l ++ ⟨p, nodeOf true l.length v⟩ :: nodesIn true l.length v).length =
      l.length + v.size := by
    rw [List.length_append, List.length_cons, hlen]
  rw [firstMemory, hsize] at hend
  have h : Builds (.value v) (layout true (l ++ (pending true
      (⟨p, nodeOf true l.length v⟩ :: nodesIn true l.length v) ++ [])) l.length p) f m' :=
    builds_value hv l [] p (fun _ => rfl) (by rwa [List.append_nil])
  simpa [firstMemory, pending] using h

/-- Another node in the place of one. -/
theorem firstMemory_congr (b b' : JsonBody) : firstMemory (pre ++ b' :: mid) top =
    layout true (pre ++ b' :: mid) (pre ++ b :: mid).length top := by
  rw [firstMemory, List.length_append, List.length_append, List.length_cons, List.length_cons]

/-- A value has ended in the node `pre.length`, which has one more entry then. -/
theorem ends_firstMemory {rest : List JsonBody} {u' v : JsonU} {c : Nat}
    (hc : c = pre.length + (mid.length + 1)) (hentry : u.addEntry true c = .ok u')
    (hroom : u'.lengthOf ≤ JsonState.uintMax) :
    Ends (firstMemory ((pre ++ ⟨p, u⟩ :: mid) ++ ⟨some pre.length, v⟩ :: rest) (some c))
      { needComma := true, seekValue := u.isArray }
      (firstMemory (pre ++ ⟨p, u'⟩ :: (mid ++ ⟨some pre.length, v⟩ :: rest))
        (some pre.length)) := by
  have h := ends_entry true pre mid rest p (pre ++ ⟨p, u⟩ ::
    (mid ++ ⟨some pre.length, v⟩ :: rest)).length
    v hc hentry hroom
  rw [firstMemory_congr ⟨p, u⟩ ⟨p, u'⟩, firstMemory, List.append_assoc, List.cons_append]
  exact h

/-- An element. -/
theorem builds_firstElement (pre mid : List JsonBody) (p : Option Nat) {v : JsonValue}
    (hv : Everywhere JsonValue.children FitsNode v) (hroom : done.length < JsonState.uintMax)
    {c : Nat} (hc : c = pre.length + (mid.length + 1)) :
    Builds (.value v) (firstMemory (pre ++ ⟨p, arrayOf true done 0⟩ :: mid) (some pre.length))
      { needComma := true, seekValue := true }
      (firstMemory (pre ++ ⟨p, arrayOf true (done ++ [c]) 0⟩ ::
        (mid ++ ⟨some pre.length, nodeOf true c v⟩ :: nodesIn true c v)) (some pre.length)) := by
  have hlen : (pre ++ ⟨p, arrayOf true done 0⟩ :: mid).length = c := by
    rw [List.length_append, List.length_cons, hc]
  refine builds_firstMemory hv ?_
  rw [hlen]
  exact ends_firstMemory hc (addEntry_arrayOf done 0 c)
    (by simp only [arrayOf, JsonU.lengthOf, List.length_append, List.length_singleton]; omega)

/-- The value of a member. -/
theorem builds_firstMember (pre mid : List JsonBody) (p : Option Nat) {v : JsonValue} (name : Bytes)
    (hv : Everywhere JsonValue.children FitsNode v)
    (hroom : es.length < JsonState.uintMax) {c : Nat} (hc : c = pre.length + (mid.length + 1)) :
    Builds (.value v) (firstMemory (pre ++ ⟨p, namedOf true es name []⟩ :: mid) (some pre.length))
      { needComma := true }
      (firstMemory (pre ++ ⟨p, objectOf true (es ++ [(name, c)]) []⟩ ::
        (mid ++ ⟨some pre.length, nodeOf true c v⟩ :: nodesIn true c v)) (some pre.length)) := by
  have hlen : (pre ++ ⟨p, namedOf true es name []⟩ :: mid).length = c := by
    rw [List.length_append, List.length_cons, hc]
  refine builds_firstMemory hv ?_
  rw [hlen]
  exact ends_firstMemory hc (addEntry_namedOf es name [] c)
    (by rw [lengthOf_objectOf, List.length_append, List.length_singleton]; omega)

/-- A name. -/
theorem storesName_firstMemory (name : Bytes) :
    StoresName (firstMemory (pre ++ ⟨p, objectOf true es []⟩ :: mid) (some pre.length)) name
      (firstMemory (pre ++ ⟨p, namedOf true es name []⟩ :: mid) (some pre.length)) := by
  rw [firstMemory_congr ⟨p, objectOf true es []⟩ ⟨p, namedOf true es name []⟩]
  exact storesName_layout es name []

/-- One node of the first pass is another one then, and more have been allocated. -/
theorem Unfilled.grow {b b' : JsonBody} {rest : List JsonBody} (h : Unfilled (pre ++ b :: mid))
    (hb : b'.u.hasCells = false) (hrest : Unfilled rest) :
    Unfilled (pre ++ b' :: (mid ++ rest)) := by
  obtain ⟨hpre, hmid⟩ := List.forall_mem_append.mp h
  exact List.forall_mem_append.mpr ⟨hpre, List.forall_mem_cons.mpr
    ⟨hb, List.forall_mem_append.mpr ⟨(List.forall_mem_cons.mp hmid).2, hrest⟩⟩⟩

/-- A value with its nodes. -/
theorem unfilled_value (v : JsonValue) (base : Nat) (p : Option Nat) :
    Unfilled (⟨p, nodeOf true base v⟩ :: nodesIn true base v) :=
  List.forall_mem_cons.mpr ⟨hasCells_nodeOf v base, unfilled_nodesIn v base⟩

theorem Unfilled.concat (h : Unfilled l) (hu : u.hasCells = false) : Unfilled (l ++ [⟨p, u⟩]) :=
  List.forall_mem_append.mpr ⟨h, List.forall_mem_singleton.mpr hu⟩

end First

/-! ## What is read fits into memory -/

/-- What a phrase says fits into memory. -/
def FitsPhrase : Phrase → Prop
  | .value v => Everywhere JsonValue.children FitsNode v
  | .elements _ vs => ∀ v ∈ vs, Everywhere JsonValue.children FitsNode v
  | .members _ ms => ∀ e ∈ ms, Everywhere JsonValue.children FitsNode e.2

/-- A text with fewer than `2 ^ 28` bytes fits. -/
theorem fits_of_reads {arith : Arithmetic} {φ : Phrase} {i o : Bytes} (h : Reads arith i φ o)
    (hi : i.length < 2 ^ 28) : FitsPhrase φ := by
  induction h with
  | null => exact .leaf rfl trivial
  | true => exact .leaf rfl (Or.inr rfl)
  | false => exact .leaf rfl (Or.inl rfl)
  | @number _ _ _ n => cases n <;> exact .leaf rfl trivial
  | @string i i' o w heq hw =>
    subst heq
    rw [List.length_cons] at hi
    have hlen := hw.length_lt
    exact .leaf rfl (show w.length < 2 ^ 31 by omega)
  | @array i i' o vs heq hvs ih =>
    subst heq
    rw [List.length_cons] at hi
    have hlen := hvs.length_lt
    simp only [Phrase.weight] at hlen
    exact .node (show vs.length < 2 ^ 31 by omega) (ih (by omega))
  | @object i i' o ms heq hms ih =>
    subst heq
    rw [List.length_cons] at hi
    have hlen := hms.length_lt
    simp only [Phrase.weight] at hlen
    refine .node (show JsonU.entrySize * ms.length < 2 ^ 31 from ?_) fun v hv => ?_
    · unfold JsonU.entrySize
      omega
    · obtain ⟨e, he, rfl⟩ := List.mem_map.mp hv
      exact ih (by omega) e he
  | endElements => exact fun v hv => absurd hv List.not_mem_nil
  | endMembers => exact fun e he => absurd he List.not_mem_nil
  | elementComma hw _ ih | memberComma hw _ ih =>
    have hlen := length_le_of_ws hw
    rw [List.length_cons] at hlen
    exact ih (by omega)
  | element hw hv _ ihv ihvs =>
    have hlen := length_le_of_ws hw
    have hlen' := hv.length_lt
    exact List.forall_mem_cons.mpr ⟨ihv (by omega), ihvs (by omega)⟩
  | member hw hname hcolon hw' hv _ ihv ihms =>
    have hlen := length_le_of_ws hw
    have hlt := hname.length_lt
    have hlen' := length_le_of_ws hcolon
    have hlen'' := length_le_of_ws hw'
    have hlt' := hv.length_lt
    rw [List.length_cons] at hlen hlen'
    exact List.forall_mem_cons.mpr ⟨ihv (by omega), ihms (by omega)⟩

/-! ## Progress -/

/-- Before `i`, the pass fails. -/
def Fails (arith : Arithmetic) (text i : Bytes) (f : Flags) (m : Memory) : Prop :=
  Loop.Stops (passStep arith) potential (On text ⟨i, f, m⟩) FailedFirst

/-- The rest of an array or object that is shorter than `k` can be read, or the pass fails. -/
structure Progresses (arith : Arithmetic) (text : Bytes) (k : Nat) : Prop where
  elements : ∀ i pre mid p done comma, Unfilled (pre ++ ⟨p, arrayOf true done 0⟩ :: mid) →
    i.length < k → done.length + i.length < 2 ^ 28 →
    (∃ vs o, Reads arith i (.elements comma vs) o) ∨
      Fails arith text i { seekValue := true, needComma := comma }
        (firstMemory (pre ++ ⟨p, arrayOf true done 0⟩ :: mid) (some pre.length))
  members : ∀ i pre mid p es comma, Unfilled (pre ++ ⟨p, objectOf true es []⟩ :: mid) →
    i.length < k → es.length + i.length < 2 ^ 28 → (∃ ms o, Reads arith i (.members comma ms) o) ∨
      Fails arith text i { needComma := comma }
        (firstMemory (pre ++ ⟨p, objectOf true es []⟩ :: mid) (some pre.length))

section Progress

variable {arith : Arithmetic} {text i o : Bytes} {l pre mid : List JsonBody} {p : Option Nat}
  {k : Nat} {f f' : Flags} {m m' : Memory}

theorem Fails.of_leads (h : Loop.Leads (passStep arith) potential (On text ⟨i, f, m⟩)
    (On text ⟨o, f', m'⟩)) (h' : Fails arith text o f' m') : Fails arith text i f m :=
  h.stops h'

theorem Fails.of_failed {top : Option Nat} (hl : Unfilled l)
    (h : Loop.Stops (passStep arith) potential
    (On text ⟨i, f, firstMemory l top⟩) (FailedWith (firstMemory l top))) :
    Fails arith text i f (firstMemory l top) :=
  h.mono fun _ hr => ⟨l, top, hl, hr⟩

/-! ### Literals and numbers -/

/-- The rest of a literal is there, or the pass fails. -/
theorem word_or_fails (arith : Arithmetic) (text i : Bytes) (l : List JsonBody) (top : Option Nat)
    (hl : Unfilled l) {b : UInt8} {w : Bytes} {g : JsonState → Part JsonState} (hw : ∀ c ∈ w, c ≠ 0)
    (hspace : isSpace b = false) (hb : b ≠ 0x5D)
    (hbegin : ∀ s : JsonState, s.beginValue b = (s.literal w >>= g)) :
    (∃ o, i = w ++ o) ∨
      Fails arith text (b :: i) { seekValue := true } (firstMemory l top) := by
  by_cases h : ∃ o, i = w ++ o
  · exact Or.inl h
  · refine Or.inr (.of_failed hl (stops_iteration fun s hs => ?_))
    obtain ⟨hat, hflags, hmem⟩ := hs.seeking
    obtain hword | ⟨s', hliteral, hmem'⟩ := hat.literal_cases hw
    · exact absurd hword h
    · refine ⟨s', ?_, hmem'.trans hmem⟩
      rw [iteration_begin hs hspace hb, List.headD_cons, hbegin, hliteral, error_bind, error_bind]

theorem exists_numberByte (ho : ¬ NumberEnd o) : ∃ c o', o = c :: o' ∧ IsNumberByte c := by
  cases o with
  | nil => exact absurd nofun ho
  | cons c o =>
    refine ⟨c, o, rfl, ?_⟩
    by_contra hc
    exact ho fun c' hc' => by cases hc'; exact hc

/-- What a byte of a number is not. -/
theorem ne_of_isNumberByte {c : UInt8} (hc : IsNumberByte c) : ¬ IsWs c ∧ c ≠ 0 ∧ c ≠ endArray ∧
    c ≠ endObject ∧ c ≠ valueSeparator := by
  refine ⟨?_, ?_, ?_, ?_, ?_⟩
  · rintro (rfl | rfl | rfl | rfl) <;> exact absurd hc (by decide)
  all_goals
    rintro rfl
    exact absurd hc (by decide)

/-- After a value, a byte of a number makes the pass fail. -/
theorem ends_before_numberByte (arith : Arithmetic) (text i : Bytes) (n : Number) {c : UInt8}
    (hl : Ready l p) (hu : Unfilled l) (hc : IsNumberByte c) :
    ∃ f m', Ends (firstMemory (l ++ [⟨p, n.u⟩]) (some l.length)) f m' ∧
      Fails arith text (c :: i) f m' := by
  obtain ⟨hws, hzero, hbracket, hbrace, hcomma⟩ := ne_of_isNumberByte hc
  have hn : n.u.hasCells = false := by cases n <;> rfl
  have hrest {q : Option Nat} : Unfilled [⟨q, n.u⟩] := List.forall_mem_singleton.mpr hn
  cases hl with
  | root => exact ⟨_, _, ends_root, .of_failed (hu.concat hn) (stops_done hws hzero)⟩
  | @array pre mid p done hroom =>
    have hlen : (pre ++ ⟨p, arrayOf true done 0⟩ :: mid).length =
        pre.length + (mid.length + 1) := by
      rw [List.length_append, List.length_cons]
    rw [hlen]
    refine ⟨_, _, ends_firstMemory rfl (addEntry_arrayOf done 0 _) ?_,
      .of_failed (hu.grow rfl hrest) (stops_elementComma hws hbracket hcomma)⟩
    simp only [arrayOf, JsonU.lengthOf, List.length_append, List.length_singleton]
    omega
  | @object pre mid p done name hroom =>
    have hlen : (pre ++ ⟨p, namedOf true done name []⟩ :: mid).length =
        pre.length + (mid.length + 1) := by
      rw [List.length_append, List.length_cons]
    rw [hlen]
    refine ⟨_, _, ends_firstMemory rfl (addEntry_namedOf done name [] _) ?_,
      .of_failed (hu.grow rfl hrest) (stops_member (topIsObject_firstMemory _) hws hbrace hcomma)⟩
    rw [lengthOf_objectOf, List.length_append, List.length_singleton]
    omega

theorem number_or_fails {c : UInt8} (hl : Ready l p) (hu : Unfilled l)
    (hc : IsDigit c ∨ c = minus) :
    (∃ v o, Reads arith (c :: i) (.value v) o) ∨
      Fails arith text (c :: i) { seekValue := true } (firstMemory l p) := by
  have hheap : (firstMemory l p).heap.length = l.length := length_linkFrom l 0
  have hset : ∀ u, (firstMemory (l ++ [⟨p, .integer 0⟩]) (some l.length)).setU
      (firstMemory l p).heap.length u = firstMemory (l ++ [⟨p, u⟩]) (some l.length) := by
    intro u
    rw [hheap, firstMemory_congr ⟨p, .integer 0⟩ ⟨p, u⟩]
    exact setU_layout _ _ _ _ _ _ _
  have h := firstNumber_or_stops arith text i rfl
    (newValue_firstMemory l p (.integer 0)) hc
  obtain ⟨w, n, o, heq, hn, hleads⟩ | h := h
  · by_cases ho : NumberEnd o
    · exact Or.inl ⟨_, _, .number heq hn ho⟩
    · obtain ⟨c', o, rfl, hc'⟩ := exists_numberByte ho
      obtain ⟨f, m', hend, hfails⟩ := ends_before_numberByte arith text o n hl hu hc'
      rw [← hset n.u] at hend
      exact Or.inr (.of_leads (hleads f m' hend) hfails)
  · refine Or.inr (h.mono fun r hr => ?_)
    obtain ⟨n, hr⟩ := hr
    rw [hset n.u] at hr
    exact ⟨_, _, hu.concat (by cases n <;> rfl), hr⟩

/-! ### Values -/

theorem string_or_fails (hu : Unfilled l) (hi : i.length < 2 ^ 28) :
    (∃ v o, Reads arith (quotationMark :: i) (.value v) o) ∨
      Fails arith text (quotationMark :: i) { seekValue := true } (firstMemory l p) := by
  have hn : 0 + i.length ≤ JsonState.uintMax := by
    unfold JsonState.uintMax
    omega
  obtain ⟨w, o, hw⟩ | h := chars_or_stops arith text (.value l.length)
    (m := firstMemory (l ++ [⟨p, .string 0 []⟩]) (some l.length)) (f := { string := true })
    ⟨rfl, rfl⟩ rfl (Nat.le_refl i.length) hn
  · exact Or.inl ⟨_, o, .string rfl hw⟩
  · exact Or.inr ((leads_quote (newValue_firstMemory l p (.string 0 [])) rfl).stops
      (h.mono fun r hr => ⟨_, _, hu.concat rfl, hr⟩))

/-- **Where a value is looked for, one is read, or the pass fails.** -/
theorem value_or_fails (ih : Progresses arith text k) (hik : i.length ≤ k) (hi : i.length < 2 ^ 28)
    (hl : Ready l p) (hu : Unfilled l) (hws : ¬ IsWs (i.headD 0))
    (hbracket : i.headD 0 = endArray → (firstMemory l p).topIsArray = .ok false) :
    (∃ v o, Reads arith i (.value v) o) ∨
      Fails arith text i { seekValue := true } (firstMemory l p) := by
  by_cases hb : BeginsValue (i.headD 0)
  swap
  · exact Or.inr (.of_failed hu (stops_value hws hbracket hb))
  obtain ⟨b, i, rfl⟩ : ∃ b i', i = b :: i' := by
    cases i with
    | nil => exact absurd hb (by decide)
    | cons b i => exact ⟨b, i, rfl⟩
  rw [List.length_cons] at hik hi
  rw [List.headD_cons] at hb
  rcases hb with rfl | rfl | rfl | rfl | rfl | rfl | hb
  · obtain ⟨ms, o, hms⟩ | h := ih.members i l [] p [] false (hu.concat rfl) (by omega)
      (by simpa using Nat.lt_of_succ_lt hi)
    · exact Or.inl ⟨_, o, .object rfl hms⟩
    · exact Or.inr (.of_leads (leads_beginObject (newValue_firstMemory l p (.object 0 0 [] [] 0)))
        h)
  · obtain ⟨vs, o, hvs⟩ | h := ih.elements i l [] p [] false (hu.concat rfl) (by omega)
      (by simpa using Nat.lt_of_succ_lt hi)
    · exact Or.inl ⟨_, o, .array rfl hvs⟩
    · exact Or.inr (.of_leads (leads_beginArray (newValue_firstMemory l p (.array 0 []))) h)
  · exact string_or_fails hu (Nat.lt_of_succ_lt hi)
  · obtain ⟨o, rfl⟩ | h := word_or_fails arith text i l p hu (by simp) rfl (by decide)
      beginValue_true
    · exact Or.inl ⟨_, o, .true rfl⟩
    · exact Or.inr h
  · obtain ⟨o, rfl⟩ | h := word_or_fails arith text i l p hu (by simp) rfl (by decide)
      beginValue_false
    · exact Or.inl ⟨_, o, .false rfl⟩
    · exact Or.inr h
  · obtain ⟨o, rfl⟩ | h := word_or_fails arith text i l p hu (by simp) rfl (by decide)
      beginValue_null
    · exact Or.inl ⟨_, o, .null rfl⟩
    · exact Or.inr h
  · exact number_or_fails hl hu hb

/-! ### Arrays and objects -/

/-- The rest of an array. -/
theorem elements_or_fails (htext : text.length ≤ JsonState.uintMax) (ih : Progresses arith text k)
    {done : List Nat} {comma : Bool} (hu : Unfilled (pre ++ ⟨p, arrayOf true done 0⟩ :: mid))
    (hik : i.length ≤ k) (hi : done.length + i.length < 2 ^ 28) :
    (∃ vs o, Reads arith i (.elements comma vs) o) ∨
      Fails arith text i { seekValue := true, needComma := comma }
        (firstMemory (pre ++ ⟨p, arrayOf true done 0⟩ :: mid) (some pre.length)) := by
  obtain ⟨o, hw, hws⟩ := exists_ws i
  have hlen := length_le_of_ws hw
  have hskip {m : Memory} : Loop.Leads (passStep arith) potential
      (On text ⟨i, { seekValue := true, needComma := comma }, m⟩)
      (On text ⟨o, { seekValue := true, needComma := comma }, m⟩) := leads_ws arith text .seek hw
  by_cases hbracket : o.headD 0 = endArray
  · obtain ⟨o, rfl⟩ := eq_cons_of_headD hbracket (by decide)
    exact Or.inl ⟨[], o, .endElements hw⟩
  cases comma with
  | true =>
    by_cases hcomma : o.headD 0 = valueSeparator
    · obtain ⟨o, rfl⟩ := eq_cons_of_headD hcomma (by decide)
      rw [List.length_cons] at hlen
      obtain ⟨vs, o', hvs⟩ | h := ih.elements o pre mid p done false hu (by omega) (by omega)
      · exact Or.inl ⟨vs, o', .elementComma hw hvs⟩
      · exact Or.inr (.of_leads (hskip.trans leads_elementComma) h)
    · exact Or.inr (.of_leads hskip (.of_failed hu (stops_elementComma hws hbracket hcomma)))
  | false =>
    have hroom : done.length < JsonState.uintMax := by
      unfold JsonState.uintMax
      omega
    obtain ⟨v, o', hv⟩ | h := value_or_fails (l := pre ++ ⟨p, arrayOf true done 0⟩ :: mid) ih
      (hlen.trans hik) (by omega) (.array hroom) hu hws (fun h => absurd h hbracket)
    swap
    · exact Or.inr (.of_leads hskip h)
    have hfits := fits_of_reads hv (by omega)
    have hlt := hv.length_lt
    simp only [Phrase.weight] at hlt
    have hread := leads_reads hv htext (builds_firstElement pre mid p hfits hroom rfl)
    obtain ⟨vs, o'', hvs⟩ | h := ih.elements o' pre
      (mid ++ ⟨some pre.length, nodeOf true (pre.length + (mid.length + 1)) v⟩ ::
        nodesIn true (pre.length + (mid.length + 1)) v) p
      (done ++ [pre.length + (mid.length + 1)]) true (hu.grow rfl (unfilled_value v _ _)) (by omega)
      (by rw [List.length_append, List.length_singleton]; omega)
    · exact Or.inl ⟨v :: vs, o'', .element hw hv hvs⟩
    · exact Or.inr (.of_leads (hskip.trans hread) h)

/-- The name of a member. -/
theorem name_or_fails (arith : Arithmetic) (text : Bytes) (pre mid : List JsonBody) (p : Option Nat)
    (es : List (Bytes × Nat)) (hu : Unfilled (pre ++ ⟨p, objectOf true es []⟩ :: mid))
    (hi : i.length < 2 ^ 28) :
    (∃ name o, Chars i name o) ∨ Fails arith text (quotationMark :: i) {}
      (firstMemory (pre ++ ⟨p, objectOf true es []⟩ :: mid) (some pre.length)) := by
  have hn : 0 + i.length ≤ JsonState.uintMax := by
    unfold JsonState.uintMax
    omega
  have hderef := deref_layout true pre mid (pre ++ ⟨p, objectOf true es []⟩ :: mid).length
    (some pre.length) ⟨p, objectOf true es []⟩
  obtain hname | h := chars_or_stops arith text (.name pre.length 0)
    (m := firstMemory (pre ++ ⟨p, objectOf true es []⟩ :: mid) (some pre.length))
    (f := { string := true }) ⟨rfl, rfl⟩ rfl (Nat.le_refl i.length) hn
  · exact Or.inl hname
  · exact Or.inr ((leads_beginName hderef rfl).stops (h.mono fun r hr => ⟨_, _, hu, hr⟩))

/-- The colon after a name, and the value. -/
theorem named_or_fails (ih : Progresses arith text k) (pre mid : List JsonBody) (p : Option Nat)
    (es : List (Bytes × Nat)) (name : Bytes)
    (hu : Unfilled (pre ++ ⟨p, namedOf true es name []⟩ :: mid)) (hik : i.length ≤ k)
    (hi : i.length < 2 ^ 28) (hroom : es.length < JsonState.uintMax) :
    (∃ i₃ i₄ v o, Ws i (nameSeparator :: i₃) ∧ Ws i₃ i₄ ∧ Reads arith i₄ (.value v) o) ∨
      Fails arith text i { seekValue := true, needColon := true }
        (firstMemory (pre ++ ⟨p, namedOf true es name []⟩ :: mid) (some pre.length)) := by
  have harray : (firstMemory (pre ++ ⟨p, namedOf true es name []⟩ :: mid)
      (some pre.length)).topIsArray = .ok false := by
    have hderef := deref_layout true pre mid (pre ++ ⟨p, namedOf true es name []⟩ :: mid).length
      (some pre.length) ⟨p, namedOf true es name []⟩
    simp only [layout] at hderef
    simp only [Memory.topIsArray, firstMemory, layout, hderef, ok_bind, isArray_namedOf]
  obtain ⟨o, hw, hws⟩ := exists_ws i
  have hlen := length_le_of_ws hw
  by_cases hcolon : o.headD 0 = nameSeparator
  swap
  · exact Or.inr (.of_leads (leads_ws arith text .seek hw)
      (.of_failed hu (stops_colon hws harray hcolon)))
  obtain ⟨i₃, rfl⟩ := eq_cons_of_headD hcolon (by decide)
  obtain ⟨i₄, hw', hws'⟩ := exists_ws i₃
  have hlen' := length_le_of_ws hw'
  rw [List.length_cons] at hlen
  obtain ⟨v, o, hv⟩ | h := value_or_fails ih (by omega) (by omega) (.object hroom) hu hws'
    fun _ => harray
  · exact Or.inl ⟨i₃, i₄, v, o, hw, hw', hv⟩
  · exact Or.inr (.of_leads (((leads_ws arith text .seek hw).trans leads_colon).trans
      (leads_ws arith text .seek hw')) h)

/-- The rest of an object. -/
theorem members_or_fails (htext : text.length ≤ JsonState.uintMax) (ih : Progresses arith text k)
    {es : List (Bytes × Nat)} {comma : Bool}
    (hu : Unfilled (pre ++ ⟨p, objectOf true es []⟩ :: mid))
    (hik : i.length ≤ k) (hi : es.length + i.length < 2 ^ 28) :
    (∃ ms o, Reads arith i (.members comma ms) o) ∨
      Fails arith text i { needComma := comma }
        (firstMemory (pre ++ ⟨p, objectOf true es []⟩ :: mid) (some pre.length)) := by
  obtain ⟨o, hw, hws⟩ := exists_ws i
  have hlen := length_le_of_ws hw
  have htop : TopIsObject (firstMemory (pre ++ ⟨p, objectOf true es []⟩ :: mid)
      (some pre.length)) :=
    topIsObject_firstMemory []
  have hskip := leads_ws (f := { needComma := comma }) arith text (.object htop) hw
  by_cases hbracket : o.headD 0 = endObject
  · obtain ⟨o, rfl⟩ := eq_cons_of_headD hbracket (by decide)
    exact Or.inl ⟨[], o, .endMembers hw⟩
  cases comma with
  | true =>
    by_cases hcomma : o.headD 0 = valueSeparator
    · obtain ⟨o, rfl⟩ := eq_cons_of_headD hcomma (by decide)
      rw [List.length_cons] at hlen
      obtain ⟨ms, o', hms⟩ | h := ih.members o pre mid p es false hu (by omega) (by omega)
      · exact Or.inl ⟨ms, o', .memberComma hw hms⟩
      · exact Or.inr (.of_leads (hskip.trans (leads_memberComma htop)) h)
    · exact Or.inr (.of_leads hskip (.of_failed hu (stops_member htop hws hbracket hcomma)))
  | false =>
    by_cases hquote : o.headD 0 = quotationMark
    swap
    · exact Or.inr (.of_leads hskip (.of_failed hu (stops_member htop hws hbracket hquote)))
    obtain ⟨i₁, rfl⟩ := eq_cons_of_headD hquote (by decide)
    rw [List.length_cons] at hlen
    have hroom : es.length < JsonState.uintMax := by
      unfold JsonState.uintMax
      omega
    obtain ⟨name, i₂, hname⟩ | h := name_or_fails arith text pre mid p es hu
      (by omega : i₁.length < 2 ^ 28)
    swap
    · exact Or.inr (.of_leads hskip h)
    have hlt := hname.length_lt
    have hnamed : Unfilled (pre ++ ⟨p, namedOf true es name []⟩ :: (mid ++ [])) := hu.grow rfl nofun
    rw [List.append_nil] at hnamed
    have hreadName := hskip.trans (leads_name hname htext (storesName_firstMemory name))
    obtain ⟨i₃, i₄, v, i₅, hcolon, hw', hv⟩ | h := named_or_fails ih pre mid p es name
      hnamed (by omega : i₂.length ≤ k) (by omega) hroom
    swap
    · exact Or.inr (.of_leads hreadName h)
    have hlen' := length_le_of_ws hcolon
    have hlen'' := length_le_of_ws hw'
    rw [List.length_cons] at hlen'
    have hfits := fits_of_reads hv (by omega)
    have hlt' := hv.length_lt
    simp only [Phrase.weight] at hlt'
    have hread := leads_reads hv htext (builds_firstMember pre mid p name hfits hroom rfl)
    obtain ⟨ms, o, hms⟩ | h := ih.members i₅ pre
      (mid ++ ⟨some pre.length, nodeOf true (pre.length + (mid.length + 1)) v⟩ ::
        nodesIn true (pre.length + (mid.length + 1)) v) p
      (es ++ [(name, pre.length + (mid.length + 1))]) true (hu.grow rfl (unfilled_value v _ _))
      (by omega)
      (by rw [List.length_append, List.length_singleton]; omega)
    · exact Or.inl ⟨(name, v) :: ms, o, .member hw hname hcolon hw' hv hms⟩
    · exact Or.inr (.of_leads (((hreadName.trans (leads_ws arith text .seek hcolon)).trans
        leads_colon).trans ((leads_ws arith text .seek hw').trans hread)) h)

theorem progresses (htext : text.length < 2 ^ 28) (k : Nat) : Progresses arith text k := by
  have htext' : text.length ≤ JsonState.uintMax := by
    unfold JsonState.uintMax
    omega
  induction k with
  | zero => exact ⟨fun _ _ _ _ _ _ _ h => absurd h (Nat.not_lt_zero _),
      fun _ _ _ _ _ _ _ h => absurd h (Nat.not_lt_zero _)⟩
  | succ k ih =>
    exact ⟨fun _ _ _ _ _ _ hu h hi => elements_or_fails htext' ih hu (Nat.le_of_lt_succ h) hi,
      fun _ _ _ _ _ _ hu h hi => members_or_fails htext' ih hu (Nat.le_of_lt_succ h) hi⟩

end Progress

end Ssms.Json

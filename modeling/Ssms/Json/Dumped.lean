import Ssms.Json.RoundTrip
import Ssms.Json.Standard

/-!
# The JSON parser reads what `dumps` writes

The parser accepts in a string what `json_serialize_string` leaves as it is: every byte but zero. So
more values come back than those whose text is JSON.

* `reads_dumps`: what `dumps` writes is read as the node of the value.
* `loads_jsonParse_dumps`: `SrsJsonAny::loads` returns the value.
-/

namespace Ssms.Json

open Ssms.Kernel Ssms.Protocol Ssms.Lib Ssms.Lib.Decimal
open Ssms.Lib.Rfc8259 hiding Bytes IsNumber Phrase
open Lenient

/-- No number; no zero byte; distinct names without a quotation mark or reverse solidus. -/
def DumpableNode : SrsJsonAny → Prop
  | .number _ => False
  | .string value => ∀ c ∈ value, c ≠ 0
  | .object properties => DistinctNames properties ∧ ∀ e ∈ properties, ∀ c ∈ e.1, IsPlain c
  | _ => True

theorem DumpableNode.distinct : ∀ v, DumpableNode v → DistinctNode v
  | .object _, h => h.1
  | .string _, _ | .boolean _, _ | .integer _, _ | .number _, _ | .null, _ | .array _, _ => trivial

section Strings

variable {c : UInt8} {i o w : Bytes}

/-- One byte of a string value. -/
theorem chars_serializeByte (hc : c ≠ 0) (h : Chars i w o) :
    Chars (jsonSerializeByte c ++ i) (c :: w) o := by
  unfold jsonSerializeByte
  split_ifs with h1 h2 h3 h4 h5 h6 h7
  · subst h1
    exact .escaped (by decide) (by decide) h
  · subst h2
    exact .escaped (by decide) (by decide) h
  · subst h3
    exact .escaped (by decide) (by decide) h
  · subst h4
    exact .escaped (by decide) (by decide) h
  · subst h5
    exact .escaped (by decide) (by decide) h
  · subst h6
    exact .escaped (by decide) (by decide) h
  · subst h7
    exact .escaped (by decide) (by decide) h
  · exact .plain ⟨hc, h1, h2⟩ h

/-- A string value and its closing quotation mark. -/
theorem chars_serialize {v : Bytes} (hv : ∀ c ∈ v, c ≠ 0) (o : Bytes) :
    Chars (v.flatMap jsonSerializeByte ++ quotationMark :: o) v o := by
  induction v with
  | nil => exact .close
  | cons c v ih =>
    obtain ⟨hc, hv⟩ := List.forall_mem_cons.mp hv
    rw [List.flatMap_cons, List.append_assoc]
    exact chars_serializeByte hc (ih hv)

/-- A name and its closing quotation mark. -/
theorem chars_name {k : Bytes} (hk : ∀ c ∈ k, IsPlain c) (o : Bytes) :
    Chars (k ++ quotationMark :: o) k o := by
  induction k with
  | nil => exact .close
  | cons c k ih =>
    obtain ⟨hc, hk⟩ := List.forall_mem_cons.mp hk
    exact .plain hc (ih hk)

end Strings

section Values

variable {arith : Arithmetic}

/-- What `dumps` writes is read as the node. -/
def ReadsDumps (arith : Arithmetic) (v : SrsJsonAny) : Prop :=
  ∀ o, NumberEnd o → Reads arith (v.dumps ++ o) (.value v.node) o

theorem reads_integer (value : BitVec 64) : ReadsDumps arith (.integer value) := by
  intro o ho
  have hnumber : numberOf arith (numeral value.toInt) = .integer value := by
    rw [numberOf_integer (intValue_numeral _), BitVec.ofInt_toInt]
  obtain ⟨n, hn⟩ := exists_isNumber arith (isNumber_numeral value.toInt)
  obtain rfl : .integer value = n := hnumber.symm.trans (numberOf_eq hn)
  exact .number (congrArg (· ++ o) (dumps_integer value)) hn ho

theorem reads_properties {properties : List (Bytes × SrsJsonAny)}
    (hk : ∀ e ∈ properties, ∀ c ∈ e.1, IsPlain c) (h : ∀ e ∈ properties, ReadsDumps arith e.2)
    (o : Bytes) :
    Reads arith (dumpsProperties properties ++ endObject :: o)
      (.members false (entryNodes properties)) o := by
  induction properties with
  | nil => exact .endMembers (Ws.none _)
  | cons e properties ih =>
    obtain ⟨name, any⟩ := e
    obtain ⟨hname, hk⟩ := List.forall_mem_cons.mp hk
    obtain ⟨hany, h⟩ := List.forall_mem_cons.mp h
    have htext := dumpsProperties_cons (name, any) properties o
    cases properties with
    | nil =>
      have hend : NumberEnd (endObject :: o) := numberEnd_cons
      exact htext ▸ .member (Ws.none _) (chars_name hname _) (Ws.none _) (Ws.none _) (hany _ hend)
        (.endMembers (Ws.none _))
    | cons e properties =>
      have hend : NumberEnd (afterProperty o (e :: properties)) := numberEnd_cons
      exact htext ▸ .member (Ws.none _) (chars_name hname _) (Ws.none _) (Ws.none _) (hany _ hend)
        (.memberComma (Ws.none _) (ih hk h))

theorem reads_elements {properties : List SrsJsonAny}
    (h : ∀ v ∈ properties, ReadsDumps arith v) (o : Bytes) :
    Reads arith (dumpsElements properties ++ endArray :: o)
      (.elements false (elementNodes properties)) o := by
  induction properties with
  | nil => exact .endElements (Ws.none _)
  | cons any properties ih =>
    obtain ⟨hany, h⟩ := List.forall_mem_cons.mp h
    have htext := dumpsElements_cons any properties o
    cases properties with
    | nil =>
      have hend : NumberEnd (endArray :: o) := numberEnd_cons
      exact htext ▸ .element (Ws.none _) (hany _ hend) (.endElements (Ws.none _))
    | cons any' properties =>
      have hend : NumberEnd (afterElement o (any' :: properties)) := numberEnd_cons
      exact htext ▸ .element (Ws.none _) (hany _ hend) (.elementComma (Ws.none _) (ih h))

/-- **What `dumps` writes is read as the node of the value.** -/
theorem reads_dumps (arith : Arithmetic) {v : SrsJsonAny} (h : v.Everywhere DumpableNode) :
    ReadsDumps arith v := by
  induction v with
  | string value =>
    intro o _
    exact .string (dumps_string value o) (chars_serialize h.here o)
  | boolean value =>
    intro o _
    cases value with
    | true => exact .true rfl
    | false => exact .false rfl
  | integer value => exact reads_integer value
  | number value => exact h.here.elim
  | null => exact fun o _ => .null rfl
  | object properties ih =>
    intro o _
    exact .object (dumps_object properties o)
      (reads_properties h.here.2 (fun e he => ih e he (h.of_mem_object he)) o)
  | array properties ih =>
    intro o _
    exact .array (dumps_array properties o) (reads_elements (fun v hv => ih v hv (h.inside v hv)) o)

theorem accepts_dumps {t : SrsJsonAny} (h : t.Everywhere DumpableNode) :
    Accepts arith t.dumps t.node := by
  have hreads := reads_dumps arith h [] numberEnd_nil
  rw [List.append_nil] at hreads
  have hbom : skipBom t.dumps = t.dumps :=
    skipBom_eq fun hhead => reads_kindAt_ne_none hreads hhead rfl
  exact ⟨_, [], [], hbom.symm ▸ Ws.none _, hreads, Ws.none _, Or.inl rfl⟩

/-- **`SrsJsonAny::loads` reads back what `dumps` writes**: every value without numbers and zero
bytes, and with distinct names that hold no quotation mark and no reverse solidus. -/
theorem loads_jsonParse_dumps {t : SrsJsonAny} (h : t.Everywhere DumpableNode)
    (hlen : t.dumps.length < 2 ^ 28) : loads (jsonParse arith) t.reached.dumps = .ok (some t) := by
  have hlt := (reads_dumps arith h [] numberEnd_nil).length_lt
  have hne : t.dumps ≠ [] := by
    intro hnil
    rw [hnil] at hlt
    exact absurd hlt (Nat.not_lt_zero _)
  have haccepts : Accepts arith t.dumps t.node := accepts_dumps h
  have hshort : t.Everywhere SrsJsonAny.Short :=
    short_of_node ((parse_of_accepts hlen haccepts).1.mono FitsNode.short)
  rw [reached_of_short hshort, loads, if_neg hne, jsonParse_of_accepts hlen haccepts]
  exact (srsJsonParseTree_node_iff (h.mono DumpableNode.distinct)).mpr hshort

/-- `{"k":"\u0001"}`, with the byte itself in the text. -/
theorem loads_jsonParse_dumps_control :
    loads (jsonParse noArithmetic) [0x7B, 0x22, 0x6B, 0x22, 0x3A, 0x22, 0x01, 0x22, 0x7D] =
      .ok (some (.object [([0x6B], .string [0x01])])) := by
  have h : (SrsJsonAny.object [([0x6B], .string [0x01])]).Everywhere DumpableNode :=
    .node ⟨by decide, List.forall_mem_singleton.mpr (List.forall_mem_singleton.mpr (by decide))⟩
      (List.forall_mem_singleton.mpr (.leaf rfl (List.forall_mem_singleton.mpr (by decide))))
  have htext : (SrsJsonAny.object [([0x6B], .string [0x01])]).dumps =
      [0x7B, 0x22, 0x6B, 0x22, 0x3A, 0x22, 0x01, 0x22, 0x7D] := by decide
  have hreached : (SrsJsonAny.object [([0x6B], .string [0x01])]).reached =
      .object [([0x6B], .string [0x01])] :=
    reached_eq_self_iff.mpr (.node (by simp [SrsJsonAny.ShortVector])
      (List.forall_mem_singleton.mpr (.leaf rfl trivial)))
  have hlen : (SrsJsonAny.object [([0x6B], .string [0x01])]).dumps.length < 2 ^ 28 := by
    rw [htext]
    simp
  have hloads := @loads_jsonParse_dumps noArithmetic _ h hlen
  rwa [hreached, htext] at hloads

end Values

end Ssms.Json

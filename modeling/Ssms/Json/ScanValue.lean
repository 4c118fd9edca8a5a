import Ssms.Json.ScanNumber

/-!
# The machine of the JSON parser on values

* `leads_reads`: the machine reads a value as the grammar does, in both passes, and memory becomes
  what `Builds` says.
-/

namespace Ssms.Json

open Ssms.Kernel Ssms.Lib Ssms.Lib.Decimal
open Ssms.Lib.Rfc8259 hiding Bytes Text Phrase Derives Value IsNumber
open Lenient

section Steps

variable {arith : Arithmetic} {text i o : Bytes} {f f' : Flags} {m m' m₁ : Memory}
    {s s' : JsonState}
  {b : UInt8}

/-- A step that reads something. -/
theorem leads_step {P Q : JsonState → Prop} (hP : ∀ s, P s → At text i s)
    (hQ : ∀ s, Q s → At text o s) (hlen : o.length < i.length)
    (h : ∀ s, P s → ∃ s', passStep arith s = .ok s' ∧ Q s') :
    Loop.Leads (passStep arith) potential P Q := by
  refine .step fun s hs => ?_
  obtain ⟨s', hstep, hs'⟩ := h s hs
  exact ⟨s', hstep, potential_lt (hP s hs) (hQ s' hs') hlen, hs'⟩

theorem isSpace_iff (b : UInt8) : isSpace b = true ↔ IsWs b := by
  simp only [isSpace, IsWs, Bool.or_eq_true, decide_eq_true_eq]
  tauto

/-! ## White space -/

/-- `top` is an object. -/
def TopIsObject (m : Memory) : Prop :=
  ∃ a node length nameBytes values names objectMem, m.deref m.top = .ok (a, node) ∧
    node.u = .object length nameBytes values names objectMem

/-- Where white space is skipped. -/
inductive SkipsSpace (m : Memory) : Flags → Prop
  | seek {comma colon} :
      SkipsSpace m { seekValue := true, needComma := comma, needColon := colon }
  | object {comma} (h : TopIsObject m) : SkipsSpace m { needComma := comma }
  | done : SkipsSpace m { needComma := true, done := true }

theorem iteration_space (hf : SkipsSpace m f) (hb : IsWs b) (hs : On text ⟨b :: i, f, m⟩ s) :
    s.iteration arith = .error (.next s) := by
  have hspace := (isSpace_iff b).mpr hb
  have hflags := hs.flags
  cases hf with
  | seek =>
    rw [iteration_value hs.toAt (by rw [hflags]) (by rw [hflags])]
    simp [JsonState.inValue, JsonState.seekingValue, hflags, hspace, error_bind]
  | object h =>
    obtain ⟨a, node, length, nameBytes, values, names, objectMem, htop, hu⟩ := h
    rw [iteration_value hs.toAt (by rw [hflags]) (by rw [hflags])]
    simp [JsonState.inValue, hflags, hs.mem, htop, JsonState.check, ok_bind, hu, JsonState.inObject,
      hspace, error_bind]
  | done =>
    have hzero : b ≠ 0 := by
      rintro rfl
      exact absurd hb (by decide)
    rw [iteration_eq hs.toAt, inString_ok (by rw [hflags]), ok_bind]
    simp [JsonState.afterRoot, hflags, hzero, hspace, error_bind]

/-- White space is skipped. -/
theorem leads_ws (arith : Arithmetic) (text : Bytes) (hf : SkipsSpace m f) (h : Ws i o) :
    Loop.Leads (passStep arith) potential (On text ⟨i, f, m⟩) (On text ⟨o, f, m⟩) := by
  obtain ⟨w, hw, rfl⟩ := h
  induction w with
  | nil => exact .refl _
  | cons b w ih =>
    obtain ⟨hb, hw⟩ := List.forall_mem_cons.mp hw
    have hstep : Loop.Leads (passStep arith) potential (On text ⟨b :: (w ++ o), f, m⟩)
        (On text ⟨w ++ o, f, m⟩) := by
      refine leads_step (fun s hs => hs.toAt) (fun s hs => hs.toAt) (by simp) fun s hs => ?_
      exact ⟨_, passStep_next (iteration_space hf hb hs), ⟨.move hs.toAt, hs.flags, hs.mem⟩⟩
    exact hstep.trans (ih hw)

/-! ## Literals -/

/-- The rest of a literal is read; the machine is then at its last byte. -/
theorem At.literal_ok {l : Bytes} (h : At text (b :: (l ++ o)) s) :
    s.literal l = .ok (s.move l.length) ∧ ∃ d, At text (d :: o) (s.move l.length) := by
  have hroom : ¬ s.unread < l.length := by
    rw [h.unread, List.length_cons, List.length_append]
    omega
  rw [JsonState.literal, if_neg hroom]
  clear hroom
  induction l generalizing b s with
  | nil =>
    have hstay : s.move 0 = s := by rw [JsonState.move, Int.add_zero]
    exact ⟨congrArg Except.ok hstay.symm, b, h.congr rfl (Int.add_zero _)⟩
  | cons c l ih =>
    have hmove : (s.move 1).move l.length = s.move (c :: l).length := by
      rw [JsonState.move_move, List.length_cons, Nat.cast_add, Nat.cast_one, Int.add_comm]
    obtain ⟨hfold, hat⟩ := ih h.move
    rw [hmove] at hfold hat
    exact ⟨by rw [List.foldlM_cons, h.expect_ok, ok_bind, hfold], hat⟩

/-- The rest of a literal is there, or the pass fails. -/
theorem At.literal_cases {l : Bytes} (hl : ∀ c ∈ l, c ≠ 0) (h : At text (b :: i) s) :
    (∃ o, i = l ++ o) ∨ ∃ s', s.literal l = .error (.failed s') ∧ s'.mem = s.mem := by
  rw [JsonState.literal]
  split_ifs with hroom
  · exact Or.inr ⟨s, rfl, rfl⟩
  clear hroom
  induction l generalizing b i s with
  | nil => exact Or.inl ⟨i, rfl⟩
  | cons c l ih =>
    obtain ⟨hc, hl⟩ := List.forall_mem_cons.mp hl
    rw [List.foldlM_cons]
    by_cases hd : i.headD 0 = c
    · obtain ⟨i, rfl⟩ := eq_cons_of_headD hd hc
      rw [h.expect_ok, ok_bind]
      obtain ⟨o, rfl⟩ | h' := ih hl h.move
      · exact Or.inl ⟨o, rfl⟩
      · exact Or.inr h'
    · exact Or.inr ⟨s.move 1, by rw [h.expect_failed hd, error_bind], rfl⟩

/-! ## Where a value begins -/

/-- A byte that begins a value is read with no flags. -/
theorem On.seeking (hs : On text ⟨i, { seekValue := true }, m⟩ s) :
    On text ⟨i, {}, m⟩ (s.setFlags {}) :=
  ⟨hs.toAt.congr rfl rfl, rfl, hs.mem⟩

/-- The byte begins a value and the machine goes on in it. -/
theorem leads_opening {Q : JsonState → Prop} (hspace : isSpace b = false) (hb : b ≠ 0x5D)
    (hQ : ∀ s, Q s → At text i s)
    (h : ∀ s, On text ⟨b :: i, {}, m⟩ s →
      ∃ s', s.beginValue b = .error (.next s') ∧ Q (s'.move 1)) :
    Loop.Leads (passStep arith) potential (On text ⟨b :: i, { seekValue := true }, m⟩) Q := by
  refine leads_step (fun s hs => hs.toAt) hQ (by simp) fun s hs => ?_
  obtain ⟨s', hbegin, hs'⟩ := h _ hs.seeking
  refine ⟨_, passStep_next ?_, hs'⟩
  rw [iteration_begin hs hspace hb, List.headD_cons, hbegin, error_bind]

/-- The byte begins a value, and the value ends in this iteration. -/
theorem leads_word (hspace : isSpace b = false) (hb : b ≠ 0x5D) (hlen : o.length ≤ i.length)
    (hend : Ends m₁ f m')
    (h : ∀ s, On text ⟨b :: i, {}, m⟩ s → ∃ s' d, s.beginValue b = .ok s' ∧ At text (d :: o) s' ∧
      s'.flags = { next := true } ∧ s'.mem = m₁) :
    Loop.Leads (passStep arith) potential (On text ⟨b :: i, { seekValue := true }, m⟩)
      (On text ⟨o, f, m'⟩) := by
  refine leads_step (fun s hs => hs.toAt) (fun s hs => hs.toAt) (Nat.lt_succ_of_le hlen)
    fun s hs => ?_
  obtain ⟨s', d, hbegin, hat, hflags, rfl⟩ := h _ hs.seeking
  refine passStep_ends ?_ hat hflags hend
  rw [iteration_begin hs hspace hb, List.headD_cons, hbegin, ok_bind]

theorem beginValue_null (s : JsonState) : s.beginValue 0x6E =
    (s.literal [0x75, 0x6C, 0x6C] >>= fun s => s.newValue .null >>= fun s => .ok s.setNext) :=
  rfl

theorem beginValue_false (s : JsonState) : s.beginValue 0x66 =
    (s.literal [0x61, 0x6C, 0x73, 0x65] >>= fun s =>
      s.newValue (.boolean 0) >>= fun s => .ok s.setNext) :=
  rfl

theorem beginValue_true (s : JsonState) : s.beginValue 0x74 =
    (s.literal [0x72, 0x75, 0x65] >>= fun s => s.newValue (.boolean 0) >>= fun s =>
      JsonState.check (s.mem.deref s.mem.top) >>= fun r =>
        .ok (s.setU r.1 (.boolean 1)).setNext) :=
  rfl

theorem leads_null (hnew : m.newValue .null = .ok m₁) (hend : Ends m₁ f m') :
    Loop.Leads (passStep arith) potential (On text ⟨nullLiteral ++ o, { seekValue := true }, m⟩)
      (On text ⟨o, f, m'⟩) := by
  refine leads_word rfl (by decide) (by simp; omega) hend fun s hs => ?_
  obtain ⟨hat, hflags, rfl⟩ := hs
  obtain ⟨hliteral, d, hat'⟩ := At.literal_ok (l := [0x75, 0x6C, 0x6C]) hat
  refine ⟨((s.move 3).setMemory m₁).setNext, d, ?_, hat'.congr rfl rfl, ?_, rfl⟩
  · rw [beginValue_null, hliteral, ok_bind, newValue_ok (s := s.move _) hnew, ok_bind]
    rfl
  · simp [JsonState.setNext, hflags]

theorem leads_false (hnew : m.newValue (.boolean 0) = .ok m₁) (hend : Ends m₁ f m') :
    Loop.Leads (passStep arith) potential (On text ⟨falseLiteral ++ o, { seekValue := true }, m⟩)
      (On text ⟨o, f, m'⟩) := by
  refine leads_word rfl (by decide) (by simp; omega) hend fun s hs => ?_
  obtain ⟨hat, hflags, rfl⟩ := hs
  obtain ⟨hliteral, d, hat'⟩ := At.literal_ok (l := [0x61, 0x6C, 0x73, 0x65]) hat
  refine ⟨((s.move 4).setMemory m₁).setNext, d, ?_, hat'.congr rfl rfl, ?_, rfl⟩
  · rw [beginValue_false, hliteral, ok_bind, newValue_ok (s := s.move _) hnew, ok_bind]
    rfl
  · simp [JsonState.setNext, hflags]

theorem leads_true {a : Nat} {node : JsonNode} (hnew : m.newValue (.boolean 0) = .ok m₁)
    (htop : m₁.deref m₁.top = .ok (a, node)) (hend : Ends (m₁.setU a (.boolean 1)) f m') :
    Loop.Leads (passStep arith) potential (On text ⟨trueLiteral ++ o, { seekValue := true }, m⟩)
      (On text ⟨o, f, m'⟩) := by
  refine leads_word rfl (by decide) (by simp; omega) hend fun s hs => ?_
  obtain ⟨hat, hflags, rfl⟩ := hs
  obtain ⟨hliteral, d, hat'⟩ := At.literal_ok (l := [0x72, 0x75, 0x65]) hat
  refine ⟨(((s.move 3).setMemory m₁).setU a (.boolean 1)).setNext, d, ?_, hat'.congr rfl rfl, ?_,
    rfl⟩
  · rw [beginValue_true, hliteral, ok_bind, newValue_ok (s := s.move _) hnew, ok_bind,
      JsonState.setMemory_mem, htop]
    rfl
  · simp [JsonState.setNext, JsonState.setU, hflags]

theorem leads_beginArray (hnew : m.newValue (.array 0 []) = .ok m₁) :
    Loop.Leads (passStep arith) potential (On text ⟨beginArray :: i, { seekValue := true }, m⟩)
      (On text ⟨i, { seekValue := true }, m₁⟩) := by
  refine leads_opening rfl (by decide) (fun s hs => hs.toAt) fun s hs => ?_
  obtain ⟨hat, hflags, rfl⟩ := hs
  refine ⟨(s.setMemory m₁).setFlags { s.flags with seekValue := true }, ?_,
    ⟨.move (hat.congr rfl rfl), ?_, rfl⟩⟩
  · simp [JsonState.beginValue, beginArray, newValue_ok hnew, ok_bind]
  · simp [hflags]

theorem leads_beginObject (hnew : m.newValue (.object 0 0 [] [] 0) = .ok m₁) :
    Loop.Leads (passStep arith) potential (On text ⟨beginObject :: i, { seekValue := true }, m⟩)
      (On text ⟨i, {}, m₁⟩) := by
  refine leads_opening rfl (by decide) (fun s hs => hs.toAt) fun s hs => ?_
  obtain ⟨hat, hflags, rfl⟩ := hs
  refine ⟨s.setMemory m₁, ?_, ⟨.move (hat.congr rfl rfl), hflags, rfl⟩⟩
  simp [JsonState.beginValue, beginObject, newValue_ok hnew, ok_bind]

/-! ## Strings and names -/

/-- A string is no longer than the text. -/
theorem At.length_le (h : At text i s) : i.length ≤ text.length := by
  obtain ⟨pre, htext, -⟩ := h.ptr
  rw [htext, List.length_append]
  exact Nat.le_add_left _ _

/-- What is read of the text is no longer than the text. -/
theorem leads_of_length {P Q : JsonState → Prop} (hP : ∀ s, P s → At text i s)
    (h : i.length ≤ text.length → Loop.Leads (passStep arith) potential P Q) :
    Loop.Leads (passStep arith) potential P Q :=
  fun s hs => h (hP s hs).length_le s hs

theorem leads_quote {a : Nat} (hnew : m.newValue (.string 0 []) = .ok m₁)
    (htop : m₁.top = some a) : Loop.Leads (passStep arith) potential
      (On text ⟨quotationMark :: i, { seekValue := true }, m⟩)
      (InString text ⟨i, { string := true }, m₁⟩ (.value a) 0) := by
  refine leads_opening rfl (by decide) (fun s hs => hs.toAt) fun s hs => ?_
  obtain ⟨hat, hflags, rfl⟩ := hs
  obtain ⟨node, hnode⟩ := Memory.deref_newValue hnew htop
  refine ⟨((s.setMemory m₁).setFlags { s.flags with string := true }).setString (.value a) 0, ?_,
    ⟨.move (hat.congr rfl rfl), ?_, rfl⟩, rfl, rfl⟩
  · simp [JsonState.beginValue, quotationMark, newValue_ok hnew, ok_bind, htop, hnode,
      JsonState.check]
  · simp [hflags]

/-- The closing quotation mark: the zero byte is stored. -/
theorem inString_close {p : StringPtr} {n : Nat} (hput : m.put p n 0 = .ok m₁)
    (hn : n ≤ JsonState.uintMax)
    (hs : InString text ⟨quotationMark :: i, { string := true }, m⟩ p n s) :
    s.inString quotationMark = s.closeString ∧ s.store 0 = .ok (s.setMemory m₁) := by
  obtain ⟨⟨hat, hflags, rfl⟩, rfl, rfl⟩ := hs
  refine ⟨?_, JsonState.store_ok hput⟩
  rw [JsonState.inString, if_neg (by simp [hflags]), if_neg (by decide), if_neg (by omega),
    if_neg (by simp [hflags]), if_neg (by decide), if_pos (by rfl)]

/-- The end of a string value. -/
theorem leads_endString {a n length : Nat} {node : JsonNode} {ptr : List (Option UInt8)}
    (hput : m.put (.value a) n 0 = .ok m₁) (hnode : m₁.deref m₁.top = .ok (a, node))
    (hu : node.u = .string length ptr) (hn : n ≤ JsonState.uintMax)
    (hend : Ends (m₁.setU a (.string n ptr)) f m') :
    Loop.Leads (passStep arith) potential
      (InString text ⟨quotationMark :: o, { string := true }, m⟩ (.value a) n)
      (On text ⟨o, f, m'⟩) := by
  refine leads_step (fun s hs => hs.toAt) (fun s hs => hs.toAt) (by simp) fun s hs => ?_
  obtain ⟨hclose, hstore⟩ := inString_close hput hn hs
  obtain ⟨⟨hat, hflags, rfl⟩, hstring, rfl⟩ := hs
  obtain ⟨htop, hheap⟩ := Memory.deref_inv hnode
  obtain ⟨hlt, -⟩ := List.getElem?_eq_some_iff.mp hheap
  obtain ⟨node', hnode', hu'⟩ :=
    Memory.deref_setU (m := m₁) (u := .string s.stringLength ptr) hlt
  let s' := (((((s.setMemory m₁).setFlags {}).setString .null s.stringLength).setU a
    (.string s.stringLength ptr)).setFlags { next := true })
  have hclosed : s.closeString = .ok s' := by
    simp [JsonState.closeString, hstore, ok_bind, hnode, JsonState.check, hu, hflags, s']
  have hvalue : ∀ b, s'.inValue arith b = .ok s' := by
    intro b
    simp [JsonState.inValue, s', JsonState.setU, htop, hnode', JsonState.check, ok_bind, hu']
  refine passStep_ends ?_ (hat.congr rfl rfl : At text (quotationMark :: o) s') rfl hend
  rw [iteration_eq hat, List.headD_cons, hclose, hclosed, ok_bind, afterRoot_ok rfl, ok_bind,
    hvalue, ok_bind]

/-- A string value. -/
theorem leads_string {w : Bytes} (hw : Chars i w o) (htext : text.length ≤ JsonState.uintMax)
    (hstring : StoresString m w m₁) (hend : Ends m₁ f m') :
    Loop.Leads (passStep arith) potential
      (On text ⟨quotationMark :: i, { seekValue := true }, m⟩) (On text ⟨o, f, m'⟩) := by
  refine leads_of_length (fun s hs => hs.toAt) fun hlen => ?_
  rw [List.length_cons] at hlen
  have hlt := hw.length_lt
  obtain ⟨hnew, htop, hput, hnode, hu⟩ := hstring
  obtain ⟨m₂, hchars, hzero⟩ := Memory.putAll_append_inv hput
  obtain ⟨m₃, hzero, hdone⟩ := Memory.putAll_cons_inv hzero
  cases hdone
  rw [Nat.zero_add] at hzero
  have hread := leads_chars arith text hw (f := { string := true }) ⟨rfl, rfl⟩
    (by omega) hchars
  rw [Nat.zero_add] at hread
  exact ((leads_quote hnew htop).trans hread).trans
    (leads_endString hzero hnode hu (by omega) hend)

/-! ## Objects -/

/-- Where the name of a member is looked for. -/
theorem iteration_object (arith : Arithmetic) {a length nameBytes objectMem : Nat} {node : JsonNode}
    {values : List JsonObjectEntry} {names : List (Option UInt8)} {comma : Bool}
    (hnode : m.deref m.top = .ok (a, node))
    (hu : node.u = .object length nameBytes values names objectMem)
    (hs : On text ⟨i, { needComma := comma }, m⟩ s) : s.iteration arith =
      (s.inObject a objectMem (i.headD 0) >>= fun s => s.endIteration) := by
  obtain ⟨hat, hflags, rfl⟩ := hs
  rw [iteration_value hat (by rw [hflags]) (by rw [hflags])]
  simp [JsonState.inValue, hflags, hnode, JsonState.check, ok_bind, hu]

theorem leads_beginName {a length nameBytes objectMem : Nat} {node : JsonNode}
    {values : List JsonObjectEntry} {names : List (Option UInt8)}
    (hnode : m.deref m.top = .ok (a, node))
    (hu : node.u = .object length nameBytes values names objectMem) :
    Loop.Leads (passStep arith) potential (On text ⟨quotationMark :: i, {}, m⟩)
      (InString text ⟨i, { string := true }, m⟩ (.name a objectMem) 0) := by
  refine leads_step (fun s hs => hs.toAt) (fun s hs => hs.toAt) (by simp) fun s hs => ?_
  have hiteration := iteration_object arith hnode hu hs
  obtain ⟨hat, hflags, rfl⟩ := hs
  let s' := (s.setFlags { string := true }).setString (.name a objectMem) 0
  have hquote : s.inObject a objectMem quotationMark = .ok s' := by
    simp [JsonState.inObject, quotationMark, isSpace, hflags, s']
  refine ⟨s'.move 1, passStep_ok ?_, ⟨.move (hat.congr rfl rfl), rfl, rfl⟩, rfl, rfl⟩
  rw [hiteration, List.headD_cons, hquote, ok_bind, endIteration_ok rfl rfl]

theorem leads_endName {a n length nameBytes objectMem p : Nat} {node : JsonNode}
    {values : List JsonObjectEntry} {names : List (Option UInt8)} {u : JsonU}
    (hput : m.put (.name a p) n 0 = .ok m₁) (hnode : m₁.deref m₁.top = .ok (a, node))
    (hu : node.u = .object length nameBytes values names objectMem)
    (hname : node.u.addName m₁.firstPass n = .ok u) (hn : n ≤ JsonState.uintMax) :
    Loop.Leads (passStep arith) potential
      (InString text ⟨quotationMark :: o, { string := true }, m⟩ (.name a p) n)
      (On text ⟨o, { seekValue := true, needColon := true }, m₁.setU a u⟩) := by
  refine leads_step (fun s hs => hs.toAt) (fun s hs => hs.toAt) (by simp) fun s hs => ?_
  obtain ⟨hclose, hstore⟩ := inString_close hput hn hs
  obtain ⟨⟨hat, hflags, rfl⟩, hstring, rfl⟩ := hs
  let s' := ((((s.setMemory m₁).setFlags {}).setString .null s.stringLength).setU a u).setFlags
    { seekValue := true, needColon := true }
  have hclosed : s.closeString = .error (.next s') := by
    rw [hu] at hname
    simp [JsonState.closeString, hstore, ok_bind, hnode, JsonState.check, hu, hflags, s', hname]
  exact ⟨s'.move 1, passStep_inString hat (hclose.trans hclosed), .move (hat.congr rfl rfl), rfl,
    rfl⟩

/-- The name of a member. -/
theorem leads_name {w : Bytes} (hw : Chars i w o) (htext : text.length ≤ JsonState.uintMax)
    (hname : StoresName m w m₁) :
    Loop.Leads (passStep arith) potential (On text ⟨quotationMark :: i, {}, m⟩)
      (On text ⟨o, { seekValue := true, needColon := true }, m₁⟩) := by
  refine leads_of_length (fun s hs => hs.toAt) fun hlen => ?_
  rw [List.length_cons] at hlen
  have hlt := hw.length_lt
  obtain ⟨hnode, hu, hput, hnode', hadd⟩ := hname
  obtain ⟨m₂, hchars, hzero⟩ := Memory.putAll_append_inv hput
  obtain ⟨m₃, hzero, hdone⟩ := Memory.putAll_cons_inv hzero
  cases hdone
  rw [Nat.zero_add] at hzero
  have hread := leads_chars arith text hw (f := { string := true }) ⟨rfl, rfl⟩
    (by omega) hchars
  rw [Nat.zero_add] at hread
  obtain ⟨length, nameBytes, values, names, objectMem, hu'⟩ := JsonU.addName_inv hadd
  exact ((leads_beginName hnode hu).trans hread).trans
    (leads_endName hzero hnode' hu' hadd (by omega))

theorem leads_colon : Loop.Leads (passStep arith) potential
    (On text ⟨nameSeparator :: i, { seekValue := true, needColon := true }, m⟩)
    (On text ⟨i, { seekValue := true }, m⟩) := by
  refine leads_step (fun s hs => hs.toAt) (fun s hs => hs.toAt) (by simp) fun s hs => ?_
  obtain ⟨hat, hflags, rfl⟩ := hs
  refine ⟨(s.setFlags { seekValue := true }).move 1, passStep_next ?_,
    ⟨.move (hat.congr rfl rfl), rfl, rfl⟩⟩
  rw [iteration_value hat (by rw [hflags]) (by rw [hflags])]
  simp [JsonState.inValue, JsonState.seekingValue, hflags, nameSeparator, isSpace, error_bind]

/-! ## Separators and closing brackets -/

theorem leads_elementComma : Loop.Leads (passStep arith) potential
    (On text ⟨valueSeparator :: i, { seekValue := true, needComma := true }, m⟩)
    (On text ⟨i, { seekValue := true }, m⟩) := by
  refine leads_step (fun s hs => hs.toAt) (fun s hs => hs.toAt) (by simp) fun s hs => ?_
  obtain ⟨hat, hflags, rfl⟩ := hs
  refine ⟨(s.setFlags { seekValue := true }).move 1, passStep_next ?_,
    ⟨.move (hat.congr rfl rfl), rfl, rfl⟩⟩
  rw [iteration_value hat (by rw [hflags]) (by rw [hflags])]
  simp [JsonState.inValue, JsonState.seekingValue, hflags, valueSeparator, isSpace, error_bind]

theorem leads_memberComma (hm : TopIsObject m) : Loop.Leads (passStep arith) potential
    (On text ⟨valueSeparator :: i, { needComma := true }, m⟩) (On text ⟨i, {}, m⟩) := by
  refine leads_step (fun s hs => hs.toAt) (fun s hs => hs.toAt) (by simp) fun s hs => ?_
  obtain ⟨a, node, length, nameBytes, values, names, objectMem, hnode, hu⟩ := hm
  have hiteration := iteration_object arith hnode hu hs
  obtain ⟨hat, hflags, rfl⟩ := hs
  have hcomma : s.inObject a objectMem valueSeparator = .ok (s.setFlags {}) := by
    simp [JsonState.inObject, valueSeparator, isSpace, hflags]
  refine ⟨(s.setFlags {}).move 1, passStep_ok ?_, ⟨.move (hat.congr rfl rfl), rfl, rfl⟩⟩
  rw [hiteration, List.headD_cons, hcomma, ok_bind, endIteration_ok rfl rfl]

theorem leads_endArray {comma : Bool} (harray : m.topIsArray = .ok true) (hend : Ends m f m') :
    Loop.Leads (passStep arith) potential
      (On text ⟨endArray :: o, { seekValue := true, needComma := comma }, m⟩)
      (On text ⟨o, f, m'⟩) := by
  refine leads_step (fun s hs => hs.toAt) (fun s hs => hs.toAt) (by simp) fun s hs => ?_
  obtain ⟨hat, hflags, rfl⟩ := hs
  have hat' : At text _ (s.setFlags { next := true }) := hat.congr rfl rfl
  refine passStep_ends ?_ hat' rfl hend
  rw [iteration_value hat (by rw [hflags]) (by rw [hflags])]
  simp [JsonState.inValue, JsonState.seekingValue, hflags, endArray, isSpace, harray,
    JsonState.check, ok_bind]

theorem leads_endObject {comma : Bool} (hm : TopIsObject m) (hend : Ends m f m') :
    Loop.Leads (passStep arith) potential (On text ⟨endObject :: o, { needComma := comma }, m⟩)
      (On text ⟨o, f, m'⟩) := by
  refine leads_step (fun s hs => hs.toAt) (fun s hs => hs.toAt) (by simp) fun s hs => ?_
  obtain ⟨a, node, length, nameBytes, values, names, objectMem, hnode, hu⟩ := hm
  have hiteration := iteration_object arith hnode hu hs
  obtain ⟨hat, hflags, rfl⟩ := hs
  have hclose : s.inObject a objectMem endObject = .ok (s.setFlags { next := true }) := by
    simp [JsonState.inObject, endObject, isSpace, hflags]
  have hat' : At text _ (s.setFlags { next := true }) := hat.congr rfl rfl
  refine passStep_ends ?_ hat' rfl hend
  rw [hiteration, List.headD_cons, hclose, ok_bind]

/-! ## Phrases -/

/-- The flags where a phrase is read. -/
def flagsOf : Phrase → Flags
  | .value _ => { seekValue := true }
  | .elements comma _ => { seekValue := true, needComma := comma }
  | .members comma _ => { needComma := comma }

/-- Members are read in an object. -/
theorem Builds.topIsObject {comma : Bool} {ms : List (Bytes × JsonValue)}
    (h : Builds (.members comma ms) m f m') : TopIsObject m := by
  cases h with
  | endMembers hnode hu => exact ⟨_, _, _, _, _, _, _, hnode, hu⟩
  | member hname =>
    obtain ⟨hnode, hu⟩ := hname
    exact ⟨_, _, _, _, _, _, _, hnode, hu⟩

/-- A number, in either pass. -/
theorem leads_storesNumber {l : Bytes} {n : Number} (hl : IsNumber arith l n) (ho : NumberEnd o)
    (hnumber : StoresNumber m n m₁) (hend : Ends m₁ f m') :
    Loop.Leads (passStep arith) potential (On text ⟨l ++ o, { seekValue := true }, m⟩)
      (On text ⟨o, f, m'⟩) := by
  cases hnumber with
  | first hpass hnew => exact leads_firstNumber hpass hnew hl ho hend
  | second hpass hnew => exact leads_secondNumber hpass hnew hl ho hend

/-- **A phrase is read as the grammar says, and memory becomes what it builds.** -/
theorem leads_reads {φ : Phrase} (h : Reads arith i φ o) (htext : text.length ≤ JsonState.uintMax) :
    ∀ {m f m'}, Builds φ m f m' → Loop.Leads (passStep arith) potential
      (On text ⟨i, flagsOf φ, m⟩) (On text ⟨o, f, m'⟩) := by
  induction h with
  | null hi =>
    intro m f m' hm
    subst hi
    cases hm with
    | null hnew hend => exact leads_null hnew hend
  | true hi =>
    intro m f m' hm
    subst hi
    cases hm with
    | true hnew htop hend => exact leads_true hnew htop hend
  | false hi =>
    intro m f m' hm
    subst hi
    cases hm with
    | false hnew hend => exact leads_false hnew hend
  | @number i o l n hi hl hnum =>
    intro m f m' hm
    subst hi
    cases n with
    | integer k =>
      cases hm with
      | integer hnumber hend => exact leads_storesNumber hl hnum hnumber hend
    | double x =>
      cases hm with
      | double hnumber hend => exact leads_storesNumber hl hnum hnumber hend
  | string hi hw =>
    intro m f m' hm
    subst hi
    cases hm with
    | string hstring hend => exact leads_string hw htext hstring hend
  | array hi hvs ih =>
    intro m f m' hm
    subst hi
    cases hm with
    | array hnew hvs => exact (leads_beginArray hnew).trans (ih hvs)
  | object hi hms ih =>
    intro m f m' hm
    subst hi
    cases hm with
    | object hnew hms => exact (leads_beginObject hnew).trans (ih hms)
  | endElements hw =>
    intro m f m' hm
    cases hm with
    | endElements harray hend =>
      exact (leads_ws arith text .seek hw).trans (leads_endArray harray hend)
  | elementComma hw hvs ih =>
    intro m f m' hm
    exact ((leads_ws arith text .seek hw).trans leads_elementComma).trans (ih hm.elements_comma)
  | element hw hv hvs ihv ihvs =>
    intro m f m' hm
    cases hm with
    | element hv' hvs' => exact ((leads_ws arith text .seek hw).trans (ihv hv')).trans (ihvs hvs')
  | endMembers hw =>
    intro m f m' hm
    have htop := hm.topIsObject
    cases hm with
    | endMembers hnode hu hend =>
      exact (leads_ws arith text (.object htop) hw).trans (leads_endObject htop hend)
  | memberComma hw hms ih =>
    intro m f m' hm
    have htop := hm.topIsObject
    exact ((leads_ws arith text (.object htop) hw).trans (leads_memberComma htop)).trans
      (ih hm.members_comma)
  | member hw hname hcolon hw' hv hms ihv ihms =>
    intro m f m' hm
    have htop := hm.topIsObject
    cases hm with
    | member hname' hv' hms' =>
      have hfirst := (leads_ws arith text (.object htop) hw).trans
        (leads_name hname htext hname')
      have hsep := (hfirst.trans (leads_ws arith text .seek hcolon)).trans leads_colon
      exact ((hsep.trans (leads_ws arith text .seek hw')).trans (ihv hv')).trans (ihms hms')

end Steps

end Ssms.Json

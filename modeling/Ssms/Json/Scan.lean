import Ssms.Json.Build

/-!
# The machine of the JSON parser on strings

A configuration (`On`) is what is left of the text, the flags and the memory.

* `leads_chars`: the machine takes the characters of a string as the grammar does, and stores its
  bytes.
* `chars_or_stops`: in the first pass there is such a string, or the pass fails in it.
-/

namespace Ssms.Json

open Ssms.Kernel Ssms.Lib Ssms.Lib.Decimal
open Ssms.Lib.Rfc8259 (quotationMark escape)
open Lenient

/-! ## Reading -/

/-- What pays for the steps of a pass: three of them for each byte that is left. -/
def potential (s : JsonState) : Nat := 3 * s.unread.toNat

/-- The machine has `i` left of the text. -/
structure At (text i : Bytes) (s : JsonState) : Prop where
  json : s.json = text
  ptr : ∃ pre, text = pre ++ i ∧ s.ptr = pre.length

namespace At

variable {text i : Bytes} {b : UInt8} {s : JsonState}

theorem unread (h : At text i s) : s.unread = i.length := by
  obtain ⟨pre, htext, hptr⟩ := h.ptr
  rw [JsonState.unread, h.json, hptr, htext, List.length_append]
  omega

/-- The byte at the place, or the zero byte that ends the text. -/
theorem load (h : At text i s) : s.load = .ok (i.headD 0) := by
  obtain ⟨pre, htext, hptr⟩ := h.ptr
  have hbyte : (s.json ++ [0])[pre.length]? = some (i.headD 0) := by
    rw [h.json, htext, List.append_assoc, List.getElem?_append_right le_rfl, Nat.sub_self]
    cases i <;> rfl
  rw [JsonState.load, if_neg (by omega), hptr, Int.toNat_natCast, hbyte]

theorem char (h : At text i s) : s.char = .ok (i.headD 0) := by
  rw [JsonState.char]
  split_ifs with hend
  · have hunread := h.unread
    rw [JsonState.unread, hend, Int.sub_self] at hunread
    rw [List.length_eq_zero_iff.mp (by omega : i.length = 0)]
    rfl
  · exact h.load

/-- The place after the next byte. -/
theorem move (h : At text (b :: i) s) : At text i (s.move 1) := by
  obtain ⟨pre, htext, hptr⟩ := h.ptr
  refine ⟨h.json, pre ++ [b], by rw [htext, List.append_assoc]; rfl, ?_⟩
  rw [JsonState.move_ptr, hptr, List.length_append]
  rfl

theorem congr (h : At text i s) {s' : JsonState} (hjson : s'.json = s.json)
    (hptr' : s'.ptr = s.ptr) : At text i s' :=
  ⟨hjson.trans h.json, by rw [hptr']; exact h.ptr⟩

theorem potential_eq (h : At text i s) : potential s = 3 * i.length := by
  rw [potential, h.unread, Int.toNat_natCast]

end At

/-- A configuration. -/
structure Config where
  rest : Bytes
  flags : Flags
  mem : Memory

/-- The machine is in a configuration. -/
structure On (text : Bytes) (c : Config) (s : JsonState) : Prop extends At text c.rest s where
  flags : s.flags = c.flags
  mem : s.mem = c.mem

/-! ## Steps -/

section Steps

variable {arith : Arithmetic} {text i : Bytes} {s s' : JsonState}

/-- The parts of an iteration. -/
theorem iteration_eq (h : At text i s) : s.iteration arith =
    (s.inString (i.headD 0) >>= fun s => s.afterRoot (i.headD 0) >>= fun s =>
      s.inValue arith (i.headD 0) >>= fun s => s.endIteration) := by
  rw [JsonState.iteration, h.char]
  rfl

theorem passStep_next (h : s.iteration arith = .error (.next s')) :
    passStep arith s = .ok (s'.move 1) := by
  rw [passStep, h]

theorem passStep_ok (h : s.iteration arith = .ok s') : passStep arith s = .ok (s'.move 1) := by
  rw [passStep, h]

theorem passStep_failed (h : s.iteration arith = .error (.failed s')) :
    passStep arith s = .error (.failed s') := by
  rw [passStep, h]

theorem inString_ok (h : s.flags.string = false) (b : UInt8) : s.inString b = .ok s := by
  rw [JsonState.inString, h]
  rfl

theorem afterRoot_ok (h : s.flags.done = false) (b : UInt8) : s.afterRoot b = .ok s := by
  rw [JsonState.afterRoot, h]
  rfl

/-- Outside strings, and before the root value has ended. -/
theorem iteration_value (h : At text i s) (hstring : s.flags.string = false)
    (hdone : s.flags.done = false) : s.iteration arith =
      (s.inValue arith (i.headD 0) >>= fun s => s.endIteration) := by
  rw [iteration_eq h, inString_ok hstring, ok_bind, afterRoot_ok hdone, ok_bind]

/-- A string reads the byte alone. -/
theorem passStep_inString (h : At text i s) (hs : s.inString (i.headD 0) = .error (.next s')) :
    passStep arith s = .ok (s'.move 1) :=
  passStep_next (by rw [iteration_eq h, hs, error_bind])

theorem passStep_inString_failed (h : At text i s)
    (hs : s.inString (i.headD 0) = .error (.failed s')) :
    passStep arith s = .error (.failed s') :=
  passStep_failed (by rw [iteration_eq h, hs, error_bind])

end Steps

/-! ## The end of a value -/

section Ends

variable {text i : Bytes} {arith : Arithmetic} {s s' : JsonState} {m m' : Memory} {f : Flags}

theorem endIteration_ok (hnext : s.flags.next = false) (hreproc : s.flags.reproc = false) :
    s.endIteration = .ok s := by
  simp [JsonState.endIteration, hnext, hreproc]

/-- A value ends as memory says. -/
theorem endValue_ends (hflags : s.flags = { next := true }) (h : Ends s.mem f m') :
    ∃ s', s.endValue = .error (.next s') ∧ s'.json = s.json ∧ s'.ptr = s.ptr ∧ s'.flags = f ∧
      s'.mem = m' := by
  cases h with
  | @root a node htop hparent =>
    refine ⟨s.setFlags { needComma := true, done := true }, ?_, rfl, rfl, rfl, rfl⟩
    simp only [JsonState.endValue, JsonState.setFlags_mem, htop, JsonState.check, ok_bind,
      if_pos hparent, hflags]
    rfl
  | @entry child node p parent u htop hparent hentry hroom =>
    have hsome : node.parent ≠ none := by
      intro hnone
      rw [hnone] at hparent
      cases hparent
    refine ⟨((s.setFlags { needComma := true, seekValue := parent.u.isArray }).setMemory
      { s.mem.setU p u with top := some p }), ?_, rfl, rfl, rfl, rfl⟩
    simp only [JsonState.endValue, JsonState.setFlags_mem, htop, hparent, hentry, JsonState.check,
      ok_bind, if_neg hsome, hflags, if_neg (Nat.not_lt.mpr hroom)]
    simp [JsonState.setU, JsonState.setMemory, JsonState.setFlags]

/-- The byte ends a value. -/
theorem passStep_ends {c : UInt8} (hstep : s.iteration arith = s'.endIteration)
    (hat : At text (c :: i) s') (hflags : s'.flags = { next := true }) (h : Ends s'.mem f m') :
    ∃ s'', passStep arith s = .ok s'' ∧ On text ⟨i, f, m'⟩ s'' := by
  obtain ⟨s₁, hend, hjson, hptr, hf, hm⟩ := endValue_ends hflags h
  have hnext : s.iteration arith = .error (.next s₁) := by
    rw [hstep, ← hend]
    simp [JsonState.endIteration, hflags]
  exact ⟨_, passStep_next hnext, ⟨.move (hat.congr hjson hptr), hf, hm⟩⟩

/-- The byte does not belong to the value any more. -/
theorem passStep_ends_before (hstep : s.iteration arith = s'.endIteration) (hat : At text i s')
    (hflags : s'.flags = { next := true, reproc := true }) (h : Ends s'.mem f m') :
    ∃ s'', passStep arith s = .ok s'' ∧ On text ⟨i, f, m'⟩ s'' := by
  obtain ⟨s₁, hend, hjson, hptr, hf, hm⟩ :=
    endValue_ends (s := (s'.move (-1)).setFlags { next := true }) rfl h
  have hnext : s.iteration arith = .error (.next s₁) := by
    rw [hstep, ← hend]
    simp [JsonState.endIteration, hflags]
  refine ⟨_, passStep_next hnext, ⟨hat.congr hjson ?_, hf, hm⟩⟩
  rw [JsonState.move_ptr, hptr, JsonState.setFlags_ptr, JsonState.move_ptr]
  omega

end Ends

/-! ## The beginning of a value -/

section Begin

variable {text i : Bytes} {arith : Arithmetic} {s : JsonState} {m m' : Memory}

theorem newValue_ok {u : JsonU} (h : s.mem.newValue u = .ok m') :
    s.newValue u = .ok (s.setMemory m') := by
  rw [JsonState.newValue, h]
  rfl

/-- Where a value is looked for, a byte begins one. -/
theorem iteration_begin (hs : On text ⟨i, { seekValue := true }, m⟩ s)
    (hspace : isSpace (i.headD 0) = false) (hbracket : i.headD 0 ≠ 0x5D) :
    s.iteration arith =
      ((s.setFlags {}).beginValue (i.headD 0) >>= fun s => s.endIteration) := by
  have hflags := hs.flags
  rw [iteration_value hs.toAt (by rw [hflags]) (by rw [hflags])]
  simp only [JsonState.inValue, JsonState.seekingValue, hflags, hspace, hbracket, if_true, if_false,
    Bool.false_eq_true]

end Begin

/-! ## Storing characters -/

namespace JsonState

variable {s : JsonState} {m : Memory} {b : UInt8}

theorem store_ok (h : s.mem.put s.string s.stringLength b = .ok m) :
    s.store b = .ok (s.setMemory m) := by
  rw [Memory.put] at h
  rw [store]
  split_ifs with hfirst
  · rw [if_pos hfirst] at h
    cases h
    rfl
  · rw [if_neg hfirst] at h
    rw [h]
    rfl

theorem stringAdd_ok (h : s.mem.put s.string s.stringLength b = .ok m) :
    s.stringAdd b = .ok ((s.setMemory m).setString s.string (s.stringLength + 1)) := by
  rw [stringAdd, store_ok h]
  rfl

theorem stringAddAll_ok {w : Bytes} : ∀ {s : JsonState} {m : Memory},
    Memory.putAll s.string s.stringLength w s.mem = .ok m →
    s.stringAddAll w = .ok ((s.setMemory m).setString s.string (s.stringLength + w.length)) := by
  induction w with
  | nil =>
    intro s m h
    cases h
    rfl
  | cons b w ih =>
    intro s m h
    rw [Memory.putAll] at h
    cases hput : s.mem.put s.string s.stringLength b with
    | error f =>
      rw [hput] at h
      cases h
    | ok m₁ =>
      rw [hput, ok_bind] at h
      rw [stringAddAll, List.foldlM_cons, stringAdd_ok hput, ok_bind]
      have hrest := ih (s := (s.setMemory m₁).setString s.string (s.stringLength + 1)) h
      rw [stringAddAll] at hrest
      rw [hrest, List.length_cons, Nat.add_comm w.length, ← Nat.add_assoc]
      rfl

end JsonState

/-! ## Escapes -/

namespace At

variable {text i : Bytes} {b : UInt8} {s : JsonState}

theorem expect_ok {c : UInt8} (h : At text (b :: c :: i) s) : s.expect c = .ok (s.move 1) := by
  simp [JsonState.expect, h.move.load, ok_bind]

theorem expect_failed {c : UInt8} (h : At text (b :: i) s) (hc : i.headD 0 ≠ c) :
    s.expect c = .error (.failed (s.move 1)) := by
  simp only [JsonState.expect, h.move.load, ok_bind, if_neg hc]

theorem nextHex_ok {c : UInt8} (h : At text (b :: c :: i) s) (hc : hexValue c ≠ 0xFF) :
    s.nextHex = .ok (hexValue c, s.move 1) := by
  simp [JsonState.nextHex, h.move.load, ok_bind, hc]

theorem nextHex_failed (h : At text (b :: i) s) (hc : hexValue (i.headD 0) = 0xFF) :
    s.nextHex = .error (.failed (s.move 1)) := by
  simp only [JsonState.nextHex, h.move.load, ok_bind, if_pos hc]

theorem nextHex_cases (h : At text (b :: i) s) :
    (∃ c i', i = c :: i' ∧ hexValue c ≠ 0xFF ∧ s.nextHex = .ok (hexValue c, s.move 1)) ∨
      s.nextHex = .error (.failed (s.move 1)) := by
  rcases i with - | ⟨c, i⟩
  · exact Or.inr (h.nextHex_failed rfl)
  · by_cases hc : hexValue c = 0xFF
    · exact Or.inr (h.nextHex_failed hc)
    · exact Or.inl ⟨c, i, rfl, hc, h.nextHex_ok hc⟩

/-- Four digits are read. -/
theorem hex4_ok {u : UInt32} {o : Bytes} (h : At text (b :: i) s) (hu : Hex4 i u o) :
    s.hex4 = .ok (u, s.move 4) ∧ ∃ d, At text (d :: o) (s.move 4) := by
  cases hu with
  | @digits c₁ c₂ c₃ c₄ _ h₁ h₂ h₃ h₄ =>
    have hend : At text (c₄ :: o) (s.move 4) := by simpa using h.move.move.move.move
    refine ⟨?_, c₄, hend⟩
    simp only [JsonState.hex4, nextHex_ok h h₁, nextHex_ok h.move h₂, nextHex_ok h.move.move h₃,
      nextHex_ok h.move.move.move h₄, ok_bind]
    simp

/-- Four digits are read, or there are fewer. -/
theorem hex4_cases (h : At text (b :: i) s) : (∃ u o, Hex4 i u o) ∨
    ∃ s', s.hex4 = .error (.failed s') ∧ s'.mem = s.mem := by
  obtain ⟨c₁, i, rfl, h₁, e₁⟩ | e₁ := h.nextHex_cases
  swap
  · exact Or.inr ⟨s.move 1, by simp only [JsonState.hex4, e₁, error_bind], rfl⟩
  obtain ⟨c₂, i, rfl, h₂, e₂⟩ | e₂ := h.move.nextHex_cases
  swap
  · exact Or.inr ⟨(s.move 1).move 1, by simp only [JsonState.hex4, e₁, e₂, ok_bind, error_bind],
      rfl⟩
  obtain ⟨c₃, i, rfl, h₃, e₃⟩ | e₃ := h.move.move.nextHex_cases
  swap
  · exact Or.inr ⟨((s.move 1).move 1).move 1,
      by simp only [JsonState.hex4, e₁, e₂, e₃, ok_bind, error_bind], rfl⟩
  obtain ⟨c₄, i, rfl, h₄, -⟩ | e₄ := h.move.move.move.nextHex_cases
  swap
  · exact Or.inr ⟨(((s.move 1).move 1).move 1).move 1,
      by simp only [JsonState.hex4, e₁, e₂, e₃, e₄, ok_bind, error_bind], rfl⟩
  exact Or.inl ⟨_, _, .digits h₁ h₂ h₃ h₄⟩

/-- An escape of a code unit that is no surrogate. -/
theorem unicodeEscape_unit {u : UInt32} {o : Bytes} {m : Memory} (h : At text (b :: i) s)
    (hu : Hex4 i u o) (hs : isSurrogate u = false)
    (hput : Memory.putAll s.string s.stringLength (unicodeBytes u) s.mem = .ok m) :
    s.unicodeEscape = .ok (((s.move 4).setMemory m).setString s.string
      (s.stringLength + (unicodeBytes u).length)) := by
  have hroom : ¬ s.unread < 4 := by
    have hlen := hu.length_eq
    rw [h.unread, List.length_cons]
    omega
  have hadd := JsonState.stringAddAll_ok (s := s.move 4) hput
  simp only [JsonState.unicodeEscape, if_neg hroom, (h.hex4_ok hu).1, ok_bind, hs]
  exact hadd

/-- An escape of a surrogate, with the one after it. -/
theorem unicodeEscape_pair {u u' : UInt32} {i₁ o : Bytes} {m : Memory} (h : At text (b :: i) s)
    (hu : Hex4 i u (escape :: 0x75 :: i₁)) (hs : isSurrogate u = true) (hu' : Hex4 i₁ u' o)
    (hput : Memory.putAll s.string s.stringLength (unicodeBytes (ucharOfPair u u')) s.mem = .ok m) :
    s.unicodeEscape = .ok (((s.move 10).setMemory m).setString s.string
      (s.stringLength + (unicodeBytes (ucharOfPair u u')).length)) := by
  obtain ⟨hhex, d, hat⟩ := h.hex4_ok hu
  have hlen := hu.length_eq
  have hlen' := hu'.length_eq
  have hroom : ¬ s.unread < 4 := by
    rw [h.unread, List.length_cons]
    omega
  have hroom' : ¬ (s.move 4).unread < 6 := by
    rw [hat.unread, List.length_cons, List.length_cons, List.length_cons]
    omega
  have hadd := JsonState.stringAddAll_ok (s := s.move 10) hput
  have hslash : (s.move 4).expect 0x5C = .ok ((s.move 4).move 1) := hat.expect_ok
  have hu_byte : ((s.move 4).move 1).expect 0x75 = .ok (((s.move 4).move 1).move 1) :=
    hat.move.expect_ok
  have hhex' := (hat.move.move.hex4_ok hu').1
  simp only [JsonState.unicodeEscape, JsonState.secondHalf, if_neg hroom, if_neg hroom', hhex,
    ok_bind, hs, if_true, hslash, hu_byte, hhex']
  simpa using hadd

/-- An escape with fewer digits. -/
theorem unicodeEscape_failed (h : At text (b :: i) s) (hno : ∀ u o, ¬ Hex4 i u o) :
    ∃ s', s.unicodeEscape = .error (.failed s') ∧ s'.mem = s.mem := by
  rw [JsonState.unicodeEscape]
  split_ifs with hroom
  · exact ⟨s, rfl, rfl⟩
  · obtain ⟨u, o, hu⟩ | ⟨s', hhex, hmem⟩ := h.hex4_cases
    · exact absurd hu (hno u o)
    · exact ⟨s', by rw [hhex, error_bind], hmem⟩

/-- An escape of a surrogate without another one after it. -/
theorem unicodeEscape_lone {u : UInt32} {o : Bytes} (h : At text (b :: i) s) (hu : Hex4 i u o)
    (hs : isSurrogate u = true)
    (hno : ∀ i₁ u' i₂, o = escape :: 0x75 :: i₁ → ¬ Hex4 i₁ u' i₂) :
    ∃ s', s.unicodeEscape = .error (.failed s') ∧ s'.mem = s.mem := by
  obtain ⟨hhex, d, hat⟩ := h.hex4_ok hu
  have hlen := hu.length_eq
  have hroom : ¬ s.unread < 4 := by
    rw [h.unread, List.length_cons]
    omega
  simp only [JsonState.unicodeEscape, if_neg hroom, hhex, ok_bind, hs, if_true]
  rw [JsonState.secondHalf]
  split_ifs with hroom'
  · exact ⟨_, rfl, rfl⟩
  by_cases hslash : o.headD 0 = 0x5C
  swap
  · exact ⟨(s.move 4).move 1, by rw [hat.expect_failed hslash, error_bind], rfl⟩
  obtain ⟨o, rfl⟩ : ∃ o', o = 0x5C :: o' := by
    cases o with
    | nil => exact absurd hslash (by decide)
    | cons c o => exact ⟨o, congrArg (· :: o) hslash⟩
  by_cases hletter : o.headD 0 = 0x75
  swap
  · exact ⟨((s.move 4).move 1).move 1,
      by rw [hat.expect_ok, ok_bind, hat.move.expect_failed hletter, error_bind], rfl⟩
  obtain ⟨o, rfl⟩ : ∃ o', o = 0x75 :: o' := by
    cases o with
    | nil => exact absurd hletter (by decide)
    | cons c o => exact ⟨o, congrArg (· :: o) hletter⟩
  obtain ⟨u', i₂, hu'⟩ | ⟨s', hhex', hmem⟩ := hat.move.move.hex4_cases
  · exact absurd hu' (hno o u' i₂ rfl)
  · exact ⟨s', by rw [hat.expect_ok, ok_bind, hat.move.expect_ok, ok_bind, hhex', error_bind], hmem⟩

end At

/-! ## Strings -/

/-- The machine is at character `n` of a string. -/
structure InString (text : Bytes) (c : Config) (string : StringPtr) (n : Nat) (s : JsonState) : Prop
    extends On text c s where
  string : s.string = string
  stringLength : s.stringLength = n

/-- The flags in a string. -/
structure StringFlags (f : Flags) : Prop where
  string : f.string = true
  escaped : f.escaped = false

/-- Every escape but `\u` adds a byte. -/
theorem escapedChar_eq {e : UInt8} (he : e ≠ 0x75) (s : JsonState) :
    s.escapedChar e = s.stringAdd (escapeOf e) := by
  unfold JsonState.escapedChar escapeOf
  split_ifs <;> rfl

/-- Fewer bytes are left. -/
theorem potential_lt {text i i' : Bytes} {s s' : JsonState} (h : At text i s) (h' : At text i' s')
    (hlt : i'.length < i.length) : potential s' < potential s := by
  rw [h.potential_eq, h'.potential_eq]
  omega

section Strings

variable {arith : Arithmetic} {text i o w : Bytes} {f : Flags} {p : StringPtr} {n : Nat}
  {m m' : Memory} {s : JsonState}

/-- A byte that stands for itself. -/
theorem passStep_plain {c : UInt8} (hf : StringFlags f) (hc : IsPlain c)
    (hn : n ≤ JsonState.uintMax) (hput : m.put p n c = .ok m')
    (hs : InString text ⟨c :: i, f, m⟩ p n s) :
    ∃ s', passStep arith s = .ok s' ∧ InString text ⟨i, f, m'⟩ p (n + 1) s' := by
  obtain ⟨⟨hat, rfl, rfl⟩, rfl, rfl⟩ := hs
  obtain ⟨hzero, hquote, hescape⟩ := hc
  have hquote : c ≠ 0x22 := hquote
  have hescape : c ≠ 0x5C := hescape
  have hstep : s.inString c =
      .error (.next ((s.setMemory m').setString s.string (s.stringLength + 1))) := by
    rw [JsonState.inString, hf.string, if_neg (by simp), if_neg hzero,
      if_neg (by omega), hf.escaped,
      if_neg (by simp), if_neg hescape, if_neg hquote, JsonState.stringAdd_ok hput, ok_bind]
  exact ⟨_, passStep_inString hat hstep, ⟨⟨.move (hat.congr rfl rfl), rfl, rfl⟩, rfl, rfl⟩⟩

/-- The byte that begins an escape. -/
theorem passStep_escape (hf : StringFlags f) (hn : n ≤ JsonState.uintMax)
    (hs : InString text ⟨escape :: i, f, m⟩ p n s) :
    ∃ s', passStep arith s = .ok s' ∧
      InString text ⟨i, { f with escaped := true }, m⟩ p n s' := by
  obtain ⟨⟨hat, rfl, rfl⟩, rfl, rfl⟩ := hs
  have hstep : s.inString 0x5C = .error (.next (s.setFlags { s.flags with escaped := true })) := by
    rw [JsonState.inString, hf.string, if_neg (by simp), if_neg (by decide), if_neg (by omega),
      hf.escaped, if_neg (by simp), if_pos rfl]
  exact ⟨_, passStep_inString hat hstep, ⟨⟨.move (hat.congr rfl rfl), rfl, rfl⟩, rfl, rfl⟩⟩

theorem leads_plain {c : UInt8} (hf : StringFlags f) (hc : IsPlain c)
    (hn : n ≤ JsonState.uintMax) (hput : m.put p n c = .ok m') :
    Loop.Leads (passStep arith) potential (InString text ⟨c :: i, f, m⟩ p n)
      (InString text ⟨i, f, m'⟩ p (n + 1)) := by
  refine .step fun s hs => ?_
  obtain ⟨s', hstep, hs'⟩ := passStep_plain hf hc hn hput hs
  exact ⟨s', hstep, potential_lt hs.toAt hs'.toAt (by simp), hs'⟩

theorem leads_backslash (hf : StringFlags f) (hn : n ≤ JsonState.uintMax) :
    Loop.Leads (passStep arith) potential (InString text ⟨escape :: i, f, m⟩ p n)
      (InString text ⟨i, { f with escaped := true }, m⟩ p n) := by
  refine .step fun s hs => ?_
  obtain ⟨s', hstep, hs'⟩ := passStep_escape hf hn hs
  exact ⟨s', hstep, potential_lt hs.toAt hs'.toAt (by simp), hs'⟩

/-- The state in which an escape is read. -/
theorem InString.unescaped (hs : InString text ⟨i, { f with escaped := true }, m⟩ p n s) :
    InString text ⟨i, f, m⟩ p n (s.setFlags f) :=
  ⟨⟨hs.toAt.congr rfl rfl, rfl, hs.mem⟩, hs.string, hs.stringLength⟩

/-- The byte after the one that begins an escape. -/
theorem inString_escaped {e : UInt8} (hf : StringFlags f) (he : e ≠ 0) (hn : n ≤ JsonState.uintMax)
    (hs : InString text ⟨e :: i, { f with escaped := true }, m⟩ p n s) :
    s.inString e = ((s.setFlags f).escapedChar e >>= fun s => .error (.next s)) := by
  obtain ⟨⟨hat, hflags, rfl⟩, rfl, rfl⟩ := hs
  have hclear : { s.flags with escaped := false } = f := by
    rw [hflags]
    cases f
    simp only [Flags.mk.injEq, true_and, and_true]
    exact hf.escaped.symm
  have hchar : (s.setFlags { s.flags with escaped := false }).escapedChar e =
      (s.setFlags f).escapedChar e := by
    rw [hclear]
  rw [JsonState.inString, if_neg (by simp [hflags, hf.string]), if_neg he, if_neg (by omega),
    if_pos (by rw [hflags]), hchar]

/-- An escape: the byte that begins it, and the byte after it with what it reads. -/
theorem leads_escape {e : UInt8} {k : Nat} (hf : StringFlags f) (he : e ≠ 0)
    (hn : n ≤ JsonState.uintMax) (hlen : o.length ≤ i.length)
    (hchar : ∀ s, InString text ⟨e :: i, f, m⟩ p n s →
      ∃ s', s.escapedChar e = .ok s' ∧ InString text ⟨o, f, m'⟩ p k (s'.move 1)) :
    Loop.Leads (passStep arith) potential (InString text ⟨escape :: e :: i, f, m⟩ p n)
      (InString text ⟨o, f, m'⟩ p k) := by
  refine (leads_backslash hf hn).trans (.step fun s hs => ?_)
  obtain ⟨s', hs', hend⟩ := hchar _ hs.unescaped
  have hstep : s.inString e = .error (.next s') := by
    rw [inString_escaped hf he hn hs, hs', ok_bind]
  exact ⟨_, passStep_inString hs.toAt hstep,
    potential_lt hs.toAt hend.toAt (Nat.lt_succ_of_le hlen), hend⟩

/-- An escape of one byte. -/
theorem leads_escaped {e : UInt8} (hf : StringFlags f) (he : e ≠ 0) (hu : e ≠ 0x75)
    (hn : n ≤ JsonState.uintMax) (hput : m.put p n (escapeOf e) = .ok m') :
    Loop.Leads (passStep arith) potential (InString text ⟨escape :: e :: i, f, m⟩ p n)
      (InString text ⟨i, f, m'⟩ p (n + 1)) := by
  refine leads_escape hf he hn le_rfl fun s hs => ?_
  obtain ⟨⟨hat, rfl, rfl⟩, rfl, rfl⟩ := hs
  rw [escapedChar_eq hu, JsonState.stringAdd_ok hput]
  exact ⟨_, rfl, ⟨⟨.move (hat.congr rfl rfl), rfl, rfl⟩, rfl, rfl⟩⟩

/-- An escape of a code unit that is no surrogate. -/
theorem leads_unit {u : UInt32} (hf : StringFlags f) (hn : n ≤ JsonState.uintMax) (hu : Hex4 i u o)
    (hs : isSurrogate u = false) (hput : Memory.putAll p n (unicodeBytes u) m = .ok m') :
    Loop.Leads (passStep arith) potential (InString text ⟨escape :: 0x75 :: i, f, m⟩ p n)
      (InString text ⟨o, f, m'⟩ p (n + (unicodeBytes u).length)) := by
  have hlen := hu.length_eq
  refine leads_escape hf (by decide) hn (by omega) fun s hs' => ?_
  obtain ⟨⟨hat, rfl, rfl⟩, rfl, rfl⟩ := hs'
  obtain ⟨-, d, hat'⟩ := hat.hex4_ok hu
  exact ⟨_, hat.unicodeEscape_unit hu hs hput,
    ⟨⟨.move (hat'.congr rfl rfl), rfl, rfl⟩, rfl, rfl⟩⟩

/-- An escape of a surrogate, with the one after it. -/
theorem leads_pair {u u' : UInt32} {i₁ : Bytes} (hf : StringFlags f) (hn : n ≤ JsonState.uintMax)
    (hu : Hex4 i u (escape :: 0x75 :: i₁)) (hs : isSurrogate u = true) (hu' : Hex4 i₁ u' o)
    (hput : Memory.putAll p n (unicodeBytes (ucharOfPair u u')) m = .ok m') :
    Loop.Leads (passStep arith) potential (InString text ⟨escape :: 0x75 :: i, f, m⟩ p n)
      (InString text ⟨o, f, m'⟩ p (n + (unicodeBytes (ucharOfPair u u')).length)) := by
  have hlen := hu.length_eq
  have hlen' := hu'.length_eq
  simp only [List.length_cons] at hlen
  refine leads_escape hf (by decide) hn (by omega) fun s hs' => ?_
  obtain ⟨⟨hat, rfl, rfl⟩, rfl, rfl⟩ := hs'
  obtain ⟨-, d, hat'⟩ := hat.hex4_ok hu
  obtain ⟨-, d', hat''⟩ := hat'.move.move.hex4_ok hu'
  refine ⟨_, hat.unicodeEscape_pair hu hs hu' hput,
    ⟨⟨.move (hat''.congr rfl ?_), rfl, rfl⟩, rfl, rfl⟩⟩
  simp

/-- **The characters of a string are added, up to its closing quotation mark.** -/
theorem leads_chars (arith : Arithmetic) (text : Bytes) (h : Chars i w o) (hf : StringFlags f) :
    ∀ {m m' : Memory} {n : Nat}, n + i.length ≤ JsonState.uintMax →
      Memory.putAll p n w m = .ok m' →
      Loop.Leads (passStep arith) potential (InString text ⟨i, f, m⟩ p n)
        (InString text ⟨quotationMark :: o, f, m'⟩ p (n + w.length)) := by
  induction h with
  | close =>
    intro m m' n _ hput
    cases hput
    exact .refl _
  | plain hc h ih =>
    intro m m' n hn hput
    obtain ⟨m₁, hfirst, hrest⟩ := Memory.putAll_cons_inv hput
    rw [List.length_cons] at hn ⊢
    have hend := ih (n := n + 1) (by omega) hrest
    rw [Nat.add_right_comm, Nat.add_assoc] at hend
    exact (leads_plain hf hc (by omega) hfirst).trans hend
  | escaped hzero hu h ih =>
    intro m m' n hn hput
    obtain ⟨m₁, hfirst, hrest⟩ := Memory.putAll_cons_inv hput
    simp only [List.length_cons] at hn ⊢
    have hend := ih (n := n + 1) (by omega) hrest
    rw [Nat.add_right_comm, Nat.add_assoc] at hend
    exact (leads_escaped hf hzero hu (by omega) hfirst).trans hend
  | @unit i i' o w u hu hs h ih =>
    intro m m' n hn hput
    obtain ⟨m₁, hfirst, hrest⟩ := Memory.putAll_append_inv hput
    have hlen := hu.length_eq
    have hle := length_unicodeBytes_le u
    simp only [List.length_cons, List.length_append] at hn ⊢
    have hend := ih (n := n + (unicodeBytes u).length) (by omega) hrest
    rw [Nat.add_assoc] at hend
    exact (leads_unit hf (by omega) hu hs hfirst).trans hend
  | @pair i i₁ i₂ o w u u' hu hs hu' h ih =>
    intro m m' n hn hput
    obtain ⟨m₁, hfirst, hrest⟩ := Memory.putAll_append_inv hput
    have hlen := hu.length_eq
    have hlen' := hu'.length_eq
    have hle := length_unicodeBytes_le (ucharOfPair u u')
    simp only [List.length_cons, List.length_append] at hn hlen ⊢
    have hend := ih (n := n + (unicodeBytes (ucharOfPair u u')).length) (by omega) hrest
    rw [Nat.add_assoc] at hend
    exact (leads_pair hf (by omega) hu hs hu' hfirst).trans hend

/-- The pass has failed, and left memory as it was. -/
def FailedWith (m : Memory) (r : PassResult) : Prop := ∃ s, r = .failed s ∧ s.mem = m

/-- The end of the text in a string. -/
theorem stops_eof (hf : f.string = true) (hzero : i.headD 0 = 0) :
    Loop.Stops (passStep arith) potential (InString text ⟨i, f, m⟩ p n) (FailedWith m) := by
  refine .now fun s hs => ?_
  have hstep : s.inString (i.headD 0) = .error (.failed s) := by
    rw [JsonState.inString, if_neg (by simp [hs.flags, hf]), if_pos hzero]
  exact ⟨_, passStep_inString_failed hs.toAt hstep, s, rfl, hs.mem⟩

/-- An escape that fails. -/
theorem stops_escape {e : UInt8} (hf : StringFlags f) (he : e ≠ 0) (hn : n ≤ JsonState.uintMax)
    (hchar : ∀ s, InString text ⟨e :: i, f, m⟩ p n s →
      ∃ s', s.escapedChar e = .error (.failed s') ∧ s'.mem = m) :
    Loop.Stops (passStep arith) potential (InString text ⟨escape :: e :: i, f, m⟩ p n)
      (FailedWith m) := by
  refine (leads_backslash hf hn).stops (.now fun s hs => ?_)
  obtain ⟨s', hs', hmem⟩ := hchar _ (hs.unescaped)
  have hstep : s.inString e = .error (.failed s') := by
    rw [inString_escaped hf he hn hs, hs', error_bind]
  exact ⟨_, passStep_inString_failed hs.toAt hstep, s', rfl, hmem⟩

/-- The same after `\u`. -/
theorem unicode_or_stops {k : Nat} (hf : StringFlags f) (hm : m.firstPass = true)
    (hk : i.length ≤ k) (hn : n + (i.length + 1 + 1) ≤ JsonState.uintMax)
    (ih : ∀ {o : Bytes} {n : Nat}, o.length ≤ k → n + o.length ≤ JsonState.uintMax →
      (∃ w o', Chars o w o') ∨
        Loop.Stops (passStep arith) potential (InString text ⟨o, f, m⟩ p n) (FailedWith m)) :
    (∃ w o, Chars (escape :: 0x75 :: i) w o) ∨
      Loop.Stops (passStep arith) potential (InString text ⟨escape :: 0x75 :: i, f, m⟩ p n)
        (FailedWith m) := by
  by_cases hdigits : ∀ u o, ¬ Hex4 i u o
  · refine Or.inr (stops_escape hf (by decide) (by omega) fun s hs => ?_)
    obtain ⟨s', hs', hmem⟩ := hs.toAt.unicodeEscape_failed hdigits
    exact ⟨s', hs', hmem.trans hs.mem⟩
  push Not at hdigits
  obtain ⟨u, o, hu⟩ := hdigits
  have hlen := hu.length_eq
  cases hs : isSurrogate u with
  | false =>
    have hle := length_unicodeBytes_le u
    obtain ⟨w, o', h⟩ | h := ih (n := n + (unicodeBytes u).length) (by omega : o.length ≤ k)
      (by omega)
    · exact Or.inl ⟨_, _, .unit hu hs h⟩
    · exact Or.inr ((leads_unit hf (by omega) hu hs (Memory.putAll_of_first hm n)).stops h)
  | true =>
    by_cases hpair : ∀ i₁ u' i₂, o = escape :: 0x75 :: i₁ → ¬ Hex4 i₁ u' i₂
    · refine Or.inr (stops_escape hf (by decide) (by omega) fun s hin => ?_)
      obtain ⟨s', hs', hmem⟩ := hin.toAt.unicodeEscape_lone hu hs hpair
      exact ⟨s', hs', hmem.trans hin.mem⟩
    push Not at hpair
    obtain ⟨i₁, u', i₂, rfl, hu'⟩ := hpair
    have hlen' := hu'.length_eq
    simp only [List.length_cons] at hlen
    have hle := length_unicodeBytes_le (ucharOfPair u u')
    obtain ⟨w, o', h⟩ | h := ih (n := n + (unicodeBytes (ucharOfPair u u')).length)
      (by omega : i₂.length ≤ k) (by omega)
    · exact Or.inl ⟨_, _, .pair hu hs hu' h⟩
    · exact Or.inr ((leads_pair hf (by omega) hu hs hu' (Memory.putAll_of_first hm n)).stops h)

/-- **In the first pass, a string is read, or the pass fails.** -/
theorem chars_or_stops (arith : Arithmetic) (text : Bytes) (p : StringPtr) (hf : StringFlags f)
    (hm : m.firstPass = true) :
    ∀ {k : Nat} {i : Bytes} {n : Nat}, i.length ≤ k → n + i.length ≤ JsonState.uintMax →
      (∃ w o, Chars i w o) ∨
        Loop.Stops (passStep arith) potential (InString text ⟨i, f, m⟩ p n) (FailedWith m) := by
  intro k
  induction k with
  | zero =>
    intro i n hk hn
    obtain rfl := List.length_eq_zero_iff.mp (Nat.le_zero.mp hk)
    exact Or.inr (stops_eof hf.string rfl)
  | succ k ih =>
    rintro (- | ⟨c, i⟩) n hk hn
    · exact Or.inr (stops_eof hf.string rfl)
    rw [List.length_cons] at hk hn
    by_cases hzero : c = 0
    · exact Or.inr (stops_eof hf.string (by simpa using hzero))
    by_cases hquote : c = quotationMark
    · exact Or.inl ⟨[], i, hquote ▸ .close⟩
    by_cases hescape : c ≠ escape
    · have hc : IsPlain c := ⟨hzero, hquote, hescape⟩
      obtain ⟨w, o, h⟩ | h := ih (n := n + 1) (by omega : i.length ≤ k) (by omega)
      · exact Or.inl ⟨_, _, .plain hc h⟩
      · exact Or.inr ((leads_plain hf hc (by omega) (if_pos hm)).stops h)
    obtain rfl := not_not.mp hescape
    have hbackslash : Loop.Leads (passStep arith) potential (InString text ⟨escape :: i, f, m⟩ p n)
        (InString text ⟨i, { f with escaped := true }, m⟩ p n) := leads_backslash hf (by omega)
    rcases i with - | ⟨e, i⟩
    · exact Or.inr (hbackslash.stops (stops_eof hf.string rfl))
    rw [List.length_cons] at hk hn
    by_cases he : e = 0
    · exact Or.inr (hbackslash.stops (stops_eof hf.string (by simpa using he)))
    by_cases hu : e ≠ 0x75
    · obtain ⟨w, o, h⟩ | h := ih (n := n + 1) (by omega : i.length ≤ k) (by omega)
      · exact Or.inl ⟨_, _, .escaped he hu h⟩
      · exact Or.inr ((leads_escaped hf he hu (by omega) (if_pos hm)).stops h)
    obtain rfl := not_not.mp hu
    exact unicode_or_stops hf hm (by omega) hn fun hlt hn => ih hlt hn

end Strings

end Ssms.Json

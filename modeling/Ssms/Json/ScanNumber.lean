import Ssms.Json.Scan

/-!
# The machine of the JSON parser on numbers

* `leads_magnitude`, `iteration_endNumber`: a number is read into its node, up to the byte after it.
* `firstNumber_or_stops`: the first pass reads a number, or it fails in its node.
* `leads_secondNumber`: the second pass takes the node that the first one has filled in.
-/

namespace Ssms.Json

open Ssms.Kernel Ssms.Lib Ssms.Lib.Decimal
open Ssms.Lib.Rfc8259 (NumberEnd IsNumberByte)
open Lenient

/-- The machine is in a number: the node `a` holds `n`, of what has been read. -/
structure InNumber (text : Bytes) (m : Memory) (a : Nat) (i : Bytes) (n : Number) (num : NumState)
    (s : JsonState) : Prop extends On text ⟨i, {}, m.setU a n.u⟩ s where
  num : s.num = num

/-- The bytes that are left. -/
def bytesLeft (s : JsonState) : Nat := s.unread.toNat

section Steps

variable {arith : Arithmetic} {text i o d : Bytes} {m : Memory} {a : Nat} {n : Number} {b : UInt8}
  {num : NumState} {s : JsonState} {k y : BitVec 64} {x : Double} {neg z : Bool} {j : Nat}

theorem bytesLeft_lt {s' : JsonState} (h : At text (b :: i) s) (h' : At text i s') :
    bytesLeft s' < bytesLeft s := by
  have hs := h.unread
  have hs' := h'.unread
  rw [List.length_cons] at hs
  unfold bytesLeft
  omega

/-- A number reads the byte. -/
theorem iteration_number (htop : m.top = some a) (ha : a < m.heap.length)
    (hs : InNumber text m a i n num s) : s.iteration arith =
      (s.inNumber arith a n.u (i.headD 0) >>= fun s => s.endIteration) := by
  obtain ⟨⟨hat, hflags, hmem⟩, -⟩ := hs
  obtain ⟨node, hnode, hu⟩ := Memory.deref_setU (m := m) (u := n.u) ha
  have htop' : s.mem.deref s.mem.top = .ok (a, node) := by
    rw [hmem, Memory.setU_top, htop, hnode]
  have hvalue : ∀ b, s.inValue arith b = s.inNumber arith a n.u b := by
    intro b
    rw [JsonState.inValue, hflags, if_neg (by simp), htop', JsonState.check, ok_bind]
    cases n <;> simp only [hu, Number.u]
  rw [iteration_value hat (by rw [hflags]) (by rw [hflags]), hvalue]

/-- A byte that belongs to the number. -/
theorem leads_number {n' : Number} {num' : NumState} (htop : m.top = some a)
    (ha : a < m.heap.length)
    (h : ∀ s, InNumber text m a (b :: i) n num s →
      ∃ s', s.inNumber arith a n.u b = .error (.next s') ∧
      s'.json = s.json ∧ s'.ptr = s.ptr ∧ s'.flags = s.flags ∧ s'.mem = m.setU a n'.u ∧
        s'.num = num') :
    Loop.Leads (passStep arith) bytesLeft (InNumber text m a (b :: i) n num)
      (InNumber text m a i n' num') := by
  refine .step fun s hs => ?_
  obtain ⟨s', hstep, hjson, hptr, hflags, hmem, hnum⟩ := h s hs
  have hat : At text i (s'.move 1) := .move (hs.toAt.congr hjson hptr)
  have hnext : s.iteration arith = .error (.next s') := by
    rw [iteration_number htop ha hs, List.headD_cons, hstep, error_bind]
  exact ⟨_, passStep_next hnext, bytesLeft_lt hs.toAt hat,
    ⟨⟨hat, hflags.trans hs.flags, hmem⟩, hnum⟩⟩

end Steps

/-! ## Digits -/

section Digits

variable {arith : Arithmetic} {text i o d : Bytes} {m : Memory} {a : Nat} {b : UInt8}
  {neg z g en : Bool} {j : Nat} {k y v : BitVec 64} {x : Double}

/-- A digit of an integer. -/
theorem leads_integer_digit (htop : m.top = some a) (ha : a < m.heap.length) (hb : IsDigit b) :
    Loop.Leads (passStep arith) bytesLeft
      (InNumber text m a (b :: i) (.integer k) { negative := neg, numDigits := j })
      (InNumber text m a i (.integer (k * 10 + digitOf b))
        { negative := neg, zero := j + 1 = 1 && b = 0x30, numDigits := j + 1 }) := by
  refine leads_number htop ha fun s hs => ?_
  obtain ⟨⟨hat, hflags, hmem⟩, hnum⟩ := hs
  refine ⟨(s.setU a (.integer (k * 10 + digitOf b))).setNum
    { negative := neg, zero := j + 1 = 1 && b = 0x30, numDigits := j + 1 },
    ?_, rfl, rfl, rfl, ?_, rfl⟩
  · simp [JsonState.inNumber, hb, JsonState.inDigits, hnum, Number.u]
  · simp [JsonState.setU, hmem, Number.u]

/-- The digits of an integer after the first one. -/
theorem leads_integer_digits (htop : m.top = some a) (ha : a < m.heap.length)
    (hd : ∀ c ∈ d, IsDigit c) : ∀ {k : BitVec 64} {j : Nat}, 0 < j →
    Loop.Leads (passStep arith) bytesLeft
      (InNumber text m a (d ++ o) (.integer k) { negative := neg, numDigits := j })
      (InNumber text m a o (.integer (d.foldl (fun n b => n * 10 + digitOf b) k))
        { negative := neg, numDigits := d.length + j }) := by
  induction d with
  | nil =>
    intro k j hj
    rw [List.length_nil, Nat.zero_add]
    exact .refl _
  | cons b d ih =>
    intro k j hj
    obtain ⟨hb, hd⟩ := List.forall_mem_cons.mp hd
    have hzero : (decide (j + 1 = 1) && decide (b = 0x30)) = false := by simp [hj.ne']
    have hfirst : Loop.Leads (passStep arith) bytesLeft
        (InNumber text m a (b :: (d ++ o)) (.integer k) { negative := neg, numDigits := j })
        (InNumber text m a (d ++ o) (.integer (k * 10 + digitOf b))
          { negative := neg, zero := j + 1 = 1 && b = 0x30, numDigits := j + 1 }) :=
      leads_integer_digit htop ha hb
    rw [hzero] at hfirst
    have hrest := ih hd (k := k * 10 + digitOf b) (j := j + 1) (by omega)
    rw [← Nat.add_assoc, Nat.add_right_comm] at hrest
    exact hfirst.trans hrest

/-- **The integer part of a number.** -/
theorem leads_whole {w : Bytes} (htop : m.top = some a) (ha : a < m.heap.length) (hw : IsWhole w) :
    Loop.Leads (passStep arith) bytesLeft
      (InNumber text m a (w ++ o) (.integer 0) { negative := neg })
      (fun s => ∃ z, InNumber text m a o (.integer (digitsValue w))
        { negative := neg, zero := z, numDigits := w.length } s) := by
  cases w with
  | nil => exact fun s hs => ⟨0, s, .refl s, (Nat.zero_add _).le, false, hs⟩
  | cons b d =>
    obtain ⟨hdigits, hzero⟩ := hw
    obtain ⟨hb, hd⟩ := List.forall_mem_cons.mp hdigits
    have hfirst : Loop.Leads (passStep arith) bytesLeft
        (InNumber text m a (b :: (d ++ o)) (.integer 0) { negative := neg })
        (InNumber text m a (d ++ o) (.integer (0 * 10 + digitOf b))
          { negative := neg, zero := 0 + 1 = 1 && b = 0x30, numDigits := 0 + 1 }) :=
      leads_integer_digit htop ha hb
    by_cases hb0 : b = 0x30
    · obtain rfl := (List.cons_eq_cons.mp (hzero (congrArg some hb0))).2
      exact hfirst.mono fun s hs => ⟨_, hs⟩
    · rw [decide_eq_false hb0, Bool.and_false] at hfirst
      exact (hfirst.trans (leads_integer_digits htop ha hd Nat.zero_lt_one)).mono
        fun s hs => ⟨false, hs⟩

/-- The digits of a fraction. -/
theorem leads_fraction_digits (htop : m.top = some a) (ha : a < m.heap.length)
    (hd : ∀ c ∈ d, IsDigit c) : ∀ {y : BitVec 64} {j : Nat},
    Loop.Leads (passStep arith) bytesLeft
      (InNumber text m a (d ++ o) (.double x)
        { negative := neg, zero := z, numDigits := j, numFraction := y })
      (InNumber text m a o (.double x)
        { negative := neg, zero := z, numDigits := d.length + j
          numFraction := d.foldl (fun n b => n * 10 + digitOf b) y }) := by
  induction d with
  | nil =>
    intro y j
    rw [List.length_nil, Nat.zero_add]
    exact .refl _
  | cons b d ih =>
    intro y j
    obtain ⟨hb, hd⟩ := List.forall_mem_cons.mp hd
    have hfirst : Loop.Leads (passStep arith) bytesLeft
        (InNumber text m a (b :: (d ++ o)) (.double x)
          { negative := neg, zero := z, numDigits := j, numFraction := y })
        (InNumber text m a (d ++ o) (.double x)
          { negative := neg, zero := z, numDigits := j + 1
            numFraction := y * 10 + digitOf b }) := by
      refine leads_number htop ha fun s hs => ?_
      obtain ⟨⟨hat, hflags, hmem⟩, hnum⟩ := hs
      refine ⟨s.setNum ⟨neg, z, false, false, false, j + 1, y * 10 + digitOf b, 0⟩, ?_, rfl, rfl,
        rfl, hmem, rfl⟩
      simp [JsonState.inNumber, hb, JsonState.inDigits, hnum, Number.u]
    have hrest := ih hd (y := y * 10 + digitOf b) (j := j + 1)
    rw [← Nat.add_assoc, Nat.add_right_comm] at hrest
    exact hfirst.trans hrest

/-- The digits of an exponent. -/
theorem leads_exponent_digits (htop : m.top = some a) (ha : a < m.heap.length)
    (hd : ∀ c ∈ d, IsDigit c) : ∀ {v : BitVec 64} {j : Nat} {g : Bool}, d ≠ [] →
    Loop.Leads (passStep arith) bytesLeft
      (InNumber text m a (d ++ o) (.double x) ⟨neg, false, true, g, en, j, y, v⟩)
      (InNumber text m a o (.double x) ⟨neg, false, true, true, en, d.length + j, y,
        d.foldl (fun n b => n * 10 + digitOf b) v⟩) := by
  induction d with
  | nil => exact fun h => absurd rfl h
  | cons b d ih =>
    intro v j g _
    obtain ⟨hb, hd⟩ := List.forall_mem_cons.mp hd
    have hfirst : Loop.Leads (passStep arith) bytesLeft
        (InNumber text m a (b :: (d ++ o)) (.double x) ⟨neg, false, true, g, en, j, y, v⟩)
        (InNumber text m a (d ++ o) (.double x)
          ⟨neg, false, true, true, en, j + 1, y, v * 10 + digitOf b⟩) := by
      refine leads_number htop ha fun s hs => ?_
      obtain ⟨⟨hat, hflags, hmem⟩, hnum⟩ := hs
      refine ⟨s.setNum ⟨neg, false, true, true, en, j + 1, y, v * 10 + digitOf b⟩, ?_, rfl, rfl,
        rfl, hmem, rfl⟩
      simp [JsonState.inNumber, hb, JsonState.inDigits, hnum]
    by_cases hne : d = []
    · subst hne
      rw [List.length_singleton, Nat.add_comm]
      exact hfirst
    · have hrest := ih hd (v := v * 10 + digitOf b) (j := j + 1) (g := true) hne
      rw [← Nat.add_assoc, Nat.add_right_comm] at hrest
      exact hfirst.trans hrest

end Digits

/-! ## Mantissa and exponent -/

section Parts

/-- A number without exponent has been read, up to the byte that ends it. -/
inductive AtMantissa (arith : Arithmetic) (text : Bytes) (m : Memory) (a : Nat) (neg : Bool)
    (i : Bytes) : Number → JsonState → Prop
  | integer {k z j s}
      (h : InNumber text m a i (.integer k) { negative := neg, zero := z, numDigits := j } s) :
      AtMantissa arith text m a neg i (.integer k) s
  | fraction {x z j y s} (hj : j ≠ 0)
      (h : InNumber text m a i (.double x)
        { negative := neg, zero := z, numDigits := j, numFraction := y } s) :
      AtMantissa arith text m a neg i (.double (withFraction arith x y j)) s

/-- A number with an exponent has been read, up to the byte that ends it. -/
inductive AtExponent (text : Bytes) (m : Memory) (a : Nat) (neg : Bool) (i : Bytes) (x : Double) :
    BitVec 64 → JsonState → Prop
  | mk {y v j en s} (hj : j ≠ 0)
      (h : InNumber text m a i (.double x) ⟨neg, false, true, true, en, j, y, v⟩ s) :
      AtExponent text m a neg i x (if en then -v else v) s

variable {arith : Arithmetic} {text i o l : Bytes} {m : Memory} {a : Nat} {b : UInt8} {neg : Bool}
  {j : Nat} {k : BitVec 64} {x : Double} {n : Number}

/-- The point. -/
theorem leads_point (htop : m.top = some a) (ha : a < m.heap.length) (hj : j ≠ 0) {z : Bool} :
    Loop.Leads (passStep arith) bytesLeft
      (InNumber text m a (0x2E :: i) (.integer k) { negative := neg, zero := z, numDigits := j })
      (InNumber text m a i (.double (toDouble k)) { negative := neg, zero := z }) := by
  refine leads_number htop ha fun s hs => ?_
  obtain ⟨⟨hat, hflags, hmem⟩, hnum⟩ := hs
  refine ⟨(s.setU a (.double (toDouble k))).setNum { negative := neg, zero := z }, ?_, rfl, rfl,
    rfl, ?_, rfl⟩
  · have hdigit : ¬ IsDigit 0x2E := by decide
    simp [JsonState.inNumber, hdigit, hnum, Number.u, JsonState.decimalPoint, hj]
  · simp [JsonState.setU, hmem, Number.u]

/-- **A number up to its exponent.** -/
theorem leads_mantissa (htop : m.top = some a) (ha : a < m.heap.length)
    (h : Mantissa arith l n) : Loop.Leads (passStep arith) bytesLeft
      (InNumber text m a (l ++ o) (.integer 0) { negative := neg })
      (AtMantissa arith text m a neg o n) := by
  cases h with
  | integer hn => exact (leads_whole htop ha hn).mono fun s ⟨z, hs⟩ => .integer hs
  | @fraction w d hn hne hd hdne =>
    rw [List.append_assoc, List.cons_append]
    refine (leads_whole htop ha hn).trans (.ex fun z => ?_)
    have hlen : w.length ≠ 0 := by simpa using hne
    refine (leads_point htop ha hlen).trans ((leads_fraction_digits htop ha hd).mono fun s hs => ?_)
    rw [Nat.add_zero] at hs
    exact .fraction (by simpa using hdne) hs

/-- The letter of an exponent. -/
theorem leads_exponent_letter (htop : m.top = some a) (ha : a < m.heap.length)
    (hb : b = 0x65 ∨ b = 0x45) : Loop.Leads (passStep arith) bytesLeft
      (AtMantissa arith text m a neg (b :: i) n)
      (fun s => ∃ y,
        InNumber text m a i (.double n.dbl) ⟨neg, false, true, false, false, 0, y, 0⟩ s) := by
  have hdigit : ¬ IsDigit b := by rcases hb with rfl | rfl <;> decide
  have hsign : b ≠ 0x2B ∧ b ≠ 0x2D ∧ b ≠ 0x2E := by rcases hb with rfl | rfl <;> decide
  intro s hs
  cases hs with
  | @integer k z j _ h =>
    refine Loop.Leads.mono (leads_number htop ha fun s hs => ?_) (fun s hs => ⟨0, hs⟩) s h
    obtain ⟨⟨hat, hflags, hmem⟩, hnum⟩ := hs
    refine ⟨(s.setU a (.double (toDouble k))).setNum ⟨neg, false, true, false, false, 0, 0, 0⟩, ?_,
      rfl, rfl, rfl, ?_, rfl⟩
    · simp [JsonState.inNumber, hdigit, hnum, Number.u, hsign, JsonState.endMantissa,
        JsonState.beginExponent, hb]
    · simp [JsonState.setU, hmem, Number.u, Number.dbl]
  | @fraction x z j y _ hj h =>
    refine Loop.Leads.mono (leads_number htop ha fun s hs => ?_) (fun s hs => ⟨y, hs⟩) s h
    obtain ⟨⟨hat, hflags, hmem⟩, hnum⟩ := hs
    refine ⟨(s.setU a (.double (withFraction arith x y j))).setNum
      ⟨neg, false, true, false, false, 0, y, 0⟩, ?_, rfl, rfl, rfl, ?_, rfl⟩
    · simp [JsonState.inNumber, hdigit, hnum, Number.u, JsonState.endMantissa,
        JsonState.beginExponent, hb, hj, withFraction]
    · simp [JsonState.setU, hmem, Number.u, Number.dbl]

/-- The sign of an exponent. -/
theorem leads_exponent_sign (htop : m.top = some a) (ha : a < m.heap.length)
    (hb : b = 0x2B ∨ b = 0x2D) {y : BitVec 64} : Loop.Leads (passStep arith) bytesLeft
      (InNumber text m a (b :: i) (.double x) ⟨neg, false, true, false, false, 0, y, 0⟩)
      (InNumber text m a i (.double x) ⟨neg, false, true, true, b = 0x2D, 0, y, 0⟩) := by
  have hdigit : ¬ IsDigit b := by rcases hb with rfl | rfl <;> decide
  refine leads_number htop ha fun s hs => ?_
  obtain ⟨⟨hat, hflags, hmem⟩, hnum⟩ := hs
  refine ⟨s.setNum ⟨neg, false, true, true, b = 0x2D, 0, y, 0⟩, ?_, rfl, rfl, rfl, hmem, rfl⟩
  simp [JsonState.inNumber, hdigit, hnum, hb]

/-- **The exponent of a number.** -/
theorem leads_exponent (htop : m.top = some a) (ha : a < m.heap.length) {e : BitVec 64}
    (h : Exponent l e) : Loop.Leads (passStep arith) bytesLeft
      (AtMantissa arith text m a neg (l ++ o) n) (AtExponent text m a neg o n.dbl e) := by
  cases h with
  | @mk c sign d hc hsign hd hdne =>
    have hlen : d.length ≠ 0 := by simpa using hdne
    refine (leads_exponent_letter htop ha hc).trans (.ex fun y => ?_)
    have hdigits {g en : Bool} : Loop.Leads (passStep arith) bytesLeft
        (InNumber text m a (d ++ o) (.double n.dbl) ⟨neg, false, true, g, en, 0, y, 0⟩)
        (AtExponent text m a neg o n.dbl (if en then -digitsValue d else digitsValue d)) :=
      (leads_exponent_digits htop ha hd hdne).mono fun s hs => .mk hlen hs
    rcases hsign with rfl | rfl | rfl
    · exact hdigits
    · exact (leads_exponent_sign htop ha (.inr rfl)).trans hdigits
    · exact (leads_exponent_sign htop ha (.inl rfl)).trans hdigits

/-- The byte `b` ends a number without exponent. -/
def EndsMantissa (n : Number) (b : UInt8) : Prop :=
  ¬ IsDigit b ∧ b ≠ 0x65 ∧ b ≠ 0x45 ∧ (b = 0x2E → ∃ x, n = .double x)

/-- A number has been read, and the byte that follows ends it. -/
inductive AtNumberEnd (arith : Arithmetic) (text : Bytes) (m : Memory) (a : Nat) (neg : Bool)
    (i : Bytes) : Number → JsonState → Prop
  | mantissa {n s} (h : AtMantissa arith text m a neg i n s)
      (hend : EndsMantissa n (i.headD 0)) : AtNumberEnd arith text m a neg i n s
  | exponent {x e s} (h : AtExponent text m a neg i x e s) (hend : ¬ IsDigit (i.headD 0)) :
      AtNumberEnd arith text m a neg i (.double (withExponent arith x e)) s

/-- A byte that occurs in no number ends every number. -/
theorem endsMantissa_of_numberEnd (h : NumberEnd o) (n : Number) : EndsMantissa n (o.headD 0) := by
  cases o with
  | nil => exact ⟨by decide, by decide, by decide, fun h => absurd h (by decide)⟩
  | cons c o =>
    have hc : ¬ IsNumberByte c := h c rfl
    refine ⟨fun h => hc (.inl h), fun h => hc ?_, fun h => hc ?_, fun h => absurd ?_ hc⟩
    all_goals
      rw [List.headD_cons] at h
      subst h
      decide

/-- **A number without its sign.** -/
theorem leads_magnitude (htop : m.top = some a) (ha : a < m.heap.length)
    (h : Magnitude arith l n) (hend : NumberEnd o) : Loop.Leads (passStep arith) bytesLeft
      (InNumber text m a (l ++ o) (.integer 0) { negative := neg })
      (AtNumberEnd arith text m a neg o n) := by
  have hstop := endsMantissa_of_numberEnd hend n
  cases h with
  | plain h => exact (leads_mantissa htop ha h).mono fun s hs => .mantissa hs hstop
  | scaled h hx =>
    rw [List.append_assoc]
    exact (leads_mantissa htop ha h).trans
      ((leads_exponent htop ha hx).mono fun s hs => .exponent hs hstop.1)

theorem AtNumberEnd.toAt {s : JsonState} (h : AtNumberEnd arith text m a neg i n s) :
    At text i s := by
  cases h with
  | mantissa h =>
    cases h with
    | integer h => exact h.toAt
    | fraction _ h => exact h.toAt
  | exponent h =>
    cases h with
    | mk _ h => exact h.toAt

/-- A number with its sign. -/
def signedNumber (neg : Bool) (n : Number) : Number := if neg then n.negative else n

theorem endNumber_spec {s : JsonState} {u : JsonU} (hmem : s.mem = m.setU a u)
    (hflags : s.flags = {}) (hneg : s.num.negative = neg) (n : Number) :
    (s.endNumber a n.u).json = s.json ∧ (s.endNumber a n.u).ptr = s.ptr ∧
      (s.endNumber a n.u).flags = { next := true, reproc := true } ∧
      (s.endNumber a n.u).mem = m.setU a (signedNumber neg n).u := by
  refine ⟨rfl, rfl, ?_, ?_⟩
  · simp [JsonState.endNumber, hflags]
  · subst hneg
    cases hnum : s.num.negative <;> cases n <;>
      simp [JsonState.endNumber, JsonState.setU, hmem, hnum, signedNumber, Number.u,
        Number.negative]

/-- **The byte after a number ends it.** -/
theorem iteration_endNumber (htop : m.top = some a) (ha : a < m.heap.length) {s : JsonState}
    (h : AtNumberEnd arith text m a neg i n s) :
    ∃ s' : JsonState, s.iteration arith = s'.endIteration ∧ s'.json = s.json ∧ s'.ptr = s.ptr ∧
      s'.flags = { next := true, reproc := true } ∧ s'.mem = m.setU a (signedNumber neg n).u := by
  cases h with
  | mantissa h hend =>
    obtain ⟨hdigit, he, hE, hpoint⟩ := hend
    cases h with
    | @integer k z j _ h =>
      have hne : i.headD 0 ≠ 0x2E := fun h => by
        obtain ⟨x, hx⟩ := hpoint h
        cases hx
      obtain ⟨hjson, hptr, hflags, hmem⟩ :=
        endNumber_spec h.mem h.flags (by rw [h.num]) (Number.integer k)
      refine ⟨_, ?_, hjson, hptr, hflags, hmem⟩
      rw [iteration_number htop ha h]
      generalize i.headD 0 = b at *
      simp [JsonState.inNumber, hdigit, h.num, Number.u, hne, JsonState.endMantissa,
        JsonState.beginExponent, he, hE, ok_bind]
    | @fraction x z j y _ hj h =>
      obtain ⟨hjson, hptr, hflags, hmem⟩ :=
        endNumber_spec h.mem h.flags (by rw [h.num]) (Number.double (withFraction arith x y j))
      refine ⟨_, ?_, hjson, hptr, hflags, hmem⟩
      rw [iteration_number htop ha h]
      generalize i.headD 0 = b at *
      simp [JsonState.inNumber, hdigit, h.num, Number.u, JsonState.endMantissa, hj,
        JsonState.beginExponent, he, hE, ok_bind, withFraction]
  | exponent h hdigit =>
    cases h with
    | @mk y v j en _ hj h =>
      obtain ⟨hjson, hptr, hflags, hmem⟩ := endNumber_spec h.mem h.flags (by rw [h.num])
        (Number.double (withExponent arith _ (if en then -v else v)))
      refine ⟨_, ?_, hjson, hptr, hflags, hmem⟩
      rw [iteration_number htop ha h]
      generalize i.headD 0 = b at *
      simp [JsonState.inNumber, hdigit, h.num, Number.u, JsonState.endExponent, hj, ok_bind,
        withExponent]

end Parts

/-! ## Spellings that fail -/

section Failing

/-- The pass has failed, with some number in the node. -/
def FailedIn (m : Memory) (a : Nat) (r : PassResult) : Prop :=
  ∃ n : Number, FailedWith (m.setU a n.u) r

variable {arith : Arithmetic} {text i o : Bytes} {m : Memory} {a : Nat} {n : Number} {b : UInt8}
  {neg z g en : Bool} {j : Nat} {k y : BitVec 64} {x : Double} {num : NumState}

/-- Every string begins with digits, or none. -/
theorem exists_digits (i : Bytes) :
    ∃ d o, i = d ++ o ∧ (∀ c ∈ d, IsDigit c) ∧ ¬ IsDigit (o.headD 0) := by
  induction i with
  | nil => exact ⟨[], [], rfl, nofun, by decide⟩
  | cons c i ih =>
    by_cases hc : IsDigit c
    · obtain ⟨d, o, rfl, hd, ho⟩ := ih
      exact ⟨c :: d, o, rfl, List.forall_mem_cons.mpr ⟨hc, hd⟩, ho⟩
    · exact ⟨[], c :: i, rfl, nofun, hc⟩

/-- A byte at which the number fails. -/
theorem stops_number (htop : m.top = some a) (ha : a < m.heap.length)
    (h : ∀ s, InNumber text m a i n num s →
      ∃ s', s.inNumber arith a n.u (i.headD 0) = .error (.failed s') ∧ s'.mem = s.mem) :
    Loop.Stops (passStep arith) bytesLeft (InNumber text m a i n num) (FailedIn m a) := by
  refine .now fun s hs => ?_
  obtain ⟨s', hstep, hmem⟩ := h s hs
  have hfailed : s.iteration arith = .error (.failed s') := by
    rw [iteration_number htop ha hs, hstep, error_bind]
  exact ⟨_, passStep_failed hfailed, n, s', rfl, hmem.trans hs.mem⟩

/-- A digit after a leading zero. -/
theorem stops_zero (htop : m.top = some a) (ha : a < m.heap.length) (hb : IsDigit (i.headD 0)) :
    Loop.Stops (passStep arith) bytesLeft
      (InNumber text m a i (.integer k) { negative := neg, zero := true, numDigits := j })
      (FailedIn m a) := by
  refine stops_number htop ha fun s hs => ?_
  generalize i.headD 0 = b at hb
  exact ⟨s.setNum { negative := neg, zero := true, numDigits := j + 1 },
    by simp [JsonState.inNumber, hb, JsonState.inDigits, hs.num, Number.u], rfl⟩

/-- A point without a digit before it. -/
theorem stops_point (htop : m.top = some a) (ha : a < m.heap.length) :
    Loop.Stops (passStep arith) bytesLeft
      (InNumber text m a (0x2E :: i) (.integer k) { negative := neg, zero := z })
      (FailedIn m a) := by
  refine stops_number htop ha fun s hs => ⟨s, ?_, rfl⟩
  have hdigit : ¬ IsDigit 0x2E := by decide
  simp [JsonState.inNumber, hdigit, hs.num, Number.u, JsonState.decimalPoint]

/-- A fraction without digits. -/
theorem stops_fraction (htop : m.top = some a) (ha : a < m.heap.length)
    (hb : ¬ IsDigit (i.headD 0)) : Loop.Stops (passStep arith) bytesLeft
      (InNumber text m a i (.double x) { negative := neg, zero := z }) (FailedIn m a) := by
  refine stops_number htop ha fun s hs => ⟨s, ?_, rfl⟩
  generalize i.headD 0 = b at hb
  simp [JsonState.inNumber, hb, hs.num, Number.u, JsonState.endMantissa]

/-- An exponent without digits. -/
theorem stops_exponent (htop : m.top = some a) (ha : a < m.heap.length)
    (hb : ¬ IsDigit (i.headD 0)) (hsign : g = true ∨ i.headD 0 ≠ 0x2B ∧ i.headD 0 ≠ 0x2D) :
    Loop.Stops (passStep arith) bytesLeft
      (InNumber text m a i (.double x) ⟨neg, false, true, g, en, 0, y, 0⟩) (FailedIn m a) := by
  refine stops_number htop ha fun s hs => ⟨s, ?_, rfl⟩
  generalize i.headD 0 = b at hb hsign
  rcases hsign with rfl | ⟨hplus, hminus⟩
  · simp [JsonState.inNumber, hb, hs.num, Number.u, JsonState.endExponent]
  · simp [JsonState.inNumber, hb, hs.num, Number.u, JsonState.endExponent, hplus, hminus]

theorem eq_cons_of_headD {i : Bytes} {b : UInt8} (h : i.headD 0 = b) (hb : b ≠ 0) :
    ∃ i', i = b :: i' := by
  cases i with
  | nil => exact absurd h.symm hb
  | cons c i => exact ⟨i, congrArg (· :: i) h⟩

/-- Digits with a leading zero that they should not have. -/
theorem zero_digit_of_not_whole {w : Bytes} (hw : ∀ c ∈ w, IsDigit c) (h : ¬ IsWhole w) :
    ∃ c w', w = 0x30 :: c :: w' ∧ IsDigit c := by
  simp only [IsWhole, not_and, Classical.not_imp] at h
  obtain ⟨hhead, hne⟩ := h hw
  cases w with
  | nil => cases hhead
  | cons c w =>
    obtain rfl := Option.some.inj hhead
    cases w with
    | nil => exact absurd rfl hne
    | cons c w => exact ⟨c, w, rfl, hw c (by simp)⟩

/-- Up to its exponent, a number is read, or the pass fails. -/
theorem mantissa_or_stops (htop : m.top = some a) (ha : a < m.heap.length) (i : Bytes) :
    (∃ l n o, i = l ++ o ∧ Mantissa arith l n ∧ ¬ IsDigit (o.headD 0) ∧
      (o.headD 0 = 0x2E → ∃ x, n = .double x)) ∨
      Loop.Stops (passStep arith) bytesLeft
        (InNumber text m a i (.integer 0) { negative := neg }) (FailedIn m a) := by
  obtain ⟨w, r, rfl, hw, hr⟩ := exists_digits i
  by_cases hwhole : IsWhole w
  swap
  · obtain ⟨c, w, rfl, hc⟩ := zero_digit_of_not_whole hw hwhole
    have hzero : Loop.Leads (passStep arith) bytesLeft
        (InNumber text m a (0x30 :: (c :: w ++ r)) (.integer 0) { negative := neg })
        (InNumber text m a (c :: w ++ r) (.integer (0 * 10 + digitOf 0x30))
          { negative := neg, zero := true, numDigits := 1 }) :=
      leads_integer_digit htop ha (by decide)
    exact .inr (hzero.stops (stops_zero htop ha hc))
  by_cases hpoint : r.headD 0 = 0x2E
  swap
  · exact .inl ⟨w, _, r, rfl, .integer hwhole, hr, fun h => absurd h hpoint⟩
  obtain ⟨r, rfl⟩ := eq_cons_of_headD hpoint (by decide)
  by_cases hne : w = []
  · subst hne
    exact .inr (stops_point htop ha)
  obtain ⟨d, o, rfl, hd, ho⟩ := exists_digits r
  by_cases hdne : d = []
  · subst hdne
    refine .inr ((leads_whole htop ha hwhole).stops (.ex fun z => ?_))
    exact (leads_point htop ha (by simpa using hne)).stops (stops_fraction htop ha ho)
  · refine .inl ⟨w ++ 0x2E :: d, _, o, ?_, .fraction hwhole hne hd hdne, ho, fun _ => ⟨_, rfl⟩⟩
    rw [List.append_assoc]
    rfl

/-- From its exponent on, a number is read, or the pass fails. -/
theorem exponent_or_stops (htop : m.top = some a) (ha : a < m.heap.length) {c : UInt8}
    (hc : c = 0x65 ∨ c = 0x45) (i : Bytes) :
    (∃ l e o, c :: i = l ++ o ∧ Exponent l e ∧ ¬ IsDigit (o.headD 0)) ∨
      Loop.Stops (passStep arith) bytesLeft (AtMantissa arith text m a neg (c :: i) n)
        (FailedIn m a) := by
  by_cases hsign : i.headD 0 = 0x2B ∨ i.headD 0 = 0x2D
  · obtain ⟨b, i, rfl, hb⟩ : ∃ b i', i = b :: i' ∧ (b = 0x2B ∨ b = 0x2D) := by
      rcases hsign with h | h
      · obtain ⟨i', rfl⟩ := eq_cons_of_headD h (by decide)
        exact ⟨_, i', rfl, .inl rfl⟩
      · obtain ⟨i', rfl⟩ := eq_cons_of_headD h (by decide)
        exact ⟨_, i', rfl, .inr rfl⟩
    obtain ⟨d, o, rfl, hd, ho⟩ := exists_digits i
    by_cases hdne : d = []
    · subst hdne
      refine .inr ((leads_exponent_letter htop ha hc).stops (.ex fun y => ?_))
      exact (leads_exponent_sign htop ha hb).stops (stops_exponent htop ha ho (.inl rfl))
    · refine .inl ⟨c :: ([b] ++ d), _, o, rfl, .mk hc ?_ hd hdne, ho⟩
      rcases hb with rfl | rfl
      · exact .inr (.inr rfl)
      · exact .inr (.inl rfl)
  · obtain ⟨d, o, rfl, hd, ho⟩ := exists_digits i
    by_cases hdne : d = []
    · subst hdne
      refine .inr ((leads_exponent_letter htop ha hc).stops (.ex fun y => ?_))
      exact stops_exponent htop ha ho (.inr (not_or.mp hsign))
    · exact .inl ⟨c :: ([] ++ d), _, o, rfl, .mk hc (.inl rfl) hd hdne, ho⟩

/-- **A number without its sign is read, or the pass fails.** -/
theorem magnitude_or_stops (arith : Arithmetic) (text : Bytes) (neg : Bool)
    (htop : m.top = some a) (ha : a < m.heap.length) (i : Bytes) :
    (∃ l n o, i = l ++ o ∧ Magnitude arith l n ∧ ¬ IsDigit (o.headD 0) ∧
      Loop.Leads (passStep arith) bytesLeft (InNumber text m a i (.integer 0) { negative := neg })
        (AtNumberEnd arith text m a neg o n)) ∨
      Loop.Stops (passStep arith) bytesLeft
        (InNumber text m a i (.integer 0) { negative := neg }) (FailedIn m a) := by
  obtain ⟨l, n, o, rfl, hl, hdigit, hpoint⟩ | h := mantissa_or_stops htop ha i
  swap
  · exact .inr h
  have hmantissa : Loop.Leads (passStep arith) bytesLeft
      (InNumber text m a (l ++ o) (.integer 0) { negative := neg })
      (AtMantissa arith text m a neg o n) := leads_mantissa htop ha hl
  by_cases he : o.headD 0 = 0x65 ∨ o.headD 0 = 0x45
  swap
  · obtain ⟨he, hE⟩ := not_or.mp he
    exact .inl ⟨l, n, o, rfl, .plain hl, hdigit,
      hmantissa.mono fun s hs => .mantissa hs ⟨hdigit, he, hE, hpoint⟩⟩
  obtain ⟨c, o, rfl, hc⟩ : ∃ c o', o = c :: o' ∧ (c = 0x65 ∨ c = 0x45) := by
    cases o with
    | nil => exact absurd he (by decide)
    | cons c o => exact ⟨c, o, rfl, he⟩
  obtain ⟨x, e, o', heq, hx, ho'⟩ | h := exponent_or_stops htop ha hc o
  · rw [heq] at hmantissa ⊢
    refine .inl ⟨l ++ x, _, o', (List.append_assoc _ _ _).symm, .scaled hl hx, ho', ?_⟩
    exact hmantissa.trans ((leads_exponent htop ha hx).mono fun s hs => .exponent hs ho')
  · exact .inr (hmantissa.stops h)

end Failing

/-! ## The beginning of a number -/

section Begin

variable {arith : Arithmetic} {text i o l : Bytes} {m m₁ m' : Memory} {c : UInt8} {f : Flags}
  {n : Number} {s : JsonState}

theorem beginValue_number (hc : IsDigit c ∨ c = 0x2D) (s : JsonState) :
    s.beginValue c = s.beginNumber c := by
  unfold JsonState.beginValue
  split_ifs with h1 h2 h3 h4 h5 h6
  · exact absurd (h1 ▸ hc) (by decide)
  · exact absurd (h2 ▸ hc) (by decide)
  · exact absurd (h3 ▸ hc) (by decide)
  · exact absurd (h4 ▸ hc) (by decide)
  · exact absurd (h5 ▸ hc) (by decide)
  · exact absurd (h6 ▸ hc) (by decide)
  · rfl

theorem isSpace_number (hc : IsDigit c ∨ c = 0x2D) : isSpace c = false := by
  by_contra h
  rw [Bool.not_eq_false] at h
  simp only [isSpace, Bool.or_eq_true, decide_eq_true_eq] at h
  rcases h with ((rfl | rfl) | rfl) | rfl <;> exact absurd hc (by decide)

/-- Where a value is looked for, a digit or a minus sign begins a number. -/
theorem iteration_beginNumber (hc : IsDigit c ∨ c = 0x2D)
    (hs : On text ⟨c :: i, { seekValue := true }, m⟩ s) : s.iteration arith =
      ((s.setFlags {}).beginNumber c >>= fun s => s.endIteration) := by
  have hbracket : c ≠ 0x5D := by
    rintro rfl
    exact absurd hc (by decide)
  rw [iteration_begin hs (isSpace_number hc) hbracket, List.headD_cons, beginValue_number hc]

/-- The first pass begins with a digit. -/
theorem passStep_digit (arith : Arithmetic) (hfirst : m.firstPass = true)
    (hnew : m.newValue (.integer 0) = .ok m₁)
    (hc : IsDigit c) (hs : On text ⟨c :: i, { seekValue := true }, m⟩ s) :
    ∃ s', passStep arith s = .ok s' ∧
      InNumber text m₁ m.heap.length (c :: i) (.integer 0) { negative := false } s' := by
  obtain ⟨-, -, hset, hfirst'⟩ := Memory.newValue_first hfirst hnew
  have hminus : c ≠ 0x2D := by
    rintro rfl
    exact absurd hc (by decide)
  have hnew' : (s.setFlags {}).mem.newValue (.integer 0) = .ok m₁ := by
    rw [JsonState.setFlags_mem, hs.mem, hnew]
  have hnext : s.iteration arith = .ok ((((s.setFlags {}).setMemory m₁).setNum {}).move (-1)) := by
    rw [iteration_beginNumber (.inl hc) hs, JsonState.beginNumber, newValue_ok hnew', ok_bind]
    simp [hfirst', hminus, ok_bind, JsonState.endIteration, JsonState.move, JsonState.setFlags,
      JsonState.setNum]
  refine ⟨_, passStep_ok hnext, ⟨⟨hs.toAt.congr rfl ?_, rfl, hset.symm⟩, rfl⟩⟩
  simp

/-- The first pass begins with a minus sign. -/
theorem passStep_minus (arith : Arithmetic) (hfirst : m.firstPass = true)
    (hnew : m.newValue (.integer 0) = .ok m₁)
    (hs : On text ⟨minus :: i, { seekValue := true }, m⟩ s) :
    ∃ s', passStep arith s = .ok s' ∧
      InNumber text m₁ m.heap.length i (.integer 0) { negative := true } s' := by
  obtain ⟨-, -, hset, hfirst'⟩ := Memory.newValue_first hfirst hnew
  have hnew' : (s.setFlags {}).mem.newValue (.integer 0) = .ok m₁ := by
    rw [JsonState.setFlags_mem, hs.mem, hnew]
  have hnext : s.iteration arith =
      .error (.next (((s.setFlags {}).setMemory m₁).setNum { negative := true })) := by
    rw [iteration_beginNumber (.inr rfl) hs, JsonState.beginNumber, newValue_ok hnew', ok_bind]
    simp [hfirst', error_bind]
  exact ⟨_, passStep_next hnext, ⟨⟨.move (hs.toAt.congr rfl rfl), rfl, hset.symm⟩, rfl⟩⟩

theorem At.bytesLeft_eq (h : At text i s) : bytesLeft s = i.length := by
  rw [bytesLeft, h.unread, Int.toNat_natCast]

/-- A number that has begun, to its end: one step for each byte, and one for the end. -/
theorem steps_number {a : Nat} {neg : Bool} (htop : m₁.top = some a) (ha : a < m₁.heap.length)
    (hs : InNumber text m₁ a i (.integer 0) { negative := neg } s)
    (h : Loop.Leads (passStep arith) bytesLeft
      (InNumber text m₁ a i (.integer 0) { negative := neg }) (AtNumberEnd arith text m₁ a neg o n))
    (hends : Ends (m₁.setU a (signedNumber neg n).u) f m') :
    ∃ k s', Loop.Steps (passStep arith) k s s' ∧ k + o.length ≤ i.length + 1 ∧
      On text ⟨o, f, m'⟩ s' := by
  obtain ⟨k, s₁, hsteps, hk, hs₁⟩ := h s hs
  obtain ⟨s₂, hiter, hjson, hptr, hflags, hmem⟩ := iteration_endNumber htop ha hs₁
  obtain ⟨s', hlast, hs'⟩ := passStep_ends_before hiter (hs₁.toAt.congr hjson hptr) hflags
    (by rw [hmem]; exact hends)
  have hat : At text i s := hs.toAt
  rw [hat.bytesLeft_eq, hs₁.toAt.bytesLeft_eq] at hk
  exact ⟨k + 1, s', hsteps.trans (.one hlast), by omega, hs'⟩

theorem leads_positive (hfirst : m.firstPass = true) (hnew : m.newValue (.integer 0) = .ok m₁)
    (hc : IsDigit c) (hlen : o.length ≤ i.length)
    (h : Loop.Leads (passStep arith) bytesLeft
      (InNumber text m₁ m.heap.length (c :: i) (.integer 0) { negative := false })
      (AtNumberEnd arith text m₁ m.heap.length false o n))
    (hends : Ends (m₁.setU m.heap.length n.u) f m') :
    Loop.Leads (passStep arith) potential (On text ⟨c :: i, { seekValue := true }, m⟩)
      (On text ⟨o, f, m'⟩) := by
  obtain ⟨htop, ha, -, -⟩ := Memory.newValue_first hfirst hnew
  intro s hs
  obtain ⟨s₁, hstep, hs₁⟩ := passStep_digit arith hfirst hnew hc hs
  obtain ⟨k, s', hsteps, hk, hs'⟩ := steps_number htop ha hs₁ h hends
  have hat : At text (c :: i) s := hs.toAt
  have hat' : At text o s' := hs'.toAt
  refine ⟨k + 1, s', .step hstep hsteps, ?_, hs'⟩
  rw [hat.potential_eq, hat'.potential_eq]
  rw [List.length_cons] at hk ⊢
  omega

theorem leads_negative (hfirst : m.firstPass = true) (hnew : m.newValue (.integer 0) = .ok m₁)
    (hlen : o.length ≤ i.length)
    (h : Loop.Leads (passStep arith) bytesLeft
      (InNumber text m₁ m.heap.length i (.integer 0) { negative := true })
      (AtNumberEnd arith text m₁ m.heap.length true o n))
    (hends : Ends (m₁.setU m.heap.length n.negative.u) f m') :
    Loop.Leads (passStep arith) potential (On text ⟨minus :: i, { seekValue := true }, m⟩)
      (On text ⟨o, f, m'⟩) := by
  obtain ⟨htop, ha, -, -⟩ := Memory.newValue_first hfirst hnew
  intro s hs
  obtain ⟨s₁, hstep, hs₁⟩ := passStep_minus arith hfirst hnew hs
  obtain ⟨k, s', hsteps, hk, hs'⟩ := steps_number htop ha hs₁ h hends
  have hat : At text (minus :: i) s := hs.toAt
  have hat' : At text o s' := hs'.toAt
  refine ⟨k + 1, s', .step hstep hsteps, ?_, hs'⟩
  rw [hat.potential_eq, hat'.potential_eq, List.length_cons]
  omega

/-- **The first pass reads a number into a new node.** -/
theorem leads_firstNumber (hfirst : m.firstPass = true) (hnew : m.newValue (.integer 0) = .ok m₁)
    (hl : IsNumber arith l n) (hend : NumberEnd o)
    (hends : Ends (m₁.setU m.heap.length n.u) f m') :
    Loop.Leads (passStep arith) potential (On text ⟨l ++ o, { seekValue := true }, m⟩)
      (On text ⟨o, f, m'⟩) := by
  obtain ⟨htop, ha, -, -⟩ := Memory.newValue_first hfirst hnew
  cases hl with
  | positive hc h =>
    exact leads_positive hfirst hnew hc (by simp) (leads_magnitude htop ha h hend) hends
  | negative h =>
    exact leads_negative hfirst hnew (by simp) (leads_magnitude htop ha h hend) hends

/-- **The first pass reads a number, or it fails in its node.** -/
theorem firstNumber_or_stops (arith : Arithmetic) (text i : Bytes) (hfirst : m.firstPass = true)
    (hnew : m.newValue (.integer 0) = .ok m₁) (hc : IsDigit c ∨ c = minus) :
    (∃ l n o, c :: i = l ++ o ∧ IsNumber arith l n ∧
      ∀ f m', Ends (m₁.setU m.heap.length n.u) f m' →
        Loop.Leads (passStep arith) potential (On text ⟨c :: i, { seekValue := true }, m⟩)
          (On text ⟨o, f, m'⟩)) ∨
      Loop.Stops (passStep arith) potential (On text ⟨c :: i, { seekValue := true }, m⟩)
        (FailedIn m₁ m.heap.length) := by
  obtain ⟨htop, ha, -, -⟩ := Memory.newValue_first hfirst hnew
  rcases hc with hc | rfl
  · obtain ⟨l, n, o, heq, hl, hdigit, h⟩ | h :=
      magnitude_or_stops arith text false htop ha (c :: i)
    · cases l with
      | nil =>
        obtain rfl : c :: i = o := heq
        exact absurd hc hdigit
      | cons c' l =>
        obtain ⟨rfl, rfl⟩ := List.cons_eq_cons.mp heq
        exact .inl ⟨_, n, o, rfl, .positive hc hl, fun f m' hends =>
          leads_positive hfirst hnew hc (by simp) h hends⟩
    · refine .inr fun s hs => ?_
      obtain ⟨s₁, hstep, hs₁⟩ := passStep_digit arith hfirst hnew hc hs
      obtain ⟨k, s', e, hsteps, hk, hfailed⟩ := h s₁ hs₁
      have hat : At text (c :: i) s := hs.toAt
      have hat₁ : At text (c :: i) s₁ := hs₁.toAt
      refine ⟨k + 1, s', e, .step hstep hsteps, ?_, hfailed⟩
      rw [hat₁.bytesLeft_eq] at hk
      rw [hat.potential_eq]
      rw [List.length_cons] at hk ⊢
      omega
  · obtain ⟨l, n, o, rfl, hl, -, h⟩ | h := magnitude_or_stops arith text true htop ha i
    · exact .inl ⟨minus :: l, n.negative, o, rfl, .negative hl, fun f m' hends =>
        leads_negative hfirst hnew (by simp) h hends⟩
    · refine .inr fun s hs => ?_
      obtain ⟨s₁, hstep, hs₁⟩ := passStep_minus arith hfirst hnew hs
      obtain ⟨k, s', e, hsteps, hk, hfailed⟩ := h s₁ hs₁
      have hat : At text (minus :: i) s := hs.toAt
      have hat₁ : At text i s₁ := hs₁.toAt
      refine ⟨k + 1, s', e, .step hstep hsteps, ?_, hfailed⟩
      rw [hat₁.bytesLeft_eq] at hk
      rw [hat.potential_eq, List.length_cons]
      omega

/-! ### The second pass -/

theorem isNumberChar_iff (b : UInt8) : isNumberChar b = true ↔ IsNumberByte b := by
  simp only [isNumberChar, IsNumberByte, Bool.or_eq_true, decide_eq_true_eq, minus]
  tauto

/-- The second pass skips what the first one has read. -/
theorem numberLength_eq (hl : ∀ c ∈ l, IsNumberByte c) (hend : NumberEnd o) :
    numberLength (l ++ o) = l.length := by
  induction l with
  | nil =>
    cases o with
    | nil => rfl
    | cons c o =>
      have hc : ¬ isNumberChar c = true := fun h => hend c rfl ((isNumberChar_iff c).mp h)
      exact if_neg hc
  | cons c l ih =>
    obtain ⟨hc, hl⟩ := List.forall_mem_cons.mp hl
    rw [List.cons_append, numberLength, if_pos ((isNumberChar_iff c).mpr hc), ih hl]
    rfl

/-- **The second pass skips a number, and takes the next node.** -/
theorem leads_secondNumber (hsecond : m.firstPass = false)
    (hnew : m.newValue (.integer 0) = .ok m₁) (hl : IsNumber arith l n) (hend : NumberEnd o)
    (hends : Ends m₁ f m') :
    Loop.Leads (passStep arith) potential (On text ⟨l ++ o, { seekValue := true }, m⟩)
      (On text ⟨o, f, m'⟩) := by
  intro s hs
  have hskip := numberLength_eq hl.isNumberByte hend
  obtain ⟨c, l', rfl, hc⟩ := hl.head
  have hs : On text ⟨c :: (l' ++ o), { seekValue := true }, m⟩ s := hs
  have hnew' : (s.setFlags {}).mem.newValue (.integer 0) = .ok m₁ := by
    rw [JsonState.setFlags_mem, hs.mem, hnew]
  have hsecond' : m₁.firstPass = false := Memory.newValue_firstPass hnew ▸ hsecond
  have hiter : s.iteration arith =
      ((s.setFlags {}).setMemory m₁).skipNumber.endIteration := by
    rw [iteration_beginNumber hc hs, JsonState.beginNumber, newValue_ok hnew', ok_bind]
    simp [hsecond', ok_bind]
  obtain ⟨pre, htext, hptr⟩ := hs.toAt.ptr
  have hdrop : s.json.drop s.ptr.toNat = c :: l' ++ o := by
    rw [hs.toAt.json, htext, hptr, Int.toNat_natCast, List.drop_left]
    rfl
  have hat : At text o ((s.setFlags {}).setMemory m₁).skipNumber := by
    refine ⟨hs.toAt.json, pre ++ c :: l', ?_, ?_⟩
    · rw [htext, List.append_assoc]
      rfl
    · have hskipped : ((s.setFlags {}).setMemory m₁).skipNumber.ptr =
          s.ptr + numberLength (s.json.drop s.ptr.toNat) := rfl
      rw [hskipped, hdrop, hskip, hptr, List.length_append]
      rfl
  obtain ⟨s', hstep, hs'⟩ := passStep_ends_before hiter hat rfl hends
  have hat' : At text o s' := hs'.toAt
  refine ⟨1, s', .one hstep, ?_, hs'⟩
  have hfull : At text (c :: (l' ++ o)) s := hs.toAt
  rw [hfull.potential_eq, hat'.potential_eq]
  simp only [List.length_append, List.length_cons]
  omega

end Begin

end Ssms.Json

import Ssms.Amf0.Grammar

/-!
# What `srs_amf0_read_any` accepts

`reads_any`: on every cursor, `srsAmf0ReadAny` decides the relation `Derives decoder`: it returns a
value exactly when the unread bytes begin with a derivation of it, it stops where the derivation
stops, and otherwise it fails with an error value. No run ends in a fault, so the fuel of the model
is never used up, and the fuel-free equation of the source holds (`srsAmf0ReadAny_eq`).

The recursion is on the number of unread bytes. A container reads its marker before it reads a
value, and a property its key, so the hypotheses about the recursive call are needed only on cursors
with fewer unread bytes.
-/

namespace Ssms.Amf0

open Ssms.Kernel Ssms.Kernel.SrsBuffer Ssms.Lib.BigEndian Ssms.Lib.Reading Ssms.Protocol

/-! ## Items -/

theorem reads_marker (marker : UInt8) (short invalid : String) (b : SrsBuffer) :
    Reads (readMarker marker short invalid) (fun i _ o => i = marker :: o) b := by
  unfold readMarker
  rw [← bind_assoc]
  refine ((reads_read1bytes _ _ _ b).bind (Q := fun m i _ o => m = marker ∧ o = i)
    fun m b' _ _ => ?_).congr fun a o => ?_
  · by_cases hm : m = marker
    · rw [if_neg (not_not_intro hm)]
      exact (Implements.pure () b').congr fun a o => by simp [hm]
    · rw [if_pos hm]
      exact (reads_srsErrorNew _ _ _ b').congr fun a o => by simp [hm]
  · constructor
    · rintro ⟨m, i', h, rfl, rfl⟩
      exact h
    · intro h
      exact ⟨marker, o, h, rfl, rfl⟩

theorem reads_utf8 (value : Bytes) (b : SrsBuffer) :
    Reads (srsAmf0ReadUtf8 value) (decodedUtf8 value) b := by
  unfold srsAmf0ReadUtf8
  rw [← bind_assoc]
  refine ((reads_readBe 16 two_pos _ _ _ b).bind (Q := fun len i s o =>
    (len.toInt ≤ 0 ∧ s = value ∧ o = i) ∨
      (0 < len.toInt ∧ s.length = len.toInt.toNat ∧ i = s ++ o)) fun len b' _ _ => ?_).congr
    fun s o => ?_
  · by_cases hlen : len.toInt ≤ 0
    · rw [if_pos hlen]
      exact (Implements.pure value b').congr fun s o => by simp [hlen, not_lt.mpr hlen]
    · rw [if_neg hlen]
      have hpos : 0 < len.toInt.toNat := by omega
      have hcast : ((len.toInt.toNat : Nat) : Int) = len.toInt := by omega
      have h := reads_readString hpos errorRtmpAmf0Decode "requires %d only %d bytes"
        [.int len.toInt] b'
      rw [hcast] at h
      exact h.congr fun s o => by simp [hlen, not_le.mp hlen]
  · constructor
    · rintro ⟨len, r, ⟨l, hl, hi, rfl⟩, h⟩
      exact ⟨l, r, hl, hi, h⟩
    · rintro ⟨l, r, hl, hi, h⟩
      exact ⟨_, r, ⟨l, hl, hi, rfl⟩, h⟩

theorem reads_objectEof (b : SrsBuffer) :
    Reads SrsAmf0ObjectEOF.read (fun i _ o => i = encodeObjectEof ++ o) b := by
  unfold SrsAmf0ObjectEOF.read
  rw [← bind_assoc]
  refine ((reads_readBe 16 two_pos _ _ _ b).bind (Q := fun temp i _ o =>
    temp = 0x00 ∧ i = rtmpAmf0ObjectEnd :: o) fun temp b' _ _ => ?_).congr fun a o => ?_
  · by_cases htemp : temp = 0x00
    · rw [if_neg (not_not_intro htemp)]
      exact (reads_marker _ _ _ b').congr fun a o => ⟨fun h => ⟨htemp, h⟩, fun h => h.2⟩
    · rw [if_pos htemp]
      exact (reads_srsErrorNew _ _ _ b').congr fun a o => ⟨False.elim, fun h => htemp h.1⟩
  · have hzero : ∀ l : Bytes, l.length = 2 → (BitVec.ofNat 16 (ofBytes l) = 0x00 ↔ l = [0, 0]) :=
      fun l hl => ofNat_ofBytes_inj [0, 0] (by rw [hl]) hl
    constructor
    · rintro ⟨temp, i', ⟨l, hl, hi, rfl⟩, htemp, rfl⟩
      rw [(hzero l hl).mp htemp] at hi
      exact hi
    · intro hi
      exact ⟨0x00, rtmpAmf0ObjectEnd :: o, ⟨[0, 0], rfl, hi, rfl⟩, rfl, rfl⟩

/-- The peek sees exactly the end marker, and does not move. -/
theorem isObjectEof_run (b : SrsBuffer) :
    srsAmf0IsObjectEof b = .ok (decide (AtObjectEof b.rest)) b := by
  unfold srsAmf0IsObjectEof
  rw [get_bind]
  by_cases hlen : 3 ≤ b.rest.length
  · have hreq : b.require 3 = true := (b.require_iff three_pos).mpr hlen
    have hskip : skip (-3) (b.advance 3) = .ok () b := skip_back three_pos hlen
    have hflag : 0x09 = BitVec.ofNat 32 (ofBytes (b.rest.take 3)) ↔ AtObjectEof b.rest := by
      have htake : (b.rest.take 3).length = 3 := by rw [List.length_take]; omega
      unfold AtObjectEof
      rw [eq_comm, List.prefix_iff_eq_take, eq_comm (a := encodeObjectEof)]
      exact ofNat_ofBytes_inj encodeObjectEof (by rw [htake]; omega) htake
    rw [hreq, if_pos rfl, read3bytes, bind_ok (readBe_run (le_left three_pos hlen)),
      bind_ok hskip, ← decide_eq_decide.mpr hflag]
    rfl
  · have hreq : ¬ b.require 3 = true := fun h => hlen ((b.require_iff three_pos).mp h)
    have hno : ¬ AtObjectEof b.rest := fun h => hlen h.length_le
    rw [if_neg hreq, decide_eq_false hno]
    rfl

/-! ## Discovery -/

/-- What `discovery` sees in the unread bytes. -/
def discovered (i : Bytes) : Option SrsAmf0Any :=
  if AtObjectEof i then some .objectEOF else i.head?.bind SrsAmf0Any.ofMarker

theorem reads_discovery (b : SrsBuffer) :
    Reads SrsAmf0Any.discovery (fun i v o => discovered i = some v ∧ o = i) b := by
  unfold SrsAmf0Any.discovery
  by_cases heof : AtObjectEof b.rest
  · have hrun : bufferReading.view b = b.rest := rfl
    refine ((Implements.pure .objectEOF b).congr fun v o => ?_).of_eq ?_
    · unfold discovered
      rw [hrun, if_pos heof, Option.some_inj, eq_comm]
    · rw [bind_ok (isObjectEof_run b), decide_eq_true heof]
      rfl
  · have hsee : discovered b.rest = b.rest.head?.bind SrsAmf0Any.ofMarker := if_neg heof
    have hpeek : ∀ m : Exec SrsAmf0Any, (srsAmf0IsObjectEof >>= fun eof =>
        if eof = true then pure .objectEOF else m) b = m b := by
      intro m
      rw [bind_ok (isObjectEof_run b), decide_eq_false heof]
      rfl
    refine Implements.of_eq ?_ (hpeek _)
    have hread := reads_read1bytes errorRtmpAmf0Decode "marker requires 1 only %d bytes" [] b
    rw [← bind_assoc]
    cases hr : b.rest with
    | nil =>
      refine (hread.bind (Q := fun _ _ _ _ => False) fun m b' hrun hadv => ?_).congr fun v o => ?_
      · have hcons : b.rest = m :: b'.rest := hread.sound hrun
        rw [hr] at hcons
        exact absurd hcons (by simp)
      · show _ ↔ discovered b.rest = some v ∧ _
        rw [hsee, hr]
        simp
    | cons m l =>
      obtain ⟨b', hrun, hadv, hview⟩ := hread.complete (a := m) (o := l) hr
      have hb' : b' = b.advance 1 := eq_advance_of_view (l := [m]) hadv hr hview
      have hskip : skip (-1) (b.advance 1) = .ok () b :=
        skip_back one_pos (by rw [hr, List.length_cons]; exact Nat.le_add_left 1 _)
      have hsee' : discovered (bufferReading.view b) = SrsAmf0Any.ofMarker m := by
        show discovered b.rest = _
        rw [hsee, hr]
        rfl
      cases hm : SrsAmf0Any.ofMarker m with
      | some v =>
        refine ((Implements.pure v b).congr fun v' o => ?_).of_eq ?_
        · rw [hsee', hm, Option.some_inj, eq_comm]
        · rw [bind_ok hrun, hb', bind_ok hskip]
          simp only [hm]
      | none =>
        refine ((reads_srsErrorNew errorRtmpAmf0Invalid "invalid amf0 message, marker=%#x"
          [MsgArg.ofChar m] b).congr fun v' o => ?_).of_eq ?_
        · rw [hsee', hm]
          simp
        · rw [bind_ok hrun, hb', bind_ok hskip]
          simp only [hm]

/-- `discovery` yields what it sees, and does not move. -/
theorem discovery_run {b : SrsBuffer} {v : SrsAmf0Any} (h : discovered b.rest = some v) :
    SrsAmf0Any.discovery b = .ok v b := by
  obtain ⟨b', hrun, hadv, hview⟩ := (reads_discovery b).complete (o := b.rest) ⟨h, rfl⟩
  rwa [eq_advance_of_view (l := []) hadv rfl hview] at hrun

/-! ## Containers -/

section Containers

variable {readAny : Exec SrsAmf0Any} {N : Nat}

/-- The recursive call is right on cursors with fewer than `N` unread bytes. -/
def ReadsBelow (readAny : Exec SrsAmf0Any) (N : Nat) : Prop :=
  ∀ b : SrsBuffer, b.rest.length < N →
    Reads readAny (fun i v o => Derives decoder i (.any v) o) b

theorem decodedUtf8_length {value i name o : Bytes} (h : decodedUtf8 value i name o) :
    o.length < i.length := by
  obtain ⟨l, r, hl, rfl, h⟩ := h
  rw [List.length_append, hl]
  rcases h with ⟨-, -, rfl⟩ | ⟨-, -, rfl⟩
  · omega
  · rw [List.length_append]
    omega

/-- Moving forward leaves no more unread bytes than there were. -/
theorem length_le_of_adv {b b' : SrsBuffer} (h : bufferReading.Adv b b') :
    b'.rest.length ≤ b.rest.length := by
  obtain ⟨n, -, rfl⟩ := h
  rw [rest_advance, List.length_drop]
  omega

/-- The property loop. A key takes two bytes, so the fuel outlasts the input. -/
theorem reads_properties (hread : ReadsBelow readAny N) : ∀ (fuel : Nat)
    (acc : List (Bytes × SrsAmf0Any)) (b : SrsBuffer), b.rest.length < N → b.rest.length < fuel →
    Reads (readProperties readAny fuel acc)
      (fun i ps o => Derives decoder i (.properties acc ps) o) b
  | 0, _, _, _, hfuel => absurd hfuel (Nat.not_lt_zero _)
  | fuel + 1, acc, b, hN, hfuel => by
    have hview : bufferReading.view b = b.rest := rfl
    unfold readProperties
    by_cases hnil : b.rest = []
    · refine ((Implements.pure acc b).congr fun ps o => ?_).of_eq
        (by rw [get_bind, if_pos (b.empty_iff.mpr hnil)])
      rw [derives_properties_iff, hview, hnil]
      constructor
      · rintro ⟨rfl, rfl⟩
        exact Or.inr (Or.inl ⟨trivial, rfl, rfl, rfl⟩)
      · rintro (⟨hi, -⟩ | ⟨-, -, rfl, rfl⟩ | ⟨-, name, i₁, hname, -⟩)
        · exact absurd hi (by simp [encodeObjectEof])
        · exact ⟨rfl, rfl⟩
        · exact absurd (decodedUtf8_length hname) (Nat.not_lt_zero _)
    · have hempty : ¬ b.empty = true := fun h => hnil (b.empty_iff.mp h)
      by_cases heof : AtObjectEof b.rest
      · refine (((reads_wrapping "read EOF" [] (reads_objectEof b)).bind
          (fun _ b' _ _ => Implements.pure acc b')).congr fun ps o => ?_).of_eq ?_
        · rw [derives_properties_iff, hview]
          constructor
          · rintro ⟨_, i', hi, rfl, rfl⟩
            exact Or.inl ⟨hi, rfl⟩
          · rintro (⟨hi, rfl⟩ | ⟨-, hi, -⟩ | ⟨hno, -⟩)
            · exact ⟨(), o, hi, rfl, rfl⟩
            · exact absurd hi hnil
            · exact absurd heof hno
        · rw [get_bind, if_neg hempty, bind_ok (isObjectEof_run b), decide_eq_true heof]
          rfl
      · have hname := reads_wrapping "read property name" [] (reads_utf8 [] b)
        refine ((hname.bind (f := fun name => do
            let value ← wrapping "read property value, name=%s" [.str (cStr name)] readAny
            readProperties readAny fuel (SrsUnSortedHashtable.set acc name (some value)))
          (Q := fun name i ps o => ∃ value i₂, Derives decoder i (.any value) i₂ ∧
            Derives decoder i₂ (.properties (SrsUnSortedHashtable.set acc name (some value)) ps) o)
          fun name b₁ hrun _ => ?_).congr fun ps o => ?_).of_eq ?_
        · have hlt : b₁.rest.length < b.rest.length := decodedUtf8_length (hname.sound hrun)
          have hvalue := reads_wrapping "read property value, name=%s" [.str (cStr name)]
            (hread b₁ (hlt.trans hN))
          refine hvalue.bind fun value b₂ _ hadv₂ => ?_
          have hle := length_le_of_adv hadv₂
          exact reads_properties hread fuel _ b₂ (by omega) (by omega)
        · rw [derives_properties_iff, hview]
          constructor
          · exact fun h => Or.inr (Or.inr ⟨heof, h⟩)
          · rintro (⟨hi, -⟩ | ⟨-, hi, -⟩ | ⟨-, h⟩)
            · exact absurd (hi ▸ List.prefix_append _ _) heof
            · exact absurd hi hnil
            · exact h
        · rw [get_bind, if_neg hempty, bind_ok (isObjectEof_run b), decide_eq_false heof]
          rfl

/-- The element loop: it appends what it reads to what the array holds. -/
theorem reads_elements (hread : ReadsBelow readAny N) : ∀ (n : Nat) (acc : List SrsAmf0Any)
    (b : SrsBuffer), b.rest.length < N →
    Reads (readElements readAny n acc)
      (fun i ps o => ∃ es, Derives decoder i (.elements n es) o ∧ ps = acc ++ es) b
  | 0, acc, b, _ => (Implements.pure acc b).congr fun ps o => by
      constructor
      · rintro ⟨rfl, rfl⟩
        exact ⟨[], .elementsEnd, (List.append_nil ps).symm⟩
      · rintro ⟨es, h, rfl⟩
        obtain ⟨rfl, rfl⟩ := derives_elements_zero_iff.mp h
        exact ⟨List.append_nil acc, rfl⟩
  | n + 1, acc, b, hN => by
    have hview : bufferReading.view b = b.rest := rfl
    unfold readElements
    by_cases hnil : b.rest = []
    · refine ((Implements.pure acc b).congr fun ps o => ?_).of_eq
        (by rw [get_bind, if_pos (b.empty_iff.mpr hnil)])
      rw [hview, hnil]
      constructor
      · rintro ⟨rfl, rfl⟩
        exact ⟨[], .elementsCut trivial, (List.append_nil ps).symm⟩
      · rintro ⟨es, h, rfl⟩
        rcases derives_elements_succ_iff.mp h with ⟨-, -, rfl, rfl⟩ | ⟨v, i₁, hv, -⟩
        · exact ⟨List.append_nil acc, rfl⟩
        · exact absurd hv Derives.any_ne_nil
    · have hempty : ¬ b.empty = true := fun h => hnil (b.empty_iff.mp h)
      have hv := reads_wrapping "read property" [] (hread b hN)
      refine ((hv.bind fun v b₁ _ hadv => ?_).congr
        (R := fun i ps o => ∃ v i₁, Derives decoder i (.any v) i₁ ∧
          ∃ es, Derives decoder i₁ (.elements n es) o ∧ ps = acc ++ [v] ++ es)
        fun ps o => ?_).of_eq (by rw [get_bind, if_neg hempty])
      · have hle := length_le_of_adv hadv
        exact reads_elements hread n (acc ++ [v]) b₁ (by omega)
      · rw [hview]
        constructor
        · rintro ⟨v, i₁, hv, es, hes, rfl⟩
          exact ⟨v :: es, .element hv hes, List.append_assoc acc [v] es⟩
        · rintro ⟨es, h, rfl⟩
          rcases derives_elements_succ_iff.mp h with ⟨-, hi, -⟩ | ⟨v, i₁, hv, es', hes, rfl⟩
          · exact absurd hi hnil
          · exact ⟨v, i₁, hv, es', hes, (List.append_assoc acc [v] es').symm⟩

/-- A marker, then the rest of the value with fewer unread bytes. -/
theorem reads_marker_bind {α : Type} {m : Exec α} {Q : ReadRel Bytes α} (marker : UInt8)
    (short invalid : String) {b : SrsBuffer}
    (h : ∀ b' : SrsBuffer, b'.rest.length < b.rest.length → Reads m Q b') :
    Reads (readMarker marker short invalid >>= fun _ => m)
      (fun i a o => ∃ i', i = marker :: i' ∧ Q i' a o) b := by
  have hm := reads_marker marker short invalid b
  refine (hm.bind (Q := fun _ => Q) fun _ b' hrun _ => h b' ?_).congr fun a o => ?_
  · have hi : b.rest = marker :: b'.rest := hm.sound hrun
    rw [hi, List.length_cons]
    exact Nat.lt_succ_self _
  · constructor
    · rintro ⟨_, h⟩
      exact h
    · rintro ⟨i', h⟩
      exact ⟨(), i', h⟩

/-- A field of `n` bytes, then the rest of the value. -/
theorem reads_field_bind {α : Type} {n w : Nat} (hn : 0 < n) {m : BitVec w → Exec α}
    {Q : BitVec w → ReadRel Bytes α} (code : Int) (fmt : String) (args : List MsgArg)
    {b : SrsBuffer}
    (h : ∀ x, ∀ b' : SrsBuffer, b'.rest.length ≤ b.rest.length → Reads (m x) (Q x) b') :
    Reads (requireOr n code fmt args >>= fun _ => readBe n w >>= m)
      (fun i a o => ∃ l i', l.length = n ∧ i = l ++ i' ∧ Q (BitVec.ofNat w (ofBytes l)) i' a o)
      b := by
  rw [← bind_assoc]
  refine ((reads_readBe w hn code fmt args b).bind fun x b' _ hadv =>
    h x b' (length_le_of_adv hadv)).congr fun a o => ?_
  constructor
  · rintro ⟨_, i', ⟨l, hl, hi, rfl⟩, hQ⟩
    exact ⟨l, i', hl, hi, hQ⟩
  · rintro ⟨l, i', hl, hi, hQ⟩
    exact ⟨_, i', ⟨l, hl, hi, rfl⟩, hQ⟩

/-- A field of `n` bytes on its own. -/
theorem reads_field_map {α : Type} {n w : Nat} (hn : 0 < n) (f : BitVec w → α) (code : Int)
    (fmt : String) (args : List MsgArg) (b : SrsBuffer) :
    Reads (requireOr n code fmt args >>= fun _ => readBe n w >>= fun x => pure (f x))
      (fun i a o => ∃ l, l.length = n ∧ i = l ++ o ∧ a = f (BitVec.ofNat w (ofBytes l))) b :=
  (reads_field_bind hn code fmt args fun x b' _ => Implements.pure (f x) b').congr fun a o => by
    constructor
    · rintro ⟨l, _, hl, hi, rfl, rfl⟩
      exact ⟨l, hl, hi, rfl⟩
    · rintro ⟨l, hl, hi, rfl⟩
      exact ⟨l, o, hl, hi, rfl, rfl⟩

theorem reads_object (hread : ReadsBelow readAny N) (acc : List (Bytes × SrsAmf0Any))
    {b : SrsBuffer} (hN : b.rest.length ≤ N) :
    Reads (SrsAmf0Object.read readAny acc) (fun i ps o => ∃ i', i = rtmpAmf0Object :: i' ∧
      Derives decoder i' (.properties acc ps) o) b := by
  unfold SrsAmf0Object.read
  refine reads_marker_bind _ _ _ fun b' hlt => ?_
  have hloop := reads_properties hread (b'.left.toNat + 1) acc b' (by omega)
    (by rw [rest_length]; exact Nat.lt_succ_self _)
  exact hloop.of_eq (get_bind _ b')

theorem reads_ecmaArray (hread : ReadsBelow readAny N) (acc : List (Bytes × SrsAmf0Any))
    {b : SrsBuffer} (hN : b.rest.length ≤ N) :
    Reads (SrsAmf0EcmaArray.read readAny acc) (fun i r o => ∃ i', i = rtmpAmf0EcmaArray :: i' ∧
      ∃ l i'', l.length = 4 ∧ i' = l ++ i'' ∧ ∃ ps, Derives decoder i'' (.properties acc ps) o ∧
        r = (BitVec.ofNat 32 (ofBytes l), ps)) b := by
  unfold SrsAmf0EcmaArray.read
  refine reads_marker_bind _ _ _ fun b₁ hlt => reads_field_bind (w := 32) four_pos
    (Q := fun c i r o => ∃ ps, Derives decoder i (.properties acc ps) o ∧ r = (c, ps))
    _ _ _ fun c b₂ hle => ?_
  have hloop := reads_properties hread (b₂.left.toNat + 1) acc b₂ (by omega)
    (by rw [rest_length]; exact Nat.lt_succ_self _)
  exact (hloop.map fun ps => (c, ps)).of_eq (get_bind _ b₂)

theorem reads_strictArray (hread : ReadsBelow readAny N) (acc : List SrsAmf0Any)
    {b : SrsBuffer} (hN : b.rest.length ≤ N) :
    Reads (SrsAmf0StrictArray.read readAny acc) (fun i r o => ∃ i',
      i = rtmpAmf0StrictArray :: i' ∧ ∃ l i'', l.length = 4 ∧ i' = l ++ i'' ∧ ∃ ps,
        (∃ es, Derives decoder i'' (.elements (BitVec.ofNat 32 (ofBytes l)).toInt.toNat es) o ∧
          ps = acc ++ es) ∧ r = (BitVec.ofNat 32 (ofBytes l), ps)) b := by
  unfold SrsAmf0StrictArray.read
  refine reads_marker_bind _ _ _ fun b₁ hlt => reads_field_bind (w := 32) four_pos
    (Q := fun c i r o => ∃ ps, (∃ es, Derives decoder i (.elements c.toInt.toNat es) o ∧
      ps = acc ++ es) ∧ r = (c, ps)) _ _ _ fun c b₂ hle => ?_
  exact (reads_elements hread c.toInt.toNat acc b₂ (by omega)).map fun ps => (c, ps)

end Containers

/-! ## Instances -/

/-- At `b`, the reader `m` accepts the values with this marker. -/
abbrev ReadsKind (m : Exec SrsAmf0Any) (marker : UInt8) (b : SrsBuffer) : Prop :=
  Reads m (fun i w o => Derives decoder i (.any w) o ∧ w.marker = marker) b

section Instances

variable (b : SrsBuffer)

theorem readsKind_objectEOF :
    ReadsKind ((fun _ => .objectEOF) <$> SrsAmf0ObjectEOF.read) rtmpAmf0ObjectEnd b := by
  refine ((reads_objectEof b).map fun _ => SrsAmf0Any.objectEOF).congr fun w o => ?_
  generalize bufferReading.view b = i
  constructor
  · rintro ⟨_, hi, rfl⟩
    exact ⟨.objectEOF hi, rfl⟩
  · rintro ⟨h, hm⟩
    cases h with
    | objectEOF hi => exact ⟨(), hi, rfl⟩
    | _ => cases hm

theorem reads_string (value : Bytes) (b : SrsBuffer) :
    Reads (srsAmf0ReadString value)
      (fun i s o => ∃ i', i = rtmpAmf0String :: i' ∧ decodedUtf8 value i' s o) b :=
  reads_marker_bind _ _ _ fun b' _ => reads_utf8 value b'

theorem readsKind_string :
    ReadsKind (.string <$> srsAmf0ReadString []) rtmpAmf0String b := by
  refine ((reads_string [] b).map SrsAmf0Any.string).congr fun w o => ?_
  generalize bufferReading.view b = i
  constructor
  · rintro ⟨value, ⟨i', hi, hvalue⟩, rfl⟩
    exact ⟨.string hi hvalue, rfl⟩
  · rintro ⟨h, hm⟩
    cases h with
    | string hi hvalue => exact ⟨_, ⟨_, hi, hvalue⟩, rfl⟩
    | _ => cases hm

theorem readsKind_boolean :
    ReadsKind (.boolean <$> srsAmf0ReadBoolean) rtmpAmf0Boolean b := by
  have h : Reads srsAmf0ReadBoolean (fun i a o => ∃ i', i = rtmpAmf0Boolean :: i' ∧
      ∃ x, i' = x :: o ∧ a = decide (x ≠ 0)) b := by
    unfold srsAmf0ReadBoolean
    refine reads_marker_bind _ _ _ fun b' _ => ?_
    have hx := (reads_read1bytes errorRtmpAmf0Decode "requires 1 only %d bytes" [] b').map
      fun x => decide (x ≠ 0)
    rw [← bind_assoc]
    exact hx
  refine (h.map SrsAmf0Any.boolean).congr fun w o => ?_
  generalize bufferReading.view b = i
  constructor
  · rintro ⟨_, ⟨_, hi, x, rfl, rfl⟩, rfl⟩
    exact ⟨.boolean hi, rfl⟩
  · rintro ⟨h, hm⟩
    cases h with
    | boolean hi => exact ⟨_, ⟨_, hi, _, rfl, rfl⟩, rfl⟩
    | _ => cases hm

/-- Only where no end marker is next: `read` of a number does not look for one. -/
theorem readsKind_number (heof : ¬ AtObjectEof b.rest) :
    ReadsKind (.number <$> srsAmf0ReadNumber) rtmpAmf0Number b := by
  have h : Reads srsAmf0ReadNumber (fun i x o => ∃ i', i = rtmpAmf0Number :: i' ∧
      ∃ l, l.length = 8 ∧ i' = l ++ o ∧ x = BitVec.ofNat 64 (ofBytes l)) b :=
    reads_marker_bind _ _ _ fun b' _ => reads_readBe 64 (by decide) _ _ _ b'
  refine (h.map SrsAmf0Any.number).congr fun w o => ?_
  change ¬ AtObjectEof (bufferReading.view b) at heof
  generalize bufferReading.view b = i at heof ⊢
  constructor
  · rintro ⟨_, ⟨_, hi, l, hl, rfl, rfl⟩, rfl⟩
    exact ⟨.number hi hl heof, rfl⟩
  · rintro ⟨h, hm⟩
    cases h with
    | number hi hl => exact ⟨_, ⟨_, hi, _, hl, rfl, rfl⟩, rfl⟩
    | _ => cases hm

theorem readsKind_date :
    ReadsKind ((fun d => .date d.1 d.2) <$> SrsAmf0Date.read) rtmpAmf0Date b := by
  have h : Reads SrsAmf0Date.read (fun i d o => ∃ i', i = rtmpAmf0Date :: i' ∧
      ∃ l i'', l.length = 8 ∧ i' = l ++ i'' ∧ ∃ l', l'.length = 2 ∧ i'' = l' ++ o ∧
        d = (BitVec.ofNat 64 (ofBytes l), BitVec.ofNat 16 (ofBytes l'))) b := by
    unfold SrsAmf0Date.read
    exact reads_marker_bind _ _ _ fun b₁ _ => reads_field_bind (w := 64) (by decide)
      (Q := fun x i d o => ∃ l', l'.length = 2 ∧ i = l' ++ o ∧
        d = (x, BitVec.ofNat 16 (ofBytes l'))) _ _ _
      fun x b₂ _ => reads_field_map two_pos (fun y => (x, y)) _ _ _ b₂
  refine (h.map fun d => SrsAmf0Any.date d.1 d.2).congr fun w o => ?_
  generalize bufferReading.view b = i
  constructor
  · rintro ⟨_, ⟨_, hi, l, _, hl, rfl, l', hl', rfl, rfl⟩, rfl⟩
    exact ⟨.date hi hl hl', rfl⟩
  · rintro ⟨h, hm⟩
    cases h with
    | date hi hl hl' => exact ⟨_, ⟨_, hi, _, _, hl, rfl, _, hl', rfl, rfl⟩, rfl⟩
    | _ => cases hm

theorem readsKind_null : ReadsKind ((fun _ => .null) <$> srsAmf0ReadNull) rtmpAmf0Null b := by
  refine ((reads_marker _ _ _ b).map fun _ => SrsAmf0Any.null).congr fun w o => ?_
  generalize bufferReading.view b = i
  constructor
  · rintro ⟨_, hi, rfl⟩
    exact ⟨.null hi, rfl⟩
  · rintro ⟨h, hm⟩
    cases h with
    | null hi => exact ⟨(), hi, rfl⟩
    | _ => cases hm

theorem readsKind_undefined :
    ReadsKind ((fun _ => .undefined) <$> srsAmf0ReadUndefined) rtmpAmf0Undefined b := by
  refine ((reads_marker _ _ _ b).map fun _ => SrsAmf0Any.undefined).congr fun w o => ?_
  generalize bufferReading.view b = i
  constructor
  · rintro ⟨_, hi, rfl⟩
    exact ⟨.undefined hi, rfl⟩
  · rintro ⟨h, hm⟩
    cases h with
    | undefined hi => exact ⟨(), hi, rfl⟩
    | _ => cases hm

variable {readAny : Exec SrsAmf0Any} {N : Nat} {b}

theorem readsKind_object (hread : ReadsBelow readAny N) (hN : b.rest.length ≤ N) :
    ReadsKind (.object <$> SrsAmf0Object.read readAny []) rtmpAmf0Object b := by
  refine ((reads_object hread [] hN).map SrsAmf0Any.object).congr fun w o => ?_
  generalize bufferReading.view b = i
  constructor
  · rintro ⟨ps, ⟨_, hi, hps⟩, rfl⟩
    exact ⟨.object hi hps, rfl⟩
  · rintro ⟨h, hm⟩
    cases h with
    | object hi hps => exact ⟨_, ⟨_, hi, hps⟩, rfl⟩
    | _ => cases hm

theorem readsKind_ecmaArray (hread : ReadsBelow readAny N) (hN : b.rest.length ≤ N) :
    ReadsKind ((fun r => .ecmaArray r.1 r.2) <$> SrsAmf0EcmaArray.read readAny [])
      rtmpAmf0EcmaArray b := by
  refine ((reads_ecmaArray hread [] hN).map fun r => SrsAmf0Any.ecmaArray r.1 r.2).congr
    fun w o => ?_
  generalize bufferReading.view b = i
  constructor
  · rintro ⟨_, ⟨_, hi, l, _, hl, rfl, ps, hps, rfl⟩, rfl⟩
    exact ⟨.ecmaArray hi hl hps, rfl⟩
  · rintro ⟨h, hm⟩
    cases h with
    | ecmaArray hi hl hps => exact ⟨_, ⟨_, hi, _, _, hl, rfl, _, hps, rfl⟩, rfl⟩
    | _ => cases hm

theorem readsKind_strictArray (hread : ReadsBelow readAny N) (hN : b.rest.length ≤ N) :
    ReadsKind ((fun r => .strictArray r.1 r.2) <$> SrsAmf0StrictArray.read readAny [])
      rtmpAmf0StrictArray b := by
  refine ((reads_strictArray hread [] hN).map fun r => SrsAmf0Any.strictArray r.1 r.2).congr
    fun w o => ?_
  generalize bufferReading.view b = i
  constructor
  · rintro ⟨_, ⟨_, hi, l, _, hl, rfl, _, ⟨es, hes, rfl⟩, rfl⟩, rfl⟩
    exact ⟨.strictArray hi hl rfl hes, rfl⟩
  · rintro ⟨h, hm⟩
    cases h with
    | strictArray hi hl hn hes =>
      exact ⟨_, ⟨_, hi, _, _, hl, rfl, _, ⟨_, hn ▸ hes, rfl⟩, rfl⟩, rfl⟩
    | _ => cases hm

/-- A chain of `if` gives what its first arm gives, or what the rest gives. -/
theorem eq_or_of_ite_eq_some {α : Type} {c : Prop} [Decidable c] {a v : α} {o : Option α}
    (h : (if c then some a else o) = some v) : v = a ∨ o = some v := by
  by_cases hc : c
  · rw [if_pos hc] at h
    exact Or.inl (Option.some.inj h).symm
  · rw [if_neg hc] at h
    exact Or.inr h

/-- `read` into the instance that discovery yields accepts the values of its kind. -/
theorem reads_read (hread : ReadsBelow readAny N) {v : SrsAmf0Any} (hN : b.rest.length ≤ N)
    (hv : discovered b.rest = some v) : ReadsKind (v.read readAny) v.marker b := by
  unfold discovered at hv
  by_cases heof : AtObjectEof b.rest
  · rw [if_pos heof, Option.some_inj] at hv
    exact hv ▸ readsKind_objectEOF b
  · rw [if_neg heof] at hv
    obtain ⟨m, -, hm⟩ := Option.bind_eq_some_iff.mp hv
    unfold SrsAmf0Any.ofMarker at hm
    rcases eq_or_of_ite_eq_some hm with rfl | hm
    · exact readsKind_string b
    rcases eq_or_of_ite_eq_some hm with rfl | hm
    · exact readsKind_boolean b
    rcases eq_or_of_ite_eq_some hm with rfl | hm
    · exact readsKind_number b heof
    rcases eq_or_of_ite_eq_some hm with rfl | hm
    · exact readsKind_null b
    rcases eq_or_of_ite_eq_some hm with rfl | hm
    · exact readsKind_undefined b
    rcases eq_or_of_ite_eq_some hm with rfl | hm
    · exact readsKind_object hread hN
    rcases eq_or_of_ite_eq_some hm with rfl | hm
    · exact readsKind_ecmaArray hread hN
    rcases eq_or_of_ite_eq_some hm with rfl | hm
    · exact readsKind_strictArray hread hN
    rcases eq_or_of_ite_eq_some hm with rfl | hm
    · exact readsKind_date b
    · cases hm

end Instances

/-! ## Values -/

/-- A marker other than zero does not start an end marker. -/
theorem discovered_cons {m : UInt8} {l : Bytes} (hm : m ≠ 0x00) :
    discovered (m :: l) = SrsAmf0Any.ofMarker m := by
  have hno : ¬ AtObjectEof (m :: l) := fun h => hm (List.cons_prefix_cons.mp h).1.symm
  unfold discovered
  rw [if_neg hno]
  rfl

/-- Discovery sees the kind of every value that can be read. -/
theorem discovered_of_derives {R : Rules} {i o : Bytes} {w : SrsAmf0Any}
    (h : Derives R i (.any w) o) : ∃ v, discovered i = some v ∧ w.marker = v.marker := by
  cases h with
  | objectEOF hi =>
    refine ⟨.objectEOF, ?_, rfl⟩
    unfold discovered
    rw [if_pos (hi ▸ List.prefix_append _ _)]
  | number hi hl heof =>
    refine ⟨.number 0, ?_, rfl⟩
    unfold discovered
    rw [if_neg heof, hi]
    rfl
  | boolean hi => exact ⟨.boolean false, hi ▸ discovered_cons (by decide), rfl⟩
  | string hi => exact ⟨.string [], hi ▸ discovered_cons (by decide), rfl⟩
  | date hi => exact ⟨.newDate 0, hi ▸ discovered_cons (by decide), rfl⟩
  | null hi => exact ⟨.null, hi ▸ discovered_cons (by decide), rfl⟩
  | undefined hi => exact ⟨.undefined, hi ▸ discovered_cons (by decide), rfl⟩
  | object hi => exact ⟨.newObject, hi ▸ discovered_cons (by decide), rfl⟩
  | ecmaArray hi => exact ⟨.newEcmaArray, hi ▸ discovered_cons (by decide), rfl⟩
  | strictArray hi => exact ⟨.newStrictArray, hi ▸ discovered_cons (by decide), rfl⟩

theorem reads_step {readAny : Exec SrsAmf0Any} {N : Nat} (hread : ReadsBelow readAny N)
    {b : SrsBuffer} (hN : b.rest.length ≤ N) :
    Reads (wrapping "discovery" [] SrsAmf0Any.discovery >>= fun v =>
      wrapping "parse elem" [] (v.read readAny)) (fun i w o => Derives decoder i (.any w) o) b := by
  have hd := reads_wrapping "discovery" [] (reads_discovery b)
  refine (hd.bind (Q := fun v i w o => Derives decoder i (.any w) o ∧ w.marker = v.marker)
    fun v b' hrun hadv => ?_).congr fun w o => ?_
  · obtain ⟨hv, hview⟩ := hd.sound hrun
    have hb' : b' = b := eq_advance_of_view (l := []) hadv rfl hview
    subst hb'
    exact reads_wrapping _ _ (reads_read hread hN hv)
  · constructor
    · rintro ⟨v, _, ⟨hv, rfl⟩, h, -⟩
      exact h
    · intro h
      obtain ⟨v, hv, hm⟩ := discovered_of_derives h
      exact ⟨v, _, ⟨hv, rfl⟩, h, hm⟩

theorem readsBelow_fuel : ∀ n, ReadsBelow (srsAmf0ReadAnyFuel n) n
  | 0 => fun _ h => absurd h (Nat.not_lt_zero _)
  | n + 1 => fun _ h => reads_step (readsBelow_fuel n) (Nat.le_of_lt_succ h)

/-- **`srs_amf0_read_any` decides the decoder's grammar**, on every cursor. -/
theorem reads_any (b : SrsBuffer) :
    Reads srsAmf0ReadAny (fun i v o => Derives decoder i (.any v) o) b := by
  have hfuel : b.rest.length < b.left.toNat + 1 := by
    rw [rest_length]
    exact Nat.lt_succ_self _
  exact (readsBelow_fuel _ b hfuel).of_eq rfl

/-! ## The equation of the source -/

section Agreement

variable {readAny readAny' : Exec SrsAmf0Any} {N : Nat}

theorem wrapping_congr_apply {α : Type} {m m' : Exec α} {b : SrsBuffer} (fmt : String)
    (args : List MsgArg) (h : m b = m' b) : wrapping fmt args m b = wrapping fmt args m' b := by
  unfold wrapping
  rw [h]

theorem readProperties_congr (hread : ReadsBelow readAny N)
    (hagree : ∀ b : SrsBuffer, b.rest.length < N → readAny b = readAny' b) : ∀ (fuel : Nat)
    (acc : List (Bytes × SrsAmf0Any)) (b : SrsBuffer), b.rest.length < N →
    readProperties readAny fuel acc b = readProperties readAny' fuel acc b
  | 0, _, _, _ => rfl
  | fuel + 1, acc, b, hN => by
    unfold readProperties
    rw [get_bind, get_bind]
    by_cases hempty : b.empty = true
    · rw [if_pos hempty, if_pos hempty]
    · rw [if_neg hempty, if_neg hempty]
      refine bind_congr_apply rfl fun eof b₁ hrun => ?_
      rw [isObjectEof_run] at hrun
      cases hrun
      by_cases heof : decide (AtObjectEof b.rest) = true
      · rw [if_pos heof, if_pos heof]
      · rw [if_neg heof, if_neg heof]
        refine bind_congr_apply rfl fun name b₂ hrun₂ => ?_
        have hlt : b₂.rest.length < b.rest.length :=
          decodedUtf8_length ((reads_wrapping _ _ (reads_utf8 [] b)).sound hrun₂)
        refine bind_congr_apply (wrapping_congr_apply _ _ (hagree b₂ (hlt.trans hN)))
          fun value b₃ hrun₃ => ?_
        have hle := length_le_of_adv
          ((reads_wrapping _ _ (hread b₂ (hlt.trans hN))).ok_inv hrun₃).1
        exact readProperties_congr hread hagree fuel _ b₃ (by omega)

theorem readElements_congr (hread : ReadsBelow readAny N)
    (hagree : ∀ b : SrsBuffer, b.rest.length < N → readAny b = readAny' b) : ∀ (n : Nat)
    (acc : List SrsAmf0Any) (b : SrsBuffer), b.rest.length < N →
    readElements readAny n acc b = readElements readAny' n acc b
  | 0, _, _, _ => rfl
  | n + 1, acc, b, hN => by
    unfold readElements
    rw [get_bind, get_bind]
    by_cases hempty : b.empty = true
    · rw [if_pos hempty, if_pos hempty]
    · rw [if_neg hempty, if_neg hempty]
      refine bind_congr_apply (wrapping_congr_apply _ _ (hagree b hN)) fun v b₁ hrun => ?_
      have hle := length_le_of_adv ((reads_wrapping _ _ (hread b hN)).ok_inv hrun).1
      exact readElements_congr hread hagree n _ b₁ (by omega)

theorem map_congr_apply {α β : Type} {m m' : Exec α} {b : SrsBuffer} (f : α → β)
    (h : m b = m' b) : (f <$> m) b = (f <$> m') b :=
  bind_congr_apply h fun _ _ _ => rfl

/-- A marker, then computations that agree on cursors with fewer unread bytes. -/
theorem marker_bind_congr {α : Type} {m m' : Exec α} {marker : UInt8} {short invalid : String}
    {b : SrsBuffer} (h : ∀ b' : SrsBuffer, b'.rest.length < b.rest.length → m b' = m' b') :
    (readMarker marker short invalid >>= fun _ => m) b =
      (readMarker marker short invalid >>= fun _ => m') b := by
  refine bind_congr_apply rfl fun _ b' hrun => h b' ?_
  have hi : b.rest = marker :: b'.rest := (reads_marker marker short invalid b).sound hrun
  rw [hi, List.length_cons]
  exact Nat.lt_succ_self _

theorem read_congr (hread : ReadsBelow readAny N)
    (hagree : ∀ b : SrsBuffer, b.rest.length < N → readAny b = readAny' b) (v : SrsAmf0Any)
    {b : SrsBuffer} (hN : b.rest.length ≤ N) : v.read readAny b = v.read readAny' b := by
  cases v with
  | object ps =>
    refine map_congr_apply _ (marker_bind_congr fun b' hlt => ?_)
    rw [get_bind, get_bind]
    exact readProperties_congr hread hagree _ _ b' (by omega)
  | ecmaArray count ps =>
    refine map_congr_apply _ (marker_bind_congr fun b₁ hlt => ?_)
    rw [← bind_assoc, ← bind_assoc]
    refine bind_congr_apply rfl fun c b₂ hrun => ?_
    have hle := length_le_of_adv ((reads_readBe 32 four_pos _ _ _ b₁).ok_inv hrun).1
    rw [get_bind, get_bind]
    refine bind_congr_apply (readProperties_congr hread hagree _ _ b₂ (by omega)) fun _ _ _ => rfl
  | strictArray count ps =>
    refine map_congr_apply _ (marker_bind_congr fun b₁ hlt => ?_)
    rw [← bind_assoc, ← bind_assoc]
    refine bind_congr_apply rfl fun c b₂ hrun => ?_
    have hle := length_le_of_adv ((reads_readBe 32 four_pos _ _ _ b₁).ok_inv hrun).1
    refine bind_congr_apply (readElements_congr hread hagree _ _ b₂ (by omega)) fun _ _ _ => rfl
  | _ => rfl

end Agreement

/-- More fuel than there are unread bytes changes nothing. -/
theorem srsAmf0ReadAnyFuel_congr (m n : Nat) : ∀ {b : SrsBuffer}, b.rest.length < m →
    b.rest.length < n → srsAmf0ReadAnyFuel m b = srsAmf0ReadAnyFuel n b := by
  induction m generalizing n with
  | zero => exact fun hm => absurd hm (Nat.not_lt_zero _)
  | succ m ih =>
    intro b hm hn
    cases n with
    | zero => exact absurd hn (Nat.not_lt_zero _)
    | succ n =>
      unfold srsAmf0ReadAnyFuel
      refine bind_congr_apply rfl fun v b' hrun => wrapping_congr_apply _ _ ?_
      have hle := length_le_of_adv
        ((reads_wrapping "discovery" [] (reads_discovery b)).ok_inv hrun).1
      exact read_congr (N := min m n)
        (fun b'' h => readsBelow_fuel m b'' (h.trans_le (min_le_left m n)))
        (fun b'' h => ih n (h.trans_le (min_le_left m n)) (h.trans_le (min_le_right m n))) v
        (by omega)

/-- **`srs_amf0_read_any` satisfies the recursive equation of the source.** -/
theorem srsAmf0ReadAny_eq (b : SrsBuffer) :
    srsAmf0ReadAny b = (wrapping "discovery" [] SrsAmf0Any.discovery >>= fun v =>
      wrapping "parse elem" [] (v.read srsAmf0ReadAny)) b := by
  refine bind_congr_apply rfl fun v b' hrun => wrapping_congr_apply _ _ ?_
  have hle := length_le_of_adv
    ((reads_wrapping "discovery" [] (reads_discovery b)).ok_inv hrun).1
  have hleft := b.rest_length
  refine read_congr (readsBelow_fuel b.left.toNat) (fun b'' h => ?_) v (by omega)
  have hleft'' := b''.rest_length
  exact srsAmf0ReadAnyFuel_congr _ _ h (by omega)

/-! ## Robustness -/

/-- The output pointer is set exactly on success. -/
theorem srsAmf0ReadAnyOut_none (b : SrsBuffer) :
    srsAmf0ReadAnyOut none b = match srsAmf0ReadAny b with
      | .ok v _ => some v
      | .error _ _ => none := by
  rw [srsAmf0ReadAny_eq, bind_apply]
  unfold srsAmf0ReadAnyOut wrapping
  cases SrsAmf0Any.discovery b with
  | error f b' => rfl
  | ok v b' =>
    dsimp only
    cases v.read srsAmf0ReadAny b' <;> rfl

/-- A move inside the range keeps the block and ends inside the range. -/
theorem advance_bounds {b b' : SrsBuffer} (hp : (b.p : Int) ≤ b.nbBytes)
    (h : bufferReading.Adv b b') :
    b'.bytes = b.bytes ∧ b'.nbBytes = b.nbBytes ∧ b.p ≤ b'.p ∧ (b'.p : Int) ≤ b.nbBytes := by
  obtain ⟨n, hn, rfl⟩ := h
  rw [rest_length, left] at hn
  refine ⟨rfl, rfl, Nat.le_add_right b.p n, ?_⟩
  show ((b.p + n : Nat) : Int) ≤ b.nbBytes
  omega

/-- **`srs_amf0_read_any` is safe on hostile bytes.** From any cursor with its position in range it
ends with a value or with an error value (so no assertion fires, no load leaves the block and the
recursion ends), the bytes are as they were and the position stays in range. A value takes at least
one byte and is stored in the output pointer; on failure a null output pointer stays null. -/
theorem readAny_safe (b : SrsBuffer) (hp : (b.p : Int) ≤ b.nbBytes) :
    (∀ v b', srsAmf0ReadAny b = .ok v b' →
      b'.bytes = b.bytes ∧ b'.nbBytes = b.nbBytes ∧ b.p < b'.p ∧ (b'.p : Int) ≤ b.nbBytes ∧
      srsAmf0ReadAnyOut none b = some v) ∧
    ∀ f b', srsAmf0ReadAny b = .error f b' →
      (∃ e, f = .error e) ∧
      b'.bytes = b.bytes ∧ b'.nbBytes = b.nbBytes ∧ b.p ≤ b'.p ∧ (b'.p : Int) ≤ b.nbBytes ∧
      srsAmf0ReadAnyOut none b = none := by
  have hout := srsAmf0ReadAnyOut_none b
  refine ⟨fun v b' hrun => ?_, fun f b' hrun => ?_⟩
  · rw [hrun] at hout
    obtain ⟨hadv, -⟩ := (reads_any b).ok_inv hrun
    obtain ⟨hbytes, hsize, -, hle⟩ := advance_bounds hp hadv
    have hlt : b'.rest.length < b.rest.length := ((reads_any b).sound hrun).length_lt
    rw [rest_length, rest_length, left, left, hsize] at hlt
    exact ⟨hbytes, hsize, by omega, hle, hout⟩
  · rw [hrun] at hout
    obtain ⟨he, hadv, -⟩ := (reads_any b).error_inv hrun
    obtain ⟨hbytes, hsize, hge, hle⟩ := advance_bounds hp hadv
    exact ⟨he, hbytes, hsize, hge, hle, hout⟩

/-- A strict array that declares `2 ^ 32 - 1` elements, read into a null pointer. -/
theorem readAny_safe_huge_count :
    srsAmf0ReadAnyOut none (SrsBuffer.new [0x0A, 0xFF, 0xFF, 0xFF, 0xFF] (by decide)) =
      some (.strictArray 0xFFFFFFFF []) :=
  ((readAny_safe (SrsBuffer.new [0x0A, 0xFF, 0xFF, 0xFF, 0xFF] (by decide)) (by decide)).1 _ _
    rfl).2.2.2.2

end Ssms.Amf0

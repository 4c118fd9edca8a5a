import Ssms.Amf0.Soundness

/-!
# Round trips between `write` and `srs_amf0_read_any`

`FaithfulNode` is the domain on which the codec loses nothing: string lengths fit the signed length
field, no number looks like an end marker, names are distinct and the count of a strict array is
right. `Faithful` asks it of a value and of every value inside it.

* `derives_encode`: the encoding of a faithful value, followed by anything, is a complete value.
* `read_written`: so what `write` stored is read back, one value or several in a row.
* `faithful_of_complete`, `Derives.size_le`: a complete run of the decoder returns a faithful value
  that takes no more bytes than were consumed.
* `decode_encode_decode`: so decoding normalises once.
-/

namespace Ssms.Amf0

open Ssms.Kernel Ssms.Kernel.SrsBuffer Ssms.Lib.BigEndian Ssms.Lib.Reading Ssms.Protocol

/-- The codec keeps this value, as far as it is concerned itself. -/
structure FaithfulNode (v : SrsAmf0Any) : Prop where
  string : ∀ value, v = .string value → value.length ≤ 32767
  keys : ∀ e ∈ v.table, e.1.length ≤ 32767
  names : DistinctNames v.table
  number : ¬ v.IsEofNumber
  count : ∀ count ps, v = .strictArray count ps → count.toInt = ps.length

/-- The codec keeps this value. -/
abbrev Faithful : SrsAmf0Any → Prop := SrsAmf0Any.Everywhere FaithfulNode

/-! ## Encodings are complete values -/

theorem ofBytes_length (k : Nat) :
    BitVec.ofNat 16 (ofBytes (toBytes 2 (BitVec.ofNat 16 k).toNat)) = BitVec.ofNat 16 k :=
  ofNat_ofBytes_toBytes (n := 16) rfl _

theorem decodedUtf8_encodeUtf8 {s : Bytes} (h : s.length ≤ 32767) (o : Bytes) :
    decodedUtf8 [] (encodeUtf8 s ++ o) s o := by
  have hlen : utf8Length (toBytes 2 (BitVec.ofNat 16 s.length).toNat) = s.length := by
    unfold utf8Length
    rw [ofBytes_length, BitVec.toInt_eq_toNat_of_lt] <;>
      rw [BitVec.toNat_ofNat, Nat.mod_eq_of_lt] <;> omega
  refine ⟨_, s ++ o, toBytes_length 2 _, List.append_assoc _ s o, ?_⟩
  rw [hlen]
  cases s with
  | nil => exact Or.inl ⟨le_refl _, rfl, rfl⟩
  | cons x s => exact Or.inr ⟨by simp, rfl, rfl⟩

/-- A value does not begin with the byte that ends an end marker. -/
theorem head?_encode_ne (v : SrsAmf0Any) (s : Bytes) :
    (v.encode ++ s).head? ≠ some rtmpAmf0ObjectEnd := by
  cases v <;> simp [SrsAmf0Any.encode, encodeObjectEof] <;> decide

/-- A property does not look like the end of its table. -/
theorem not_atObjectEof_property {name : Bytes} (h : name.length ≤ 32767) (v : SrsAmf0Any)
    (s : Bytes) : ¬ AtObjectEof (encodeUtf8 name ++ (v.encode ++ s)) := by
  intro heof
  obtain ⟨o, ho⟩ := heof
  have hlen : (toBytes 2 (BitVec.ofNat 16 name.length).toNat).length =
      ([0x00, 0x00] : Bytes).length :=
    toBytes_length 2 _
  have hsplit : toBytes 2 (BitVec.ofNat 16 name.length).toNat ++ (name ++ (v.encode ++ s)) =
      [0x00, 0x00] ++ (rtmpAmf0ObjectEnd :: o) := by
    rw [← List.append_assoc]
    exact ho.symm
  obtain ⟨hzero, hrest⟩ := List.append_inj hsplit hlen
  have hname : name.length = 0 := by
    have h0 := ofBytes_length name.length
    rw [hzero] at h0
    have h1 := congrArg BitVec.toNat h0
    rw [BitVec.toNat_ofNat, BitVec.toNat_ofNat,
      Nat.mod_eq_of_lt (show name.length < 2 ^ 16 by omega)]
      at h1
    exact h1.symm
  rw [List.length_eq_zero_iff.mp hname, List.nil_append] at hrest
  exact head?_encode_ne v s (by rw [hrest]; rfl)

theorem derives_encodeProperties : ∀ {ps acc : List (Bytes × SrsAmf0Any)} (s : Bytes),
    (∀ e ∈ ps, e.1.length ≤ 32767) → DistinctNames (acc ++ ps) →
    (∀ e ∈ ps, ∀ s, Derives complete (e.2.encode ++ s) (.any e.2) s) →
    Derives complete (encodeProperties ps ++ (encodeObjectEof ++ s)) (.properties acc (acc ++ ps)) s
  | [], acc, s, _, _, _ => by
    rw [List.append_nil]
    exact .propertiesEnd rfl
  | (name, value) :: ps, acc, s, hkeys, hnames, h => by
    obtain ⟨hname, hkeys⟩ := List.forall_mem_cons.mp hkeys
    obtain ⟨hvalue, h⟩ := List.forall_mem_cons.mp h
    have hnew : name ∉ acc.map Prod.fst := hnames.not_mem_before
    have hnames' : DistinctNames ((acc ++ [(name, value)]) ++ ps) := by
      rwa [List.append_assoc]
    have hps := derives_encodeProperties s hkeys hnames' h
    rw [← set_new hnew value] at hps
    unfold encodeProperties
    rw [List.append_assoc, List.append_assoc, show acc ++ (name, value) :: ps =
      SrsUnSortedHashtable.set acc name (some value) ++ ps by rw [set_new hnew]; simp]
    exact .property (not_atObjectEof_property hname value _) (decodedUtf8_encodeUtf8 hname _)
      (hvalue _) hps

theorem derives_encodeElements : ∀ {ps : List SrsAmf0Any} (s : Bytes),
    (∀ v ∈ ps, ∀ s, Derives complete (v.encode ++ s) (.any v) s) →
    Derives complete (encodeElements ps ++ s) (.elements ps.length ps) s
  | [], _, _ => .elementsEnd
  | v :: ps, s, h => by
    obtain ⟨hv, h⟩ := List.forall_mem_cons.mp h
    unfold encodeElements
    rw [List.append_assoc]
    exact .element (hv _) (derives_encodeElements s h)

/-- **The encoding of a faithful value is a complete value**, whatever follows. -/
theorem derives_encode {v : SrsAmf0Any} (h : Faithful v) (s : Bytes) :
    Derives complete (v.encode ++ s) (.any v) s := by
  induction v generalizing s with
  | string value =>
    exact .string rfl (decodedUtf8_encodeUtf8 (h.here.string value rfl) s)
  | boolean value =>
    have hb := Derives.boolean (R := complete) (o := s) (x := if value then 0x01 else 0x00) rfl
    cases value <;> exact hb
  | number value =>
    have hnum := Derives.number (R := complete) (o := s) rfl (toBytes_length 8 value.toNat)
      fun heof => h.here.number ((atObjectEof_number_iff value s).mp heof)
    rwa [ofNat_ofBytes_toBytes (n := 64) rfl] at hnum
  | date dateValue timeZone =>
    have hdate := Derives.date (R := complete) (o := s) rfl (toBytes_length 8 dateValue.toNat)
      (toBytes_length 2 timeZone.toNat)
    rwa [ofNat_ofBytes_toBytes (n := 64) rfl, ofNat_ofBytes_toBytes (n := 16) rfl,
      ← List.append_assoc] at hdate
  | null => exact .null rfl
  | undefined => exact .undefined rfl
  | objectEOF => exact .objectEOF rfl
  | object ps ih =>
    unfold SrsAmf0Any.encode
    rw [List.cons_append, List.append_assoc]
    exact .object rfl (derives_encodeProperties s h.here.keys h.here.names
      fun e he => ih e he (h.of_mem_table he))
  | ecmaArray count ps ih =>
    unfold SrsAmf0Any.encode
    rw [List.cons_append, List.append_assoc, List.append_assoc]
    have hps : Derives complete _ (.properties [] ps) s := derives_encodeProperties s h.here.keys
      h.here.names fun e he => ih e he (h.of_mem_table he)
    have hecma := Derives.ecmaArray rfl (toBytes_length 4 count.toNat) hps
    rwa [ofNat_ofBytes_toBytes (n := 32) rfl] at hecma
  | strictArray count ps ih =>
    unfold SrsAmf0Any.encode
    rw [List.cons_append, List.append_assoc]
    have hps := derives_encodeElements s fun e he => ih e he (h.inside e he)
    have hcount : complete.count (BitVec.ofNat 32 (ofBytes (toBytes 4 count.toNat))) ps.length := by
      rw [ofNat_ofBytes_toBytes (n := 32) rfl]
      exact (h.here.count count ps rfl).symm
    have hstrict := Derives.strictArray rfl (toBytes_length 4 count.toNat) hcount hps
    rwa [ofNat_ofBytes_toBytes (n := 32) rfl] at hstrict

/-! ## Reading back what was written -/

/-- A complete run is a run of the decoder. -/
theorem Derives.decoder_of_complete {i o : Bytes} {φ : Phrase} (h : Derives complete i φ o) :
    Derives decoder i φ o := by
  have hutf8 : ∀ i s o, complete.utf8 i s o → decoder.utf8 i s o := fun _ _ _ h => h
  have hcount : ∀ c n, complete.count c n → decoder.count c n := by
    intro c n hn
    unfold complete at hn
    unfold decoder
    omega
  exact h.mono hutf8 hcount fun hcut => hcut.elim

/-- A complete value at the position is read, and nothing more. -/
theorem readAny_of_complete {c : SrsBuffer} {v : SrsAmf0Any} {l s : Bytes} (hc : c.rest = l ++ s)
    (h : Derives complete c.rest (.any v) s) : srsAmf0ReadAny c = .ok v (c.advance l.length) := by
  obtain ⟨c', hrun, hadv, hview⟩ := (reads_any c).complete h.decoder_of_complete
  rwa [eq_advance_of_view hadv hc hview] at hrun

/-- Write values one after another. -/
def writeEach : List SrsAmf0Any → Exec Unit
  | [] => pure ()
  | v :: vs => do
    v.write
    writeEach vs

/-- Read `n` values one after another. -/
def readEach : Nat → Exec (List SrsAmf0Any)
  | 0 => pure []
  | n + 1 => do
    let v ← srsAmf0ReadAny
    let vs ← readEach n
    pure (v :: vs)

theorem stores_each : ∀ vs, Stores (writeEach vs) (encodeElements vs)
  | [] => Stores.nil
  | v :: vs => (stores_any v).seq (stores_each vs)

theorem readEach_encodeElements : ∀ {vs : List SrsAmf0Any}, (∀ v ∈ vs, Faithful v) →
    ∀ {c : SrsBuffer} {s : Bytes}, c.rest = encodeElements vs ++ s →
    readEach vs.length c = .ok vs (c.advance (vs.map SrsAmf0Any.totalSize).sum)
  | [], _, c, s, _ => rfl
  | v :: vs, h, c, s, hc => by
    obtain ⟨hv, hvs⟩ := List.forall_mem_cons.mp h
    unfold encodeElements at hc
    rw [List.append_assoc] at hc
    have hrun := readAny_of_complete hc (hc ▸ derives_encode hv _)
    have hc' : (c.advance v.encode.length).rest = encodeElements vs ++ s := by
      rw [rest_advance, hc, List.drop_left]
    rw [List.length_cons, readEach, bind_ok hrun, bind_ok (readEach_encodeElements hvs hc'),
      length_encode, advance_advance, List.map_cons, List.sum_cons]
    rfl

/-- **What was written is read back.** A faithful value that was written, followed by anything, is
read back as it was, and the position stops right after it; so are several values in a row. -/
theorem read_written :
    (∀ v, Faithful v → ∀ (b b' c : SrsBuffer) (s : Bytes), v.write b = .ok () b' →
      c.rest = b.written b' ++ s → srsAmf0ReadAny c = .ok v (c.advance v.totalSize)) ∧
    ∀ vs : List SrsAmf0Any, (∀ v ∈ vs, Faithful v) → ∀ (b b' c : SrsBuffer) (s : Bytes),
      writeEach vs b = .ok () b' → c.rest = b.written b' ++ s →
      readEach vs.length c = .ok vs (c.advance (vs.map SrsAmf0Any.totalSize).sum) := by
  constructor
  · intro v hv b b' c s hw hc
    rw [(stores_any v).written hw] at hc
    rw [← length_encode]
    exact readAny_of_complete hc (hc ▸ derives_encode hv s)
  · intro vs hvs b b' c s hw hc
    rw [(stores_each vs).written hw] at hc
    exact readEach_encodeElements hvs hc

/-- An object with one property, followed by a byte. -/
theorem read_written_object :
    srsAmf0ReadAny (SrsBuffer.new [0x03, 0x00, 0x01, 0x61, 0x05, 0x00, 0x00, 0x09, 0xFF]
      (by decide)) = .ok (.object [([0x61], .null)]) ((SrsBuffer.new
        [0x03, 0x00, 0x01, 0x61, 0x05, 0x00, 0x00, 0x09, 0xFF] (by decide)).advance 8) := by
  have hnull : Faithful .null :=
    .leaf rfl ⟨nofun, fun _ he => absurd he List.not_mem_nil, List.nodup_nil, id, nofun⟩
  have hobject : Faithful (.object [([0x61], .null)]) :=
    .node ⟨nofun, by decide, List.nodup_singleton _, id, nofun⟩
      (List.forall_mem_singleton.mpr hnull)
  exact read_written.1 _ hobject (SrsBuffer.new (List.replicate 8 0) (by decide)) _ _ [0xFF] rfl
    (rest_new _ _)

/-! ## What runs build -/

/-- The names of a value's own table are distinct. -/
def NamesNode (v : SrsAmf0Any) : Prop := DistinctNames v.table

/-- A table with distinct names, of values with distinct names throughout. -/
def NamesTable (ps : List (Bytes × SrsAmf0Any)) : Prop :=
  DistinctNames ps ∧ ∀ e ∈ ps, SrsAmf0Any.Everywhere NamesNode e.2

theorem NamesTable.set {ps : List (Bytes × SrsAmf0Any)} (h : NamesTable ps) (name : Bytes)
    {v : SrsAmf0Any} (hv : SrsAmf0Any.Everywhere NamesNode v) :
    NamesTable (SrsUnSortedHashtable.set ps name (some v)) := by
  refine ⟨distinctNames_set h.1 name (some v), fun e he => ?_⟩
  rcases mem_of_mem_set he with rfl | he
  · exact hv
  · exact h.2 e he

/-- A table value is as good as its table. -/
theorem everywhere_of_table {P : SrsAmf0Any → Prop} {v : SrsAmf0Any} (h : P v)
    (hv : v.children = v.table.map Prod.snd)
    (hps : ∀ e ∈ v.table, SrsAmf0Any.Everywhere P e.2) : SrsAmf0Any.Everywhere P v := by
  refine .node h fun w hw => ?_
  rw [hv] at hw
  obtain ⟨e, he, rfl⟩ := List.mem_map.mp hw
  exact hps e he

/-- What runs make of the names of a phrase. -/
def Phrase.Names : Phrase → Prop
  | .any v => SrsAmf0Any.Everywhere NamesNode v
  | .properties acc ps => NamesTable acc → NamesTable ps
  | .elements _ ps => ∀ v ∈ ps, SrsAmf0Any.Everywhere NamesNode v

/-- Whatever the rules, a value that was read has distinct names throughout. -/
theorem Derives.names {R : Rules} {i o : Bytes} {φ : Phrase} (h : Derives R i φ o) : φ.Names := by
  have hnil : NamesTable [] := ⟨List.nodup_nil, fun _ he => absurd he List.not_mem_nil⟩
  induction h with
  | objectEOF | number | boolean | string | date | null | undefined =>
    exact .leaf rfl List.nodup_nil
  | object _ _ ih =>
    obtain ⟨hps, hvalues⟩ := ih hnil
    exact everywhere_of_table hps rfl hvalues
  | ecmaArray _ _ _ ih =>
    obtain ⟨hps, hvalues⟩ := ih hnil
    exact everywhere_of_table hps rfl hvalues
  | strictArray _ _ _ _ ih => exact .node List.nodup_nil ih
  | propertiesEnd | propertiesCut => exact id
  | property _ _ _ _ ihv ihps => exact fun hacc => ihps (hacc.set _ ihv)
  | elementsEnd | elementsCut => exact fun _ hv => absurd hv List.not_mem_nil
  | element _ _ ihv ihps => exact List.forall_mem_cons.mpr ⟨ihv, ihps⟩

/-- The lengths, numbers and counts of a value itself. -/
structure FitsNode (v : SrsAmf0Any) : Prop where
  string : ∀ value, v = .string value → value.length ≤ 32767
  keys : ∀ e ∈ v.table, e.1.length ≤ 32767
  number : ¬ v.IsEofNumber
  count : ∀ count ps, v = .strictArray count ps → count.toInt = ps.length

/-- How the parts of a phrase fit after a complete run. -/
def Phrase.Fits : Phrase → Prop
  | .any v => SrsAmf0Any.Everywhere FitsNode v
  | .properties acc ps =>
    (∀ e ∈ acc, e.1.length ≤ 32767 ∧ SrsAmf0Any.Everywhere FitsNode e.2) →
      ∀ e ∈ ps, e.1.length ≤ 32767 ∧ SrsAmf0Any.Everywhere FitsNode e.2
  | .elements n ps => ps.length = n ∧ ∀ v ∈ ps, SrsAmf0Any.Everywhere FitsNode v

/-- The bytes it takes to write a phrase are at most those between `i` and `o`. -/
def Phrase.SizeLe (i o : Bytes) : Phrase → Prop
  | .any v => v.totalSize + o.length ≤ i.length
  | .properties acc ps =>
    propertiesSize ps + SrsAmf0Size.objectEof + o.length ≤ propertiesSize acc + i.length
  | .elements _ ps => elementsSize ps + o.length ≤ i.length

theorem decodedUtf8_le {i s o : Bytes} (h : decodedUtf8 [] i s o) :
    s.length ≤ 32767 ∧ SrsAmf0Size.utf8 s + o.length ≤ i.length := by
  obtain ⟨l, r, hl, rfl, h⟩ := h
  have hlt : utf8Length l < 2 ^ 15 := by
    unfold utf8Length
    exact BitVec.toInt_lt
  unfold SrsAmf0Size.utf8
  rw [List.length_append, hl]
  rcases h with ⟨-, rfl, rfl⟩ | ⟨-, hs, rfl⟩
  · simp
  · rw [List.length_append]
    omega

/-- A value without values inside and without a length, a number or a count of its own. -/
theorem fitsNode_leaf {v : SrsAmf0Any} (hv : v = .objectEOF ∨ (∃ x, v = .boolean x) ∨
    (∃ x y, v = .date x y) ∨ v = .null ∨ v = .undefined) : SrsAmf0Any.Everywhere FitsNode v := by
  rcases hv with rfl | ⟨x, rfl⟩ | ⟨x, y, rfl⟩ | rfl | rfl <;>
    exact .leaf rfl ⟨nofun, fun _ he => absurd he List.not_mem_nil, id, nofun⟩

/-- A table value fits when its names and values do. -/
theorem fitsNode_table {v : SrsAmf0Any} (hs : ∀ value, v ≠ .string value) (hn : ¬ v.IsEofNumber)
    (ha : ∀ count ps, v ≠ .strictArray count ps) (hv : v.children = v.table.map Prod.snd)
    (hps : ∀ e ∈ v.table, e.1.length ≤ 32767 ∧ SrsAmf0Any.Everywhere FitsNode e.2) :
    SrsAmf0Any.Everywhere FitsNode v :=
  everywhere_of_table ⟨fun value h => absurd h (hs value), fun e he => (hps e he).1, hn,
    fun count ps h => absurd h (ha count ps)⟩ hv fun e he => (hps e he).2

/-- **A complete run returns a value that fits.** -/
theorem Derives.fits {i o : Bytes} {φ : Phrase} (h : Derives complete i φ o) : φ.Fits := by
  have hnil : ∀ e ∈ ([] : List (Bytes × SrsAmf0Any)),
      e.1.length ≤ 32767 ∧ SrsAmf0Any.Everywhere FitsNode e.2 :=
    fun _ he => absurd he List.not_mem_nil
  induction h with
  | objectEOF => exact fitsNode_leaf (Or.inl rfl)
  | @number i o l hi hl heof =>
    refine .leaf rfl ⟨nofun, fun _ he => absurd he List.not_mem_nil, fun hn => heof ?_, nofun⟩
    rw [hi, ← toBytes_toNat_ofNat (n := 64) rfl hl]
    exact (atObjectEof_number_iff _ o).mpr hn
  | boolean => exact fitsNode_leaf (Or.inr (Or.inl ⟨_, rfl⟩))
  | string _ hvalue =>
    refine .leaf rfl ⟨fun value h => ?_, fun _ he => absurd he List.not_mem_nil, id, nofun⟩
    cases h
    exact (decodedUtf8_le hvalue).1
  | date => exact fitsNode_leaf (Or.inr (Or.inr (Or.inl ⟨_, _, rfl⟩)))
  | null => exact fitsNode_leaf (Or.inr (Or.inr (Or.inr (Or.inl rfl))))
  | undefined => exact fitsNode_leaf (Or.inr (Or.inr (Or.inr (Or.inr rfl))))
  | object _ _ ih => exact fitsNode_table nofun id nofun rfl (ih hnil)
  | ecmaArray _ _ _ ih => exact fitsNode_table nofun id nofun rfl (ih hnil)
  | strictArray _ _ hn _ ih =>
    refine .node ⟨nofun, fun _ he => absurd he List.not_mem_nil, id, fun count ps h => ?_⟩ ih.2
    cases h
    rw [ih.1]
    exact hn.symm
  | propertiesEnd => exact id
  | propertiesCut hcut => exact hcut.elim
  | property _ hname _ _ ihv ihps =>
    refine fun hacc => ihps fun e he => ?_
    rcases mem_of_mem_set he with rfl | he
    · exact ⟨(decodedUtf8_le hname).1, ihv⟩
    · exact hacc e he
  | elementsEnd => exact ⟨rfl, fun _ hv => absurd hv List.not_mem_nil⟩
  | elementsCut hcut => exact hcut.elim
  | element _ _ ihv ihps =>
    exact ⟨congrArg Nat.succ ihps.1, List.forall_mem_cons.mpr ⟨ihv, ihps.2⟩⟩

/-- **A complete run consumes at least what its value takes to write.** Merging duplicate names and
normalising lengths only makes a value shorter. -/
theorem Derives.size_le {i o : Bytes} {φ : Phrase} (h : Derives complete i φ o) : φ.SizeLe i o := by
  induction h with
  | objectEOF hi | propertiesEnd hi =>
    simp only [Phrase.SizeLe, SrsAmf0Any.totalSize, SrsAmf0Size.objectEof, hi, encodeObjectEof,
      List.length_append, List.length_cons, List.length_nil]
    omega
  | number hi hl =>
    simp only [Phrase.SizeLe, SrsAmf0Any.totalSize, SrsAmf0Size.number, hi, List.length_cons,
      List.length_append, hl]
    omega
  | boolean hi =>
    simp only [Phrase.SizeLe, SrsAmf0Any.totalSize, SrsAmf0Size.boolean, hi, List.length_cons]
    omega
  | string hi hvalue =>
    have := (decodedUtf8_le hvalue).2
    simp only [Phrase.SizeLe, SrsAmf0Any.totalSize, SrsAmf0Size.str, hi, List.length_cons]
    omega
  | date hi hl hl' =>
    simp only [Phrase.SizeLe, SrsAmf0Any.totalSize, SrsAmf0Size.date, hi, List.length_cons,
      List.length_append, hl, hl']
    omega
  | null hi | undefined hi =>
    simp only [Phrase.SizeLe, SrsAmf0Any.totalSize, SrsAmf0Size.null, SrsAmf0Size.undefined, hi,
      List.length_cons]
    omega
  | object hi _ ih =>
    simp only [Phrase.SizeLe, propertiesSize] at ih
    simp only [Phrase.SizeLe, SrsAmf0Any.totalSize, hi, List.length_cons]
    omega
  | ecmaArray hi hl _ ih =>
    simp only [Phrase.SizeLe, propertiesSize] at ih
    simp only [Phrase.SizeLe, SrsAmf0Any.totalSize, hi, List.length_cons, List.length_append, hl]
    omega
  | strictArray hi hl _ _ ih =>
    simp only [Phrase.SizeLe] at ih
    simp only [Phrase.SizeLe, SrsAmf0Any.totalSize, hi, List.length_cons, List.length_append, hl]
    omega
  | propertiesCut hcut => exact hcut.elim
  | @property i i₁ i₂ o name value acc ps _ hname _ _ ihv ihps =>
    have h1 := (decodedUtf8_le hname).2
    have h2 := propertiesSize_set_le acc name value
    simp only [Phrase.SizeLe] at ihv ihps ⊢
    omega
  | elementsEnd =>
    simp only [Phrase.SizeLe, elementsSize]
    omega
  | elementsCut hcut => exact hcut.elim
  | element _ _ ihv ihps =>
    simp only [Phrase.SizeLe] at ihv ihps
    simp only [Phrase.SizeLe, elementsSize]
    omega

theorem faithful_of_complete {i o : Bytes} {v : SrsAmf0Any} (h : Derives complete i (.any v) o) :
    Faithful v :=
  (h.fits.and h.names).mono fun _ h => ⟨h.1.string, h.1.keys, h.2, h.1.number, h.1.count⟩

/-- **Decoding normalises once.** A value that was read in a complete run (every object and ECMA
array ended on its end marker, every strict array got its declared number of elements) takes no more
bytes than were consumed, can be written wherever it has room, and is read back equal from those
bytes followed by anything. -/
theorem decode_encode_decode (b b' : SrsBuffer) (v : SrsAmf0Any)
    (hrun : srsAmf0ReadAny b = .ok v b') (hcomplete : Derives complete b.rest (.any v) b'.rest) :
    b.p + v.totalSize ≤ b'.p ∧
    ∀ w : SrsBuffer, (v.totalSize : Int) ≤ w.left → ∃ w', v.write w = .ok () w' ∧
      ∀ (c : SrsBuffer) (s : Bytes), c.rest = w.written w' ++ s →
        srsAmf0ReadAny c = .ok v (c.advance v.totalSize) := by
  have hsize := hcomplete.size_le
  unfold Phrase.SizeLe at hsize
  have hlt := b.rest_length_lt
  refine ⟨?_, fun w hw => ⟨_, write_run (by omega) hw, fun c s hc => ?_⟩⟩
  · obtain ⟨⟨n, hn, rfl⟩, -⟩ := (reads_any b).ok_inv hrun
    rw [rest_advance, List.length_drop] at hsize
    show b.p + v.totalSize ≤ b.p + n
    omega
  · rw [(stores_any v).written (write_run (by omega) hw)] at hc
    rw [← length_encode]
    exact readAny_of_complete hc (hc ▸ derives_encode (faithful_of_complete hcomplete) s)

/-- An object with a duplicate name: 13 bytes are read, 8 are enough to write it. -/
theorem decode_encode_decode_duplicate :
    ∃ w', (SrsAmf0Any.object [([0x61], .undefined)]).write
      (SrsBuffer.new (List.replicate 8 0) (by decide)) = .ok () w' := by
  have hname : ∀ o : Bytes, decodedUtf8 [] (0x00 :: 0x01 :: 0x61 :: o) [0x61] o := fun o =>
    decodedUtf8_encodeUtf8 (s := [0x61]) (by decide) o
  have hcomplete : Derives complete
      [0x03, 0x00, 0x01, 0x61, 0x05, 0x00, 0x01, 0x61, 0x06, 0x00, 0x00, 0x09]
      (.any (.object [([0x61], .undefined)])) [] :=
    .object rfl (.property (by decide) (hname _) (.null rfl)
      (.property (by decide) (hname _) (.undefined rfl) (.propertiesEnd rfl)))
  have hrest := rest_new [0x03, 0x00, 0x01, 0x61, 0x05, 0x00, 0x01, 0x61, 0x06, 0x00, 0x00, 0x09]
    (by decide)
  have hread := readAny_of_complete (s := []) (hrest.trans (List.append_nil _).symm)
    (hrest ▸ hcomplete)
  obtain ⟨w', hw, -⟩ := (decode_encode_decode _ _ _ hread
    (by rw [rest_advance, hrest]; exact hcomplete)).2
    (SrsBuffer.new (List.replicate 8 0) (by decide)) (by decide)
  exact ⟨w', hw⟩

end Ssms.Amf0

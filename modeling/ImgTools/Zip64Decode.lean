import ImgTools.ZipExtra
import ImgTools.ZipWalk

/-!
# ZIP64 values and the field they come from

What the loop over an extra area computes, as a function of the fields of the
area: at a ZIP64 field it takes eight bytes for each value that is still the
sentinel, from the field's data and, where these are too few, from the bytes
behind them. The format lets a value be taken from the declared data alone. From
an area that holds the values of a writer, the loop gets them back.
-/

namespace ImgTools.Zip

open Exec LittleEndian

open Format (ExtraField extraBytes)

/-! ### Values that are still sentinels -/

/-- One for a value that is still the sentinel. -/
def sentinel (value : UInt64) : Nat := if value = ZIP64_SENTINEL.toUInt64 then 1 else 0

def Values.sentinels (values : Values) : Nat :=
  sentinel values.uncompressed + sentinel values.compressed + sentinel values.localOffset

def wordAt (data : List UInt8) (position : Nat) : UInt64 :=
  UInt64.ofNat (value ((data.drop position).take 8))

/-- A sentinel is replaced by the word behind those of `earlier` sentinels. -/
def replacedValue (data : List UInt8) (value : UInt64) (earlier : Nat) : UInt64 :=
  if value = ZIP64_SENTINEL.toUInt64 then wordAt data (8 * earlier) else value

def Values.replaced (values : Values) (data : List UInt8) : Values where
  uncompressed := replacedValue data values.uncompressed 0
  compressed := replacedValue data values.compressed (sentinel values.uncompressed)
  localOffset := replacedValue data values.localOffset
    (sentinel values.uncompressed + sentinel values.compressed)

theorem replacedValue_zero {value : UInt64} (h : sentinel value = 0) (data : List UInt8)
    (earlier : Nat) : replacedValue data value earlier = value := by
  unfold sentinel at h
  split at h
  · cases h
  · next hne => exact if_neg hne

theorem replaced_of_none {values : Values} (h : values.sentinels = 0) (data : List UInt8) :
    values.replaced data = values := by
  obtain ⟨⟨hu, hc⟩, ho⟩ : (_ ∧ _) ∧ _ := by
    simpa only [Values.sentinels, Nat.add_eq_zero_iff] using h
  rw [Values.replaced, replacedValue_zero hu, replacedValue_zero hc, replacedValue_zero ho]

theorem replacedValue_append {data : List UInt8} {value : UInt64} {earlier : Nat}
    (h : 8 * (earlier + sentinel value) ≤ data.length) (rest : List UInt8) :
    replacedValue (data ++ rest) value earlier = replacedValue data value earlier := by
  unfold sentinel at h
  unfold replacedValue
  split
  · next hwide =>
    rw [if_pos hwide] at h
    rw [wordAt, wordAt, List.drop_append_of_le_length (by omega),
      List.take_append_of_le_length (by rw [List.length_drop]; omega)]
  · rfl

theorem replaced_append {values : Values} {data : List UInt8}
    (h : 8 * values.sentinels ≤ data.length) (rest : List UInt8) :
    values.replaced (data ++ rest) = values.replaced data := by
  unfold Values.sentinels at h
  rw [Values.replaced, Values.replaced, replacedValue_append (by omega),
    replacedValue_append (by omega), replacedValue_append (by omega)]

/-! ### Values only ever lose sentinels -/

def Fixed (value value' : UInt64) : Prop := value ≠ ZIP64_SENTINEL.toUInt64 → value' = value

structure Values.Keeps (values values' : Values) : Prop where
  uncompressed : Fixed values.uncompressed values'.uncompressed
  compressed : Fixed values.compressed values'.compressed
  localOffset : Fixed values.localOffset values'.localOffset

theorem fixed_replacedValue (data : List UInt8) (value : UInt64) (earlier : Nat) :
    Fixed value (replacedValue data value earlier) := fun h => if_neg h

theorem Fixed.trans {a b c : UInt64} (hab : Fixed a b) (hbc : Fixed b c) : Fixed a c := by
  intro ha
  have hb := hab ha
  exact (hbc (hb ▸ ha)).trans hb

theorem Fixed.antisymm {a b : UInt64} (hab : Fixed a b) (hba : Fixed b a) : a = b := by
  by_cases ha : a = ZIP64_SENTINEL.toUInt64
  · by_cases hb : b = ZIP64_SENTINEL.toUInt64
    · rw [ha, hb]
    · exact hba hb
  · exact (hab ha).symm

namespace Values.Keeps

theorem refl (values : Values) : values.Keeps values := ⟨fun _ => rfl, fun _ => rfl, fun _ => rfl⟩

theorem replaced (values : Values) (data : List UInt8) : values.Keeps (values.replaced data) :=
  ⟨fixed_replacedValue _ _ _, fixed_replacedValue _ _ _, fixed_replacedValue _ _ _⟩

theorem trans {a b c : Values} (hab : a.Keeps b) (hbc : b.Keeps c) : a.Keeps c :=
  ⟨hab.uncompressed.trans hbc.uncompressed, hab.compressed.trans hbc.compressed,
    hab.localOffset.trans hbc.localOffset⟩

theorem antisymm {a b : Values} (hab : a.Keeps b) (hba : b.Keeps a) : a = b := by
  obtain ⟨_, _, _⟩ := a
  obtain ⟨_, _, _⟩ := b
  exact (Values.mk.injEq ..).mpr ⟨hab.uncompressed.antisymm hba.uncompressed,
    hab.compressed.antisymm hba.compressed, hab.localOffset.antisymm hba.localOffset⟩

end Values.Keeps

/-! ### What a turn takes -/

section Turn

variable {extra : List UInt8} {start : Nat}

theorem takeWide_of_le {value : UInt64} {earlier : Nat}
    (h : start + 8 * (earlier + sentinel value) ≤ extra.length) :
    takeWide extra value (start + 8 * earlier) =
      .ok (replacedValue (extra.drop start) value earlier,
        start + 8 * (earlier + sentinel value)) := by
  unfold sentinel at h ⊢
  unfold takeWide replacedValue
  by_cases hwide : value = ZIP64_SENTINEL.toUInt64
  · rw [if_pos hwide] at h
    have hsum : start + 8 * earlier + 8 = start + 8 * (earlier + 1) := by omega
    rw [if_pos hwide, if_pos hwide, if_pos hwide, u64le, read?, hsum, if_pos h, wordAt,
      List.drop_drop]
    rfl
  · rw [if_neg hwide, if_neg hwide, if_neg hwide]
    rfl

theorem takeWide_of_lt {value : UInt64} {earlier : Nat}
    (hstart : start + 8 * earlier ≤ extra.length)
    (h : extra.length < start + 8 * (earlier + sentinel value)) :
    takeWide extra value (start + 8 * earlier) = .error .invalidZip64 := by
  unfold sentinel at h
  unfold takeWide
  by_cases hwide : value = ZIP64_SENTINEL.toUInt64
  · rw [if_pos hwide] at h
    rw [if_pos hwide, u64le, read?, if_neg (by omega)]
    rfl
  · rw [if_neg hwide] at h
    omega

/-- The values of a ZIP64 field whose data starts at `start`. -/
theorem takeValues_of_le {values : Values} (h : start + 8 * values.sentinels ≤ extra.length) :
    takeValues extra start values = .ok (values.replaced (extra.drop start)) := by
  obtain ⟨uncompressed, compressed, localOffset⟩ := values
  simp only [Values.sentinels] at h
  have hfirst : takeWide extra uncompressed (start + 8 * 0) =
      .ok (_, start + 8 * (0 + sentinel uncompressed)) := takeWide_of_le (by omega)
  have hsecond : takeWide extra compressed (start + 8 * (0 + sentinel uncompressed)) =
      .ok (_, start + 8 * (0 + sentinel uncompressed + sentinel compressed)) :=
    takeWide_of_le (by omega)
  have hthird : takeWide extra localOffset
      (start + 8 * (0 + sentinel uncompressed + sentinel compressed)) = .ok _ :=
    takeWide_of_le (by omega)
  refine except_bind_eq_ok.mpr ⟨_, hfirst, except_bind_eq_ok.mpr ⟨_, hsecond, ?_⟩⟩
  refine except_bind_eq_ok.mpr ⟨_, hthird, ?_⟩
  rw [Values.replaced, Nat.zero_add]
  rfl

theorem takeValues_of_lt {values : Values} (hstart : start ≤ extra.length)
    (h : extra.length < start + 8 * values.sentinels) :
    takeValues extra start values = .error .invalidZip64 := by
  obtain ⟨uncompressed, compressed, localOffset⟩ := values
  simp only [Values.sentinels] at h
  unfold takeValues
  dsimp only
  rcases Nat.lt_or_ge extra.length (start + 8 * (0 + sentinel uncompressed)) with hless | hfirst
  · have hfail : takeWide extra uncompressed start = .error .invalidZip64 :=
      takeWide_of_lt (show start + 8 * 0 ≤ _ by omega) hless
    rw [hfail]
    rfl
  · have htaken : takeWide extra uncompressed start =
        .ok (_, start + 8 * (0 + sentinel uncompressed)) := takeWide_of_le hfirst
    rw [htaken]
    show (takeWide extra compressed (start + 8 * (0 + sentinel uncompressed)) >>= _) = _
    rcases Nat.lt_or_ge extra.length
      (start + 8 * (0 + sentinel uncompressed + sentinel compressed)) with hless | hsecond
    · rw [takeWide_of_lt hfirst hless]
      rfl
    · rw [takeWide_of_le hsecond]
      show (takeWide extra localOffset _ >>= _) = _
      rw [takeWide_of_lt hsecond (by omega)]
      rfl

end Turn

/-! ### The loop over the fields of an area -/

/-- What the loop makes of the fields that are left, in front of `trailing`. -/
def decodeFields (trailing : List UInt8) : List ExtraField → Values → Except ZipError Values
  | [], values => .ok values
  | field :: fields, values =>
    if field.id = ZIP64_EXTRA then
      let room := field.data ++ (extraBytes fields ++ trailing)
      if 8 * values.sentinels ≤ room.length then decodeFields trailing fields (values.replaced room)
      else .error .invalidZip64
    else decodeFields trailing fields values

theorem extraBytes_append (fields fields' : List ExtraField) :
    extraBytes (fields ++ fields') = extraBytes fields ++ extraBytes fields' :=
  List.flatMap_append

theorem extraBytes_cons (field : ExtraField) (fields : List ExtraField) :
    extraBytes (field :: fields) = field.bytes ++ extraBytes fields := rfl

theorem drop_field (front back : List UInt8) (field : ExtraField) :
    (front ++ (field.bytes ++ back)).drop (front.length + 4) = field.data ++ back := by
  have hhead : (front ++ (encode 2 field.id.toNat ++ encode 2 field.data.length)).length =
      front.length + 4 := by
    simp only [List.length_append, length_encode]
  have hsplit : front ++ (field.bytes ++ back) =
      front ++ (encode 2 field.id.toNat ++ encode 2 field.data.length) ++ (field.data ++ back) := by
    simp only [ExtraField.bytes, List.append_assoc]
  rw [hsplit, ← hhead, List.drop_left]

theorem fieldValues_eq (front back : List UInt8) (field : ExtraField) (values : Values) :
    fieldValues (front ++ (field.bytes ++ back)) field.id (front.length + 4) values =
      if field.id = ZIP64_EXTRA then
        if 8 * values.sentinels ≤ (field.data ++ back).length then
          .ok (values.replaced (field.data ++ back))
        else .error .invalidZip64
      else .ok values := by
  have hlength : (front ++ (field.bytes ++ back)).length =
      front.length + 4 + (field.data ++ back).length := by
    simp only [List.length_append, field.length_bytes]
    omega
  unfold fieldValues
  split
  · split
    · rw [takeValues_of_le (by omega), drop_field]
    · rw [takeValues_of_lt (by omega) (by omega)]
  · rfl

theorem loop_decodeFields {trailing : List UInt8} (htrailing : trailing.length < 4)
    (fields : List ExtraField) (front : List UInt8) (values : Values) (budget : Nat) :
    loop (zip64Turn (front ++ (extraBytes fields ++ trailing))) (budget + fields.length + 1)
        (front.length, values) = .done (decodeFields trailing fields values) := by
  induction fields generalizing front values with
  | nil =>
    refine loop_exit _ ?_
    rw [zip64Turn, if_neg (by simp [extraBytes]; omega)]
    rfl
  | cons field fields ih =>
    have hnext : ∀ values',
        loop (zip64Turn (front ++ (field.bytes ++ (extraBytes fields ++ trailing))))
            (budget + fields.length + 1) ((front ++ field.bytes).length, values') =
          .done (decodeFields trailing fields values') := by
      intro values'
      have hrest := ih (front ++ field.bytes) values'
      rwa [List.append_assoc] at hrest
    have hfield := fieldValues_eq front (extraBytes fields ++ trailing) field values
    rw [extraBytes_cons, List.append_assoc, List.length_cons, ← Nat.add_assoc, decodeFields]
    by_cases hid : field.id = ZIP64_EXTRA
    · rw [if_pos hid] at hfield ⊢
      dsimp only
      by_cases hroom : 8 * values.sentinels ≤ (field.data ++ (extraBytes fields ++ trailing)).length
      · rw [if_pos hroom] at hfield ⊢
        rw [Format.loop_field hfield, hnext]
      · rw [if_neg hroom] at hfield ⊢
        refine loop_exit _ ?_
        rw [zip64Turn, if_pos (by simp only [List.length_append, field.length_bytes]; omega),
          Format.extraField_bytes, hfield]
        rfl
    · rw [if_neg hid] at hfield ⊢
      rw [Format.loop_field hfield, hnext]

/-- A sequence of complete fields and a fragment that is too short for another one. -/
structure Complete (extra : List UInt8) (fields : List ExtraField) (trailing : List UInt8) :
    Prop where
  bytes_eq : extra = extraBytes fields ++ trailing
  trailing_lt : trailing.length < 4

/-- **The loop is a function of the fields.** -/
theorem Complete.zip64Values_eq {extra trailing : List UInt8} {fields : List ExtraField}
    (h : Complete extra fields trailing) (values : Values) :
    zip64Values extra values = Outcome.done (decodeFields trailing fields values) := by
  obtain ⟨rfl, htrailing⟩ := h
  have hlength := Format.length_le_extraBytes fields
  have hbudget : (extraBytes fields ++ trailing).length + 1 =
      (extraBytes fields ++ trailing).length - fields.length + fields.length + 1 := by
    rw [List.length_append]
    omega
  rw [zip64Values, hbudget]
  exact loop_decodeFields htrailing fields [] values _

/-! ### An area that is accepted is complete -/

theorem mapError_eq_ok {ε ε' α : Type} {f : ε → ε'} {x : Except ε α} {a : α} :
    x.mapError f = .ok a ↔ x = .ok a := by
  cases x with
  | ok b => simp [Except.mapError]
  | error e => exact iff_of_false (by intro h; cases h) (by intro h; cases h)

theorem encode_of_u16le {b : List UInt8} {o : Nat} {v : UInt16} (h : u16le b o = .ok v) :
    encode 2 v.toNat = (b.drop o).take 2 := by
  obtain ⟨hle, hvalue⟩ := u16le_eq_ok h
  rw [hvalue]
  refine encode_value ?_
  rw [List.length_take, List.length_drop]
  omega

theorem field_of_turn {extra : List UInt8} {p : Nat} {values : Values} {state : Nat × Values}
    (h : extraField extra p values = .ok state) :
    ∃ field : ExtraField, extra.take state.1 = extra.take p ++ field.bytes := by
  unfold extraField at h
  obtain ⟨id, hid, h⟩ := except_bind_eq_ok.mp h
  obtain ⟨len, hlen, h⟩ := except_bind_eq_ok.mp h
  have hid := encode_of_u16le (mapError_eq_ok.mp hid)
  have hroom := (u16le_eq_ok (mapError_eq_ok.mp hlen)).1
  have hlen := encode_of_u16le (mapError_eq_ok.mp hlen)
  dsimp only at h
  split at h
  · cases h
  · next hstop =>
    obtain ⟨values', -, h⟩ := except_bind_eq_ok.mp h
    cases h
    obtain ⟨data, hdata⟩ : ∃ data, data = (extra.drop (p + 4)).take len.toNat := ⟨_, rfl⟩
    have hlength : data.length = len.toNat := by
      rw [hdata, List.length_take, List.length_drop]
      omega
    refine ⟨⟨id, data, by rw [hlength]; exact len.toNat_lt⟩, ?_⟩
    show extra.take (p + 4 + len.toNat) = extra.take p ++ (encode 2 id.toNat ++
      (encode 2 data.length ++ data))
    rw [hlength, hid, hlen, hdata, show p + 4 + len.toNat = p + (2 + (2 + len.toNat)) by omega,
      List.take_add, List.take_add, List.take_add, List.drop_drop, List.drop_drop]

theorem extraField_eq_error {extra : List UInt8} {p : Nat} {values : Values} {e : ZipError}
    (h : extraField extra p values = .error e) : e = .invalidZip64 := by
  unfold extraField at h
  rcases hid : u16le extra p with e' | id
  · rw [hid] at h
    cases h
    rfl
  rcases hlen : u16le extra (p + 2) with e' | len
  · rw [hid, hlen] at h
    cases h
    rfl
  rw [hid, hlen] at h
  change (if extra.length < p + 4 + len.toNat then _ else _) = _ at h
  split at h
  · cases h
    rfl
  · next hstop =>
    unfold fieldValues at h
    split at h
    · rcases Nat.lt_or_ge extra.length (p + 4 + 8 * values.sentinels) with hless | hroom
      · rw [takeValues_of_lt (by omega) hless] at h
        cases h
        rfl
      · rw [takeValues_of_le hroom] at h
        cases h
    · cases h

/-- What a turn of the loop has done. -/
theorem zip64Turn_eq {extra : List UInt8} {state : Nat × Values}
    {turn : Turn (Nat × Values) (Except ZipError Values)}
    (h : zip64Turn extra state = .done turn) :
    (∃ state', turn = .next state' ∧ extraField extra state.1 state.2 = .ok state') ∨
      turn = .exit (.error .invalidZip64) ∨
      (turn = .exit (.ok state.2) ∧ extra.length < state.1 + 4) := by
  unfold zip64Turn at h
  split at h
  · rcases hfield : extraField extra state.1 state.2 with e | state'
    · rw [hfield] at h
      cases h
      exact Or.inr (Or.inl (by rw [extraField_eq_error hfield]))
    · rw [hfield] at h
      cases h
      exact Or.inl ⟨state', rfl, rfl⟩
  · next hend =>
    cases h
    exact Or.inr (Or.inr ⟨rfl, Nat.lt_of_not_le hend⟩)

/-- An area that is accepted is a sequence of complete fields. -/
theorem complete_of_ok {extra : List UInt8} {values result : Values}
    (h : zip64Values extra values = Fallible.ok result) :
    ∃ fields trailing, Complete extra fields trailing := by
  refine loop_inv (zip64Turn extra)
    (fun state => state.1 ≤ extra.length ∧ ∃ fields, extra.take state.1 = extraBytes fields)
    (fun answer => ∀ result, answer = .ok result → ∃ fields trailing,
      Complete extra fields trailing) ?_ ?_ _ (0, values) _ ⟨Nat.zero_le _, [], rfl⟩ h result rfl
  · rintro ⟨p, values⟩ state' ⟨-, fields, hfields⟩ hturn
    rcases zip64Turn_eq hturn with ⟨state, heq, hfield⟩ | heq | ⟨heq, -⟩
    · cases heq
      obtain ⟨field, hpassed⟩ := field_of_turn hfield
      refine ⟨(extraField_next hfield).2, fields ++ [field], ?_⟩
      rw [hpassed, hfields, extraBytes, extraBytes, List.flatMap_append, List.flatMap_singleton]
    · cases heq
    · cases heq
  · rintro ⟨p, values⟩ answer ⟨hp, fields, hfields⟩ hturn result rfl
    rcases zip64Turn_eq hturn with ⟨state, heq, -⟩ | heq | ⟨-, hend⟩
    · cases heq
    · cases heq
    · refine ⟨fields, extra.drop p, ?_, ?_⟩
      · rw [← hfields, List.take_append_drop]
      · rw [List.length_drop]
        dsimp only at hp hend
        omega

theorem zip64Values_cases (extra : List UInt8) (values : Values) :
    (∃ result, zip64Values extra values = Fallible.ok result) ∨
      zip64Values extra values = Fallible.fail .invalidZip64 := by
  obtain ⟨answer, hrun, -⟩ := zip64Values_stops extra values
  cases answer with
  | ok result => exact Or.inl ⟨result, hrun⟩
  | error e =>
    refine Or.inr ?_
    have herror : ∀ e', (Except.error e : Except ZipError Values) = .error e' →
        e' = .invalidZip64 := by
      refine loop_inv (zip64Turn extra) (fun _ => True)
        (fun answer => ∀ e', answer = .error e' → e' = .invalidZip64) (fun _ _ _ _ => trivial) ?_ _
        (0, values) _ trivial hrun
      rintro state answer - hturn e' rfl
      rcases zip64Turn_eq hturn with ⟨_, heq, -⟩ | heq | ⟨heq, -⟩
      · cases heq
      · cases heq
        rfl
      · cases heq
    rw [hrun, herror e rfl]
    rfl

theorem bytes_append_inj {field field' : ExtraField} {rest rest' : List UInt8}
    (h : field.bytes ++ rest = field'.bytes ++ rest') : field = field' ∧ rest = rest' := by
  have hinj : ∀ {a b : Nat}, a < 2 ^ 16 → b < 2 ^ 16 → encode 2 a = encode 2 b → a = b := by
    intro a b ha hb heq
    have hvalue := congrArg value heq
    rwa [value_encode_of_lt ha, value_encode_of_lt hb] at hvalue
  obtain ⟨id, data, hdata⟩ := field
  obtain ⟨id', data', hdata'⟩ := field'
  simp only [ExtraField.bytes, List.append_assoc] at h
  obtain ⟨hid, h⟩ := List.append_inj h (by rw [length_encode, length_encode])
  obtain ⟨hlength, h⟩ := List.append_inj h (by rw [length_encode, length_encode])
  obtain ⟨rfl, hrest⟩ := List.append_inj h (hinj hdata hdata' hlength)
  cases UInt16.toNat_inj.mp (hinj id.toNat_lt id'.toNat_lt hid)
  exact ⟨rfl, hrest⟩

theorem four_le_extraBytes (field : ExtraField) (fields : List ExtraField) (rest : List UInt8) :
    4 ≤ (extraBytes (field :: fields) ++ rest).length := by
  rw [extraBytes_cons, List.length_append, List.length_append, field.length_bytes]
  omega

/-- The fields of an area are determined by its bytes. -/
theorem Complete.unique {extra trailing trailing' : List UInt8} {fields fields' : List ExtraField}
    (h : Complete extra fields trailing) (h' : Complete extra fields' trailing') :
    fields = fields' := by
  obtain ⟨rfl, htrailing⟩ := h
  obtain ⟨heq, htrailing'⟩ := h'
  induction fields generalizing fields' with
  | nil =>
    cases fields' with
    | nil => rfl
    | cons field' fields' =>
      have hlong := four_le_extraBytes field' fields' trailing'
      rw [← heq] at hlong
      exact absurd htrailing (Nat.not_lt.mpr hlong)
  | cons field fields ih =>
    cases fields' with
    | nil =>
      have hlong := four_le_extraBytes field fields trailing
      rw [heq] at hlong
      exact absurd htrailing' (Nat.not_lt.mpr hlong)
    | cons field' fields' =>
      rw [extraBytes_cons, extraBytes_cons, List.append_assoc, List.append_assoc] at heq
      obtain ⟨rfl, hrest⟩ := bytes_append_inj heq
      rw [ih hrest]

/-! ### Values that a writer has stored -/

theorem decodeFields_append {trailing : List UInt8} {fields : List ExtraField}
    (hid : ∀ field ∈ fields, field.id ≠ ZIP64_EXTRA) (rest : List ExtraField) (values : Values) :
    decodeFields trailing (fields ++ rest) values = decodeFields trailing rest values := by
  induction fields with
  | nil => rfl
  | cons field fields ih =>
    rw [List.cons_append, decodeFields, if_neg (hid field List.mem_cons_self)]
    exact ih fun f hf => hid f (List.mem_cons_of_mem _ hf)

theorem decodeFields_of_others {trailing : List UInt8} {fields : List ExtraField}
    (hid : ∀ field ∈ fields, field.id ≠ ZIP64_EXTRA) (values : Values) :
    decodeFields trailing fields values = .ok values := by
  have happend : decodeFields trailing (fields ++ []) values = .ok values :=
    decodeFields_append hid [] values
  rwa [List.append_nil] at happend

namespace Format

theorem length_widePart (wide : Bool) (value : UInt64) :
    (widePart wide value).length = 8 * wide.toNat := by
  cases wide with
  | true => exact length_encode 8 _
  | false => rfl

theorem toUInt64_stored {value : UInt64} (h : Storable false value) :
    (stored false value).toUInt64 = value ∧ value ≠ ZIP64_SENTINEL.toUInt64 := by
  have hlt := h rfl
  refine ⟨UInt64.toNat_inj.mp (by simp [stored]; omega), ?_⟩
  rintro rfl
  exact absurd hlt (by decide)

theorem storedValues_of_narrow {wide : Wide} {values : Values} (h : StorableValues wide values)
    (hnarrow : wide.any = false) : storedValues wide values = values := by
  obtain ⟨_, _, _⟩ := wide
  obtain ⟨⟨rfl, rfl⟩, rfl⟩ : (_ ∧ _) ∧ _ := by simpa [Wide.any] using hnarrow
  rw [storedValues, (toUInt64_stored h.uncompressed).1, (toUInt64_stored h.compressed).1,
    (toUInt64_stored h.localOffset).1]

theorem sentinel_stored {wide : Bool} {value : UInt64} (h : Storable wide value) :
    sentinel (stored wide value).toUInt64 = wide.toNat := by
  cases wide with
  | true => rfl
  | false =>
    obtain ⟨hvalue, hne⟩ := toUInt64_stored h
    rw [hvalue]
    exact if_neg hne

/-- A value comes back from behind the words of `earlier` others. -/
theorem replacedValue_stored {wide : Bool} {value : UInt64} (h : Storable wide value)
    {front : List UInt8} {earlier : Nat} (hfront : front.length = 8 * earlier) (back : List UInt8) :
    replacedValue (front ++ (widePart wide value ++ back)) (stored wide value).toUInt64 earlier =
      value := by
  cases wide with
  | true =>
    have hword : ((front ++ (encode 8 value.toNat ++ back)).drop front.length).take 8 =
        encode 8 value.toNat := by
      rw [List.drop_left, List.take_append_of_le_length (by rw [length_encode]),
        List.take_of_length_le (by rw [length_encode])]
    show wordAt (front ++ (encode 8 value.toNat ++ back)) (8 * earlier) = value
    rw [wordAt, ← hfront, hword, value_encode_of_lt value.toNat_lt, UInt64.ofNat_toNat]
  | false =>
    obtain ⟨hvalue, hne⟩ := toUInt64_stored h
    rw [hvalue]
    exact if_neg hne

section Stored

variable {wide : Wide} {values : Values} (h : StorableValues wide values)

include h

theorem sentinels_storedValues : (storedValues wide values).sentinels =
    wide.uncompressed.toNat + wide.compressed.toNat + wide.localOffset.toNat := by
  rw [Values.sentinels, storedValues, sentinel_stored h.uncompressed, sentinel_stored h.compressed,
    sentinel_stored h.localOffset]

theorem length_zip64Data (tail : List UInt8) : (zip64Data wide values tail).length =
    8 * (storedValues wide values).sentinels + tail.length := by
  rw [sentinels_storedValues h]
  simp only [zip64Data, List.length_append, length_widePart]
  omega

theorem replaced_storedValues (tail : List UInt8) :
    (storedValues wide values).replaced (zip64Data wide values tail) = values := by
  have hnone : ([] : List UInt8).length = 8 * 0 := rfl
  have huncompressed := replacedValue_stored h.uncompressed hnone
    (widePart wide.compressed values.compressed ++
      (widePart wide.localOffset values.localOffset ++ tail))
  have hcompressed := replacedValue_stored h.compressed
    (length_widePart wide.uncompressed values.uncompressed)
    (widePart wide.localOffset values.localOffset ++ tail)
  have hboth : (widePart wide.uncompressed values.uncompressed ++
      widePart wide.compressed values.compressed).length =
      8 * (wide.uncompressed.toNat + wide.compressed.toNat) := by
    rw [List.length_append, length_widePart, length_widePart, Nat.mul_add]
  have hoffset := replacedValue_stored h.localOffset hboth tail
  rw [List.append_assoc] at hoffset
  rw [Values.replaced, storedValues, sentinel_stored h.uncompressed, sentinel_stored h.compressed]
  exact (Values.mk.injEq ..).mpr ⟨huncompressed, hcompressed, hoffset⟩

/-- **The values come back.** Whatever other fields the extra data holds, and on
    whichever side of the ZIP64 field they stand. -/
theorem zip64Values_bytes (extra : Extra) (hlen : (extra.bytes wide values).length < 2 ^ 16) :
    zip64Values (extra.bytes wide values) (storedValues wide values) = Fallible.ok values := by
  cases hany : wide.any with
  | false =>
    have hpart : extra.zip64Part wide values = [] := if_neg (by rw [hany]; exact Bool.false_ne_true)
    have hcomplete : Complete (extra.bytes wide values) (extra.before ++ extra.after) [] := by
      refine ⟨?_, Nat.zero_lt_succ 3⟩
      rw [Extra.bytes, hpart, List.append_nil, List.nil_append, extraBytes_append]
    rw [hcomplete.zip64Values_eq, decodeFields_append extra.before_id,
      decodeFields_of_others extra.after_id, storedValues_of_narrow h hany]
    rfl
  | true =>
    have hpart : extra.zip64Part wide values = encode 2 ZIP64_EXTRA.toNat ++
        (encode 2 (zip64Data wide values extra.tail).length ++
          zip64Data wide values extra.tail) := if_pos hany
    have hdata : (zip64Data wide values extra.tail).length < 2 ^ 16 := by
      simp only [Extra.bytes, hpart, List.length_append] at hlen
      omega
    obtain ⟨field, hfield⟩ : ∃ field : ExtraField,
        field = ⟨ZIP64_EXTRA, zip64Data wide values extra.tail, hdata⟩ := ⟨_, rfl⟩
    have hcomplete : Complete (extra.bytes wide values)
        (extra.before ++ field :: extra.after) [] := by
      refine ⟨?_, Nat.zero_lt_succ 3⟩
      rw [Extra.bytes, hpart, List.append_nil, extraBytes_append, extraBytes_cons, hfield,
        ExtraField.bytes]
    have hroom : field.data ++ (extraBytes extra.after ++ []) =
        zip64Data wide values (extra.tail ++ extraBytes extra.after) := by
      simp only [hfield, zip64Data, List.append_assoc, List.append_nil]
    rw [hcomplete.zip64Values_eq, decodeFields_append extra.before_id, decodeFields, hfield,
      if_pos rfl, ← hfield, hroom]
    dsimp only
    rw [if_pos (by rw [length_zip64Data h]; omega), replaced_storedValues h,
      decodeFields_of_others extra.after_id]
    rfl

end Stored

end Format

end ImgTools.Zip

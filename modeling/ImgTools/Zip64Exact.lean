import ImgTools.Zip64Decode

/-!
# Exactly when ZIP64 values are those of the ZIP64 field

The ZIP64 field of an area is its first field of that id. The loop bounds its
reads by the whole area instead of the field, does not look for a field that is
missing, and takes a value that has been replaced by the sentinel as a sentinel
again when another ZIP64 field follows.
-/

namespace ImgTools.Zip

open Exec

open Format (ExtraField extraBytes)

/-- The values that the format gives an entry: every sentinel is replaced by its
    word in the declared data of the ZIP64 field, which has to hold all of them. -/
def prescribed (fields : List ExtraField) (values : Values) : Option Values :=
  if values.sentinels = 0 then some values
  else
    match fields.find? fun field => field.id = ZIP64_EXTRA with
    | none => none
    | some field =>
      if 8 * values.sentinels ≤ field.data.length then some (values.replaced field.data) else none

/-- The values of an area are those of its ZIP64 field, or the area is invalid. -/
structure DecodesField (extra : List UInt8) (values : Values) : Prop where
  accepted : ∀ result, zip64Values extra values = Fallible.ok result →
    ∃ fields trailing, Complete extra fields trailing ∧ prescribed fields values = some result
  rejected : (∀ fields trailing, Complete extra fields trailing → prescribed fields values = none) →
    zip64Values extra values = Fallible.fail .invalidZip64

/-! ### The condition -/

/-- At some ZIP64 field there are fewer than eight bytes left in the whole area
    for each value that is still the sentinel. -/
def Starved (trailing : List UInt8) : List ExtraField → Values → Prop
  | [], _ => False
  | field :: fields, values =>
    if field.id = ZIP64_EXTRA then
      let room := field.data ++ (extraBytes fields ++ trailing)
      room.length < 8 * values.sentinels ∨ Starved trailing fields (values.replaced room)
    else Starved trailing fields values

/-- Every ZIP64 field has sentinels where the values that are still sentinels are taken from. -/
def Repeated (trailing : List UInt8) (values : Values) : List ExtraField → Prop
  | [] => True
  | field :: fields =>
    (field.id = ZIP64_EXTRA →
      values.replaced (field.data ++ (extraBytes fields ++ trailing)) = values) ∧
    Repeated trailing values fields

/-- The ZIP64 field declares a word for every sentinel, and no field behind it
    replaces one of the words again. -/
def Declared (trailing : List UInt8) : List ExtraField → Values → Prop
  | [], _ => False
  | field :: fields, values =>
    if field.id = ZIP64_EXTRA then
      8 * values.sentinels ≤ field.data.length ∧
        Repeated trailing (values.replaced field.data) fields
    else Declared trailing fields values

def Decodable (extra : List UInt8) (values : Values) : Prop :=
  ∀ fields trailing, Complete extra fields trailing →
    values.sentinels = 0 ∨ Starved trailing fields values ∨ Declared trailing fields values

/-! ### Runs over the fields -/

section Fields

variable {trailing : List UInt8}

theorem decodeFields_of_none (fields : List ExtraField) {values : Values}
    (h : values.sentinels = 0) : decodeFields trailing fields values = .ok values := by
  induction fields with
  | nil => rfl
  | cons field fields ih =>
    rw [decodeFields, ih]
    dsimp only
    rw [replaced_of_none h, ih, h, Nat.mul_zero, if_pos (Nat.zero_le _), ite_self]

/-- A run is rejected exactly when it is starved. -/
theorem starved_iff (fields : List ExtraField) (values : Values) :
    Starved trailing fields values ↔
      decodeFields trailing fields values = .error .invalidZip64 := by
  induction fields generalizing values with
  | nil => exact iff_of_false (fun h => h) (by intro h; cases h)
  | cons field fields ih =>
    unfold Starved decodeFields
    split
    · dsimp only
      split
      · next hroom =>
        rw [← ih]
        exact or_iff_right (Nat.not_lt.mpr hroom)
      · next hroom => exact iff_of_true (Or.inl (Nat.lt_of_not_le hroom)) rfl
    · exact ih values

theorem keeps_of_decodeFields {fields : List ExtraField} {values result : Values}
    (h : decodeFields trailing fields values = .ok result) : values.Keeps result := by
  induction fields generalizing values with
  | nil =>
    cases h
    exact .refl _
  | cons field fields ih =>
    unfold decodeFields at h
    split at h
    · dsimp only at h
      split at h
      · exact (Values.Keeps.replaced values _).trans (ih h)
      · cases h
    · exact ih h

/-- A run ends with the values it started with if it has met no other words. -/
theorem eq_iff_repeated {fields : List ExtraField} {values result : Values}
    (h : decodeFields trailing fields values = .ok result) :
    result = values ↔ Repeated trailing values fields := by
  induction fields with
  | nil =>
    cases h
    exact iff_of_true rfl trivial
  | cons field fields ih =>
    unfold decodeFields at h
    split at h
    · next hid =>
      dsimp only at h
      split at h
      · constructor
        · rintro rfl
          have hsame := (Values.Keeps.replaced result _).antisymm (keeps_of_decodeFields h)
          rw [← hsame] at h
          exact ⟨fun _ => hsame.symm, (ih h).mp rfl⟩
        · rintro ⟨hsame, hrepeated⟩
          rw [hsame hid] at h
          exact (ih h).mpr hrepeated
      · cases h
    · next hid =>
      rw [ih h]
      exact (and_iff_right fun hzip => absurd hzip hid).symm

/-- What the format makes of the fields behind one that is not the ZIP64 field. -/
theorem prescribed_cons_of_ne {field : ExtraField} (h : field.id ≠ ZIP64_EXTRA)
    (fields : List ExtraField) (values : Values) :
    prescribed (field :: fields) values = prescribed fields values := by
  unfold prescribed
  rw [List.find?_cons_of_neg (by simpa using h)]

theorem prescribed_cons {field : ExtraField} (h : field.id = ZIP64_EXTRA)
    (fields : List ExtraField) {values : Values} (hsome : values.sentinels ≠ 0) :
    prescribed (field :: fields) values =
      if 8 * values.sentinels ≤ field.data.length then some (values.replaced field.data)
      else none := by
  unfold prescribed
  rw [if_neg hsome, List.find?_cons_of_pos (by simpa using h)]

/-- A run ends with the prescribed values if it has found them declared. -/
theorem prescribed_iff_declared {fields : List ExtraField} {values result : Values}
    (hsome : values.sentinels ≠ 0) (h : decodeFields trailing fields values = .ok result) :
    prescribed fields values = some result ↔ Declared trailing fields values := by
  induction fields with
  | nil =>
    rw [prescribed, if_neg hsome]
    exact iff_of_false (fun h => by cases h) fun h => h
  | cons field fields ih =>
    unfold decodeFields at h
    unfold Declared
    by_cases hid : field.id = ZIP64_EXTRA
    · rw [if_pos hid] at h ⊢
      rw [prescribed_cons hid fields hsome]
      dsimp only at h
      by_cases hlength : 8 * values.sentinels ≤ field.data.length
      · rw [replaced_append hlength] at h
        split at h
        · rw [if_pos hlength, Option.some_inj, eq_comm, eq_iff_repeated h]
          exact (and_iff_right hlength).symm
        · cases h
      · rw [if_neg hlength]
        exact iff_of_false (fun h => by cases h) fun h => hlength h.1
    · rw [if_neg hid] at h ⊢
      rw [prescribed_cons_of_ne hid]
      exact ih h

/-- When a run that ends with values ends with the prescribed ones. -/
theorem prescribed_iff {fields : List ExtraField} {values result : Values}
    (h : decodeFields trailing fields values = .ok result) :
    prescribed fields values = some result ↔
      values.sentinels = 0 ∨ Declared trailing fields values := by
  by_cases hnone : values.sentinels = 0
  · rw [decodeFields_of_none fields hnone] at h
    cases h
    exact iff_of_true (if_pos hnone) (Or.inl hnone)
  · rw [prescribed_iff_declared hnone h]
    exact (or_iff_right hnone).symm

end Fields

/-- **Exactly when the values are those of the ZIP64 field.** -/
theorem decodesField_iff (extra : List UInt8) (values : Values) :
    DecodesField extra values ↔ Decodable extra values := by
  constructor
  · intro h fields trailing hcomplete
    have hrun := hcomplete.zip64Values_eq values
    rcases hdecode : decodeFields trailing fields values with e | result
    · rw [hdecode] at hrun
      rcases zip64Values_cases extra values with ⟨result, hok⟩ | hfail
      · cases hrun.symm.trans hok
      · cases hrun.symm.trans hfail
        exact Or.inr (Or.inl ((starved_iff fields values).mpr hdecode))
    · rw [hdecode] at hrun
      obtain ⟨fields', trailing', hcomplete', hresult⟩ := h.accepted result hrun
      cases hcomplete.unique hcomplete'
      rcases (prescribed_iff hdecode).mp hresult with hnone | hdeclared
      · exact Or.inl hnone
      · exact Or.inr (Or.inr hdeclared)
  · intro h
    have haccepted : ∀ result, zip64Values extra values = Fallible.ok result →
        ∃ fields trailing, Complete extra fields trailing ∧
          prescribed fields values = some result := by
      intro result hrun
      obtain ⟨fields, trailing, hcomplete⟩ := complete_of_ok hrun
      have hdecode : decodeFields trailing fields values = .ok result :=
        Outcome.done.inj ((hcomplete.zip64Values_eq values).symm.trans hrun)
      refine ⟨fields, trailing, hcomplete, (prescribed_iff hdecode).mpr ?_⟩
      rcases h fields trailing hcomplete with hnone | hstarved | hdeclared
      · exact Or.inl hnone
      · cases ((starved_iff fields values).mp hstarved).symm.trans hdecode
      · exact Or.inr hdeclared
    refine ⟨haccepted, fun hnone => ?_⟩
    rcases zip64Values_cases extra values with ⟨result, hok⟩ | hfail
    · obtain ⟨fields, trailing, hcomplete, hresult⟩ := haccepted result hok
      cases (hnone fields trailing hcomplete).symm.trans hresult
    · exact hfail

/-! ### An area whose ZIP64 field is empty -/

/-- A ZIP64 field without data, and a field of another id behind it. -/
def emptyZip64 : List ExtraField := [⟨ZIP64_EXTRA, [], by decide⟩, ⟨0xa, [1, 2, 3, 4], by decide⟩]

/-- The uncompressed size is made of the bytes of the other field, and where
    there is no field at all it stays the sentinel. -/
theorem zip64Values_outside :
    zip64Values [1, 0, 0, 0, 0xa, 0, 4, 0, 1, 2, 3, 4] ⟨0xffffffff, 10, 0⟩ =
        Fallible.ok ⟨0x040302010004000a, 10, 0⟩ ∧
      ¬ DecodesField [1, 0, 0, 0, 0xa, 0, 4, 0, 1, 2, 3, 4] ⟨0xffffffff, 10, 0⟩ ∧
      zip64Values [] ⟨0xffffffff, 10, 0⟩ = Fallible.ok ⟨0xffffffff, 10, 0⟩ ∧
      ¬ DecodesField [] ⟨0xffffffff, 10, 0⟩ := by
  have hother : zip64Values [1, 0, 0, 0, 0xa, 0, 4, 0, 1, 2, 3, 4] ⟨0xffffffff, 10, 0⟩ =
      Fallible.ok ⟨0x040302010004000a, 10, 0⟩ := by decide
  have hnothing : zip64Values [] ⟨0xffffffff, 10, 0⟩ = Fallible.ok ⟨0xffffffff, 10, 0⟩ := by decide
  refine ⟨hother, fun h => ?_, hnothing, fun h => ?_⟩
  · obtain ⟨fields, trailing, hcomplete, hresult⟩ := h.accepted _ hother
    have hfields : Complete [1, 0, 0, 0, 0xa, 0, 4, 0, 1, 2, 3, 4] emptyZip64 [] :=
      ⟨by decide, by decide⟩
    cases hcomplete.unique hfields
    exact absurd hresult (by decide)
  · obtain ⟨fields, trailing, hcomplete, hresult⟩ := h.accepted _ hnothing
    have hfields : Complete [] [] [] := ⟨rfl, by decide⟩
    cases hcomplete.unique hfields
    exact absurd hresult (by decide)

end ImgTools.Zip

import ImgTools.Zip

/-!
# The walk over the central directory

Each turn of the walk stops normally, whatever the directory holds, and moves
the cursor by at least the 46 fixed bytes of a central record without leaving
the directory. A walk that lists its entries has therefore found 46 bytes for
every one of them.
-/

namespace ImgTools.Zip

open Exec

variable {B : Build}

/-! ### Fields inside a buffer -/

theorem u16le_of_le {b : List UInt8} {o : Nat} (h : o + 2 ≤ b.length) :
    ∃ v, u16le b o = .ok v := by
  obtain ⟨n, hn⟩ := Option.isSome_iff_exists.mp (LittleEndian.read?_isSome_iff.mpr h)
  exact ⟨UInt16.ofNat n, by rw [u16le, hn]⟩

theorem u32le_of_le {b : List UInt8} {o : Nat} (h : o + 4 ≤ b.length) :
    ∃ v, u32le b o = .ok v := by
  obtain ⟨n, hn⟩ := Option.isSome_iff_exists.mp (LittleEndian.read?_isSome_iff.mpr h)
  exact ⟨UInt32.ofNat n, by rw [u32le, hn]⟩

/-- The number in `width` bytes at `position`, least significant byte first. -/
def field (bytes : List UInt8) (position width : Nat) : Nat :=
  LittleEndian.value ((bytes.drop position).take width)

theorem field_drop (bytes : List UInt8) (start position width : Nat) :
    field (bytes.drop start) position width = field bytes (start + position) width := by
  rw [field, List.drop_drop, field]

theorem field_lt {bytes : List UInt8} {position width : Nat} (h : position + width ≤ bytes.length) :
    field bytes position width < 256 ^ width := by
  have hlength : ((bytes.drop position).take width).length = width := by
    rw [List.length_take, List.length_drop]
    omega
  have hlt := LittleEndian.value_lt ((bytes.drop position).take width)
  rwa [hlength] at hlt

theorem read?_eq_some {bytes : List UInt8} {position width n : Nat}
    (h : LittleEndian.read? bytes position width = some n) :
    position + width ≤ bytes.length ∧ n = field bytes position width := by
  unfold LittleEndian.read? at h
  split at h
  · next hle => exact ⟨hle, (Option.some.inj h).symm⟩
  · cases h

theorem u16le_eq_ok {b : List UInt8} {o : Nat} {v : UInt16} (h : u16le b o = .ok v) :
    o + 2 ≤ b.length ∧ v.toNat = field b o 2 := by
  unfold u16le at h
  split at h
  · next n hread =>
    obtain ⟨hle, rfl⟩ := read?_eq_some hread
    cases h
    exact ⟨hle, UInt16.toNat_ofNat_of_lt' (field_lt hle)⟩
  · cases h

theorem u32le_eq_ok {b : List UInt8} {o : Nat} {v : UInt32} (h : u32le b o = .ok v) :
    o + 4 ≤ b.length ∧ v.toNat = field b o 4 := by
  unfold u32le at h
  split at h
  · next n hread =>
    obtain ⟨hle, rfl⟩ := read?_eq_some hread
    cases h
    exact ⟨hle, UInt32.toNat_ofNat_of_lt' (field_lt hle)⟩
  · cases h

/-- An addition to the cursor that stays below `cursor + 46` is exact. -/
theorem cursor_add {cursor k : Nat} (hfits : cursor + 46 < 2 ^ B.usizeBits) (hk : k ≤ 46) :
    (B.arith B.usizeBits).add cursor k = .done (cursor + k) :=
  Arith.add_of_fits (Build.arith_fits.mpr (by omega))

section Record

variable {central : List UInt8} {cursor : Nat} (hfits : cursor + 46 < 2 ^ B.usizeBits)

include hfits

theorem u16At_eq {k : Nat} (hk : k ≤ 46) :
    u16At B central cursor k = liftM (u16le central (cursor + k)) := by
  rw [u16At, cursor_add hfits hk, Fallible.lift_done, Fallible.ok_bind]

theorem u32At_eq {k : Nat} (hk : k ≤ 46) :
    u32At B central cursor k = liftM (u32le central (cursor + k)) := by
  rw [u32At, cursor_add hfits hk, Fallible.lift_done, Fallible.ok_bind]

variable (hcursor : cursor + 46 ≤ central.length)

include hcursor

theorem u16At_of_le {k : Nat} (hk : k + 2 ≤ 46) :
    ∃ v, u16At B central cursor k = Fallible.ok v := by
  obtain ⟨v, hv⟩ := u16le_of_le (b := central) (o := cursor + k) (by omega)
  exact ⟨v, by rw [u16At_eq hfits (by omega), hv]; rfl⟩

theorem u32At_of_le {k : Nat} (hk : k + 4 ≤ 46) :
    ∃ v, u32At B central cursor k = Fallible.ok v := by
  obtain ⟨v, hv⟩ := u32le_of_le (b := central) (o := cursor + k) (by omega)
  exact ⟨v, by rw [u32At_eq hfits (by omega), hv]; rfl⟩

theorem centralFields_of_le : ∃ fields, centralFields B central cursor = Fallible.ok fields := by
  obtain ⟨method, h10⟩ := u16At_of_le hfits hcursor (k := 10) (by decide)
  obtain ⟨crc32, h16⟩ := u32At_of_le hfits hcursor (k := 16) (by decide)
  obtain ⟨compressed, h20⟩ := u32At_of_le hfits hcursor (k := 20) (by decide)
  obtain ⟨uncompressed, h24⟩ := u32At_of_le hfits hcursor (k := 24) (by decide)
  obtain ⟨nameLen, h28⟩ := u16At_of_le hfits hcursor (k := 28) (by decide)
  obtain ⟨extraLen, h30⟩ := u16At_of_le hfits hcursor (k := 30) (by decide)
  obtain ⟨commentLen, h32⟩ := u16At_of_le hfits hcursor (k := 32) (by decide)
  obtain ⟨localOffset, h42⟩ := u32At_of_le hfits hcursor (k := 42) (by decide)
  exact ⟨⟨method, crc32, compressed, uncompressed, nameLen, extraLen, commentLen, localOffset⟩,
    by simp [centralFields, h10, h16, h20, h24, h28, h30, h32, h42]⟩

end Record

theorem advance_eq_ok {a b n : Nat} {message : String} :
    advance B a b message = .ok n ↔ a + b < 2 ^ B.usizeBits ∧ n = a + b := by
  unfold advance checkedAdd
  split <;> rename_i h <;> split at h <;> simp_all [eq_comm]

/-- The parts of a central record follow each other. -/
theorem spans_stops (fields : CentralFields) {cursor : Nat}
    (hfits : cursor + 46 < 2 ^ B.usizeBits) :
    Fallible.Stops (spans B fields cursor) fun ends =>
      ends.nameStart = cursor + 46 ∧ ends.nameEnd = ends.nameStart + fields.nameLen.toNat ∧
      ends.extraEnd = ends.nameEnd + fields.extraLen.toNat ∧
      ends.next = ends.extraEnd + fields.commentLen.toNat := by
  unfold spans
  rw [cursor_add hfits (Nat.le_refl 46), Fallible.lift_done, Fallible.ok_bind]
  refine .bind (.except _) fun nameEnd hname => ?_
  refine .bind (.except _) fun extraEnd hextra => ?_
  refine .bind (.except _) fun next hnext => ?_
  exact .ok ⟨rfl, (advance_eq_ok.mp hname).2, (advance_eq_ok.mp hextra).2,
    (advance_eq_ok.mp hnext).2⟩

/-! ### One turn -/

theorem extraField_next {extra : List UInt8} {p : Nat} {values : Values} {state : Nat × Values}
    (h : extraField extra p values = .ok state) : p + 4 ≤ state.1 ∧ state.1 ≤ extra.length := by
  unfold extraField at h
  obtain ⟨id, -, h⟩ := except_bind_eq_ok.mp h
  obtain ⟨len, -, h⟩ := except_bind_eq_ok.mp h
  simp only at h
  split at h
  · cases h
  · next hle =>
    obtain ⟨values', -, h⟩ := except_bind_eq_ok.mp h
    cases h
    exact ⟨Nat.le_add_right _ _, Nat.not_lt.mp hle⟩

theorem zip64Values_stops (extra : List UInt8) (values : Values) :
    Fallible.Stops (zip64Values extra values) fun _ => True := by
  obtain ⟨result, hrun, -⟩ := loop_spec (zip64Turn extra) (fun _ => True)
    (fun state => extra.length - state.1) (fun _ _ => True) (by
      intro state _
      unfold zip64Turn
      split
      · next hlt =>
        split
        · next state' hfield =>
          have hnext := extraField_next hfield
          exact Or.inl ⟨state', rfl, trivial, by omega, fun _ _ => trivial⟩
        · next e _ => exact Or.inr ⟨.error e, rfl, trivial⟩
      · exact Or.inr ⟨.ok state.2, rfl, trivial⟩) (extra.length + 1) (0, values) trivial
    (Nat.lt_succ_self _)
  exact ⟨result, hrun, fun _ _ => trivial⟩

theorem cursor_of_not_damaged {central : List UInt8} {cursor : Nat}
    (h : ¬ isDamaged B central cursor = true) :
    cursor + 46 < 2 ^ B.usizeBits ∧ cursor + 46 ≤ central.length ∧
      hasSignature central cursor CENTRAL_HEADER = true := by
  unfold isDamaged checkedAdd at h
  split at h
  · next e he =>
    split at he
    · next hfits =>
      cases he
      simp only [Bool.or_eq_true, decide_eq_true_eq, Bool.not_eq_true', not_or,
        Bool.not_eq_false] at h
      exact ⟨hfits, Nat.not_lt.mp h.1, h.2⟩
    · cases he
  · simp at h

/-- **What one central record does to the cursor.** -/
theorem centralRecord_stops (central : List UInt8) (index cursor : Nat) :
    Fallible.Stops (centralRecord B central index cursor) fun record =>
      cursor + 46 ≤ record.next ∧ record.next ≤ central.length := by
  unfold centralRecord
  refine .bind .failIf fun _ hwhole => ?_
  obtain ⟨hfits, hcursor, -⟩ := cursor_of_not_damaged hwhole
  obtain ⟨fields, hfields⟩ := centralFields_of_le hfits hcursor
  rw [hfields, Fallible.ok_bind]
  refine .bind (spans_stops fields hfits) fun ends hends => ?_
  refine .bind .failIf fun _ hnext => ?_
  obtain ⟨hstart, hname, hextra, hcomment⟩ := hends
  rw [slice_of_le (by omega) (by omega), Fallible.lift_done, Fallible.ok_bind,
    slice_of_le (by omega) (by omega), Fallible.lift_done, Fallible.ok_bind]
  refine .bind (zip64Values_stops _ _) fun values _ => ?_
  exact .ok ⟨by show cursor + 46 ≤ ends.next; omega, by show ends.next ≤ central.length; omega⟩

section Source

variable {S : Type} [ByteSource S] {content : List UInt8} {P : S → Prop}

theorem dataOffset_stops (hresponds : Responds P) (name : String) (localOffset : UInt64) :
    Reading.Stops P (dataOffset name localOffset) fun _ => True := by
  unfold dataOffset
  refine .bind (.convert (hresponds localOffset 30 (by decide))) fun header _ => ?_
  split
  · exact .fail _
  · refine .bind (.except _) fun localNameLen _ => ?_
    refine .bind (.except _) fun localExtraLen _ => ?_
    refine .bind (.except _) fun start _ => ?_
    refine .bind (.except _) fun lengths _ => ?_
    exact (Reading.Stops.except _).mono fun _ _ => trivial

/-- **What the walk does.** Whatever the directory holds and however many entries
    are asked for, the walk stops normally, and when it lists `count` entries it
    has found the fixed part of a central record for each. -/
theorem walk_stops (hresponds : Responds P) (central : List UInt8)
    (count index cursor : Nat) (hcursor : cursor ≤ central.length) :
    Reading.Stops P (walk (S := S) B central count index cursor) fun _ =>
      cursor + 46 * count ≤ central.length := by
  induction count generalizing index cursor with
  | zero => exact .pure (by omega)
  | succ count ih =>
    unfold walk
    refine .bind (.lift (centralRecord_stops central index cursor)) fun record hrecord => ?_
    refine .bind (dataOffset_stops hresponds _ _) fun dataOffset _ => ?_
    refine .bind (ih (index + 1) record.next hrecord.2) fun entries hentries => ?_
    exact .pure (by omega)

end Source

end ImgTools.Zip

import ImgTools.ZipTiles

/-!
# Whether the data of an entry lies in its source

A local header is read and the place behind it is computed with checked
additions, but the compressed size is neither added nor compared. The data of
the entries lie in the source exactly when the numbers that the archive gives
say so: the offset of a local header, the lengths it records, and the compressed
size of the central record or its ZIP64 field.
-/

namespace ImgTools.Zip

open Exec LittleEndian

def ZipEntry.Inside (entry : ZipEntry) (size : Nat) : Prop :=
  entry.dataOffset.toNat + entry.compressedSize.toNat ≤ size

instance (entry : ZipEntry) (size : Nat) : Decidable (entry.Inside size) :=
  inferInstanceAs (Decidable (_ ≤ _))

/-- The data behind a local header end by byte `size`, by the numbers of the two headers. -/
def EndsBy (size : Nat) (record header : List UInt8) : Prop :=
  ∀ values, recordValues record = Fallible.ok values →
    values.localOffset.toNat + localLength header + values.compressed.toNat ≤ size

theorem Met.entry_inside (met : Met) (size : Nat) :
    met.entry.Inside size ↔ EndsBy size met.bytes met.header := by
  have hinside : met.entry.Inside size ↔
      met.record.values.localOffset.toNat + localLength met.header +
        met.record.values.compressed.toNat ≤ size := by
    rw [← met.dataOffset_eq]
    rfl
  rw [hinside]
  constructor
  · intro h values hvalues
    cases Fallible.ok_inj.mp (met.values_eq.symm.trans hvalues)
    exact h
  · intro h
    exact h met.record.values met.values_eq

/-- **Exactly when every listed entry lies in its source.** -/
theorem inside_iff {S : Type} [ByteSource S] {B : Build} {s s' : S} {entries : List ZipEntry}
    (hlist : (list B).run s = .done (.ok entries, s')) :
    ∃ record central s₁ met last, (readDirectory B).run s = .done (.ok (record, central), s₁) ∧
      Walked B central 0 0 s₁ met last s' ∧ entries = met.map Met.entry ∧
      ((∀ entry ∈ entries, entry.Inside (ByteSource.size s).toNat) ↔
        ∀ m ∈ met, EndsBy (ByteSource.size s).toNat m.bytes m.header) := by
  obtain ⟨record, central, s₁, met, last, hdirectory, hwalked, -, hentries⟩ := walked_of_list hlist
  refine ⟨record, central, s₁, met, last, hdirectory, hwalked, hentries, ?_⟩
  subst hentries
  constructor
  · intro h m hm
    exact (m.entry_inside _).mp (h m.entry (List.mem_map_of_mem hm))
  · intro h entry hentry
    obtain ⟨m, hm, rfl⟩ := List.mem_map.mp hentry
    exact (m.entry_inside _).mpr (h m hm)

/-- The entry of an archive that is whole. -/
theorem inside_iff_counted :
    ∃ record central s₁ met last,
      (readDirectory (.wide .release)).run counted = .done (.ok (record, central), s₁) ∧
      Walked (.wide .release) central 0 0 s₁ met last counted ∧ [nameless] = met.map Met.entry ∧
      ((∀ entry ∈ [nameless], entry.Inside (ByteSource.size counted).toNat) ↔
        ∀ m ∈ met, EndsBy (ByteSource.size counted).toNat m.bytes m.header) :=
  inside_iff list_counted

/-- A record that gives a compressed size of 100 bytes, in an archive of 98. -/
def escaping : MemorySource (.wide .release) := ⟨archive 1 1 100, by decide +kernel⟩

/-- The data of the entry is listed from byte 30 to byte 130. -/
theorem list_escaping :
    (list (.wide .release)).run escaping =
        .done (.ok [{ nameless with compressedSize := 100 }], escaping) ∧
      (ByteSource.size escaping).toNat = 98 ∧
      ¬ ({ nameless with compressedSize := 100 } : ZipEntry).Inside 98 :=
  ⟨by decide +kernel, by decide +kernel, by decide +kernel⟩

end ImgTools.Zip

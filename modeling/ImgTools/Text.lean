import Mathlib.Data.List.Basic

/-!
# Texts put together

Decimal numbers, and lists of texts that are joined by a separator: what is written
is read back, as long as the parts do not contain the separator.
-/

namespace Text

theorem notMem_toDigits {c : Char} (hdigit : c.isDigit = false) (n : Nat) :
    c ∉ Nat.toDigits 10 n := by
  intro hc
  have := Nat.isDigit_of_mem_toDigits (by decide) (by decide) hc
  simp [hdigit] at this

theorem notMem_repr {c : Char} (hdigit : c.isDigit = false) (n : Nat) : c ∉ n.repr.toList := by
  rw [Nat.toList_repr]
  exact notMem_toDigits hdigit n

theorem notMem_intRepr {c : Char} (hdigit : c.isDigit = false) (hsign : c ≠ '-') (n : Int) :
    c ∉ n.repr.toList := by
  cases n with
  | ofNat m => exact notMem_repr hdigit m
  | negSucc m =>
    rw [Int.repr, String.toList_append, Nat.toList_repr, List.mem_append]
    rintro (hc | hc)
    · exact hsign (List.mem_singleton.mp hc)
    · exact notMem_toDigits hdigit _ hc

theorem repr_injective {m n : Nat} (h : m.repr = n.repr) : m = n := by
  have hdigits := congrArg (fun text => Nat.ofDigitChars 10 text.toList 0) h
  simpa only [Nat.toList_repr, Nat.ofDigitChars_ten_toDigits] using hdigits

section Separator

variable {α : Type} [BEq α] [LawfulBEq α] {c : α}

theorem splitOn_injective {text text' : List α} (h : text.splitOn c = text'.splitOn c) :
    text = text' := by
  have hjoin : ∀ text : List α, [c].intercalate (text.splitOn c) = text := fun _ =>
    List.intercalate_splitOn c
  rw [← hjoin text, h, hjoin]

theorem splitOn_append_rows {rows : List (List α)} (hrows : ∀ row ∈ rows, c ∉ row)
    (text : List α) : (text ++ rows.flatMap (c :: ·)).splitOn c = text.splitOn c ++ rows := by
  induction rows generalizing text with
  | nil => rw [List.flatMap_nil, List.append_nil, List.append_nil]
  | cons row rows ih =>
    obtain ⟨hrow, hrest⟩ := List.forall_mem_cons.mp hrows
    rw [List.flatMap_cons, List.cons_append, List.splitOn_append_cons_self, ih hrest,
      List.splitOn_eq_singleton hrow, List.singleton_append]

end Separator

end Text

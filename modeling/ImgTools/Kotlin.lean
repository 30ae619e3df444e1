import Mathlib.Data.List.Basic

/-!
# The Kotlin standard library

What is thrown, and the functions of the Kotlin standard library that take a text
apart, with what they make of a text that was put together. A position counts
characters here and code units there; the two differ only in front of a separator,
which both skip. What the tables of Unicode say is given by `Characters`, of which the
results below need no more than the part that is ASCII.
-/

namespace Kotlin

structure Throwable where
  message : Option String
deriving DecidableEq, Repr

/-- The digits and the blank characters, as `digitOf` and `isWhitespace` know them. -/
structure Characters where
  digit : Char → Option Nat
  isWhitespace : Char → Bool
  digit_ascii : ∀ c : Char, c.toNat < 128 →
    digit c = if c.isDigit then some (c.toNat - 48) else none
  visible_ascii : ∀ c : Char, 32 < c.toNat → c.toNat < 127 → isWhitespace c = false

def Characters.ascii : Characters where
  digit c := if c.isDigit then some (c.toNat - 48) else none
  isWhitespace c := c.isWhitespace
  digit_ascii _ _ := rfl
  visible_ascii c hlow _ := by
    have hne : ∀ d : Char, d.toNat ≤ 32 → c ≠ d := by
      rintro d hd rfl
      exact absurd hd (Nat.not_le.mpr hlow)
    simp [Char.isWhitespace, hne ' ' (by decide), hne '\t' (by decide), hne '\r' (by decide),
      hne '\n' (by decide)]

variable (C : Characters)

/-! ### The functions -/

/-- The number that digits denote behind those of `n`. -/
def number (n : Nat) (digits : List Char) : Option Nat :=
  digits.foldlM (fun n c => (C.digit c).map (10 * n + ·)) n

def unsigned : List Char → Option Nat
  | [] => none
  | digits => number C 0 digits

def inRange (n : Int) : Option Int32 :=
  if Int32.minValue.toInt ≤ n ∧ n ≤ Int32.maxValue.toInt then some (Int32.ofInt n) else none

def toIntOrNull (text : String) : Option Int32 :=
  match text.toList with
  | [] => none
  | first :: rest =>
    if first = '-' then (unsigned C rest).bind fun n => inRange (-n)
    else if first = '+' then (unsigned C rest).bind fun n => inRange n
    else (unsigned C (first :: rest)).bind fun n => inRange n

def isBlank (text : String) : Bool := text.toList.all C.isWhitespace

def indexOf (text : String) (c : Char) : Int :=
  match text.toList.findIdx? (· == c) with
  | some i => i
  | none => -1

def substringBefore (text : String) (c : Char) : String :=
  String.ofList (text.toList.takeWhile (· != c))

def substring (text : String) (start : Nat) : String := String.ofList (text.toList.drop start)

/-! ### Numbers that were written in decimal -/

theorem number_of_isDigit {digits : List Char} (h : ∀ c ∈ digits, c.isDigit) (n : Nat) :
    number C n digits = some (Nat.ofDigitChars 10 digits n) := by
  induction digits generalizing n with
  | nil => rfl
  | cons c digits ih =>
    obtain ⟨hc, hdigits⟩ := List.forall_mem_cons.mp h
    have hascii : c.toNat < 128 := by
      simp only [Char.isDigit, Bool.and_eq_true, decide_eq_true_eq] at hc
      exact Nat.lt_of_le_of_lt hc.2 (by decide)
    have hdigit : C.digit c = some (c.toNat - 48) := by rw [C.digit_ascii c hascii, if_pos hc]
    rw [Nat.ofDigitChars_cons, ← ih hdigits, number, List.foldlM_cons, hdigit]
    rfl

theorem unsigned_toDigits (n : Nat) : unsigned C (Nat.toDigits 10 n) = some n := by
  have hdigits : ∀ c ∈ Nat.toDigits 10 n, c.isDigit := fun c hc =>
    Nat.isDigit_of_mem_toDigits (by decide) (by decide) hc
  have hnumber := number_of_isDigit C hdigits 0
  rw [Nat.ofDigitChars_ten_toDigits] at hnumber
  cases hcases : Nat.toDigits 10 n with
  | nil => exact absurd hcases Nat.toDigits_ne_nil
  | cons c digits => rwa [hcases] at hnumber

theorem toIntOrNull_digits {text : String} {n : Nat} (h : text.toList = Nat.toDigits 10 n) :
    toIntOrNull C text = inRange n := by
  have hvalue := unsigned_toDigits C n
  cases hlist : Nat.toDigits 10 n with
  | nil => exact absurd hlist Nat.toDigits_ne_nil
  | cons first rest =>
    have hdigit : first.isDigit :=
      Nat.isDigit_of_mem_toDigits (n := n) (by decide) (by decide) (hlist ▸ List.mem_cons_self)
    have hsign : ∀ c : Char, c.isDigit = false → first ≠ c := by
      rintro c hc rfl
      exact absurd hdigit (by simp [hc])
    rw [hlist] at h hvalue
    rw [toIntOrNull, h]
    dsimp only
    rw [if_neg (hsign '-' (by decide)), if_neg (hsign '+' (by decide)), hvalue, Option.bind_some]

theorem toIntOrNull_minus {text : String} {digits : List Char} (h : text.toList = '-' :: digits) :
    toIntOrNull C text = (unsigned C digits).bind fun n => inRange (-n) := by
  rw [toIntOrNull, h]
  exact if_pos rfl

theorem inRange_toInt (n : Int32) : inRange n.toInt = some n := by
  rw [inRange, if_pos ⟨n.minValue_le_toInt, n.toInt_le⟩, Int32.ofInt_toInt]

/-- **A number that is written is read back.** -/
theorem toIntOrNull_toString (n : Int32) : toIntOrNull C (toString n) = some n := by
  have htext : toString n = Int.repr n.toInt := rfl
  rw [htext, ← inRange_toInt n]
  cases n.toInt with
  | ofNat m => exact toIntOrNull_digits C Nat.toList_repr
  | negSucc m =>
    have hlist : (Int.repr (.negSucc m)).toList = '-' :: Nat.toDigits 10 (m + 1) := by
      rw [Int.repr, String.toList_append, Nat.toList_repr]
      rfl
    rw [toIntOrNull_minus C hlist, unsigned_toDigits, Option.bind_some, Int.negSucc_eq,
      Int.natCast_succ]

/-! ### Texts with a separator -/

section Separator

variable {before after : String} {c : Char} (h : c ∉ before.toList)

include h

theorem indexOf_append : indexOf (before ++ String.singleton c ++ after) c = before.length := by
  have hfind : (before ++ String.singleton c ++ after).toList.findIdx? (· == c) =
      some before.toList.length := by
    rw [String.toList_append, String.toList_append, String.toList_singleton,
      List.append_assoc, List.findIdx?_append]
    have hnone : before.toList.findIdx? (· == c) = none := by
      rw [List.findIdx?_eq_none_iff]
      rintro d hd
      simpa using fun hdc : d = c => h (hdc ▸ hd)
    rw [hnone]
    simp [List.findIdx?_cons]
  rw [indexOf, hfind, String.length_toList]

theorem substringBefore_append :
    substringBefore (before ++ String.singleton c ++ after) c = before := by
  have htake : (before.toList ++ ([c] ++ after.toList)).takeWhile (· != c) = before.toList := by
    rw [List.takeWhile_append_of_pos]
    · simp
    · intro d hd
      simpa using fun hdc : d = c => h (hdc ▸ hd)
  rw [substringBefore, String.toList_append, String.toList_append, String.toList_singleton,
    List.append_assoc, htake, String.ofList_toList]

end Separator

theorem substring_append (before after : String) (c : Char) :
    substring (before ++ String.singleton c ++ after) (before.length + 1) = after := by
  have hlength : (before.toList ++ [c]).length = before.length + 1 := by
    rw [List.length_append, String.length_toList, List.length_singleton]
  rw [substring, String.toList_append, String.toList_append, String.toList_singleton, ← hlength,
    List.drop_left, String.ofList_toList]

/-- A text with a visible character is not blank. -/
theorem isBlank_eq_false {text : String} {c : Char} (hc : c ∈ text.toList) (hlow : 32 < c.toNat)
    (hhigh : c.toNat < 127) : isBlank C text = false := by
  rw [isBlank, List.all_eq_false]
  exact ⟨c, hc, by simp [C.visible_ascii c hlow hhigh]⟩

theorem isBlank_append (text : String) {rest : String} (h : isBlank C rest = false) :
    isBlank C (text ++ rest) = false := by
  unfold isBlank at h ⊢
  rw [String.toList_append, List.all_append, h, Bool.and_false]

end Kotlin

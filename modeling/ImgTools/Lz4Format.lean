import ImgTools.LittleEndian
import ImgTools.Lz77

/-!
# The LZ4 block format

A block is a list of sequences followed by at most one closing literal run.
Each sequence is a token, a literal run and a back-reference; the two lengths
start in the nibbles of the token and go on in bytes that add up to 255 each.
The low nibble of the token of the closing run means nothing.

`Block.encode` writes a block and `Block.expand` says what it stands for. A
length field has one encoding, so a byte string is the encoding of at most one
block; `lengthField` reads a field back and `readPiece` reads one sequence.
-/

namespace ImgTools.Lz4

/-! ### Lengths -/

def nibble (n : Nat) : Nat := min n 15

/-- The part of a length that follows the token: bytes of 255 and a smaller one. -/
def runs (n : Nat) : List UInt8 :=
  if n < 15 then []
  else List.replicate ((n - 15) / 255) 255 ++ [UInt8.ofNat ((n - 15) % 255)]

def extension : Nat → List UInt8 → Option (Nat × Nat)
  | _, [] => none
  | sum, b :: bs =>
    if b = 255 then (extension (sum + 255) bs).map fun r => (r.1, r.2 + 1)
    else some (sum + b.toNat, 1)

def lengthField (start : Nat) (bytes : List UInt8) : Option (Nat × Nat) :=
  if start = 15 then extension start bytes else some (start, 0)

theorem extension_replicate (sum count : Nat) {last : UInt8} (hlast : last ≠ 255)
    (rest : List UInt8) :
    extension sum (List.replicate count 255 ++ last :: rest) =
      some (sum + 255 * count + last.toNat, count + 1) := by
  induction count generalizing sum with
  | zero => simp [extension, hlast]
  | succ count ih =>
    simp only [List.replicate_succ, List.cons_append, extension, if_true, ih, Option.map_some]
    congr 2
    omega

/-- A run of length bytes that ends is a count of 255s and a smaller byte. -/
theorem extension_eq_some {sum n k : Nat} {bytes : List UInt8}
    (h : extension sum bytes = some (n, k)) :
    ∃ count, ∃ last : UInt8, last ≠ 255 ∧ k = count + 1 ∧ n = sum + 255 * count + last.toNat ∧
      bytes = List.replicate count 255 ++ last :: bytes.drop k := by
  induction bytes generalizing sum n k with
  | nil => simp [extension] at h
  | cons b bs ih =>
    rw [extension] at h
    split at h
    · next hb =>
      obtain ⟨⟨n', k'⟩, hrest, hpair⟩ := Option.map_eq_some_iff.mp h
      obtain ⟨count, last, hlast, hk, hn, hbs⟩ := ih hrest
      simp only [Prod.mk.injEq] at hpair
      refine ⟨count + 1, last, hlast, by omega, by omega, ?_⟩
      rw [← hpair.2, List.drop_succ_cons, List.replicate_succ, List.cons_append, ← hbs, hb]
    · next hb =>
      simp only [Option.some.injEq, Prod.mk.injEq] at h
      exact ⟨0, b, hb, by omega, by omega, by simp [← h.2]⟩

theorem nibble_le (n : Nat) : nibble n ≤ 15 := Nat.min_le_right n 15

theorem lengthField_runs (n : Nat) (rest : List UInt8) :
    lengthField (nibble n) (runs n ++ rest) = some (n, (runs n).length) := by
  unfold lengthField nibble runs
  by_cases hn : n < 15
  · rw [if_neg (by omega), if_pos hn, Nat.min_eq_left (by omega)]
    rfl
  · have hlast : UInt8.ofNat ((n - 15) % 255) ≠ 255 := by
      intro heq
      have hval := congrArg UInt8.toNat heq
      simp only [UInt8.toNat_ofNat', UInt8.reduceToNat] at hval
      omega
    have hbyte : (UInt8.ofNat ((n - 15) % 255)).toNat = (n - 15) % 255 := by
      rw [UInt8.toNat_ofNat']
      omega
    rw [if_pos (by omega), if_neg hn, List.append_assoc, List.singleton_append,
      extension_replicate _ _ hlast, hbyte]
    simp only [List.length_append, List.length_replicate, List.length_singleton]
    congr 2
    omega

/-- A length that can be read is the encoding of its value. -/
theorem lengthField_eq_some {start n k : Nat} {bytes : List UInt8} (hstart : start ≤ 15)
    (h : lengthField start bytes = some (n, k)) :
    start = nibble n ∧ k = (runs n).length ∧ bytes = runs n ++ bytes.drop k := by
  unfold lengthField at h
  split at h
  · next h15 =>
    obtain ⟨count, last, hlast, hk, hn, hbytes⟩ := extension_eq_some h
    have hbound : last.toNat < 255 := by
      have hlt := last.toNat_lt
      have hne : last.toNat ≠ 255 := fun heq => hlast (UInt8.toNat_inj.mp heq)
      omega
    have hruns : runs n = List.replicate count 255 ++ [last] := by
      have hquot : (n - 15) / 255 = count := by omega
      have hrem : (n - 15) % 255 = last.toNat := by omega
      rw [runs, if_neg (by omega), hquot, hrem, UInt8.ofNat_toNat]
    refine ⟨by unfold nibble; omega, by simp [hruns, hk], ?_⟩
    rw [hruns, List.append_assoc, List.singleton_append]
    exact hbytes
  · next h15 =>
    simp only [Option.some.injEq, Prod.mk.injEq] at h
    obtain ⟨rfl, rfl⟩ := h
    have hruns : runs start = [] := if_pos (by omega)
    exact ⟨by unfold nibble; omega, by simp [hruns], by simp [hruns]⟩

/-- The value of a length field is bounded by the bytes it could have used. -/
theorem lengthField_le {start n k : Nat} {bytes : List UInt8} (hstart : start ≤ 15)
    (h : lengthField start bytes = some (n, k)) :
    n ≤ 15 + 255 * k ∧ k ≤ bytes.length := by
  unfold lengthField at h
  split at h
  · obtain ⟨count, last, -, hk, hn, hbytes⟩ := extension_eq_some h
    have hlt := last.toNat_lt
    have hlen := congrArg List.length hbytes
    simp only [List.length_append, List.length_replicate, List.length_cons,
      List.length_drop] at hlen
    omega
  · simp only [Option.some.injEq, Prod.mk.injEq] at h
    omega

/-! ### Sequences and blocks -/

/-- A literal run and a back-reference of at least four bytes. -/
structure Sequence where
  literals : List UInt8
  offset : UInt16
  matchLen : Nat
  minMatch : 4 ≤ matchLen

/-- The closing literal run, with the nibble of its token that is ignored. -/
structure Closing where
  literals : List UInt8
  ignored : Fin 16

structure Block where
  sequences : List Sequence
  closing : Option Closing

def token (high low : Nat) : UInt8 := UInt8.ofNat (16 * high + low)

def Sequence.encode (s : Sequence) : List UInt8 :=
  token (nibble s.literals.length) (nibble (s.matchLen - 4)) ::
    (runs s.literals.length ++ (s.literals ++ (LittleEndian.encode 2 s.offset.toNat ++
      runs (s.matchLen - 4))))

def Closing.encode (c : Closing) : List UInt8 :=
  token (nibble c.literals.length) c.ignored.val :: (runs c.literals.length ++ c.literals)

def Block.encode (b : Block) : List UInt8 :=
  b.sequences.flatMap Sequence.encode ++ (b.closing.map Closing.encode).getD []

def Sequence.step (s : Sequence) : Lz77.Step UInt8 where
  literals := s.literals
  offset := s.offset.toNat
  matchLen := s.matchLen

theorem Sequence.step_apply (s : Sequence) (window : List UInt8) :
    s.step.apply window =
      if 1 ≤ s.offset.toNat ∧ s.offset.toNat ≤ (window ++ s.literals).length then
        some (Lz77.copyBack (window ++ s.literals) s.offset.toNat s.matchLen)
      else none := rfl

/-- What a block stands for after `history`: the history followed by the output. -/
def Block.expand (history : List UInt8) (b : Block) : Option (List UInt8) :=
  (Lz77.expand history (b.sequences.map Sequence.step)).map fun window =>
    window ++ (b.closing.map Closing.literals).getD []

@[simp] theorem Block.encode_empty : (Block.mk [] none).encode = [] := rfl

@[simp] theorem Block.encode_closing (c : Closing) : (Block.mk [] (some c)).encode = c.encode := rfl

@[simp] theorem Block.encode_cons (s : Sequence) (sequences : List Sequence)
    (closing : Option Closing) :
    (Block.mk (s :: sequences) closing).encode =
      s.encode ++ (Block.mk sequences closing).encode := by
  simp [Block.encode]

theorem Block.expand_cons (history : List UInt8) (s : Sequence) (sequences : List Sequence)
    (closing : Option Closing) :
    (Block.mk (s :: sequences) closing).expand history =
      (s.step.apply history).bind (Block.mk sequences closing).expand := by
  rw [Block.expand, List.map_cons, Lz77.expand_cons]
  cases s.step.apply history <;> rfl

theorem Block.prefix_expand {history out : List UInt8} {b : Block}
    (h : b.expand history = some out) : history <+: out := by
  obtain ⟨window, hwindow, rfl⟩ := Option.map_eq_some_iff.mp h
  exact (Lz77.expand_grows hwindow).trans (List.prefix_append _ _)

/-- A block that needs no history stands for the same behind any. -/
theorem Block.expand_append_left {history out : List UInt8} {b : Block}
    (h : b.expand history = some out) (front : List UInt8) :
    b.expand (front ++ history) = some (front ++ out) := by
  obtain ⟨window, hwindow, rfl⟩ := Option.map_eq_some_iff.mp h
  rw [Block.expand, Lz77.expand_append_left hwindow front, Option.map_some, List.append_assoc]

inductive Piece where
  | closing (c : Closing)
  | sequence (s : Sequence) (rest : List UInt8)

def readReference (low : Nat) (literals : List UInt8) : List UInt8 → Option Piece
  | first :: second :: bytes => do
    let (n, k) ← lengthField low bytes
    return .sequence
      { literals := literals
        offset := UInt16.ofNat (LittleEndian.value [first, second])
        matchLen := n + 4
        minMatch := Nat.le_add_left 4 n }
      (bytes.drop k)
  | _ => none

def readPiece : List UInt8 → Option Piece
  | [] => none
  | t :: bytes => do
    let (n, k) ← lengthField (t.toNat / 16) bytes
    let bytes := bytes.drop k
    if bytes.length < n then none
    else if bytes.length = n then
      return .closing ⟨bytes, ⟨t.toNat % 16, Nat.mod_lt _ (by decide)⟩⟩
    else readReference (t.toNat % 16) (bytes.take n) (bytes.drop n)

theorem token_toNat {high low : Nat} (hhigh : high ≤ 15) (hlow : low ≤ 15) :
    (token high low).toNat = 16 * high + low := by
  rw [token, UInt8.toNat_ofNat']
  omega

theorem token_high {high low : Nat} (hhigh : high ≤ 15) (hlow : low ≤ 15) :
    (token high low).toNat / 16 = high := by
  rw [token_toNat hhigh hlow]
  omega

theorem token_low {high low : Nat} (hhigh : high ≤ 15) (hlow : low ≤ 15) :
    (token high low).toNat % 16 = low := by
  rw [token_toNat hhigh hlow]
  omega

theorem high_le (t : UInt8) : t.toNat / 16 ≤ 15 := by
  have hlt := t.toNat_lt
  omega

theorem low_le (t : UInt8) : t.toNat % 16 ≤ 15 := by omega

theorem token_split (t : UInt8) : token (t.toNat / 16) (t.toNat % 16) = t := by
  rw [token, Nat.div_add_mod, UInt8.ofNat_toNat]

@[simp] theorem value_pair (first second : UInt8) :
    LittleEndian.value [first, second] = first.toNat + 256 * second.toNat := rfl

theorem encode_pair (first second : UInt8) :
    LittleEndian.encode 2 (first.toNat + 256 * second.toNat) = [first, second] := by
  have hfirst := first.toNat_lt
  have hlow : UInt8.ofNat (first.toNat + 256 * second.toNat) = first := by
    apply UInt8.toNat_inj.mp
    rw [UInt8.toNat_ofNat']
    omega
  have hhigh : (first.toNat + 256 * second.toNat) / 256 = second.toNat := by omega
  simp only [LittleEndian.encode, hlow, hhigh, UInt8.ofNat_toNat]

theorem readPiece_closing (c : Closing) : readPiece c.encode = some (.closing c) := by
  have hignored : c.ignored.val ≤ 15 := Nat.le_of_lt_succ c.ignored.isLt
  simp only [Closing.encode, readPiece, token_high (nibble_le _) hignored,
    token_low (nibble_le _) hignored, lengthField_runs, List.drop_left', Option.bind_eq_bind,
    Option.bind_some, lt_irrefl, if_true, if_false]
  rfl

theorem readPiece_sequence (s : Sequence) (rest : List UInt8) :
    readPiece (s.encode ++ rest) = some (.sequence s rest) := by
  obtain ⟨literals, offset, matchLen, minMatch⟩ := s
  have hoffset : LittleEndian.encode 2 offset.toNat =
      [UInt8.ofNat offset.toNat, UInt8.ofNat (offset.toNat / 256)] := rfl
  have hvalue : UInt16.ofNat (LittleEndian.value (LittleEndian.encode 2 offset.toNat)) =
      offset := by
    rw [LittleEndian.value_encode_of_lt offset.toNat_lt, UInt16.ofNat_toNat]
  have hmatch : matchLen - 4 + 4 = matchLen := Nat.sub_add_cancel minMatch
  rw [hoffset] at hvalue
  simp only [Sequence.encode, List.cons_append, List.append_assoc, readPiece,
    token_high (nibble_le _) (nibble_le _), token_low (nibble_le _) (nibble_le _),
    lengthField_runs, List.drop_left', Option.bind_eq_bind, Option.bind_some]
  rw [if_neg (by simp), if_neg (by simp [hoffset])]
  simp only [List.take_left', List.drop_left', hoffset, List.cons_append, List.nil_append,
    readReference, lengthField_runs, Option.bind_eq_bind, Option.bind_some, hvalue, hmatch]
  rfl

/-- What `readReference` reads is the tail of the encoding of a sequence. -/
theorem readReference_eq_some {low : Nat} {literals bytes : List UInt8} {piece : Piece}
    (hlow : low ≤ 15) (h : readReference low literals bytes = some piece) :
    ∃ s rest, piece = .sequence s rest ∧ s.literals = literals ∧ low = nibble (s.matchLen - 4) ∧
      bytes = LittleEndian.encode 2 s.offset.toNat ++ (runs (s.matchLen - 4) ++ rest) := by
  match bytes, h with
  | first :: second :: bytes, h =>
    obtain ⟨⟨n, k⟩, hfield, hpiece⟩ := Option.bind_eq_some_iff.mp h
    obtain ⟨hnibble, -, hbytes⟩ := lengthField_eq_some hlow hfield
    have hlt : first.toNat + 256 * second.toNat < 2 ^ 16 := by
      have h1 := first.toNat_lt
      have h2 := second.toNat_lt
      omega
    refine ⟨_, _, (Option.some.inj hpiece).symm, rfl, by simpa using hnibble, ?_⟩
    simp only [value_pair, UInt16.toNat_ofNat_of_lt' hlt, encode_pair, Nat.add_sub_cancel,
      List.cons_append, List.nil_append]
    rw [← hbytes]

/-- A piece that can be read is what the block starts with. -/
theorem readPiece_eq_some {bytes : List UInt8} {piece : Piece} (h : readPiece bytes = some piece) :
    (∃ c, piece = .closing c ∧ bytes = c.encode) ∨
    (∃ s rest, piece = .sequence s rest ∧ bytes = s.encode ++ rest) := by
  match bytes, h with
  | t :: bytes, h =>
    obtain ⟨⟨n, k⟩, hfield, hpiece⟩ := Option.bind_eq_some_iff.mp h
    obtain ⟨hnibble, -, hbytes⟩ := lengthField_eq_some (high_le t) hfield
    simp only at hpiece
    split at hpiece
    · simp at hpiece
    split at hpiece
    · next hlen =>
      left
      refine ⟨_, (Option.some.inj hpiece).symm, ?_⟩
      simp only [Closing.encode, hlen, ← hnibble, token_split]
      rw [← hbytes]
    · right
      obtain ⟨s, rest, rfl, hliterals, hmatch, hrest⟩ := readReference_eq_some (low_le t) hpiece
      have hcount : ((bytes.drop k).take n).length = n := by
        rw [List.length_take]
        omega
      refine ⟨s, rest, rfl, ?_⟩
      rw [Sequence.encode, hliterals, hcount, ← hnibble, ← hmatch, token_split]
      simp only [List.cons_append, List.append_assoc]
      rw [← hrest, List.take_append_drop, ← hbytes]

/-- A block starts with the piece that can be read, and goes on with the rest. -/
theorem Block.head_of_readPiece {b : Block} {piece : Piece}
    (h : readPiece b.encode = some piece) :
    (∃ c, piece = .closing c ∧ b = ⟨[], some c⟩) ∨
    (∃ s rest sequences, piece = .sequence s rest ∧ b = ⟨s :: sequences, b.closing⟩ ∧
      rest = (Block.mk sequences b.closing).encode) := by
  match b with
  | ⟨[], none⟩ => simp [readPiece] at h
  | ⟨[], some c⟩ =>
    rw [Block.encode_closing, readPiece_closing, Option.some.injEq] at h
    exact Or.inl ⟨c, h.symm, rfl⟩
  | ⟨s :: sequences, closing⟩ =>
    rw [Block.encode_cons, readPiece_sequence, Option.some.injEq] at h
    exact Or.inr ⟨s, _, sequences, h.symm, rfl, rfl⟩

theorem Block.readPiece_isSome {b : Block} (h : b.encode ≠ []) :
    ∃ piece, readPiece b.encode = some piece := by
  match b with
  | ⟨[], none⟩ => exact absurd rfl h
  | ⟨[], some c⟩ => exact ⟨_, readPiece_closing c⟩
  | ⟨s :: sequences, closing⟩ =>
    exact ⟨_, by rw [Block.encode_cons, readPiece_sequence]⟩

theorem Block.eq_empty_of_encode {b : Block} (h : b.encode = []) : b = ⟨[], none⟩ := by
  match b with
  | ⟨[], none⟩ => rfl
  | ⟨[], some c⟩ => simp [Closing.encode] at h
  | ⟨s :: sequences, closing⟩ => simp [Sequence.encode] at h

end ImgTools.Lz4

import Mathlib.Data.List.Basic
import Mathlib.Tactic.NormNum

/-!
# Records of 32-bit words

A byte format: every record is its number of words followed by the words, all little-endian. A
record is well formed when its length and its words fit. `wordAt` reads the word at an offset, and
the bytes of a record are read back from wherever they stand.
-/

namespace WordRecords

/-- The number of values of a word. -/
abbrev wordRange : Nat := 4294967296

/-- The bytes of a word, least significant first. -/
def wordBytes (v : Nat) : List UInt8 :=
  [UInt8.ofNat v, UInt8.ofNat (v / 256), UInt8.ofNat (v / 65536), UInt8.ofNat (v / 16777216)]

/-- The word that four bytes make; there is none in fewer or more. -/
def wordOf : List UInt8 → Option Nat
  | [b₀, b₁, b₂, b₃] =>
    some (b₀.toNat + 256 * b₁.toNat + 65536 * b₂.toNat + 16777216 * b₃.toNat)
  | _ => none

/-- The word at offset `s`. -/
def wordAt (a : List UInt8) (s : Nat) : Option Nat := wordOf ((a.drop s).take 4)

/-- A record: its length and its words. -/
def recordBytes (words : List Nat) : List UInt8 :=
  wordBytes words.length ++ words.flatMap wordBytes

/-- The length and the words of a record fit in 32 bits. -/
structure WellFormed (words : List Nat) : Prop where
  length : words.length < wordRange
  words : ∀ w ∈ words, w < wordRange

@[simp] theorem length_wordBytes (v : Nat) : (wordBytes v).length = 4 := rfl

theorem length_flatMap_wordBytes (words : List Nat) :
    (words.flatMap wordBytes).length = 4 * words.length := by
  induction words with
  | nil => rfl
  | cons w words ih =>
    rw [List.flatMap_cons, List.length_append, ih, length_wordBytes, List.length_cons]
    omega

theorem length_recordBytes (words : List Nat) :
    (recordBytes words).length = 4 + 4 * words.length := by
  rw [recordBytes, List.length_append, length_flatMap_wordBytes, length_wordBytes]

theorem wordOf_wordBytes {v : Nat} (h : v < wordRange) : wordOf (wordBytes v) = some v := by
  simp only [wordRange] at h
  simp only [wordBytes, wordOf, UInt8.toNat_ofNat', Option.some.injEq]
  omega

theorem wordAt_append {v : Nat} (h : v < wordRange) (front back : List UInt8) :
    wordAt (front ++ (wordBytes v ++ back)) front.length = some v := by
  rw [wordAt, List.drop_left, List.take_left' (length_wordBytes v), wordOf_wordBytes h]

theorem wordAt_record {words : List Nat} (h : WellFormed words) (front back : List UInt8) :
    wordAt (front ++ (recordBytes words ++ back)) front.length = some words.length := by
  rw [recordBytes, List.append_assoc]
  exact wordAt_append h.length front _

theorem wordAt_record_word {words : List Nat} (h : WellFormed words) (front back : List UInt8)
    {k : Nat} (hk : k < words.length) :
    wordAt (front ++ (recordBytes words ++ back)) (front.length + 4 + 4 * k) = some words[k] := by
  have hwords : words.flatMap wordBytes = (words.take k).flatMap wordBytes ++
      (wordBytes words[k] ++ (words.drop (k + 1)).flatMap wordBytes) := by
    rw [← List.flatMap_cons, ← List.drop_eq_getElem_cons hk, ← List.flatMap_append,
      List.take_append_drop]
  have hbytes : front ++ (recordBytes words ++ back) =
      (front ++ wordBytes words.length ++ (words.take k).flatMap wordBytes) ++
        (wordBytes words[k] ++ ((words.drop (k + 1)).flatMap wordBytes ++ back)) := by
    rw [recordBytes, hwords]
    simp only [List.append_assoc]
  have hlen : front.length + 4 + 4 * k =
      (front ++ wordBytes words.length ++ (words.take k).flatMap wordBytes).length := by
    rw [List.length_append, List.length_append, length_wordBytes, length_flatMap_wordBytes,
      List.length_take, Nat.min_eq_left hk.le]
  rw [hbytes, hlen]
  exact wordAt_append (h.words _ (List.getElem_mem hk)) _ _

end WordRecords

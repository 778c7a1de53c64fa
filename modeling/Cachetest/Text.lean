import Mathlib.Data.Int.Basic
import Mathlib.Data.List.TakeWhile

/-!
# Text

What the C and C++ libraries do with strings, over lists of characters: searching for a substring,
reading a decimal integer, and sorting the arguments of a command into options and operands. A
`Numeral` is an integer as it is written; reading one gives back its value.
-/

/-- A string. -/
abbrev Text := List Char

namespace Text

/-! ## Searching -/

/-- `str.find(del, offset)`: the first position from `offset` on where `del` occurs. -/
def find (str del : Text) (offset : Nat) : Option Nat :=
  (List.range (str.length + 1)).find? fun i => offset ≤ i && del.isPrefixOf (str.drop i)

theorem find_eq_some {str del : Text} {offset it : Nat} :
    find str del offset = some it ↔ it ≤ str.length ∧ offset ≤ it ∧ del <+: str.drop it ∧
      ∀ j < it, offset ≤ j → ¬del <+: str.drop j := by
  simp only [find, List.find?_range_eq_some, Bool.and_eq_true, decide_eq_true_eq,
    List.isPrefixOf_iff_prefix, List.mem_range, Bool.not_eq_true', Bool.and_eq_false_iff,
    decide_eq_false_iff_not, Nat.lt_succ_iff]
  constructor
  · rintro ⟨⟨hoffset, hprefix⟩, hit, hbefore⟩
    refine ⟨hit, hoffset, hprefix, fun j hj hle hprefix' => ?_⟩
    rcases hbefore j hj with h | h
    · exact h hle
    · rw [List.isPrefixOf_iff_prefix.mpr hprefix'] at h
      cases h
  · rintro ⟨hit, hoffset, hprefix, hbefore⟩
    refine ⟨⟨hoffset, hprefix⟩, hit, fun j hj => ?_⟩
    rcases Nat.lt_or_ge j offset with hlt | hge
    · exact Or.inl (by omega)
    · refine Or.inr (Bool.eq_false_iff.mpr fun h => ?_)
      exact hbefore j hj hge (List.isPrefixOf_iff_prefix.mp h)

theorem find_eq_none {str del : Text} {offset : Nat} :
    find str del offset = none ↔
      ∀ i ≤ str.length, offset ≤ i → ¬del <+: str.drop i := by
  simp only [find, List.find?_range_eq_none, Bool.not_eq_true', Bool.and_eq_false_iff,
    decide_eq_false_iff_not, Nat.lt_succ_iff]
  refine forall_congr' fun i => imp_congr_right fun _ => ?_
  rw [← List.isPrefixOf_iff_prefix, Bool.not_eq_true]
  exact imp_iff_not_or.symm

theorem singleton_prefix_drop {str : Text} {c : Char} {i : Nat} :
    [c] <+: str.drop i ↔ str[i]? = some c := by
  rw [← List.head?_drop]
  cases str.drop i with
  | nil => simp
  | cons a rest => simp [List.cons_prefix_cons, eq_comm]

theorem not_mem_take_of_find {str : Text} {c : Char} {offset it : Nat}
    (h : find str [c] offset = some it) : c ∉ (str.drop offset).take (it - offset) := by
  obtain ⟨-, -, -, hbefore⟩ := find_eq_some.mp h
  intro hmem
  obtain ⟨j, hj⟩ := List.mem_iff_getElem?.mp hmem
  rw [List.getElem?_take] at hj
  split at hj
  case isFalse => cases hj
  case isTrue hlt =>
    rw [List.getElem?_drop] at hj
    exact hbefore (offset + j) (by omega) (by omega) (singleton_prefix_drop.mpr hj)

theorem not_mem_drop_of_find {str : Text} {c : Char} {offset : Nat}
    (h : find str [c] offset = none) : c ∉ str.drop offset := by
  intro hmem
  obtain ⟨j, hj⟩ := List.mem_iff_getElem?.mp hmem
  rw [List.getElem?_drop] at hj
  have hlt := (List.getElem?_eq_some_iff.mp hj).1
  exact find_eq_none.mp h (offset + j) (by omega) (by omega) (singleton_prefix_drop.mpr hj)

theorem find_singleton_isSome {str : Text} {c : Char} :
    (find str [c] 0).isSome = true ↔ c ∈ str := by
  constructor
  · intro h
    obtain ⟨it, hit⟩ := Option.isSome_iff_exists.mp h
    obtain ⟨-, -, hprefix, -⟩ := find_eq_some.mp hit
    exact List.mem_of_getElem? (singleton_prefix_drop.mp hprefix)
  · intro h
    by_contra hnone
    exact not_mem_drop_of_find (Option.not_isSome_iff_eq_none.mp hnone) h

theorem mem_of_mem_intercalate {x c : Char} {texts : List Text} (h : c ∈ [x].intercalate texts) :
    c = x ∨ ∃ t ∈ texts, c ∈ t := by
  induction texts with
  | nil => simp at h
  | cons t texts ih =>
    cases texts with
    | nil =>
      rw [List.intercalate_singleton] at h
      exact Or.inr ⟨t, List.mem_cons_self, h⟩
    | cons t' texts =>
      rw [List.intercalate_cons_cons, List.append_assoc, List.mem_append, List.singleton_append,
        List.mem_cons] at h
      rcases h with h | h | h
      · exact Or.inr ⟨t, List.mem_cons_self, h⟩
      · exact Or.inl h
      · refine (ih h).imp_right fun ⟨t', ht', hc⟩ => ⟨t', List.mem_cons_of_mem _ ht', hc⟩

theorem intercalate_ne_nil {x : Char} {t : Text} (ht : t ≠ []) (texts : List Text) :
    [x].intercalate (t :: texts) ≠ [] := by
  cases texts with
  | nil => rwa [List.intercalate_singleton]
  | cons t' texts =>
    rw [List.intercalate_cons_cons]
    simp [ht]

theorem mem_of_mem_splitOn {str t : Text} {x c : Char} (ht : t ∈ str.splitOn x) (hc : c ∈ t) :
    c ∈ str ∧ c ≠ x := by
  induction str generalizing t with
  | nil =>
    rw [List.splitOn_nil, List.mem_singleton] at ht
    exact absurd (ht ▸ hc) List.not_mem_nil
  | cons a str ih =>
    rw [List.splitOn_cons_eq_if_modifyHead] at ht
    split at ht
    case isTrue =>
      rcases List.mem_cons.mp ht with rfl | ht
      · exact absurd hc List.not_mem_nil
      · exact ⟨List.mem_cons_of_mem _ (ih ht hc).1, (ih ht hc).2⟩
    case isFalse hne =>
      obtain ⟨first, rest, hparts⟩ := List.exists_cons_of_ne_nil (List.splitOn_ne_nil x str)
      rw [hparts, List.modifyHead_cons] at ht
      rw [hparts] at ih
      rcases List.mem_cons.mp ht with rfl | ht
      · rcases List.mem_cons.mp hc with rfl | hc
        · exact ⟨List.mem_cons_self, fun heq => hne (beq_iff_eq.mpr heq)⟩
        · have h := ih List.mem_cons_self hc
          exact ⟨List.mem_cons_of_mem _ h.1, h.2⟩
      · have h := ih (List.mem_cons_of_mem _ ht) hc
        exact ⟨List.mem_cons_of_mem _ h.1, h.2⟩

/-! ## Integers -/

/-- `isspace`. -/
def isSpace (c : Char) : Bool := c = ' ' || (9 ≤ c.toNat && c.toNat ≤ 13)

/-- The number that decimal digits stand for. -/
def digitsValue (digits : Text) : Nat := digits.foldl (fun v c => 10 * v + (c.toNat - 48)) 0

/-- The number a string starts with, if it starts with a digit. -/
def scanDigits (str : Text) : Option Nat :=
  let digits := str.takeWhile Char.isDigit
  if digits = [] then none else some (digitsValue digits)

/-- What `strtol` and its relatives read in base 10: white space, a sign and digits, ignoring what
follows; `none` when there are no digits. -/
def scanInteger (str : Text) : Option Int :=
  match str.dropWhile isSpace with
  | '-' :: rest => (scanDigits rest).map fun n => -(n : Int)
  | '+' :: rest => (scanDigits rest).map fun n => (n : Int)
  | rest => (scanDigits rest).map fun n => (n : Int)

theorem not_isSpace_of_le {c : Char} (h : 48 ≤ c.toNat) :
    isSpace c = false ∧ c ≠ '-' ∧ c ≠ '+' := by
  refine ⟨?_, ?_, ?_⟩
  · have hne : c ≠ ' ' := by
      rintro rfl
      exact absurd h (by decide)
    have hlarge : ¬c.toNat ≤ 13 := by omega
    simp [isSpace, hne, hlarge]
  · rintro rfl
    exact absurd h (by decide)
  · rintro rfl
    exact absurd h (by decide)

theorem scanInteger_nonneg {str : Text} {v : Int} (hminus : '-' ∉ str)
    (h : scanInteger str = some v) : 0 ≤ v := by
  unfold scanInteger at h
  split at h
  case h_1 rest heq =>
    exact absurd ((List.dropWhile_sublist _).subset (heq ▸ List.mem_cons_self)) hminus
  case h_2 rest _ =>
    cases hscan : scanDigits rest with
    | none => simp [hscan] at h
    | some n =>
      obtain rfl : (n : Int) = v := by simpa [hscan] using h
      exact Int.natCast_nonneg n
  case h_3 =>
    cases hscan : scanDigits (str.dropWhile isSpace) with
    | none => simp [hscan] at h
    | some n =>
      obtain rfl : (n : Int) = v := by simpa [hscan] using h
      exact Int.natCast_nonneg n

theorem ne_nil_of_scanInteger {str : Text} {v : Int} (h : scanInteger str = some v) :
    str ≠ [] := by
  rintro rfl
  cases h

/-- An integer as it is written: digits, with a minus sign in front if it is negative. -/
structure Numeral where
  minus : Bool
  digits : Text
  digits_ne_nil : digits ≠ []
  isDigit : ∀ c ∈ digits, c.isDigit = true
  minus_pos : minus = true → 0 < digitsValue digits

namespace Numeral

variable (n : Numeral)

def text : Text := if n.minus then '-' :: n.digits else n.digits

/-- A single digit. -/
def digit (c : Char) (h : c.isDigit = true) : Numeral where
  minus := false
  digits := [c]
  digits_ne_nil := List.cons_ne_nil _ _
  isDigit := by simpa using h
  minus_pos h := by cases h

/-- Any string of digits. -/
def ofDigits (digits : Text) (hne : digits ≠ []) (h : ∀ c ∈ digits, c.isDigit = true) :
    Numeral where
  minus := false
  digits := digits
  digits_ne_nil := hne
  isDigit := h
  minus_pos h := by cases h

def value : Int := if n.minus then -(digitsValue n.digits : Int) else digitsValue n.digits

variable {n}

theorem value_neg_iff : n.value < 0 ↔ n.minus = true := by
  unfold value
  cases hminus : n.minus with
  | false => simp
  | true => simpa using n.minus_pos hminus

theorem text_ne_nil (n : Numeral) : n.text ≠ [] := by
  unfold text
  split
  · exact List.cons_ne_nil _ _
  · exact n.digits_ne_nil

theorem isDigit_or_minus {c : Char} (h : c ∈ n.text) :
    c.isDigit = true ∨ c = '-' ∧ n.minus = true := by
  unfold text at h
  split at h
  case isTrue hminus =>
    rcases List.mem_cons.mp h with rfl | hdigit
    · exact Or.inr ⟨rfl, hminus⟩
    · exact Or.inl (n.isDigit c hdigit)
  case isFalse => exact Or.inl (n.isDigit c h)

theorem scanDigits_digits (n : Numeral) : scanDigits n.digits = some (digitsValue n.digits) := by
  have hall : n.digits.takeWhile Char.isDigit = n.digits := by
    exact List.takeWhile_eq_self_iff.mpr n.isDigit
  rw [scanDigits, hall]
  exact if_neg n.digits_ne_nil

theorem not_isSpace_of_isDigit {c : Char} (h : c.isDigit = true) :
    isSpace c = false ∧ c ≠ '-' ∧ c ≠ '+' := by
  have hbounds : 48 ≤ c.toNat ∧ c.toNat ≤ 57 := by
    simpa [Char.isDigit, UInt32.le_iff_toNat_le] using h
  exact not_isSpace_of_le hbounds.1

/-- Reading a numeral gives back its value. -/
theorem scanInteger_text (n : Numeral) : scanInteger n.text = some n.value := by
  obtain ⟨c, rest, hdigits⟩ := List.exists_cons_of_ne_nil n.digits_ne_nil
  obtain ⟨hspace, hminus, hplus⟩ := not_isSpace_of_isDigit (n.isDigit c (by simp [hdigits]))
  have hscan := n.scanDigits_digits
  unfold text value
  split
  · have hfirst : isSpace '-' = false := by decide
    simp [scanInteger, hfirst, hscan]
  · rw [hdigits] at hscan ⊢
    simp only [scanInteger, List.dropWhile_cons, hspace, Bool.false_eq_true, if_false]
    split
    · simp_all
    · simp_all
    · rw [hscan]
      rfl

theorem not_mem_text {c : Char} (hdigit : c.isDigit = false) (hminus : c ≠ '-') :
    c ∉ n.text := by
  intro h
  rcases n.isDigit_or_minus h with h | ⟨h, -⟩
  · rw [hdigit] at h
    cases h
  · exact hminus h

theorem splitOn_minus (n : Numeral) :
    n.text.splitOn '-' = if n.minus then [[], n.text.tail] else [n.text] := by
  have hdigits : '-' ∉ n.digits := fun h => by
    have := n.isDigit _ h
    revert this
    decide
  unfold text
  split
  case isTrue hminus =>
    have hsplit : ([] ++ '-' :: n.digits).splitOn '-' = [] :: n.digits.splitOn '-' :=
      List.splitOn_append_cons_self_of_not_mem List.not_mem_nil n.digits
    rw [List.nil_append, List.splitOn_eq_singleton hdigits] at hsplit
    exact hsplit
  case isFalse => exact List.splitOn_eq_singleton hdigits

end Numeral

/-! ## Options -/

/-- Whether an option takes an argument; `none` for a character that is no option. -/
def takesArgument (optstring : Text) (c : Char) : Option Bool :=
  if c = ':' then none
  else
    match optstring.dropWhile (· ≠ c) with
    | [] => none
    | _ :: ':' :: _ => some true
    | _ => some false

/-- The options in one argument, the dash removed, and the one whose argument has to follow. -/
def scanCluster (optstring : Text) : Text → List (Char × Text) × Option Char
  | [] => ([], none)
  | c :: cs =>
    match takesArgument optstring c with
    | some true => if cs = [] then ([], some c) else ([(c, cs)], none)
    | some false =>
      let (options, pending) := scanCluster optstring cs
      ((c, []) :: options, pending)
    | none =>
      let (options, pending) := scanCluster optstring cs
      (('?', []) :: options, pending)

/-- All that `getopt` returns, in order, with `optarg`, and the operands it moves to the end. -/
def getopt (optstring : Text) : List Text → List (Char × Text) × List Text
  | [] => ([], [])
  | arg :: args =>
    if arg = ['-', '-'] then ([], args)
    else if arg.head? = some '-' ∧ arg ≠ ['-'] then
      let (flags, pending) := scanCluster optstring arg.tail
      match pending, args with
      | none, args =>
        let (options, operands) := getopt optstring args
        (flags ++ options, operands)
      | some _, [] => (flags ++ [('?', [])], [])
      | some c, optarg :: args =>
        let (options, operands) := getopt optstring args
        (flags ++ (c, optarg) :: options, operands)
    else
      let (options, operands) := getopt optstring args
      (options, arg :: operands)

end Text

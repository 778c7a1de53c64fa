import Cachetest.Hexadecimal
import Cachetest.PerfCachetest

/-!
# The events of `-e`

`Perf_Cachetest::parseEvents` on x86-64. The text is cut at its commas; an item is `r` and a code, a
colon and the name of a test, or an event id, which a token for the mask may follow. Every item
becomes one event. An event id without a mask leaves `unitmask` as it is, and as nothing initialises
the `Event`, that can be any value.
-/

namespace Cachetest

open Text Hexadecimal

/-! ## Reading numbers and tokens -/

/-- `0x` may precede the digits. -/
def dropHexPrefix : Text → Text
  | '0' :: 'x' :: s => s
  | '0' :: 'X' :: s => s
  | s => s

/-- The number a string starts with, if it starts with a hexadecimal digit. -/
def scanHexDigits (s : Text) : Option Nat :=
  let digits := (dropHexPrefix s).takeWhile isHexDigit
  if digits = [] then none else some (hexValue digits)

/-- A number as an unsigned value of `w` bits, if it fits. -/
def fitUnsigned (w value : Nat) : Option (BitVec w) :=
  if value < 2 ^ w then some (BitVec.ofNat w value) else none

/-- What `from_string` reads with `std::hex` into an unsigned type of `w` bits: white space, a sign
and digits, ignoring what follows. It fails without a digit and on overflow; a minus sign negates
modulo the size of the type. -/
def fromString (w : Nat) (s : Text) : Option (BitVec w) :=
  match s.dropWhile isSpace with
  | '-' :: rest => do
    let value ← scanHexDigits rest
    let value ← fitUnsigned w value
    return -value
  | '+' :: rest => do
    let value ← scanHexDigits rest
    fitUnsigned w value
  | rest => do
    let value ← scanHexDigits rest
    fitUnsigned w value

/-- The tokens `strtok` returns one after the other: what is between commas and not empty. -/
def tokens (string : Text) : List Text := (string.splitOn ',').filter (· ≠ [])

/-! ## Events -/

/-- The event of a code `r` precedes. -/
def codeEvent (code : BitVec 64) : Event :=
  let eventid : BitVec 32 := ((code >>> 32) &&& 0xF).setWidth 32
  { eventid := ((eventid <<< 8).setWidth 64 ||| (0xFF &&& code)).setWidth 32
    unitmask := ((code >>> 8) &&& 0xFF).setWidth 32
    stringEvent := [] }

/-- The event of a test, for which `addEvent` looks at the name. -/
def testEvent (testName : Text) : Event where
  eventid := -1
  unitmask := -1
  stringEvent := customPrefix ++ testName

def illFormed (idx : Text) : Stop :=
  .exited (String.ofList idx ++ " is an ill-formed event id string\n") 1

def tooManyEvents : Stop :=
  .exited ("We don't want more then 4 events simultaneously\nThis leads to multiplexing\n" ++
    "Exiting\n") 1

/-- The loop over the tokens. `unset i` is the value event `i` has in a member that is not assigned.
A token that was fetched for the mask of an event but is none is the next item: `goto skip`. -/
def parseTokens (unset : Nat → BitVec 32) (numEvents : Nat) (events : List Event) :
    List Text → Outcome (List Event)
  | [] => .ok events
  | idx :: rest =>
    if numEvents + 1 > 4 then .error tooManyEvents
    else
      match idx with
      | 'r' :: str =>
        match fromString 64 str with
        | none => .error (illFormed idx)
        | some code => parseTokens unset (numEvents + 1) (events ++ [codeEvent code]) rest
      | ':' :: testName =>
        if testName = l1dHitTestName ∨ testName = l1dMissTestName then
          parseTokens unset (numEvents + 1) (events ++ [testEvent testName]) rest
        else .error (.exited (String.ofList testName ++ " not recognized\n") 1)
      | str =>
        match fromString 32 str with
        | none => .error (illFormed idx)
        | some eventid =>
          match rest with
          | ('u' :: maskStr) :: rest =>
            match fromString 32 maskStr with
            | none => .error (illFormed ('u' :: maskStr))
            | some unitmask =>
              parseTokens unset (numEvents + 1) (events ++ [⟨eventid, unitmask, []⟩]) rest
          | rest =>
            parseTokens unset (numEvents + 1) (events ++ [⟨eventid, unset numEvents, []⟩]) rest

/-- `Perf_Cachetest::parseEvents`; `none` stands for the null pointer. -/
def parseEvents (unset : Nat → BitVec 32) (string : Text) : Outcome (Option (List Event)) := do
  let events ← parseTokens unset 0 [] (tokens string)
  return if events.length ≠ 0 then some events else none

/-! ## Items -/

/-- What can be between commas, an event id and its mask being one item. -/
inductive EventItem where
  | code (l : Literal)
  | test (testName : Text) (known : testName = l1dHitTestName ∨ testName = l1dMissTestName)
  | event (eventid : Literal) (unitmask : Option Literal)

namespace EventItem

/-- The tokens of an item. -/
def parts : EventItem → List Text
  | code l => ['r' :: l.digits]
  | test testName _ => [':' :: testName]
  | event eventid none => [eventid.digits]
  | event eventid (some unitmask) => [eventid.digits, 'u' :: unitmask.digits]

def text (item : EventItem) : Text := [','].intercalate item.parts

/-- The numbers fit the variables they are read into. -/
def Fits : EventItem → Prop
  | code l => l.value < 2 ^ 64
  | test _ _ => True
  | event eventid unitmask => eventid.value < 2 ^ 32 ∧ ∀ mask ∈ unitmask, mask.value < 2 ^ 32

/-- The item is an event id without a mask. -/
def Bare : EventItem → Prop
  | event _ none => True
  | _ => False

instance : DecidablePred Fits
  | code l => inferInstanceAs (Decidable (l.value < _))
  | test _ _ => instDecidableTrue
  | event _ _ => inferInstanceAs (Decidable (_ ∧ _))

instance : DecidablePred Bare
  | event _ none => instDecidableTrue
  | event _ (some _) => instDecidableFalse
  | code _ => instDecidableFalse
  | test _ _ => instDecidableFalse

/-- The event of an item, with the value of a mask that is not written. -/
def toEvent (unwritten : BitVec 32) : EventItem → Event
  | code l => codeEvent (.ofNat 64 l.value)
  | test testName _ => testEvent testName
  | event eventid none => ⟨.ofNat 32 eventid.value, unwritten, []⟩
  | event eventid (some unitmask) => ⟨.ofNat 32 eventid.value, .ofNat 32 unitmask.value, []⟩

end EventItem

/-- The argument of `-e` made of items. -/
def eventsText (items : List EventItem) : Text := [','].intercalate (items.map EventItem.text)

/-! ## Reading the numbers -/

theorem le_toNat_of_isHexDigit {c : Char} (h : isHexDigit c = true) : 48 ≤ c.toNat := by
  simp only [isHexDigit, Char.isDigit, Bool.or_eq_true, Bool.and_eq_true, decide_eq_true_eq,
    ge_iff_le, UInt32.le_iff_toNat_le, Char.le_def] at h
  rcases h with (h | h) | h
  · exact h.1
  · exact le_trans (by decide) h.1
  · exact le_trans (by decide) h.1

/-- `x` is no digit, so digits have no prefix. -/
theorem scanHexDigits_digits (l : Literal) : scanHexDigits l.digits = some l.value := by
  have hprefix : dropHexPrefix l.digits = l.digits := by
    unfold dropHexPrefix
    split
    case h_1 s heq => exact absurd (heq ▸ by simp) (l.not_mem_digits (c := 'x') (by decide))
    case h_2 s heq => exact absurd (heq ▸ by simp) (l.not_mem_digits (c := 'X') (by decide))
    case h_3 => rfl
  rw [scanHexDigits, hprefix, l.takeWhile_digits]
  exact if_neg l.digits_ne_nil

theorem fromString_digits (l : Literal) {w : Nat} (hfits : l.value < 2 ^ w) :
    fromString w l.digits = some (BitVec.ofNat w l.value) := by
  obtain ⟨c, rest, hdigits, hc⟩ := l.exists_digits
  obtain ⟨hspace, hminus, hplus⟩ := not_isSpace_of_le (le_toNat_of_isHexDigit hc)
  have hskip : l.digits.dropWhile isSpace = l.digits := by
    rw [hdigits, List.dropWhile_cons, hspace]
    rfl
  have hfit : fitUnsigned w l.value = some (BitVec.ofNat w l.value) := if_pos hfits
  rw [fromString, hskip]
  split
  case h_1 rest' heq =>
    rw [hdigits] at heq
    exact absurd (List.cons.inj heq).1 hminus
  case h_2 rest' heq =>
    rw [hdigits] at heq
    exact absurd (List.cons.inj heq).1 hplus
  case h_3 => rw [scanHexDigits_digits, Option.bind_eq_bind, Option.bind_some, hfit]

/-! ## Cutting the text -/

theorem tokens_append (s t : Text) : tokens (s ++ ',' :: t) = tokens s ++ tokens t := by
  rw [tokens, List.splitOn_append_cons_self, List.filter_append]
  rfl

theorem tokens_intercalate (texts : List Text) :
    tokens ([','].intercalate texts) = texts.flatMap tokens := by
  induction texts with
  | nil => rfl
  | cons t texts ih =>
    cases texts with
    | nil => rw [List.intercalate_singleton, List.flatMap_singleton]
    | cons t' texts =>
      rw [List.intercalate_cons_cons, List.flatMap_cons, ← ih, List.append_assoc,
        List.singleton_append, tokens_append]

theorem tokens_of_token {t : Text} (hne : t ≠ []) (hfree : ',' ∉ t) : tokens t = [t] := by
  rw [tokens, List.splitOn_eq_singleton hfree]
  exact List.filter_eq_self.mpr fun u hu => decide_eq_true (List.mem_singleton.mp hu ▸ hne)

theorem tokens_texts {texts : List Text} (h : ∀ t ∈ texts, t ≠ [] ∧ ',' ∉ t) :
    texts.flatMap tokens = texts := by
  rw [List.flatMap_congr fun t ht => tokens_of_token (h t ht).1 (h t ht).2]
  exact List.flatMap_singleton' texts

namespace EventItem

theorem tokens_text (item : EventItem) : tokens item.text = item.parts := by
  have hcomma : isHexDigit ',' = false := by decide
  rw [text, tokens_intercalate]
  refine tokens_texts fun t ht => ?_
  cases item with
  | code l =>
    rw [parts, List.mem_singleton] at ht
    exact ht ▸ ⟨List.cons_ne_nil _ _, List.not_mem_cons_of_ne_of_not_mem
      (by decide) (l.not_mem_digits hcomma)⟩
  | test testName known =>
    rw [parts, List.mem_singleton] at ht
    refine ht ▸ ⟨List.cons_ne_nil _ _, ?_⟩
    rcases known with rfl | rfl <;> decide
  | event eventid unitmask =>
    cases unitmask with
    | none =>
      rw [parts, List.mem_singleton] at ht
      exact ht ▸ ⟨eventid.digits_ne_nil, eventid.not_mem_digits hcomma⟩
    | some unitmask =>
      rw [parts, List.mem_cons] at ht
      rcases ht with rfl | ht
      · exact ⟨eventid.digits_ne_nil, eventid.not_mem_digits hcomma⟩
      · rw [List.mem_singleton] at ht
        exact ht ▸ ⟨List.cons_ne_nil _ _, List.not_mem_cons_of_ne_of_not_mem
          (by decide) (unitmask.not_mem_digits hcomma)⟩

end EventItem

theorem tokens_eventsText (items : List EventItem) :
    tokens (eventsText items) = items.flatMap EventItem.parts := by
  rw [eventsText, tokens_intercalate, List.flatMap_map]
  exact List.flatMap_congr fun item _ => item.tokens_text

/-! ## Running the loop -/

section Loop

variable {unset : Nat → BitVec 32} {numEvents : Nat} {events : List Event} {item : EventItem}
  {rest : List Text}

theorem parseTokens_digits (hcount : numEvents < 4) (l : Literal) (hfits : l.value < 2 ^ 32) :
    parseTokens unset numEvents events (l.digits :: rest) =
      match rest with
      | ('u' :: maskStr) :: rest =>
        match fromString 32 maskStr with
        | none => .error (illFormed ('u' :: maskStr))
        | some unitmask => parseTokens unset (numEvents + 1)
            (events ++ [⟨.ofNat 32 l.value, unitmask, []⟩]) rest
      | rest => parseTokens unset (numEvents + 1)
          (events ++ [⟨.ofNat 32 l.value, unset numEvents, []⟩]) rest := by
  obtain ⟨c, cs, hdigits, hc⟩ := l.exists_digits
  have hr : c ≠ 'r' := by
    rintro rfl
    exact absurd hc (by decide)
  have hcolon : c ≠ ':' := by
    rintro rfl
    exact absurd hc (by decide)
  have hread := fromString_digits l hfits
  rw [hdigits] at hread ⊢
  rw [parseTokens, if_neg (by omega), hread]
  · exact fun str heq => hr (List.cons.inj heq).1
  · exact fun str heq => hcolon (List.cons.inj heq).1

/-- One pass through the loop takes one item, unless the item after it is taken for its mask. -/
theorem parseTokens_item (hcount : numEvents < 4) (hfits : item.Fits)
    (hrest : ∀ maskStr rest', rest ≠ ('u' :: maskStr) :: rest') :
    parseTokens unset numEvents events (item.parts ++ rest) =
      parseTokens unset (numEvents + 1) (events ++ [item.toEvent (unset numEvents)]) rest := by
  cases item with
  | code l =>
    have hread := fromString_digits l hfits
    rw [EventItem.parts, List.singleton_append, parseTokens, if_neg (by omega), hread]
    rfl
  | test testName known =>
    rw [EventItem.parts, List.singleton_append, parseTokens, if_neg (by omega), if_pos known]
    rfl
  | event eventid unitmask =>
    cases unitmask with
    | none =>
      rw [EventItem.parts, List.singleton_append, parseTokens_digits hcount eventid hfits.1]
      split
      case h_1 maskStr rest' => exact absurd rfl (hrest maskStr rest')
      case h_2 => rfl
    | some mask =>
      have hmask := fromString_digits mask (hfits.2 mask rfl)
      rw [EventItem.parts, List.cons_append, List.singleton_append,
        parseTokens_digits hcount eventid hfits.1]
      simp only [hmask]
      rfl

theorem parts_ne_mask (items : List EventItem) (maskStr : Text) (rest' : List Text) :
    items.flatMap EventItem.parts ≠ ('u' :: maskStr) :: rest' := by
  intro h
  cases items with
  | nil => cases h
  | cons item items =>
    have hdigits : ∀ l : Literal, l.digits ≠ 'u' :: maskStr := fun l hl =>
      l.not_mem_digits (c := 'u') (by decide) (hl ▸ List.mem_cons_self)
    cases item with
    | code l => exact absurd (List.cons.inj (List.cons.inj h).1).1 (by decide)
    | test testName known => exact absurd (List.cons.inj (List.cons.inj h).1).1 (by decide)
    | event eventid unitmask =>
      cases unitmask with
      | none => exact hdigits eventid (List.cons.inj h).1
      | some mask => exact hdigits eventid (List.cons.inj h).1

/-- The events of the items, the first of which is event `numEvents`. -/
def itemEvents (unset : Nat → BitVec 32) : Nat → List EventItem → List Event
  | _, [] => []
  | numEvents, item :: items =>
    item.toEvent (unset numEvents) :: itemEvents unset (numEvents + 1) items

theorem parseTokens_items {items : List EventItem} (hcount : numEvents + items.length ≤ 4)
    (hfits : ∀ item ∈ items, item.Fits) :
    parseTokens unset numEvents events (items.flatMap EventItem.parts) =
      .ok (events ++ itemEvents unset numEvents items) := by
  induction items generalizing numEvents events with
  | nil => simp [parseTokens, itemEvents]
  | cons item items ih =>
    rw [List.length_cons] at hcount
    rw [List.forall_mem_cons] at hfits
    rw [List.flatMap_cons, parseTokens_item (by omega) hfits.1 (parts_ne_mask items),
      ih (by omega) hfits.2, itemEvents, List.append_assoc, List.singleton_append]

theorem itemEvents_const (unwritten : BitVec 32) (n : Nat) (items : List EventItem) :
    itemEvents (fun _ => unwritten) n items = items.map (EventItem.toEvent unwritten) := by
  induction items generalizing n with
  | nil => rfl
  | cons item items ih => rw [itemEvents, ih, List.map_cons]

end Loop

namespace EventItem

/-- A mask that is not written matters to an event id without a mask only. -/
theorem toEvent_eq_iff {item : EventItem} {m n : BitVec 32} (hne : m ≠ n) :
    item.toEvent m = item.toEvent n ↔ ¬item.Bare := by
  cases item with
  | code l => exact iff_of_true rfl id
  | test testName known => exact iff_of_true rfl id
  | event eventid unitmask =>
    cases unitmask with
    | none => simpa [toEvent, Bare] using hne
    | some mask => exact iff_of_true rfl id

end EventItem

theorem itemEvents_of_not_bare {items : List EventItem} (h : ∀ item ∈ items, ¬item.Bare)
    (unset : Nat → BitVec 32) (n : Nat) :
    itemEvents unset n items = items.map (EventItem.toEvent 0) := by
  induction items generalizing n with
  | nil => rfl
  | cons item items ih =>
    rw [List.forall_mem_cons] at h
    rw [itemEvents, ih h.2, List.map_cons]
    congr 1
    by_cases hzero : unset n = 0
    · rw [hzero]
    · exact (EventItem.toEvent_eq_iff hzero).mpr h.1

theorem parseEvents_eventsText {items : List EventItem} (hone : 1 ≤ items.length)
    (hfour : items.length ≤ 4) (hfits : ∀ item ∈ items, item.Fits) (unset : Nat → BitVec 32) :
    parseEvents unset (eventsText items) = .ok (some (itemEvents unset 0 items)) := by
  have hlength : (itemEvents unset 0 items).length ≠ 0 := by
    cases items with
    | nil => cases hone
    | cons item items => exact Nat.succ_ne_zero _
  rw [parseEvents, tokens_eventsText, parseTokens_items (by omega) hfits, List.nil_append, ok_bind,
    if_pos hlength]
  rfl

theorem parseEvents_text (item : EventItem) (hfits : item.Fits) (unset : Nat → BitVec 32) :
    parseEvents unset item.text = .ok (some [item.toEvent (unset 0)]) := by
  have htext : eventsText [item] = item.text := by
    rw [eventsText, List.map_singleton, List.intercalate_singleton]
  have hlength : [item].length = 1 := List.length_singleton
  rw [← htext, parseEvents_eventsText hlength.ge (by omega)
    (List.forall_mem_singleton.mpr hfits), itemEvents, itemEvents]

/-- For every text of one to four items: each becomes one event that depends on the item alone, with
mask 0 if none is written, if and only if there is no event id without a mask. -/
theorem parseEvents_items_iff (items : List EventItem) (hone : 1 ≤ items.length)
    (hfour : items.length ≤ 4) (hfits : ∀ item ∈ items, item.Fits) :
    (∀ unset, parseEvents unset (eventsText items) = .ok (some (items.map (EventItem.toEvent 0)))) ↔
      ∀ item ∈ items, ¬item.Bare := by
  simp only [parseEvents_eventsText hone hfour hfits, Except.ok.injEq, Option.some.injEq]
  constructor
  · intro h item hmem
    have hone := h fun _ => 1
    rw [itemEvents_const, List.map_inj_left] at hone
    exact (EventItem.toEvent_eq_iff (by decide)).mp (hone item hmem)
  · intro h unset
    exact itemEvents_of_not_bare h unset 0

/-- `c0,u1,:l1d_hit,r4301c0`. -/
def threeForms : List EventItem :=
  [.event (.ofNat 0xc0) (some (.ofNat 1)), .test l1dHitTestName (.inl rfl), .code (.ofNat 0x4301c0)]

theorem parseEvents_items_iff_three_forms :
    parseEvents (fun _ => 7) "c0,u1,:l1d_hit,r4301c0".toList =
      .ok (some [⟨0xc0, 1, []⟩, testEvent l1dHitTestName, ⟨0xc0, 1, []⟩]) :=
  (parseEvents_items_iff threeForms (by decide) (by decide) (by decide)).mpr (by decide) _

/-- The mask of the second event is what the first one, all of whose mask bits are set, has left in
its place. -/
theorem parseEvents_bare_unset :
    parseEvents (fun _ => -1) ":l1d_miss,3c".toList =
        .ok (some [testEvent l1dMissTestName, ⟨0x3c, -1, []⟩]) ∧
      eventsText [.test l1dMissTestName (Or.inr rfl), .event (.ofNat 0x3c) none] =
        ":l1d_miss,3c".toList ∧
      ¬∀ unset, parseEvents unset ":l1d_miss,3c".toList =
        .ok (some [testEvent l1dMissTestName, ⟨0x3c, 0, []⟩]) := by
  refine ⟨by decide +kernel, by decide +kernel, fun h => ?_⟩
  have hstale := h fun _ => -1
  revert hstale
  decide +kernel

end Cachetest

import Cachetest.ParseEvents

/-!
# The code of an event

The two ways to write an event of the processor. A code has the unit mask in bits 8 to 15 and the
event id in bits 0 to 7 and 32 to 35; the other form gives the 12 bits of the id and the mask. Both
parse to the same event, and `addEvent` puts its bits back where they were in the code.
-/

namespace Cachetest

open Hexadecimal

/-! ## Masks -/

theorem getLsbD_lowMask {w n : Nat} (hn : n ≤ w) (i : Nat) :
    (BitVec.ofNat w (2 ^ n - 1)).getLsbD i = decide (i < n) := by
  rw [BitVec.getLsbD_ofNat, Nat.testBit_two_pow_sub_one]
  by_cases hi : i < n
  · simp [hi, lt_of_lt_of_le hi hn]
  · simp [hi]

theorem getLsbD_fieldMask (w lo hi : Nat) (hle : lo ≤ hi) (hhi : hi ≤ w) (i : Nat) :
    (BitVec.ofNat w (2 ^ (hi - lo) - 1) <<< lo).getLsbD i = decide (lo ≤ i ∧ i < hi) := by
  rw [BitVec.getLsbD_shiftLeft, getLsbD_lowMask (by omega)]
  by_cases hlo : i < lo
  · simp [hlo, show ¬lo ≤ i by omega]
  · by_cases hi' : i < hi
    · simp [hlo, hi', show i < w by omega, show i - lo < hi - lo by omega, show lo ≤ i by omega]
    · simp [hlo, hi', show ¬i - lo < hi - lo by omega]

/-! ## The event of a code -/

section Code

variable (code : BitVec 64)

theorem getLsbD_eventid (i : Nat) : (codeEvent code).eventid.getLsbD i =
    (decide (i < 8) && code.getLsbD i ||
      decide (8 ≤ i ∧ i < 12) && code.getLsbD (i + 24)) := by
  have hF : ∀ i, (0xF#64).getLsbD i = decide (i < 4) := getLsbD_lowMask (n := 4) (by decide)
  have hFF : ∀ i, (0xFF#64).getLsbD i = decide (i < 8) := getLsbD_lowMask (n := 8) (by decide)
  simp only [codeEvent, BitVec.ofNat_eq_ofNat, BitVec.getLsbD_setWidth, BitVec.getLsbD_or,
    BitVec.getLsbD_and, BitVec.getLsbD_shiftLeft, BitVec.getLsbD_ushiftRight, hF, hFF]
  grind

theorem getLsbD_unitmask (i : Nat) :
    (codeEvent code).unitmask.getLsbD i = (decide (i < 8) && code.getLsbD (i + 8)) := by
  have hFF : ∀ i, (0xFF#64).getLsbD i = decide (i < 8) := getLsbD_lowMask (n := 8) (by decide)
  simp only [codeEvent, BitVec.ofNat_eq_ofNat, BitVec.getLsbD_setWidth, BitVec.getLsbD_and,
    BitVec.getLsbD_ushiftRight, hFF]
  grind

/-- Where `addEvent` puts the bits of the id and the mask. -/
theorem getLsbD_rawConfig (eventId unitMask : BitVec 32) {i : Nat} (hi : i < 64) :
    (rawConfig eventId unitMask).getLsbD i = ((0x10000#64).getLsbD i ||
      decide (32 ≤ i ∧ i < 36) && eventId.getLsbD (i - 24) ||
      decide (i < 8) && eventId.getLsbD i ||
      decide (8 ≤ i ∧ i < 16) && unitMask.getLsbD (i - 8)) := by
  have hhigh : ∀ i, (0xF00000000#64).getLsbD i = decide (32 ≤ i ∧ i < 36) :=
    getLsbD_fieldMask 64 32 36 (by decide) (by decide)
  have hlow : ∀ i, (0xFF#32).getLsbD i = decide (i < 8) := getLsbD_lowMask (n := 8) (by decide)
  have hmask : ∀ i, (0xFF00#32).getLsbD i = decide (8 ≤ i ∧ i < 16) :=
    getLsbD_fieldMask 32 8 16 (by decide) (by decide)
  simp only [rawConfig]
  change ((0x10000#64 ||| (eventId.setWidth 64 <<< 24 &&& 0xF00000000#64) |||
    (eventId &&& 0xFF#32).setWidth 64 ||| (unitMask <<< 8 &&& 0xFF00#32).setWidth 64)).getLsbD i = _
  simp only [BitVec.getLsbD_setWidth, BitVec.getLsbD_or, BitVec.getLsbD_and,
    BitVec.getLsbD_shiftLeft, hhigh, hlow, hmask]
  grind

/-- The id and the mask survive being taken apart and put together, and nothing else does. -/
theorem rawConfig_codeEvent :
    rawConfig (codeEvent code).eventid (codeEvent code).unitmask =
      code &&& 0xF0000FFFF ||| 0x10000 := by
  have hboth : ∀ i, (0xF0000FFFF#64).getLsbD i = (decide (32 ≤ i ∧ i < 36) || decide (i < 16)) := by
    intro i
    have hhigh := getLsbD_fieldMask 64 32 36 (by decide) (by decide) i
    have hlow := getLsbD_lowMask (w := 64) (n := 16) (by decide) i
    rw [← hhigh, ← hlow, ← BitVec.getLsbD_or]
    rfl
  apply BitVec.eq_of_getLsbD_eq
  intro i hi
  rw [getLsbD_rawConfig _ _ hi]
  simp only [BitVec.ofNat_eq_ofNat, BitVec.getLsbD_or, BitVec.getLsbD_and, getLsbD_eventid,
    getLsbD_unitmask, hboth]
  grind

theorem setWidth_eventid : (codeEvent code).eventid.setWidth 64 =
    (code >>> 32 &&& 0xF) <<< 8 ||| (code &&& 0xFF) := by
  have hF : ∀ i, (0xF#64).getLsbD i = decide (i < 4) := getLsbD_lowMask (n := 4) (by decide)
  have hFF : ∀ i, (0xFF#64).getLsbD i = decide (i < 8) := getLsbD_lowMask (n := 8) (by decide)
  apply BitVec.eq_of_getLsbD_eq
  intro i hi
  simp only [BitVec.ofNat_eq_ofNat, BitVec.getLsbD_setWidth, BitVec.getLsbD_or,
    BitVec.getLsbD_and, BitVec.getLsbD_shiftLeft, BitVec.getLsbD_ushiftRight, getLsbD_eventid, hF,
    hFF]
  grind

theorem setWidth_unitmask :
    (codeEvent code).unitmask.setWidth 64 = code >>> 8 &&& 0xFF := by
  have hFF : ∀ i, (0xFF#64).getLsbD i = decide (i < 8) := getLsbD_lowMask (n := 8) (by decide)
  apply BitVec.eq_of_getLsbD_eq
  intro i hi
  simp only [BitVec.ofNat_eq_ofNat, BitVec.getLsbD_setWidth, BitVec.getLsbD_and,
    BitVec.getLsbD_ushiftRight, getLsbD_unitmask, hFF]
  grind

/-- The event id has 12 bits, so the event is not taken for a test. -/
theorem eventid_ne : (codeEvent code).eventid ≠ -1 := by
  intro h
  have hbit := getLsbD_eventid code 31
  rw [h] at hbit
  exact absurd hbit (by simp)

theorem attr_codeEvent : (codeEvent code).attr =
    .ok (eventAttr perfTypeRaw (code &&& 0xF0000FFFF ||| 0x10000)) := by
  rw [Event.attr, if_neg fun h => eventid_ne code h.1, rawConfig_codeEvent]

end Code

/-! ## The two texts -/

theorem value_setWidth (x : BitVec 32) :
    (Literal.ofNat (x.setWidth 64).toNat).value < 2 ^ 32 ∧
      BitVec.ofNat 32 (Literal.ofNat (x.setWidth 64).toNat).value = x := by
  rw [Literal.value_ofNat, BitVec.toNat_setWidth_of_le (by decide)]
  exact ⟨x.isLt, by rw [BitVec.ofNat_toNat, BitVec.setWidth_eq]⟩

/-- For every code: the code after `r`, and its event id and unit mask in the other form, parse to
one and the same event, for which `addEvent` sets these bits of the code and bit 16. -/
theorem parseEvents_both_forms (code : BitVec 64) (unset : Nat → BitVec 32) :
    ∃ event : Event,
      parseEvents unset ('r' :: Nat.toDigits 16 code.toNat) = .ok (some [event]) ∧
      parseEvents unset
        (Nat.toDigits 16 ((code >>> 32 &&& 0xF) <<< 8 ||| (code &&& 0xFF)).toNat ++ ',' :: 'u' ::
          Nat.toDigits 16 (code >>> 8 &&& 0xFF).toNat) = .ok (some [event]) ∧
      event.attr = .ok (eventAttr perfTypeRaw (code &&& 0xF0000FFFF ||| 0x10000)) := by
  refine ⟨codeEvent code, ?_, ?_, attr_codeEvent code⟩
  · have hvalue := Literal.value_ofNat code.toNat
    have hparse := parseEvents_text (.code (.ofNat code.toNat))
      (hvalue.trans_lt code.isLt) unset
    rwa [EventItem.text, EventItem.parts, List.intercalate_singleton, EventItem.toEvent, hvalue,
      BitVec.ofNat_toNat, BitVec.setWidth_eq] at hparse
  · rw [← setWidth_eventid, ← setWidth_unitmask]
    obtain ⟨hid, heventid⟩ := value_setWidth (codeEvent code).eventid
    obtain ⟨hmask, hunitmask⟩ := value_setWidth (codeEvent code).unitmask
    have hparse := parseEvents_text (.event
      (.ofNat ((codeEvent code).eventid.setWidth 64).toNat)
      (some (.ofNat ((codeEvent code).unitmask.setWidth 64).toNat)))
      ⟨hid, fun mask hmem => Option.some.inj hmem ▸ hmask⟩ unset
    rw [EventItem.text, EventItem.parts, List.intercalate_cons_cons, List.intercalate_singleton,
      EventItem.toEvent, heventid, hunitmask, List.append_assoc] at hparse
    exact hparse

end Cachetest

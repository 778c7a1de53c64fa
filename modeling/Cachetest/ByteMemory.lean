import Mathlib.Data.List.Pairwise
import Mathlib.Tactic.NormNum

/-!
# Byte memory with 32-bit words

A flat memory of bytes, read and written through little-endian 32-bit words at arbitrary byte
addresses. Words may overlap, so every law about a store says which bytes it touches:

* `load_store_self`, `load_store_of_apart`: a word reads back what was stored there, and is
  untouched by a store to a word it does not overlap;
* `load_congr`: a word depends only on its own four bytes;
* `byte_fillWords_ones`: what a run of stores at every byte address of a range leaves behind;
* `lineWord_apart`, `lineWord_inj`: words laid out in lines.
-/

namespace ByteMemory

/-- A flat memory: one byte at every address. -/
@[ext] structure Memory where
  byte : Nat → UInt8

/-- The memory of all zeros. -/
def zeros : Memory := ⟨fun _ => 0⟩

/-- The number of values of a 32-bit word. -/
abbrev wordRange : Nat := 4294967296

/-- Two words, given by their addresses, share no byte. -/
def Apart (a b : Nat) : Prop := a + 4 ≤ b ∨ b + 4 ≤ a

instance (a b : Nat) : Decidable (Apart a b) := by unfold Apart; infer_instance

theorem Apart.symm {a b : Nat} (h : Apart a b) : Apart b a := Or.symm h

instance : Std.Symm Apart where
  symm _ _ h := h.symm

theorem Apart.ne {a b : Nat} (h : Apart a b) : a ≠ b := by
  rcases h with h | h <;> omega

theorem Apart.outside {a b c : Nat} (h : Apart a b) (hc : a ≤ c) (hc' : c < a + 4) :
    c < b ∨ b + 4 ≤ c := by
  rcases h with h | h <;> omega

namespace Memory

/-- The little-endian word at address `a`. -/
def load (m : Memory) (a : Nat) : Nat :=
  (m.byte a).toNat + 256 * (m.byte (a + 1)).toNat + 65536 * (m.byte (a + 2)).toNat +
    16777216 * (m.byte (a + 3)).toNat

/-- Write the low 32 bits of `v` at address `a`, least significant byte first. -/
def store (m : Memory) (a v : Nat) : Memory where
  byte b := if a ≤ b ∧ b < a + 4 then UInt8.ofNat (v / 256 ^ (b - a)) else m.byte b

/-! ## Reading after writing -/

theorem load_lt (m : Memory) (a : Nat) : m.load a < wordRange := by
  have h₀ := (m.byte a).toNat_lt
  have h₁ := (m.byte (a + 1)).toNat_lt
  have h₂ := (m.byte (a + 2)).toNat_lt
  have h₃ := (m.byte (a + 3)).toNat_lt
  unfold load wordRange
  omega

theorem byte_store_of_lt (m : Memory) {a b : Nat} (v : Nat) (h : b < a) :
    (m.store a v).byte b = m.byte b := by
  simp only [store]
  rw [if_neg (by omega)]

theorem byte_store_of_ge (m : Memory) {a b : Nat} (v : Nat) (h : a + 4 ≤ b) :
    (m.store a v).byte b = m.byte b := by
  simp only [store]
  rw [if_neg (by omega)]

theorem byte_store_of_outside (m : Memory) {a b : Nat} (v : Nat) (h : b < a ∨ a + 4 ≤ b) :
    (m.store a v).byte b = m.byte b := by
  rcases h with h | h
  · exact byte_store_of_lt m v h
  · exact byte_store_of_ge m v h

theorem byte_store_add (m : Memory) (a v : Nat) {k : Nat} (h : k < 4) :
    (m.store a v).byte (a + k) = UInt8.ofNat (v / 256 ^ k) := by
  simp only [store]
  rw [if_pos (by omega), Nat.add_sub_cancel_left]

/-- A word depends only on its own bytes. -/
theorem load_congr {m m' : Memory} {a : Nat} (h : ∀ b, a ≤ b → b < a + 4 → m.byte b = m'.byte b) :
    m.load a = m'.load a := by
  simp only [load]
  rw [h a (by omega) (by omega), h (a + 1) (by omega) (by omega), h (a + 2) (by omega) (by omega),
    h (a + 3) (by omega) (by omega)]

theorem load_congr_of_lt {m m' : Memory} {a hi : Nat} (ha : a + 4 ≤ hi)
    (h : ∀ b < hi, m.byte b = m'.byte b) : m.load a = m'.load a :=
  load_congr fun b _ hb => h b (by omega)

theorem load_eq_zero {m : Memory} {a : Nat} (h : ∀ t < 4, m.byte (a + t) = 0) : m.load a = 0 := by
  simp only [load]
  rw [← Nat.add_zero a, h 0 (by omega), Nat.add_zero, h 1 (by omega), h 2 (by omega),
    h 3 (by omega)]
  rfl

theorem load_store_self (m : Memory) (a v : Nat) : (m.store a v).load a = v % wordRange := by
  have h₀ := byte_store_add m a v (k := 0) (by omega)
  have h₁ := byte_store_add m a v (k := 1) (by omega)
  have h₂ := byte_store_add m a v (k := 2) (by omega)
  have h₃ := byte_store_add m a v (k := 3) (by omega)
  simp only [Nat.add_zero] at h₀
  simp only [load, h₀, h₁, h₂, h₃, UInt8.toNat_ofNat', wordRange]
  norm_num
  omega

theorem load_store_of_lt (m : Memory) (a : Nat) {v : Nat} (h : v < wordRange) :
    (m.store a v).load a = v := by
  rw [load_store_self, Nat.mod_eq_of_lt h]

theorem load_store_of_apart (m : Memory) {a b : Nat} (v : Nat) (h : Apart a b) :
    (m.store a v).load b = m.load b := by
  apply load_congr
  intro c hb hc
  exact byte_store_of_outside m v (h.symm.outside hb hc)

/-- Memories that agree outside some words agree on every word apart from these. -/
theorem load_eq_of_outside {m m' : Memory} {lo c : Nat} {words : List Nat}
    (h : ∀ b, lo ≤ b → (∀ a ∈ words, b < a ∨ a + 4 ≤ b) → m.byte b = m'.byte b) (hlo : lo ≤ c)
    (hapart : ∀ a ∈ words, Apart c a) : m.load c = m'.load c :=
  load_congr fun b hb hb' => h b (hlo.trans hb) fun a ha => (hapart a ha).outside hb hb'

/-- A store of the value a word already holds changes nothing. -/
theorem byte_eq_of_load_eq {m m' : Memory} {a : Nat} (h : m.load a = m'.load a) :
    ∀ b, a ≤ b → b < a + 4 → m.byte b = m'.byte b := by
  have h₀ := (m.byte a).toNat_lt
  have h₁ := (m.byte (a + 1)).toNat_lt
  have h₂ := (m.byte (a + 2)).toNat_lt
  have h₀' := (m'.byte a).toNat_lt
  have h₁' := (m'.byte (a + 1)).toNat_lt
  have h₂' := (m'.byte (a + 2)).toNat_lt
  simp only [load] at h
  intro b hb hb'
  apply UInt8.toNat_inj.mp
  obtain rfl | rfl | rfl | rfl : b = a ∨ b = a + 1 ∨ b = a + 2 ∨ b = a + 3 := by omega
  all_goals omega

/-! ## Filling a range -/

/-- Store `v` at every byte address from `base` to `base + count - 1`, in order. Consecutive
stores overlap in three bytes, and the last one reaches `base + count + 2`. -/
def fillWords (m : Memory) (base count v : Nat) : Memory :=
  (List.range count).foldl (fun m i => m.store (base + i) v) m

theorem fillWords_succ (m : Memory) (base count v : Nat) :
    m.fillWords base (count + 1) v = (m.fillWords base count v).store (base + count) v := by
  simp [fillWords, List.range_succ]

/-- Filling with the all-ones word sets every byte the stores reach and no other. -/
theorem byte_fillWords_ones (m : Memory) (base count b : Nat) :
    (m.fillWords base count (wordRange - 1)).byte b =
      if base ≤ b ∧ b < base + count + 3 ∧ 0 < count then 255 else m.byte b := by
  induction count with
  | zero => simp [fillWords]
  | succ count ih =>
    rw [fillWords_succ]
    by_cases hb : base + count ≤ b ∧ b < base + count + 4
    · obtain ⟨k, hk, rfl⟩ : ∃ k, k < 4 ∧ b = base + count + k := ⟨b - (base + count), by omega⟩
      rw [byte_store_add _ _ _ hk, if_pos (by omega)]
      obtain rfl | rfl | rfl | rfl : k = 0 ∨ k = 1 ∨ k = 2 ∨ k = 3 := by omega
      all_goals decide
    · have hout : ((m.fillWords base count (wordRange - 1)).store (base + count)
          (wordRange - 1)).byte b = (m.fillWords base count (wordRange - 1)).byte b :=
        byte_store_of_outside _ _ (by omega)
      rw [hout, ih]
      by_cases hc : base ≤ b ∧ b < base + count + 3 ∧ 0 < count
      · rw [if_pos hc, if_pos (by omega)]
      · rw [if_neg hc, if_neg (by omega)]

end Memory

/-! ## Words laid out in lines -/

/-- The address of word `s` of line `l`, for lines of `size` bytes from `base` on. -/
def lineWord (base size l s : Nat) : Nat := base + l * size + s * 4

section LineWord

variable {base size n l l' s s' : Nat}

theorem lineWord_add_four_le (base s' : Nat) (hs : (s + 1) * 4 ≤ size) (h : l < l') :
    lineWord base size l s + 4 ≤ lineWord base size l' s' := by
  have hline : (l + 1) * size ≤ l' * size := Nat.mul_le_mul_right _ h
  rw [Nat.succ_mul] at hline
  unfold lineWord
  omega

theorem le_lineWord (base size l s : Nat) : base ≤ lineWord base size l s := by
  unfold lineWord
  omega

theorem lineWord_le (base : Nat) (hs : (s + 1) * 4 ≤ size) (h : l < n) :
    lineWord base size l s + 4 ≤ base + n * size :=
  lineWord_add_four_le base 0 hs h

theorem lineWord_inj (hs : (s + 1) * 4 ≤ size) (hs' : (s' + 1) * 4 ≤ size)
    (heq : lineWord base size l s = lineWord base size l' s') : l = l' ∧ s = s' := by
  rcases Nat.lt_trichotomy l l' with h | rfl | h
  · have := lineWord_add_four_le base s' hs h
    omega
  · unfold lineWord at heq
    omega
  · have := lineWord_add_four_le base s hs' h
    omega

theorem lineWord_apart (hs : (s + 1) * 4 ≤ size) (hs' : (s' + 1) * 4 ≤ size)
    (hne : lineWord base size l s ≠ lineWord base size l' s') :
    Apart (lineWord base size l s) (lineWord base size l' s') := by
  rcases Nat.lt_trichotomy l l' with h | rfl | h
  · exact Or.inl (lineWord_add_four_le base s' hs h)
  · unfold lineWord at hne ⊢
    unfold Apart
    omega
  · exact Or.inr (lineWord_add_four_le base s hs' h)

theorem pairwise_apart_of_lineWord {words : List Nat} (hnodup : words.Nodup)
    (hwords : ∀ a ∈ words, ∃ l s, (s + 1) * 4 ≤ size ∧ a = lineWord base size l s) :
    words.Pairwise Apart := by
  refine List.Pairwise.imp_of_mem (fun ha hb hne => ?_) hnodup
  obtain ⟨l, s, hs, rfl⟩ := hwords _ ha
  obtain ⟨l', s', hs', rfl⟩ := hwords _ hb
  exact lineWord_apart hs hs' hne

end LineWord

end ByteMemory

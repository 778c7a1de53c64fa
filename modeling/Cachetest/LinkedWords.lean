import Cachetest.ByteMemory
import Cachetest.Circuit

/-!
# A linked list of words in memory

Words that do not overlap, each holding the address of the next; the word of the tail may hold
anything. The rest of the memory is as it was.

* `LinkedWords.store_tail`, `LinkedWords.extend`: the two ways a list is changed at its tail.
* `LinkedWords.close`: linking the tail to the head makes a circuit.
-/

namespace ByteMemory

open Circuit

/-- In memory `m`, made from `before`, the words `xs` lead to the word `tail`. -/
structure LinkedWords (before m : Memory) (xs : List Nat) (tail : Nat) : Prop where
  apart : (xs ++ [tail]).Pairwise Apart
  leads : Leads m.load xs tail
  untouched : ∀ b, (∀ a ∈ xs ++ [tail], b < a ∨ a + 4 ≤ b) → m.byte b = before.byte b

namespace LinkedWords

variable {before m : Memory} {xs : List Nat} {tail a : Nat}

theorem single (m : Memory) (tail : Nat) : LinkedWords m m [] tail :=
  ⟨List.pairwise_singleton _ _, leads_nil _, fun _ _ => rfl⟩

theorem load_store_tail (h : LinkedWords before m xs tail) (v : Nat) (ha : a ∈ xs) :
    (m.store tail v).load a = m.load a :=
  Memory.load_store_of_apart _ _
    ((List.pairwise_append.mp h.apart).2.2 a ha tail (List.mem_singleton_self _)).symm

/-- Writing the word of the tail does no harm. -/
theorem store_tail (h : LinkedWords before m xs tail) (v : Nat) :
    LinkedWords before (m.store tail v) xs tail where
  apart := h.apart
  leads := h.leads.congr fun _ ha => h.load_store_tail v ha
  untouched b hout := by
    rw [← h.untouched b hout]
    exact Memory.byte_store_of_outside _ _ (hout tail (by simp))

/-- The tail is linked to a new word. -/
theorem extend (h : LinkedWords before m xs tail) {new : Nat} (hnew : new < wordRange)
    (hapart : ∀ a ∈ xs ++ [tail], Apart a new) :
    LinkedWords before (m.store tail new) (xs ++ [tail]) new where
  apart := by
    refine List.pairwise_append.mpr ⟨h.apart, List.pairwise_singleton _ _, fun a ha b hb => ?_⟩
    rw [List.mem_singleton.mp hb]
    exact hapart a ha
  leads := (leads_concat _ _ _).mpr ⟨(h.store_tail new).leads, Memory.load_store_of_lt _ _ hnew⟩
  untouched b hout := (h.store_tail new).untouched b fun a ha => hout a (List.mem_append_left _ ha)

theorem load_eq (h : LinkedWords before m xs tail) (hapart : ∀ b ∈ xs ++ [tail], Apart a b) :
    m.load a = before.load a :=
  Memory.load_eq_of_outside (fun b _ => h.untouched b) (Nat.zero_le _) hapart

/-- The tail is linked to the head. -/
theorem close (h : LinkedWords before m xs tail) {head : Nat} (hhead : head < wordRange)
    (hfirst : (xs ++ [tail]).head? = some head) :
    IsCircuit (m.store tail head).load head (xs ++ [tail]) where
  head := hfirst
  nodup := h.apart.imp Apart.ne
  leads := (leads_concat _ _ _).mpr ⟨(h.store_tail head).leads, Memory.load_store_of_lt _ _ hhead⟩

end LinkedWords

end ByteMemory

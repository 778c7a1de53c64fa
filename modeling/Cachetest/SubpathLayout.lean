import Cachetest.ByteMemory
import Cachetest.Circuit
import Cachetest.Machine

/-!
# Subpath layouts

What a subpath path is for: the words of the buffer that belong to it, grouped by subpath and
listed in the order in which they are visited. A `SubpathLayout` only says where the words are;
`Unsplit` and `Split` say how the memory links them, as one ring through all subpaths or as one
ring per subpath.
-/

namespace Cachetest

open ByteMemory Circuit

/-- The words of a path, subpath by subpath. Words do not overlap, every subpath lies below the
next one, and every word has a 32-bit index. -/
structure SubpathLayout where
  chunks : List (List Nat)
  chunks_ne_nil : chunks ≠ []
  chunk_ne_nil : ∀ c ∈ chunks, c ≠ []
  apart : ∀ c ∈ chunks, c.Pairwise Apart
  ordered : chunks.Pairwise fun c c' => ∀ a ∈ c, ∀ b ∈ c', a + 4 ≤ b
  addressable : ∀ a ∈ chunks.flatten, a + 4 ≤ unsignedRange

namespace SubpathLayout

variable (L : SubpathLayout)

def numSubpaths : Nat := L.chunks.length

/-- The elements of subpath `k`, in the order of the path. -/
def chunk (k : Nat) : List Nat := L.chunks.getD k []

/-- The first element of subpath `k`. -/
def start (k : Nat) : Nat := (L.chunk k).headD 0

/-- The last element of subpath `k`. -/
def last (k : Nat) : Nat := (L.chunk k).getLastD 0

/-- The elements of the whole path. -/
def elements : List Nat := L.chunks.flatten

/-- The subpath after `k`, the first one after the last. -/
def nextSubpath (k : Nat) : Nat := (k + 1) % L.numSubpaths

/-- The memory leads through every subpath `k` and on to the start of subpath `succ k`. -/
def Linked (m : Memory) (succ : Nat → Nat) : Prop :=
  ∀ k < L.numSubpaths, Leads m.load (L.chunk k) (L.start (succ k))

/-- One ring through all subpaths. -/
def Unsplit (m : Memory) : Prop := L.Linked m L.nextSubpath

/-- One ring per subpath. -/
def Split (m : Memory) : Prop := L.Linked m id

variable {L}

/-! ## Chunks and elements -/

theorem numSubpaths_pos : 0 < L.numSubpaths :=
  List.length_pos_of_ne_nil L.chunks_ne_nil

theorem nextSubpath_lt (k : Nat) : L.nextSubpath k < L.numSubpaths :=
  Nat.mod_lt _ numSubpaths_pos

theorem chunk_eq_getElem {k : Nat} (hk : k < L.chunks.length) : L.chunk k = L.chunks[k] := by
  rw [chunk, List.getD_eq_getElem?_getD, List.getElem?_eq_getElem hk]
  rfl

theorem chunk_mem {k : Nat} (hk : k < L.numSubpaths) : L.chunk k ∈ L.chunks := by
  rw [chunk_eq_getElem hk]
  exact List.getElem_mem hk

theorem exists_chunk_eq {c : List Nat} (hc : c ∈ L.chunks) :
    ∃ k < L.numSubpaths, L.chunk k = c := by
  obtain ⟨k, hk, rfl⟩ := List.mem_iff_getElem.mp hc
  exact ⟨k, hk, chunk_eq_getElem hk⟩

theorem chunk_eq_cons {k : Nat} (hk : k < L.numSubpaths) :
    ∃ xs, L.chunk k = L.start k :: xs := by
  have hne := L.chunk_ne_nil _ (chunk_mem hk)
  unfold start
  cases hc : L.chunk k with
  | nil => exact absurd hc hne
  | cons a xs => exact ⟨xs, rfl⟩

theorem chunk_eq_concat {k : Nat} (hk : k < L.numSubpaths) :
    ∃ xs, L.chunk k = xs ++ [L.last k] := by
  have hne := L.chunk_ne_nil _ (chunk_mem hk)
  refine ⟨(L.chunk k).dropLast, ?_⟩
  rw [last, List.getLastD_eq_getLast?, List.getLast?_eq_some_getLast hne, Option.getD_some,
    List.dropLast_append_getLast]

theorem length_chunk_pos {k : Nat} (hk : k < L.numSubpaths) : 0 < (L.chunk k).length :=
  List.length_pos_of_ne_nil (L.chunk_ne_nil _ (chunk_mem hk))

theorem head?_chunk {k : Nat} (hk : k < L.numSubpaths) : (L.chunk k).head? = some (L.start k) := by
  obtain ⟨xs, hxs⟩ := chunk_eq_cons hk
  rw [hxs, List.head?_cons]

theorem getElem?_chunk_zero {k : Nat} (hk : k < L.numSubpaths) :
    (L.chunk k)[0]? = some (L.start k) := by
  rw [← List.head?_eq_getElem?, head?_chunk hk]

theorem start_mem {k : Nat} (hk : k < L.numSubpaths) : L.start k ∈ L.chunk k := by
  obtain ⟨xs, hxs⟩ := chunk_eq_cons hk
  rw [hxs]
  exact List.mem_cons_self

theorem last_mem {k : Nat} (hk : k < L.numSubpaths) : L.last k ∈ L.chunk k := by
  obtain ⟨xs, hxs⟩ := chunk_eq_concat hk
  rw [hxs]
  simp

theorem mem_elements {a : Nat} : a ∈ L.elements ↔ ∃ k < L.numSubpaths, a ∈ L.chunk k := by
  rw [elements, List.mem_flatten]
  constructor
  · rintro ⟨c, hc, ha⟩
    obtain ⟨k, hk, rfl⟩ := exists_chunk_eq hc
    exact ⟨k, hk, ha⟩
  · rintro ⟨k, hk, ha⟩
    exact ⟨L.chunk k, chunk_mem hk, ha⟩

theorem lt_of_mem_elements {a : Nat} (ha : a ∈ L.elements) : a < invalidIndex := by
  have := L.addressable a ha
  simp only [unsignedRange, invalidIndex] at this ⊢
  omega

theorem ne_invalidIndex {a : Nat} (ha : a ∈ L.elements) : a ≠ invalidIndex :=
  (lt_of_mem_elements ha).ne

/-! ## Distinct elements do not overlap -/

theorem add_four_le {k l a b : Nat} (hkl : k < l) (hl : l < L.numSubpaths) (ha : a ∈ L.chunk k)
    (hb : b ∈ L.chunk l) : a + 4 ≤ b := by
  have hk : k < L.numSubpaths := hkl.trans hl
  rw [chunk_eq_getElem hk] at ha
  rw [chunk_eq_getElem hl] at hb
  exact List.pairwise_iff_getElem.mp L.ordered k l hk hl hkl a ha b hb

theorem apart_of_ne_subpath {k l a b : Nat} (hkl : k ≠ l) (hk : k < L.numSubpaths)
    (hl : l < L.numSubpaths) (ha : a ∈ L.chunk k) (hb : b ∈ L.chunk l) : Apart a b := by
  rcases Nat.lt_or_gt_of_ne hkl with h | h
  · exact Or.inl (add_four_le h hl ha hb)
  · exact Or.inr (add_four_le h hk hb ha)

theorem pairwise_chunk {k : Nat} (hk : k < L.numSubpaths) : (L.chunk k).Pairwise Apart :=
  L.apart _ (chunk_mem hk)

theorem nodup_chunk {k : Nat} (hk : k < L.numSubpaths) : (L.chunk k).Nodup :=
  (pairwise_chunk hk).imp fun h => h.ne

theorem pairwise_elements : L.elements.Pairwise Apart := by
  rw [elements, List.pairwise_flatten]
  exact ⟨L.apart, L.ordered.imp fun h a ha b hb => Or.inl (h a ha b hb)⟩

theorem nodup_elements : L.elements.Nodup :=
  pairwise_elements.imp fun h => h.ne

theorem apart_of_ne {a b : Nat} (ha : a ∈ L.elements) (hb : b ∈ L.elements) (hab : a ≠ b) :
    Apart a b :=
  pairwise_elements.forall ha hb hab

theorem subpath_unique {k l a : Nat} (hk : k < L.numSubpaths) (hl : l < L.numSubpaths)
    (hak : a ∈ L.chunk k) (hal : a ∈ L.chunk l) : k = l := by
  by_contra hkl
  exact (apart_of_ne_subpath hkl hk hl hak hal).ne rfl

/-! ## Rings -/

theorem Linked.congr {m m' : Memory} {succ : Nat → Nat} (h : L.Linked m succ)
    (heq : ∀ a ∈ L.elements, m'.load a = m.load a) : L.Linked m' succ := fun k hk =>
  (h k hk).congr fun a ha => heq a (mem_elements.mpr ⟨k, hk, ha⟩)

/-- An unsplit path is a single ring through all elements, subpath after subpath. -/
theorem Unsplit.isCircuit {m : Memory} (h : L.Unsplit m) :
    IsCircuit m.load (L.start 0) L.elements where
  head := by
    obtain ⟨xs, hxs⟩ := chunk_eq_cons (L := L) numSubpaths_pos
    rw [chunk_eq_getElem numSubpaths_pos] at hxs
    obtain ⟨c, cs, hcs⟩ := List.exists_cons_of_ne_nil L.chunks_ne_nil
    simp only [hcs, List.getElem_cons_zero] at hxs
    simp [elements, hcs, hxs]
  nodup := nodup_elements
  leads := by
    have hlead : Leads m.load L.chunks.flatten _ :=
      leads_flatten (fun k => L.start (k % L.numSubpaths)) L.chunks
        (fun k hk => by
          rw [← chunk_eq_getElem hk, Nat.mod_eq_of_lt (show k < L.numSubpaths from hk)]
          exact head?_chunk hk)
        (fun k hk => by
          rw [← chunk_eq_getElem hk]
          exact h k hk)
    simp only [show L.chunks.length = L.numSubpaths from rfl, Nat.mod_self] at hlead
    exact hlead

/-- A split path is one ring per subpath. -/
theorem Split.isCircuit {m : Memory} (h : L.Split m) {k : Nat} (hk : k < L.numSubpaths) :
    IsCircuit m.load (L.start k) (L.chunk k) where
  head := head?_chunk hk
  nodup := nodup_chunk hk
  leads := h k hk

/-- The successor of an element: the following one of its subpath, or a start. -/
theorem Linked.load_eq {m : Memory} {succ : Nat → Nat} (h : L.Linked m succ) {k j a : Nat}
    (hk : k < L.numSubpaths) (ha : (L.chunk k)[j]? = some a) :
    (L.chunk k ++ [L.start (succ k)])[j + 1]? = some (m.load a) :=
  (h k hk).getElem?_succ ha

theorem Linked.load_mem {m : Memory} {succ : Nat → Nat} (h : L.Linked m succ)
    (hsucc : ∀ k < L.numSubpaths, succ k < L.numSubpaths) {a : Nat} (ha : a ∈ L.elements) :
    m.load a ∈ L.elements := by
  obtain ⟨k, hk, hak⟩ := mem_elements.mp ha
  obtain ⟨j, hj⟩ := List.mem_iff_getElem?.mp hak
  rcases List.mem_append.mp (List.mem_of_getElem? (h.load_eq hk hj)) with hin | hnext
  · exact mem_elements.mpr ⟨k, hk, hin⟩
  · rw [List.mem_singleton.mp hnext]
    exact mem_elements.mpr ⟨succ k, hsucc k hk, start_mem (hsucc k hk)⟩

theorem Unsplit.load_mem {m : Memory} (h : L.Unsplit m) {a : Nat} (ha : a ∈ L.elements) :
    m.load a ∈ L.elements :=
  Linked.load_mem h (fun k _ => nextSubpath_lt k) ha

theorem Split.load_mem {m : Memory} (h : L.Split m) {a : Nat} (ha : a ∈ L.elements) :
    m.load a ∈ L.elements :=
  Linked.load_mem h (fun _ hk => hk) ha

end SubpathLayout

/-- A path of two subpaths of different lengths. -/
def twoSubpaths : SubpathLayout where
  chunks := [[0, 4], [8]]
  chunks_ne_nil := by decide
  chunk_ne_nil := by decide
  apart := by decide
  ordered := by decide
  addressable := by decide

/-- A memory that links it as one ring. -/
def twoSubpathsMemory : Memory := ((zeros.store 0 4).store 4 8).store 8 0

theorem twoSubpaths_unsplit : twoSubpaths.Unsplit twoSubpathsMemory := by
  unfold SubpathLayout.Unsplit SubpathLayout.Linked Leads
  decide

end Cachetest

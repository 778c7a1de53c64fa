import Mathlib.Data.List.Basic

/-!
# Runs of consecutive keys

An ascending list of keyed items is scanned for `k` consecutive keys. `Scanned` is what a scan knows
when it has read a prefix and not yet found any: the items of the run that ends at the last key, and
that no run of length `k` starts below that one.

* `Scanned.extend`, `Scanned.restart`: reading the next item continues the run or begins another.
* `Scanned.isLowest`: once the run has length `k`, it is the lowest one of the whole list.
* `Scanned.not_hasRun`: until then the prefix has none.
-/

namespace Consecutive

variable {α : Type*}

/-- The keys increase. -/
abbrev Ascending (l : List (Nat × α)) : Prop := l.Pairwise fun a b => a.1 < b.1

/-- The keys `f`, `f + 1`, ... hold the items `xs`. -/
def IsRun (l : List (Nat × α)) (f : Nat) (xs : List α) : Prop :=
  ∀ i x, xs[i]? = some x → (f + i, x) ∈ l

/-- The keys `f`, ..., `f + k - 1` are all there. -/
def HasRun (l : List (Nat × α)) (f k : Nat) : Prop := ∀ i < k, ∃ x, (f + i, x) ∈ l

/-- `xs` are the items of the lowest `k` consecutive keys, which begin at `f`. -/
structure IsLowest (l : List (Nat × α)) (k f : Nat) (xs : List α) : Prop where
  run : IsRun l f xs
  length : xs.length = k
  lowest : ∀ g, HasRun l g k → f ≤ g

/-- A scan has read `l` up to the key `last`, and `xs` is the run that ends there. -/
structure Scanned (l : List (Nat × α)) (k f last : Nat) (xs : List α) : Prop where
  run : IsRun l f xs
  last_eq : last + 1 = f + xs.length
  pos : 0 < xs.length
  le : xs.length ≤ k
  bound : ∀ e ∈ l, e.1 ≤ last
  maximal : ∀ g x, (g, x) ∈ l → g + 1 ≠ f
  lowest : ∀ g, HasRun l g k → f ≤ g

variable {l post : List (Nat × α)} {k f last : Nat} {xs : List α}

/-! ## Runs -/

theorem IsRun.mono (h : IsRun l f xs) {l' : List (Nat × α)} (hsub : l ⊆ l') : IsRun l' f xs :=
  fun i x hx => hsub (h i x hx)

theorem IsRun.hasRun (h : IsRun l f xs) : HasRun l f xs.length := fun i hi =>
  ⟨xs[i], h i _ (List.getElem?_eq_getElem hi)⟩

theorem IsLowest.hasRun (h : IsLowest l k f xs) : HasRun l f k :=
  h.length ▸ h.run.hasRun

theorem IsRun.concat (h : IsRun l f xs) {x : α} (hx : (f + xs.length, x) ∈ l) :
    IsRun l f (xs ++ [x]) := by
  intro i y hy
  rcases Nat.lt_or_ge i xs.length with hi | hi
  · rw [List.getElem?_append_left hi] at hy
    exact h i y hy
  · rw [List.getElem?_append_right hi, List.getElem?_singleton] at hy
    split at hy
    case isTrue hzero =>
      obtain rfl := Option.some.inj hy
      rwa [show i = xs.length by omega]
    case isFalse => simp at hy

/-- A run that ends below the later items lies among the earlier ones. -/
theorem HasRun.of_append {g : Nat} (h : HasRun (l ++ post) g k)
    (hlater : ∀ e ∈ post, g + k ≤ e.1) : HasRun l g k := by
  intro i hi
  obtain ⟨x, hx⟩ := h i hi
  rcases List.mem_append.mp hx with hl | hpost
  · exact ⟨x, hl⟩
  · have hle := hlater _ hpost
    simp only at hle
    omega

/-! ## Scanning -/

theorem Scanned.singleton (hk : 0 < k) (p : Nat) (x : α) : Scanned [(p, x)] k p p [x] where
  run i y hy := by
    rw [List.getElem?_singleton] at hy
    split at hy
    case isTrue hzero =>
      obtain rfl := Option.some.inj hy
      simp [hzero]
    case isFalse => simp at hy
  last_eq := rfl
  pos := Nat.one_pos
  le := hk
  bound e he := Nat.le_of_eq (congrArg Prod.fst (List.mem_singleton.mp he))
  maximal g y hg := by
    obtain ⟨rfl, -⟩ := Prod.mk.inj (List.mem_singleton.mp hg)
    omega
  lowest g hg := by
    obtain ⟨y, hy⟩ := hg 0 hk
    obtain ⟨heq, -⟩ := Prod.mk.inj (List.mem_singleton.mp hy)
    omega

theorem Scanned.last_mem (h : Scanned l k f last xs) : ∃ x, (last, x) ∈ l := by
  have hlast := h.last_eq
  have hpos := h.pos
  obtain ⟨x, hx⟩ := h.run.hasRun (xs.length - 1) (by omega)
  exact ⟨x, by rwa [show f + (xs.length - 1) = last by omega] at hx⟩

theorem Scanned.not_hasRun (h : Scanned l k f last xs) (hlt : xs.length < k) (g : Nat) :
    ¬HasRun l g k := by
  intro hg
  obtain ⟨x, hx⟩ := hg (k - 1) (by omega)
  have hle := h.lowest g hg
  have hbound := h.bound _ hx
  have hlast := h.last_eq
  simp only at hbound
  omega

/-- The next key follows the last one: the run goes on. -/
theorem Scanned.extend (h : Scanned l k f last xs) (hlt : xs.length < k) (x : α) :
    Scanned (l ++ [(last + 1, x)]) k f (last + 1) (xs ++ [x]) where
  run := (h.run.mono (List.subset_append_left _ _)).concat (by simp [← h.last_eq])
  last_eq := by rw [List.length_append, List.length_singleton, h.last_eq]; omega
  pos := by simp
  le := by
    rw [List.length_append, List.length_singleton]
    exact hlt
  bound e he := by
    rcases List.mem_append.mp he with hl | hnew
    · exact Nat.le_succ_of_le (h.bound e hl)
    · exact Nat.le_of_eq (congrArg Prod.fst (List.mem_singleton.mp hnew))
  maximal g y hg := by
    rcases List.mem_append.mp hg with hl | hnew
    · exact h.maximal g y hl
    · obtain ⟨rfl, -⟩ := Prod.mk.inj (List.mem_singleton.mp hnew)
      have hlast := h.last_eq
      omega
  lowest g hg := by
    have hlast := h.last_eq
    by_contra hgf
    -- The run would have to contain the missing key below `f`.
    have hend : last + 1 < g + k := by
      by_contra hend
      exact h.not_hasRun hlt g (hg.of_append fun e he => by
        rw [List.mem_singleton.mp he]
        exact Nat.le_of_not_lt hend)
    obtain ⟨y, hy⟩ := hg (f - 1 - g) (by omega)
    rw [show g + (f - 1 - g) = f - 1 by omega] at hy
    rcases List.mem_append.mp hy with hl | hnew
    · exact h.maximal _ y hl (by omega)
    · have heq := (Prod.mk.inj (List.mem_singleton.mp hnew)).1
      omega

/-- The next key leaves a gap: another run begins. -/
theorem Scanned.restart (h : Scanned l k f last xs) (hlt : xs.length < k) {p : Nat} (x : α)
    (hp : last < p) (hgap : p ≠ last + 1) : Scanned (l ++ [(p, x)]) k p p [x] where
  run := (IsRun.mono (l := [(p, x)]) (Scanned.singleton (k := k) (by omega) p x).run
    (List.subset_append_right _ _))
  last_eq := rfl
  pos := Nat.one_pos
  le := Nat.succ_le_of_lt (Nat.zero_lt_of_lt hlt)
  bound e he := by
    rcases List.mem_append.mp he with hl | hnew
    · exact Nat.le_trans (h.bound e hl) (Nat.le_of_lt hp)
    · exact Nat.le_of_eq (congrArg Prod.fst (List.mem_singleton.mp hnew))
  maximal g y hg := by
    rcases List.mem_append.mp hg with hl | hnew
    · have hbound := h.bound _ hl
      simp only at hbound
      omega
    · obtain ⟨rfl, -⟩ := Prod.mk.inj (List.mem_singleton.mp hnew)
      omega
  lowest g hg := by
    by_contra hgp
    -- The run would have to contain `p`, and the missing key below it.
    have hend : p < g + k := by
      by_contra hend
      exact h.not_hasRun hlt g (hg.of_append fun e he => by
        rw [List.mem_singleton.mp he]
        exact Nat.le_of_not_lt hend)
    obtain ⟨y, hy⟩ := hg (p - 1 - g) (by omega)
    rw [show g + (p - 1 - g) = p - 1 by omega] at hy
    rcases List.mem_append.mp hy with hl | hnew
    · have hbound := h.bound _ hl
      simp only at hbound
      omega
    · have heq := (Prod.mk.inj (List.mem_singleton.mp hnew)).1
      omega

/-- A run of length `k` is the lowest one, whatever follows. -/
theorem Scanned.isLowest (h : Scanned l k f last xs) (hlength : xs.length = k)
    (hasc : Ascending (l ++ post)) : IsLowest (l ++ post) k f xs where
  run := h.run.mono (List.subset_append_left _ _)
  length := hlength
  lowest g hg := by
    by_contra hgf
    have hlast := h.last_eq
    obtain ⟨x, hx⟩ := h.last_mem
    refine hgf (h.lowest g (hg.of_append fun e he => ?_))
    have hlt := (List.pairwise_append.mp hasc).2.2 _ hx e he
    simp only at hlt
    omega

end Consecutive

import Mathlib.Data.Int.Basic
import Mathlib.Data.List.Forall2
import Mathlib.Tactic.NormNum

/-!
# Machine integers and how a run ends

The conversions the program makes between `int`, `unsigned int` (its `element_size_t`) and
`size_t`, and the ways a run stops before it completes. Values of the unsigned types are natural
numbers, reduced explicitly wherever the code converts or overflows; values of type `int` are
`Int32`.
-/

namespace Cachetest

/-! ## Conversions -/

/-- The number of values of `size_t`. -/
abbrev sizeRange : Nat := 18446744073709551616

/-- The number of values of `unsigned int`. -/
abbrev unsignedRange : Nat := 4294967296

/-- `INT_MAX`. -/
abbrev intMax : Nat := 2147483647

/-- `sizeof(element_size_t)`, the element size every caller of `createDistribution` passes. -/
abbrev elementSize : Nat := 4

/-- `(element_size_t)-1`. -/
abbrev invalidIndex : Nat := 4294967295

/-- Conversion of any integer to `unsigned int`. -/
def asUnsigned (x : Nat) : Nat := x % unsignedRange

/-- Conversion of an unsigned integer to `int`. -/
def asInt (x : Nat) : Int32 := Int32.ofNat x

/-- Conversion of an `int` to `size_t`: negative values wrap around. -/
def asSizeT (x : Int32) : Nat := (x.toInt % (sizeRange : Int)).toNat

theorem asUnsigned_of_lt {x : Nat} (h : x < unsignedRange) : asUnsigned x = x :=
  Nat.mod_eq_of_lt h

theorem asUnsigned_lt (x : Nat) : asUnsigned x < unsignedRange :=
  Nat.mod_lt _ (by decide)

theorem asSizeT_of_toInt {x : Int32} {n : Nat} (h : x.toInt = n) : asSizeT x = n := by
  have hlt := x.toInt_lt
  simp only [asSizeT, h, sizeRange]
  omega

/-- A `size_t` below `2^31` survives the detour through `int`. -/
theorem asSizeT_asInt {x : Nat} (h : x < 2147483648) : asSizeT (asInt x) = x :=
  asSizeT_of_toInt (Int32.toInt_ofNat_of_lt h)

/-! ## Ways to stop -/

/-- How a run ends without completing. -/
inductive Stop where
  /-- A failed `assert`, with the asserted condition. -/
  | assertFailed (condition : String)
  /-- A call of `exit`, with the message printed first. -/
  | exited (message : String) (status : Int)
  /-- An exception the standard library throws and nobody catches. -/
  | thrown (exception : String)
  /-- Undefined behaviour: an access out of bounds or a loop that runs off the end of memory. -/
  | undefined (reason : String)
  deriving DecidableEq, Repr

/-- A computation that may stop early. -/
abbrev Outcome (α : Type) := Except Stop α

/-- `assert(condition)`. -/
def assertThat (p : Bool) (condition : String) : Outcome Unit :=
  if p then .ok () else .error (.assertFailed condition)

@[simp] theorem assertThat_true (condition : String) : assertThat true condition = .ok () := rfl

theorem assertThat_ok {p : Bool} {condition : String} {u : Unit} :
    assertThat p condition = .ok u ↔ p = true := by
  cases p <;> simp [assertThat]

@[simp] theorem ok_bind {α β : Type} (a : α) (f : α → Outcome β) :
    ((.ok a : Outcome α) >>= f) = f a := rfl

@[simp] theorem error_bind {α β : Type} (stop : Stop) (f : α → Outcome β) :
    ((.error stop : Outcome α) >>= f) = .error stop := rfl

@[simp] theorem throw_eq_error {α : Type} (stop : Stop) :
    (throw stop : Outcome α) = .error stop := rfl

theorem bind_eq_ok {α β : Type} {x : Outcome α} {f : α → Outcome β} {b : β} :
    (x >>= f) = .ok b ↔ ∃ a, x = .ok a ∧ f a = .ok b := by
  cases x <;> simp [bind, Except.bind]

/-! ## Loops -/

theorem exists_mem_of_forall₂ {α β : Type} {R : α → β → Prop} {xs : List α} {ys : List β}
    (h : List.Forall₂ R xs ys) :
    (∀ x ∈ xs, ∃ y ∈ ys, R x y) ∧ ∀ y ∈ ys, ∃ x ∈ xs, R x y := by
  induction h with
  | nil => simp
  | cons hxy _ ih =>
    refine ⟨List.forall_mem_cons.mpr ⟨⟨_, List.mem_cons_self, hxy⟩, fun x hx => ?_⟩,
      List.forall_mem_cons.mpr ⟨⟨_, List.mem_cons_self, hxy⟩, fun y hy => ?_⟩⟩
    · obtain ⟨y, hy, hxy⟩ := ih.1 x hx
      exact ⟨y, List.mem_cons_of_mem _ hy, hxy⟩
    · obtain ⟨x, hx, hxy⟩ := ih.2 y hy
      exact ⟨x, List.mem_cons_of_mem _ hx, hxy⟩

theorem mapM_eq_ok {α β : Type} {f : α → Outcome β} {xs : List α} {ys : List β} :
    xs.mapM f = .ok ys ↔ List.Forall₂ (fun x y => f x = .ok y) xs ys := by
  induction xs generalizing ys with
  | nil =>
    rw [List.mapM_nil, List.forall₂_nil_left_iff]
    exact ⟨fun h => (Except.ok.inj h).symm, fun h => h ▸ rfl⟩
  | cons x xs ih =>
    rw [List.mapM_cons, bind_eq_ok]
    constructor
    · rintro ⟨y, hy, h⟩
      obtain ⟨ys', hys, heq⟩ := bind_eq_ok.mp h
      obtain rfl := Except.ok.inj heq
      exact List.Forall₂.cons hy (ih.mp hys)
    · rintro (_ | ⟨hy, hys⟩)
      exact ⟨_, hy, bind_eq_ok.mpr ⟨_, ih.mpr hys, rfl⟩⟩

theorem mapM_range_eq_ok {α : Type} {f : Nat → Outcome α} {n : Nat} {l : List α} :
    (List.range n).mapM f = .ok l ↔ l.length = n ∧ ∀ i a, l[i]? = some a → f i = .ok a := by
  rw [mapM_eq_ok, List.forall₂_iff_get]
  simp only [List.length_range, List.get_eq_getElem, List.getElem_range]
  constructor
  · rintro ⟨hlen, hf⟩
    refine ⟨hlen.symm, fun i a ha => ?_⟩
    obtain ⟨hi, rfl⟩ := List.getElem?_eq_some_iff.mp ha
    exact hf i (by omega) hi
  · rintro ⟨hlen, hf⟩
    exact ⟨hlen.symm, fun i _ hi => hf i _ (List.getElem?_eq_getElem hi)⟩

/-- A loop whose rounds all complete is a fold. -/
theorem foldlM_eq_ok {α σ : Type} {f : σ → α → Outcome σ} {g : σ → α → σ} {xs : List α}
    (h : ∀ s, ∀ x ∈ xs, f s x = .ok (g s x)) (s : σ) : xs.foldlM f s = .ok (xs.foldl g s) := by
  induction xs generalizing s with
  | nil => rfl
  | cons x xs ih =>
    rw [List.foldlM_cons, h s x List.mem_cons_self, ok_bind, List.foldl_cons]
    exact ih (fun s y hy => h s y (List.mem_cons_of_mem _ hy)) _

/-- The invariant rule: what a completed round preserves holds after a completed loop. -/
theorem foldlM_range_invariant {σ : Type} {f : σ → Nat → Outcome σ} {n : Nat}
    (I : Nat → σ → Prop)
    (hstep : ∀ i < n, ∀ s s', I i s → f s i = .ok s' → I (i + 1) s') {s s' : σ} (hs : I 0 s)
    (hrun : (List.range n).foldlM f s = .ok s') : I n s' := by
  induction n generalizing s' with
  | zero =>
    simp only [List.range_zero, List.foldlM_nil, pure, Except.pure, Except.ok.injEq] at hrun
    exact hrun ▸ hs
  | succ n ih =>
    rw [List.range_succ, List.foldlM_append, bind_eq_ok] at hrun
    obtain ⟨t, hprefix, hlast⟩ := hrun
    simp only [List.foldlM_cons, List.foldlM_nil, bind_pure] at hlast
    exact hstep n (by omega) t s' (ih (fun i hi => hstep i (by omega)) hprefix) hlast

/-- The total rule: when no round stops, neither does the loop. -/
theorem foldlM_range_total {σ : Type} {f : σ → Nat → Outcome σ} {n : Nat} (I : Nat → σ → Prop)
    (hstep : ∀ i < n, ∀ s, I i s → ∃ s', f s i = .ok s' ∧ I (i + 1) s') {s : σ} (hs : I 0 s) :
    ∃ s', (List.range n).foldlM f s = .ok s' ∧ I n s' := by
  induction n with
  | zero => exact ⟨s, rfl, hs⟩
  | succ n ih =>
    obtain ⟨t, hprefix, ht⟩ := ih fun i hi => hstep i (by omega)
    obtain ⟨s', hlast, hs'⟩ := hstep n (by omega) t ht
    refine ⟨s', ?_, hs'⟩
    rw [List.range_succ, List.foldlM_append, hprefix, ok_bind]
    simpa using hlast

/-- A counting loop whose rounds complete with the items of a list is a fold over the list. -/
theorem foldlM_range_eq_ok {α σ : Type} {f : σ → Nat → Outcome σ} {g : σ → α → σ} {xs : List α}
    (h : ∀ s k, ∀ hk : k < xs.length, f s k = .ok (g s xs[k])) (s : σ) :
    (List.range xs.length).foldlM f s = .ok (xs.foldl g s) := by
  have hround : ∀ k < xs.length, ∀ t, t = (xs.take k).foldl g s →
      ∃ t', f t k = .ok t' ∧ t' = (xs.take (k + 1)).foldl g s := by
    rintro k hk _ rfl
    refine ⟨_, h _ k hk, ?_⟩
    rw [List.take_add_one, List.getElem?_eq_getElem hk, List.foldl_append]
    rfl
  obtain ⟨t, hrun, ht⟩ := foldlM_range_total _ hround (s := s) rfl
  rw [hrun, ht, List.take_length]

theorem mapM_range_eq_some {α : Type} {f : Nat → Option α} {n : Nat} {l : List α} :
    (List.range n).mapM f = some l ↔ l.length = n ∧ ∀ i < n, f i = l[i]? := by
  induction n generalizing l with
  | zero => cases l <;> simp
  | succ n ih =>
    rw [List.range_succ, List.mapM_append]
    simp only [List.mapM_cons, List.mapM_nil, Option.pure_def, Option.bind_eq_bind,
      Option.bind_some, Option.bind_eq_some_iff, Option.some.injEq]
    constructor
    · rintro ⟨l', hl', _, ⟨a, ha, rfl⟩, rfl⟩
      obtain ⟨rfl, hf⟩ := ih.mp hl'
      refine ⟨by simp, fun i hi => ?_⟩
      rcases Nat.lt_succ_iff_lt_or_eq.mp hi with h | rfl
      · rw [List.getElem?_append_left h, hf i h]
      · simp [ha]
    · rintro ⟨hlen, hf⟩
      obtain ⟨l', a, rfl⟩ : ∃ l' a, l = l' ++ [a] := by
        rcases List.eq_nil_or_concat l with rfl | ⟨l', a, rfl⟩
        · simp at hlen
        · exact ⟨l', a, by simp⟩
      have hlen' : l'.length = n := by simpa using hlen
      refine ⟨l', ih.mpr ⟨hlen', fun i hi => ?_⟩, [a], ⟨a, ?_, rfl⟩, rfl⟩
      · rw [hf i (by omega), List.getElem?_append_left (by omega)]
      · rw [hf n (by omega), List.getElem?_append_right (by omega)]
        simp [hlen']

end Cachetest

import Cachetest.ParseOptions

/-!
# The argument of `-C`

What can be written after `-C`, as a syntax tree: one specification for all subpaths or one for each
subpath, which gives a list of CPUs for all threads or one for each thread, which is a CSV or a
range. A tree has a text, which is what the program gets to see, and a meaning, the table of CPU
sets. `parseCSVOrRange` reads every list correctly that is `Proper`.
-/

namespace Cachetest

open Text

/-! ## Syntax and meaning -/

/-- A list of CPUs. -/
inductive CpuList where
  | csv (id : Numeral) (ids : List Numeral)
  | range (lo hi : Numeral)

namespace CpuList

def text : CpuList → Text
  | csv id ids => [','].intercalate ((id :: ids).map Numeral.text)
  | range lo hi => lo.text ++ '-' :: hi.text

/-- The ids that are listed. -/
def ids : CpuList → List Int
  | csv id ids => (id :: ids).map Numeral.value
  | range lo hi => idsFromTo lo.value hi.value

/-- No id of a CSV is negative, and a range is not empty. -/
def Proper : CpuList → Prop
  | csv id ids => ∀ n ∈ id :: ids, 0 ≤ n.value
  | range lo hi => lo.value ≤ hi.value

end CpuList

/-- The CPUs of a subpath. With a list per thread there is a tilde, so there are two lists or
more. -/
inductive SubpathSpec where
  | all (cpus : CpuList)
  | perThread (first second : CpuList) (rest : List CpuList)

namespace SubpathSpec

def text : SubpathSpec → Text
  | all cpus => cpus.text
  | perThread first second rest => ['~'].intercalate ((first :: second :: rest).map CpuList.text)

/-- The list that each of the threads is pinned by. -/
def lists (numThreads : Nat) : SubpathSpec → List CpuList
  | all cpus => List.replicate numThreads cpus
  | perThread first second rest => first :: second :: rest

/-- The CPU sets of the threads of a subpath: all get the same list, or each gets one id of it, or
each has a list of its own. -/
def row (groupPinning : Bool) (numThreads : Nat) : SubpathSpec → Option (List (Finset Int))
  | all cpus =>
    if groupPinning then some (List.replicate numThreads cpus.ids.toFinset)
    else if cpus.ids.length = numThreads then some (cpus.ids.map fun id => {id})
    else none
  | perThread first second rest =>
    if (first :: second :: rest).length = numThreads then
      some ((first :: second :: rest).map fun cpus => cpus.ids.toFinset)
    else none

end SubpathSpec

/-- The argument of `-C`. -/
structure CpuSpec where
  first : SubpathSpec
  rest : List SubpathSpec

namespace CpuSpec

variable (spec : CpuSpec)

def subpaths : List SubpathSpec := spec.first :: spec.rest

def text : Text := ['.'].intercalate (spec.subpaths.map SubpathSpec.text)

/-- The specification of subpath `i`: a single one is for all subpaths. -/
def subpath (i : Nat) : Option SubpathSpec :=
  if spec.rest = [] then some spec.first else spec.subpaths[i]?

/-- The table of CPU sets the specification stands for. -/
def table (groupPinning : Bool) (threads : List Nat) : Option (List (List (Finset Int))) :=
  (List.range threads.length).mapM fun i => do
    let subpath ← spec.subpath i
    let numThreads ← threads[i]?
    subpath.row groupPinning numThreads

end CpuSpec

/-! ## Which characters occur -/

theorem CpuList.not_mem_text {cpus : CpuList} {c : Char} (hdigit : c.isDigit = false)
    (hminus : c ≠ '-') (hcomma : c ≠ ',') : c ∉ cpus.text := by
  intro h
  cases cpus with
  | csv id ids =>
    rcases mem_of_mem_intercalate h with h | ⟨t, ht, h⟩
    · exact hcomma h
    · obtain ⟨n, -, rfl⟩ := List.mem_map.mp ht
      exact Numeral.not_mem_text hdigit hminus h
  | range lo hi =>
    rcases List.mem_append.mp h with h | h
    · exact Numeral.not_mem_text hdigit hminus h
    · rcases List.mem_cons.mp h with h | h
      · exact hminus h
      · exact Numeral.not_mem_text hdigit hminus h

theorem SubpathSpec.not_mem_text {s : SubpathSpec} {c : Char} (hdigit : c.isDigit = false)
    (hminus : c ≠ '-') (hcomma : c ≠ ',') (htilde : c ≠ '~') : c ∉ s.text := by
  intro h
  cases s with
  | all cpus => exact CpuList.not_mem_text hdigit hminus hcomma h
  | perThread first second rest =>
    rcases mem_of_mem_intercalate h with h | ⟨t, ht, h⟩
    · exact htilde h
    · obtain ⟨cpus, -, rfl⟩ := List.mem_map.mp ht
      exact CpuList.not_mem_text hdigit hminus hcomma h

theorem CpuList.text_ne_nil (cpus : CpuList) : cpus.text ≠ [] := by
  cases cpus with
  | csv id ids => exact intercalate_ne_nil id.text_ne_nil _
  | range lo hi => simp [CpuList.text]

theorem CpuSpec.text_ne_nil (spec : CpuSpec) : spec.text ≠ [] := by
  refine intercalate_ne_nil ?_ _
  cases spec.first with
  | all cpus => exact cpus.text_ne_nil
  | perThread first second rest => exact intercalate_ne_nil first.text_ne_nil _

/-! ## Proper lists -/

theorem idsFromTo_eq_nil {lo hi : Int} : idsFromTo lo hi = [] ↔ hi < lo := by
  rw [idsFromTo, List.map_eq_nil_iff, List.range_eq_nil]
  omega

theorem mem_idsFromTo {lo hi id : Int} : id ∈ idsFromTo lo hi ↔ lo ≤ id ∧ id ≤ hi := by
  simp only [idsFromTo, List.mem_map, List.mem_range]
  constructor
  · rintro ⟨i, hi, rfl⟩
    omega
  · rintro ⟨hlo, hhi⟩
    exact ⟨(id - lo).toNat, by omega, by omega⟩

theorem CpuList.ids_ne_nil {cpus : CpuList} (h : cpus.Proper) : cpus.ids ≠ [] := by
  cases cpus with
  | csv id ids => simp [CpuList.ids]
  | range lo hi => exact fun hnil => not_lt.mpr h (idsFromTo_eq_nil.mp hnil)

theorem CpuList.proper_of_nonneg {cpus : CpuList} (hne : cpus.ids ≠ [])
    (hnonneg : ∀ id ∈ cpus.ids, 0 ≤ id) : cpus.Proper := by
  cases cpus with
  | csv id ids => exact fun n hn => hnonneg _ (List.mem_map_of_mem hn)
  | range lo hi => exact not_lt.mp fun hlt => hne (idsFromTo_eq_nil.mpr hlt)

/-! ## Splitting the text -/

theorem split_intercalate {c : Char} {texts : List Text} (hne : texts ≠ [])
    (hfree : ∀ t ∈ texts, c ∉ t) : split ([c].intercalate texts) [c] = .ok texts := by
  rw [split_singleton, List.splitOn_intercalate c hfree hne]

theorem CpuSpec.split_text (spec : CpuSpec) :
    split spec.text ['.'] = .ok (spec.subpaths.map SubpathSpec.text) := by
  refine split_intercalate (by simp [CpuSpec.subpaths]) fun t ht => ?_
  obtain ⟨s, -, rfl⟩ := List.mem_map.mp ht
  exact SubpathSpec.not_mem_text (by decide) (by decide) (by decide) (by decide)

theorem SubpathSpec.split_text (first second : CpuList) (rest : List CpuList) :
    split (SubpathSpec.perThread first second rest).text ['~'] =
      .ok ((first :: second :: rest).map CpuList.text) := by
  refine split_intercalate (by simp) fun t ht => ?_
  obtain ⟨cpus, -, rfl⟩ := List.mem_map.mp ht
  exact CpuList.not_mem_text (by decide) (by decide) (by decide)

/-! ## Reading a list back -/

theorem scanInteger_of_stoi {t : Text} {x : Int} (h : stoi t = .ok x) : scanInteger t = some x := by
  unfold stoi at h
  split at h
  case h_1 => cases h
  case h_2 v hscan =>
    split at h
    · rw [hscan, Except.ok.inj h]
    · cases h

theorem stoi_text {n : Numeral} {x : Int} (h : stoi n.text = .ok x) : x = n.value :=
  Option.some.inj ((scanInteger_of_stoi h).symm.trans n.scanInteger_text)

/-- With a minus sign the text is split at it, and has to fall into two integers. -/
theorem parseCSVOrRange_of_minus {s : Text} {xs : List Int} (hminus : '-' ∈ s)
    (h : parseCSVOrRange s = .ok xs) : ∃ lo hi l u, s.splitOn '-' = [lo, hi] ∧
      stoi lo = .ok l ∧ stoi hi = .ok u ∧ xs = idsFromTo l u := by
  unfold parseCSVOrRange at h
  rw [if_pos (find_singleton_isSome.mpr hminus), split_singleton, ok_bind] at h
  obtain ⟨_, hlength, h⟩ := bind_eq_ok.mp h
  obtain ⟨lo, hi, hpair⟩ :=
    List.length_eq_two.mp (of_decide_eq_true (assertThat_ok.mp hlength))
  rw [hpair] at h
  obtain ⟨l, hl, h⟩ := bind_eq_ok.mp h
  obtain ⟨u, hu, h⟩ := bind_eq_ok.mp h
  split at h
  · cases h
  · exact ⟨lo, hi, l, u, hpair, hl, hu, (Except.ok.inj h).symm⟩

theorem parseCSVOrRange_of_no_minus {s : Text} {xs : List Int} (hminus : '-' ∉ s)
    (h : parseCSVOrRange s = .ok xs) :
    List.Forall₂ (fun t x => stoi t = .ok x) (s.splitOn ',') xs := by
  unfold parseCSVOrRange at h
  rwa [if_neg fun hfound => hminus (find_singleton_isSome.mp hfound), split_singleton, ok_bind,
    mapM_eq_ok] at h

/-- `parseCSVOrRange` on a range: the text must not contain a further minus sign. -/
theorem parseCSVOrRange_range {lo hi : Numeral} {xs : List Int}
    (h : parseCSVOrRange (CpuList.range lo hi).text = .ok xs) : xs = (CpuList.range lo hi).ids := by
  obtain ⟨t, t', l, u, hpair, hl, hu, rfl⟩ :=
    parseCSVOrRange_of_minus (by simp [CpuList.text]) h
  have htokens : (CpuList.range lo hi).text.splitOn '-' =
      lo.text.splitOn '-' ++ hi.text.splitOn '-' :=
    List.splitOn_append_cons_self _ _
  have hparts : [lo.text, hi.text] = [t, t'] := by
    rw [htokens, lo.splitOn_minus, hi.splitOn_minus] at hpair
    revert hpair
    cases lo.minus <;> cases hi.minus <;> simp
  obtain ⟨rfl, hlast⟩ := List.cons_eq_cons.mp hparts
  obtain rfl := List.singleton_inj.mp hlast
  rw [stoi_text hl, stoi_text hu]
  rfl

theorem parseCSVOrRange_csv {id : Numeral} {ids : List Numeral} {xs : List Int}
    (hproper : (CpuList.csv id ids).Proper)
    (h : parseCSVOrRange (CpuList.csv id ids).text = .ok xs) : xs = (CpuList.csv id ids).ids := by
  have hfree : '-' ∉ (CpuList.csv id ids).text := by
    intro hmem
    rcases mem_of_mem_intercalate hmem with hcomma | ⟨t, ht, hmem⟩
    · revert hcomma
      decide
    · obtain ⟨n, hn, rfl⟩ := List.mem_map.mp ht
      rcases n.isDigit_or_minus hmem with hdigit | ⟨-, hminus⟩
      · revert hdigit
        decide
      · exact absurd (Numeral.value_neg_iff.mpr hminus) (not_lt.mpr (hproper n hn))
  have hsplit : (CpuList.csv id ids).text.splitOn ',' = (id :: ids).map Numeral.text := by
    refine List.splitOn_intercalate ',' (fun t ht => ?_) (by simp)
    obtain ⟨n, -, rfl⟩ := List.mem_map.mp ht
    exact Numeral.not_mem_text (by decide) (by decide)
  have hall := parseCSVOrRange_of_no_minus hfree h
  rw [hsplit, List.forall₂_map_left_iff] at hall
  have hvalues : List.Forall₂ Eq ((id :: ids).map Numeral.value) xs :=
    List.forall₂_map_left_iff.mpr (hall.imp fun n x hx => (stoi_text hx).symm)
  exact (List.forall₂_eq_eq_eq ▸ hvalues : (id :: ids).map Numeral.value = xs).symm

theorem parseCSVOrRange_text {cpus : CpuList} {xs : List Int} (hproper : cpus.Proper)
    (h : parseCSVOrRange cpus.text = .ok xs) : xs = cpus.ids := by
  cases cpus with
  | csv id ids => exact parseCSVOrRange_csv hproper h
  | range lo hi => exact parseCSVOrRange_range h

/-! ## Which texts are read as lists -/

theorem exists_numeral {t : Text} {x : Int} (hdigit : ∀ c ∈ t, c.isDigit = true)
    (h : stoi t = .ok x) : ∃ n : Numeral, n.text = t ∧ n.value = x := by
  have hne := ne_nil_of_scanInteger (scanInteger_of_stoi h)
  exact ⟨Numeral.ofDigits t hne hdigit, rfl,
    (stoi_text (n := Numeral.ofDigits t hne hdigit) h).symm⟩

theorem exists_numerals {texts : List Text} {xs : List Int}
    (hdigit : ∀ t ∈ texts, ∀ c ∈ t, c.isDigit = true)
    (h : List.Forall₂ (fun t x => stoi t = .ok x) texts xs) :
    ∃ ns : List Numeral, ns.map Numeral.text = texts ∧ ns.map Numeral.value = xs := by
  induction h with
  | nil => exact ⟨[], rfl, rfl⟩
  | cons hx _ ih =>
    obtain ⟨n, htext, hvalue⟩ := exists_numeral (hdigit _ List.mem_cons_self) hx
    obtain ⟨ns, htexts, hvalues⟩ := ih fun t ht => hdigit t (List.mem_cons_of_mem _ ht)
    exact ⟨n :: ns, by rw [List.map_cons, htext, htexts], by rw [List.map_cons, hvalue, hvalues]⟩

theorem CpuList.exists_csv {s : Text} {xs : List Int} (hcsv : ∀ c ∈ s, c.isDigit = true ∨ c = ',')
    (h : parseCSVOrRange s = .ok xs) : ∃ cpus : CpuList, cpus.text = s ∧ cpus.ids = xs := by
  have hminus : '-' ∉ s := fun hmem => by
    rcases hcsv _ hmem with hdigit | heq
    · revert hdigit
      decide
    · revert heq
      decide
  have hdigits : ∀ t ∈ s.splitOn ',', ∀ c ∈ t, c.isDigit = true := fun t ht c hc =>
    (hcsv c (mem_of_mem_splitOn ht hc).1).resolve_right (mem_of_mem_splitOn ht hc).2
  obtain ⟨ns, htexts, hvalues⟩ := exists_numerals hdigits (parseCSVOrRange_of_no_minus hminus h)
  cases ns with
  | nil => exact absurd htexts.symm (List.splitOn_ne_nil _ _)
  | cons id ids =>
    refine ⟨CpuList.csv id ids, ?_, hvalues⟩
    rw [CpuList.text, htexts, List.intercalate_splitOn]

theorem CpuList.exists_range {s : Text} {xs : List Int}
    (hrange : ∀ c ∈ s, c.isDigit = true ∨ c = '-') (hminus : '-' ∈ s)
    (h : parseCSVOrRange s = .ok xs) : ∃ cpus : CpuList, cpus.text = s ∧ cpus.ids = xs := by
  obtain ⟨lo, hi, l, u, hpair, hl, hu, rfl⟩ := parseCSVOrRange_of_minus hminus h
  have hdigits : ∀ t ∈ s.splitOn '-', ∀ c ∈ t, c.isDigit = true := fun t ht c hc =>
    (hrange c (mem_of_mem_splitOn ht hc).1).resolve_right (mem_of_mem_splitOn ht hc).2
  obtain ⟨m, rfl, rfl⟩ := exists_numeral (hdigits lo (by simp [hpair])) hl
  obtain ⟨n, rfl, rfl⟩ := exists_numeral (hdigits hi (by simp [hpair])) hu
  refine ⟨CpuList.range m n, ?_, rfl⟩
  have hjoin : ['-'].intercalate (s.splitOn '-') = s := List.intercalate_splitOn '-'
  rw [hpair, List.intercalate_cons_cons, List.intercalate_singleton] at hjoin
  simpa [CpuList.text] using hjoin

/-- For every text that `parseCSVOrRange` accepts: it is the text of a CSV or a range, with the ids
returned, if and only if it is made of digits and commas or of digits and minus signs. -/
theorem parseCSVOrRange_list_iff {s : Text} {xs : List Int} (h : parseCSVOrRange s = .ok xs) :
    (∃ cpus : CpuList, cpus.text = s ∧ cpus.ids = xs) ↔
      (∀ c ∈ s, c.isDigit = true ∨ c = ',') ∨ ∀ c ∈ s, c.isDigit = true ∨ c = '-' := by
  constructor
  · rintro ⟨cpus, rfl, rfl⟩
    cases cpus with
    | csv id ids =>
      refine Or.inl fun c hc => ?_
      rcases mem_of_mem_intercalate hc with hcomma | ⟨t, ht, hmem⟩
      · exact Or.inr hcomma
      · obtain ⟨n, hn, rfl⟩ := List.mem_map.mp ht
        rcases n.isDigit_or_minus hmem with hdigit | ⟨rfl, hminus⟩
        · exact Or.inl hdigit
        · -- A negative id makes the text a range, whose ids are not negative.
          obtain ⟨lo, hi, l, u, hpair, hl, -, hids⟩ := parseCSVOrRange_of_minus hc h
          have hlo : '-' ∉ lo := fun hlo =>
            (mem_of_mem_splitOn (show lo ∈ _ by rw [hpair]; simp) hlo).2 rfl
          have hvalue : n.value ∈ idsFromTo l u := hids ▸ List.mem_map_of_mem hn
          have hle := (mem_idsFromTo.mp hvalue).1
          have hneg := Numeral.value_neg_iff.mpr hminus
          have hnonneg := scanInteger_nonneg hlo (scanInteger_of_stoi hl)
          omega
    | range lo hi =>
      refine Or.inr fun c hc => ?_
      rcases List.mem_append.mp hc with hlo | hhi
      · exact (lo.isDigit_or_minus hlo).imp_right And.left
      · rcases List.mem_cons.mp hhi with heq | hhi
        · exact Or.inr heq
        · exact (hi.isDigit_or_minus hhi).imp_right And.left
  · rintro (hcsv | hrange)
    · exact CpuList.exists_csv hcsv h
    · by_cases hminus : '-' ∈ s
      · exact CpuList.exists_range hrange hminus h
      · refine CpuList.exists_csv (fun c hc => Or.inl ?_) h
        exact (hrange c hc).resolve_right fun heq => hminus (heq ▸ hc)

/-- The range of the four CPUs from 0 on. -/
theorem parseCSVOrRange_list_iff_range :
    ∃ cpus : CpuList, cpus.text = "0-3".toList ∧ cpus.ids = [0, 1, 2, 3] :=
  (parseCSVOrRange_list_iff (show parseCSVOrRange "0-3".toList = .ok [0, 1, 2, 3] by decide)).mpr
    (Or.inr (by simp))

/-- A comma in a range ends the number before it, and what follows is dropped. -/
theorem parseCSVOrRange_drops_csv :
    parseCSVOrRange "1,2-3".toList = .ok [1, 2, 3] ∧
      ¬∃ cpus : CpuList, cpus.text = "1,2-3".toList ∧ cpus.ids = [1, 2, 3] := by
  refine ⟨by decide, ?_⟩
  rintro ⟨cpus, htext, hids⟩
  cases cpus with
  | csv id ids =>
    have hminus : '-' ∈ (CpuList.csv id ids).text := by
      rw [htext]
      decide
    rcases mem_of_mem_intercalate hminus with hcomma | ⟨t, ht, hmem⟩
    · revert hcomma
      decide
    · obtain ⟨n, hn, rfl⟩ := List.mem_map.mp ht
      have hneg : n.value < 0 := by
        rcases n.isDigit_or_minus hmem with hdigit | ⟨-, hminus⟩
        · exact absurd hdigit (by decide)
        · exact Numeral.value_neg_iff.mpr hminus
      have hvalue : n.value ∈ (CpuList.csv id ids).ids := List.mem_map_of_mem hn
      rw [hids] at hvalue
      simp only [List.mem_cons, List.not_mem_nil, or_false] at hvalue
      omega
  | range lo hi =>
    have hcomma : ',' ∈ (CpuList.range lo hi).text := by
      rw [htext]
      decide
    rcases List.mem_append.mp hcomma with hlo | hhi
    · exact Numeral.not_mem_text (by decide) (by decide) hlo
    · exact Numeral.not_mem_text (by decide) (by decide) ((List.mem_cons.mp hhi).resolve_left
        (by decide))

end Cachetest

import Mathlib.Data.List.Infix
import Mathlib.Data.List.OfFn
import Cachetest.Experiment
import Cachetest.FibreRun
import Cachetest.Text

/-!
# The report of a run

What `main` prints when the test has returned, and how `quick_test_collect_stats.sh` reads the
number of accesses back: it keeps the lines with `total access count=` in them, and of these what is
between the first two equality signs. Lines on threads and subpaths have `access count=` in them
too.

So the number the script has is the number of iterations that were measured, as long as it fits an
`unsigned long long`: `Tested` is what the two tests leave (`tested_threads`, `tested_fibres`), and
`report_total` follows it through the sums and the text.
-/

namespace Cachetest

open ByteMemory Measurement PerfEvents Runs

namespace Report

/-! ## The code -/

/-- An unsigned integer as `operator<<` prints it. -/
def decimal (n : Nat) : Text := Nat.toDigits 10 n

/-- A signed one. -/
def decimalInt (z : Int) : Text := if z < 0 then '-' :: decimal z.natAbs else decimal z.natAbs

/-- What `main` prints from. -/
structure Printed where
  opt : Options
  entries : Nat
  numElements : Nat
  /-- The buffer utilization, as `operator<<` prints a `double`. -/
  utilization : Text
  /-- Of digits, signs, points and letters. -/
  utilization_plain : '=' ∉ utilization ∧ '\n' ∉ utilization
  loopResults : List (List LoopResult)
  /-- The results of the counters. -/
  results : List Int

/-- The access count of every subpath, summed up as `unsigned long long`. -/
def subpathAccessCounts (loopResults : List (List LoopResult)) : List Nat :=
  loopResults.map fun subpath =>
    subpath.foldl (fun count res => (count + res.accesscount) % sizeRange) 0

/-- The total access count. -/
def totalAccessCount (loopResults : List (List LoopResult)) : Nat :=
  (subpathAccessCounts loopResults).foldl (fun total count => (total + count) % sizeRange) 0

/-- A name and what it is equal to. -/
def field (name value : Text) : Text := name ++ '=' :: value

/-- The line of thread `j` of subpath `i`. -/
def threadLine (i j : Nat) (res : LoopResult) : Text :=
  field ("Subpath ".toList ++ decimal i ++ "/Thread ".toList ++ decimal j ++
    " access count".toList) (decimal res.accesscount)

/-- The line of subpath `i`. -/
def subpathLine (i count : Nat) : Text :=
  field ("subpath ".toList ++ decimal i ++ " access count".toList) (decimal count)

/-- The lines on the experiment. -/
def experimentLines (p : Printed) : List Text :=
  [field "dataset".toList (decimal (p.opt.dataset >>> 10).toNat),
    field "duration".toList (decimal p.opt.duration.toNat),
    field "cacheline".toList (decimal p.opt.cacheline.toNat),
    field "buffer factor".toList (decimal p.opt.bufferfactor.toNat),
    field "loop factor".toList (decimal p.opt.loopfactor.toNat),
    field "entries/elems".toList (decimal p.entries ++ '/' :: decimal p.numElements),
    field "buffer util".toList p.utilization, []]

/-- The lines on the threads. -/
def threadLines (loopResults : List (List LoopResult)) : List Text :=
  "Per-thread results".toList :: (loopResults.zipIdx.flatMap fun subpath =>
    subpath.1.zipIdx.map fun res => threadLine subpath.2 res.2 res.1) ++ [[]]

/-- The lines on the subpaths. -/
def subpathLines (loopResults : List (List LoopResult)) : List Text :=
  "Per-subpath results".toList :: ((subpathAccessCounts loopResults).zipIdx.map fun count =>
    subpathLine count.2 count.1) ++ [[]]

/-- The lines on the counters. -/
def perfLines (p : Printed) : List Text :=
  [[], "Perf".toList, field "  dataset".toList (decimal (p.opt.dataset >>> 10).toNat),
    field "  results".toList (p.results.flatMap fun result => ' ' :: decimalInt result)]

/-- The name of the total. -/
def totalName : Text := "total access count".toList

/-- The lines that `main` prints. -/
def lines (p : Printed) : List Text :=
  experimentLines p ++ threadLines p.loopResults ++ subpathLines p.loopResults ++
    field totalName (decimal (totalAccessCount p.loopResults)) :: perfLines p

/-- The output, every line with its `std::endl`. -/
def text (p : Printed) : Text := (lines p).flatMap fun line => line ++ ['\n']

/-- A line in which `grep` finds a pattern. -/
def found (pattern line : Text) : Bool := decide (pattern <:+: line)

/-- `grep`, over the lines of a file. -/
def grep (pattern : Text) (file : Text) : List Text :=
  (file.splitOn '\n').filter (found pattern)

/-- `cut -d '=' -f 2`. -/
def cutSecond (line : Text) : Text :=
  match line.splitOn '=' with
  | _ :: second :: _ => second
  | _ => line

/-- The accesses of a log file in `quick_test_collect_stats.sh`. -/
def accesses (file : Text) : List Text := (grep (totalName ++ ['=']) file).map cutSecond

/-! ## What the lines are made of -/

theorem isDigit_of_mem_decimal {n : Nat} {c : Char} (h : c ∈ decimal n) : c.isDigit = true :=
  Nat.isDigit_of_mem_toDigits (by decide) (by decide) h

theorem notMem_decimal {n : Nat} {c : Char} (hc : c.isDigit = false) : c ∉ decimal n := fun h =>
  absurd (isDigit_of_mem_decimal h) (by simp [hc])

theorem notMem_decimalInt {z : Int} {c : Char} (hc : c.isDigit = false) (hminus : c ≠ '-') :
    c ∉ decimalInt z := by
  unfold decimalInt
  split_ifs
  · exact fun h => (List.mem_cons.mp h).elim hminus (notMem_decimal hc)
  · exact notMem_decimal hc

/-- A pattern that ends in a character that a line has only once occurs there or nowhere. -/
theorem suffix_of_occurrence {c : Char} {pattern front back : Text} (hfront : c ∉ front)
    (hback : c ∉ back) (h : pattern ++ [c] <:+: front ++ c :: back) : pattern <:+ front := by
  obtain ⟨before, after, h⟩ := h
  have hsplit : front ++ c :: back = (before ++ pattern) ++ c :: after := by
    rw [← h]
    simp
  obtain ⟨rfl, -, -⟩ := (List.append_cons_inj_of_notMem hfront hback).mp hsplit
  exact List.suffix_append before pattern

theorem not_occurring_of_notMem {c : Char} {pattern line : Text} (hc : c ∈ pattern)
    (hline : c ∉ line) : ¬pattern <:+: line := fun h => hline (h.subset hc)

/-- Where the line of a thread or a subpath has a digit, the pattern has a letter. -/
theorem not_suffix_of_decimal (front : Text) (n : Nat) :
    ¬totalName <:+ front ++ decimal n ++ " access count".toList := by
  intro h
  have hpattern : totalName = "total".toList ++ " access count".toList := by decide
  rw [hpattern] at h
  obtain ⟨before, h⟩ := h
  rw [← List.append_assoc] at h
  have hend := List.append_cancel_right h
  have hne : decimal n ≠ [] := Nat.toDigits_ne_nil
  have hlast := congrArg List.getLast? hend
  rw [List.getLast?_append_of_ne_nil _ hne, List.getLast?_append_of_ne_nil _ (by decide),
    List.getLast?_eq_some_getLast hne] at hlast
  have hdigit := isDigit_of_mem_decimal (List.getLast_mem hne)
  rw [← Option.some.inj hlast] at hdigit
  cases hdigit

theorem splitOn_text {p : Printed} (h : ∀ line ∈ lines p, '\n' ∉ line) :
    (text p).splitOn '\n' = lines p ++ [[]] := by
  unfold text
  generalize lines p = all at h
  induction all with
  | nil => rfl
  | cons line all ih =>
    rw [List.flatMap_cons, List.append_assoc, List.singleton_append,
      List.splitOn_append_cons_self_of_not_mem (h line List.mem_cons_self),
      ih fun line hline => h line (List.mem_cons_of_mem _ hline), List.cons_append]

/-- A line that the script does not keep. -/
structure Passed (line : Text) : Prop where
  newline : '\n' ∉ line
  pattern : ¬totalName ++ ['='] <:+: line

theorem passed_nil : Passed [] := ⟨List.not_mem_nil, by decide⟩

theorem passed_of_notMem {line : Text} (hnewline : '\n' ∉ line) (hequal : '=' ∉ line) :
    Passed line :=
  ⟨hnewline, not_occurring_of_notMem (by decide : '=' ∈ _) hequal⟩

theorem passed_field {name value : Text} (hname : '=' ∉ name ∧ '\n' ∉ name)
    (hvalue : '=' ∉ value ∧ '\n' ∉ value) (hsuffix : ¬totalName <:+ name) :
    Passed (field name value) where
  newline h := (List.mem_append.mp h).elim hname.2 fun h =>
    (List.mem_cons.mp h).elim (by decide) hvalue.2
  pattern h := hsuffix (suffix_of_occurrence hname.1 hvalue.1 h)

theorem plain_decimal (n : Nat) : '=' ∉ decimal n ∧ '\n' ∉ decimal n :=
  ⟨notMem_decimal rfl, notMem_decimal rfl⟩

theorem passed_experimentLines (p : Printed) : ∀ line ∈ experimentLines p, Passed line := by
  have helements : '=' ∉ decimal p.entries ++ '/' :: decimal p.numElements ∧
      '\n' ∉ decimal p.entries ++ '/' :: decimal p.numElements := by
    simp [plain_decimal]
  simp only [experimentLines, List.forall_mem_cons]
  exact ⟨passed_field (by decide) (plain_decimal _) (by decide),
    passed_field (by decide) (plain_decimal _) (by decide),
    passed_field (by decide) (plain_decimal _) (by decide),
    passed_field (by decide) (plain_decimal _) (by decide),
    passed_field (by decide) (plain_decimal _) (by decide),
    passed_field (by decide) helements (by decide),
    passed_field (by decide) p.utilization_plain (by decide), passed_nil, List.forall_mem_nil _⟩

theorem passed_threadLines (loopResults : List (List LoopResult)) :
    ∀ line ∈ threadLines loopResults, Passed line := by
  intro line hline
  simp only [threadLines, List.mem_append, List.mem_cons, List.mem_flatMap, List.mem_map,
    List.not_mem_nil, or_false] at hline
  rcases hline with (rfl | ⟨subpath, -, res, -, rfl⟩) | rfl
  · exact passed_of_notMem (by decide) (by decide)
  · refine passed_field ?_ (plain_decimal _) (not_suffix_of_decimal _ _)
    simp [plain_decimal]
  · exact passed_nil

theorem passed_subpathLines (loopResults : List (List LoopResult)) :
    ∀ line ∈ subpathLines loopResults, Passed line := by
  intro line hline
  simp only [subpathLines, List.mem_append, List.mem_cons, List.mem_map, List.not_mem_nil,
    or_false] at hline
  rcases hline with (rfl | ⟨count, -, rfl⟩) | rfl
  · exact passed_of_notMem (by decide) (by decide)
  · refine passed_field ?_ (plain_decimal _) (not_suffix_of_decimal _ _)
    simp [plain_decimal]
  · exact passed_nil

theorem passed_perfLines (p : Printed) : ∀ line ∈ perfLines p, Passed line := by
  have hresults : ∀ c : Char, c.isDigit = false → c ≠ '-' → c ≠ ' ' →
      c ∉ p.results.flatMap fun result => ' ' :: decimalInt result := by
    intro c hdigit hminus hblank h
    obtain ⟨result, -, h⟩ := List.mem_flatMap.mp h
    exact (List.mem_cons.mp h).elim hblank (notMem_decimalInt hdigit hminus)
  simp only [perfLines, List.forall_mem_cons]
  exact ⟨passed_nil, passed_of_notMem (by decide) (by decide),
    passed_field (by decide) (plain_decimal _) (by decide),
    passed_field (by decide) ⟨hresults _ rfl (by decide) (by decide),
      hresults _ rfl (by decide) (by decide)⟩ (by decide), List.forall_mem_nil _⟩

theorem filter_passed {all : List Text} (h : ∀ line ∈ all, Passed line) :
    all.filter (found (totalName ++ ['='])) = [] :=
  List.filter_eq_nil_iff.mpr fun line hline htrue =>
    (h line hline).pattern (of_decide_eq_true htrue)

theorem cutSecond_field {name value : Text} (hname : '=' ∉ name) (hvalue : '=' ∉ value) :
    cutSecond (field name value) = value := by
  rw [cutSecond, field, List.splitOn_append_cons_self_of_not_mem hname,
    List.splitOn_eq_singleton hvalue]

/-- The script reads the total back. -/
theorem accesses_text (p : Printed) :
    accesses (text p) = [decimal (totalAccessCount p.loopResults)] := by
  have hbefore : ∀ line ∈ experimentLines p ++ threadLines p.loopResults ++
      subpathLines p.loopResults, Passed line := fun line hline => by
    rcases List.mem_append.mp hline with hline | hline
    · exact (List.mem_append.mp hline).elim (passed_experimentLines p line)
        (passed_threadLines _ line)
    · exact passed_subpathLines _ line hline
  have hafter : ∀ line ∈ perfLines p ++ [[]], Passed line := fun line hline =>
    (List.mem_append.mp hline).elim (passed_perfLines p line) fun hline => by
      rw [List.mem_singleton.mp hline]
      exact passed_nil
  have hvalue := plain_decimal (totalAccessCount p.loopResults)
  have hkept : found (totalName ++ ['='])
      (field totalName (decimal (totalAccessCount p.loopResults))) = true :=
    decide_eq_true (List.IsPrefix.isInfix
      ⟨decimal (totalAccessCount p.loopResults), by simp [field]⟩)
  have hnewline : ∀ line ∈ lines p, '\n' ∉ line := fun line hline => by
    rcases List.mem_append.mp hline with hline | hline
    · exact (hbefore line hline).newline
    · rcases List.mem_cons.mp hline with rfl | hline
      · exact fun h => (List.mem_append.mp h).elim (by decide) fun h =>
          (List.mem_cons.mp h).elim (by decide) hvalue.2
      · exact (passed_perfLines p line hline).newline
  rw [accesses, grep, splitOn_text hnewline, lines, List.append_assoc, List.cons_append,
    List.filter_append, filter_passed hbefore, List.filter_cons_of_pos hkept,
    filter_passed hafter, List.nil_append, List.map_singleton,
    cutSecond_field (by decide) hvalue.1]

/-! ## What the tests leave -/

variable {n : Nat} {counts : Fin n → Nat} {loads : Nat} {result : Worker counts → LoopResult}

/-- The results of the workers, as `main` gets them. -/
def loopResults (counts : Fin n → Nat) (result : Worker counts → LoopResult) :
    List (List LoopResult) :=
  List.ofFn fun i => List.ofFn fun j => result ⟨i, j⟩

/-- The units of work that are observed. -/
def observedWork {ι : Type*} (obs : List (Observation ι)) : Nat :=
  obs.countP fun
    | .work _ => true
    | _ => false

/-- A test has returned these results after so many iterations. -/
inductive Tested (counts : Fin n → Nat) : Nat → (Worker counts → LoopResult) → Prop
  | threads {setup : TestSetup} {m : Memory} {k : Kernel} {acts : List (ThreadAction counts)}
      {s : ThreadTest counts} {result : Worker counts → LoopResult}
      (hrun : run (ThreadTest.step setup) (.initial counts setup m k) acts = some s)
      (hmain : s.main = .returned) (hresult : ∀ w, s.workers.work w = .finished (result w)) :
      Tested counts (observedWork (acts.filterMap ThreadTest.observe)) result
  | fibres {setup : FibreSetup} {m : Memory} {k : Kernel} {acts : List (FibreRunAction counts)}
      {s : FibreRun counts} {result : Worker counts → LoopResult}
      (hrun : run (FibreRun.step setup) (.initial counts setup m k) acts = some s)
      (hstage : s.stage = .returned) (hresult : ∀ w, s.workers.work w = .finished (result w)) :
      Tested counts (observedWork (acts.filterMap FibreRun.observe)) result

/-- At the end of a measurement all the work has been done by somebody. -/
theorem sum_done {ι : Type*} [Fintype ι] [DecidableEq ι] {t : Measured ι}
    {obs : List (Observation ι)} (hrun : run Measured.step .initial obs = some t)
    (hstage : t.stage = .after) : ∑ i, t.done i = observedWork obs := by
  obtain ⟨works, hdone, hobs⟩ := recorded_run hrun
  rw [hstage] at hobs
  have hcount : ∑ i, works.count i = works.length := by
    simpa using Multiset.sum_count_eq_card (s := Finset.univ) (m := (works : Multiset ι))
      fun i _ => Finset.mem_univ i
  have hworks : observedWork obs = works.length := by
    simp [hobs, observedWork, List.countP_append, List.countP_map, Function.comp_def]
  rw [hworks, ← hcount]
  exact Finset.sum_congr rfl fun i _ => hdone i

theorem Tested.sum (h : Tested counts loads result) :
    ∑ w, (result w).accesscount = loads := by
  cases h with
  | threads hrun hmain hresult =>
    obtain ⟨t, hmeasured, hmeasures⟩ := ThreadTest.measures_run hrun
    rw [← sum_done hmeasured (by rw [hmeasures.stage, hmain]; rfl)]
    refine Finset.sum_congr rfl fun w _ => ?_
    rw [hmeasures.done, hresult]
    rfl
  | fibres hrun hstage hresult =>
    obtain ⟨t, hmeasured, hmeasures⟩ := FibreRun.measures_run hrun
    rw [← sum_done hmeasured (by rw [hmeasures.stage, hstage]; rfl)]
    refine Finset.sum_congr rfl fun w _ => ?_
    rw [hmeasures.done, hresult]
    rfl

theorem foldl_wrapped {α : Type*} (f : α → Nat) (l : List α) {a : Nat} (ha : a < sizeRange) :
    l.foldl (fun count x => (count + f x) % sizeRange) a = (a + (l.map f).sum) % sizeRange := by
  induction l generalizing a with
  | nil => exact (Nat.mod_eq_of_lt ha).symm
  | cons x l ih =>
    rw [List.foldl_cons, ih (Nat.mod_lt _ (by decide)), List.map_cons, List.sum_cons,
      Nat.mod_add_mod, Nat.add_assoc]

theorem totalAccessCount_loopResults (counts : Fin n → Nat) (result : Worker counts → LoopResult) :
    totalAccessCount (loopResults counts result) =
      (∑ w, (result w).accesscount) % sizeRange := by
  have hzero : 0 < sizeRange := by decide
  have hsubpaths : subpathAccessCounts (loopResults counts result) =
      (List.ofFn fun i => ∑ j, (result ⟨i, j⟩).accesscount).map (· % sizeRange) := by
    simp only [subpathAccessCounts, loopResults, List.map_ofFn, Function.comp_def,
      foldl_wrapped _ _ hzero, Nat.zero_add, List.sum_ofFn]
  rw [totalAccessCount, foldl_wrapped (fun count => count) _ hzero, hsubpaths, Nat.zero_add,
    List.map_id', ← List.sum_nat_mod, List.sum_ofFn, Fintype.sum_sigma]

/-- **The script has the number of iterations.** After a test with threads or with fibres, in every
interleaving: what `quick_test_collect_stats.sh` finds in the output is one number, that of all the
iterations of all loops modulo `2 ^ 64`. -/
theorem report_total {p : Printed} (h : Tested counts loads result)
    (hprinted : p.loopResults = loopResults counts result) :
    accesses (text p) = [decimal (loads % sizeRange)] := by
  rw [accesses_text, hprinted, totalAccessCount_loopResults, h.sum]

/-- Two threads on two subpaths: one has made two iterations, the other three. -/
theorem report_total_two_threads :
    let result : Worker (fun _ : Fin 2 => 1) → LoopResult := fun w => ⟨2 + w.1, invalidIndex⟩
    accesses (text ⟨Options.default, 2, 16, "1".toList, by decide,
      loopResults (fun _ : Fin 2 => 1) result, [5, 7]⟩) = ["5".toList] := by
  intro result
  let setup : TestSetup := ⟨[⟨0, 0, 1⟩, ⟨64, 0, 1⟩], none, {0}⟩
  let w : Worker fun _ : Fin 2 => 1 := ⟨0, 0⟩
  let w' : Worker fun _ : Fin 2 => 1 := ⟨1, 0⟩
  let acts : List (ThreadAction fun _ : Fin 2 => 1) :=
    [.spawn, .spawn, .spawn, .spawn, .spawn, .worker (.prepare w'), .announce w',
      .worker (.prepare w), .announce w, .release, .evict, .arm, .start, .go, .worker (.enter w'),
      .worker (.load w' fun _ => 0), .worker (.enter w), .worker (.load w fun _ => 0),
      .worker (.load w' fun _ => 0), .worker .stop, .worker .stop, .worker (.load w fun _ => 0),
      .worker (.leave w), .join, .join, .worker (.load w' fun _ => 0), .worker (.leave w'),
      .join, .join, .join, .stop 0]
  let k : Kernel := ⟨fun _ => none⟩
  have hend : (run (ThreadTest.step setup) (.initial _ setup zeros k) acts).map (fun s =>
      (s.main, s.workers.work w, s.workers.work w')) =
      some (.returned, .finished ⟨2, invalidIndex⟩, .finished ⟨3, invalidIndex⟩) := by
    decide +kernel
  obtain ⟨s, hrun, hs⟩ := Option.map_eq_some_iff.mp hend
  simp only [Prod.mk.injEq] at hs
  obtain ⟨hmain, hw, hw'⟩ := hs
  have hresult : ∀ v, s.workers.work v = .finished (result v) := by
    rintro ⟨i, j⟩
    obtain rfl := Subsingleton.elim j 0
    match i with
    | 0 => exact hw
    | 1 => exact hw'
  rw [report_total (.threads hrun hmain hresult) rfl]
  decide

end Report

end Cachetest

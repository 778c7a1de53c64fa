import Mathlib.Data.Finset.Lattice.Fold
import Mathlib.Order.Lattice.Nat
import Cachetest.Loop

/-!
# Ending the test

`alarm_handler` ends the test by breaking the path under the feet of the threads. Whatever the order
of their loads and its stores, a thread is on an element of its ring or has read `-1`
(`Walking`). Once all starts are broken, the distance to the next start bounds the number of loads
a thread can still make (`LoadsLeft`).
-/

namespace Cachetest

open ByteMemory Circuit Runs

variable {ι : Type*} {L : SubpathLayout} {m : Memory} {infos : List SubpathInfo}
  {numSubpaths : Nat} {s s' : System ι}

/-- The handler breaks all subpaths, at their starts. -/
structure StopsAt (L : SubpathLayout) (infos : List SubpathInfo) : Prop where
  start : ∀ info ∈ infos, ∃ k < L.numSubpaths, info.startIdx = L.start k
  all : ∀ k < L.numSubpaths, ∃ info ∈ infos, info.startIdx = L.start k

theorem stopsAt_infos (L : SubpathLayout) : StopsAt L L.infos where
  start info hinfo := by
    obtain ⟨k, hk, rfl⟩ := List.mem_map.mp hinfo
    exact ⟨k, List.mem_range.mp hk, rfl⟩
  all k hk := ⟨.describing (L.chunk k), List.mem_map.mpr ⟨k, List.mem_range.mpr hk, rfl⟩, rfl⟩

theorem start_mem_elements {k : Nat} (hk : k < L.numSubpaths) : L.start k ∈ L.elements :=
  SubpathLayout.mem_elements.mpr ⟨k, hk, SubpathLayout.start_mem hk⟩

/-! ## Where the threads are -/

/-- The words of the path hold what they held in `m`, except that the starts the handler has already
reached hold `-1`. -/
def WordsOf (L : SubpathLayout) (m : Memory) (infos : List SubpathInfo) (s : System ι) : Prop :=
  ∃ done, infos = done ++ s.pending ∧ ∀ a ∈ L.elements,
    s.mem.load a = if a ∈ done.map fun info => info.startIdx then invalidIndex else m.load a

/-- The thread has followed the ring of `m` from `start`, unless it has read `-1`, and then its last
load was from the start of a subpath. -/
structure WalkingThread (L : SubpathLayout) (m : Memory) (start : Nat) (t : Thread)
    (reads : List Nat) : Prop where
  index : t.index = invalidIndex ∨ t.index = m.load^[reads.length] start
  elements : ∀ a ∈ reads, a ∈ L.elements
  count : t.accesscount = reads.length
  last : t.index = invalidIndex → ∃ k < L.numSubpaths, reads.getLast? = some (L.start k)

/-- All threads walk, and nothing but the handler has changed the path. -/
structure Walking (L : SubpathLayout) (m : Memory) (infos : List SubpathInfo) (start : ι → Nat)
    (s : System ι) : Prop where
  storing : ∀ i, s.storing i = none
  words : WordsOf L m infos s
  thread : ∀ i, WalkingThread L m (start i) (s.thread i) (s.reads i)

theorem iterate_mem (hclosed : ∀ a ∈ L.elements, m.load a ∈ L.elements) {a : Nat}
    (ha : a ∈ L.elements) (t : Nat) : m.load^[t] a ∈ L.elements := by
  induction t with
  | zero => exact ha
  | succ t ih =>
    rw [Function.iterate_succ_apply']
    exact hclosed _ ih

theorem WordsOf.load_eq (hstops : StopsAt L infos) (h : WordsOf L m infos s) {a : Nat}
    (ha : a ∈ L.elements) : s.mem.load a = m.load a ∨
      (s.mem.load a = invalidIndex ∧ ∃ k < L.numSubpaths, a = L.start k) := by
  obtain ⟨done, hdone, hwords⟩ := h
  rw [hwords a ha]
  split
  case isTrue hbroken =>
    obtain ⟨info, hinfo, rfl⟩ := List.mem_map.mp hbroken
    exact Or.inr ⟨rfl, hstops.start info (by rw [hdone]; exact List.mem_append_left _ hinfo)⟩
  case isFalse => exact Or.inl rfl

theorem walking_initial {thread : ι → Thread} (hfresh : ∀ i, (thread i).accesscount = 0)
    (hstart : ∀ i, (thread i).index ∈ L.elements) :
    Walking L m infos (fun i => (thread i).index) (System.initial m infos thread) where
  storing _ := rfl
  words := ⟨[], rfl, fun a _ => by simp [System.initial]⟩
  thread i := ⟨Or.inr rfl, by simp [System.initial], hfresh i,
    fun h => absurd h (SubpathLayout.ne_invalidIndex (hstart i))⟩

variable [DecidableEq ι]

/-- The handler's next store breaks one more start. -/
theorem WordsOf.stop (hstops : StopsAt L infos) (h : WordsOf L m infos s)
    (hstep : s.step false infos numSubpaths .stop = some s') : WordsOf L m infos s' := by
  obtain ⟨done, hdone, hwords⟩ := h
  obtain ⟨info, rest, hpending, rfl⟩ := System.step_stop hstep
  refine ⟨done ++ [info], by rw [hdone, hpending, List.append_assoc]; rfl, fun a ha => ?_⟩
  obtain ⟨k, hk, hstart⟩ := hstops.start info (by rw [hdone, hpending]; simp)
  by_cases heq : a = info.startIdx
  · rw [heq, Memory.load_store_of_lt _ _ (by decide), if_pos (by simp)]
  · have hapart := SubpathLayout.apart_of_ne (hstart ▸ start_mem_elements hk) ha (Ne.symm heq)
    rw [Memory.load_store_of_apart _ _ hapart, hwords a ha]
    simp [heq]

/-- One more iteration, in a memory where starts of subpaths may have been broken. -/
theorem WalkingThread.iteration (hclosed : ∀ a ∈ L.elements, m.load a ∈ L.elements)
    {start : Nat} (hstart : start ∈ L.elements) {t t' : Thread} {reads : List Nat}
    (h : WalkingThread L m start t reads) {mem : Memory}
    (hmem : ∀ a ∈ L.elements, mem.load a = m.load a ∨
      (mem.load a = invalidIndex ∧ ∃ k < L.numSubpaths, a = L.start k))
    (hrun : t.iteration infos numSubpaths mem = some t') :
    WalkingThread L m start t' (reads ++ [t.index]) := by
  obtain ⟨hgoing, hindex, hcount⟩ := Thread.iteration_eq_some hrun
  have hhere := h.index.resolve_left hgoing
  have helement : t.index ∈ L.elements := hhere ▸ iterate_mem hclosed hstart _
  constructor
  case index =>
    rw [hindex]
    rcases hmem _ helement with hload | ⟨hload, -⟩
    · rw [hload, List.length_append, List.length_singleton, Function.iterate_succ_apply', ← hhere]
      exact Or.inr rfl
    · exact Or.inl hload
  case elements =>
    intro a ha
    rcases List.mem_append.mp ha with hold | hnew
    · exact h.elements a hold
    · rw [List.mem_singleton.mp hnew]
      exact helement
  case count => rw [hcount, h.count, List.length_append, List.length_singleton]
  case last =>
    intro hleft
    rw [hindex] at hleft
    rcases hmem _ helement with hload | ⟨-, k, hk, hat⟩
    · exact absurd (hload.symm.trans hleft) (SubpathLayout.ne_invalidIndex (hclosed _ helement))
    · exact ⟨k, hk, by rw [List.getLast?_concat, hat]⟩

variable {start : ι → Nat}

/-- Every load and every store of the handler keeps all threads walking. -/
theorem walking_step (hclosed : ∀ a ∈ L.elements, m.load a ∈ L.elements) (hstops : StopsAt L infos)
    (hstart : ∀ i, start i ∈ L.elements) {a : Action ι} (h : Walking L m infos start s)
    (hstep : s.step false infos numSubpaths a = some s') : Walking L m infos start s' := by
  cases a with
  | store i =>
    obtain ⟨index, hindex, -⟩ := System.step_store hstep
    simp [h.storing i] at hindex
  | stop =>
    have hwords := h.words.stop hstops hstep
    obtain ⟨info, rest, -, rfl⟩ := System.step_stop hstep
    exact ⟨h.storing, hwords, h.thread⟩
  | load i =>
    obtain ⟨-, t, ht, rfl⟩ := System.step_load hstep
    refine ⟨h.storing, h.words, fun j => ?_⟩
    by_cases hji : j = i
    · subst hji
      simp only [Function.update_self]
      exact (h.thread j).iteration hclosed (hstart j) (fun a ha => h.words.load_eq hstops ha) ht
    · simp only [Function.update_of_ne hji]
      exact h.thread j

/-! ## After the last store -/

/-- A thread at `index` makes `r` more loads, when all starts are broken: it goes on to the end of
its stretch and reads the next start. -/
def LoadsLeft (L : SubpathLayout) (index r : Nat) : Prop :=
  (index = invalidIndex ∧ r = 0) ∨
  ∃ k < L.numSubpaths, ∃ j, (L.chunk k)[j]? = some index ∧
    r = if j = 0 then 1 else (L.chunk k).length - j + 1

/-- The longest stretch between two subpath starts. -/
def SubpathLayout.longest (L : SubpathLayout) : Nat :=
  (Finset.range L.numSubpaths).sup fun k => (L.chunk k).length

theorem length_chunk_le_longest {k : Nat} (hk : k < L.numSubpaths) :
    (L.chunk k).length ≤ L.longest :=
  Finset.le_sup (f := fun k => (L.chunk k).length) (Finset.mem_range.mpr hk)

theorem exists_loadsLeft {a : Nat} (ha : a ∈ L.elements) :
    ∃ r, LoadsLeft L a r ∧ r ≤ L.longest := by
  obtain ⟨k, hk, hak⟩ := SubpathLayout.mem_elements.mp ha
  obtain ⟨j, hj⟩ := List.mem_iff_getElem?.mp hak
  have hjlt : j < (L.chunk k).length := (List.getElem?_eq_some_iff.mp hj).1
  have hle := length_chunk_le_longest hk
  refine ⟨_, Or.inr ⟨k, hk, j, hj, rfl⟩, ?_⟩
  split <;> omega

theorem LoadsLeft.pos {index r : Nat} (h : LoadsLeft L index r) (hindex : index ≠ invalidIndex) :
    0 < r := by
  rcases h with ⟨hleft, -⟩ | ⟨k, hk, j, hj, rfl⟩
  · exact absurd hleft hindex
  · split <;> omega

theorem LoadsLeft.load {succ : Nat → Nat} (hlinked : L.Linked m succ)
    (hsucc : ∀ k < L.numSubpaths, succ k < L.numSubpaths) {mem : Memory}
    (hbroken : ∀ k < L.numSubpaths, mem.load (L.start k) = invalidIndex)
    (hkept : ∀ a ∈ L.elements, (∀ k < L.numSubpaths, a ≠ L.start k) → mem.load a = m.load a)
    {index r : Nat} (hindex : index ≠ invalidIndex) (h : LoadsLeft L index r) :
    ∃ r', LoadsLeft L (mem.load index) r' ∧ r' + 1 = r := by
  rcases h with ⟨hleft, -⟩ | ⟨k, hk, j, hj, rfl⟩
  · exact absurd hleft hindex
  obtain ⟨hjlt, -⟩ := List.getElem?_eq_some_iff.mp hj
  have hmem : index ∈ L.chunk k := List.mem_of_getElem? hj
  by_cases hzero : j = 0
  · subst hzero
    rw [SubpathLayout.getElem?_chunk_zero hk] at hj
    refine ⟨0, Or.inl ⟨?_, rfl⟩, by simp⟩
    rw [← Option.some.inj hj]
    exact hbroken k hk
  · have hnotStart : ∀ l < L.numSubpaths, index ≠ L.start l := by
      rintro l hl rfl
      obtain rfl := SubpathLayout.subpath_unique hl hk (SubpathLayout.start_mem hl) hmem
      rw [← SubpathLayout.getElem?_chunk_zero hl] at hj
      exact hzero ((List.getElem?_inj hjlt (SubpathLayout.nodup_chunk hl)).mp hj)
    rw [hkept index (SubpathLayout.mem_elements.mpr ⟨k, hk, hmem⟩) hnotStart]
    have hnext := hlinked.load_eq hk hj
    by_cases hend : j + 1 < (L.chunk k).length
    · rw [List.getElem?_append_left hend] at hnext
      refine ⟨_, Or.inr ⟨k, hk, j + 1, hnext, rfl⟩, ?_⟩
      rw [if_neg (by omega), if_neg hzero]
      omega
    · have hlast : (L.chunk k).length = j + 1 := by omega
      rw [List.getElem?_append_right (by omega), hlast, Nat.sub_self,
        List.getElem?_cons_zero] at hnext
      refine ⟨1, Or.inr ⟨succ k, hsucc k hk, 0, ?_, rfl⟩, ?_⟩
      · rw [SubpathLayout.getElem?_chunk_zero (hsucc k hk), hnext]
      · rw [if_neg hzero, hlast]
        omega

/-- With the handler done, every action keeps it so and takes its loads from what is left. -/
theorem loadsLeft_step {succ : Nat → Nat} (hlinked : L.Linked m succ)
    (hsucc : ∀ k < L.numSubpaths, succ k < L.numSubpaths) (hstops : StopsAt L infos)
    (hstart : ∀ i, start i ∈ L.elements) (i : ι) {a : Action ι} {r : Nat}
    (h : Walking L m infos start s ∧ s.pending = [] ∧ LoadsLeft L (s.thread i).index r)
    (hstep : s.step false infos numSubpaths a = some s') :
    ∃ r', (Walking L m infos start s' ∧ s'.pending = [] ∧ LoadsLeft L (s'.thread i).index r') ∧
      r' + (if a = .load i then 1 else 0) ≤ r := by
  obtain ⟨hwalking, hdone, hleft⟩ := h
  have hwalking' :=
    walking_step (fun a ha => hlinked.load_mem hsucc ha) hstops hstart hwalking hstep
  cases a with
  | store j =>
    obtain ⟨index, hindex, -⟩ := System.step_store hstep
    simp [hwalking.storing j] at hindex
  | stop =>
    obtain ⟨info, rest, hpending, -⟩ := System.step_stop hstep
    simp [hdone] at hpending
  | load j =>
    obtain ⟨-, t, ht, rfl⟩ := System.step_load hstep
    by_cases hji : j = i
    · subst hji
      obtain ⟨hgoing, hindex, -⟩ := Thread.iteration_eq_some ht
      obtain ⟨done, hall, hwords⟩ := hwalking.words
      rw [hdone, List.append_nil] at hall
      subst hall
      have hbroken : ∀ k < L.numSubpaths, s.mem.load (L.start k) = invalidIndex := by
        intro k hk
        obtain ⟨info, hinfo, hat⟩ := hstops.all k hk
        rw [hwords _ (start_mem_elements hk), if_pos (List.mem_map.mpr ⟨info, hinfo, hat⟩)]
      have hkept : ∀ a ∈ L.elements, (∀ k < L.numSubpaths, a ≠ L.start k) →
          s.mem.load a = m.load a := by
        intro a ha hne
        rw [hwords a ha, if_neg]
        intro hin
        obtain ⟨info, hinfo, rfl⟩ := List.mem_map.mp hin
        obtain ⟨k, hk, hat⟩ := hstops.start info hinfo
        exact hne k hk hat
      obtain ⟨r', hr', hpay⟩ := hleft.load hlinked hsucc hbroken hkept hgoing
      refine ⟨r', ⟨hwalking', hdone, ?_⟩, by rw [if_pos rfl]; omega⟩
      simp only [Function.update_self, hindex]
      exact hr'
    · refine ⟨r, ⟨hwalking', hdone, ?_⟩, ?_⟩
      · simp only [Function.update_of_ne (Ne.symm hji)]
        exact hleft
      · rw [if_neg (by simpa using hji)]
        omega

/-- Any number of threads in `loop` or `migratingLoop`, started on elements of a path of one ring or
of one ring per subpath, in any interleaving with the stores of `alarm_handler`: every index is an
element of the thread's ring or `-1`, which is never loaded from; `accesscount` is the number of
loads; a thread leaves after a load from the start of a subpath. After the last store, every thread
leaves within as many loads as the longest stretch between two starts. -/
theorem threads_stop (hring : L.Split m ∨ L.Unsplit m) (hstops : StopsAt L infos)
    (numSubpaths : Nat) {thread : ι → Thread} (hfresh : ∀ i, (thread i).accesscount = 0)
    (hstart : ∀ i, (thread i).index ∈ L.elements) {acts : List (Action ι)} {s : System ι}
    (hrun : run (System.step false infos numSubpaths) (System.initial m infos thread) acts =
      some s) :
    (∀ i,
      ((s.thread i).index = invalidIndex ∨
        ∃ t, m.load^[t] (thread i).index = (s.thread i).index) ∧
      invalidIndex ∉ s.reads i ∧
      (s.thread i).accesscount = (s.reads i).length ∧
      ((s.thread i).index = invalidIndex →
        ∃ k < L.numSubpaths, (s.reads i).getLast? = some (L.start k))) ∧
    (s.pending = [] →
      ∀ acts' s', run (System.step false infos numSubpaths) s acts' = some s' → ∀ i,
        acts'.count (.load i) ≤ L.longest ∧
        ((s'.thread i).index ≠ invalidIndex →
          acts'.count (.load i) < L.longest ∧
            ∃ s'', s'.step false infos numSubpaths (.load i) = some s'')) := by
  obtain ⟨succ, hlinked, hsucc⟩ : ∃ succ, L.Linked m succ ∧
      ∀ k < L.numSubpaths, succ k < L.numSubpaths := by
    rcases hring with h | h
    · exact ⟨id, h, fun _ hk => hk⟩
    · exact ⟨L.nextSubpath, h, fun k _ => SubpathLayout.nextSubpath_lt k⟩
  have hclosed : ∀ a ∈ L.elements, m.load a ∈ L.elements := fun a ha => hlinked.load_mem hsucc ha
  have hwalking := run_invariant (fun s a _ s' => walking_step hclosed hstops hstart)
    (walking_initial hfresh hstart) hrun
  refine ⟨fun i => ?_, fun hdone acts' s' hrun' i => ?_⟩
  · have hthread := hwalking.thread i
    refine ⟨hthread.index.imp_right fun h => ⟨_, h.symm⟩, fun hmem => ?_, hthread.count,
      hthread.last⟩
    exact SubpathLayout.ne_invalidIndex (hthread.elements _ hmem) rfl
  · have hwalking' :=
      run_invariant (fun s a _ s' => walking_step hclosed hstops hstart) hwalking hrun'
    obtain ⟨r, hr, hrle⟩ : ∃ r, LoadsLeft L (s.thread i).index r ∧ r ≤ L.longest := by
      rcases (hwalking.thread i).index with hleft | hhere
      · exact ⟨0, Or.inl ⟨hleft, rfl⟩, Nat.zero_le _⟩
      · exact exists_loadsLeft (hhere ▸ iterate_mem hclosed (hstart i) _)
    obtain ⟨r', ⟨-, -, hr'⟩, hpay⟩ := run_measure
      (fun s a s' r => loadsLeft_step hlinked hsucc hstops hstart i) ⟨hwalking, hdone, hr⟩ hrun'
    rw [sum_map_cost] at hpay
    refine ⟨by omega, fun hgoing => ⟨?_, ?_⟩⟩
    · have := hr'.pos hgoing
      omega
    · obtain ⟨t, ht⟩ := System.exists_step_load false infos numSubpaths (hwalking'.storing i) hgoing
      exact ⟨_, ht⟩

/-- A thread in each loop, one load of each and both stores of the handler. -/
theorem threads_stop_two_subpaths :
    let thread : Bool → Thread := fun i =>
      if i then .loop (.start 4) else .migratingLoop (.start twoSubpaths.infos 1 8 0) 1
    let step : System Bool → Action Bool → Option (System Bool) :=
      System.step false twoSubpaths.infos 2
    ∃ s,
      run step (System.initial twoSubpathsMemory twoSubpaths.infos thread)
        [.load true, .stop, .load false, .stop] = some s ∧
      ∀ acts' s', run step s acts' = some s' →
        ∀ i, acts'.count (.load i) ≤ twoSubpaths.longest := by
  intro thread step
  refine ⟨_, rfl, fun acts' s' hrun' i => ?_⟩
  have hrun : run step (System.initial twoSubpathsMemory twoSubpaths.infos thread)
    [.load true, .stop, .load false, .stop] = some _ := rfl
  exact ((threads_stop (Or.inr twoSubpaths_unsplit) (stopsAt_infos twoSubpaths) 2 (by decide)
    (by decide) hrun).2 rfl acts' s' hrun' i).1

end Cachetest

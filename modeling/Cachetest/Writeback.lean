import Cachetest.Stopping

/-!
# Write-back

The build with `WRITEBACK` stores a zero behind every element it loads. That is harmless as long as
the path leaves the word behind each of its elements alone (`Spare`), as uniform paths do. Zipf
paths take the words of a line one after the other, so the store hits the next element.
-/

namespace Cachetest

open ByteMemory Circuit Runs

/-- The build without `WRITEBACK` does everything but the write-backs. -/
def withoutStores {ι : Type*} : Action ι → Option (Action ι)
  | .store _ => none
  | .load i => some (.load i)
  | .stop => some .stop

/-- Write-back does no harm to the path: in every reachable state, whatever threads run on it, a
write-back changes no word of an element (neither a link nor a `-1` the handler has stored), and the
threads have read the same elements as without `WRITEBACK`. -/
def WritebackHarmless (L : SubpathLayout) (m : Memory) (infos : List SubpathInfo)
    (numSubpaths : Nat) : Prop :=
  ∀ (ι : Type) [DecidableEq ι] (thread : ι → Thread),
    (∀ i, (thread i).accesscount = 0 ∧ (thread i).index ∈ L.elements) →
    ∀ (acts : List (Action ι)) (s : System ι),
      run (System.step true infos numSubpaths) (System.initial m infos thread) acts = some s →
        (∀ i s', s.step true infos numSubpaths (.store i) = some s' →
          ∀ a ∈ L.elements, s'.mem.load a = s.mem.load a) ∧
        ∃ t, run (System.step false infos numSubpaths) (System.initial m infos thread)
            (acts.filterMap withoutStores) = some t ∧
          t.thread = s.thread ∧ t.reads = s.reads

/-- The word behind an element shares no byte with another element, except for bytes that are zero
anyway, in elements that are not the start of a subpath. -/
def Spare (L : SubpathLayout) (m : Memory) : Prop :=
  ∀ e ∈ L.elements, ∀ f ∈ L.elements, ∀ b, e + 4 ≤ b → b < e + 8 → f ≤ b → b < f + 4 →
    m.byte b = 0 ∧ ∀ k < L.numSubpaths, f ≠ L.start k

variable {ι : Type*} {L : SubpathLayout} {m : Memory} {infos : List SubpathInfo}
  {numSubpaths : Nat}

/-! ## Spare words suffice -/

/-- `s`, with write-backs, and `t`, without, agree on the path and on what the threads do. Elements
that are not starts of subpaths still hold what they held at the beginning. -/
structure Agrees (L : SubpathLayout) (m : Memory) (infos : List SubpathInfo) (start : ι → Nat)
    (s t : System ι) : Prop where
  walking : Walking L m infos start t
  thread : s.thread = t.thread
  reads : s.reads = t.reads
  pending : s.pending = t.pending
  storing : ∀ i e, s.storing i = some e → e ∈ L.elements
  same : ∀ f ∈ L.elements, ∀ b, f ≤ b → b < f + 4 → s.mem.byte b = t.mem.byte b
  kept : ∀ f ∈ L.elements, (∀ k < L.numSubpaths, f ≠ L.start k) →
    ∀ b, f ≤ b → b < f + 4 → s.mem.byte b = m.byte b

variable {start : ι → Nat} {s s' t : System ι}

theorem byte_store_zero (m : Memory) {a b : Nat} (h : a ≤ b ∧ b < a + 4) :
    (m.store a 0).byte b = 0 := by
  simp only [Memory.store, if_pos h, Nat.zero_div]
  rfl

theorem Agrees.store_byte (hspare : Spare L m) (h : Agrees L m infos start s t) {e : Nat}
    (he : e ∈ L.elements) {f : Nat} (hf : f ∈ L.elements) {b : Nat} (hb : f ≤ b) (hb' : b < f + 4) :
    (s.mem.store (e + 4) 0).byte b = s.mem.byte b := by
  by_cases hin : e + 4 ≤ b ∧ b < e + 8
  · obtain ⟨hzero, hnotStart⟩ := hspare e he f hf b hin.1 hin.2 hb hb'
    rw [byte_store_zero _ ⟨hin.1, by omega⟩, h.kept f hf hnotStart b hb hb', hzero]
  · exact Memory.byte_store_of_outside _ _ (by omega)

theorem agrees_initial {thread : ι → Thread}
    (hthread : ∀ i, (thread i).accesscount = 0 ∧ (thread i).index ∈ L.elements) :
    Agrees L m infos (fun i => (thread i).index) (System.initial m infos thread)
      (System.initial m infos thread) where
  walking := walking_initial (fun i => (hthread i).1) (fun i => (hthread i).2)
  thread := rfl
  reads := rfl
  pending := rfl
  storing _ _ h := by simp [System.initial] at h
  same _ _ _ _ _ := rfl
  kept _ _ _ _ _ _ := rfl

variable [DecidableEq ι]

theorem agrees_step (hclosed : ∀ a ∈ L.elements, m.load a ∈ L.elements) (hstops : StopsAt L infos)
    (hstart : ∀ i, start i ∈ L.elements) (hspare : Spare L m) {a : Action ι}
    (h : Agrees L m infos start s t) (hstep : s.step true infos numSubpaths a = some s') :
    ∃ t', run (System.step false infos numSubpaths) t (withoutStores a).toList = some t' ∧
      Agrees L m infos start s' t' := by
  cases a with
  | store i =>
    obtain ⟨e, he, rfl⟩ := System.step_store hstep
    have helement := h.storing i e he
    refine ⟨t, rfl, h.walking, h.thread, h.reads, h.pending, fun j e' he' => ?_, ?_, ?_⟩
    · by_cases hji : j = i
      · subst hji
        simp at he'
      · simp only [Function.update_of_ne hji] at he'
        exact h.storing j e' he'
    · intro f hf b hb hb'
      rw [← h.same f hf b hb hb']
      exact h.store_byte hspare helement hf hb hb'
    · intro f hf hnotStart b hb hb'
      rw [← h.kept f hf hnotStart b hb hb']
      exact h.store_byte hspare helement hf hb hb'
  | stop =>
    obtain ⟨info, rest, hpending, rfl⟩ := System.step_stop hstep
    have hstep' : t.step false infos numSubpaths .stop =
        some { t with mem := t.mem.store info.startIdx invalidIndex, pending := rest } := by
      simp only [System.step, ← h.pending, hpending]
    have hwalking := walking_step hclosed hstops hstart h.walking hstep'
    obtain ⟨done, hdone, -⟩ := h.walking.words
    obtain ⟨k, hk, hat⟩ := hstops.start info (by rw [hdone, ← h.pending, hpending]; simp)
    refine ⟨_, run_cons.mpr ⟨_, hstep', rfl⟩, hwalking, h.thread, h.reads, rfl, h.storing,
      fun f hf b hb hb' => ?_, fun f hf hnotStart b hb hb' => ?_⟩
    · have hsame := h.same f hf b hb hb'
      simp only [Memory.store, hsame]
    · have hapart := SubpathLayout.apart_of_ne hf (start_mem_elements hk) (hnotStart k hk)
      rw [← h.kept f hf hnotStart b hb hb', hat]
      exact Memory.byte_store_of_outside _ _ (hapart.outside hb hb')
  | load i =>
    obtain ⟨-, next, hnext, rfl⟩ := System.step_load hstep
    have hgoing := (Thread.iteration_eq_some hnext).1
    have helement : (s.thread i).index ∈ L.elements := by
      rw [h.thread] at hgoing ⊢
      rw [((h.walking.thread i).index).resolve_left hgoing]
      exact iterate_mem hclosed (hstart i) _
    have hload : s.mem.load (s.thread i).index = t.mem.load (s.thread i).index :=
      Memory.load_congr (h.same _ helement)
    rw [Thread.iteration_congr hload, h.thread] at hnext
    have hstep' : t.step false infos numSubpaths (.load i) =
        some { t with
          thread := Function.update t.thread i next
          reads := Function.update t.reads i (t.reads i ++ [(t.thread i).index]) } := by
      simp [System.step, h.walking.storing i, hnext]
    refine ⟨_, run_cons.mpr ⟨_, hstep', rfl⟩, walking_step hclosed hstops hstart h.walking hstep',
      ?_, ?_, h.pending, fun j e he => ?_, h.same, h.kept⟩
    · simp only [h.thread]
    · simp only [h.thread, h.reads]
    · simp only [if_true] at he
      by_cases hji : j = i
      · subst hji
        rw [Function.update_self] at he
        exact Option.some.inj he ▸ helement
      · rw [Function.update_of_ne hji] at he
        exact h.storing j e he

theorem harmless_of_spare (hclosed : ∀ a ∈ L.elements, m.load a ∈ L.elements)
    (hstops : StopsAt L infos) (hspare : Spare L m) : WritebackHarmless L m infos numSubpaths := by
  intro ι _ thread hthread acts s hrun
  obtain ⟨t, hrun', hagrees⟩ : ∃ t,
      run (System.step false infos numSubpaths) (System.initial m infos thread)
        (acts.filterMap withoutStores) = some t ∧
      Agrees L m infos (fun i => (thread i).index) s t :=
    run_simulation
      (fun s t a s' => agrees_step hclosed hstops (fun i => (hthread i).2) hspare)
      (agrees_initial hthread) hrun
  refine ⟨fun i s' hstep a ha => ?_, t, hrun', hagrees.thread.symm, hagrees.reads.symm⟩
  obtain ⟨e, he, rfl⟩ := System.step_store hstep
  have helement := hagrees.storing i e he
  exact Memory.load_congr fun b hb hb' => hagrees.store_byte hspare helement ha hb hb'

/-! ## Spare words are needed -/

/-- A single thread shows the harm: it loads `e`, the handler breaks the start `f`, and the
write-back of `e` follows. -/
theorem spare_of_harmless (hstops : StopsAt L infos)
    (hharmless : WritebackHarmless L m infos numSubpaths) : Spare L m := by
  intro e he f hf b hb₁ hb₂ hb₃ hb₄
  set start := System.initial m infos fun _ : Unit => Thread.loop (.start e) with hinitial
  obtain ⟨t, hload⟩ := System.exists_step_load true infos numSubpaths (s := start) (i := ()) rfl
    (SubpathLayout.ne_invalidIndex he)
  simp only [if_true] at hload
  set loaded : System Unit := { start with
    thread := Function.update start.thread () t
    storing := Function.update start.storing () (some (start.thread ()).index)
    reads := Function.update start.reads () (start.reads () ++ [(start.thread ()).index]) }
  have hstoring : loaded.storing () = some e := rfl
  have hfresh : ∀ i : Unit, (Thread.loop (.start e)).accesscount = 0 ∧
      (Thread.loop (.start e)).index ∈ L.elements := fun _ => ⟨rfl, he⟩
  -- Whatever the memory is by then, the write-back must not change `f`.
  have hkeeps : ∀ (acts : List (Action Unit)) (s : System Unit), s.storing () = some e →
      run (System.step true infos numSubpaths) start acts = some s → s.mem.byte b = 0 := by
    intro acts s hstoring hrun
    have hstep : s.step true infos numSubpaths (.store ()) = some { s with
        mem := s.mem.store (e + 4) 0
        storing := Function.update s.storing () none } := by
      simp [System.step, hstoring]
    have hsame := (hharmless Unit _ hfresh acts s hrun).1 () _ hstep f hf
    rw [← Memory.byte_eq_of_load_eq hsame b hb₃ hb₄, byte_store_zero _ ⟨hb₁, by omega⟩]
  refine ⟨hkeeps [.load ()] loaded hstoring (run_cons.mpr ⟨_, hload, rfl⟩), ?_⟩
  rintro k hk rfl
  obtain ⟨info, hinfo, hat⟩ := hstops.all k hk
  obtain ⟨done, rest, hsplit⟩ := List.append_of_mem hinfo
  obtain ⟨m', hstopped⟩ :
      ∃ m', run (System.step true infos numSubpaths) loaded (List.replicate done.length .stop) =
        some { loaded with mem := m', pending := info :: rest } :=
    System.run_stops loaded hsplit
  have hzero := hkeeps (.load () :: (List.replicate done.length .stop ++ [.stop]))
    { loaded with mem := m'.store info.startIdx invalidIndex, pending := rest } hstoring
    (run_cons.mpr ⟨_, hload, run_append.mpr ⟨_, hstopped, run_cons.mpr ⟨_, rfl, rfl⟩⟩⟩)
  obtain ⟨j, hj, rfl⟩ : ∃ j, j < 4 ∧ b = L.start k + j := ⟨b - L.start k, by omega, by omega⟩
  rw [hat, Memory.byte_store_add _ _ _ hj] at hzero
  revert hzero
  obtain rfl | rfl | rfl | rfl : j = 0 ∨ j = 1 ∨ j = 2 ∨ j = 3 := by omega
  all_goals decide

/-! ## Which paths have spare words -/

/-- Three words in a row are too dense: only one of the last two can hold a zero. -/
theorem not_spare (hring : L.Unsplit m) {a : Nat} (ha : a ∈ L.elements) (ha' : a + 4 ∈ L.elements)
    (ha'' : a + 8 ∈ L.elements) : ¬Spare L m := by
  intro hspare
  have hzero : ∀ e ∈ L.elements, e + 4 ∈ L.elements → m.load (e + 4) = 0 := by
    intro e he he'
    have hbyte : ∀ t < 4, m.byte (e + 4 + t) = 0 := fun t ht =>
      (hspare e he _ he' (e + 4 + t) (by omega) (by omega) (by omega) (by omega)).1
    exact Memory.load_eq_zero hbyte
  have hsame := hring.isCircuit.next_inj ha' ha'' ((hzero a ha ha').trans (hzero _ ha' ha'').symm)
  omega

namespace SubpathDistribution

variable {d : SubpathDistribution} {rand : Randomness} {st : PathState}

/-- Uniform paths use the first word of a line only, so all their words are spare. -/
theorem uniform_spare (hwindow : d.bufferOffset + d.buffer.getSize < unsignedRange)
    (halpha : d.zipfAlpha ≤ 0) (hrun : d.doDistribute rand m = .ok st) :
    ∃ L : SubpathLayout, d.Builds st L ∧ ∀ m', Spare L m' := by
  obtain ⟨hfit, hcache⟩ := uniform_fits halpha hwindow hrun
  obtain ⟨L, hL, hchunks, -⟩ := uniform_builds hfit halpha hrun
  have hperm := elements_perm hfit (lineSize_of_cacheline hcache) hL.numSubpaths hchunks
  have hline : ∀ a ∈ L.elements, ∃ l, a = d.bufferOffset + l * 64 := by
    intro a ha
    obtain ⟨l, -, rfl⟩ := List.mem_map.mp (hperm.mem_iff.mp ha)
    exact ⟨l, rfl⟩
  refine ⟨L, hL, fun m' e he f hf b hb₁ hb₂ hb₃ hb₄ => ?_⟩
  obtain ⟨l, rfl⟩ := hline e he
  obtain ⟨l', rfl⟩ := hline f hf
  omega

/-- Over a zero-filled window, no Zipf path in lines of at least three words has spare words. -/
theorem zipf_not_spare (hfit : d.Fits)
    (hwindow : d.bufferOffset + d.buffer.getSize < unsignedRange) (halpha : ¬d.zipfAlpha ≤ 0)
    (helements : d.numElements = asUnsigned (d.buffer.getSize / elementSize))
    (hline : 3 ≤ d.numEntriesPerDataline)
    (hzero : ∀ a, d.bufferOffset ≤ a → a < d.bufferOffset + d.buffer.getSize → m.byte a = 0)
    (hrun : d.doDistribute rand m = .ok st) :
    ∃ L : SubpathLayout, d.Builds st L ∧ ¬Spare L st.mem := by
  obtain ⟨L, hL, hchunks⟩ := zipf_builds hfit halpha hrun
  have hk : 0 < L.numSubpaths := SubpathLayout.numSubpaths_pos
  obtain ⟨l, hl, hfull⟩ := (hchunks 0 hfit.subpaths_pos).exists_full_line hfit hwindow helements
    hzero hfit.subpaths_pos (SubpathLayout.nodup_chunk hk)
  have hmem : ∀ s < 3, d.slot 0 l 0 + s * 4 ∈ L.elements := by
    intro s hs
    refine SubpathLayout.mem_elements.mpr ⟨0, hk, ?_⟩
    have hslot := hfull s (by omega)
    simpa only [slot, elementSize, Nat.zero_mul, Nat.add_zero] using hslot
  exact ⟨L, hL, not_spare hL.unsplit (hmem 0 (by omega)) (hmem 1 (by omega)) (hmem 2 (by omega))⟩

end SubpathDistribution

/-! ## Write-back and the path -/

/-- For every path of one ring or of one ring per subpath, write-back is harmless, to all threads,
all numbers of iterations and all interleavings with the handler, exactly when the words behind the
elements are spare. -/
theorem writeback_harmless_iff (hring : L.Split m ∨ L.Unsplit m) (hstops : StopsAt L infos)
    (numSubpaths : Nat) : WritebackHarmless L m infos numSubpaths ↔ Spare L m := by
  have hclosed : ∀ a ∈ L.elements, m.load a ∈ L.elements := fun a ha =>
    hring.elim (fun h => h.load_mem ha) (fun h => h.load_mem ha)
  exact ⟨spare_of_harmless hstops, harmless_of_spare hclosed hstops⟩

/-- The first two words of `twoSubpaths` follow each other. -/
theorem writeback_harmless_iff_two_subpaths :
    WritebackHarmless twoSubpaths twoSubpathsMemory twoSubpaths.infos 2 ↔
      Spare twoSubpaths twoSubpathsMemory :=
  writeback_harmless_iff (Or.inr twoSubpaths_unsplit) (stopsAt_infos twoSubpaths) 2

/-- A Zipf path in a single line of 64 bytes. -/
theorem writeback_harms_zipf_path :
    ∃ (st : PathState) (L : SubpathLayout),
      (SubpathDistribution.create (Buffer.smallPool 64) 64 1 1).doDistribute Randomness.identity
        zeros = .ok st ∧
      (SubpathDistribution.create (Buffer.smallPool 64) 64 1 1).Builds st L ∧
      ¬WritebackHarmless L st.mem L.infos 1 := by
  have hfit : (SubpathDistribution.create (Buffer.smallPool 64) 64 1 1).Fits :=
    SubpathDistribution.fits_of_window (by decide) (by decide) (by decide) (by decide)
  have hrank : ∀ k < 1, ∀ i, 1 ≤ Randomness.identity.zipf k i ∧ Randomness.identity.zipf k i ≤ 1 :=
    fun _ _ _ => (by decide : 1 ≤ 1 ∧ 1 ≤ 1)
  obtain ⟨st, hrun⟩ := SubpathDistribution.zipf_total hfit (by decide) (by decide) (by decide) hrank
    zeros
  obtain ⟨L, hL, hdense⟩ := SubpathDistribution.zipf_not_spare hfit (by decide) (by decide) rfl
    (by decide) (fun _ _ _ => rfl) hrun
  exact ⟨st, L, hrun, hL, fun hharmless =>
    hdense (spare_of_harmless (stopsAt_infos L) hharmless)⟩

end Cachetest

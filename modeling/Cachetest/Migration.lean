import Cachetest.Loop

/-!
# Migration

A migrating fibre follows the unsplit path and moves to the cluster of a subpath when it enters it.
`migratingLoop` does not look at its index to find out: it counts steps. `Aligned` is the invariant
that keeps the count and the index in step, whatever the lengths of the subpaths.
-/

namespace Cachetest

open ByteMemory Circuit Runs

variable {ι : Type*} [DecidableEq ι] {L : SubpathLayout} {m : Memory}

/-- The index is element `curStep` of subpath `subpathIdx`. -/
structure Aligned (L : SubpathLayout) (v : MigratingVars) : Prop where
  subpath : v.subpathIdx < L.numSubpaths
  steps : v.numSubpathSteps = (L.chunk v.subpathIdx).length
  element : (L.chunk v.subpathIdx)[v.curStep]? = some v.index

theorem subpathLength_infos {k : Nat} (hk : k < L.numSubpaths) :
    subpathLength L.infos k = (L.chunk k).length := by
  simp [subpathLength, SubpathLayout.infos, hk, SubpathInfo.describing]

theorem aligned_start (hunsplit : L.Unsplit m) {s k : Nat} (hs : s < L.numSubpaths)
    (hk : k < (L.chunk s).length) :
    Aligned L (MigratingVars.start L.infos s (startIndex m (.describing (L.chunk s)) k) k) where
  subpath := hs
  steps := subpathLength_infos hs
  element := by
    have hfirst : (L.chunk s ++ [L.start (L.nextSubpath s)])[0]? = some (L.start s) := by
      rw [List.getElem?_append_left (SubpathLayout.length_chunk_pos hs),
        SubpathLayout.getElem?_chunk_zero hs]
    have hwalk := (hunsplit s hs).iterate hfirst (i := k) (by omega)
    rw [Nat.zero_add, List.getElem?_append_left hk] at hwalk
    exact hwalk

theorem nextSubpath_eq {k : Nat} (hk : k < L.numSubpaths) :
    (if k + 1 ≥ L.numSubpaths then 0 else k + 1) = L.nextSubpath k := by
  unfold SubpathLayout.nextSubpath
  split
  case isTrue hlast =>
    have heq : k + 1 = L.numSubpaths := by omega
    rw [heq, Nat.mod_self]
  case isFalse hinside => rw [Nat.mod_eq_of_lt (by omega)]

/-- What an iteration does to the variables: it loads the word at the index and counts the load, and
it makes a step of the subpath, or goes into the next one and calls `fibre_migrate`. -/
theorem migratingLoopIteration_cases {infos : List SubpathInfo} {numSubpaths : Nat}
    {v v' : MigratingVars} {c : Option Nat}
    (h : migratingLoopIteration infos numSubpaths m v = some (v', c)) :
    v'.index = m.load v.index ∧ v'.accesscount = v.accesscount + 1 ∧
      ((v.curStep + 1 < v.numSubpathSteps ∧ v'.subpathIdx = v.subpathIdx ∧
          v'.curStep = v.curStep + 1 ∧ c = none) ∨
        (v.numSubpathSteps ≤ v.curStep + 1 ∧
          v'.subpathIdx = (if v.subpathIdx + 1 ≥ numSubpaths then 0 else v.subpathIdx + 1) ∧
          v'.curStep = 0 ∧ c = some v'.subpathIdx)) := by
  simp only [migratingLoopIteration] at h
  split at h
  case isTrue => cases h
  case isFalse =>
    split at h
    case isTrue hend =>
      obtain ⟨rfl, rfl⟩ := Prod.mk.inj (Option.some.inj h)
      exact ⟨rfl, rfl, Or.inr ⟨hend, rfl, rfl, rfl⟩⟩
    case isFalse hinside =>
      obtain ⟨rfl, rfl⟩ := Prod.mk.inj (Option.some.inj h)
      exact ⟨rfl, rfl, Or.inl ⟨by omega, rfl, rfl, rfl⟩⟩

/-- A fibre on the cluster of `_subpathIdx` is there after the iteration, by way of the call. -/
theorem subpathIdx_iteration {infos : List SubpathInfo} {numSubpaths : Nat} {v v' : MigratingVars}
    {c : Option Nat} (h : migratingLoopIteration infos numSubpaths m v = some (v', c)) :
    c.getD v.subpathIdx = v'.subpathIdx := by
  obtain ⟨-, -, ⟨-, hsubpath, -, rfl⟩ | ⟨-, -, -, rfl⟩⟩ := migratingLoopIteration_cases h
  · exact hsubpath.symm
  · rfl

/-- An aligned iteration is one load on the path. It migrates exactly when it enters a subpath, to
the cluster of that subpath, and leaves the fibre aligned. -/
theorem Aligned.iteration (hunsplit : L.Unsplit m) {v : MigratingVars} (h : Aligned L v) :
    ∃ v' c, migratingLoopIteration L.infos L.numSubpaths m v = some (v', c) ∧ Aligned L v' ∧
      (c.isSome ↔ ∃ j < L.numSubpaths, v'.index = L.start j) ∧
      ∀ j, c = some j → j < L.numSubpaths ∧ v'.index = L.start j := by
  have hcur : v.curStep < (L.chunk v.subpathIdx).length :=
    (List.getElem?_eq_some_iff.mp h.element).1
  have hgoing : v.index ≠ invalidIndex := SubpathLayout.ne_invalidIndex
    (SubpathLayout.mem_elements.mpr ⟨_, h.subpath, List.mem_of_getElem? h.element⟩)
  have hnext := hunsplit.load_eq h.subpath h.element
  have hlt := SubpathLayout.nextSubpath_lt (L := L) v.subpathIdx
  simp only [migratingLoopIteration, hgoing, if_false, h.steps, nextSubpath_eq h.subpath]
  by_cases hend : v.curStep + 1 ≥ (L.chunk v.subpathIdx).length
  · have hlast : v.curStep + 1 = (L.chunk v.subpathIdx).length := by omega
    rw [hlast, List.getElem?_append_right le_rfl, Nat.sub_self, List.getElem?_cons_zero] at hnext
    have hload := (Option.some.inj hnext).symm
    rw [if_pos hend]
    refine ⟨_, _, rfl, ⟨hlt, subpathLength_infos hlt, ?_⟩, ?_, ?_⟩
    · rw [hload, SubpathLayout.getElem?_chunk_zero hlt]
    · exact iff_of_true rfl ⟨_, hlt, hload⟩
    · intro j hj
      obtain rfl := Option.some.inj hj
      exact ⟨hlt, hload⟩
  · rw [List.getElem?_append_left (by omega)] at hnext
    rw [if_neg hend]
    refine ⟨_, _, rfl, ⟨h.subpath, rfl, hnext⟩, ?_, fun j hj => by simp at hj⟩
    refine iff_of_false (by simp) ?_
    rintro ⟨j, hj, hstart⟩
    -- A start is element 0 of its subpath, and the loaded element is a later one.
    have hmem : L.start j ∈ L.chunk v.subpathIdx := by
      rw [← hstart]
      exact List.mem_of_getElem? hnext
    obtain rfl := SubpathLayout.subpath_unique hj h.subpath (SubpathLayout.start_mem hj) hmem
    have hzero := SubpathLayout.getElem?_chunk_zero hj
    simp only at hstart
    rw [← hstart, ← hnext] at hzero
    have := (List.getElem?_inj (SubpathLayout.length_chunk_pos hj)
      (SubpathLayout.nodup_chunk hj)).mp hzero
    omega

/-- What an iteration of an aligned fibre does to its variables. -/
theorem Aligned.iteration_cases {v v' : MigratingVars} {c : Option Nat} (h : Aligned L v)
    (hiteration : migratingLoopIteration L.infos L.numSubpaths m v = some (v', c)) :
    v'.index = m.load v.index ∧ v'.accesscount = v.accesscount + 1 ∧
      ((v.curStep + 1 < (L.chunk v.subpathIdx).length ∧ v'.subpathIdx = v.subpathIdx ∧
          v'.curStep = v.curStep + 1 ∧ c = none) ∨
        (v.curStep + 1 = (L.chunk v.subpathIdx).length ∧
          v'.subpathIdx = L.nextSubpath v.subpathIdx ∧ v'.curStep = 0 ∧
            c = some v'.subpathIdx)) := by
  have hcur := (List.getElem?_eq_some_iff.mp h.element).1
  obtain ⟨hindex, hcount, hcases⟩ := migratingLoopIteration_cases hiteration
  refine ⟨hindex, hcount, ?_⟩
  rw [h.steps, nextSubpath_eq h.subpath] at hcases
  exact hcases.imp_right fun ⟨hend, hrest⟩ => ⟨by omega, hrest⟩

/-- A migrating fibre, among any other threads and in any order of their loads, stays aligned until
the handler's first store: it is on the cluster of subpath `subpathIdx` and on element `curStep` of
that subpath. Its next iteration loads the word there, counts the load, and either makes a step or
wraps around into the next subpath; it calls `fibre_migrate` exactly when the load returns the start
of a subpath, with the cluster of that subpath. -/
theorem migration_in_step (hunsplit : L.Unsplit m) {thread : ι → Thread} {i : ι} {s k : Nat}
    (hs : s < L.numSubpaths) (hk : k < (L.chunk s).length)
    (hthread : thread i = .migratingLoop
      (.start L.infos s (startIndex m (.describing (L.chunk s)) k) k) s)
    {acts : List (Action ι)} (halarm : Action.stop ∉ acts) {t : System ι}
    (hrun : run (System.step false L.infos L.numSubpaths) (System.initial m L.infos thread) acts =
      some t) :
    ∃ v, t.thread i = .migratingLoop v v.subpathIdx ∧
      v.subpathIdx < L.numSubpaths ∧
      v.curStep < (L.chunk v.subpathIdx).length ∧
      (L.chunk v.subpathIdx)[v.curStep]? = some v.index ∧
      ∃ v' c, migratingLoopIteration L.infos L.numSubpaths t.mem v = some (v', c) ∧
        v'.index = t.mem.load v.index ∧ v'.accesscount = v.accesscount + 1 ∧
        ((v.curStep + 1 < (L.chunk v.subpathIdx).length ∧ v'.subpathIdx = v.subpathIdx ∧
            v'.curStep = v.curStep + 1 ∧ c = none) ∨
          (v.curStep + 1 = (L.chunk v.subpathIdx).length ∧
            v'.subpathIdx = (v.subpathIdx + 1) % L.numSubpaths ∧ v'.curStep = 0 ∧
            c = some v'.subpathIdx)) ∧
        (c.isSome ↔ ∃ j < L.numSubpaths, v'.index = L.start j) ∧
        ∀ j, c = some j → j < L.numSubpaths ∧ v'.index = L.start j := by
  obtain ⟨-, hmem, v, hv, haligned⟩ := run_invariant
    (I := fun t : System ι => (∀ j, t.storing j = none) ∧ t.mem = m ∧
      ∃ v, t.thread i = .migratingLoop v v.subpathIdx ∧ Aligned L v)
    (fun t a ha t' h hstep => by
      obtain ⟨hstoring, hmem, v, hv, haligned⟩ := h
      cases a with
      | store j =>
        obtain ⟨index, hindex, -⟩ := System.step_store hstep
        simp [hstoring j] at hindex
      | stop => exact absurd ha halarm
      | load j =>
        obtain ⟨-, next, hnext, rfl⟩ := System.step_load hstep
        refine ⟨hstoring, hmem, ?_⟩
        by_cases hji : j = i
        · subst hji
          obtain ⟨v', c, hiteration, haligned', -⟩ := haligned.iteration (hmem ▸ hunsplit)
          rw [hv, Thread.iteration, hiteration] at hnext
          obtain rfl := Option.some.inj hnext
          exact ⟨v', by simp [subpathIdx_iteration hiteration], haligned'⟩
        · exact ⟨v, by simp [Function.update_of_ne (Ne.symm hji), hv], haligned⟩)
    ⟨fun _ => rfl, rfl, _, hthread, aligned_start hunsplit hs hk⟩ hrun
  rw [← hmem] at hunsplit
  obtain ⟨v', c, hiteration, -, hmigrate, hcluster⟩ := haligned.iteration hunsplit
  obtain ⟨hindex, hcount, hcases⟩ := haligned.iteration_cases hiteration
  exact ⟨v, hv, haligned.subpath, (List.getElem?_eq_some_iff.mp haligned.element).1,
    haligned.element, v', c, hiteration, hindex, hcount, hcases, hmigrate, hcluster⟩

/-- A fibre that starts on the second element of the first subpath and makes one load is on the
cluster of the second one. -/
theorem migration_in_step_two_subpaths :
    let thread : Unit → Thread := fun _ => .migratingLoop
      (.start twoSubpaths.infos 0
        (startIndex twoSubpathsMemory (.describing (twoSubpaths.chunk 0)) 1) 1) 0
    ∃ t,
      run (System.step false twoSubpaths.infos twoSubpaths.numSubpaths)
        (System.initial twoSubpathsMemory twoSubpaths.infos thread) [.load ()] = some t ∧
      ∃ v, t.thread () = .migratingLoop v v.subpathIdx ∧ v.subpathIdx = 1 ∧
        (twoSubpaths.chunk v.subpathIdx)[v.curStep]? = some v.index := by
  intro thread
  have hthread : thread () = .migratingLoop (.start twoSubpaths.infos 0
    (startIndex twoSubpathsMemory (.describing (twoSubpaths.chunk 0)) 1) 1) 0 := rfl
  obtain ⟨t, hrun, hend⟩ : ∃ t,
      run (System.step false twoSubpaths.infos twoSubpaths.numSubpaths)
        (System.initial twoSubpathsMemory twoSubpaths.infos thread) [.load ()] = some t ∧
      t.thread () = .migratingLoop ⟨8, 1, 1, 1, 0⟩ 1 := ⟨_, rfl, rfl⟩
  obtain ⟨v, hv, -, -, helement, -⟩ := migration_in_step twoSubpaths_unsplit (by decide)
    (by decide) hthread (by decide) hrun
  have hsubpath : v.subpathIdx = 1 := (Thread.migratingLoop.inj (hv.symm.trans hend)).2
  exact ⟨t, hrun, v, hv, hsubpath, helement⟩

end Cachetest

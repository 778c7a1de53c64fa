import Mathlib.Algebra.BigOperators.Group.Finset.Basic
import Cachetest.Migration

/-!
# Subpath after subpath

How far a migrating fibre has come: through `q` whole subpaths, one after the other around the ring,
and `curStep` elements of the next one (`Underway`). Where it reads `-1` it is at the start of a
subpath, whatever the handler has broken by then, so it ends with `q` whole subpaths and one load
(`Roams`).
-/

namespace Cachetest

open ByteMemory Circuit

variable {L : SubpathLayout} {m : Memory} {s q : Nat}

/-! ## Stretches of the path -/

namespace SubpathLayout

/-- How many elements `q` subpaths in a row have, from subpath `s` on. -/
def stretch (L : SubpathLayout) (s q : Nat) : Nat :=
  ∑ j ∈ Finset.range q, (L.chunk ((s + j) % L.numSubpaths)).length

@[simp] theorem stretch_zero : L.stretch s 0 = 0 := rfl

theorem stretch_succ :
    L.stretch s (q + 1) = L.stretch s q + (L.chunk ((s + q) % L.numSubpaths)).length :=
  Finset.sum_range_succ ..

theorem nextSubpath_mod (k : Nat) : L.nextSubpath (k % L.numSubpaths) = (k + 1) % L.numSubpaths :=
  Nat.mod_add_mod k L.numSubpaths 1

theorem Unsplit.iterate_start (h : L.Unsplit m) {k : Nat} (hk : k < L.numSubpaths) {i : Nat}
    (hi : i ≤ (L.chunk k).length) :
    (L.chunk k ++ [L.start (L.nextSubpath k)])[i]? = some (m.load^[i] (L.start k)) := by
  have hfirst : (L.chunk k ++ [L.start (L.nextSubpath k)])[0]? = some (L.start k) := by
    rw [List.getElem?_append_left (length_chunk_pos hk), getElem?_chunk_zero hk]
  have hwalk := (h k hk).iterate hfirst (i := i) (by omega)
  rwa [Nat.zero_add] at hwalk

theorem Unsplit.iterate_stretch (h : L.Unsplit m) (hs : s < L.numSubpaths) (q : Nat) :
    m.load^[L.stretch s q] (L.start s) = L.start ((s + q) % L.numSubpaths) := by
  induction q with
  | zero => rw [stretch_zero, Function.iterate_zero_apply, Nat.add_zero, Nat.mod_eq_of_lt hs]
  | succ q ih =>
    have hlt : (s + q) % L.numSubpaths < L.numSubpaths := Nat.mod_lt _ numSubpaths_pos
    have hend := h.iterate_start hlt le_rfl
    rw [List.getElem?_append_right le_rfl, Nat.sub_self, List.getElem?_cons_zero,
      nextSubpath_mod] at hend
    rw [stretch_succ, Nat.add_comm (L.stretch s q), Function.iterate_add_apply, ih]
    exact (Option.some.inj hend).symm

theorem Unsplit.iterate_element (h : L.Unsplit m) (hs : s < L.numSubpaths) {j a : Nat}
    (ha : (L.chunk ((s + q) % L.numSubpaths))[j]? = some a) :
    m.load^[L.stretch s q + j] (L.start s) = a := by
  have hlt : (s + q) % L.numSubpaths < L.numSubpaths := Nat.mod_lt _ numSubpaths_pos
  obtain ⟨hj, -⟩ := List.getElem?_eq_some_iff.mp ha
  have hat := h.iterate_start hlt hj.le
  rw [List.getElem?_append_left hj, ha] at hat
  rw [Nat.add_comm, Function.iterate_add_apply, h.iterate_stretch hs]
  exact (Option.some.inj hat).symm

end SubpathLayout

/-! ## How far a fibre has come -/

/-- A fibre that has set out from subpath `s` is in its loop and has been through `q` subpaths. -/
structure Underway (L : SubpathLayout) (s q : Nat) (v : MigratingVars) : Prop
    extends Aligned L v where
  subpathIdx : v.subpathIdx = (s + q) % L.numSubpaths
  accesscount : v.accesscount = L.stretch s q + v.curStep

variable {v v' : MigratingVars}

theorem Underway.index (hunsplit : L.Unsplit m) (hs : s < L.numSubpaths) (h : Underway L s q v) :
    v.index = m.load^[v.accesscount] (L.start s) := by
  have helement := h.element
  rw [h.subpathIdx] at helement
  rw [h.accesscount]
  exact (hunsplit.iterate_element hs helement).symm

theorem Underway.iteration (hunsplit : L.Unsplit m) (h : Underway L s q v) :
    ∃ v' c q', migratingLoopIteration L.infos L.numSubpaths m v = some (v', c) ∧
      Underway L s q' v' := by
  obtain ⟨v', c, hiteration, haligned, -⟩ := h.toAligned.iteration hunsplit
  have hcur := (List.getElem?_eq_some_iff.mp h.element).1
  obtain ⟨-, hcount, ⟨-, hsubpath, hstep, -⟩ | ⟨hend, hsubpath, hstep, -⟩⟩ :=
    h.toAligned.iteration_cases hiteration
  · refine ⟨v', c, q, hiteration, haligned, hsubpath.trans h.subpathIdx, ?_⟩
    rw [hcount, h.accesscount, hstep, Nat.add_assoc]
  · rw [h.subpathIdx, SubpathLayout.nextSubpath_mod] at hsubpath
    refine ⟨v', c, q + 1, hiteration, haligned, hsubpath, ?_⟩
    rw [hcount, h.accesscount, hstep, SubpathLayout.stretch_succ, ← h.subpathIdx]
    omega

/-- A migrating fibre that has set out from subpath `s` is underway, on the cluster of the subpath
it is in, or it has left its loop with a load from the start of a subpath. -/
def Roams (L : SubpathLayout) (s : Nat) (t : Thread) : Prop :=
  ∃ q v, t = .migratingLoop v v.subpathIdx ∧
    (Underway L s q v ∨ v.index = invalidIndex ∧ v.accesscount = L.stretch s q + 1)

theorem roams_start (hunsplit : L.Unsplit m) (hs : s < L.numSubpaths) :
    Roams L s (.migratingLoop
      (.start L.infos s (startIndex m (.describing (L.chunk s)) 0) 0) s) :=
  ⟨0, _, rfl, Or.inl ⟨aligned_start hunsplit hs (SubpathLayout.length_chunk_pos hs),
    (Nat.mod_eq_of_lt hs).symm, rfl⟩⟩

theorem Roams.underway {t : Thread} (h : Roams L s t) (hgoing : t.index ≠ invalidIndex) :
    ∃ q v, t = .migratingLoop v v.subpathIdx ∧ Underway L s q v := by
  obtain ⟨q, v, rfl, hv⟩ := h
  exact ⟨q, v, rfl, hv.resolve_right fun hleft => hgoing hleft.1⟩

/-- The next load, in a memory where starts of subpaths may have been broken. -/
theorem Roams.iteration (hunsplit : L.Unsplit m) {t t' : Thread} {mem : Memory}
    (h : Roams L s t)
    (hmem : ∀ a ∈ L.elements, mem.load a = m.load a ∨
      (mem.load a = invalidIndex ∧ ∃ k < L.numSubpaths, a = L.start k))
    (hrun : t.iteration L.infos L.numSubpaths mem = some t') : Roams L s t' := by
  obtain ⟨hgoing, hindex, hcount⟩ := Thread.iteration_eq_some hrun
  obtain ⟨q, v, rfl, hv⟩ := h.underway hgoing
  have hchunk := List.mem_of_getElem? hv.element
  rcases hmem _ (SubpathLayout.mem_elements.mpr ⟨_, hv.subpath, hchunk⟩) with
    hload | ⟨hload, k, hk, hat⟩
  · -- An unbroken word: the iteration is the one on the path as it was built.
    obtain ⟨v', c, q', hiteration, hv'⟩ := hv.iteration hunsplit
    have hload : mem.load (Thread.migratingLoop v v.subpathIdx).index = m.load v.index := hload
    rw [Thread.iteration_congr hload, Thread.iteration, hiteration] at hrun
    obtain rfl := Option.some.inj hrun
    exact ⟨q', v', congrArg _ (subpathIdx_iteration hiteration), Or.inl hv'⟩
  · -- A start: the fibre has come to the end of a subpath.
    obtain rfl := SubpathLayout.subpath_unique hk hv.subpath (SubpathLayout.start_mem hk)
      (hat ▸ hchunk)
    have hzero := SubpathLayout.getElem?_chunk_zero hk
    rw [← hat, ← hv.element] at hzero
    have hstart := (List.getElem?_inj (SubpathLayout.length_chunk_pos hk)
      (SubpathLayout.nodup_chunk hk)).mp hzero
    obtain ⟨⟨v', c⟩, hiteration, rfl⟩ := Option.map_eq_some_iff.mp hrun
    refine ⟨q, v', congrArg _ (subpathIdx_iteration hiteration),
      Or.inr ⟨hindex.trans hload, hcount.trans ?_⟩⟩
    change v.accesscount + 1 = _
    rw [hv.accesscount, ← hstart]

end Cachetest

import Mathlib.Algebra.BigOperators.Group.List.Basic
import Mathlib.Data.List.AList

/-!
# Dictionaries

The associative arrays of scripting languages, as Mathlib's association lists whose keys are
distinct: what a program reads under a key it never set, counting under keys, and arrays that are
numbered from some index on. Nothing here depends on the order of the entries.
-/

/-- A dictionary: values stored under distinct keys. -/
abbrev Dictionary (κ α : Type*) := AList fun _ : κ => α

namespace Dictionary

variable {κ α : Type*}

/-- The values, in the order of the entries. -/
def values (d : Dictionary κ α) : List α := d.entries.map Sigma.snd

/-- The pairs of a key and its value, in the order of the entries. -/
def items (d : Dictionary κ α) : List (κ × α) := d.entries.map fun entry => (entry.1, entry.2)

@[simp] theorem map_snd_items (d : Dictionary κ α) : (items d).map Prod.snd = values d := by
  rw [items, values, List.map_map, Function.comp_def]

@[simp] theorem map_fst_items (d : Dictionary κ α) : (items d).map Prod.fst = d.keys := by
  rw [items, AList.keys, List.keys, List.map_map, Function.comp_def]

@[simp] theorem length_values (d : Dictionary κ α) : (values d).length = d.keys.length := by
  rw [values, AList.keys, List.keys, List.length_map, List.length_map]

/-- A dictionary is determined, but for the order, by what is found under each key. -/
theorem values_perm [DecidableEq κ] {d e : Dictionary κ α} (h : ∀ k, d.lookup k = e.lookup k) :
    (values d).Perm (values e) :=
  (List.lookup_ext d.nodupKeys e.nodupKeys fun k v => iff_of_eq (congrArg (v ∈ ·) (h k))).map _

/-- The sum of all values. -/
def total [AddCommMonoid α] (d : Dictionary κ α) : α := (values d).sum

@[simp] theorem total_empty [AddCommMonoid α] : total (∅ : Dictionary κ α) = 0 := rfl

/-! ## Reading and counting -/

section Counting

variable [DecidableEq κ] [AddCommMonoid α]

/-- What is read under a key: zero if nothing was stored there. -/
def read (d : Dictionary κ α) (k : κ) : α := (d.lookup k).getD 0

/-- `d[k] += n`. -/
def add (d : Dictionary κ α) (k : κ) (n : α) : Dictionary κ α := d.insert k (read d k + n)

@[simp] theorem read_insert_self (d : Dictionary κ α) (k : κ) (v : α) :
    read (d.insert k v) k = v := by rw [read, AList.lookup_insert, Option.getD_some]

theorem read_insert_of_ne (d : Dictionary κ α) {k k' : κ} (v : α) (h : k' ≠ k) :
    read (d.insert k v) k' = read d k' := by rw [read, AList.lookup_insert_ne h, read]

@[simp] theorem read_add_self (d : Dictionary κ α) (k : κ) (n : α) :
    read (add d k n) k = read d k + n := read_insert_self d k _

theorem read_add_of_ne (d : Dictionary κ α) {k k' : κ} (n : α) (h : k' ≠ k) :
    read (add d k n) k' = read d k' := read_insert_of_ne d _ h

theorem mem_add {d : Dictionary κ α} {k k' : κ} {n : α} : k' ∈ add d k n ↔ k' = k ∨ k' ∈ d :=
  AList.mem_insert d

/-- Erasing a key takes what was stored under it out of the sum. -/
theorem sum_eq_dlookup_add_kerase (k : κ) (l : List (Sigma fun _ : κ => α)) :
    (l.map Sigma.snd).sum = (l.dlookup k).getD 0 + ((l.kerase k).map Sigma.snd).sum := by
  induction l with
  | nil => simp
  | cons entry l ih =>
    rcases eq_or_ne k entry.1 with rfl | hne
    · rw [List.kerase_cons_eq rfl, List.dlookup_cons_eq, Option.getD_some, List.map_cons,
        List.sum_cons]
    · rw [List.kerase_cons_ne hne, List.dlookup_cons_ne _ _ hne, List.map_cons, List.map_cons,
        List.sum_cons, List.sum_cons, ih, add_left_comm]

/-- Counting under a key adds to the sum, whether or not the key was there. -/
@[simp] theorem total_add (d : Dictionary κ α) (k : κ) (n : α) :
    total (add d k n) = total d + n := by
  have h := sum_eq_dlookup_add_kerase k d.entries
  rw [total, values, add, AList.entries_insert, List.map_cons, List.sum_cons, total, values, h,
    read, AList.lookup, add_right_comm]

/-- Counting all items of a list, each under its key. -/
def addAll (d : Dictionary κ α) (items : List (κ × α)) : Dictionary κ α :=
  items.foldl (fun d item => add d item.1 item.2) d

/-- **Every item is counted once.** -/
theorem total_addAll (d : Dictionary κ α) (items : List (κ × α)) :
    total (addAll d items) = total d + (items.map Prod.snd).sum := by
  induction items generalizing d with
  | nil => simp [addAll]
  | cons item items ih =>
    have h := ih (add d item.1 item.2)
    rw [total_add, add_assoc] at h
    rw [List.map_cons, List.sum_cons]
    exact h

theorem mem_addAll {d : Dictionary κ α} {items : List (κ × α)} {k : κ} :
    k ∈ addAll d items ↔ k ∈ items.map Prod.fst ∨ k ∈ d := by
  induction items generalizing d with
  | nil => simp [addAll]
  | cons item items ih =>
    have h := ih (d := add d item.1 item.2)
    rw [mem_add] at h
    rw [List.map_cons, List.mem_cons, or_comm (a := k = item.1), or_assoc]
    exact h

theorem read_addAll {l : List κ} (hl : l.Nodup) (f : κ → α) (d : Dictionary κ α) (k : κ) :
    read (addAll d (l.map fun k => (k, f k))) k = read d k + if k ∈ l then f k else 0 := by
  induction l generalizing d with
  | nil => simp [addAll]
  | cons i l ih =>
    have hnot := (List.nodup_cons.mp hl).1
    have h := ih (List.nodup_cons.mp hl).2 (add d i (f i))
    rw [List.map_cons]
    refine h.trans ?_
    rcases eq_or_ne k i with rfl | hne
    · rw [read_add_self, if_neg hnot, if_pos List.mem_cons_self, add_zero]
    · rw [read_add_of_ne d _ hne]
      simp only [List.mem_cons, hne, false_or]

/-- Setting every key of a list to zero. -/
def clearAll (d : Dictionary κ α) (l : List κ) : Dictionary κ α :=
  l.foldl (fun d k => d.insert k 0) d

theorem read_clearAll (d : Dictionary κ α) (l : List κ) (k : κ) :
    read (clearAll d l) k = if k ∈ l then 0 else read d k := by
  induction l generalizing d with
  | nil => simp [clearAll]
  | cons i l ih =>
    refine (ih (d.insert i 0)).trans ?_
    rcases eq_or_ne k i with rfl | hne
    · rw [read_insert_self, if_pos List.mem_cons_self, ite_self]
    · rw [read_insert_of_ne d _ hne]
      simp only [List.mem_cons, hne, false_or]

end Counting

/-! ## Numbered values -/

/-- The values of a list, numbered from `start` on. -/
def enumerate (start : Nat) (xs : List α) : Dictionary Nat α where
  entries := (xs.zipIdx start).map fun item => ⟨item.2, item.1⟩
  nodupKeys := by
    have hkeys : ((xs.zipIdx start).map fun item => (⟨item.2, item.1⟩ : Sigma fun _ => α)).keys =
        (xs.zipIdx start).map Prod.snd := by rw [List.keys, List.map_map, Function.comp_def]
    rw [List.NodupKeys, hkeys, List.zipIdx_map_snd]
    exact List.nodup_range'

theorem values_enumerate (start : Nat) (xs : List α) : values (enumerate start xs) = xs := by
  rw [values, enumerate, List.map_map, Function.comp_def, List.zipIdx_map_fst]

theorem lookup_enumerate (start : Nat) (xs : List α) (i : Nat) :
    (enumerate start xs).lookup i = if i < start then none else xs[i - start]? := by
  show ((xs.zipIdx start).map fun item => (⟨item.2, item.1⟩ : Sigma fun _ => α)).dlookup i = _
  induction xs generalizing start with
  | nil => simp
  | cons x xs ih =>
    rw [List.zipIdx_cons, List.map_cons]
    rcases eq_or_ne i start with rfl | hne
    · simp
    · rw [List.dlookup_cons_ne _ _ hne, ih]
      rcases Nat.lt_or_ge i start with hlt | hge
      · rw [if_pos hlt, if_pos (Nat.lt_succ_of_lt hlt)]
      · have hpos : i - start = i - (start + 1) + 1 := by omega
        rw [if_neg (by omega), if_neg (by omega), hpos, List.getElem?_cons_succ]

/-- An array filled from index 0 on holds the values of the list that fills it. -/
theorem values_perm_of_lookup {d : Dictionary Nat α} {xs : List α}
    (h : ∀ i, d.lookup i = xs[i]?) : (values d).Perm xs := by
  have hperm := values_perm (d := d) (e := enumerate 0 xs) fun i => by
    rw [h, lookup_enumerate, if_neg (Nat.not_lt_zero i), Nat.sub_zero]
  rwa [values_enumerate] at hperm

end Dictionary

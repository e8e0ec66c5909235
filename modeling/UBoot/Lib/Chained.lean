import Mathlib.Data.List.Nodup
import Mathlib.Logic.Function.Basic

/-!
# Chained hash tables

A table of chains is a function from bucket numbers to lists of entries. `key` gives the key of an entry and `idx` the bucket of a
key. An entry is put at the head of its chain after an older one with its key was taken out, so a chain has each key
once. The rules say what a lookup finds after a put and after a removal, and how the table and the list of all its entries
determine each other.
-/

namespace Lib

open List Function

variable {α κ : Type*} [DecidableEq κ] (key : α → κ) (idx : κ → Nat)

/-- The first entry of a key in its chain. -/
def chainLookup (f : Nat → List α) (k : κ) : Option α := (f (idx k)).find? fun e => decide (key e = k)

/-- Put an entry at the head of its chain, in place of an older one with its key. -/
def chainPut (f : Nat → List α) (e : α) : Nat → List α :=
  Function.update f (idx (key e)) (e :: (f (idx (key e))).eraseP fun d => decide (key d = key e))

/-- Take the entry of a key out of its chain. -/
def chainRemove (f : Nat → List α) (k : κ) : Nat → List α :=
  Function.update f (idx k) ((f (idx k)).eraseP fun e => decide (key e = k))

/-- The entries of the first `n` chains. -/
def chainEntries (f : Nat → List α) (n : Nat) : List α := (List.range n).flatMap f

/-- Every entry is in the chain of its key, and every chain has a key once. -/
structure Chained (f : Nat → List α) : Prop where
  home : ∀ i, ∀ e ∈ f i, idx (key e) = i
  nodup : ∀ i, ((f i).map key).Nodup

section Lists

variable {key}

/-- Taking out the entry of a key does not change what is found for another. -/
theorem find?_eraseP_of_ne {l : List α} {k k' : κ} (h : k' ≠ k) :
    (l.eraseP fun e => decide (key e = k)).find? (fun e => decide (key e = k')) = l.find? fun e => decide (key e = k') := by
  induction l with
  | nil => rfl
  | cons e l ih =>
    by_cases he : key e = k
    · simp [he, Ne.symm h]
    · by_cases he' : key e = k'
      · simp [he', h]
      · simp [he, he', ih]

/-- After the entry of a key was taken out of a list with each key once, the key is not in it. -/
theorem notMem_map_eraseP {l : List α} (hn : (l.map key).Nodup) (k : κ) : k ∉ (l.eraseP fun e => decide (key e = k)).map key := by
  induction l with
  | nil => simp
  | cons e l ih =>
    rw [map_cons, nodup_cons] at hn
    by_cases he : key e = k
    · rw [eraseP_cons_of_pos (by simpa using he), ← he]
      exact hn.1
    · rw [eraseP_cons_of_neg (by simpa using he), map_cons, mem_cons, not_or]
      exact ⟨Ne.symm he, ih hn.2⟩

end Lists

variable {key idx} {f : Nat → List α}

theorem chainLookup_put (f : Nat → List α) (e : α) (k : κ) :
    chainLookup key idx (chainPut key idx f e) k = if k = key e then some e else chainLookup key idx f k := by
  unfold chainLookup chainPut
  by_cases hk : k = key e
  · subst hk
    simp
  · rw [if_neg hk]
    by_cases hi : idx k = idx (key e)
    · rw [hi, update_self, find?_cons, decide_eq_false (Ne.symm hk), find?_eraseP_of_ne hk]
    · rw [update_of_ne hi]

theorem chainLookup_remove (hf : Chained key idx f) (k k' : κ) :
    chainLookup key idx (chainRemove key idx f k) k' = if k' = k then none else chainLookup key idx f k' := by
  unfold chainLookup chainRemove
  by_cases hk : k' = k
  · subst hk
    rw [if_pos rfl, update_self, find?_eq_none]
    intro e he
    have := notMem_map_eraseP (hf.nodup (idx k')) k'
    simpa using fun h : key e = k' => this (mem_map.2 ⟨e, he, h⟩)
  · rw [if_neg hk]
    by_cases hi : idx k' = idx k
    · rw [hi, update_self, find?_eraseP_of_ne hk]
    · rw [update_of_ne hi]

omit [DecidableEq κ] in
theorem chained_empty : Chained key idx fun _ => ([] : List α) where
  home := by simp
  nodup := by simp

theorem Chained.remove (hf : Chained key idx f) (k : κ) : Chained key idx (chainRemove key idx f k) where
  home := by
    intro i e he
    by_cases hi : i = idx k
    · subst hi
      rw [chainRemove, update_self] at he
      exact hf.home _ e (mem_of_mem_eraseP he)
    · rw [chainRemove, update_of_ne hi] at he
      exact hf.home i e he
  nodup := by
    intro i
    by_cases hi : i = idx k
    · subst hi
      rw [chainRemove, update_self]
      exact (hf.nodup _).sublist (eraseP_sublist.map key)
    · rw [chainRemove, update_of_ne hi]
      exact hf.nodup i

theorem Chained.put (hf : Chained key idx f) (e : α) : Chained key idx (chainPut key idx f e) where
  home := by
    intro i d hd
    by_cases hi : i = idx (key e)
    · subst hi
      rw [chainPut, update_self] at hd
      rcases mem_cons.1 hd with rfl | hd
      · rfl
      · exact hf.home _ d (mem_of_mem_eraseP hd)
    · rw [chainPut, update_of_ne hi] at hd
      exact hf.home i d hd
  nodup := by
    intro i
    by_cases hi : i = idx (key e)
    · subst hi
      rw [chainPut, update_self, map_cons, nodup_cons]
      exact ⟨notMem_map_eraseP (hf.nodup _) _, (hf.nodup _).sublist (eraseP_sublist.map key)⟩
    · rw [chainPut, update_of_ne hi]
      exact hf.nodup i

/-! ## The list of all entries -/

/-- A lookup finds an entry exactly when the entry is in the table. -/
theorem Chained.lookup_eq_some_iff (hf : Chained key idx f) {n : Nat} (hidx : ∀ k, idx k < n) (k : κ) (e : α) :
    chainLookup key idx f k = some e ↔ e ∈ chainEntries f n ∧ key e = k := by
  unfold chainLookup chainEntries
  rw [mem_flatMap]
  constructor
  · intro h
    refine ⟨⟨idx k, mem_range.2 (hidx k), mem_of_find?_eq_some h⟩, ?_⟩
    simpa using find?_some h
  · rintro ⟨⟨i, -, he⟩, rfl⟩
    obtain rfl := hf.home i e he
    cases hd : (f (idx (key e))).find? (fun d => decide (key d = key e)) with
    | none => exact absurd (decide_eq_true rfl) (find?_eq_none.1 hd e he)
    | some d =>
      have hk : key d = key e := by simpa using find?_some hd
      rw [inj_on_of_nodup_map (hf.nodup _) (mem_of_find?_eq_some hd) he hk]

omit [DecidableEq κ] in
/-- The table has each key once. -/
theorem Chained.nodup_entries (hf : Chained key idx f) (n : Nat) : ((chainEntries f n).map key).Nodup := by
  unfold chainEntries
  rw [map_flatMap, nodup_flatMap]
  refine ⟨fun i _ => hf.nodup i, nodup_range.imp_of_mem fun {i j} _ _ hij => ?_⟩
  show List.Disjoint ((f i).map key) ((f j).map key)
  intro k hi hj
  obtain ⟨d, hd, rfl⟩ := mem_map.1 hi
  obtain ⟨e, he, hk⟩ := mem_map.1 hj
  exact hij ((hf.home i d hd).symm.trans (hk ▸ hf.home j e he))

/-- After a list of entries was put, the last one with a key is found, and else what was found before. -/
theorem chainLookup_foldl_put (es : List α) (f : Nat → List α) (k : κ) : chainLookup key idx (es.foldl (chainPut key idx) f) k =
      (es.reverse.find? fun e => decide (key e = k)).or (chainLookup key idx f k) := by
  induction es generalizing f with
  | nil => rfl
  | cons e es ih =>
    rw [foldl_cons, ih, chainLookup_put, reverse_cons, find?_append]
    by_cases hk : k = key e
    · cases es.reverse.find? (fun d => decide (key d = k)) <;> simp [hk]
    · cases es.reverse.find? (fun d => decide (key d = k)) <;> simp [hk, Ne.symm hk]

/-- After a list of entries with each key once was put into an empty table, exactly they are found. -/
theorem lookup_foldl_put_iff {es : List α} (hn : (es.map key).Nodup) (k : κ) (e : α) :
    chainLookup key idx (es.foldl (chainPut key idx) fun _ => []) k = some e ↔ e ∈ es ∧ key e = k := by
  have hempty : chainLookup key idx (fun _ => ([] : List α)) k = none := rfl
  rw [chainLookup_foldl_put, hempty, Option.or_none]
  constructor
  · intro h
    exact ⟨mem_reverse.1 (mem_of_find?_eq_some h), by simpa using find?_some h⟩
  · rintro ⟨he, rfl⟩
    cases hd : es.reverse.find? (fun d => decide (key d = key e)) with
    | none => exact absurd (decide_eq_true rfl) (find?_eq_none.1 hd e (mem_reverse.2 he))
    | some d =>
      have hk : key d = key e := by simpa using find?_some hd
      rw [inj_on_of_nodup_map hn (mem_reverse.1 (mem_of_find?_eq_some hd)) he hk]

end Lib

import UBoot.Export
import UBoot.Lemmas.Calls

/-!
# What an export writes

The shell sort permutes the entries, and the first pass of `hexport_r` collects the entries of a table, each key once. So an
export that fits is, for some list of the table's variables, the list of their entries, a NUL, and zeroes.
-/

namespace UBoot

open Htab HashMapAux List

namespace ExportAux

/-! ## The sort -/

section Qsort

variable {α : Type} (comp : α → α → Int)

theorem swap_perm {l : List α} {i j : Nat} {a b : α} (hi : l[i]? = some a) (hj : l[j]? = some b) : ((l.set i b).set j a).Perm l := by
  obtain ⟨hi', rfl⟩ := List.getElem?_eq_some_iff.1 hi
  obtain ⟨hj', rfl⟩ := List.getElem?_eq_some_iff.1 hj
  exact set_set_perm hi' hj'

theorem qsortSift_perm (gap fuel j : Nat) (l : List α) : (qsortSift comp gap fuel j l).Perm l := by
  induction fuel generalizing j l with
  | zero => exact List.Perm.refl _
  | succ fuel ih =>
    simp only [qsortSift]
    split
    · rename_i a b ha hb
      split
      · exact List.Perm.refl _
      · split
        · exact (ih _ _).trans (swap_perm ha hb)
        · exact swap_perm ha hb
    · exact List.Perm.refl _

theorem qsortPass_perm (gap fuel i : Nat) (l : List α) : (qsortPass comp gap fuel i l).Perm l := by
  induction fuel generalizing i l with
  | zero => exact List.Perm.refl _
  | succ fuel ih =>
    simp only [qsortPass]
    split
    · exact (ih _ _).trans (qsortSift_perm comp _ _ _ _)
    · exact qsortSift_perm comp _ _ _ _

theorem qsortGaps_perm (fuel gap : Nat) (l : List α) : (qsortGaps comp fuel gap l).Perm l := by
  induction fuel generalizing gap l with
  | zero => exact List.Perm.refl _
  | succ fuel ih =>
    simp only [qsortGaps]
    split
    · exact (ih _ _).trans (qsortPass_perm comp _ _ _ _)
    · exact qsortPass_perm comp _ _ _ _

theorem qsort_perm (l : List α) : (qsort comp l).Perm l := by
  unfold qsort
  split
  · exact qsortGaps_perm comp _ _ _
  · exact List.Perm.refl _

end Qsort

/-! ## The entries -/

variable {h : Htab} {L : List (CString × CString)}

/-- `L` lists the variables of the table, each once. -/
structure Lists (h : Htab) (L : List (CString × CString)) : Prop where
  mem_iff : ∀ k v, (k, v) ∈ L ↔ hfind h k = some v
  nodup : (L.map Prod.fst).Nodup

theorem Lists.perm {L' : List (CString × CString)} (hl : Lists h L) (hp : L'.Perm L) : Lists h L' :=
  ⟨fun k v => by rw [hp.mem_iff, hl.mem_iff], ((hp.map Prod.fst).nodup_iff).2 hl.nodup⟩

theorem Lists.length_eq (hl : Lists h L) : L.length = {k | (hfind h k).isSome}.ncard := by
  have hset : {k | (hfind h k).isSome} = ((L.map Prod.fst).toFinset : Set CString) := by
    ext k
    simp only [Set.mem_ofPred_eq, coe_toFinset, mem_map, Prod.exists, exists_and_right, exists_eq_right, Option.isSome_iff_exists, hl.mem_iff]
  rw [hset, Set.ncard_coe_finset, toFinset_card_of_nodup hl.nodup, length_map]

/-- Pass 1 over some slots of a valid table collects what these slots hold. -/
theorem usedEntries_spec (hw : h.Valid) (is : List Nat) (his : ∀ i ∈ is, 1 ≤ i ∧ i ≤ h.size) (hnd : is.Nodup) :
    ∃ L, h.usedEntries [] is = some L ∧ (∀ k v, (k, v) ∈ L ↔ ∃ i ∈ is, h.Holds i k v) ∧ (L.map Prod.fst).Nodup := by
  induction is with
  | nil => exact ⟨[], rfl, by simp, nodup_nil⟩
  | cons i is ih =>
    obtain ⟨L, hL, hmem, hLnd⟩ := ih (fun j hj => his j (mem_cons_of_mem _ hj)) (nodup_cons.1 hnd).2
    obtain ⟨h1, h2⟩ := his i mem_cons_self
    by_cases hu : 0 < (h.table i).used
    · obtain ⟨k, v, hh⟩ := (hw.used_pos_iff h1 h2).1 hu
      refine ⟨(k, v) :: L, ?_, ?_, ?_⟩
      · rw [usedEntries, if_pos hu, hh.2.2]
        simp [hL]
      · intro k' v'
        rw [mem_cons, hmem, exists_mem_cons_iff]
        refine or_congr ⟨?_, ?_⟩ Iff.rfl
        · rintro he
          obtain ⟨rfl, rfl⟩ := Prod.mk.inj he
          exact hh
        · intro hi
          have := hh.2.2.symm.trans hi.2.2
          simp only [Slot.mk.injEq, Option.some.injEq] at this
          rw [this.2.1, this.2.2]
      · rw [map_cons, nodup_cons]
        refine ⟨?_, hLnd⟩
        intro hk
        obtain ⟨⟨k', v'⟩, hkv, hkk⟩ := mem_map.1 hk
        obtain rfl : k' = k := hkk
        obtain ⟨j, hj, hjh⟩ := (hmem k' v').1 hkv
        rw [hw.unique i j k' v v' hh hjh] at hnd
        exact (nodup_cons.1 hnd).1 hj
    · refine ⟨L, ?_, ?_, hLnd⟩
      · rw [usedEntries, if_neg hu]
        exact hL
      · intro k' v'
        rw [hmem, exists_mem_cons_iff]
        refine ⟨Or.inr, fun hor => hor.resolve_left fun hi => hu ?_⟩
        exact (hw.used_pos_iff h1 h2).2 ⟨k', v', hi⟩

theorem usedEntries_lists (hw : h.Valid) : ∃ L, h.usedEntries [] (List.range' 1 h.size) = some L ∧ Lists h L := by
  obtain ⟨L, hL, hmem, hnd⟩ := usedEntries_spec hw (List.range' 1 h.size) (fun i hi => by rw [mem_range'_1] at hi; omega) nodup_range'
  refine ⟨L, hL, ?_, hnd⟩
  intro k v
  rw [hmem, hw.hfind_eq_some_iff]
  refine ⟨fun ⟨i, _, hi⟩ => ⟨i, hi⟩, fun ⟨i, hi⟩ => ⟨i, ?_, hi⟩⟩
  have h1 := hi.1
  have h2 := hi.2.1
  rw [mem_range'_1]
  omega

theorem length_le_flatMap (sep : UInt8) (L : List (CString × CString)) : L.length ≤ (L.flatMap (exportEntry sep)).length := by
  induction L with
  | nil => exact Nat.le_refl _
  | cons e L ih =>
    rw [flatMap_cons, length_append, length_cons]
    have : 1 ≤ (exportEntry sep e).length := by
      simp only [exportEntry, length_append, length_cons]
      omega
    omega

/-- An export of all variables that fits: the entries of the variables in some order, a NUL, and zeroes. -/
theorem hexportR_eq (hw : h.Valid) {callocOk respGiven : Bool} {sep : UInt8} {size : Nat} {env : List UInt8}
    (he : hexportR callocOk respGiven h sep size [] = some (.ok env)) :
    ∃ L n, Lists h L ∧ env = L.flatMap (exportEntry sep) ++ 0 :: List.replicate n 0 := by
  obtain ⟨L, hL, hlist⟩ := usedEntries_lists hw
  rw [hexportR, hL] at he
  simp only at he
  split at he
  · simp at he
  · generalize (if size ≠ 0 then size else totlen sep L + 1) = n at he
    split at he
    · simp at he
    · split at he
      · simp only [Option.some.injEq, Except.ok.injEq] at he
        refine ⟨qsort cmpkey L, n - ((qsort cmpkey L).flatMap (exportEntry sep) ++ [0]).length,
          hlist.perm (qsort_perm cmpkey L), he.symm.trans ?_⟩
        rw [append_assoc]
        rfl
      · simp at he

end ExportAux
end UBoot

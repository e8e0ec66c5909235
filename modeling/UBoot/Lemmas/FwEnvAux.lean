import Mathlib.Data.List.Chain
import UBoot.Lemmas.StoredEnv

/-!
# What the Linux tool leaves in the block

`fw_env_write` on a block of stored entries deletes the entry of its name, moves the entries after it down, and appends the new
entry at the end. Its loops look for two NULs in a row, which stand only at the end of the entries.
-/

namespace UBoot

open Lib Htab HashMapAux ExportAux ImportAux StoredEnvAux List

/-- A block of the tool that holds the entries `L`: each name once, good names, and two NULs after the last entry. -/
structure FwBlock (data : Nat → UInt8) (envSize : Nat) (L : List (CString × CString)) : Prop where
  names : ∀ e ∈ L, NameOk 0 e.1
  nodup : (L.map Prod.fst).Nodup
  stored : Stored data 0 (L.flatMap storedEntry ++ [0])
  fits : (L.flatMap storedEntry).length < envSize
  empty : L = [] → 1 < envSize → data 1 = 0

/-- A block that holds strings: none is empty, and an empty one follows. -/
structure FwStrings (data : Nat → UInt8) (envSize : Nat) (S : List CString) : Prop where
  ne_nil : ∀ s ∈ S, s.bytes ≠ []
  stored : Stored data 0 (S.flatMap storedString ++ [0])
  fits : (S.flatMap storedString).length < envSize

/-- A list of entries `name=value` in a block, each with a NUL after it, and one more NUL: no name twice, and all of it inside the
block. -/
structure FwListed (data : Nat → UInt8) (envSize : Nat) (L : List (CString × CString)) : Prop where
  names : ∀ e ∈ L, chEquals ∉ e.1.bytes
  nodup : (L.map Prod.fst).Nodup
  stored : Stored data 0 (L.flatMap storedEntry ++ [0])
  fits : (L.flatMap storedEntry).length < envSize

/-- A block the tool can write to: the list ends with two NULs also when it has no entry. -/
structure FwWellFormed (data : Nat → UInt8) (envSize : Nat) (L : List (CString × CString)) : Prop
    extends FwListed data envSize L where
  ends : L = [] → 1 < envSize ∧ data 1 = 0

namespace FwEnvAux

variable {data : Nat → UInt8} {envSize : Nat} {L : List (CString × CString)}
variable {xs : List UInt8}

/-! ## Two NULs in a row -/

/-- No two NULs in a row, and a NUL at the end. -/
structure Terminated (xs : List UInt8) : Prop where
  chain : xs.IsChain fun a b => a ≠ 0 ∨ b ≠ 0
  last : xs.getLast? = some 0

theorem storedString_terminated (s : CString) : Terminated (storedString s) where
  chain := by
    rw [storedString, isChain_append]
    have hnul : ∀ c ∈ s.bytes, c ≠ 0 := fun c hc h => s.nul_free (h ▸ hc)
    refine ⟨?_, isChain_singleton 0, fun x hx y _ => Or.inl (hnul x (mem_of_getLast? hx))⟩
    refine List.Pairwise.isChain (pairwise_iff_forall_sublist.2 fun {a b} hab => ?_)
    exact Or.inl (hnul a (hab.subset mem_cons_self))
  last := by rw [storedString, getLast?_concat]

/-- Strings that are not empty have no two NULs in a row. -/
theorem strings_terminated {S : List CString} (hS : ∀ s ∈ S, s.bytes ≠ []) (hne : S ≠ []) : Terminated (S.flatMap storedString) := by
  induction S with
  | nil => exact absurd rfl hne
  | cons s S ih =>
    have hs := storedString_terminated s
    rw [flatMap_cons]
    cases S with
    | nil => simpa using hs
    | cons t S =>
      have ih' := ih (fun t ht => hS t (mem_cons_of_mem _ ht)) (by simp)
      refine ⟨isChain_append.2 ⟨hs.chain, ih'.chain, fun x _ y hy => Or.inr ?_⟩, ?_⟩
      · obtain ⟨c, cs, hcs⟩ := exists_cons_of_ne_nil (hS t (by simp))
        obtain rfl : c = y := by simpa [storedString, hcs] using hy
        exact fun h => t.nul_free (by rw [hcs, h]; exact mem_cons_self)
      · rw [getLast?_append, ih'.last]
        rfl

theorem Terminated.tail {x y : UInt8} (h : Terminated (x :: y :: xs)) : (x ≠ 0 ∨ y ≠ 0) ∧ Terminated (y :: xs) := by
  obtain ⟨hxy, hchain⟩ := isChain_cons_cons.1 h.chain
  exact ⟨hxy, hchain, by rw [← h.last, getLast?_cons_cons]⟩

/-! ## The loops of a write -/

/-- The scan for the end stops at the last NUL of the entries. -/
theorem fwEnd_terminated (hx : Terminated xs) {fuel env : Nat} (hfuel : xs.length ≤ fuel)
    (hst : Stored data env (xs ++ [0])) : fwEnd data fuel env = some (env + (xs.length - 1)) := by
  induction xs generalizing fuel env with
  | nil => simpa using hx.last
  | cons x xs ih =>
    obtain ⟨fuel, rfl⟩ : ∃ f, fuel = f + 1 := ⟨fuel - 1, by rw [length_cons] at hfuel; omega⟩
    obtain ⟨h, hst'⟩ := stored_cons.1 hst
    cases xs with
    | nil =>
      have hx0 : x = 0 := by simpa using hx.last
      rw [fwEnd, h, (stored_cons.1 hst').1, hx0]
      simp
    | cons y xs =>
      obtain ⟨hxy, htail⟩ := hx.tail
      rw [fwEnd, if_pos (by rw [h, (stored_cons.1 hst').1]; exact hxy), ih htail (by simpa using hfuel) hst']
      simp only [length_cons]
      congr 1
      omega

/-- The move copies the entries after the deleted one to where it started. -/
theorem fwMoveDown_terminated (hx : Terminated xs) {fuel env nxt : Nat} (hfuel : xs.length ≤ fuel)
    (hlt : env < nxt) (hst : Stored data nxt (xs ++ [0])) :
    fwMoveDown fuel data env nxt = some (store data env xs, env + (xs.length - 1)) := by
  induction xs generalizing fuel env nxt data with
  | nil => simpa using hx.last
  | cons x xs ih =>
    obtain ⟨fuel, rfl⟩ : ∃ f, fuel = f + 1 := ⟨fuel - 1, by rw [length_cons] at hfuel; omega⟩
    obtain ⟨h, hst⟩ := stored_cons.1 hst
    have hst' : Stored (Function.update data env x) (nxt + 1) (xs ++ [0]) := by
      intro i c hc
      rw [Function.update_of_ne (by omega)]
      exact hst i c hc
    simp only [fwMoveDown, h, Function.update_self]
    cases xs with
    | nil =>
      obtain rfl : x = 0 := by simpa using hx.last
      rw [if_pos ⟨rfl, (stored_cons.1 hst').1⟩, store_cons, store_nil]
      rfl
    | cons y xs =>
      obtain ⟨hxy, htail⟩ := hx.tail
      rw [if_neg, ih htail (by simpa using hfuel) (by omega) hst', ← store_cons]
      · simp only [length_cons]
        congr 2
        omega
      · rw [(stored_cons.1 hst').1]
        rintro ⟨h1, h2⟩
        exact hxy.elim (· h1) (· h2)

/-! ## Deleting and appending -/

section Strings

variable {S A B : List CString} {s : CString}

/-- Deleting a string leaves the block of the other strings, and changes nothing behind the environment. -/
theorem fwDelete_strings (hb : FwStrings data envSize (A ++ s :: B)) :
    ∃ data', fwDelete data envSize (A.flatMap storedString).length ((A.flatMap storedString).length + s.bytes.length) =
        some data' ∧ FwStrings data' envSize (A ++ B) ∧ (A ++ B = [] → 1 < envSize ∧ data' 1 = 0) ∧
      ∀ i, envSize ≤ i → data' i = data i := by
  obtain ⟨hA, -, hB⟩ := stored_split hb.stored
  have hsub : (A ++ B).Sublist (A ++ s :: B) := List.Sublist.append_left (sublist_cons_self s B) A
  have hne : ∀ t ∈ A ++ B, t.bytes ≠ [] := fun t ht => hb.ne_nil t (hsub.subset ht)
  have hs : 0 < s.bytes.length := length_pos_of_ne_nil (hb.ne_nil s (by simp))
  have hfits := hb.fits
  have hlen := length_storedString s
  rw [flatMap_append, flatMap_cons, length_append, length_append] at hfits
  have hfits' : ((A ++ B).flatMap storedString).length < envSize := by
    rw [flatMap_append, length_append]
    omega
  have hstored (ys : List UInt8) : Stored (store data (A.flatMap storedString).length ys) 0 (A.flatMap storedString ++ ys) := by
    rw [stored_append, Nat.zero_add]
    exact ⟨hA.store_outside (by omega), stored_store _ _ _⟩
  rw [fwDelete, Nat.add_assoc, ← hlen]
  cases B with
  | nil =>
    have h2 := hstored [0, 0]
    rw [store_cons, store_cons, store_nil, ← singleton_append, ← append_assoc, stored_append] at h2
    rw [if_pos (stored_cons.1 hB).1]
    refine ⟨_, rfl, ⟨hne, by rw [append_nil]; exact h2.1, hfits'⟩, ?_, ?_⟩
    · intro hnil
      obtain rfl : A = [] := by simpa using hnil
      exact ⟨by omega, by simp⟩
    · intro i hi
      rw [Function.update_of_ne (by omega), Function.update_of_ne (by omega)]
  | cons t B =>
    have hterm := strings_terminated (fun t ht => hne t (mem_append_right _ ht)) (cons_ne_nil t B)
    have ht : data ((A.flatMap storedString).length + (storedString s).length) ≠ 0 := by
      rw [flatMap_cons, append_assoc, stored_append] at hB
      exact (scan_storedString (hne t (by simp)) hB.1 (Nat.le_refl _)).1
    have hpos : 0 < ((t :: B).flatMap storedString).length := by
      rw [flatMap_cons, length_append, length_storedString]
      omega
    rw [if_neg ht, fwMoveDown_terminated hterm (by omega) (by omega) hB]
    refine ⟨_, rfl, ⟨hne, ?_, hfits'⟩, by simp, ?_⟩
    · simp only
      rw [Nat.add_assoc, Nat.sub_add_cancel hpos, update_store, flatMap_append, append_assoc]
      exact hstored _
    · intro i hi
      simp only
      rw [Nat.add_assoc, Nat.sub_add_cancel hpos, update_store, store_of_outside]
      rw [length_append, length_singleton]
      omega

/-- An append writes the new entry and two NULs behind the strings, or nothing if they do not fit. -/
theorem fwAppend_strings (hb : FwStrings data envSize S) (hend : S = [] → data 1 = 0) (name value : CString) : fwAppend data envSize name value =
      if envSize < (S.flatMap storedString).length + (name.bytes.length + value.bytes.length + 3) then
        some (some .overflow, data)
      else
        some (none, store data (S.flatMap storedString).length (storedString (entryString (name, value)) ++ [0])) := by
  obtain ⟨last, hlast, henv⟩ : ∃ last, fwEnd data envSize 0 = some last ∧
      (if 0 < last then last + 1 else last) = (S.flatMap storedString).length := by
    cases S with
    | nil =>
      obtain ⟨n, hn⟩ : ∃ n, envSize = n + 1 := ⟨envSize - 1, by have := hb.fits; omega⟩
      exact ⟨0, by rw [hn, fwEnd, (stored_cons.1 hb.stored).1, hend rfl]; simp, rfl⟩
    | cons s S =>
      have hterm := strings_terminated hb.ne_nil (cons_ne_nil s S)
      have hlen : 1 < ((s :: S).flatMap storedString).length := by
        have := length_pos_of_ne_nil (hb.ne_nil s mem_cons_self)
        rw [flatMap_cons, length_append, length_storedString]
        omega
      refine ⟨_, fwEnd_terminated hterm (Nat.le_of_lt hb.fits) hb.stored, ?_⟩
      rw [if_pos (by omega)]
      omega
  have hsize : name.bytes.length + 2 + (value.bytes.length + 1) = name.bytes.length + value.bytes.length + 3 := by omega
  have hbytes : name.bytes ++ chEquals :: (value.bytes ++ [0, 0]) = storedString (entryString (name, value)) ++ [0] := by
    simp [storedString, entryString]
  rw [fwAppend, hlast]
  simp only [henv, hsize, hbytes]

theorem FwStrings.append (hb : FwStrings data envSize S) (hs : s.bytes ≠ [])
    (hroom : (S.flatMap storedString).length + (storedString s).length < envSize) :
    FwStrings (store data (S.flatMap storedString).length (storedString s ++ [0])) envSize (S ++ [s]) := by
  refine ⟨?_, ?_, ?_⟩
  · intro t ht
    rcases mem_append.1 ht with ht | ht
    · exact hb.ne_nil t ht
    · rw [mem_singleton.1 ht]
      exact hs
  · rw [flatMap_append, flatMap_singleton, append_assoc, stored_append, Nat.zero_add]
    exact ⟨(stored_append.1 hb.stored).1.store_outside (by omega), stored_store _ _ _⟩
  · rw [flatMap_append, flatMap_singleton, length_append]
    exact hroom

end Strings

/-! ## Writing an entry -/

variable {name value : CString} {data' : Nat → UInt8}

theorem FwListed.strings (hb : FwListed data envSize L) : FwStrings data envSize (L.map entryString) where
  ne_nil s hs := by
    obtain ⟨e, -, rfl⟩ := mem_map.1 hs
    exact entryString_ne_nil e
  stored := by
    rw [flatMap_entryString]
    exact hb.stored
  fits := by
    rw [flatMap_entryString]
    exact hb.fits

theorem listed_of_strings (hb : FwStrings data envSize (L.map entryString)) (hnames : ∀ e ∈ L, chEquals ∉ e.1.bytes)
    (hnd : (L.map Prod.fst).Nodup) : FwListed data envSize L := by
  refine ⟨hnames, hnd, ?_, ?_⟩
  · rw [← flatMap_entryString]
    exact hb.stored
  · rw [← flatMap_entryString]
    exact hb.fits

/-- Deleting an entry leaves a well-formed block of the other entries. -/
theorem fwDelete_listed {A B : List (CString × CString)} {e : CString × CString} (hb : FwListed data envSize (A ++ e :: B)) :
    ∃ data', fwDelete data envSize (A.flatMap storedEntry).length
        ((A.flatMap storedEntry).length + (e.1.bytes.length + 1 + e.2.bytes.length)) = some data' ∧
      FwWellFormed data' envSize (A ++ B) ∧ ∀ i, envSize ≤ i → data' i = data i := by
  have hst := FwListed.strings hb
  rw [map_append, map_cons] at hst
  obtain ⟨data', hdel, hst', hend, hframe⟩ := fwDelete_strings hst
  have hsub : (A ++ B).Sublist (A ++ e :: B) := List.Sublist.append_left (sublist_cons_self e B) A
  have hlen : (entryString e).bytes.length = e.1.bytes.length + 1 + e.2.bytes.length := by
    simp only [entryString, length_append, length_cons]
    omega
  rw [flatMap_entryString, hlen] at hdel
  rw [← map_append] at hst' hend
  refine ⟨data', hdel, ⟨listed_of_strings hst' (fun d hd => hb.names d (hsub.subset hd)) (hb.nodup.sublist (hsub.map _)), ?_⟩, hframe⟩
  intro hnil
  exact hend (by rw [hnil]; rfl)

theorem append_listed (hb : FwListed data envSize L) (hname : chEquals ∉ name.bytes) (hnew : name ∉ L.map Prod.fst)
    (hroom : (L.flatMap storedEntry).length + (name.bytes.length + value.bytes.length + 3) ≤ envSize) :
    FwWellFormed (store data (L.flatMap storedEntry).length (storedEntry (name, value) ++ [0])) envSize (L ++ [(name, value)]) := by
  have hst := FwStrings.append (FwListed.strings hb) (entryString_ne_nil (name, value))
  rw [flatMap_entryString, storedString_entryString, length_storedEntry] at hst
  have hst' := hst (by simp only; omega)
  rw [← map_singleton (f := entryString), ← map_append] at hst'
  refine ⟨listed_of_strings hst' ?_ ?_, by simp⟩
  · intro e he
    rcases mem_append.1 he with he | he
    · exact hb.names e he
    · rw [mem_singleton.1 he]
      exact hname
  · rw [map_append, nodup_append]
    refine ⟨hb.nodup, by simp, ?_⟩
    intro a ha b hb
    rintro rfl
    obtain rfl : a = name := by simpa using hb
    exact hnew ha

/-- A write is refused for a variable that can be set only once. Any other deletes the entry of the name and leaves a
well-formed block of the others, to which the new entry is appended. -/
theorem fwEnvWrite_wellFormed (hb : FwWellFormed data envSize L) (cfg : OnceConfig) (hname : chEquals ∉ name.bytes)
    (value : Option CString) :
    (∃ old, setOnce cfg name old = true ∧ fwEnvWrite cfg data envSize name value = some (some .cantOverwrite, data)) ∨
    ∃ data₁, FwWellFormed data₁ envSize (L.filter (·.1 ≠ name)) ∧ (∀ i, envSize ≤ i → data₁ i = data i) ∧
      fwEnvWrite cfg data envSize name value =
        match value with
        | none => some (none, data₁)
        | some value => if value.bytes = [] then some (none, data₁) else fwAppend data₁ envSize name value := by
  have hle := length_le_flatMap_storedEntry L
  have hfits := hb.fits
  obtain ⟨hfound, habsent⟩ := fwSearch_entries envSize name L hb.names (envSize + 2) 0 (by omega) hb.stored (by omega)
  rw [beforeEquals_eq_self hname] at hfound habsent
  have hself (M : List (CString × CString)) (hM : name ∉ M.map Prod.fst) : M.filter (·.1 ≠ name) = M := by
    rw [filter_eq_self]
    intro d hd
    simpa using fun h : d.1 = name => hM (mem_map.2 ⟨d, hd, h⟩)
  by_cases hmem : name ∈ L.map Prod.fst
  · obtain ⟨e, he, rfl⟩ := mem_map.1 hmem
    obtain ⟨A, B, rfl⟩ := append_of_mem he
    have hnd := hb.nodup
    rw [map_append, map_cons, nodup_append, nodup_cons] at hnd
    have hA : e.1 ∉ A.map Prod.fst := fun hm => hnd.2.2 _ hm _ mem_cons_self rfl
    have hfilter : (A ++ e :: B).filter (·.1 ≠ e.1) = A ++ B := by
      rw [filter_append, filter_cons, hself A hA, hself B hnd.2.1.1]
      simp
    obtain ⟨data₁, hdel, hb₁, hframe⟩ := fwDelete_listed hb.toFwListed
    rw [fwEnvWrite, hfound A e B rfl hA rfl]
    simp only [Nat.zero_add, hdel]
    by_cases honce : fwOnce cfg data envSize e.1 ((A.flatMap storedEntry).length + e.1.bytes.length + 1) = true
    · exact Or.inl ⟨_, honce, by rw [if_pos honce]⟩
    · refine Or.inr ⟨data₁, by rw [hfilter]; exact hb₁, hframe, ?_⟩
      rw [if_neg honce]
      rfl
  · refine Or.inr ⟨data, by rw [hself L hmem]; exact hb, fun _ _ => rfl, ?_⟩
    cases value <;> simp only [fwEnvWrite, habsent hmem]

theorem fwAppend_wellFormed (hb : FwWellFormed data envSize L) (name value : CString) : fwAppend data envSize name value =
      if envSize < (L.flatMap storedEntry).length + (name.bytes.length + value.bytes.length + 3) then
        some (some .overflow, data)
      else some (none, store data (L.flatMap storedEntry).length (storedEntry (name, value) ++ [0])) := by
  rw [fwAppend_strings (FwListed.strings hb.toFwListed) ?_, flatMap_entryString, storedString_entryString]
  intro hnil
  exact (hb.ends (map_eq_nil_iff.1 hnil)).2

theorem fwEnvWrite_room {cfg : OnceConfig} (hvalue : value.bytes ≠ [])
    (h : fwEnvWrite cfg data envSize name (some value) = some (none, data')) : 2 < envSize := by
  have happend (data : Nat → UInt8) (h : fwAppend data envSize name value = some (none, data')) : 2 < envSize := by
    unfold fwAppend at h
    split at h
    · simp at h
    · rename_i last _
      by_cases hroom : envSize < (if 0 < last then last + 1 else last) + (name.bytes.length + 2 + (value.bytes.length + 1))
      · simp [if_pos hroom] at h
      · omega
  unfold fwEnvWrite at h
  split at h
  · simp at h
  · simp at h
  · dsimp only at h
    split at h
    · simp at h
    · simp at h
    · rw [if_neg hvalue] at h
      exact happend _ h

theorem FwBlock.listed (hb : FwBlock data envSize L) : FwListed data envSize L :=
  ⟨fun e he => (hb.names e he).no_equals, hb.nodup, hb.stored, hb.fits⟩

/-- A write that succeeds leaves the other entries, in order, and the new one at the end. -/
theorem fwEnvWrite_block (hb : FwBlock data envSize L) (cfg : OnceConfig) (hname : NameOk 0 name)
    (hvalue : value.bytes ≠ [])
    (h : fwEnvWrite cfg data envSize name (some value) = some (none, data')) :
    FwBlock data' envSize (L.filter (·.1 ≠ name) ++ [(name, value)]) := by
  have hsize := fwEnvWrite_room hvalue h
  have hwf : FwWellFormed data envSize L := ⟨FwBlock.listed hb, fun hnil => ⟨by omega, hb.empty hnil (by omega)⟩⟩
  rcases fwEnvWrite_wellFormed hwf cfg hname.no_equals (some value) with ⟨old, -, hw⟩ | ⟨data₁, hwf₁, -, hw⟩
  · simp [hw] at h
  · simp only [if_neg hvalue] at hw
    rw [hw, fwAppend_wellFormed hwf₁] at h
    split at h
    · simp at h
    · rw [Option.some.injEq, Prod.mk.injEq] at h
      rw [← h.2]
      have hwf' := append_listed hwf₁.toFwListed hname.no_equals (by simp) (Nat.le_of_not_lt ‹_›)
      refine ⟨?_, hwf'.nodup, hwf'.stored, hwf'.fits, by simp⟩
      intro e he
      rcases mem_append.1 he with he | he
      · exact hb.names e (mem_filter.1 he).1
      · rw [mem_singleton.1 he]
        exact hname

end FwEnvAux
end UBoot

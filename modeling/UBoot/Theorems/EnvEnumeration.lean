import Mathlib.Algebra.Order.BigOperators.Group.List
import Mathlib.Data.List.Forall2
import UBoot.EnvSearch
import UBoot.Lemmas.Qsort
import UBoot.Lib.Bitmap
import UBoot.Theorems.EnterFailure

/-!
# Looking through all of the environment

The slots of a table are numbered from one to its size, and `hmatch_r` and `hstrstr_r` stop before the last one.
-/

namespace UBoot

open Lib Htab List

/-- A slot with a variable that passes a test. -/
def EntryAt (h : Htab) (p : CString → CString → Bool) (i : Nat) : Prop := ∃ k v, h.Holds i k v ∧ p k v = true

/-- The name starts with the string. -/
def keyStarts (m : CString) : CString → CString → Bool := fun k _ => m.bytes.isPrefixOf k.bytes

/-- The name or the value has the string in it. -/
def holdsText (m : CString) : CString → CString → Bool := fun k v => strstr k m || strstr v m

/-- The answers from the start on until one is zero. -/
def allAnswers (next : Nat → Option Nat) (fuel : Nat) : Option (List Nat) :=
  (whileNext next (fun i is => some (true, is ++ [i])) fuel 0 []).map Prod.snd

/-- The answers are the slots of the variables that pass the test, each once. -/
def Enumerates (h : Htab) (next : Nat → Option Nat) (p : CString → CString → Bool) : Prop :=
  ∃ is, allAnswers next (h.size + 1) = some is ∧ is.Nodup ∧ ∀ i, i ∈ is ↔ EntryAt h p i

/-- There is room for all variables whose name starts with the string. -/
def EnoughRoom (h : Htab) (var : CString) (maxv bufsz : Int) : Prop :=
  ∀ names : List CString, names.Nodup → (∀ n ∈ names, (hfind h n).isSome ∧ var.bytes <+: n.bytes) →
    (names.length : Int) ≤ maxv - 2 ∧ ((names.map fun n => n.bytes.length + 1).sum : Nat) ≤ bufsz

/-- `env_complete` gives the names that start with the string, each once and sorted. -/
def Completes (h : Htab) (var : CString) : Prop :=
  ∀ maxv bufsz, EnoughRoom h var maxv bufsz → ∃ r, envComplete var maxv bufsz h = some r ∧ SortedBy strcmp r ∧ r.Nodup ∧
    ∀ n, n ∈ r ↔ (hfind h n).isSome ∧ var.bytes <+: n.bytes

/-- What is printed are the variables that have one of the arguments in them, each once; `none` is an access outside `matched` or
through `NULL`. -/
def PrintsMatches (h : Htab) (args : List CString) (r : Option (List (CString × CString))) : Prop :=
  ∃ printed, r = some printed ∧ printed.Nodup ∧ ∀ k v, (k, v) ∈ printed ↔ hfind h k = some v ∧ ∃ m ∈ args, holdsText m k v = true

namespace EnvEnumerationAux

open HashMapAux ExportAux QsortAux

variable {h : Htab}
variable {test : Slot → Option Bool} {idx : Nat}

/-! ## The next entry -/

/-- A slot in use that passes the test. -/
def passes (h : Htab) (test : Slot → Option Bool) (i : Nat) : Bool :=
  decide (0 < (h.table i).used) && (test (h.table i)).getD false

/-- The loop over the slots gives the first one that passes, if the test can be made in each slot in use. -/
theorem scan_eq (htest : ∀ i, 1 ≤ i → i < h.size → 0 < (h.table i).used → (test (h.table i)).isSome)
    {fuel : Nat} (h0 : 0 < fuel) (hfuel : h.size < idx + 1 + fuel) :
    h.scan test fuel (idx + 1) = some ((hits (passes h test) h.size idx).headD 0) := by
  induction fuel generalizing idx with
  | zero => exact absurd h0 (Nat.lt_irrefl 0)
  | succ fuel ih =>
    rw [Htab.scan]
    by_cases hlt : idx + 1 < h.size
    · have ih' : h.scan test fuel (idx + 1 + 1) = _ := ih (by omega) (by omega)
      rw [if_pos hlt, hits_step hlt]
      by_cases hu : (h.table (idx + 1)).used ≤ 0
      · have hp : passes h test (idx + 1) = false := by simp [passes, hu]
        rw [if_pos hu, hp, ih']
        rfl
      · obtain ⟨b, hb⟩ := Option.isSome_iff_exists.1 (htest (idx + 1) (by omega) hlt (by omega))
        have hp : passes h test (idx + 1) = b := by simp [passes, hb, Int.not_le.1 hu]
        rw [if_neg hu, hb, hp]
        cases b with
        | true => rfl
        | false => exact ih'
    · rw [if_neg hlt, hits_end (by omega)]
      rfl

theorem scan_stuck (htest : ∀ s, test s = none) {i : Nat} (hlt : i < h.size) (hu : 0 < (h.table i).used)
    (fuel : Nat) (hi : idx ≤ i) : h.scan test fuel idx = none := by
  induction fuel generalizing idx with
  | zero => rfl
  | succ fuel ih =>
    rw [Htab.scan, if_pos (by omega), htest]
    by_cases hle : (h.table idx).used ≤ 0
    · have hne : idx ≠ i := by
        rintro rfl
        omega
      rw [if_pos hle]
      exact ih (by omega)
    · rw [if_neg hle]

/-- The test of a slot is that of its variable. -/
structure TestsFor (h : Htab) (test : Slot → Option Bool) (p : CString → CString → Bool) : Prop where
  eq : ∀ i k v, h.Holds i k v → test (h.table i) = some (p k v)

theorem testsFor_strstr (h : Htab) (m : CString) : TestsFor h (strstrTest (some m)) (holdsText m) where
  eq i k v hi := by
    rw [hi.2.2]
    by_cases hk : strstr k m = true <;> simp [strstrTest, holdsText, hk]

theorem testsFor_match (h : Htab) (m : CString) : TestsFor h (matchTest m) (keyStarts m) where
  eq i k v hi := by
    rw [hi.2.2]
    rfl

section Tests

variable {test : Slot → Option Bool} {p : CString → CString → Bool}

theorem TestsFor.passes_iff (ht : TestsFor h test p) (hw : h.Valid) {i : Nat} (h1 : 1 ≤ i) (h2 : i ≤ h.size) :
    passes h test i = true ↔ EntryAt h p i := by
  rw [passes, Bool.and_eq_true, decide_eq_true_eq, hw.used_pos_iff h1 h2]
  constructor
  · rintro ⟨⟨k, v, hi⟩, hp⟩
    rw [ht.eq i k v hi] at hp
    exact ⟨k, v, hi, hp⟩
  · rintro ⟨k, v, hi, hp⟩
    refine ⟨⟨k, v, hi⟩, ?_⟩
    rw [ht.eq i k v hi]
    exact hp

theorem TestsFor.answers (ht : TestsFor h test p) (hw : h.Valid) :
    Answers (fun idx => h.scan test (h.size + 1) (idx + 1)) (passes h test) h.size := by
  intro idx
  refine scan_eq (fun i h1 h2 hu => ?_) (by omega) (by omega)
  obtain ⟨k, v, hi⟩ := (hw.used_pos_iff h1 h2.le).1 hu
  rw [ht.eq i k v hi]
  rfl

theorem TestsFor.mem_hits_iff (ht : TestsFor h test p) (hw : h.Valid) (i : Nat) :
    i ∈ hits (passes h test) h.size 0 ↔ i < h.size ∧ EntryAt h p i := by
  rw [mem_hits]
  constructor
  · rintro ⟨h0, hlt, hp⟩
    exact ⟨hlt, (TestsFor.passes_iff ht hw h0 hlt.le).1 hp⟩
  · rintro ⟨hlt, he⟩
    obtain ⟨k, v, hi, -⟩ := id he
    exact ⟨hi.1, hlt, (TestsFor.passes_iff ht hw hi.1 hlt.le).2 he⟩

theorem TestsFor.whileNext_eq {σ : Type} (ht : TestsFor h test p) (hw : h.Valid) (body : Nat → σ → Option (Bool × σ)) (s : σ) :
    whileNext (fun idx => h.scan test (h.size + 1) (idx + 1)) body (h.size + 1) 0 s = visit body (hits (passes h test) h.size 0) s :=
  Lib.whileNext_eq (TestsFor.answers ht hw) body (Nat.lt_succ_of_le length_hits_le) s

/-- The iterator is complete exactly when no variable that matches is in the last slot. -/
theorem TestsFor.enumerates_iff (ht : TestsFor h test p) (hw : h.Valid) :
    Enumerates h (fun idx => h.scan test (h.size + 1) (idx + 1)) p ↔ ¬EntryAt h p h.size := by
  have hall : allAnswers (fun idx => h.scan test (h.size + 1) (idx + 1)) (h.size + 1) = some (hits (passes h test) h.size 0) := by
    obtain ⟨is, his, rfl⟩ := visit_invariant _ (fun done (is : List Nat) => is = done) (L := hits (passes h test) h.size 0)
      (fun done i rest is _ hR => ⟨is ++ [i], rfl, by rw [hR]⟩) rfl
    rw [allAnswers, TestsFor.whileNext_eq ht hw, his]
    rfl
  constructor
  · rintro ⟨is, his, -, hmem⟩ he
    rw [hall] at his
    obtain rfl := Option.some.inj his
    exact absurd ((TestsFor.mem_hits_iff ht hw _).1 ((hmem _).2 he)).1 (Nat.lt_irrefl _)
  · intro hno
    refine ⟨_, hall, nodup_hits, fun i => ?_⟩
    rw [TestsFor.mem_hits_iff ht hw]
    refine and_iff_right_of_imp fun he => ?_
    obtain ⟨k, v, hi, -⟩ := id he
    refine lt_of_le_of_ne hi.2.1 ?_
    rintro rfl
    exact hno he

end Tests

/-! ## Variables by their slots -/

variable {is V : List Nat} {var k v m : CString} {names : List CString} {i : Nat} {s : GrepState}

theorem mem_iff_of_forall₂ {α : Type} {R : Nat → α → Prop} (hR : Relator.BiUnique R) {L : List α}
    (hL : List.Forall₂ R is L) (e : α) : e ∈ L ↔ ∃ i ∈ is, R i e := by
  induction hL with
  | nil => simp
  | cons hi _ ih =>
    rw [mem_cons, exists_mem_cons_iff, ih]
    refine or_congr_left ⟨?_, fun he => hR.2 he hi⟩
    rintro rfl
    exact hi

theorem name_biUnique (hw : h.Valid) : Relator.BiUnique fun i k => ∃ v, h.Holds i k v := by
  constructor
  · rintro i j k ⟨v, hi⟩ ⟨w, hj⟩
    exact hw.unique i j k v w hi hj
  · rintro i k k' ⟨v, hi⟩ ⟨w, hj⟩
    have he := hi.2.2.symm.trans hj.2.2
    simp only [Slot.mk.injEq, Option.some.injEq] at he
    exact he.2.1

theorem holds_biUnique (hw : h.Valid) : Relator.BiUnique fun i (e : CString × CString) => h.Holds i e.1 e.2 := by
  constructor
  · rintro i j ⟨k, v⟩ hi hj
    exact hw.unique i j k v v hi hj
  · rintro i ⟨k, v⟩ ⟨k', v'⟩ hi hj
    have he := hi.2.2.symm.trans hj.2.2
    simp only [Slot.mk.injEq, Option.some.injEq] at he
    rw [he.2.1, he.2.2]

theorem isSome_hfind_iff (hw : h.Valid) (k : CString) : (hfind h k).isSome ↔ ∃ i v, h.Holds i k v := by
  rw [Option.isSome_iff_exists, exists_comm]
  exact exists_congr fun v => hw.hfind_eq_some_iff k v

/-! ## env_complete -/

/-- The names in slots that match, in slots of a list without repetition. -/
structure NamesAt (h : Htab) (var : CString) (is : List Nat) (names : List CString) : Prop where
  at_slots : List.Forall₂ (fun i k => ∃ v, h.Holds i k v) is names
  nodup : is.Nodup
  matches_var : ∀ i ∈ is, EntryAt h (keyStarts var) i

theorem NamesAt.mem_iff (hn : NamesAt h var is names) (hw : h.Valid)
    (k : CString) : k ∈ names ↔ ∃ i ∈ is, ∃ v, h.Holds i k v :=
  mem_iff_of_forall₂ (name_biUnique hw) hn.at_slots k

theorem NamesAt.room (hn : NamesAt h var is names) (hw : h.Valid) :
    names.Nodup ∧ ∀ k ∈ names, (hfind h k).isSome ∧ var.bytes <+: k.bytes := by
  refine ⟨(rel_nodup (name_biUnique hw) hn.at_slots).1 hn.nodup, fun k hk => ?_⟩
  obtain ⟨i, hi, v, hh⟩ := (hn.mem_iff hw k).1 hk
  refine ⟨(isSome_hfind_iff hw k).2 ⟨i, v, hh⟩, ?_⟩
  obtain ⟨k', v', hh', hp⟩ := hn.matches_var i hi
  obtain rfl : k' = k := (name_biUnique hw).2 ⟨v', hh'⟩ ⟨v, hh⟩
  exact isPrefixOf_iff_prefix.1 hp

/-- What is left of the buffer behind some names. -/
def roomLeft (bufsz : Int) (names : List CString) : Int := bufsz - ((names.map fun n => n.bytes.length + 1).sum : Nat)

theorem envCompleteBody_room (hw : h.Valid) {maxv bufsz : Int} (hroom : EnoughRoom h var maxv bufsz) {done : List Nat} (hn : NamesAt h var (done ++ [i]) (names ++ [k]))
    (hi : h.Holds i k v) :
    envCompleteBody h maxv i (names, roomLeft bufsz names) = some (true, names ++ [k], roomLeft bufsz (names ++ [k])) := by
  obtain ⟨hlen, hsum⟩ := hroom _ (hn.room hw).1 (hn.room hw).2
  have hleft : roomLeft bufsz (names ++ [k]) = roomLeft bufsz names - (k.bytes.length + 1) := by
    unfold roomLeft
    rw [map_append, sum_append, map_singleton, sum_singleton]
    push_cast
    omega
  have hroom' : ¬((names.length : Int) ≥ maxv - 2 ∨ roomLeft bufsz names < k.bytes.length + 1) := by
    rw [length_append, length_singleton] at hlen
    have : 0 ≤ roomLeft bufsz (names ++ [k]) := Int.sub_nonneg_of_le hsum
    omega
  rw [envCompleteBody, hi.2.2, hleft]
  dsimp only [Option.map_some]
  rw [if_neg hroom']

theorem envComplete_eq (hw : h.Valid) {maxv bufsz : Int} (hroom : EnoughRoom h var maxv bufsz) :
    ∃ names, envComplete var maxv bufsz h = some (qsort strcmp names) ∧ NamesAt h var (hits (passes h (matchTest var)) h.size 0) names := by
  have ht := testsFor_match h var
  have hmatch (i : Nat) (hi : i ∈ hits (passes h (matchTest var)) h.size 0) : EntryAt h (keyStarts var) i :=
    ((TestsFor.mem_hits_iff ht hw i).1 hi).2
  have hnd : (hits (passes h (matchTest var)) h.size 0).Nodup := nodup_hits
  obtain ⟨s, hs, hn, -⟩ := visit_invariant (envCompleteBody h maxv)
    (fun done s => NamesAt h var done s.1 ∧ s.2 = roomLeft bufsz s.1) (L := hits (passes h (matchTest var)) h.size 0)
    (fun done i rest s hL hR => by
      obtain ⟨names, left⟩ := s
      obtain ⟨hn, hleft⟩ := hR
      obtain rfl : left = roomLeft bufsz names := hleft
      have hL' : hits (passes h (matchTest var)) h.size 0 = (done ++ [i]) ++ rest := by
        rw [hL, append_assoc]
        rfl
      obtain ⟨k, v, hi, -⟩ := hmatch i (by rw [hL]; simp)
      have hnext : NamesAt h var (done ++ [i]) (names ++ [k]) :=
        ⟨rel_append hn.at_slots (List.Forall₂.cons ⟨v, hi⟩ List.Forall₂.nil), (nodup_append.1 (hL' ▸ hnd)).1,
          fun j hj => hmatch j (hL' ▸ mem_append_left rest hj)⟩
      exact ⟨_, envCompleteBody_room hw hroom hnext hi, hnext, rfl⟩)
    (s := ([], bufsz)) ⟨⟨List.Forall₂.nil, nodup_nil, by simp⟩, by simp [roomLeft]⟩
  refine ⟨s.1, ?_, hn⟩
  unfold envComplete hmatchR
  rw [TestsFor.whileNext_eq ht hw, hs]
  simp

theorem exists_room (hw : h.Valid) (var : CString) : ∃ maxv bufsz, EnoughRoom h var maxv bufsz := by
  obtain ⟨L, -, hl⟩ := usedEntries_lists hw
  refine ⟨(L.map Prod.fst).length + 2, (((L.map Prod.fst).map fun n => n.bytes.length + 1).sum : Nat), ?_⟩
  intro names hnd hmem
  have hsub : names ⊆ L.map Prod.fst := by
    intro k hk
    obtain ⟨v, hv⟩ := Option.isSome_iff_exists.1 (hmem k hk).1
    exact mem_map.2 ⟨(k, v), (hl.mem_iff k v).2 hv, rfl⟩
  have hperm := subperm_of_subset hnd hsub
  refine ⟨by have := hperm.length_le; omega, ?_⟩
  obtain ⟨names', hp, hs⟩ := hperm
  have h1 := (hp.map fun n : CString => n.bytes.length + 1).sum_eq
  have h2 := (hs.map fun n : CString => n.bytes.length + 1).sum_le_sum (fun _ _ => Nat.zero_le _)
  omega

/-- `env_complete` is complete exactly when the iterator is. -/
theorem completes_iff (hw : h.Valid) (var : CString) : Completes h var ↔ ¬EntryAt h (keyStarts var) h.size := by
  have hmem {maxv bufsz : Int} (hroom : EnoughRoom h var maxv bufsz) : ∃ r, envComplete var maxv bufsz h = some r ∧
      SortedBy strcmp r ∧ r.Nodup ∧ ∀ k, k ∈ r ↔ ∃ i v, i < h.size ∧ h.Holds i k v ∧ keyStarts var k v = true := by
    obtain ⟨names, heq, hn⟩ := envComplete_eq hw hroom
    have hp := qsort_perm strcmp names
    refine ⟨_, heq, qsort_sortedBy strcmp_antisymm names, hp.nodup_iff.2 (hn.room hw).1, fun k => ?_⟩
    rw [hp.mem_iff, hn.mem_iff hw]
    constructor
    · rintro ⟨i, hi, v, hh⟩
      obtain ⟨hlt, k', v', hh', hk⟩ := (TestsFor.mem_hits_iff (testsFor_match h var) hw i).1 hi
      obtain rfl : k' = k := (name_biUnique hw).2 ⟨v', hh'⟩ ⟨v, hh⟩
      exact ⟨i, v, hlt, hh, hk⟩
    · rintro ⟨i, v, hlt, hh, hk⟩
      exact ⟨i, (TestsFor.mem_hits_iff (testsFor_match h var) hw i).2 ⟨hlt, k, v, hh, hk⟩, v, hh⟩
  constructor
  · rintro hc ⟨k, v, hh, hk⟩
    obtain ⟨maxv, bufsz, hroom⟩ := exists_room hw var
    obtain ⟨r, hr, -, -, hall⟩ := hc maxv bufsz hroom
    obtain ⟨r', hr', -, -, hall'⟩ := hmem hroom
    obtain rfl := Option.some.inj (hr.symm.trans hr')
    have hin := (hall k).2 ⟨(isSome_hfind_iff hw k).2 ⟨_, v, hh⟩, isPrefixOf_iff_prefix.1 hk⟩
    obtain ⟨i, w, hlt, hi, -⟩ := (hall' k).1 hin
    exact absurd (hw.unique _ _ k w v hi hh) hlt.ne
  · intro hno maxv bufsz hroom
    obtain ⟨r, hr, hsorted, hnd, hall⟩ := hmem hroom
    refine ⟨r, hr, hsorted, hnd, fun k => ?_⟩
    rw [hall, isSome_hfind_iff hw]
    constructor
    · rintro ⟨i, v, -, hh, hk⟩
      exact ⟨⟨i, v, hh⟩, isPrefixOf_iff_prefix.1 hk⟩
    · rintro ⟨⟨i, v, hh⟩, hk⟩
      have hk' : keyStarts var k v = true := isPrefixOf_iff_prefix.2 hk
      refine ⟨i, v, lt_of_le_of_ne hh.2.1 ?_, hh, hk'⟩
      rintro rfl
      exact hno ⟨k, v, hh, hk'⟩

/-! ## do_env_grep -/

/-- The state of `do_env_grep` after the slots of a list: their bits are set, and their variables are printed. -/
structure Grepped (h : Htab) (V : List Nat) (s : GrepState) : Prop where
  length_eq : s.matched.length = h.size / 8
  marked_iff : ∀ i, Marked s.matched i ↔ i ∈ V
  printed_at : List.Forall₂ (fun i e => h.Holds i e.1 e.2) V s.printed
  nodup : V.Nodup

theorem grepped_init (h : Htab) : Grepped h [] (grepInit h) where
  length_eq := length_replicate
  marked_iff _ := iff_of_false (not_marked_zero (h.size / 8)) not_mem_nil
  printed_at := List.Forall₂.nil
  nodup := nodup_nil

/-- One match with a bit of its own: it is printed if it has not been. -/
theorem grepBody_inside (hs : Grepped h V s) (hi : h.Holds i k v)
    (hlt : i / 8 < h.size / 8) : ∃ V' s', grepBody h i s = some (true, s') ∧ Grepped h V' s' ∧ ∀ j, j ∈ V' ↔ j ∈ V ∨ j = i := by
  have hlen : i / 8 < s.matched.length := hs.length_eq ▸ hlt
  have hget : s.matched[i / 8]? = some s.matched[i / 8] := getElem?_eq_getElem hlen
  have hmark := marked_set hget
  have hbit := Lib.marked_iff hget
  have hset : (s.matched.set (i / 8) (s.matched[i / 8] ||| bitOf i)).length = h.size / 8 := by
    rw [length_set, hs.length_eq]
  by_cases hV : i ∈ V
  · have hne := hbit.1 ((hs.marked_iff i).2 hV)
    refine ⟨V, ⟨_, s.printed, 0⟩, ?_, ⟨hset, fun j => ?_, hs.printed_at, hs.nodup⟩, fun j => ?_⟩
    · rw [grepBody, hget]
      dsimp only
      exact if_neg hne
    · rw [hmark, hs.marked_iff]
      refine or_iff_left_of_imp ?_
      rintro rfl
      exact hV
    · refine (or_iff_left_of_imp ?_).symm
      rintro rfl
      exact hV
  · have heq := not_not.1 fun hne => hV ((hs.marked_iff i).1 (hbit.2 hne))
    refine ⟨V ++ [i], ⟨_, s.printed ++ [(k, v)], 0⟩, ?_, ⟨hset, fun j => ?_, ?_, ?_⟩, fun j => ?_⟩
    · rw [grepBody, hget]
      dsimp only
      rw [hi.2.2]
      exact if_pos heq
    · rw [hmark, hs.marked_iff, mem_append, mem_singleton]
    · exact rel_append hs.printed_at (List.Forall₂.cons hi List.Forall₂.nil)
    · exact nodup_append.2 ⟨hs.nodup, nodup_singleton i, fun j hj m hm => by
        rintro rfl
        exact hV (mem_singleton.1 hm ▸ hj)⟩
    · rw [mem_append, mem_singleton]

theorem grepBody_outside (hlen : s.matched.length = h.size / 8) (hge : h.size / 8 ≤ i / 8) :
    grepBody h i s = none := by
  rw [grepBody, getElem?_eq_none (hlen ▸ hge)]

/-- The body never ends the loop, and leaves the size of `matched`. -/
theorem grepBody_length (hlen : s.matched.length = h.size / 8) (i : Nat) :
    grepBody h i s = none ∨ ∃ s', grepBody h i s = some (true, s') ∧ s'.matched.length = h.size / 8 := by
  unfold grepBody
  cases s.matched[i / 8]? with
  | none => exact Or.inl rfl
  | some byte =>
    dsimp only
    split
    · split
      · exact Or.inr ⟨_, rfl, by rw [length_set, hlen]⟩
      · exact Or.inl rfl
    · exact Or.inr ⟨_, rfl, by rw [length_set, hlen]⟩

/-- No match of an argument is without a bit of its own. -/
def BitsServe (h : Htab) (m : CString) : Prop := ∀ i, h.size / 8 ≤ i / 8 → i < h.size → ¬EntryAt h (holdsText m) i

/-- The loop over the matches of an argument, if all have their bits. -/
theorem grepArg_inside (hw : h.Valid) (hserve : BitsServe h m) (hs : Grepped h V s) :
    ∃ V' s', whileNext (fun idx => hstrstrR (some m) idx h) (grepBody h) (h.size + 1) 0 s = some (0, s') ∧ Grepped h V' s' ∧
      ∀ i, i ∈ V' ↔ i ∈ V ∨ i < h.size ∧ EntryAt h (holdsText m) i := by
  have ht := testsFor_strstr h m
  have hmem := TestsFor.mem_hits_iff ht hw
  obtain ⟨s', h1, V', hs', hV'⟩ := visit_invariant (grepBody h)
    (fun done s => ∃ V', Grepped h V' s ∧ ∀ j, j ∈ V' ↔ j ∈ V ∨ j ∈ done) (L := hits (passes h (strstrTest (some m))) h.size 0)
    (fun done i rest s hL hR => by
      obtain ⟨V', hs', hV'⟩ := hR
      obtain ⟨hlt, he⟩ := (hmem i).1 (by rw [hL]; simp)
      obtain ⟨k, v, hi, -⟩ := id he
      have hbit : i / 8 < h.size / 8 := not_le.1 fun hge => hserve i hge hlt he
      obtain ⟨V'', s'', hb, hs'', hV''⟩ := grepBody_inside hs' hi hbit
      refine ⟨s'', hb, V'', hs'', fun j => ?_⟩
      rw [hV'', hV', mem_append, mem_singleton, or_assoc])
    (s := s) ⟨V, hs, by simp⟩
  refine ⟨V', s', ?_, hs', fun i => by rw [hV', hmem]⟩
  unfold hstrstrR
  rw [TestsFor.whileNext_eq ht hw, h1]

/-- And if one has not, the loop leaves `matched`. -/
theorem grepArg_outside (hw : h.Valid) (hserve : ¬BitsServe h m) (hlen : s.matched.length = h.size / 8) :
    whileNext (fun idx => hstrstrR (some m) idx h) (grepBody h) (h.size + 1) 0 s = none := by
  have ht := testsFor_strstr h m
  unfold BitsServe at hserve
  push Not at hserve
  obtain ⟨i, hge, hlt, he⟩ := hserve
  unfold hstrstrR
  rw [TestsFor.whileNext_eq ht hw]
  exact visit_stuck (grepBody h) (fun s => s.matched.length = h.size / 8) (fun i s hR => grepBody_length hR i)
    ((TestsFor.mem_hits_iff ht hw i).2 ⟨hlt, he⟩) (fun s hR => grepBody_outside hR hge) hlen

theorem grepArgs_inside (hw : h.Valid) (args : List CString) (hserve : ∀ m ∈ args, BitsServe h m)
    (hs : Grepped h V s) : ∃ V' s', grepArgs h (args.map some) s = some s' ∧ Grepped h V' s' ∧
      ∀ i, i ∈ V' ↔ i ∈ V ∨ i < h.size ∧ ∃ m ∈ args, EntryAt h (holdsText m) i := by
  induction args generalizing V s with
  | nil => exact ⟨V, s, rfl, hs, fun i => by simp⟩
  | cons m args ih =>
    obtain ⟨V₁, s₁, h1, hs₁, hV₁⟩ := grepArg_inside hw (hserve m mem_cons_self) hs
    obtain ⟨V₂, s₂, h2, hs₂, hV₂⟩ := ih (fun m' hm' => hserve m' (mem_cons_of_mem _ hm')) hs₁
    refine ⟨V₂, s₂, ?_, hs₂, fun i => ?_⟩
    · rw [map_cons, grepArgs, h1]
      exact h2
    · rw [hV₂, hV₁, exists_mem_cons_iff, and_or_left, or_assoc]

/-- And if not all have, the loop leaves `matched`. -/
theorem grepArgs_outside (hw : h.Valid) (args : List CString) (hserve : ¬∀ m ∈ args, BitsServe h m)
    (hs : Grepped h V s) : grepArgs h (args.map some) s = none := by
  induction args generalizing V s with
  | nil => exact absurd (by simp) hserve
  | cons m args ih =>
    rw [map_cons, grepArgs]
    by_cases hm : BitsServe h m
    · obtain ⟨V₁, s₁, h1, hs₁, -⟩ := grepArg_inside hw hm hs
      rw [h1]
      exact ih (fun hall => hserve (forall_mem_cons.2 ⟨hm, hall⟩)) hs₁
    · rw [grepArg_outside hw hm hs.length_eq]
      rfl

/-- What has been printed is what was to be printed, exactly when no match is in the last slot. -/
theorem printed_iff (hw : h.Valid) {args : List CString} (hs : Grepped h V s)
    (hV : ∀ i, i ∈ V ↔ i < h.size ∧ ∃ m ∈ args, EntryAt h (holdsText m) i) :
    PrintsMatches h args (some s.printed) ↔ ∀ m ∈ args, ¬EntryAt h (holdsText m) h.size := by
  have hmem := mem_iff_of_forall₂ (holds_biUnique hw) hs.printed_at
  constructor
  · rintro ⟨printed, hp, -, hall⟩ m hm ⟨k, v, hi, ht⟩
    obtain rfl := Option.some.inj hp
    obtain ⟨j, hj, hjk⟩ := (hmem (k, v)).1 ((hall k v).2 ⟨(hw.hfind_eq_some_iff k v).2 ⟨_, hi⟩, m, hm, ht⟩)
    exact absurd (hw.unique _ _ k v v hjk hi) ((hV j).1 hj).1.ne
  · intro hno
    refine ⟨_, rfl, (rel_nodup (holds_biUnique hw) hs.printed_at).1 hs.nodup, fun k v => ?_⟩
    rw [hmem, hw.hfind_eq_some_iff]
    constructor
    · rintro ⟨i, hi, hik⟩
      obtain ⟨-, m, hm, k', v', hik', ht⟩ := (hV i).1 hi
      obtain ⟨rfl, rfl⟩ := Prod.mk.inj ((holds_biUnique hw).2 hik' hik)
      exact ⟨⟨i, hik⟩, m, hm, ht⟩
    · rintro ⟨⟨i, hik⟩, m, hm, ht⟩
      refine ⟨i, (hV i).2 ⟨lt_of_le_of_ne hik.2.1 ?_, m, hm, k, v, hik, ht⟩, hik⟩
      rintro rfl
      exact hno m hm ⟨k, v, hik, ht⟩

/-- Over the arguments alone, `do_env_grep` is right exactly when no match is without a bit. -/
theorem grepArgs_iff (hw : h.Valid) (args : List CString) :
    PrintsMatches h args ((grepArgs h (args.map some) (grepInit h)).map fun s => s.printed) ↔
      ∀ m ∈ args, ∀ i, h.size / 8 ≤ i / 8 → ¬EntryAt h (holdsText m) i := by
  by_cases hserve : ∀ m ∈ args, BitsServe h m
  · obtain ⟨V, s, heq, hs, hV⟩ := grepArgs_inside hw args hserve (grepped_init h)
    rw [heq, Option.map_some, printed_iff hw hs (fun i => by simp [hV])]
    refine ⟨fun hno m hm i hge he => ?_, fun hno m hm => hno m hm h.size le_rfl⟩
    obtain ⟨k, v, hi, -⟩ := id he
    rcases Nat.lt_or_eq_of_le hi.2.1 with hlt | rfl
    · exact hserve m hm i hge hlt he
    · exact hno m hm he
  · rw [grepArgs_outside hw args hserve (grepped_init h)]
    refine iff_of_false ?_ fun hno => hserve fun m hm i hge _ => hno m hm i hge
    rintro ⟨printed, hp, -⟩
    cases hp

/-- The `NULL` behind the arguments is looked for too. -/
theorem grepArgs_null (args : List (Option CString)) (s : GrepState) :
    grepArgs h (args ++ [none]) s = (grepArgs h args s).bind (grepArgs h [none]) := by
  induction args generalizing s with
  | nil => rfl
  | cons arg args ih =>
    rw [cons_append, grepArgs, grepArgs]
    cases whileNext (fun idx => hstrstrR arg idx h) (grepBody h) (h.size + 1) 0 s with
    | none => rfl
    | some r => exact ih r.2

theorem grepArgs_null_live (h1 : 1 ≤ i) (hlt : i < h.size) (hu : 0 < (h.table i).used) (s : GrepState) :
    grepArgs h [none] s = none := by
  have hscan : h.scan (strstrTest none) (h.size + 1) (0 + 1) = none := scan_stuck (fun _ => rfl) hlt hu _ h1
  rw [grepArgs, whileNext, hstrstrR, hscan]
  rfl

theorem grepArgs_null_free (hfree : ∀ i, 1 ≤ i → i < h.size → (h.table i).used ≤ 0) (s : GrepState) : grepArgs h [none] s = some s := by
  have hnil : hits (passes h (strstrTest none)) h.size 0 = [] := by
    rw [eq_nil_iff_forall_not_mem]
    intro i hi
    obtain ⟨h0, hlt, hp⟩ := mem_hits.1 hi
    simp [passes, not_lt.2 (hfree i h0 hlt)] at hp
  have htest (i : Nat) (h1 : 1 ≤ i) (hlt : i < h.size) (hu : 0 < (h.table i).used) : (strstrTest none (h.table i)).isSome :=
    absurd hu (not_lt.2 (hfree i h1 hlt))
  rw [grepArgs, whileNext, hstrstrR, scan_eq htest (by omega) (by omega), hnil]
  rfl

/-- `do_env_grep` is right exactly when nothing is there to be found, or no argument is given. -/
theorem doEnvGrep_iff (hw : h.Valid) (args : List CString) : PrintsMatches h args ((doEnvGrep args h).map Prod.snd) ↔
    args = [] ∨ (∀ i, 1 ≤ i → i < h.size → (h.table i).used ≤ 0) ∧ ∀ m ∈ args, ¬EntryAt h (holdsText m) h.size := by
  unfold doEnvGrep
  by_cases hargs : args = []
  · refine iff_of_true ⟨[], by simp [hargs], nodup_nil, ?_⟩ (Or.inl hargs)
    simp [hargs]
  · rw [if_neg hargs, grepArgs_null, Option.map_map, or_iff_right hargs]
    by_cases hfree : ∀ i, 1 ≤ i → i < h.size → (h.table i).used ≤ 0
    · have hno (m : CString) (i : Nat) (hlt : i < h.size) : ¬EntryAt h (holdsText m) i := by
        rintro ⟨k, v, hi, -⟩
        exact absurd ((hw.used_pos_iff hi.1 hi.2.1).2 ⟨k, v, hi⟩) (not_lt.2 (hfree i hi.1 hlt))
      obtain ⟨V, s, heq, hs, hV⟩ := grepArgs_inside hw args (fun m _ i _ hlt => hno m i hlt) (grepped_init h)
      rw [heq, Option.bind_some, grepArgs_null_free hfree, and_iff_right hfree]
      exact printed_iff hw hs (fun i => by simp [hV])
    · refine iff_of_false ?_ fun hall => hfree hall.1
      push Not at hfree
      obtain ⟨i, h1, hlt, hu⟩ := hfree
      rintro ⟨printed, hp, -⟩
      cases hg : grepArgs h (args.map some) (grepInit h) with
      | none => simp [hg] at hp
      | some s =>
        rw [hg, Option.bind_some, grepArgs_null_live h1 hlt hu] at hp
        cases hp

end EnvEnumerationAux

open EnvEnumerationAux

/-- In a table reached by calls in which no `strdup` failed, the iterators and `env_complete` are complete exactly when no variable
that matches is in the last slot. `do_env_grep` would be right when moreover all matches have their bits; as it also looks for the
`NULL` behind its arguments, it is right only when there is nothing to be found. -/
theorem enumeration_iff (nel : Nat) (h₀ : Htab) (hc : hcreateR true nel none = some h₀) (hp : h₀.size.Prime) (h5 : 5 ≤ h₀.size)
    (ops : List StrdupOp) (h : Htab) (hrun : Exec (Guarded StrdupsServe (stepOf strdupStep)) h₀ ops h) :
    (∀ m, Enumerates h (fun idx => hmatchR m idx h) (keyStarts m) ↔ ¬EntryAt h (keyStarts m) h.size) ∧
      (∀ m, Enumerates h (fun idx => hstrstrR (some m) idx h) (holdsText m) ↔ ¬EntryAt h (holdsText m) h.size) ∧
      (∀ var, Completes h var ↔ ¬EntryAt h (keyStarts var) h.size) ∧
      (∀ args, PrintsMatches h args ((doEnvGrep args h).map Prod.snd) ↔
        args = [] ∨ (∀ i, 1 ≤ i → i < h.size → (h.table i).used ≤ 0) ∧ ∀ m ∈ args, ¬EntryAt h (holdsText m) h.size) ∧
      ∀ args, PrintsMatches h args ((grepArgs h (args.map some) (grepInit h)).map fun s => s.printed) ↔
        ∀ m ∈ args, ∀ i, h.size / 8 ≤ i / 8 → ¬EntryAt h (holdsText m) i := by
  have h₀_eq := HashMapAux.eq_of_hcreateR hc
  have hw : h.Valid := EnterFailureAux.valid_of_strdupExec (h₀_eq ▸ (HashMapAux.wf_fresh hp h5).toValid) hrun
  exact ⟨fun m => TestsFor.enumerates_iff (testsFor_match h m) hw, fun m => TestsFor.enumerates_iff (testsFor_strstr h m) hw,
    completes_iff hw, doEnvGrep_iff hw, grepArgs_iff hw⟩

/-- The name of the variable in the last slot of the full table. -/
def lastName : CString := oneChar 0x65

/-- The theorem where five variables fill the five slots: the names that start with `a` are all found, and of those that start with
`e` one is not. -/
theorem enumeration_iff_five : hcreateR true 4 none = some fiveSlots ∧ Nat.Prime 5 ∧
    Exec (Guarded StrdupsServe (stepOf strdupStep)) fiveSlots fillingRun filledTable ∧
    Enumerates filledTable (fun idx => hmatchR (oneChar 0x61) idx filledTable) (keyStarts (oneChar 0x61)) ∧
    Completes filledTable (oneChar 0x61) ∧ ¬Completes filledTable lastName := by
  have hp : Nat.Prime 5 := by decide
  have hrun : Exec (Guarded StrdupsServe (stepOf strdupStep)) fiveSlots fillingRun filledTable :=
    Exec.of_guarded_foldlM (Option.some_get _).symm
  have h := enumeration_iff 4 fiveSlots rfl hp (by decide) fillingRun filledTable hrun
  have hlast : filledTable.Holds 5 lastName (oneChar 0x31) := ⟨by decide, by decide, rfl⟩
  have hno : ¬EntryAt filledTable (keyStarts (oneChar 0x61)) filledTable.size := by
    rintro ⟨k, v, hi, hk⟩
    obtain rfl : lastName = k := by
      have he := hlast.2.2.symm.trans hi.2.2
      simp only [Slot.mk.injEq, Option.some.injEq] at he
      exact he.2.1
    exact absurd hk (by decide : ¬List.isPrefixOf (oneChar 0x61).bytes lastName.bytes = true)
  exact ⟨rfl, hp, hrun, (h.1 _).2 hno, (h.2.2.1 _).2 hno, fun hc => (h.2.2.1 _).1 hc ⟨_, _, hlast, by decide⟩⟩

/-- The variable in the last slot is there, but the iterators and `env_complete` do not see it, and `do_env_grep` leaves `matched`. -/
theorem enumeration_false : Exec (Guarded StrdupsServe (stepOf strdupStep)) fiveSlots fillingRun filledTable ∧
    hfind filledTable lastName = some (oneChar 0x31) ∧
    ¬Enumerates filledTable (fun idx => hmatchR lastName idx filledTable) (keyStarts lastName) ∧
    ¬Enumerates filledTable (fun idx => hstrstrR (some lastName) idx filledTable) (holdsText lastName) ∧
    envComplete lastName 10 100 filledTable = some [] ∧
    ¬PrintsMatches filledTable [lastName] ((doEnvGrep [lastName] filledTable).map Prod.snd) := by
  have hlast : filledTable.Holds 5 lastName (oneChar 0x31) := ⟨by decide, by decide, rfl⟩
  refine ⟨Exec.of_guarded_foldlM (Option.some_get _).symm, by decide, ?_, ?_, by decide, ?_⟩
  · rintro ⟨is, his, -, hall⟩
    obtain rfl := Option.some.inj ((by decide : allAnswers (fun idx => hmatchR lastName idx filledTable) 6 = some []).symm.trans his)
    exact not_mem_nil ((hall 5).2 ⟨_, _, hlast, by decide⟩)
  · rintro ⟨is, his, -, hall⟩
    obtain rfl := Option.some.inj ((by decide : allAnswers (fun idx => hstrstrR (some lastName) idx filledTable) 6 = some []).symm.trans his)
    exact not_mem_nil ((hall 5).2 ⟨_, _, hlast, by decide⟩)
  · rintro ⟨printed, hp, -⟩
    exact absurd ((by decide : doEnvGrep [lastName] filledTable = none) ▸ hp) (by simp)

end UBoot
